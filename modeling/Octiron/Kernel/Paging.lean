import Octiron.Found.Pages
import Octiron.Kzadhbat.Error

/-!
# Sv39 paging

`octiron/paging.h` and `paging.c`: three-level page tables in physical memory. A table is a page of
512 entries; an entry is invalid, points to the next table, or is a leaf.

* The `SV39_PTE_*` macros: `sv39PteValid`, `sv39PteLeaf`, `sv39PtePpn`, `sv39PtePpnToPaddr`.
* `PmmAlloc σ` — `pmm_alloc` as the paging code sees it: a function of the allocator's state and of
  memory. `World σ` is the state the paging code runs on.
* `sv39Map` and its helpers, `sv39Unmap`, `sv39VirtToPhys` — as `paging.c` computes them.
* `sv39Walk` — the walk of the Sv39 scheme, level by level; `sv39Translate` — the address it
  translates to.
-/

namespace Octiron.Kernel

open Octiron.Found
open Octiron.Found.Mem
open Octiron.Kzadhbat

/-! ## Page table entries -/

/-- Source: `paging.c` `IS_ALIGNED`, at `sv39_pageSizes[sv39_Page]`. Kind: D -/
def isAligned (addr alignment : BitVec 64) : Bool := (addr &&& (alignment - 1)) == 0

/-- Source: `paging.c` `sv39_pageSizes`. Kind: D -/
def sv39PageSizes : ℕ → BitVec 64
  | 0 => 0x1000
  | 1 => 0x200000
  | _ => 0x40000000

/-- Source: `paging.h` `SV39_FLAGS_VALID`. Kind: D -/
def sv39FlagsValid : BitVec 64 := 1

/-- Source: `paging.c` `SV39_PTE_VALID`. Kind: D -/
def sv39PteValid (pte : BitVec 64) : Bool := (pte &&& 0x1) != 0

/-- Source: `paging.c` `SV39_PTE_READABLE`. Kind: D -/
def sv39PteReadable (pte : BitVec 64) : Bool := (pte &&& 0x2) != 0

/-- Source: `paging.c` `SV39_PTE_WRITABLE`. Kind: D -/
def sv39PteWritable (pte : BitVec 64) : Bool := (pte &&& 0x4) != 0

/-- Source: `paging.c` `SV39_PTE_EXECUTABLE`. Kind: D -/
def sv39PteExecutable (pte : BitVec 64) : Bool := (pte &&& 0x8) != 0

/-- Source: `paging.c` `SV39_PTE_LEAF`. Kind: D -/
def sv39PteLeaf (pte : BitVec 64) : Bool :=
  sv39PteReadable pte || sv39PteWritable pte || sv39PteExecutable pte

/-- Source: `paging.c` `SV39_PTE_PPN`. Kind: D -/
def sv39PtePpn (pte : BitVec 64) : BitVec 64 := (pte >>> 10) &&& 0xFFFFFFFFFFF

/-- Source: `paging.c` `SV39_PTE_PPN_TO_PADDR`. Kind: D -/
def sv39PtePpnToPaddr (pte : BitVec 64) : Addr := sv39PtePpn pte <<< 12

/-- Entry `level` of the array `vpn`.
Source: `paging.c` `sv39_map_small_page`, `sv39_unmap`, `sv39_virt_to_phys`
Kind: D -/
def vpn (va : Addr) : ℕ → BitVec 64
  | 0 => (va >>> 12) &&& 0x1FF
  | 1 => (va >>> 21) &&& 0x1FF
  | _ => (va >>> 30) &&& 0x1FF

/-! ## Mapping -/

/-- What a call of `pmm_alloc` gives back.
Source: `pmm.h` `pmm_alloc`
Kind: D -/
structure PmmAllocResult (σ : Type) where
  /-- The error value returned. -/
  err : Errval
  /-- The page, as written through the pointer argument. -/
  ret : Addr
  /-- The allocator's state after the call. -/
  pmm : σ
  /-- The memory after the call. -/
  mem : Mem

/-- The allocator the paging code calls, over any state of its own.
Source: `pmm.h` `pmm_alloc`
Kind: D -/
abbrev PmmAlloc (σ : Type) := σ → Mem → BitVec 64 → PmmAllocResult σ

/-- The state the paging code runs on.
Source: none: memory and the allocator's state
Kind: D -/
structure World (σ : Type) where
  /-- Physical memory. -/
  mem : Mem
  /-- The allocator's state. -/
  pmm : σ

/-- Source: `paging.h` `sizeof(sv39_pageTable)`. Kind: D -/
def sizeofSv39PageTable : BitVec 64 := 4096

variable {σ : Type}

/-- The block that `sv39_map_small_page` has once for the level-1 and once for the level-0 table:
when the entry at `slot` is not valid, allocate a table and link it. `err` is the variable the
result of `pmm_alloc` is put in; `.error` is the early return.
Source: `paging.c` `sv39_map_small_page`
Kind: D -/
def sv39SetupTable (pmmAlloc : PmmAlloc σ) (err : Errval) (w : World σ) (slot : Addr) :
    World σ × Except Errval Errval :=
  if sv39PteValid (load64 w.mem slot) then (w, .ok err)
  else
    let r := pmmAlloc w.pmm w.mem sizeofSv39PageTable
    if errIsFail r.err then (⟨r.mem, r.pmm⟩, .error (errPush r.err .pagingSetupTable))
    else (⟨store64 r.mem slot ((r.ret >>> 2) ||| sv39FlagsValid), r.pmm⟩, .ok r.err)

/-- The leaf entry that `sv39_map_small_page` writes.
Source: `paging.c` `sv39_map_small_page` (the array `ppn` and the last assignment)
Kind: D -/
def sv39LeafEntry (pa : Addr) (flags : BitVec 64) : BitVec 64 :=
  let ppn0 := (pa >>> 12) &&& 0x1FF
  let ppn1 := (pa >>> 21) &&& 0x1FF
  let ppn2 := (pa >>> 30) &&& 0x3FFFFFF
  (ppn0 <<< 10) ||| (ppn1 <<< 19) ||| (ppn2 <<< 28) ||| flags ||| sv39FlagsValid

/-- Source: `paging.c` `sv39_map_small_page`. Kind: D -/
def sv39MapSmallPage (pmmAlloc : PmmAlloc σ) (w : World σ) (root va pa : Addr)
    (flags : BitVec 64) : World σ × Errval :=
  if !isAligned va (sv39PageSizes 0) || !isAligned pa (sv39PageSizes 0) then
    (w, GrouperError.pagingUnalignedAddress.errval)
  else
    let l2 := root
    match sv39SetupTable pmmAlloc errNew w (slot l2 (vpn va 2)) with
    | (w, .error err) => (w, err)
    | (w, .ok err) =>
      let l1 := sv39PtePpnToPaddr (load64 w.mem (slot l2 (vpn va 2)))
      match sv39SetupTable pmmAlloc err w (slot l1 (vpn va 1)) with
      | (w, .error err) => (w, err)
      | (w, .ok err) =>
        let l0 := (load64 w.mem (slot l1 (vpn va 1)) >>> 10) <<< 12
        if sv39PteValid (load64 w.mem (slot l0 (vpn va 0))) then
          (w, errPush err .pagingMappingExists)
        else
          (⟨store64 w.mem (slot l0 (vpn va 0)) (sv39LeafEntry pa flags), w.pmm⟩,
            GrouperError.ok.errval)

/-- Source: `paging.c` `sv39_map_mega_page`. Kind: D -/
def sv39MapMegaPage (w : World σ) (_root _va _pa : Addr) (_flags : BitVec 64) : World σ × Errval :=
  (w, GrouperError.notImplemented.errval)

/-- Source: `paging.c` `sv39_map_giga_page`. Kind: D -/
def sv39MapGigaPage (w : World σ) (_root _va _pa : Addr) (_flags : BitVec 64) : World σ × Errval :=
  (w, GrouperError.notImplemented.errval)

/-- The page types, and any other value the C enumeration can hold.
Source: `paging.h` `enum sv39_pageType`
Kind: D -/
inductive Sv39PageType
  | page
  | megaPage
  | gigaPage
  | other (value : BitVec 32)
  deriving DecidableEq

/-- Source: `paging.c` `sv39_map`. Kind: D -/
def sv39Map (pmmAlloc : PmmAlloc σ) (w : World σ) (root va pa : Addr) (flags : BitVec 64)
    (type : Sv39PageType) : World σ × Errval :=
  if root = 0 then (w, GrouperError.nullArgument.errval)
  else
    match type with
    | .page => sv39MapSmallPage pmmAlloc w root va pa flags
    | .megaPage => sv39MapMegaPage w root va pa flags
    | .gigaPage => sv39MapGigaPage w root va pa flags
    | .other _ => (w, GrouperError.pagingInvalidType.errval)

/-! ## Unmapping and translation -/

/-- Source: `paging.c` `sv39_unmap`. Kind: D -/
def sv39Unmap (w : World σ) (root va : Addr) : World σ × Except Errval Addr :=
  if root = 0 then (w, .error GrouperError.nullArgument.errval)
  else if !isAligned va (sv39PageSizes 0) then
    (w, .error GrouperError.pagingUnalignedAddress.errval)
  else
    let l2 := root
    let l2Entry := load64 w.mem (slot l2 (vpn va 2))
    if !sv39PteValid l2Entry then (w, .error GrouperError.pagingMappingDoesntExist.errval)
    else if sv39PteLeaf l2Entry then
      (⟨store64 w.mem (slot l2 (vpn va 2)) 0, w.pmm⟩, .ok (sv39PtePpnToPaddr l2Entry))
    else
      let l1 := sv39PtePpnToPaddr (load64 w.mem (slot l2 (vpn va 2)))
      let l1Entry := load64 w.mem (slot l1 (vpn va 1))
      if !sv39PteValid l1Entry then (w, .error GrouperError.pagingMappingDoesntExist.errval)
      else if sv39PteLeaf l1Entry then
        (⟨store64 w.mem (slot l1 (vpn va 1)) 0, w.pmm⟩, .ok (sv39PtePpnToPaddr l1Entry))
      else
        let l0 := sv39PtePpnToPaddr (load64 w.mem (slot l1 (vpn va 1)))
        let l0Entry := load64 w.mem (slot l0 (vpn va 0))
        if !sv39PteValid l0Entry then (w, .error GrouperError.pagingMappingDoesntExist.errval)
        else
          (⟨store64 w.mem (slot l0 (vpn va 0)) 0, w.pmm⟩, .ok (sv39PtePpnToPaddr l0Entry))

/-- The physical address `sv39_virt_to_phys` puts together at a leaf.
Source: `paging.c` `sv39_virt_to_phys` (the `switch` and `page_offset`)
Kind: D -/
def sv39LeafPhys (va pte : BitVec 64) (level : ℕ) : Addr :=
  let pageOffset := va &&& sv39PageSizes 0
  let ppn := sv39PtePpn pte
  let pa :=
    match level with
    | 2 => (ppn <<< 30) ||| (vpn va 1 <<< 21) ||| (vpn va 0 <<< 12)
    | 1 => (ppn <<< 21) ||| (vpn va 0 <<< 12)
    | _ => ppn <<< 12
  pa ||| pageOffset

/-- The loop of `sv39_virt_to_phys` from `level` down. The outer `none` is the
`__builtin_unreachable()` behind the loop.
Source: `paging.c` `sv39_virt_to_phys`
Kind: D -/
def sv39VirtToPhysLoop (m : Mem) (va : Addr) : ℕ → Addr → Option (Option Addr)
  | level, table =>
      let pte := load64 m (slot table (vpn va level))
      if !sv39PteValid pte then some none
      else if sv39PteLeaf pte then some (some (sv39LeafPhys va pte level))
      else
        match level with
        | 0 => none
        | level + 1 => sv39VirtToPhysLoop m va level (sv39PtePpn pte <<< 12)

/-- Source: `paging.c` `sv39_virt_to_phys`. Kind: D -/
def sv39VirtToPhys (m : Mem) (root va : Addr) : Option (Option Addr) :=
  sv39VirtToPhysLoop m va 2 root

/-! ## The Sv39 scheme -/

/-- The entry a walk from `level` down ends at, and its level: `none` at an invalid entry. At level
0 any valid entry ends the walk.
Source: none: the Sv39 scheme
Kind: D -/
def sv39Walk (m : Mem) (va : Addr) : ℕ → Addr → Option (ℕ × BitVec 64)
  | 0, table =>
      let pte := load64 m (slot table (vpn va 0))
      if sv39PteValid pte then some (0, pte) else none
  | level + 1, table =>
      let pte := load64 m (slot table (vpn va (level + 1)))
      if sv39PteValid pte then
        if sv39PteLeaf pte then some (level + 1, pte) else sv39Walk m va level (sv39PtePpnToPaddr pte)
      else none

/-- The address a leaf at `level` translates `va` to: the leaf's physical page with the low
`12 + 9 * level` bits taken from `va`.
Source: none: the Sv39 scheme
Kind: D -/
def sv39LeafTranslate (va pte : BitVec 64) (level : ℕ) : Addr :=
  (sv39PtePpnToPaddr pte &&& ~~~lowMask 64 (12 + 9 * level)) ||| (va &&& lowMask 64 (12 + 9 * level))

/-- Sv39 translation.
Source: none: the Sv39 scheme
Kind: D -/
def sv39Translate (m : Mem) (root va : Addr) : Option Addr :=
  (sv39Walk m va 2 root).map fun leaf => sv39LeafTranslate va leaf.2 leaf.1

/-- Bits 39 to 63 repeat bit 38.
Source: none: the Sv39 scheme
Kind: D -/
def Canonical (va : Addr) : Prop := ∀ i, 39 ≤ i → i < 64 → va.getLsbD i = va.getLsbD 38

instance (va : Addr) : Decidable (Canonical va) :=
  decidable_of_iff (∀ i < 64, 39 ≤ i → va.getLsbD i = va.getLsbD 38)
    ⟨fun h i h₁ h₂ => h i h₂ h₁, fun h i h₁ h₂ => h i h₂ h₁⟩

end Octiron.Kernel
