import Octiron.Kzadhbat.SlabRuns

/-!
# The physical memory manager

`octiron/pmm.h` and `pmm.c`: contiguous regions of physical memory, each with a list of free blocks
sorted by address. The blocks are described by `struct pmmBlock` nodes that the manager takes from a
slab allocator of its own.

* `PmmBlock`, `PmmRegion`, `Pmm` — the structures. The nodes are kept apart from the pages they
  describe and from the slab's own words: `Pmm.blocks` is what each node holds.
* `pmmInitialize`, `pmmAddRegion`, `pmmRemoveRegion`, `pmmAllocAligned`, `pmmAlloc`, `pmmFree` — as
  `pmm.c` computes them. `none` means that the call does not return: it loops for ever (`TODO`, a
  failed `ASSERT`, a list with a cycle) or writes through `NULL`.
* `pmmFindBlock` and `pmmTakeBlock` are the search and the carving of `pmm_alloc_aligned`,
  `pmmRemoveFind` and `pmmRemoveBlock` those of `pmm_remove_region`, which are not the same.
-/

namespace Octiron.Kernel

open Octiron.Found
open Octiron.Found.Mem
open Octiron.Kzadhbat

/-! ## The structures -/

/-- A free block.
Source: `pmm.c` `struct pmmBlock`
Kind: D -/
@[ext] structure PmmBlock where
  /-- Base address of the block. -/
  base : BitVec 64
  /-- Size of the block in bytes. -/
  size : BitVec 64
  /-- The next free block of the region. -/
  next : Addr
  deriving DecidableEq

/-- A managed region.
Source: `pmm.c` `struct pmmRegion`
Kind: D -/
@[ext] structure PmmRegion where
  /-- The base address of the region. -/
  base : BitVec 64
  /-- Length of the region in bytes. -/
  size : BitVec 64
  /-- Count of total bytes free in this region. -/
  free : BitVec 64
  /-- Free list of blocks in this region. -/
  freeBlocks : Addr
  deriving DecidableEq

/-- Source: `pmm.h` `enum pmmPolicy`. Kind: D -/
inductive PmmPolicy
  | firstFit
  | bestFit
  | worstFit
  deriving DecidableEq

/-- The manager: `regions` are the first `region_count` entries of its array.
Source: `pmm.c` `struct pmm`
Kind: D -/
structure Pmm where
  /-- The regions memory can be allocated from. -/
  regions : List PmmRegion
  /-- Slab allocator for the block descriptors, with its memory. -/
  blockAllocator : Slab
  /-- What each descriptor holds. -/
  blocks : Addr → PmmBlock
  /-- Total amount of memory managed. -/
  total : BitVec 64
  /-- Total amount of free memory. -/
  free : BitVec 64
  /-- The allocation policy. -/
  policy : PmmPolicy
  /-- The pages. -/
  mem : Mem

/-- Source: `pmm.c` `PMM_REGION_COUNT`. Kind: D -/
def pmmRegionCount : ℕ := 16

/-- Source: `pmm.c` `sizeof(struct pmmBlock)`. Kind: D -/
def sizeofPmmBlock : BitVec 64 := 24

/-- Source: `pmm.c` `INITIAL_PMM_SLAB_SZ`. Kind: D -/
def initialPmmSlabSz : BitVec 64 := slabRegionSize 64 sizeofPmmBlock

/-- The link field of the descriptors.
Source: `pmm.c` `struct pmmBlock`
Kind: D -/
def Pmm.next (p : Pmm) (block : Addr) : Addr := (p.blocks block).next

/-- The manager with the descriptor at `block` set to `b`.
Source: none: infrastructure
Kind: D -/
def Pmm.setBlock (p : Pmm) (block : Addr) (b : PmmBlock) : Pmm :=
  { p with blocks := Function.update p.blocks block b }

/-- The manager with region `i` changed by `f`.
Source: none: infrastructure
Kind: D -/
def Pmm.modifyRegion (p : Pmm) (i : ℕ) (f : PmmRegion → PmmRegion) : Pmm :=
  { p with regions := p.regions.modify i f }

/-- Source: `pmm.c` `pmm_total_mem`. Kind: D -/
def pmmTotalMem (p : Pmm) : BitVec 64 := p.total

/-- Source: `pmm.c` `pmm_free_mem`. Kind: D -/
def pmmFreeMem (p : Pmm) : BitVec 64 := p.free

/-! ## Initialisation and adding regions -/

/-- `pmm_initialize`, with the static array `pmm_initial_region_slab` at `slabBuf`.
Source: `pmm.c` `pmm_initialize`
Kind: D
Fidelity: exact -/
def pmmInitialize (p : Pmm) (slabBuf : Addr) : Pmm × Errval :=
  let (s, err) := slabInit p.blockAllocator sizeofPmmBlock
  if errIsFail err then ({ p with blockAllocator := s }, errPush err .pmmInit)
  else
    let (s, err) := slabGrow s slabBuf initialPmmSlabSz
    if errIsFail err then ({ p with blockAllocator := s }, errPush err .pmmInit)
    else
      ({ p with
          blockAllocator := s
          regions := []
          total := 0
          free := 0
          policy := .firstFit }, GrouperError.ok.errval)

/-- The range that `pmm_add_region` records: the pages inside the one it is given.
Source: `pmm.c` `pmm_add_region`
Kind: D -/
def pmmAlignedBase (base : BitVec 64) : BitVec 64 := alignUp base basePageSize

/-- Source: `pmm.c` `pmm_add_region`. Kind: D -/
def pmmAlignedSize (base size : BitVec 64) : BitVec 64 :=
  alignDown (size - (pmmAlignedBase base - base)) basePageSize

/-- The test for a range that is already managed: it looks at the upper bounds alone.
Source: `pmm.c` `pmm_add_region` (`UP_BOUND`)
Kind: D -/
def pmmUpBound (alignedBase alignedSize : BitVec 64) (cur : PmmRegion) : Bool :=
  alignedBase + alignedSize ≤ cur.base + cur.size

/-- `pmm_add_region`.
Source: `pmm.c` `pmm_add_region`
Kind: D
Fidelity: exact -/
def pmmAddRegion (p : Pmm) (base size : BitVec 64) : Option (Pmm × Errval) :=
  if base = 0 then some (p, GrouperError.nullArgument.errval)
  else
    let alignedBase := pmmAlignedBase base
    let alignedSize := pmmAlignedSize base size
    if ¬ alignedBase + alignedSize ≤ base + size ∨ ¬ basePageSize ≤ alignedSize then
      some (p, GrouperError.pmmAddRegionTooSmall.errval)
    else if pmmRegionCount ≤ p.regions.length then some (p, GrouperError.pmmRegionListFull.errval)
    else if p.regions.any (pmmUpBound alignedBase alignedSize) then
      some (p, GrouperError.pmmAddManagedRegion.errval)
    else
      match slabAlloc p.blockAllocator with
      | none => none
      | some (s, freeBlock) =>
        if freeBlock = 0 then
          some ({ p with blockAllocator := s }, GrouperError.pmmSlabAllocFailed.errval)
        else
          some ({ p with
              blockAllocator := s
              regions := p.regions ++ [⟨alignedBase, alignedSize, alignedSize, freeBlock⟩]
              blocks := Function.update p.blocks freeBlock ⟨alignedBase, alignedSize, 0⟩
              total := p.total + alignedSize
              free := p.free + alignedSize }, GrouperError.ok.errval)

/-! ## Allocating -/

/-- The test of the first-fit search.
Source: `pmm.c` `pmm_alloc_aligned` (`SIZE_OK`)
Kind: D -/
def pmmSizeOk (p : Pmm) (size alignment : BitVec 64) (block : Addr) : Bool :=
  alignUp (p.blocks block).base alignment + size ≤ (p.blocks block).base + (p.blocks block).size

/-- The first-fit search over the regions from number `i` on: the region, the block before the one
found (`NULL` at the head) and the block. The inner `none` is that no block was found.
Source: `pmm.c` `pmm_alloc_aligned`, the loops
Kind: D -/
def pmmFindBlock (p : Pmm) (size alignment : BitVec 64) :
    ℕ → List PmmRegion → Option (Option (ℕ × Addr × Addr))
  | _, [] => some none
  | i, region :: rest =>
      if region.free < size then pmmFindBlock p size alignment (i + 1) rest
      else
        match chase 0 p.next (pmmSizeOk p size alignment) addressCount 0 region.freeBlocks with
        | none => none
        | some (prev, block) =>
          if block = 0 then pmmFindBlock p size alignment (i + 1) rest
          else some (some (i, prev, block))

/-- Giving a descriptor back. The source ignores what `slab_free` answers.
Source: `pmm.c` `slab_free(&pmm.block_allocator, block)`
Kind: D -/
def pmmReturnBlock (p : Pmm) (block : Addr) : Option Pmm :=
  (slabFree p.blockAllocator block).map fun r => { p with blockAllocator := r.1 }

/-- Unlinking a block and giving its descriptor back.
Source: `pmm.c` `pmm_alloc_aligned`, `pmm_remove_region`, the last two branches of each
Kind: D -/
def pmmUnlinkBlock (p : Pmm) (i : ℕ) (prev block : Addr) : Option Pmm :=
  if prev = 0 then
    pmmReturnBlock (p.modifyRegion i fun r => { r with freeBlocks := p.next block }) block
  else pmmReturnBlock (p.setBlock prev { p.blocks prev with next := p.next block }) block

/-- The counters after `size` bytes of region `i` are gone.
Source: `pmm.c` `pmm_alloc_aligned`, `pmm_remove_region`
Kind: D -/
def pmmCharge (p : Pmm) (i : ℕ) (size : BitVec 64) : Pmm :=
  { p.modifyRegion i fun r => { r with free := r.free - size } with free := p.free - size }

/-- Taking `size` bytes out of the block found: the five branches.
Source: `pmm.c` `pmm_alloc_aligned`
Kind: D
Fidelity: exact -/
def pmmTakeBlock (p : Pmm) (i : ℕ) (prev block : Addr) (size alignment : BitVec 64) : Option Pmm :=
  let b := p.blocks block
  let alignedBase := alignUp b.base alignment
  let offset := alignedBase - b.base
  if b.base ≠ alignedBase ∧ alignedBase + size < b.base + b.size then
    let p := p.setBlock block { b with size := offset }
    match slabAlloc p.blockAllocator with
    | none => none
    | some (s, extra) =>
      -- the source writes through `extra` without looking at it
      if extra = 0 then none
      else
        let p := { p with blockAllocator := s }
        let p := p.setBlock extra
          ⟨alignedBase + size, b.base + b.size - (alignedBase + size), b.next⟩
        some (p.setBlock block { p.blocks block with next := extra })
  else if b.base ≠ alignedBase then some (p.setBlock block { b with size := offset })
  else if alignedBase + size < b.base + b.size then
    some (p.setBlock block
      ⟨alignedBase + size, b.base + b.size - (alignedBase + size), b.next⟩)
  else pmmUnlinkBlock p i prev block

/-- `pmm_alloc_aligned`: the manager, the error value and what it stores through `ret`. Zeroing is
on (`ZERO_OUT_PMM_PAGE`).
Source: `pmm.c` `pmm_alloc_aligned`
Kind: D
Fidelity: exact -/
def pmmAllocAligned (p : Pmm) (size alignment : BitVec 64) (ret : Addr) :
    Option (Pmm × Errval × Addr) :=
  -- the source stores through `ret` also when it is `NULL`
  if ret = 0 then none
  else if alignment < basePageSize ∨ alignment &&& (alignment - 1) ≠ 0 then
    some (p, GrouperError.pmmBadAlignment.errval, 0)
  else
    let size := alignUp size basePageSize
    if p.free < size then some (p, GrouperError.pmmOutOfMemory.errval, 0)
    else if slabFreecount p.blockAllocator < 16 then none
    else if p.policy ≠ .firstFit then some (p, GrouperError.notImplemented.errval, 0)
    else
      match pmmFindBlock p size alignment 0 p.regions with
      | none => none
      | some none => some (p, GrouperError.pmmOutOfMemory.errval, 0)
      | some (some (i, prev, block)) =>
        match pmmTakeBlock p i prev block size alignment with
        | none => none
        | some p' =>
          let alignedBase := alignUp (p.blocks block).base alignment
          let p' := pmmCharge p' i size
          some ({ p' with mem := memset p'.mem alignedBase 0 size }, GrouperError.ok.errval,
            alignedBase)

/-- Source: `pmm.c` `pmm_alloc`. Kind: D -/
def pmmAlloc (p : Pmm) (size : BitVec 64) (ret : Addr) : Option (Pmm × Errval × Addr) :=
  pmmAllocAligned p size basePageSize ret

/-- Source: `pmm.c` `pmm_free`. Kind: D -/
def pmmFree (p : Pmm) (_ret : Addr) : Pmm × Errval := (p, GrouperError.notImplemented.errval)

/-! ## Removing regions -/

/-- The loop that moves the regions behind number `j` down by one, `n` rounds of it.
Source: `pmm.c` `pmm_remove_region`
Kind: D -/
def pmmShiftLoop : ℕ → ℕ → List PmmRegion → List PmmRegion
  | 0, _, regions => regions
  | n + 1, j, regions =>
      match regions[j + 1]? with
      | none => regions
      | some r => pmmShiftLoop n (j + 1) (regions.set j r)

/-- Source: `pmm.c` `pmm_remove_region` (`UP_BOUND`). Kind: D -/
def pmmRemoveUpBound (p : Pmm) (alignedBase alignedSize : BitVec 64) (block : Addr) : Bool :=
  alignedBase + alignedSize ≤ (p.blocks block).base + (p.blocks block).size

/-- Taking a range out of the block it lies in. Where the range ends before the block, the size of
the rest is computed from fields that have been overwritten by then.
Source: `pmm.c` `pmm_remove_region`
Kind: D
Fidelity: exact -/
def pmmRemoveBlock (p : Pmm) (i : ℕ) (prev block : Addr) (alignedBase alignedSize : BitVec 64) :
    Option (Pmm × Errval) :=
  let b := p.blocks block
  let offset := alignedBase - b.base
  if b.base ≠ alignedBase ∧ alignedBase + alignedSize < b.base + b.size then
    let b := { b with size := offset }
    let p := p.setBlock block b
    match slabAlloc p.blockAllocator with
    | none => none
    | some (s, extra) =>
      let p := { p with blockAllocator := s }
      if extra = 0 then some (p, GrouperError.pmmSlabAllocFailed.errval)
      else
        let p := p.setBlock extra
          ⟨alignedBase + alignedSize, b.base + b.size - (alignedBase + alignedSize), b.next⟩
        some (pmmCharge (p.setBlock block { p.blocks block with next := extra }) i alignedSize,
          GrouperError.ok.errval)
  else if b.base ≠ alignedBase then
    some (pmmCharge (p.setBlock block { b with size := offset }) i alignedSize,
      GrouperError.ok.errval)
  else if alignedBase + alignedSize < b.base + b.size then
    let b := { b with base := alignedBase + alignedSize }
    let b := { b with size := b.base + b.size - (alignedBase + alignedSize) }
    some (pmmCharge (p.setBlock block b) i alignedSize, GrouperError.ok.errval)
  else
    (pmmUnlinkBlock p i prev block).map fun p =>
      (pmmCharge p i alignedSize, GrouperError.ok.errval)

/-- What `pmm_remove_region` comes upon: a whole region that is free, a block around the range, a
range that is not free, or no region around it.
Source: `pmm.c` `pmm_remove_region`
Kind: D -/
inductive PmmRemoveTarget
  | whole (i : ℕ) (region : PmmRegion)
  | part (i : ℕ) (prev block : Addr)
  | allocatedFrom
  | notManaged

/-- The search of `pmm_remove_region` over the regions from number `i` on.
Source: `pmm.c` `pmm_remove_region`, the loops
Kind: D
Fidelity: exact -/
def pmmRemoveFind (p : Pmm) (alignedBase alignedSize : BitVec 64) :
    ℕ → List PmmRegion → Option PmmRemoveTarget
  | _, [] => some .notManaged
  | i, region :: rest =>
      if alignedBase = region.base ∧ alignedSize = region.size then
        if region.free ≠ region.size then some .allocatedFrom else some (.whole i region)
      else if region.base ≤ alignedBase ∧
          alignedBase + alignedSize ≤ region.base + region.size then
        match chase 0 p.next (pmmRemoveUpBound p alignedBase alignedSize) addressCount 0
            region.freeBlocks with
        | none => none
        | some (prev, block) =>
          if block = 0 then pmmRemoveFind p alignedBase alignedSize (i + 1) rest
          else if (p.blocks block).base ≤ alignedBase then some (.part i prev block)
          else some .allocatedFrom
      else pmmRemoveFind p alignedBase alignedSize (i + 1) rest

/-- Removing a whole region: the regions behind it move down, but `region_count` stays as it is.
Source: `pmm.c` `pmm_remove_region` (`EXACT_FIT`)
Kind: D
Fidelity: exact -/
def pmmRemoveWhole (p : Pmm) (i : ℕ) (region : PmmRegion) : Option (Pmm × Errval) :=
  (pmmReturnBlock p region.freeBlocks).map fun p =>
    ({ p with
        free := p.free - region.size
        total := p.total - region.size
        regions := pmmShiftLoop (p.regions.length - 1 - i) i p.regions },
      GrouperError.ok.errval)

/-- `pmm_remove_region`; `assertions` is whether the build has `ENABLE_ASSERTIONS`.
Source: `pmm.c` `pmm_remove_region`
Kind: D
Fidelity: exact -/
def pmmRemoveRegion (assertions : Bool) (p : Pmm) (base size : BitVec 64) : Option (Pmm × Errval) :=
  let alignedBase := alignDown base basePageSize
  let alignedSize := alignUp size basePageSize
  if assertions = true ∧ ¬ alignedBase + alignedSize ≤ base + size then none
  else if ¬ basePageSize ≤ alignedSize then some (p, GrouperError.ok.errval)
  else
    match pmmRemoveFind p alignedBase alignedSize 0 p.regions with
    | none => none
    | some (.whole i region) => pmmRemoveWhole p i region
    | some (.part i prev block) => pmmRemoveBlock p i prev block alignedBase alignedSize
    | some .allocatedFrom => some (p, GrouperError.pmmRegionAllocatedFrom.errval)
    | some .notManaged => some (p, GrouperError.pmmRegionNotManaged.errval)

end Octiron.Kernel
