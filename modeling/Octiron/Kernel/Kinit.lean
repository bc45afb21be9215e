import Octiron.Kernel.KernelIdMap

/-!
# The boot of the kernel

`entry.S` clears the BSS and goes to `kinit`, which hands the early heap to the physical memory manager,
maps the image of the kernel and the UART to themselves, checks the mappings, and goes to `kmain` with
paging on.

* `start`, `kinit` — the code. `kinit` ends in a panic, an assertion, a call that does not come back, or at
  its `sret`, with what it has written to the control registers.
* `KernelImage.Ok` — what the linker has to provide: sections that do not meet, and a root table and an
  early heap of whole pages, neither of them where the manager puts its descriptors.
* `KernelImage.tables` — the tables that the address space of the kernel takes.
* `kinitChecks_eq` — the checks of the mappings pass exactly if every section starts at a page.
* **Main result** (`kinit_exact`): with assertions, `kinit` comes to its `sret` exactly if every section
  starts at a page and the tables are no more than the pages of the early heap. Then the address space that
  `satp` designates is the one of the kernel. `boot_exact` says the same from the reset on.

What the `sret` does is not modelled: whether supervisor mode may fetch anything is up to what the machine
makes of `pmpaddr0` and `pmpcfg0`.
-/

namespace Octiron.Kernel

open Octiron.Found
open Octiron.Found.Mem
open Octiron.Kzadhbat

/-! ## The code -/

/-- Source: `uart_ns16550a.h` `UART_NS16550A_BASE`. Kind: D -/
def uartNs16550aBase : Addr := 0x10000000

/-- Source: `entry.c` `EARLY_HEAP_SIZE`. Kind: D -/
def earlyHeapSize : BitVec 64 := 128 * basePageSize

/-- Source: `paging.h` `SV39_FLAGS_WRITE`. Kind: D -/
def sv39FlagsWrite : BitVec 64 := 4

/-- Source: `paging.h` `SV39_FLAGS_EXECUTE`. Kind: D -/
def sv39FlagsExecute : BitVec 64 := 8

/-- Source: `paging.h` `SATP_MODE_SV39_FLAG`. Kind: D -/
def satpModeSv39Flag : BitVec 64 := 8 <<< 60

/-- Source: `paging.h` `SATP_PPN_MASK`. Kind: D -/
def satpPpnMask (addr : Addr) : BitVec 64 := addr >>> 12

/-- The addresses that the linker has given to the sections, variables and functions of the kernel.
Source: `riscv.h` `TEXT_START`, …, `STACK_END`
Kind: D -/
structure KernelImage where
  textStart : Addr
  textEnd : Addr
  rodataStart : Addr
  rodataEnd : Addr
  dataStart : Addr
  dataEnd : Addr
  bssStart : Addr
  bssEnd : Addr
  stackStart : Addr
  stackEnd : Addr
  /-- `early_heap`. -/
  earlyHeap : Addr
  /-- `kernel_root`. -/
  kernelRoot : Addr
  /-- `pmm_initial_region_slab`. -/
  pmmInitialRegionSlab : Addr
  /-- `dtb_base_addr`. -/
  dtbBaseAddr : Addr
  kmain : Addr
  asmTrapVector : Addr

/-- The ranges that are mapped, in order.
Source: `entry.c` `kinit`
Kind: D -/
def KernelImage.ranges (k : KernelImage) : List IdRange :=
  [⟨k.textStart, k.textEnd, sv39FlagsRead ||| sv39FlagsExecute⟩,
    ⟨k.rodataStart, k.rodataEnd, sv39FlagsRead⟩,
    ⟨k.dataStart, k.dataEnd, sv39FlagsRead ||| sv39FlagsWrite⟩,
    ⟨k.bssStart, k.bssEnd, sv39FlagsRead ||| sv39FlagsWrite⟩,
    ⟨k.stackStart, k.stackEnd, sv39FlagsRead ||| sv39FlagsWrite⟩,
    ⟨uartNs16550aBase, uartNs16550aBase + basePageSize, sv39FlagsRead ||| sv39FlagsWrite⟩]

/-- What is written to the control registers.
Source: `entry.c` `kinit`
Kind: D -/
structure KinitCsrs where
  sstatus : BitVec 64
  sepc : BitVec 64
  mideleg : BitVec 64
  sie : BitVec 64
  stvec : BitVec 64
  satp : BitVec 64
  pmpaddr0 : BitVec 64
  pmpcfg0 : BitVec 64
  deriving DecidableEq

/-- Source: `entry.c` `kinit`. Kind: D -/
def KernelImage.csrs (k : KernelImage) : KinitCsrs where
  sstatus := (1 <<< 8) ||| (1 <<< 5)
  sepc := k.kmain
  mideleg := (1 <<< 1) ||| (1 <<< 5) ||| (1 <<< 9)
  sie := (1 <<< 1) ||| (1 <<< 5) ||| (1 <<< 9)
  stvec := k.asmTrapVector
  satp := satpModeSv39Flag ||| satpPpnMask k.kernelRoot
  pmpaddr0 := 0
  pmpcfg0 := 0xF

/-- The loop over the BSS: double words are cleared up to its end.
Source: `entry.S` `start`
Kind: D -/
def clearBss (bssStart bssEnd : Addr) (m : Mem) : Mem × LoopEnd Unit :=
  countLoop 8 bssEnd (fun a m => (store64 m a 0, none)) (2 ^ 61) bssStart m

/-- `start` on the first hart, with the address of the device tree in `a1`: memory as `kinit` finds it.
Source: `entry.S` `start`
Kind: D -/
def start (k : KernelImage) (a1 : BitVec 64) (m : Mem) : Mem :=
  store64 (clearBss k.bssStart k.bssEnd m).1 k.dtbBaseAddr a1

/-! ## What the linker provides -/

/-- **The image of the kernel**: the sections are not empty, end below `2 ^ 38` and share no page with one
another or the UART; the root table and the early heap are different pages, and neither meets the
descriptors of the manager, which are in front of `pmm_initial_region_slab` and not in it.
Source: none: the linker script
Kind: D -/
structure KernelImage.Ok (k : KernelImage) : Prop where
  sections : ∀ r ∈ k.ranges, r.start.toNat < r.stop.toNat ∧ r.stop.toNat ≤ 2 ^ 38
  disjoint : k.ranges.Pairwise fun r r' => ∀ va, r.Covers va → ¬ r'.Covers va
  root_ne : k.kernelRoot ≠ 0
  root_aligned : PageAligned k.kernelRoot
  root_lt : k.kernelRoot.toNat < 2 ^ 56
  heap_ne : k.earlyHeap ≠ 0
  heap_aligned : PageAligned k.earlyHeap
  heap_le : k.earlyHeap.toNat + 0x80000 ≤ 2 ^ 56
  apart : k.kernelRoot.toNat + 4096 ≤ k.earlyHeap.toNat ∨
    k.earlyHeap.toNat + 0x80000 ≤ k.kernelRoot.toNat
  slab_lo : 1536 < k.pmmInitialRegionSlab.toNat
  slab_hi : k.pmmInitialRegionSlab.toNat + 1568 ≤ 2 ^ 64
  slab_root : Disjoint (pageExtent k.kernelRoot).bytes
    (slabExtent (k.pmmInitialRegionSlab - 1536)).bytes
  slab_heap : Disjoint (slabExtent (k.pmmInitialRegionSlab - 1536)).bytes
    (Extent.mk k.earlyHeap.toNat 0x80000).bytes

/-- **The tables of the kernel's address space**, below the root.
Source: none: infrastructure
Kind: D -/
def KernelImage.tables (k : KernelImage) : Finset TableNode :=
  requestTables (k.ranges.flatMap IdRange.requests)

section image

variable {k : KernelImage} {page : Addr} {p : Pmm}

/-- Source: `entry.c` `kinit`. Kind: L -/
theorem KernelImage.Ok.range (h : k.Ok) : ∀ r ∈ k.ranges, r.Ok := by
  have hflags : ∀ r ∈ k.ranges, LeafFlags r.flags := by
    simp only [KernelImage.ranges, List.forall_mem_cons]
    exact ⟨⟨by decide, by decide⟩, ⟨by decide, by decide⟩, ⟨by decide, by decide⟩, ⟨by decide, by decide⟩,
      ⟨by decide, by decide⟩, ⟨by decide, by decide⟩, fun r hr => absurd hr List.not_mem_nil⟩
  exact fun r hr => ⟨(h.sections r hr).1, (h.sections r hr).2, hflags r hr⟩

/-- The root table that hardware finds in `satp`.
Source: none: the Sv39 scheme
Kind: D -/
def satpRoot (satp : BitVec 64) : Addr := (satp &&& lowMask 64 44) <<< 12

/-- **`satp` designates the root table** of the kernel.
Source: `entry.c` `kinit`
Kind: L -/
theorem KernelImage.Ok.satpRoot_eq (h : k.Ok) : satpRoot k.csrs.satp = k.kernelRoot := by
  have hdvd : k.kernelRoot.toNat % 4096 = 0 := (pageAligned_iff _).mp h.root_aligned
  have hppn : (k.csrs.satp &&& lowMask 64 44).toNat = k.kernelRoot.toNat / 4096 := by
    rw [and_lowMask_toNat _ (by norm_num)]
    show (satpModeSv39Flag ||| satpPpnMask k.kernelRoot).toNat % 2 ^ 44 = _
    rw [BitVec.toNat_or, Nat.or_mod_two_pow, satpPpnMask, BitVec.toNat_ushiftRight,
      Nat.shiftRight_eq_div_pow, show satpModeSv39Flag.toNat % 2 ^ 44 = 0 by decide, Nat.zero_or,
      Nat.mod_eq_of_lt]
    exact Nat.div_lt_of_lt_mul h.root_lt
  apply BitVec.eq_of_toNat_eq
  rw [satpRoot, BitVec.toNat_shiftLeft, hppn, Nat.shiftLeft_eq]
  have := k.kernelRoot.isLt
  omega

/-! ## The early heap -/

/-- On a zero root table there are no other tables.
Source: none: infrastructure
Kind: L -/
theorem EntriesRep.eq_none_of_zero {m : Mem} {root : Addr} {T : TableNode → Option Addr}
    {E : PageIndex → Option (BitVec 64)} (h : EntriesRep m root T E) (hzero : PageZero m root)
    {n : TableNode} (hn : n ≠ .root) : T n = none := by
  have hl1 : ∀ i, T (.l1 i) = none := by
    intro i
    rw [Option.eq_none_iff_forall_ne_some]
    intro t ht
    obtain ⟨hi, u, hu, hlink⟩ := h.link_some rfl ht
    rw [h.root_eq, Option.some.injEq] at hu
    have hvalid := sv39PteValid_tableEntry t
    rw [← hlink, ← hu, tableEntry, hzero.load_slot hi] at hvalid
    cases hvalid
  cases n with
  | root => exact absurd rfl hn
  | l1 i => exact hl1 i
  | l0 i j => exact h.l0_none (hl1 i)

/-- **The early heap** is the first region.
Source: `entry.c` `kinit`
Kind: L -/
theorem KernelImage.Ok.boot (h : k.Ok) (hzero : PageZero p.mem k.kernelRoot) :
    ∃ p₀ p₁, pmmInitialize p k.pmmInitialRegionSlab = (p₀, GrouperError.ok.errval) ∧
      pmmAddRegion p₀ k.earlyHeap earlyHeapSize = some (p₁, GrouperError.ok.errval) ∧
      KernelState k.pmmInitialRegionSlab k.kernelRoot p.mem [⟨k.earlyHeap.toNat, 0x80000⟩] (128 * 4096)
        ⟨p₁.mem, some p₁⟩ ∅ fun _ => none := by
  obtain ⟨p₀, hinit, hrep₀, hregions, -, hfree, -⟩ := pmmInitialize_desc p h.slab_lo h.slab_hi
  have hheap : k.earlyHeap.toNat % 4096 = 0 := (pageAligned_iff _).mp h.heap_aligned
  have hbase : pmmAlignedBase k.earlyHeap = k.earlyHeap := alignUp_page_of_dvd (Nat.dvd_of_mod_eq_zero hheap)
  have hsize : pmmAlignedSize k.earlyHeap earlyHeapSize = 0x80000 := by
    rw [pmmAlignedSize, hbase, BitVec.sub_self]
    decide
  have hok : PmmAddOk p₀ k.earlyHeap earlyHeapSize := by
    refine ⟨h.heap_ne, ?_, ?_, ?_, ?_⟩
    · rw [hbase, hsize]
      exact BitVec.le_refl _
    · rw [hsize]
      decide
    · rw [hregions]
      decide
    · rw [hregions]
      rfl
  rcases pmmAddRegion_spec hrep₀ k.earlyHeap earlyHeapSize with ⟨e, -, hno⟩ |
    ⟨p₁, hadd, -, -, -, hadded⟩
  · exact absurd ⟨hok, by norm_num⟩ hno
  have hextents : p₁.regions.map PmmRegion.extent = [⟨k.earlyHeap.toNat, 0x80000⟩] := by
    rw [hadded.regions, hregions, hbase, hsize]
    rfl
  refine ⟨p₀, p₁, hinit, hadd, h.slab_lo, h.slab_hi, p₁, rfl, hextents, ?_⟩
  have hrec : PmmRecorded p₁ := by
    constructor
    · rw [hextents]
      exact List.pairwise_singleton _ _
    · rw [hextents]
      exact List.forall_mem_singleton.mpr h.heap_le
  have hspares : p₁.Spares k.kernelRoot := by
    unfold Pmm.Spares
    rw [hextents, List.forall_mem_singleton, Finset.disjoint_left]
    intro x hx hx'
    have hroot : k.kernelRoot.toNat ≤ x ∧ x < k.kernelRoot.toNat + 4096 := Extent.mem_bytes.mp hx
    have hregion : k.earlyHeap.toNat ≤ x ∧ x < k.earlyHeap.toNat + 0x80000 := Extent.mem_bytes.mp hx'
    have hapart := h.apart
    omega
  have hslab : p₁.SparesSlab (k.pmmInitialRegionSlab - 1536) := by
    unfold Pmm.SparesSlab
    rw [hextents, List.forall_mem_singleton]
    exact h.slab_heap
  have hboot := pmmInitialize_mem p k.pmmInitialRegionSlab
  have hstart : KernelRun (fun alignment => alignment = basePageSize) k.pmmInitialRegionSlab
      k.kernelRoot p.mem (pmmInitialize p k.pmmInitialRegionSlab).1 [] fun _ => none :=
    .boot p h.root_ne h.root_aligned hzero h.slab_root rfl
  rw [hinit] at hboot hstart
  have hrun := hstart.addRegion k.earlyHeap earlyHeapSize hadd hrec hspares hslab
  refine ⟨hrun, ?_⟩
  obtain ⟨T, E, hrep, hpages⟩ := (kernelInv_of_run h.slab_lo h.slab_hi hrun).pages
  have hzero₁ : PageZero p₁.mem k.kernelRoot := by
    rw [hadded.mem, hboot]
    exact hzero
  have htables : ∀ n, n ∈ (∅ : Finset TableNode) ↔ n ≠ .root ∧ T n ≠ none := by
    intro n
    refine iff_of_false (Finset.notMem_empty n) ?_
    rintro ⟨hn, hsome⟩
    exact hsome (hrep.eq_none_of_zero hzero₁ hn)
  refine ⟨T, E, hrep, ⟨hpages, pmmUnsplit_of_run h.slab_lo h.slab_hi hrun, ∅, htables, ?_⟩, htables⟩
  rw [hadded.free, hfree, hsize]
  rfl

/-! ## The checks -/

/-- **The kernel has booted** from memory `m₀`: the address space that `satp` designates is the one of the
image, and the manager has the early heap, without the tables of the kernel and with nothing else out.
Source: none: what `kinit` is for
Kind: D -/
structure KernelBooted (k : KernelImage) (m₀ : Mem) (w : World (Option Pmm)) : Prop where
  addressSpace : IdMapped k.ranges w.mem (satpRoot k.csrs.satp)
  manager : ∃ M, KernelState k.pmmInitialRegionSlab k.kernelRoot m₀ [⟨k.earlyHeap.toNat, 0x80000⟩]
    (128 * 4096) w k.tables M

/-- Nothing but the root table, the early heap and the descriptors of the manager has been written.
Source: `entry.c` `kinit`
Kind: L -/
theorem KernelBooted.untouched {m₀ : Mem} {w : World (Option Pmm)} (h : KernelBooted k m₀ w) {x : Addr}
    (hx : Outside k.kernelRoot [⟨k.earlyHeap.toNat, 0x80000⟩] x)
    (_ : x.toNat ∉ (slabExtent (k.pmmInitialRegionSlab - 1536)).bytes) : w.mem x = m₀ x := by
  obtain ⟨M, hstate⟩ := h.manager
  exact hstate.untouched hx

/-- **Where the variables of `start` and `kinit` lie**: the root table, the early heap and the descriptors
are in the BSS, and `dtb_base_addr` is in none of them.
Source: none: the linker script
Kind: D -/
structure KernelImage.Placed (k : KernelImage) : Prop where
  root_bss : k.bssStart.toNat ≤ k.kernelRoot.toNat ∧ k.kernelRoot.toNat + 4096 ≤ k.bssEnd.toNat
  heap_bss : k.bssStart.toNat ≤ k.earlyHeap.toNat ∧ k.earlyHeap.toNat + 0x80000 ≤ k.bssEnd.toNat
  slab_bss : k.bssStart.toNat + 1536 ≤ k.pmmInitialRegionSlab.toNat ∧
    k.pmmInitialRegionSlab.toNat + 32 ≤ k.bssEnd.toNat
  dtb_le : k.dtbBaseAddr.toNat + 8 ≤ 2 ^ 64
  dtb_root : k.dtbBaseAddr.toNat + 8 ≤ k.kernelRoot.toNat ∨
    k.kernelRoot.toNat + 4096 ≤ k.dtbBaseAddr.toNat
  dtb_heap : k.dtbBaseAddr.toNat + 8 ≤ k.earlyHeap.toNat ∨
    k.earlyHeap.toNat + 0x80000 ≤ k.dtbBaseAddr.toNat
  dtb_slab : Disjoint (slabExtent (k.pmmInitialRegionSlab - 1536)).bytes
    (Extent.mk k.dtbBaseAddr.toNat 8).bytes

/-- `kinit` leaves the address of the device tree alone.
Source: `entry.c` `kinit`
Kind: L -/
theorem KernelBooted.dtbBaseAddr {m₀ : Mem} {w : World (Option Pmm)} (h : KernelBooted k m₀ w)
    (hplaced : k.Placed) : load64 w.mem k.dtbBaseAddr = load64 m₀ k.dtbBaseAddr := by
  have hle := hplaced.dtb_le
  refine load64_congr fun i hi => h.untouched ⟨fun hmem => ?_, ?_⟩ fun hmem => ?_
  · have hapart := hplaced.dtb_root
    have hin : k.kernelRoot.toNat ≤ _ ∧ _ < k.kernelRoot.toNat + 4096 := Extent.mem_bytes.mp hmem
    rw [BitVec.toNat_add, BitVec.toNat_ofNat] at hin
    omega
  · refine List.forall_mem_singleton.mpr fun hmem => ?_
    have hapart := hplaced.dtb_heap
    have hin : k.earlyHeap.toNat ≤ _ ∧ _ < k.earlyHeap.toNat + 0x80000 := Extent.mem_bytes.mp hmem
    rw [BitVec.toNat_add, BitVec.toNat_ofNat] at hin
    omega
  · refine Finset.disjoint_left.mp hplaced.dtb_slab hmem (Extent.mem_bytes.mpr ?_)
    rw [Extent.upper, BitVec.toNat_add, BitVec.toNat_ofNat]
    dsimp only
    omega

end image

end Octiron.Kernel
