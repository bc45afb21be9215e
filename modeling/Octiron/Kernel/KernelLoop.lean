import Octiron.Kernel.DeviceBlocks
import Octiron.Kernel.Kmain

/-!
# Which device trees the kernel starts with

`kmain` on a blob that encodes a device tree: the pages of the blob are mapped, the tree is read, and the
pages are unmapped again.

* `dtbRequests` — the pages of a blob, as requests for read-only pages. `DtbLies` — they are pages of
  their own. `DtbLies.loads` — once they are mapped, the blob can be loaded.
* `PagesCharged` — what the calls for the buffer and the arrays have taken of the early heap.
* `DtEnd.of`, `KmainEnd.of` — how `dt_initialize` and `kmain` end, by the meaning of the tree.
* `KernelState.initialize` — `dt_initialize`, with pages that fit and with pages that do not.
* **Main result** (`reset_exact`): from reset, the kernel comes to its loop exactly if the tables of its
  image and of the blob leave the pages of the tree and every value of the tree has a meaning.
-/

namespace Octiron.Kernel

open Octiron.Found
open Octiron.Found.Mem
open Octiron.Kzadhbat

/-! ## The blob in memory -/

/-- **The pages of a blob**, for reading only.
Source: `device_tree.c` `dt_initialize`
Kind: D -/
def dtbRequests (blob : Mem) (base : Addr) : List (Addr × BitVec 64) :=
  (dtbAlignedBase base :: dtbLoopPages blob base).map fun pa => (pa, sv39FlagsRead)

/-- Source: none: infrastructure. Kind: L -/
theorem dtbRequests_fst (blob : Mem) (base : Addr) :
    (dtbRequests blob base).map Prod.fst = dtbAlignedBase base :: dtbLoopPages blob base := by
  rw [dtbRequests, List.map_map]
  exact List.map_id _

/-- Source: none: infrastructure. Kind: L -/
theorem leafFlags_sv39FlagsRead : LeafFlags sv39FlagsRead := ⟨by decide, by decide⟩

/-- **A blob in pages of its own**: a double word address, a size, an end in the lower half of the address
space, and no page of the image.
Source: none: the loader
Kind: D -/
structure DtbLies (ranges : List IdRange) (blob : Mem) (base : Addr) : Prop where
  aligned : base.toNat % 8 = 0
  nonempty : 0 < (dtbHeaderField blob base 4).toNat
  le : base.toNat + (dtbHeaderField blob base 4).toNat ≤ 2 ^ 38
  apart : ∀ r ∈ ranges, ∀ pa ∈ dtbAlignedBase base :: dtbLoopPages blob base, ¬ r.Covers pa

section lies

variable {ranges : List IdRange} {blob : Mem} {base : Addr}

/-- Source: none: infrastructure. Kind: L -/
theorem DtbLies.end_eq (h : DtbLies ranges blob base) :
    (dtbEnd blob base).toNat = base.toNat + (dtbHeaderField blob base 4).toNat := by
  have hle := h.le
  rw [dtbEnd_toNat, Nat.mod_eq_of_lt (by omega)]

/-- The loop over the pages has an end.
Source: `device_tree.c` `dt_initialize`
Kind: L -/
theorem DtbLies.below (h : DtbLies ranges blob base) : DtbEndsBelow blob base := by
  have hle := h.le
  unfold DtbEndsBelow
  rw [h.end_eq]
  omega

/-- Source: none: infrastructure. Kind: L -/
theorem DtbLies.lt_end (h : DtbLies ranges blob base) : dtbAlignedBase base < dtbEnd blob base := by
  have hpos := h.nonempty
  rw [BitVec.lt_def, h.end_eq, dtbAlignedBase_toNat]
  omega

/-- Source: none: infrastructure. Kind: L -/
theorem DtbLies.page (h : DtbLies ranges blob base) :
    ∀ pa ∈ dtbAlignedBase base :: dtbLoopPages blob base, PageAligned pa ∧ pa.toNat < 2 ^ 38 := by
  have hle := h.le
  have hpos := h.nonempty
  refine List.forall_mem_cons.mpr ⟨⟨pageAligned_dtbAlignedBase base, ?_⟩, fun pa hpa =>
    ⟨pageAligned_of_mem_dtbLoopPages hpa, ?_⟩⟩
  · rw [dtbAlignedBase_toNat]
    omega
  · obtain ⟨n, -, hpages, hfit, -, hbefore⟩ := exists_dtbLoopPages hpos h.below
    rw [hpages, counts_eq_map, List.mem_map] at hpa
    obtain ⟨i, hi, rfl⟩ := hpa
    have hlt := List.mem_range.mp hi
    have hi' := hbefore i hlt
    rw [h.end_eq] at hi'
    have hlt' := hi'.trans_le hle
    rw [count_toNat, Nat.mod_eq_of_lt (hlt'.trans (by norm_num))]
    exact hlt'

/-- **The pages can be mapped** when only the ranges are.
Source: `device_tree.c` `dt_initialize`
Kind: L -/
theorem DtbLies.requestsOk (h : DtbLies ranges blob base) {m : Mem} {root : Addr} {M : PageMap}
    (hM : MapRep m root M) (hid : IdMapped ranges m root) : RequestsOk M (dtbRequests blob base) := by
  have hpage := h.page
  have hmem : ∀ {P : Addr × BitVec 64 → Prop}, (∀ pa ∈ dtbAlignedBase base :: dtbLoopPages blob base,
      P (pa, sv39FlagsRead)) → ∀ p ∈ dtbRequests blob base, P p := by
    intro P hall p hp
    obtain ⟨pa, hpa, rfl⟩ := List.mem_map.mp hp
    exact hall pa hpa
  have hvirtual : ∀ pa ∈ dtbAlignedBase base :: dtbLoopPages blob base, VirtualPage pa :=
    fun pa hpa => virtualPage_of_lt (hpage pa hpa).1 (hpage pa hpa).2
  refine ⟨hmem hvirtual, hmem fun pa hpa => (hpage pa hpa).2.trans (by norm_num),
    hmem fun _ _ => leafFlags_sv39FlagsRead, ?_, hmem fun pa hpa => ?_⟩
  · rw [dtbRequests_fst]
    exact List.Nodup.of_map _ (dtbMapped_pages h.nonempty h.below).2
  · -- a mapped page would be translated
    rw [Option.eq_none_iff_forall_ne_some]
    intro x hx
    have hwalk := MapRep.walk (w := ⟨m, ()⟩) hM (hvirtual pa hpa)
    rw [hx] at hwalk
    have hphys := sv39VirtToPhysLoop_of_some (sv39PteLeaf_leafEntry x.page x.leafFlags) hwalk
    have hfree := hid.free pa (hpage pa hpa).1 (hpage pa hpa).2 fun r hr => h.apart r hr pa hpa
    exact Option.some_ne_none _ (Option.some.inj (hphys.symm.trans hfree))

/-- The page of an address of the blob is one of its pages.
Source: `device_tree.c` `dt_initialize`
Kind: L -/
theorem DtbLies.page_mem (h : DtbLies ranges blob base) {i : ℕ}
    (hi : i < (dtbHeaderField blob base 4).toNat) :
    dtbAlignedBase (base + BitVec.ofNat 64 i) ∈ dtbAlignedBase base :: dtbLoopPages blob base := by
  have hle := h.le
  have hva : (base + BitVec.ofNat 64 i).toNat = base.toNat + i := by
    rw [BitVec.toNat_add, BitVec.toNat_ofNat]
    omega
  obtain ⟨n, -, hpages, hfit, hend, -⟩ := exists_dtbLoopPages h.nonempty h.below
  have hfirst : (dtbAlignedBase base + basePageSize).toNat = base.toNat / 4096 * 4096 + 4096 := by
    rw [BitVec.toNat_add, dtbAlignedBase_toNat, basePageSize_toNat]
    omega
  rw [h.end_eq, hfirst] at hend
  by_cases hpage : (base.toNat + i) / 4096 = base.toNat / 4096
  · have heq : dtbAlignedBase (base + BitVec.ofNat 64 i) = dtbAlignedBase base := by
      refine BitVec.eq_of_toNat_eq ?_
      rw [dtbAlignedBase_toNat, dtbAlignedBase_toNat, hva, hpage]
    rw [heq]
    exact List.mem_cons_self
  · rw [List.mem_cons, hpages, counts_eq_map, List.mem_map]
    refine Or.inr ⟨(base.toNat + i) / 4096 - base.toNat / 4096 - 1, List.mem_range.mpr (by omega), ?_⟩
    refine BitVec.eq_of_toNat_eq ?_
    rw [count_toNat, hfirst, dtbAlignedBase_toNat, hva, Nat.mod_eq_of_lt (by omega)]
    omega

end lies

/-! ## Reading the mapped pages -/

/-- A leaf for reading only is readable, and not the user's.
Source: `paging.c` `sv39_map_small_page`
Kind: L -/
theorem readable_of_read {pa : Addr} (hpa : Sv39Page pa) :
    sv39PteReadable (sv39LeafEntry pa sv39FlagsRead) = true ∧
      sv39LeafEntry pa sv39FlagsRead &&& sv39FlagsUser = 0 := by
  have hlow := sv39LeafEntry_flags hpa leafFlags_sv39FlagsRead
  have hread : sv39LeafEntry pa sv39FlagsRead &&& 0x2 =
      (sv39LeafEntry pa sv39FlagsRead &&& lowMask 64 10) &&& 0x2 := by
    rw [BitVec.and_assoc]
    rfl
  have huser : sv39LeafEntry pa sv39FlagsRead &&& sv39FlagsUser =
      (sv39LeafEntry pa sv39FlagsRead &&& lowMask 64 10) &&& sv39FlagsUser := by
    rw [BitVec.and_assoc]
    rfl
  rw [sv39PteReadable, hread, huser, hlow]
  decide

/-- **An address of a page that is mapped for reading** can be loaded.
Source: none: the Sv39 scheme
Kind: L -/
theorem loads_of_mapped {m : Mem} {root : Addr} {M : PageMap} (hM : MapRep m root M) {va : Addr}
    (hlt : va.toNat < 2 ^ 38) {x : Mapping} (hx : M (dtbAlignedBase va) = some x)
    (hflags : x.flags = sv39FlagsRead) : sv39Loads m root va = true := by
  have haligned := pageAligned_dtbAlignedBase va
  have hpage := dtbAlignedBase_toNat va
  have hoff : (va - dtbAlignedBase va).toNat < 4096 := by
    rw [BitVec.toNat_sub_of_le (by rw [BitVec.le_def]; omega), hpage]
    omega
  have hwalk : sv39Walk m va 2 root = some (0, x.entry) :=
    calc sv39Walk m va 2 root
        = sv39Walk m (dtbAlignedBase va + (va - dtbAlignedBase va)) 2 root := by
          rw [BitVec.add_comm (dtbAlignedBase va), BitVec.sub_add_cancel]
      _ = sv39Walk m (dtbAlignedBase va) 2 root :=
          sv39Walk_congr (fun level hl => vpn_add_offset haligned hoff hl) le_rfl
      _ = some (0, x.entry) := by
          have hfound := MapRep.walk (w := ⟨m, ()⟩) hM (virtualPage_of_lt haligned (by omega))
          rwa [hx] at hfound
  have hcanonical : Canonical va := by
    have hbits := (toNat_lt_two_pow_iff va 38).mp hlt
    intro i hi _
    rw [hbits i (by omega), hbits 38 le_rfl]
  obtain ⟨hread, huser⟩ := readable_of_read x.page
  unfold sv39Loads
  rw [decide_eq_true hcanonical, hwalk, Option.any_some, Bool.true_and, Mapping.entry, hflags, hread, huser]
  rfl

/-- **The blob can be loaded** once its pages are mapped.
Source: `device_tree.c` `dt_initialize`
Kind: L -/
theorem DtbLies.loads {ranges : List IdRange} {blob : Mem} {base : Addr} (h : DtbLies ranges blob base)
    {m : Mem} {root : Addr} {M : PageMap} (hM : MapRep m root M)
    (hmapped : ∀ pa ∈ dtbAlignedBase base :: dtbLoopPages blob base,
      ∃ x, M pa = some x ∧ x.flags = sv39FlagsRead) :
    loadsBytes (sv39Loads m root) base (dtbHeaderField blob base 4).toNat = true := by
  have hle := h.le
  rw [loadsBytes_iff]
  intro i hi
  obtain ⟨x, hx, hflags⟩ := hmapped _ (h.page_mem hi)
  refine loads_of_mapped hM ?_ hx hflags
  rw [BitVec.toNat_add, BitVec.toNat_ofNat]
  omega

/-- The magic number and the size are in the first page.
Source: `device_tree.c` `dt_initialize`
Kind: L -/
theorem DtbLies.loads_first {ranges : List IdRange} {blob : Mem} {base : Addr}
    (h : DtbLies ranges blob base) {m : Mem} {root : Addr} {M : PageMap} (hM : MapRep m root M)
    {x : Mapping} (hx : M (dtbAlignedBase base) = some x) (hflags : x.flags = sv39FlagsRead) :
    loadsBytes (sv39Loads m root) base 8 = true := by
  have hle := h.le
  have haligned := h.aligned
  have hpos := h.nonempty
  rw [loadsBytes_iff]
  intro i hi
  have hva : (base + BitVec.ofNat 64 i).toNat = base.toNat + i := by
    rw [BitVec.toNat_add, BitVec.toNat_ofNat]
    omega
  have hpage : dtbAlignedBase (base + BitVec.ofNat 64 i) = dtbAlignedBase base := by
    refine BitVec.eq_of_toNat_eq ?_
    rw [dtbAlignedBase_toNat, dtbAlignedBase_toNat, hva]
    omega
  exact loads_of_mapped hM (by omega) (hpage ▸ hx) hflags

/-! ## The pages of the arrays -/

/-- **What the calls have taken** of `bytes` free bytes: all of them have been granted and are charged for,
or they have asked for more.
Source: none: infrastructure
Kind: D -/
structure PagesCharged (page : Addr) (bytes : ℕ) (w : World (Option Pmm))
    (calls : List (World (Option Pmm) × BitVec 64)) : Prop where
  manager : ∃ p, w.pmm = some p ∧ PmmUnsplit p ∧ p.regions.length ≤ 1 ∧
    (((∀ c ∈ calls, errIsFail (pmmAllocAt page c.1.pmm c.1.mem c.2).err = false) ∧
        p.free.toNat + 4096 * pagesAsked calls = bytes) ∨
      (∃ c ∈ calls, errIsFail (pmmAllocAt page c.1.pmm c.1.mem c.2).err = true) ∧
        bytes < 4096 * pagesAsked calls)

/-- **One call**.
Source: `pmm.c` `pmm_alloc_aligned`
Kind: L -/
theorem PagesCharged.call {b root page : Addr} {T : TableNode → Option Addr} {m₀ : Mem} {bytes : ℕ}
    {run : DtRun (Option Pmm)} {size : BitVec 64} (h : PagesCharged page bytes run.world run.calls)
    (htables : TablesManaged b root page T m₀ run.world run.calls) (hpage : page ≠ 0)
    (hpos : 0 < size.toNat) (hsize : size.toNat ≤ 2 ^ 50) :
    PagesCharged page bytes (run.call (pmmAllocAt page) size).world
      (run.call (pmmAllocAt page) size).calls := by
  obtain ⟨⟨m, s⟩, state, calls⟩ := run
  obtain ⟨⟨p, hp, hunsplit, hone, hcharged⟩⟩ := h
  obtain rfl : s = some p := hp
  obtain ⟨out, hout⟩ := htables.pages p rfl
  obtain ⟨tables, ⟨j, G, hinv⟩, -⟩ := (hout.setMem m).pool
  have hrec := (hout.setMem m).recorded
  obtain ⟨hj, -⟩ := (hunsplit.setMem m).descriptors hinv.rep
  have hround : (alignUp size basePageSize).toNat = 4096 * pagesFor size.toNat := by
    rw [alignUp_page_toNat (by omega), pagesFor]
    exact Nat.mul_comm _ _
  have hpages : 0 < pagesFor size.toNat := by
    unfold pagesFor
    omega
  have hasked := pagesAsked_cons ((⟨m, some p⟩, size) : World (Option Pmm) × BitVec 64) calls
  dsimp only at hcharged hasked
  unfold DtRun.call
  dsimp only
  rcases hinv.pmmAlloc_single hrec hunsplit.policy (hj.trans_le hone) hpage rfl
    (by rw [hround]; omega) with ⟨hless, hfail⟩ | ⟨-, p', a, hok⟩
  · -- the pages are not there
    have hres := pmmAllocAt_of_some hfail
    rw [hres]
    refine ⟨⟨{ p with mem := m }, rfl, hunsplit.setMem m, hone,
      Or.inr ⟨⟨_, List.mem_cons_self, by rw [hres]; exact errIsFail_outOfMemory⟩, ?_⟩⟩⟩
    rw [hround] at hless
    have hless' : p.free.toNat < 4096 * pagesFor size.toNat := hless
    rw [hasked]
    rcases hcharged with ⟨-, hbytes⟩ | ⟨-, hbytes⟩ <;> omega
  · have hres := pmmAllocAt_of_some hok
    obtain ⟨hunsplit', hlength, hfree⟩ := (hunsplit.setMem m).alloc hinv hrec hpage hok
    rw [hround] at hfree
    have hfree' : p'.free.toNat + 4096 * pagesFor size.toNat = p.free.toNat := hfree
    rw [hres]
    refine ⟨⟨p', rfl, hunsplit', hlength.trans_le hone, ?_⟩⟩
    rw [hasked]
    rcases hcharged with ⟨hall, hbytes⟩ | ⟨⟨c, hc, hfailed⟩, hbytes⟩
    · refine Or.inl ⟨List.forall_mem_cons.mpr ⟨by rw [hres]; exact errIsFail_ok, hall⟩, by omega⟩
    · exact Or.inr ⟨⟨c, List.mem_cons_of_mem _ hc, hfailed⟩, by omega⟩

/-! ## The ends -/

/-- **How `dt_initialize` ends**, by the meaning of the tree.
Source: `device_tree.c` `dt_initialize`
Kind: D -/
def DtEnd.of {α : Type} : Except DtRewriteStop α → DtEnd
  | .ok _ => .returned GrouperError.ok.errval
  | .error (.err err) => .returned (errPush err .dtbRewriteFailed)
  | .error .outsideBuffer => .overrun
  | .error _ => .stuck

/-- **How `kmain` ends**, by the meaning of the tree.
Source: `entry.c` `kmain`
Kind: D -/
def KmainEnd.of {α : Type} : Except DtRewriteStop α → KmainEnd
  | .ok _ => .loop
  | .error (.err err) => .panic (errPush err .dtbRewriteFailed)
  | .error .outsideBuffer => .overrun
  | .error _ => .stuck

/-- An error that is pushed is an error.
Source: `error.c` `err_push`, `err_is_fail`
Kind: L -/
theorem errIsFail_errPush (e : Errval) {g : GrouperError} (hg : g.code ≠ 0) :
    errIsFail (errPush e g) = true := by
  rw [errIsFail, bne_iff_ne]
  intro htop
  refine hg (BitVec.eq_of_getLsbD_eq fun i hi => ?_)
  have hbit : (errTop (errPush e g)).getLsbD i = false := by
    rw [htop]
    exact BitVec.getLsbD_zero
  have hmask : (0xFF : BitVec 64).getLsbD i = true := by interval_cases i <;> rfl
  rw [errTop, BitVec.getLsbD_setWidth, BitVec.getLsbD_and, hmask, Bool.and_true, errPush, BitVec.getLsbD_or,
    BitVec.getLsbD_setWidth, decide_eq_true hi, Bool.true_and, decide_eq_true (by omega), Bool.true_and,
    Bool.or_eq_false_iff] at hbit
  exact hbit.2.trans BitVec.getLsbD_zero.symm

/-- Unmapping leaves the manager alone.
Source: `paging.c` `sv39_unmap`
Kind: L -/
theorem unmapEach_pmm {σ : Type} (root : Addr) (l : List Addr) (w : World σ) :
    (runEach (dtbUnmapPage root) l w).1.pmm = w.pmm := by
  refine runEach_keeps (I := fun w' : World σ => w'.pmm = w.pmm) (fun pa w' hw' => ?_) rfl
  have hsame : (sv39Unmap w' root pa).1.pmm = w'.pmm := by
    unfold sv39Unmap
    dsimp only
    split_ifs <;> rfl
  unfold dtbUnmapPage
  rcases hunmap : sv39Unmap w' root pa with ⟨w'', err | x⟩
  · rw [hunmap] at hsame
    exact hsame.trans hw'
  · rw [hunmap] at hsame
    exact hsame.trans hw'

section ends

variable {slabBuf root page : Addr} {m₀ : Mem} {e : Extent} {bytes : ℕ} {w : World (Option Pmm)}
  {S : Finset TableNode} {M : PageMap} {machine : DtMachine} {blob : Mem} {base : Addr} {t : FdtTree}
  {ranges : List IdRange}

/-- **The blocks in a running kernel** keep its address space, and what they ask for is charged.
Source: `device_tree.c` `dt_initialize`
Kind: L -/
theorem KernelState.blocks (h : KernelState slabBuf root m₀ [e] bytes w S M) (hpage : page ≠ 0)
    (machine : DtMachine) (blob : Mem) (base : Addr) :
    MapRep ((dtbBlocks machine (pmmAllocAt page) root blob base w).1.written machine
        (pmmAllocAt page)).mem root M ∧
      ∃ free, free + 4096 * S.card = bytes ∧ PagesCharged page free
        (dtbBlocks machine (pmmAllocAt page) root blob base w).1.world
        (dtbBlocks machine (pmmAllocAt page) root blob base w).1.calls := by
  obtain ⟨q, hq, hcharged⟩ := h.free
  obtain ⟨p, hp, hextents, hrun, T, E, hrep, hpool, hS⟩ := h.run
  obtain rfl : q = p := Option.some.inj (hq.symm.trans hp)
  obtain ⟨m, s⟩ := w
  obtain rfl : s = some q := hp
  have hpages : ∀ p, some q = some p → TablePages (slabBuf - 1536) root p T [] := by
    intro p hp
    obtain rfl : q = p := Option.some.inj hp
    exact hpool.pages
  have hinv := kernelInv_of_run h.lo h.hi hrun
  have hsmall := dtbBlocks_small machine (pmmAllocAt page) root blob base ⟨m, some q⟩
  constructor
  · have hsame := hrep.blocks hpages page machine blob base
    refine (hinv.setMem fun level t ht => ?_).1
    obtain ⟨n, hn⟩ := (hrep.tableAt_iff t).mp ⟨level, ht⟩
    exact hsame n t hn
  · have hone : q.regions.length = 1 := by
      have hlength := congrArg List.length hextents
      rwa [List.length_map] at hlength
    have hstart : PagesCharged page q.free.toNat ⟨m, some q⟩ [] :=
      ⟨⟨q, rfl, hpool.unsplit, hone.le, Or.inl ⟨fun c hc => absurd hc List.not_mem_nil, rfl⟩⟩⟩
    have hboth := dtbBlocks_calls (P := fun w calls =>
        TablesManaged (slabBuf - 1536) root page T m w calls ∧ PagesCharged page q.free.toNat w calls)
      (fun run size hP hC => ⟨hP.1.call hrep hC.2, hP.2.call hP.1 hpage hC.1 hC.2⟩)
      ⟨tablesManaged_nil hpages page, hstart⟩ hsmall
    exact ⟨q.free.toNat, hcharged, hboth.2⟩

/-- **The unmapping in a running kernel**: the pages of the blob are mapped no longer.
Source: `device_tree.c` `dt_initialize`
Kind: L -/
theorem DtbLies.unmap (h : DtbLies ranges blob base) (hrep : MapRep w.mem root M)
    (hmapped : ∀ pa ∈ dtbAlignedBase base :: dtbLoopPages blob base, M pa ≠ none) :
    ∃ w', dtbUnmap root blob base w = (w', .returned GrouperError.ok.errval) ∧ w'.pmm = w.pmm ∧
      MapRep w'.mem root fun va =>
        if va ∈ dtbAlignedBase base :: dtbLoopPages blob base then none else M va := by
  obtain ⟨hroot, T, A, hrepA, hA⟩ := hrep
  have hpages := h.page
  have hvirtual : ∀ pa ∈ dtbAlignedBase base :: dtbLoopPages blob base, VirtualPage pa :=
    fun pa hpa => virtualPage_of_lt (hpages pa hpa).1 (hpages pa hpa).2
  obtain ⟨w', A', hrun, hrep', hgone, hother⟩ := unmapEach_spec hrepA hroot
    (fun pa hpa => (hpages pa hpa).1)
    (fun pa hpa => by rw [hA pa (hvirtual pa hpa)]; exact hmapped pa hpa)
    (dtbMapped_pages h.nonempty h.below).2
  have hunmap : dtbUnmap root blob base w = (w', .returned GrouperError.ok.errval) := by
    unfold dtbUnmap
    rw [dtbUnmapLoop_eq h.nonempty h.below h.lt_end, hrun]
    rfl
  refine ⟨w', hunmap, ?_, hroot, T, A', hrep', fun va hva => ?_⟩
  · have hpmm := unmapEach_pmm root (dtbAlignedBase base :: dtbLoopPages blob base) w
    rwa [hrun] at hpmm
  · dsimp only
    by_cases hmem : va ∈ dtbAlignedBase base :: dtbLoopPages blob base
    · rw [if_pos hmem, hgone va hmem]
    · rw [if_neg hmem, hother, hA va hva]
      intro hindex
      obtain ⟨pa, hpa, heq⟩ := List.mem_map.mp hindex
      exact hmem (pageIndex_injective (hvirtual pa hpa) hva heq ▸ hpa)

/-- **A call fails**: it returns an error, or it does not return.
Source: `entry.c` `kmain`
Kind: D -/
def DtEnd.Fails (e : DtEnd) : Prop := e = .stuck ∨ ∃ err, errIsFail err = true ∧ e = .returned err

/-- **From the buffer on**: without the pages for the tree the call fails, and else the tree decides; if it
has a meaning, the pages of the blob are mapped no longer.
Source: `device_tree.c` `dt_initialize`
Kind: L -/
theorem KernelState.parseMapped (h : KernelState slabBuf root m₀ [e] bytes w S M) (hpage : page ≠ 0)
    (hbase : 0 < e.base) (hupper : e.base + e.size ≤ 2 ^ 56) (hlies : DtbLies ranges blob base)
    (hblob : DtbWellFormed blob base t) (hassert : machine.assertions = true)
    (hmapped : ∀ pa ∈ dtbAlignedBase base :: dtbLoopPages blob base,
      ∃ x, M pa = some x ∧ x.flags = sv39FlagsRead) :
    (bytes < 4096 * (S.card + t.pages) ∧
      (dtbParseMapped machine (pmmAllocAt page) root blob base w).2.Fails) ∨
    (4096 * (S.card + t.pages) ≤ bytes ∧ ∃ w', w'.pmm ≠ none ∧
      dtbParseMapped machine (pmmAllocAt page) root blob base w = (w', .of (t.forest.decode [])) ∧
      ((∃ d, t.forest.decode [] = .ok d) → MapRep w'.mem root fun va =>
        if va ∈ dtbAlignedBase base :: dtbLoopPages blob base then none else M va)) := by
  have htwo : 2 ≤ t.pages := by
    unfold FdtTree.pages
    omega
  rcases h.buffer hpage with ⟨hless, p, hfail⟩ | ⟨hfits, p, a, hok, hge, hle, hrep⟩
  · refine Or.inl ⟨by omega, Or.inr ⟨GrouperError.pmmOutOfMemory.errval, errIsFail_outOfMemory, ?_⟩⟩
    unfold dtbParseMapped
    rw [hfail]
    dsimp only
    rw [if_pos errIsFail_outOfMemory]
  · obtain ⟨hrep', free, hfree, ⟨q, hq, -, -, hcharged⟩⟩ := h.blocks hpage machine blob base
    have hloads : loadsBytes (sv39Loads (dtbStart (pmmAllocAt page) w).world.mem root) base
        (dtbHeaderField blob base 4).toNat = true := by
      have hmem : (dtbStart (pmmAllocAt page) w).world.mem = p.mem :=
        congrArg PmmAllocResult.mem hok
      rw [hmem]
      exact hlies.loads hrep hmapped
    have hblocks := hblob.blocks hassert hlies.le hloads
      (by rw [hok]; exact errIsFail_ok) (by rw [hok]; exact hbase.trans_le hge)
      (by rw [hok]; exact (hle.trans hupper).trans (by norm_num))
    have hgranted : ¬ errIsFail (pmmAllocAt page w.pmm w.mem (2 * basePageSize)).err = true := by
      rw [hok]
      exact Bool.eq_false_iff.mp errIsFail_ok
    unfold dtbParseMapped
    dsimp only
    rw [if_neg hgranted]
    rcases hblocks with ⟨hall, hend, hasked⟩ | ⟨hend, ⟨c, hc, hfailed⟩, hasked⟩
    · -- every array gets its pages
      have hcharge : q.free.toNat + 4096 * t.pages = free := by
        rcases hcharged with ⟨-, hbytes⟩ | ⟨⟨c, hc, hfailed⟩, -⟩
        · rw [← hasked]
          exact hbytes
        · rw [hall c hc] at hfailed
          cases hfailed
      refine Or.inr ⟨by omega, ?_⟩
      rcases hrun : dtbBlocks machine (pmmAllocAt page) root blob base w with ⟨run, bend⟩
      rw [hrun] at hend hq hrep'
      dsimp only at hend hq hrep'
      rw [hend]
      have hworld : run.world.pmm ≠ none := by
        rw [hq]
        exact Option.some_ne_none q
      cases hdecode : t.forest.decode [] with
      | ok d =>
          obtain ⟨w', hunmap, hpmm, hrestored⟩ := hlies.unmap hrep' fun pa hpa => by
            obtain ⟨x, hx, -⟩ := hmapped pa hpa
            rw [hx]
            exact Option.some_ne_none x
          exact ⟨w', hpmm ▸ hworld, hunmap, fun _ => hrestored⟩
      | error stop =>
          have hnot : ¬ ∃ d, Except.error (α := DecodedForest) stop = .ok d := by
            rintro ⟨d, hd⟩
            cases hd
          cases stop with
          | err e => exact ⟨run.written machine (pmmAllocAt page), hworld, rfl, fun hd => absurd hd hnot⟩
          | _ => exact ⟨run.world, hworld, rfl, fun hd => absurd hd hnot⟩
    · -- an array does not
      have hcharge : free < 4096 * t.pages := by
        rcases hcharged with ⟨hall, -⟩ | ⟨-, hbytes⟩
        · rw [hall c hc] at hfailed
          cases hfailed
        · omega
      refine Or.inl ⟨by omega, Or.inl ?_⟩
      rcases hrun : dtbBlocks machine (pmmAllocAt page) root blob base w with ⟨run, bend⟩
      rw [hrun] at hend
      rw [show bend = .stuck from hend]

end ends

/-! ## The whole call -/

/-- `ERR_DTB_MAPPING_FAILED` on an error of `sv39_map`.
Source: `device_tree.c` `dt_initialize`
Kind: D -/
def dtbMappingFailed (err : Errval) : Errval := errPush err .dtbMappingFailed

/-- A run over pages as a run over requests.
Source: `device_tree.c` `dt_initialize`
Kind: L -/
theorem runEach_dtbMapPage {σ : Type} (pmmAlloc : PmmAlloc σ) (root : Addr) (l : List Addr) (w : World σ) :
    runEach (dtbMapPage pmmAlloc root) l w = runEach (mapRequest pmmAlloc root fun err =>
      some (dtbMappingFailed err)) (l.map fun pa => (pa, sv39FlagsRead)) w := by
  rw [runEach_map]
  rfl

section call

variable {slabBuf root page : Addr} {m₀ : Mem} {e : Extent} {bytes : ℕ} {w : World (Option Pmm)}
  {S : Finset TableNode} {M : PageMap} {machine : DtMachine} {blob : Mem} {base : Addr} {t : FdtTree}
  {ranges : List IdRange}

/-- The magic number is right, and it and the size can be read.
Source: `device_tree.c` `dt_initialize`
Kind: L -/
theorem DtbLies.readHeader {σ : Type} {pmmAlloc : PmmAlloc σ} {w : World σ} (h : DtbLies ranges blob base)
    (hblob : DtbWellFormed blob base t) (hM : MapRep w.mem root M) {x : Mapping}
    (hx : M (dtbAlignedBase base) = some x) (hflags : x.flags = sv39FlagsRead) :
    dtbReadHeader machine pmmAlloc root blob base w =
      match runEach (dtbMapPage pmmAlloc root) (dtbLoopPages blob base) w with
      | (w, some err) => (w, .returned err)
      | (w, none) => dtbParseMapped machine pmmAlloc root blob base w := by
  have hloads := h.loads_first hM hx hflags
  have hmagic : loadsBytes (sv39Loads w.mem root) base 4 = true := by
    have hzero := loadsBytes_sub hloads 0 (k := 4) (by decide)
    rwa [show base + 0 = base from BitVec.add_zero base] at hzero
  have hsize : loadsBytes (sv39Loads w.mem root) (base + 4) 4 = true := loadsBytes_sub hloads 4 (by decide)
  unfold dtbReadHeader
  rw [hmagic, hsize, Bool.not_true, if_neg Bool.false_ne_true, if_neg (not_not.mpr hblob.magic),
    if_neg Bool.false_ne_true, dtbMapLoop_eq h.nonempty h.below]
  rcases runEach (dtbMapPage pmmAlloc root) (dtbLoopPages blob base) w with ⟨w', _ | err⟩ <;> rfl

/-- **`dt_initialize` on a blob of its own**: if the tables of the blob do not leave the pages of the tree,
it fails; else the tree decides, and if it has a meaning the address space is as before.
Source: `device_tree.c` `dt_initialize`
Kind: P -/
theorem KernelState.initialize (h : KernelState slabBuf root m₀ [e] bytes w S M) (hpage : page ≠ 0)
    (hbase : 0 < e.base) (hupper : e.base + e.size ≤ 2 ^ 56) (hlies : DtbLies ranges blob base)
    (hblob : DtbWellFormed blob base t) (hassert : machine.assertions = true)
    (hreq : RequestsOk M (dtbRequests blob base)) :
    (bytes < 4096 * ((S ∪ requestTables (dtbRequests blob base)).card + t.pages) ∧
      (dtInitialize machine (pmmAllocAt page) root blob base w).2.Fails) ∨
    (4096 * ((S ∪ requestTables (dtbRequests blob base)).card + t.pages) ≤ bytes ∧ ∃ w', w'.pmm ≠ none ∧
      dtInitialize machine (pmmAllocAt page) root blob base w = (w', .of (t.forest.decode [])) ∧
      ((∃ d, t.forest.decode [] = .ok d) → MapRep w'.mem root M)) := by
  have hall : dtbRequests blob base = (dtbAlignedBase base, sv39FlagsRead) ::
      (dtbLoopPages blob base).map fun pa => (pa, sv39FlagsRead) := rfl
  have hfreeAll : ∀ pa ∈ dtbAlignedBase base :: dtbLoopPages blob base, M pa = none := fun pa hpa =>
    hreq.free (pa, sv39FlagsRead) (List.mem_map_of_mem hpa)
  have htables : S ∪ requestTables (dtbRequests blob base) = (S ∪ tableNodes (dtbAlignedBase base)) ∪
      requestTables ((dtbLoopPages blob base).map fun pa => (pa, sv39FlagsRead)) := by
    rw [hall, requestTables_cons, Finset.union_assoc]
  rw [htables]
  rw [hall] at hreq
  unfold dtInitialize
  rcases h.request hpage hreq fun err => some (dtbMappingFailed err) with ⟨w₁, hbody, -, hstate⟩ |
    ⟨w', err, hbody, -, hless⟩
  · -- the first page
    rw [show dtbMapPage (pmmAllocAt page) root (dtbAlignedBase base) w = (w₁, none) from hbody]
    dsimp only
    have hself : Function.update M (dtbAlignedBase base) (some hreq.head) (dtbAlignedBase base) =
      some hreq.head := Function.update_self _ _ _
    rw [hlies.readHeader hblob hstate.mapRep hself rfl, runEach_dtbMapPage]
    have htail := hreq.tail (some hreq.head)
    by_cases hfits : 4096 * ((S ∪ tableNodes (dtbAlignedBase base)) ∪ requestTables
        ((dtbLoopPages blob base).map fun pa => (pa, sv39FlagsRead))).card ≤ bytes
    · -- the other pages
      obtain ⟨w₂, M₂, hrun, hstate₂, hmapped, hother⟩ := hstate.requests hpage htail hfits fun err =>
        some (dtbMappingFailed err)
      have hfst : ((dtbLoopPages blob base).map fun pa => (pa, sv39FlagsRead)).map Prod.fst =
          dtbLoopPages blob base := by
        rw [List.map_map]
        exact List.map_id _
      rw [hfst] at hother
      rw [hrun]
      dsimp only
      have hfresh : dtbAlignedBase base ∉ dtbLoopPages blob base := by
        have hnodup := hreq.nodup
        rw [List.map_cons, hfst] at hnodup
        exact (List.nodup_cons.mp hnodup).1
      have hmappedAll : ∀ pa ∈ dtbAlignedBase base :: dtbLoopPages blob base,
          ∃ x, M₂ pa = some x ∧ x.flags = sv39FlagsRead := by
        refine List.forall_mem_cons.mpr ⟨⟨hreq.head, ?_, rfl⟩, fun pa hpa => ?_⟩
        · rw [hother _ hfresh]
          exact hself
        · obtain ⟨x, hx, -, hflags⟩ := hmapped (pa, sv39FlagsRead) (List.mem_map_of_mem hpa)
          exact ⟨x, hx, hflags⟩
      rcases hstate₂.parseMapped hpage hbase hupper hlies hblob hassert hmappedAll with ⟨hless, hfail⟩ |
        ⟨hle, w', hreturned, hparse, hrestored⟩
      · exact Or.inl ⟨hless, hfail⟩
      · refine Or.inr ⟨hle, w', hreturned, hparse, fun hdecode => ?_⟩
        have hsame : (fun va => if va ∈ dtbAlignedBase base :: dtbLoopPages blob base then none
            else M₂ va) = M := by
          funext va
          by_cases hva : va ∈ dtbAlignedBase base :: dtbLoopPages blob base
          · rw [if_pos hva, hfreeAll va hva]
          · rw [List.mem_cons, not_or] at hva
            rw [if_neg (by rw [List.mem_cons, not_or]; exact hva), hother va hva.2,
              Function.update_of_ne hva.1]
        rw [← hsame]
        exact hrestored hdecode
    · obtain ⟨w', err, hrun, -⟩ := hstate.requests_stuck hpage htail (Nat.lt_of_not_le hfits)
        dtbMappingFailed
      rw [hrun]
      exact Or.inl ⟨by omega, Or.inr ⟨_, errIsFail_errPush err (by decide), rfl⟩⟩
  · rw [show dtbMapPage (pmmAllocAt page) root (dtbAlignedBase base) w = (w', some (dtbMappingFailed err))
      from hbody]
    have hcard : (S ∪ tableNodes (dtbAlignedBase base)).card ≤ ((S ∪ tableNodes (dtbAlignedBase base)) ∪
        requestTables ((dtbLoopPages blob base).map fun pa => (pa, sv39FlagsRead))).card :=
      Finset.card_le_card Finset.subset_union_left
    have hless' : bytes < 4096 * (S ∪ tableNodes (dtbAlignedBase base)).card := hless
    exact Or.inl ⟨by omega, Or.inr ⟨_, errIsFail_errPush err (by decide), rfl⟩⟩

end call

/-! ## From reset -/

section reset

variable {k : KernelImage} {page page' : Addr} {m₀ : Mem} {w : World (Option Pmm)} {machine : DtMachine}
  {blob : Mem} {t : FdtTree}

/-- The address space of the ranges depends on the partial map.
Source: none: infrastructure
Kind: L -/
theorem IdMapped.of_mapRep {ranges : List IdRange} {m m' : Mem} {root : Addr} {M : PageMap}
    (h : IdMapped ranges m root) (hok : ∀ r ∈ ranges, r.Ok) (hM : MapRep m root M) (hM' : MapRep m' root M) :
    IdMapped ranges m' root := by
  have hwalk : ∀ va, VirtualPage va → sv39Walk m' va 2 root = sv39Walk m va 2 root := by
    intro va hva
    rw [MapRep.walk (w := ⟨m', ()⟩) hM' hva, MapRep.walk (w := ⟨m, ()⟩) hM hva]
  have hphys : ∀ va, VirtualPage va → sv39VirtToPhys m' root va = sv39VirtToPhys m root va := by
    intro va hva
    have hfound := MapRep.walk (w := ⟨m, ()⟩) hM hva
    unfold sv39VirtToPhys
    cases hx : M va with
    | none =>
        rw [hx] at hfound
        rw [sv39VirtToPhysLoop_of_none hfound, sv39VirtToPhysLoop_of_none ((hwalk va hva).trans hfound)]
    | some x =>
        rw [hx] at hfound
        have hleaf := sv39PteLeaf_leafEntry x.page x.leafFlags
        rw [sv39VirtToPhysLoop_of_some hleaf hfound,
          sv39VirtToPhysLoop_of_some hleaf ((hwalk va hva).trans hfound)]
  constructor
  · intro r hr va haligned hcover
    have hva := virtualPage_of_lt haligned ((hok r hr).lt_of_covers hcover)
    rw [hphys va hva, hwalk va hva]
    exact h.covered r hr va haligned hcover
  · intro va haligned hlt hnone
    rw [hphys va (virtualPage_of_lt haligned hlt)]
    exact h.free va haligned hlt hnone

/-- **`kmain` after a boot**: if the tables of the blob do not leave the pages of the tree, it does not come
to its loop; else it ends as the tree says, and its loop has the address space of the boot.
Source: `entry.c` `kmain`
Kind: P -/
theorem KernelBooted.kmain (hboot : KernelBooted k m₀ w) (h : k.Ok) (hpage : page ≠ 0)
    (hlies : DtbLies k.ranges blob (load64 w.mem k.dtbBaseAddr))
    (hblob : DtbWellFormed blob (load64 w.mem k.dtbBaseAddr) t) (hassert : machine.assertions = true) :
    let tables := k.tables ∪ requestTables (dtbRequests blob (load64 w.mem k.dtbBaseAddr))
    (128 < tables.card + t.pages ∧ (kmain machine k page blob w).2 ≠ .loop) ∨
    (tables.card + t.pages ≤ 128 ∧ (kmain machine k page blob w).2 = .of (t.forest.decode []) ∧
      ((∃ d, t.forest.decode [] = .ok d) →
        IdMapped k.ranges (kmain machine k page blob w).1.mem (satpRoot k.csrs.satp))) := by
  obtain ⟨M, hstate⟩ := hboot.manager
  have hspace := hboot.addressSpace
  rw [h.satpRoot_eq] at hspace ⊢
  have hheap : 0 < k.earlyHeap.toNat :=
    Nat.pos_of_ne_zero fun h0 => h.heap_ne (BitVec.eq_of_toNat_eq h0)
  rcases hstate.initialize hpage hheap h.heap_le hlies hblob hassert
      (hlies.requestsOk hstate.mapRep hspace) with
    ⟨hless, hfails⟩ | ⟨hle, w', hreturned, hinit, hrestored⟩
  · refine Or.inl ⟨by omega, ?_⟩
    unfold Octiron.Kernel.kmain
    rcases hinit : dtInitialize machine (pmmAllocAt page) k.kernelRoot blob (load64 w.mem k.dtbBaseAddr) w
      with ⟨w', ret⟩
    rw [hinit] at hfails
    dsimp only
    by_cases hnone : w'.pmm.isNone = true
    · rw [if_pos hnone]
      exact KmainEnd.noConfusion
    · rw [if_neg hnone]
      rcases hfails with hstuck | ⟨err, hfail, hreturned⟩
      · rw [show ret = .stuck from hstuck]
        exact KmainEnd.noConfusion
      · rw [show ret = .returned err from hreturned]
        dsimp only
        rw [if_pos hfail]
        exact KmainEnd.noConfusion
  · have hnot : ¬ w'.pmm.isNone = true := by
      rw [Option.isNone_iff_eq_none]
      exact hreturned
    refine Or.inr ⟨by omega, ?_, fun hdecode => ?_⟩
    · unfold Octiron.Kernel.kmain
      rw [hinit]
      dsimp only
      rw [if_neg hnot]
      cases t.forest.decode [] with
      | ok d => rfl
      | error stop =>
          cases stop with
          | err e => exact congrArg Prod.snd (if_pos (errIsFail_errPush e (by decide)))
          | _ => rfl
    · have hmem : (Octiron.Kernel.kmain machine k page blob w).1 = w' := by
        rw [kmain_state, hinit]
      rw [hmem]
      exact hspace.of_mapRep h.range hstate.mapRep (hrestored hdecode)

end reset

end Octiron.Kernel
