import Octiron.Kernel.PmmRuns

/-!
# Calls of the physical memory manager that fail

What a call leaves behind when it answers with an error, in any state that the manager can get into.
Removals may leave free lists that share descriptors or run in a circle, so nothing here asks for
chains: only for pointers that stay among the descriptors.

* `PmmOp.call` — a call, with its answer.
* `PmmPtr b j d`, `PmmPtrs b p j` — every pointer of the manager is `NULL` or one of the `j`
  descriptors that the slab has given out. `pmmPtrs_of_reach`: so it is in every reachable state.
* `PmmOp.SplitsWithoutDescriptor` — the removals from the middle of a block that find the slab empty.
* **Main result** (`pmmFailsClean_iff`): a failing call changes nothing unless it is one of those.
-/

namespace Octiron.Kernel

open Octiron.Found
open Octiron.Found.Mem
open Octiron.Kzadhbat

/-! ## Calls and their answers -/

/-- The manager and the answer after a call that returns.
Source: `pmm.h`
Kind: D -/
def PmmOp.call (assertions : Bool) (p : Pmm) : PmmOp → Option (Pmm × Errval)
  | .addRegion base size => pmmAddRegion p base size
  | .allocAligned size alignment ret =>
      (pmmAllocAligned p size alignment ret).map fun r => (r.1, r.2.1)
  | .removeRegion base size => pmmRemoveRegion assertions p base size

/-- Source: none: infrastructure. Kind: L -/
theorem PmmOp.run_eq_call (assertions : Bool) (p : Pmm) (op : PmmOp) :
    op.run assertions p = (op.call assertions p).map Prod.fst := by
  cases op with
  | addRegion base size => rfl
  | allocAligned size alignment ret =>
      unfold PmmOp.run PmmOp.call
      rw [Option.map_map]
      rfl
  | removeRegion base size => rfl

/-- **A failing call changes nothing**: when the call returns and its answer is not `ERR_OK`, the
manager is what it was.
Source: none: what the callers of `pmm.c` rely on
Kind: D -/
def PmmFailsClean (assertions : Bool) (p : Pmm) (op : PmmOp) : Prop :=
  ∀ p' e, op.call assertions p = some (p', e) → e ≠ GrouperError.ok.errval → p' = p

/-- **The removals that cut a block short and then fail**: the range has free pages of its block
before and behind it, and there is no descriptor for those behind it. The last condition says that
the block is really cut; it fails only where `alignedBase + alignedSize` wraps around.
Source: `pmm.c` `pmm_remove_region` (`EXISTS_PRECEEDING && EXISTS_POSTCEEDING`)
Kind: D -/
def PmmOp.SplitsWithoutDescriptor (assertions : Bool) (p : Pmm) : PmmOp → Prop
  | .addRegion _ _ => False
  | .allocAligned _ _ _ => False
  | .removeRegion base size =>
      let alignedBase := alignDown base basePageSize
      let alignedSize := alignUp size basePageSize
      (assertions = true → alignedBase + alignedSize ≤ base + size) ∧
      basePageSize ≤ alignedSize ∧ slabFreecount p.blockAllocator = 0 ∧
      ∃ i prev block,
        pmmRemoveFind p alignedBase alignedSize 0 p.regions = some (.part i prev block) ∧
        (p.blocks block).base ≠ alignedBase ∧
        alignedBase + alignedSize < (p.blocks block).base + (p.blocks block).size ∧
        (p.blocks block).size ≠ alignedBase - (p.blocks block).base

/-! ## Where the pointers point -/

/-- The pointer is `NULL` or one of the first `j` blocks of the slab.
Source: none: infrastructure
Kind: D -/
def PmmPtr (b : Addr) (j : ℕ) (d : Addr) : Prop := d = 0 ∨ ∃ i < j, d = pmmNode b i

/-- **All pointers of the manager are among the descriptors given out**: the heads of the free lists
and the links of the descriptors.
Source: none: infrastructure
Kind: D -/
structure PmmPtrs (b : Addr) (p : Pmm) (j : ℕ) : Prop where
  home : SlabHome b
  slab : SlabAt b 1536 64 j p.blockAllocator
  blocksize : p.blockAllocator.slabs.blocksize = 24
  heads : ∀ r ∈ p.regions, PmmPtr b j r.freeBlocks
  links : ∀ d, PmmPtr b j d → d ≠ 0 → PmmPtr b j (p.next d)

section ptrs

variable {b : Addr} {p p' : Pmm} {j : ℕ}

/-- Source: none: infrastructure. Kind: L -/
theorem PmmPtr.succ {d : Addr} (h : PmmPtr b j d) : PmmPtr b (j + 1) d := by
  rcases h with rfl | ⟨i, hi, rfl⟩
  · exact Or.inl rfl
  · exact Or.inr ⟨i, Nat.lt_succ_of_lt hi, rfl⟩

/-- **Giving a descriptor back has no effect**, in any state.
Source: `slab.c` `slab_free`
Kind: L -/
theorem PmmPtrs.pmmReturnBlock_eq (h : PmmPtrs b p j) {d : Addr} (hd : PmmPtr b j d) :
    pmmReturnBlock p d = some p := by
  have hfree : ∃ e, slabFree p.blockAllocator d = some (p.blockAllocator, e) := by
    by_cases hzero : d = 0
    · refine ⟨errPush errNew .nullArgument, ?_⟩
      unfold slabFree
      rw [if_pos hzero]
    · obtain ⟨i, hi, rfl⟩ := hd.resolve_left hzero
      exact ⟨_, slabFree_of_slabAt h.slab hzero (pmmNode_le_header h.home (hi.le.trans h.slab.le))⟩
  obtain ⟨e, hfree⟩ := hfree
  rw [pmmReturnBlock, hfree]
  rfl

/-- What `slab_alloc` does: it gives block `j`, or nothing and stays as it is.
Source: `slab.c` `slab_alloc`
Kind: L -/
theorem PmmPtrs.slabAlloc_cases (h : PmmPtrs b p j) :
    (slabFreecount p.blockAllocator = 0 ∧
      slabAlloc p.blockAllocator = some (p.blockAllocator, 0)) ∨
    slabFreecount p.blockAllocator ≠ 0 ∧ pmmNode b j ≠ 0 ∧
      ∃ s, slabAlloc p.blockAllocator = some (s, pmmNode b j) ∧ SlabAt b 1536 64 (j + 1) s ∧
        s.slabs.blocksize = 24 := by
  have hle := h.slab.le
  have hcount : (slabFreecount p.blockAllocator).toNat = 64 - j := h.slab.free_toNat
  rcases Nat.lt_or_ge j 64 with hj | hj
  · obtain ⟨s, halloc, hat, hsize⟩ := slabAlloc_of_slabAt h.slab hj
    rw [h.blocksize] at halloc
    refine Or.inr ⟨fun h0 => ?_, pmmNode_ne_zero h.home hle, s, halloc, hat, hsize.trans h.blocksize⟩
    rw [h0] at hcount
    change 0 = _ at hcount
    omega
  · obtain rfl : j = 64 := le_antisymm hle hj
    refine Or.inl ⟨?_, slabAlloc_of_slabAt_full h.slab⟩
    apply BitVec.eq_of_toNat_eq
    rw [hcount]
    rfl

/-- Source: none: infrastructure. Kind: L -/
theorem PmmPtrs.setBlock (h : PmmPtrs b p j) {d : Addr} {c : PmmBlock} (hc : PmmPtr b j c.next) :
    PmmPtrs b (p.setBlock d c) j := by
  refine ⟨h.home, h.slab, h.blocksize, h.heads, fun q hq hq0 => ?_⟩
  rw [Pmm.setBlock_next]
  by_cases hqd : q = d
  · subst hqd
    rw [Function.update_self]
    exact hc
  · rw [Function.update_of_ne hqd]
    exact h.links q hq hq0

/-- Changing a region.
Source: none: infrastructure
Kind: L -/
theorem PmmPtrs.modifyRegion (h : PmmPtrs b p j) (i : ℕ) {f : PmmRegion → PmmRegion}
    (hf : ∀ r ∈ p.regions, PmmPtr b j (f r).freeBlocks) : PmmPtrs b (p.modifyRegion i f) j := by
  refine ⟨h.home, h.slab, h.blocksize, fun r hr => ?_, h.links⟩
  change r ∈ p.regions.modify i f at hr
  obtain ⟨k, hk⟩ := List.getElem?_of_mem hr
  rw [List.getElem?_modify] at hk
  obtain ⟨q, hq, rfl⟩ := Option.map_eq_some_iff.mp hk
  have hmem := List.mem_of_getElem? hq
  split_ifs
  · exact hf q hmem
  · exact h.heads q hmem

/-- Only the slab, the heads and the links matter.
Source: none: infrastructure
Kind: L -/
theorem PmmPtrs.congr (h : PmmPtrs b p j) (hslab : p'.blockAllocator = p.blockAllocator)
    (hheads : ∀ r ∈ p'.regions, ∃ q ∈ p.regions, r.freeBlocks = q.freeBlocks)
    (hnext : p'.next = p.next) : PmmPtrs b p' j := by
  refine ⟨h.home, hslab ▸ h.slab, hslab ▸ h.blocksize, fun r hr => ?_, ?_⟩
  · obtain ⟨q, hq, heq⟩ := hheads r hr
    rw [heq]
    exact h.heads q hq
  · rw [hnext]
    exact h.links

/-- Source: none: infrastructure. Kind: L -/
theorem PmmPtrs.pmmCharge (h : PmmPtrs b p j) (i : ℕ) (size : BitVec 64) :
    PmmPtrs b (pmmCharge p i size) j := by
  have hregion := h.modifyRegion i (f := fun r => { r with free := r.free - size }) h.heads
  exact hregion.congr rfl (fun r hr => ⟨r, hr, rfl⟩) rfl

/-- The slab gives a new descriptor, whose link is set.
Source: none: infrastructure
Kind: L -/
theorem PmmPtrs.takeNode (h : PmmPtrs b p j) {s : Slab} (hat : SlabAt b 1536 64 (j + 1) s)
    (hsize : s.slabs.blocksize = 24) {c : PmmBlock} (hc : PmmPtr b j c.next) :
    PmmPtrs b (Pmm.setBlock { p with blockAllocator := s } (pmmNode b j) c) (j + 1) := by
  refine ⟨h.home, hat, hsize, fun r hr => (h.heads r hr).succ, fun q hq hq0 => ?_⟩
  rw [Pmm.setBlock_next]
  by_cases hqj : q = pmmNode b j
  · subst hqj
    rw [Function.update_self]
    exact hc.succ
  · rw [Function.update_of_ne hqj]
    obtain ⟨i, hi, rfl⟩ := hq.resolve_left hq0
    have hlt : i < j := by
      rcases Nat.lt_or_ge i j with hlt | hge
      · exact hlt
      · exact absurd (by rw [show i = j by omega]) hqj
    exact (h.links _ (Or.inr ⟨i, hlt, rfl⟩) hq0).succ

/-- Unlinking a block and giving it back.
Source: `pmm.c` `pmm_alloc_aligned`, `pmm_remove_region`, the last two branches of each
Kind: L -/
theorem PmmPtrs.unlinkBlock (h : PmmPtrs b p j) {i : ℕ} {prev block : Addr}
    (hblock : PmmPtr b j block) (hblock0 : block ≠ 0)
    (hrun : pmmUnlinkBlock p i prev block = some p') : PmmPtrs b p' j := by
  have hnext := h.links block hblock hblock0
  unfold pmmUnlinkBlock at hrun
  split_ifs at hrun
  · have hregion := h.modifyRegion i (f := fun r => { r with freeBlocks := p.next block })
      fun _ _ => hnext
    rw [hregion.pmmReturnBlock_eq hblock] at hrun
    cases hrun
    exact hregion
  · have hprev := h.setBlock (d := prev) (c := { p.blocks prev with next := p.next block }) hnext
    rw [hprev.pmmReturnBlock_eq hblock] at hrun
    cases hrun
    exact hprev

/-! ## The operations keep the pointers -/

/-- Where the search of `pmm_alloc_aligned` ends: at a block that passes the test and that has every
property of the heads which the links keep.
Source: `pmm.c` `pmm_alloc_aligned`
Kind: L -/
theorem pmmFindBlock_invariant {S : Addr → Prop} (hzero : S 0)
    (hnext : ∀ d, S d → d ≠ 0 → S (p.next d)) {size alignment : BitVec 64}
    {regions : List PmmRegion} (hregions : ∀ r ∈ regions, S r.freeBlocks) {k i : ℕ}
    {prev block : Addr}
    (hrun : pmmFindBlock p size alignment k regions = some (some (i, prev, block))) :
    S block ∧ block ≠ 0 ∧ pmmSizeOk p size alignment block = true := by
  induction regions generalizing k with
  | nil => cases hrun
  | cons r regions ih =>
      have hrest := ih (fun q hq => hregions q (List.mem_cons_of_mem _ hq)) (k := k + 1)
      unfold pmmFindBlock at hrun
      split_ifs at hrun
      · exact hrest hrun
      · rcases hchase : chase 0 p.next (pmmSizeOk p size alignment) addressCount 0 r.freeBlocks with
          _ | ⟨prev', block'⟩
        · rw [hchase] at hrun
          cases hrun
        · rw [hchase] at hrun
          dsimp only at hrun
          split_ifs at hrun with h0
          · exact hrest hrun
          · cases hrun
            have hends : S prev ∧ S block :=
              chase_invariant hnext hzero (hregions r List.mem_cons_self) hchase
            exact ⟨hends.2, h0, (chase_stop hchase).resolve_left h0⟩

/-- What the search of `pmm_remove_region` comes upon.
Source: `pmm.c` `pmm_remove_region`
Kind: L -/
theorem PmmPtrs.removeFind (h : PmmPtrs b p j) {alignedBase alignedSize : BitVec 64}
    {regions : List PmmRegion} (hregions : ∀ r ∈ regions, PmmPtr b j r.freeBlocks) {k : ℕ}
    {t : PmmRemoveTarget} (hrun : pmmRemoveFind p alignedBase alignedSize k regions = some t) :
    (∀ i region, t = .whole i region → ∃ n, i = k + n ∧ regions[n]? = some region) ∧
      ∀ i prev block, t = .part i prev block → PmmPtr b j block ∧ block ≠ 0 := by
  induction regions generalizing k with
  | nil =>
      cases hrun
      exact ⟨fun _ _ ht => (by cases ht), fun _ _ _ ht => (by cases ht)⟩
  | cons r regions ih =>
      have hrest : pmmRemoveFind p alignedBase alignedSize (k + 1) regions = some t →
          (∀ i region, t = .whole i region → ∃ n, i = k + n ∧ (r :: regions)[n]? = some region) ∧
            ∀ i prev block, t = .part i prev block → PmmPtr b j block ∧ block ≠ 0 := by
        intro hlater
        obtain ⟨hwhole, hpart⟩ := ih (fun q hq => hregions q (List.mem_cons_of_mem _ hq)) hlater
        refine ⟨fun i region ht => ?_, hpart⟩
        obtain ⟨n, rfl, hn⟩ := hwhole i region ht
        exact ⟨n + 1, by omega, by rwa [List.getElem?_cons_succ]⟩
      unfold pmmRemoveFind at hrun
      split_ifs at hrun
      · cases hrun
        exact ⟨fun _ _ ht => (by cases ht), fun _ _ _ ht => (by cases ht)⟩
      · cases hrun
        refine ⟨fun _ _ ht => ?_, fun _ _ _ ht => (by cases ht)⟩
        cases ht
        exact ⟨0, rfl, rfl⟩
      · rcases hchase : chase 0 p.next (pmmRemoveUpBound p alignedBase alignedSize) addressCount 0
            r.freeBlocks with _ | ⟨prev', block'⟩
        · rw [hchase] at hrun
          cases hrun
        · rw [hchase] at hrun
          dsimp only at hrun
          split_ifs at hrun with h0
          · exact hrest hrun
          · cases hrun
            refine ⟨fun _ _ ht => (by cases ht), fun _ _ _ ht => ?_⟩
            cases ht
            have hends : PmmPtr b j prev' ∧ PmmPtr b j block' :=
              chase_invariant h.links (Or.inl rfl) (hregions r List.mem_cons_self) hchase
            exact ⟨hends.2, h0⟩
          · cases hrun
            exact ⟨fun _ _ ht => (by cases ht), fun _ _ _ ht => (by cases ht)⟩
      · exact hrest hrun

/-- Source: `pmm.c` `pmm_alloc_aligned`. Kind: L -/
theorem PmmPtrs.takeBlock (h : PmmPtrs b p j) {i : ℕ} {prev block : Addr} {size alignment : BitVec 64}
    (hblock : PmmPtr b j block) (hblock0 : block ≠ 0)
    (hrun : pmmTakeBlock p i prev block size alignment = some p') : ∃ j', PmmPtrs b p' j' := by
  have hnext : PmmPtr b j (p.blocks block).next := h.links block hblock hblock0
  unfold pmmTakeBlock at hrun
  dsimp only at hrun
  split_ifs at hrun
  · -- both sides stay
    have hcut : PmmPtrs b (p.setBlock block { p.blocks block with
        size := alignUp (p.blocks block).base alignment - (p.blocks block).base }) j :=
      h.setBlock hnext
    rcases hcut.slabAlloc_cases with ⟨-, halloc⟩ | ⟨-, hnode0, s, halloc, hat, hsize⟩
    · rw [halloc] at hrun
      simp at hrun
    · rw [halloc] at hrun
      dsimp only at hrun
      rw [if_neg hnode0] at hrun
      cases hrun
      refine ⟨j + 1, (hcut.takeNode hat hsize ?_).setBlock ?_⟩
      · exact hnext
      · exact Or.inr ⟨j, Nat.lt_succ_self j, rfl⟩
  · cases hrun
    exact ⟨j, h.setBlock hnext⟩
  · cases hrun
    exact ⟨j, h.setBlock hnext⟩
  · exact ⟨j, h.unlinkBlock hblock hblock0 hrun⟩

/-- Source: `pmm.c` `pmm_remove_region`. Kind: L -/
theorem PmmPtrs.removeBlock (h : PmmPtrs b p j) {i : ℕ} {prev block : Addr}
    {alignedBase alignedSize : BitVec 64} {e : Errval} (hblock : PmmPtr b j block)
    (hblock0 : block ≠ 0)
    (hrun : pmmRemoveBlock p i prev block alignedBase alignedSize = some (p', e)) :
    ∃ j', PmmPtrs b p' j' := by
  have hnext : PmmPtr b j (p.blocks block).next := h.links block hblock hblock0
  unfold pmmRemoveBlock at hrun
  dsimp only at hrun
  split_ifs at hrun
  · have hcut : PmmPtrs b (p.setBlock block { p.blocks block with
        size := alignedBase - (p.blocks block).base }) j := h.setBlock hnext
    rcases hcut.slabAlloc_cases with ⟨-, halloc⟩ | ⟨-, hnode0, s, halloc, hat, hsize⟩
    · rw [halloc] at hrun
      cases hrun
      exact ⟨j, hcut⟩
    · rw [halloc] at hrun
      dsimp only at hrun
      rw [if_neg hnode0] at hrun
      cases hrun
      refine ⟨j + 1, ((hcut.takeNode hat hsize ?_).setBlock ?_).pmmCharge _ _⟩
      · exact hnext
      · exact Or.inr ⟨j, Nat.lt_succ_self j, rfl⟩
  · cases hrun
    refine ⟨j, PmmPtrs.pmmCharge (h.setBlock ?_) _ _⟩
    exact hnext
  · cases hrun
    refine ⟨j, PmmPtrs.pmmCharge (h.setBlock ?_) _ _⟩
    exact hnext
  · obtain ⟨q, hunlink, hq⟩ := Option.map_eq_some_iff.mp hrun
    cases hq
    exact ⟨j, (h.unlinkBlock hblock hblock0 hunlink).pmmCharge _ _⟩

/-- The shifting loop copies regions that are there.
Source: `pmm.c` `pmm_remove_region`
Kind: L -/
theorem mem_of_mem_pmmShiftLoop {n k : ℕ} {regions : List PmmRegion} {r : PmmRegion}
    (h : r ∈ pmmShiftLoop n k regions) : r ∈ regions := by
  induction n generalizing k regions with
  | zero => exact h
  | succ n ih =>
      unfold pmmShiftLoop at h
      rcases hget : regions[k + 1]? with _ | q
      · rw [hget] at h
        exact h
      · rw [hget] at h
        rcases List.mem_or_eq_of_mem_set (ih h) with hr | rfl
        · exact hr
        · exact List.mem_of_getElem? hget

/-- Source: `pmm.c` `pmm_remove_region` (`EXACT_FIT`). Kind: L -/
theorem PmmPtrs.removeWhole (h : PmmPtrs b p j) {i : ℕ} {region : PmmRegion} {e : Errval}
    (hregion : region ∈ p.regions) (hrun : pmmRemoveWhole p i region = some (p', e)) :
    PmmPtrs b p' j := by
  rw [pmmRemoveWhole, h.pmmReturnBlock_eq (h.heads region hregion)] at hrun
  cases hrun
  exact h.congr rfl (fun r hr => ⟨r, mem_of_mem_pmmShiftLoop hr, rfl⟩) rfl

/-- Source: `pmm.c` `pmm_add_region`. Kind: L -/
theorem PmmPtrs.addRegion (h : PmmPtrs b p j) {base size : BitVec 64} {e : Errval}
    (hrun : pmmAddRegion p base size = some (p', e)) :
    (p' = p ∧ e ≠ GrouperError.ok.errval) ∨ e = GrouperError.ok.errval ∧ ∃ j', PmmPtrs b p' j' := by
  unfold pmmAddRegion at hrun
  dsimp only at hrun
  split_ifs at hrun
  · cases hrun
    exact Or.inl ⟨rfl, by decide⟩
  · cases hrun
    exact Or.inl ⟨rfl, by decide⟩
  · cases hrun
    exact Or.inl ⟨rfl, by decide⟩
  · cases hrun
    exact Or.inl ⟨rfl, by decide⟩
  · rcases h.slabAlloc_cases with ⟨-, halloc⟩ | ⟨-, hnode0, s, halloc, hat, hsize⟩
    · rw [halloc] at hrun
      cases hrun
      exact Or.inl ⟨rfl, by decide⟩
    · rw [halloc] at hrun
      dsimp only at hrun
      rw [if_neg hnode0] at hrun
      cases hrun
      have htaken : PmmPtrs b (Pmm.setBlock { p with blockAllocator := s } (pmmNode b j)
          ⟨pmmAlignedBase base, pmmAlignedSize base size, 0⟩) (j + 1) :=
        h.takeNode hat hsize (Or.inl rfl)
      refine Or.inr ⟨rfl, j + 1, h.home, hat, hsize, fun r hr => ?_, htaken.links⟩
      rcases List.mem_append.mp hr with hr | hr
      · exact (h.heads r hr).succ
      · rw [List.mem_singleton.mp hr]
        exact Or.inr ⟨j, Nat.lt_succ_self j, rfl⟩

/-- **`pmm_alloc_aligned`** keeps the pointers, and changes nothing when it fails.
Source: `pmm.c` `pmm_alloc_aligned`
Kind: L -/
theorem PmmPtrs.allocAligned (h : PmmPtrs b p j) {size alignment : BitVec 64} {ret a : Addr}
    {e : Errval} (hrun : pmmAllocAligned p size alignment ret = some (p', e, a)) :
    (p' = p ∧ e ≠ GrouperError.ok.errval) ∨ e = GrouperError.ok.errval ∧ ∃ j', PmmPtrs b p' j' := by
  rcases pmmAllocAligned_inv hrun with ⟨hfail, heq⟩ | ⟨hok, i, prev, block, q, -, -, -, hfind, htake,
    -, rfl⟩
  · exact Or.inl ⟨heq, hfail⟩
  · obtain ⟨hblock, hblock0, -⟩ := pmmFindBlock_invariant (Or.inl rfl) h.links h.heads hfind
    obtain ⟨j', hq⟩ := h.takeBlock hblock hblock0 htake
    exact Or.inr ⟨hok, j', (hq.pmmCharge _ _).congr rfl (fun r hr => ⟨r, hr, rfl⟩) rfl⟩

/-- **`pmm_remove_region`** keeps the pointers.
Source: `pmm.c` `pmm_remove_region`
Kind: L -/
theorem PmmPtrs.removeRegion (h : PmmPtrs b p j) {assertions : Bool} {base size : BitVec 64}
    {e : Errval} (hrun : pmmRemoveRegion assertions p base size = some (p', e)) :
    ∃ j', PmmPtrs b p' j' := by
  unfold pmmRemoveRegion at hrun
  dsimp only at hrun
  split_ifs at hrun
  · rcases hfind : pmmRemoveFind p (alignDown base basePageSize) (alignUp size basePageSize) 0
        p.regions with _ | t
    · rw [hfind] at hrun
      cases hrun
    · rw [hfind] at hrun
      obtain ⟨hwhole, hpart⟩ := h.removeFind h.heads hfind
      cases t with
      | whole i region =>
          obtain ⟨n, -, hn⟩ := hwhole i region rfl
          exact ⟨j, h.removeWhole (List.mem_of_getElem? hn) hrun⟩
      | part i prev block =>
          obtain ⟨hblock, hblock0⟩ := hpart i prev block rfl
          exact h.removeBlock hblock hblock0 hrun
      | allocatedFrom =>
          cases hrun
          exact ⟨j, h⟩
      | notManaged =>
          cases hrun
          exact ⟨j, h⟩
  · cases hrun
    exact ⟨j, h⟩

/-- **Step lemma**: a call that returns keeps the pointers.
Source: none: infrastructure
Kind: L -/
theorem PmmPtrs.step (h : PmmPtrs b p j) {assertions : Bool} {op : PmmOp}
    (hrun : op.run assertions p = some p') : ∃ j', PmmPtrs b p' j' := by
  cases op with
  | addRegion base size =>
      obtain ⟨⟨q, e⟩, hadd, rfl⟩ := Option.map_eq_some_iff.mp hrun
      rcases h.addRegion hadd with ⟨rfl, -⟩ | ⟨-, hptrs⟩
      · exact ⟨j, h⟩
      · exact hptrs
  | allocAligned size alignment ret =>
      obtain ⟨⟨q, e, a⟩, halloc, rfl⟩ := Option.map_eq_some_iff.mp hrun
      rcases h.allocAligned halloc with ⟨rfl, -⟩ | ⟨-, hptrs⟩
      · exact ⟨j, h⟩
      · exact hptrs
  | removeRegion base size =>
      obtain ⟨⟨q, e⟩, hremove, rfl⟩ := Option.map_eq_some_iff.mp hrun
      exact h.removeRegion hremove

/-- **Run lemma**: in every reachable state all pointers are among the descriptors given out.
Source: none: infrastructure
Kind: L -/
theorem pmmPtrs_of_reach {C : Pmm → PmmOp → Prop} {assertions : Bool} {slabBuf : Addr}
    (hlo : 1536 < slabBuf.toNat) (hhi : slabBuf.toNat + 1568 ≤ 2 ^ 64)
    (h : PmmReach C assertions slabBuf p) : ∃ j, PmmPtrs (slabBuf - 1536) p j := by
  induction h with
  | init p =>
      obtain ⟨p', hinit, hrep, hregions, -⟩ := pmmInitialize_desc p hlo hhi
      rw [hinit]
      refine ⟨0, hrep.home, hrep.slab, hrep.blocksize, ?_, ?_⟩
      · rw [hregions]
        exact fun r hr => absurd hr List.not_mem_nil
      · rintro d (rfl | ⟨i, hi, -⟩) hd0
        · exact absurd rfl hd0
        · exact absurd hi (Nat.not_lt_zero i)
  | step op _ _ hrun ih =>
      obtain ⟨j, hptrs⟩ := ih
      exact hptrs.step hrun

/-! ## What a failing call leaves behind -/

/-- The one branch of the carving that fails: the block has been cut short by then.
Source: `pmm.c` `pmm_remove_region`
Kind: L -/
theorem PmmPtrs.removeBlock_fails (h : PmmPtrs b p j) (i : ℕ) (prev block : Addr)
    (alignedBase alignedSize : BitVec 64) :
    (∃ q, pmmRemoveBlock p i prev block alignedBase alignedSize =
        some (q, GrouperError.pmmSlabAllocFailed.errval) ∧
      q.blocks block = { p.blocks block with size := alignedBase - (p.blocks block).base } ∧
      (q = p ↔ (p.blocks block).size = alignedBase - (p.blocks block).base) ∧
      slabFreecount p.blockAllocator = 0 ∧ (p.blocks block).base ≠ alignedBase ∧
      alignedBase + alignedSize < (p.blocks block).base + (p.blocks block).size) ∨
    (∀ q e, pmmRemoveBlock p i prev block alignedBase alignedSize = some (q, e) →
        e = GrouperError.ok.errval) ∧
      ¬ (slabFreecount p.blockAllocator = 0 ∧ (p.blocks block).base ≠ alignedBase ∧
        alignedBase + alignedSize < (p.blocks block).base + (p.blocks block).size) := by
  unfold pmmRemoveBlock
  dsimp only
  set c := p.blocks block with hc
  by_cases hmiddle : c.base ≠ alignedBase ∧ alignedBase + alignedSize < c.base + c.size
  · rw [if_pos hmiddle]
    set q := p.setBlock block { c with size := alignedBase - c.base } with hq
    have hslab : q.blockAllocator = p.blockAllocator := rfl
    rcases h.slabAlloc_cases with ⟨hcount, halloc⟩ | ⟨hcount, hnode0, s, halloc, -⟩
    · rw [hslab, halloc]
      have hblock : q.blocks block = { c with size := alignedBase - c.base } :=
        Function.update_self ..
      refine Or.inl ⟨q, rfl, hblock, ⟨fun heq => ?_, fun heq => ?_⟩, hcount, hmiddle⟩
      · rw [heq, ← hc] at hblock
        exact congrArg PmmBlock.size hblock
      · rw [hq, ← heq]
        show { p with blocks := Function.update p.blocks block c } = p
        rw [hc, Function.update_eq_self]
    · rw [hslab, halloc]
      dsimp only
      rw [if_neg hnode0]
      refine Or.inr ⟨fun q e hrun => ?_, fun hno => hcount hno.1⟩
      cases hrun
      rfl
  · rw [if_neg hmiddle]
    refine Or.inr ⟨fun q e hrun => ?_, fun hno => hmiddle hno.2⟩
    split_ifs at hrun
    · cases hrun
      rfl
    · cases hrun
      rfl
    · obtain ⟨q', -, hq'⟩ := Option.map_eq_some_iff.mp hrun
      cases hq'
      rfl

/-- Source: `pmm.c` `pmm_remove_region`. Kind: L -/
theorem PmmPtrs.removeRegion_failsClean_iff (h : PmmPtrs b p j) (assertions : Bool)
    (base size : BitVec 64) :
    PmmFailsClean assertions p (.removeRegion base size) ↔
      ¬ (PmmOp.removeRegion base size).SplitsWithoutDescriptor assertions p := by
  -- a call that does not return, or returns `p` or `ERR_OK`, when it does not split a block
  have hclean : (∀ q e, pmmRemoveRegion assertions p base size = some (q, e) →
      e ≠ GrouperError.ok.errval → q = p) →
      ¬ (PmmOp.removeRegion base size).SplitsWithoutDescriptor assertions p →
      (PmmFailsClean assertions p (.removeRegion base size) ↔
        ¬ (PmmOp.removeRegion base size).SplitsWithoutDescriptor assertions p) :=
    fun hleft hright => iff_of_true hleft hright
  unfold pmmRemoveRegion at hclean
  dsimp only at hclean
  by_cases hassert : assertions = true ∧
      ¬ alignDown base basePageSize + alignUp size basePageSize ≤ base + size
  · rw [if_pos hassert] at hclean
    exact hclean (fun q e hrun => nomatch hrun) fun hs => hassert.2 (hs.1 hassert.1)
  rw [if_neg hassert] at hclean
  by_cases hpage : ¬ basePageSize ≤ alignUp size basePageSize
  · rw [if_pos hpage] at hclean
    refine hclean (fun q e hrun _ => ?_) fun hs => hpage hs.2.1
    cases hrun
    rfl
  rw [if_neg hpage] at hclean
  rcases hfind : pmmRemoveFind p (alignDown base basePageSize) (alignUp size basePageSize) 0
      p.regions with _ | t
  · rw [hfind] at hclean
    refine hclean (fun q e hrun => nomatch hrun) fun hs => ?_
    obtain ⟨-, -, -, i, prev, block, hpart, -⟩ := hs
    rw [hfind] at hpart
    cases hpart
  rw [hfind] at hclean
  -- no other target is a part of a block
  have hother : (∀ i prev block, t ≠ .part i prev block) →
      ¬ (PmmOp.removeRegion base size).SplitsWithoutDescriptor assertions p := by
    rintro hno ⟨-, -, -, i, prev, block, hpart, -⟩
    rw [hfind] at hpart
    exact hno i prev block (Option.some.inj hpart)
  cases t with
  | whole i region =>
      refine hclean (fun q e hrun he => absurd ?_ he) (hother fun _ _ _ ht => nomatch ht)
      obtain ⟨q', -, hq'⟩ := Option.map_eq_some_iff.mp hrun
      cases hq'
      rfl
  | allocatedFrom =>
      refine hclean (fun q e hrun _ => ?_) (hother fun _ _ _ ht => nomatch ht)
      cases hrun
      rfl
  | notManaged =>
      refine hclean (fun q e hrun _ => ?_) (hother fun _ _ _ ht => nomatch ht)
      cases hrun
      rfl
  | part i prev block =>
      have hcall : (PmmOp.removeRegion base size).call assertions p =
          pmmRemoveBlock p i prev block (alignDown base basePageSize)
            (alignUp size basePageSize) := by
        unfold PmmOp.call pmmRemoveRegion
        dsimp only
        rw [if_neg hassert, if_neg hpage, hfind]
      rcases h.removeBlock_fails i prev block (alignDown base basePageSize)
        (alignUp size basePageSize) with
        ⟨q, hrun, -, hsame, hcount, hpre, hpost⟩ | ⟨hok, hno⟩
      · constructor
        · rintro hall ⟨-, -, -, i', prev', block', hpart, -, -, hcut⟩
          rw [hfind] at hpart
          cases hpart
          exact hcut (hsame.mp (hall q _ (hcall.trans hrun) (by decide)))
        · intro hs q' e hrun' _
          rw [hcall, hrun] at hrun'
          cases hrun'
          rw [hsame]
          by_contra hcut
          refine hs ⟨fun hA => ?_, not_not.mp hpage, hcount, i, prev, block, hfind, hpre, hpost, hcut⟩
          by_contra hle
          exact hassert ⟨hA, hle⟩
      · refine iff_of_true (fun q e hrun he => ?_) ?_
        · rw [hcall] at hrun
          exact absurd (hok q e hrun) he
        · rintro ⟨-, -, hcount, i', prev', block', hpart, hpre, hpost, -⟩
          rw [hfind] at hpart
          cases hpart
          exact hno ⟨hcount, hpre, hpost⟩

/-- **A failing call changes nothing, exactly when it does not split a block without a
descriptor**: in every state that a run of any calls can reach.
Source: `pmm.c` `pmm_add_region`, `pmm_remove_region`, `pmm_alloc_aligned`
Kind: P
Fidelity: exact
Hyps: the static array `pmm_initial_region_slab` lies in the address space, and not in its first
1536 bytes -/
theorem pmmFailsClean_iff {assertions : Bool} {slabBuf : Addr} (hlo : 1536 < slabBuf.toNat)
    (hhi : slabBuf.toNat + 1568 ≤ 2 ^ 64)
    (h : PmmReach (fun _ _ => True) assertions slabBuf p) (op : PmmOp) :
    PmmFailsClean assertions p op ↔ ¬ op.SplitsWithoutDescriptor assertions p := by
  obtain ⟨j, hptrs⟩ := pmmPtrs_of_reach hlo hhi h
  cases op with
  | addRegion base size =>
      refine iff_of_true (fun q e hrun he => ?_) id
      rcases hptrs.addRegion hrun with ⟨hsame, -⟩ | ⟨hok, -⟩
      · exact hsame
      · exact absurd hok he
  | allocAligned size alignment ret =>
      refine iff_of_true (fun q e hrun he => ?_) id
      obtain ⟨⟨q', e', a⟩, halloc, heq⟩ := Option.map_eq_some_iff.mp hrun
      cases heq
      rcases hptrs.allocAligned halloc with ⟨hsame, -⟩ | ⟨hok, -⟩
      · exact hsame
      · exact absurd hok he
  | removeRegion base size => exact hptrs.removeRegion_failsClean_iff assertions base size

/-! ## A run that uses up the descriptors -/

/-- One region of 200 pages at `0x80400000`, whose first free block is node 0 and has `n` pages.
Source: none: infrastructure
Kind: D -/
structure PmmSplit (b : Addr) (p : Pmm) (j n : ℕ) : Prop where
  ptrs : PmmPtrs b p j
  regions : ∃ r, p.regions = [r] ∧ r.base = 0x80400000 ∧ r.size = 819200 ∧ r.freeBlocks = pmmNode b 0
  base : (p.blocks (pmmNode b 0)).base = 0x80400000
  size : (p.blocks (pmmNode b 0)).size = BitVec.ofNat 64 (n * 4096)

/-- The last page but one of a block of `n` pages at `0x80400000`.
Source: none: infrastructure
Kind: D -/
def lastButOnePage (n : ℕ) : BitVec 64 := BitVec.ofNat 64 (0x80400000 + (n - 2) * 4096)

/-- Source: none: infrastructure. Kind: L -/
theorem lastButOnePage_toNat {n : ℕ} (hn : n ≤ 200) :
    (lastButOnePage n).toNat = 0x80400000 + (n - 2) * 4096 := by
  rw [lastButOnePage, BitVec.toNat_ofNat, Nat.mod_eq_of_lt (by omega)]

/-- The arithmetic of the removal.
Source: none: infrastructure
Kind: L -/
theorem PmmSplit.arith {n : ℕ} (h : PmmSplit b p j n) (hn : 3 ≤ n) (hn' : n ≤ 200) :
    let c := p.blocks (pmmNode b 0)
    c.base ≠ lastButOnePage n ∧ c.base ≤ lastButOnePage n ∧
      lastButOnePage n + 4096 < c.base + c.size ∧
      lastButOnePage n - c.base = BitVec.ofNat 64 ((n - 2) * 4096) := by
  dsimp only
  have hpage := lastButOnePage_toNat hn'
  have hsize : (BitVec.ofNat 64 (n * 4096)).toNat = n * 4096 := by
    rw [BitVec.toNat_ofNat, Nat.mod_eq_of_lt (by omega)]
  have hbase : (0x80400000 : BitVec 64).toNat = 0x80400000 := rfl
  have h4096 : (4096 : BitVec 64).toNat = 4096 := rfl
  rw [h.base, h.size]
  refine ⟨fun heq => ?_, ?_, ?_, ?_⟩
  · have hval := congrArg BitVec.toNat heq
    omega
  · rw [BitVec.le_def]
    omega
  · rw [BitVec.lt_def, BitVec.toNat_add, BitVec.toNat_add]
    omega
  · apply BitVec.eq_of_toNat_eq
    rw [BitVec.toNat_sub, BitVec.toNat_ofNat]
    omega

/-- The search finds node 0 at the head of the list.
Source: none: infrastructure
Kind: L -/
theorem PmmSplit.removeRegion_eq {n : ℕ} (h : PmmSplit b p j n) (hn : 3 ≤ n) (hn' : n ≤ 200)
    (assertions : Bool) :
    pmmRemoveRegion assertions p (lastButOnePage n) 4096 =
      pmmRemoveBlock p 0 0 (pmmNode b 0) (lastButOnePage n) 4096 := by
  obtain ⟨r, hregions, hbase, hsize, hhead⟩ := h.regions
  obtain ⟨-, hle, hpost, -⟩ := h.arith hn hn'
  have hpage := lastButOnePage_toNat hn'
  have hdown : alignDown (lastButOnePage n) basePageSize = lastButOnePage n :=
    alignDown_page_of_dvd (by omega)
  have hup : alignUp 4096 basePageSize = 4096 := by decide
  have hfind : pmmRemoveFind p (lastButOnePage n) 4096 0 p.regions =
      some (.part 0 0 (pmmNode b 0)) := by
    have hexact : ¬ (lastButOnePage n = r.base ∧ (4096 : BitVec 64) = r.size) := by
      rintro ⟨-, heq⟩
      rw [hsize] at heq
      exact absurd heq (by decide)
    have hin : r.base ≤ lastButOnePage n ∧ lastButOnePage n + 4096 ≤ r.base + r.size := by
      have hb : (0x80400000 : BitVec 64).toNat = 0x80400000 := rfl
      have hend : ((0x80400000 : BitVec 64) + 819200).toNat = 0x80400000 + 819200 := by decide
      have h4096 : (4096 : BitVec 64).toNat = 4096 := rfl
      rw [hbase, hsize, BitVec.le_def, BitVec.le_def, BitVec.toNat_add, hend]
      omega
    rw [hregions, ← hhead]
    rw [← hhead] at hle hpost
    refine pmmRemoveFind_head hexact hin ?_ hle (BitVec.le_of_lt hpost)
    rw [hhead]
    exact pmmNode_ne_zero h.ptrs.home (Nat.zero_le _)
  unfold pmmRemoveRegion
  dsimp only
  rw [hdown, hup, hfind, if_neg fun hA => hA.2 (BitVec.le_refl _), if_neg (by decide)]

/-- **Removing the last page but one** while there are descriptors: two pages less are in the first
block, and one descriptor more is taken.
Source: `pmm.c` `pmm_remove_region`
Kind: L -/
theorem PmmSplit.step {n : ℕ} (h : PmmSplit b p j n) (hn : 3 ≤ n) (hn' : n ≤ 200) (hj : 0 < j)
    (hj' : j < 64) (assertions : Bool) :
    ∃ p', pmmRemoveRegion assertions p (lastButOnePage n) 4096 = some (p', GrouperError.ok.errval) ∧
      PmmSplit b p' (j + 1) (n - 2) := by
  obtain ⟨hpre, -, hpost, hoffset⟩ := h.arith hn hn'
  have hnext : PmmPtr b j (p.blocks (pmmNode b 0)).next :=
    h.ptrs.links _ (Or.inr ⟨0, hj, rfl⟩) (pmmNode_ne_zero h.ptrs.home (Nat.zero_le _))
  rw [h.removeRegion_eq hn hn']
  unfold pmmRemoveBlock
  dsimp only
  set c := p.blocks (pmmNode b 0) with hc
  rw [if_pos ⟨hpre, hpost⟩, hoffset]
  set q := p.setBlock (pmmNode b 0) { c with size := BitVec.ofNat 64 ((n - 2) * 4096) } with hq
  have hcut : PmmPtrs b q j := h.ptrs.setBlock hnext
  rcases hcut.slabAlloc_cases with ⟨hcount, -⟩ | ⟨-, hnode0, s, halloc, hat, hsize⟩
  · have hval : (slabFreecount q.blockAllocator).toNat = 64 - j := hcut.slab.free_toNat
    rw [hcount] at hval
    change 0 = _ at hval
    omega
  · rw [halloc]
    dsimp only
    rw [if_neg hnode0]
    have hne : pmmNode b 0 ≠ pmmNode b j := fun heq =>
      absurd (pmmNode_inj h.ptrs.home (Nat.zero_le _) hj'.le heq) hj.ne
    have hsame : ∀ c', (Pmm.setBlock { q with blockAllocator := s } (pmmNode b j) c').blocks
        (pmmNode b 0) = { c with size := BitVec.ofNat 64 ((n - 2) * 4096) } := by
      intro c'
      rw [Pmm.setBlock_blocks_of_ne _ _ hne]
      exact Pmm.setBlock_blocks_self ..
    refine ⟨_, rfl, PmmPtrs.pmmCharge ((hcut.takeNode hat hsize ?_).setBlock ?_) _ _, ?_, ?_, ?_⟩
    · exact hnext
    · exact Or.inr ⟨j, Nat.lt_succ_self j, rfl⟩
    · obtain ⟨r, hregions, hbase, hsize, hhead⟩ := h.regions
      refine ⟨{ r with free := r.free - 4096 }, ?_, hbase, hsize, hhead⟩
      show p.regions.modify 0 _ = _
      rw [hregions]
      rfl
    · rw [pmmCharge_blocks, Pmm.setBlock_blocks_self, hsame]
      exact h.base
    · rw [pmmCharge_blocks, Pmm.setBlock_blocks_self, hsame]

end ptrs

/-- The region of 200 pages after `k` of these removals.
Source: none: infrastructure
Kind: L -/
theorem exists_pmmSplit_of_reach (k : ℕ) (hk : k ≤ 63) :
    ∃ p, PmmReach (fun _ _ => True) false 0x80300000 p ∧
      PmmSplit (0x80300000 - 1536) p (k + 1) (200 - 2 * k) := by
  induction k with
  | zero =>
      obtain ⟨p, hadd, hone⟩ :=
        exists_pmmOneRegion (show pmmAlignedSize 0x80400000 819200 = 819200 by decide) (by decide)
      have hadd' := congrArg (Option.map Prod.fst) hadd
      have hreach : PmmReach (fun _ _ => True) false 0x80300000 p :=
        .step (.addRegion 0x80400000 819200) (.init pmmZero) trivial hadd'
      refine ⟨p, hreach, ?_, ⟨_, hone.regions, rfl, rfl, rfl⟩, ?_, ?_⟩
      · obtain ⟨j, hptrs⟩ := pmmPtrs_of_reach (by decide) (by decide) hreach
        have h1 := hptrs.slab.free_toNat
        have h2 := hone.rep.slab.free_toNat
        have hle := hptrs.slab.le
        obtain rfl : j = 1 := by omega
        exact hptrs
      · rw [hone.block]
      · rw [hone.block]
        rfl
  | succ k ih =>
      obtain ⟨p, hreach, hsplit⟩ := ih (by omega)
      obtain ⟨p', hrun, hsplit'⟩ := hsplit.step (by omega) (by omega) (by omega) (by omega) false
      rw [show 200 - 2 * k - 2 = 200 - 2 * (k + 1) by omega] at hsplit'
      exact ⟨p', .step (.removeRegion (lastButOnePage (200 - 2 * k)) 4096) hreach trivial
        (congrArg (Option.map Prod.fst) hrun), hsplit'⟩

/-- The removal that finds the slab empty: it fails, and the first block has lost two pages.
Source: `pmm.c` `pmm_remove_region`
Kind: L -/
theorem pmm_exhausted :
    ∃ p q, PmmReach (fun _ _ => True) false 0x80300000 p ∧
      (PmmOp.removeRegion (lastButOnePage 74) 4096).call false p =
        some (q, GrouperError.pmmSlabAllocFailed.errval) ∧ q ≠ p := by
  obtain ⟨p, hreach, hsplit⟩ := exists_pmmSplit_of_reach 63 le_rfl
  obtain ⟨hpre, -, hpost, hoffset⟩ := hsplit.arith (by norm_num) (by norm_num)
  have hcount : slabFreecount p.blockAllocator = 0 := by
    apply BitVec.eq_of_toNat_eq
    exact hsplit.ptrs.slab.free_toNat
  rcases hsplit.ptrs.removeBlock_fails 0 0 (pmmNode (0x80300000 - 1536) 0) (lastButOnePage 74) 4096
    with ⟨q, hrun, -, hsame, -⟩ | ⟨-, hno⟩
  · refine ⟨p, q, hreach, ?_, fun heq => ?_⟩
    · exact (hsplit.removeRegion_eq (by norm_num) (by norm_num) false).trans hrun
    · have hsize := hsame.mp heq
      rw [hoffset, hsplit.size] at hsize
      exact absurd hsize (by decide)
  · exact absurd ⟨hcount, hpre, hpost⟩ hno

/-- When the descriptors are used up, the removal is of that kind, and adding a region is not.
Source: none: infrastructure
Kind: C -/
theorem pmmFailsClean_exhausted :
    ∃ p, PmmReach (fun _ _ => True) false 0x80300000 p ∧
      (PmmOp.removeRegion (lastButOnePage 74) 4096).SplitsWithoutDescriptor false p ∧
      PmmFailsClean false p (.addRegion 0x90000000 4096) := by
  obtain ⟨p, q, hreach, hrun, hne⟩ := pmm_exhausted
  have key := pmmFailsClean_iff (by decide) (by decide) hreach
  refine ⟨p, hreach, ?_, (key (.addRegion 0x90000000 4096)).mpr id⟩
  by_contra hno
  exact hne ((key _).mpr hno q _ hrun (by decide))

/-- Not every failing call changes nothing: a removal can fail after it has cut a block short.
Source: `pmm.c` `pmm_remove_region`
Kind: C -/
theorem not_pmmFailsClean_of_reach :
    ¬ ∀ (assertions : Bool) (slabBuf : Addr) (p : Pmm) (op : PmmOp), 1536 < slabBuf.toNat →
      slabBuf.toNat + 1568 ≤ 2 ^ 64 → PmmReach (fun _ _ => True) assertions slabBuf p →
      PmmFailsClean assertions p op := by
  intro hall
  obtain ⟨p, q, hreach, hrun, hne⟩ := pmm_exhausted
  exact hne (hall false 0x80300000 p _ (by decide) (by decide) hreach q _ hrun (by decide))

end Octiron.Kernel
