import Octiron.Kernel.PmmFirstFit

/-!
# What a request gets

Runs of the manager in which the free lists stay what they should be, and what a successful
`pmm_alloc_aligned` hands out in them.

* `PmmOp.KeepsLists` — the removals that leave the free lists in order: those that fail, and those at
  the upper end of a free block.
* `PmmHeld b p G` — the lists `G` are on different descriptors, and represent what is free.
* `pmmHeld_of_reach` — the run lemma.
* `PmmHandsOut` — the requested range lies in one region, was free, and is not free any more.
* **Main result** (`pmmHandsOut_iff`): a successful request gets its range exactly when its size can be
  rounded up to pages.
-/

namespace Octiron.Kernel

open Octiron.Found
open Octiron.Found.Mem
open Octiron.Kzadhbat

/-! ## Runs that keep the lists -/

/-- **The calls that keep the free lists in order.** Adding and allocating do, and so does a removal
that finds nothing to remove or removes the upper end of a free block. Removing a whole region leaves
the region where it is, and removing another part of a block leaves a block of the wrong size.
Source: `pmm.c` `pmm_remove_region`
Kind: D -/
def PmmOp.KeepsLists (p : Pmm) : PmmOp → Prop
  | .addRegion _ _ => True
  | .allocAligned _ _ _ => True
  | .removeRegion base size =>
      basePageSize ≤ alignUp size basePageSize →
        match pmmRemoveFind p (alignDown base basePageSize) (alignUp size basePageSize) 0 p.regions with
        | some (.whole _ _) => False
        | some (.part _ _ block) =>
            (alignDown base basePageSize).toNat + (alignUp size basePageSize).toNat =
              (p.extent block).upper
        | _ => True

/-- **The lists `G` represent what is free**, and are on different descriptors of the slab.
Source: none: infrastructure
Kind: D -/
structure PmmHeld (b : Addr) (p : Pmm) (G : List (List Addr)) : Prop where
  desc : ∃ j, DescRep b p j G
  inv : PmmInvariant p G

section held

variable {b : Addr} {p p' : Pmm} {j : ℕ} {G : List (List Addr)}

/-- Source: none: infrastructure. Kind: L -/
theorem PmmRecorded.within (h : PmmRecorded p) :
    ∀ r ∈ p.regions, r.base.toNat + r.size.toNat ≤ 2 ^ 56 :=
  fun _ hr => h.below _ (List.mem_map_of_mem hr)

/-- A free block lies in a region.
Source: none: infrastructure
Kind: L -/
theorem PmmInvariant.exists_region (h : PmmInvariant p G) {d : Addr} (hd : d ∈ G.flatten) :
    ∃ r ∈ p.regions, r.base.toNat ≤ (p.extent d).base ∧
      (p.extent d).upper ≤ r.base.toNat + r.size.toNat := by
  obtain ⟨ds, hds, hdmem⟩ := List.mem_flatten.mp hd
  obtain ⟨gpre, gpost, rfl⟩ := List.append_of_mem hds
  obtain ⟨rpre, r, rpost, hregions, -, -, hr, -⟩ := forall₂_split h.lists
  refine ⟨r, ?_, hr.inside _ (List.mem_map_of_mem hdmem)⟩
  rw [hregions]
  simp

/-- Zeroing pages changes no list.
Source: none: infrastructure
Kind: L -/
theorem PmmInvariant.congr_mem (h : PmmInvariant p G) (m : Mem) :
    PmmInvariant { p with mem := m } G :=
  ⟨h.chains, h.lists, h.separate, h.within, h.free, h.total⟩

/-- The regions are no more than there is below `2 ^ 56`.
Source: none: infrastructure
Kind: L -/
theorem PmmRecorded.total_le (h : PmmRecorded p) :
    (p.regions.map fun r => r.size.toNat).sum ≤ 2 ^ 56 := by
  have hsum := h.separate.sum_size_le h.below
  rw [List.map_map] at hsum
  exact hsum

/-- **`pmm_add_region` keeps the lists.**
Source: `pmm.c` `pmm_add_region`
Kind: L -/
theorem PmmInvariant.added (h : PmmInvariant p G) {node : Addr} {base size : BitVec 64}
    (hadded : PmmAdded p p' node base size) (hfresh : node ∉ G.flatten)
    (hchains : Chains 0 p'.next (p'.regions.map PmmRegion.freeBlocks) (G ++ [[node]]))
    (hpages : 4096 ∣ base.toNat ∧ 4096 ∣ size.toNat ∧ 0 < size.toNat) (hrec : PmmRecorded p') :
    PmmInvariant p' (G ++ [[node]]) := by
  have hupper := hadded.upper_le hrec
  have hrec₀ := hadded.recorded hrec
  refine ⟨hchains, ?_, ?_, ?_, ?_, ?_⟩
  · exact List.forall₂_map_left_iff.mp (hadded.lists hfresh h.counts hpages)
  · rw [hadded.free_extents hfresh]
    refine List.pairwise_append.mpr ⟨h.separate, List.pairwise_singleton _ _, ?_⟩
    intro e he f hf
    obtain ⟨d, hd, rfl⟩ := List.mem_map.mp he
    obtain ⟨r, hr, hlow, hhigh⟩ := h.exists_region hd
    -- the block lies in an old region, which does not meet the new one
    have hsep := hrec.separate
    rw [hadded.extents] at hsep
    have hapart := (List.pairwise_append.mp hsep).2.2 _ (List.mem_map_of_mem hr) f hf
    rw [Finset.disjoint_left] at hapart ⊢
    intro x hx
    rw [Extent.mem_bytes] at hx
    refine hapart ?_
    rw [Extent.mem_bytes]
    exact ⟨hlow.trans hx.1, hx.2.trans_le hhigh⟩
  · intro r hr
    exact (hrec.within r hr).trans (by norm_num)
  · have hle := (h.below hrec₀.within).2
    have hsum := h.free
    rw [sum_free_counts] at hsum
    rw [hadded.free, BitVec.toNat_add, Nat.mod_eq_of_lt (by omega), sum_free_counts, hadded.counts,
      List.map_append, List.sum_append, ← hsum]
    rfl
  · have hle := hrec₀.total_le
    have hsum := h.total
    rw [hadded.total, BitVec.toNat_add, Nat.mod_eq_of_lt (by omega), hadded.regions, List.map_append,
      List.sum_append, ← hsum]
    rfl

/-- What `pmm_alloc_aligned` takes out of the block found.
Source: `pmm.c` `pmm_alloc_aligned`
Kind: L -/
theorem PmmInvariant.taken_bounds (h : PmmInvariant p G) (hrec : PmmRecorded p) {block : Addr}
    (hblock : block ∈ G.flatten) {size alignment a : BitVec 64}
    (halign : ¬ (alignment < basePageSize ∨ alignment &&& (alignment - 1) ≠ 0))
    (hfree : alignUp size basePageSize ≤ p.free)
    (hfits : alignUp (p.blocks block).base alignment + alignUp size basePageSize ≤
      (p.blocks block).base + (p.blocks block).size)
    (ha : a = alignUp (p.blocks block).base alignment) :
    (p.extent block).base ≤ a.toNat ∧
      a.toNat + (alignUp size basePageSize).toNat ≤ (p.extent block).upper ∧
      (p.extent block).upper ≤ 2 ^ 56 ∧ 4096 ∣ a.toNat ∧
      4096 ∣ (alignUp size basePageSize).toNat := by
  obtain ⟨k, hk12, hk64, hk⟩ := exists_two_pow_of_alignment halign
  obtain ⟨hupper, hle⟩ := h.below hrec.within
  have hup := hupper _ (List.mem_map_of_mem hblock)
  have hup' : (p.blocks block).base.toNat + (p.blocks block).size.toNat ≤ 2 ^ 56 := hup
  have hsize : (alignUp size basePageSize).toNat ≤ 2 ^ 56 := (BitVec.le_def.mp hfree).trans hle
  obtain ⟨hlow, -, hdvd⟩ := alignUp_block hk hk64 (c := p.blocks block) (by omega)
  have hnat := sizeOk_toNat hk hk64 hup' hsize hfits
  rw [← ha] at hlow hdvd hnat
  refine ⟨hlow, hnat, hup, (pow_dvd_pow 2 hk12).trans hdvd, ?_⟩
  have hval : (alignUp size basePageSize).toNat = _ := alignDown_page_toNat (size + 4095)
  rw [hval]
  exact Nat.dvd_mul_left _ _

/-- **`pmm_alloc_aligned` keeps the lists**, and exactly the pages it hands out are gone from a free
block.
Source: `pmm.c` `pmm_alloc_aligned`
Kind: L -/
theorem PmmInvariant.allocated (hinv : PmmInvariant p G) (h : DescRep b p j G)
    (hrec : PmmRecorded p) {size alignment a : BitVec 64} {ret : Addr}
    (hrun : pmmAllocAligned p size alignment ret = some (p', GrouperError.ok.errval, a)) :
    ∃ G', PmmHeld b p' G' ∧
      (∀ x, PmmFreeByte p' G' x ↔ PmmFreeByte p G x ∧
        ¬ (a.toNat ≤ x ∧ x < a.toNat + (alignUp size basePageSize).toNat)) ∧
      ∃ d ∈ G.flatten, (p.extent d).base ≤ a.toNat ∧
        a.toNat + (alignUp size basePageSize).toNat ≤ (p.extent d).upper := by
  rcases pmmAllocAligned_charges h hrun with ⟨hfail, -⟩ | ⟨-, gpre, gpost, dpre, dpost, block, q, j',
    mid, rfl, halign, hfree, hfits, hret, hrep, hpieces, hothers, hframe, rfl⟩
  · exact absurd rfl hfail
  have hblock : block ∈ (gpre ++ (dpre ++ block :: dpost) :: gpost).flatten := by
    rw [List.flatten_append, List.flatten_cons]
    simp
  obtain ⟨hlow, hupper, hbelow, hapage, hspage⟩ :=
    hinv.taken_bounds hrec hblock halign hfree hfits hret
  have hmid := map_extent_of_pieces hpieces hret hlow hbelow hupper
  obtain ⟨hinv', hbytes, -, -⟩ :=
    hinv.charge hframe hrep.chains hothers hmid hlow hupper hapage hspage
  refine ⟨_, ⟨⟨j', ?_⟩, hinv'.congr_mem _⟩, hbytes, block, hblock, hlow, hupper⟩
  exact (hrep.pmmCharge _ _).congr rfl rfl fun _ _ => rfl

/-- The ranges of the regions stay as they are when a part of one is removed.
Source: `pmm.c` `pmm_remove_region`
Kind: L -/
theorem pmmRemoveBlock_extents {i : ℕ} {prev block : Addr} {base size : BitVec 64} {e : Errval}
    (hrun : pmmRemoveBlock p i prev block base size = some (p', e)) :
    p'.regions.map PmmRegion.extent = p.regions.map PmmRegion.extent := by
  have hcharge : ∀ q : Pmm, (pmmCharge q i size).regions.map PmmRegion.extent =
      q.regions.map PmmRegion.extent := fun q =>
    map_modify_of_eq (g := fun r => { r with free := r.free - size }) PmmRegion.extent
      (fun _ => rfl) _ _
  unfold pmmRemoveBlock at hrun
  dsimp only at hrun
  split_ifs at hrun
  · rcases halloc : slabAlloc (p.setBlock block { p.blocks block with
        size := base - (p.blocks block).base }).blockAllocator with _ | ⟨s, x⟩
    · rw [halloc] at hrun
      cases hrun
    · rw [halloc] at hrun
      dsimp only at hrun
      split_ifs at hrun
      · cases hrun
        rfl
      · cases hrun
        exact hcharge _
  · cases hrun
    exact hcharge _
  · cases hrun
    exact hcharge _
  · obtain ⟨q, hunlink, hq⟩ := Option.map_eq_some_iff.mp hrun
    cases hq
    rw [hcharge, pmmUnlinkBlock_eq] at *
    obtain ⟨r, -, rfl⟩ := Option.map_eq_some_iff.mp hunlink
    show (pmmUnlinked p i prev block).regions.map PmmRegion.extent = _
    unfold pmmUnlinked
    split_ifs
    · exact map_modify_of_eq (g := fun r => { r with freeBlocks := p.next block }) PmmRegion.extent
        (fun _ => rfl) _ _
    · rfl

/-- **What a removal that keeps the lists does**: nothing, or it takes the upper end of a block.
Source: `pmm.c` `pmm_remove_region`
Kind: L -/
theorem pmmRemoveRegion_keeps {assertions : Bool} {base size : BitVec 64} {e : Errval}
    (hchains : Chains 0 p.next (p.regions.map PmmRegion.freeBlocks) G)
    (hkeeps : PmmOp.KeepsLists p (.removeRegion base size))
    (hrun : pmmRemoveRegion assertions p base size = some (p', e)) :
    p' = p ∨ ∃ gpre dpre dpost gpost block, G = gpre ++ (dpre ++ block :: dpost) :: gpost ∧
      (p.blocks block).base ≤ alignDown base basePageSize ∧
      (alignDown base basePageSize).toNat + (alignUp size basePageSize).toNat =
        (p.extent block).upper ∧
      pmmRemoveBlock p gpre.length (dpre.getLastD 0) block (alignDown base basePageSize)
        (alignUp size basePageSize) = some (p', e) := by
  unfold pmmRemoveRegion at hrun
  dsimp only at hrun
  split_ifs at hrun with _ hpage
  · have hkeeps' := hkeeps hpage
    rcases pmmRemoveFind_spec (alignDown base basePageSize) (alignUp size basePageSize) hchains 0 with
      hno | hno | ⟨i, r, hfind, -⟩ |
      ⟨i, prev, block, hfind, ⟨gpre, dpre, dpost, gpost, rfl, rfl, rfl⟩, hunder, -⟩
    · rw [hno] at hrun
      cases hrun
      exact Or.inl rfl
    · rw [hno] at hrun
      cases hrun
      exact Or.inl rfl
    · rw [hfind] at hkeeps'
      exact absurd hkeeps' id
    · rw [Nat.zero_add] at hfind
      rw [hfind] at hrun hkeeps'
      exact Or.inr ⟨gpre, dpre, dpost, gpost, block, rfl, hunder, hkeeps', hrun⟩
  · cases hrun
    exact Or.inl rfl

/-- Source: none: infrastructure. Kind: L -/
theorem PmmRecorded.congr (h : PmmRecorded p')
    (heq : p'.regions.map PmmRegion.extent = p.regions.map PmmRegion.extent) : PmmRecorded p := by
  refine ⟨?_, ?_⟩
  · rw [← heq]
    exact h.separate
  · rw [← heq]
    exact h.below

/-- **One call** that keeps the lists.
Source: `pmm.c`
Kind: L -/
theorem DescRep.keeps_step (h : DescRep b p j G) {assertions : Bool} {op : PmmOp}
    (hkeeps : op.KeepsLists p) (hrun : op.run assertions p = some p') :
    (∃ j' G', DescRep b p' j' G') ∧ (PmmRecorded p' → PmmRecorded p) ∧
      (PmmInvariant p G → PmmRecorded p' → ∃ G', PmmHeld b p' G') := by
  have hsame : p' = p → (∃ j' G', DescRep b p' j' G') ∧ (PmmRecorded p' → PmmRecorded p) ∧
      (PmmInvariant p G → PmmRecorded p' → ∃ G', PmmHeld b p' G') := by
    rintro rfl
    exact ⟨⟨j, G, h⟩, id, fun hinv _ => ⟨G, ⟨j, h⟩, hinv⟩⟩
  cases op with
  | addRegion base size =>
      obtain ⟨⟨q, e⟩, hadd, rfl⟩ := Option.map_eq_some_iff.mp hrun
      rcases pmmAddRegion_spec h base size with ⟨e', hadd', -⟩ | ⟨q', hadd', hok, -, hrep, hadded⟩
      · rw [hadd'] at hadd
        cases hadd
        exact hsame rfl
      · rw [hadd'] at hadd
        cases hadd
        exact ⟨⟨_, _, hrep⟩, hadded.recorded, fun hinv hrec => ⟨_, ⟨_, hrep⟩,
          hinv.added hadded h.fresh hrep.chains hok.pages hrec⟩⟩
  | allocAligned size alignment ret =>
      obtain ⟨⟨q, e, a⟩, halloc, rfl⟩ := Option.map_eq_some_iff.mp hrun
      rcases pmmAllocAligned_cases h halloc with ⟨-, heq⟩ | ⟨rfl, gpre, gpost, dpre, dpost, block,
        rfl, ht⟩
      · exact hsame heq
      · obtain ⟨j', mid, hrep, -⟩ := ht.list
        have hback : PmmRecorded q → PmmRecorded p := fun hrec => hrec.congr (ht.extent_eq h)
        refine ⟨⟨j', _, hrep⟩, hback, fun hinv hrec => ?_⟩
        obtain ⟨G', hheld, -⟩ := hinv.allocated h (hback hrec) halloc
        exact ⟨G', hheld⟩
  | removeRegion base size =>
      obtain ⟨⟨q, e⟩, hremove, rfl⟩ := Option.map_eq_some_iff.mp hrun
      rcases pmmRemoveRegion_keeps h.chains hkeeps hremove with rfl | ⟨gpre, dpre, dpost, gpost,
        block, rfl, hunder, hupper, hblock⟩
      · exact hsame rfl
      · obtain ⟨q', e', j', mid, hblock', hrep, -, -⟩ := pmmRemoveBlock_desc h
          (alignDown base basePageSize) (alignUp size basePageSize)
        rw [hblock'] at hblock
        cases hblock
        refine ⟨⟨j', _, hrep⟩, fun hrec => hrec.congr (pmmRemoveBlock_extents hblock'),
          fun hinv _ => ?_⟩
        have hbase : 4096 ∣ (alignDown base basePageSize).toNat := by
          rw [alignDown_page_toNat]
          exact Nat.dvd_mul_left _ _
        have hsize : 4096 ∣ (alignUp size basePageSize).toNat := by
          have hval : (alignUp size basePageSize).toNat = _ := alignDown_page_toNat (size + 4095)
          rw [hval]
          exact Nat.dvd_mul_left _ _
        obtain ⟨G', hinv', -, -⟩ := (hinv.removeBlock_upper (BitVec.le_def.mp hunder) hupper hbase
          hsize hblock').lists
        obtain rfl := hinv'.chains.unique hrep.chains
        exact ⟨_, ⟨j', hrep⟩, hinv'⟩

end held

/-- **Run lemma**: in every state of a run whose calls keep the lists, the descriptors are in order;
and where the recorded regions do not meet and end at or below `2 ^ 56`, the lists represent what is
free.
Source: none: infrastructure
Kind: L -/
theorem pmmHeld_of_reach {assertions : Bool} {slabBuf : Addr} {p : Pmm} (hlo : 1536 < slabBuf.toNat)
    (hhi : slabBuf.toNat + 1568 ≤ 2 ^ 64)
    (h : PmmReach (fun p op => op.KeepsLists p) assertions slabBuf p) :
    (∃ j G, DescRep (slabBuf - 1536) p j G) ∧
      (PmmRecorded p → ∃ G, PmmHeld (slabBuf - 1536) p G) := by
  induction h with
  | init p =>
      obtain ⟨p₀, hinit, hrep, hregions, htotal, hfree, -⟩ := pmmInitialize_desc p hlo hhi
      rw [hinit]
      refine ⟨⟨0, [], hrep⟩, fun _ => ⟨[], ⟨0, hrep⟩, hrep.chains, ?_, List.Pairwise.nil, ?_, ?_, ?_⟩⟩
      · rw [hregions]
        exact .nil
      · rw [hregions]
        exact fun r hr => absurd hr List.not_mem_nil
      · rw [hfree, hregions]
        rfl
      · rw [htotal, hregions]
        rfl
  | @step p p' op _ hkeeps hrun ih =>
      obtain ⟨⟨j, G, hrep⟩, hheld⟩ := ih
      obtain ⟨hrep', hback, hstep⟩ := hrep.keeps_step hkeeps hrun
      refine ⟨hrep', fun hrec => ?_⟩
      obtain ⟨G₀, -, hinv⟩ := hheld (hback hrec)
      obtain rfl := hinv.chains.unique hrep.chains
      exact hstep hinv hrec

/-! ## What is handed out -/

/-- **The request gets its range**: `size` bytes from `a` on that lie in one region, all of them free
before and none of them free after.
Source: `pmm.h` `pmm_alloc_aligned`
Kind: D -/
structure PmmHandsOut (p p' : Pmm) (size : BitVec 64) (a : Addr) : Prop where
  inside : ∃ r ∈ p.regions, r.base.toNat ≤ a.toNat ∧
    a.toNat + size.toNat ≤ r.base.toNat + r.size.toNat
  taken : ∃ G G', Chains 0 p.next (p.regions.map PmmRegion.freeBlocks) G ∧
    Chains 0 p'.next (p'.regions.map PmmRegion.freeBlocks) G' ∧
    ∀ x, a.toNat ≤ x → x < a.toNat + size.toNat → PmmFreeByte p G x ∧ ¬ PmmFreeByte p' G' x

section request

variable {p p' : Pmm} {assertions : Bool} {slabBuf : Addr}

/-- **A successful request gets its range exactly when its size can be rounded up to pages.** In every
state of a run whose calls keep the lists and whose regions do not meet and end at or below `2 ^ 56`,
for every size and alignment with which `pmm_alloc_aligned` answers `ERR_OK`. A larger size is rounded
to zero and not refused.
Source: `pmm.c` `pmm_alloc_aligned`
Kind: P
Fidelity: exact
Hyps: the static array `pmm_initial_region_slab` lies in the address space, and not in its first
1536 bytes; every earlier removal of the run has failed or taken the upper end of a free block, and the
regions recorded do not meet and end at or below `2 ^ 56`; the answer is `ERR_OK` -/
theorem pmmHandsOut_iff (hlo : 1536 < slabBuf.toNat) (hhi : slabBuf.toNat + 1568 ≤ 2 ^ 64)
    (h : PmmReach (fun p op => op.KeepsLists p) assertions slabBuf p) (hrec : PmmRecorded p)
    {size alignment a : BitVec 64} {ret : Addr}
    (hrun : pmmAllocAligned p size alignment ret = some (p', GrouperError.ok.errval, a)) :
    PmmHandsOut p p' size a ↔ size.toNat ≤ 2 ^ 64 - 4096 := by
  obtain ⟨G, ⟨j, hrep⟩, hinv⟩ := (pmmHeld_of_reach hlo hhi h).2 hrec
  constructor
  · intro hout
    -- a range in a region ends below `2 ^ 56`
    obtain ⟨r, hr, -, hle⟩ := hout.inside
    have hbelow := hrec.within r hr
    omega
  · intro hsize
    obtain ⟨G', ⟨-, hinv'⟩, hbytes, d, hd, hlow, hupper⟩ := hinv.allocated hrep hrec hrun
    have hround := alignUp_page_toNat (x := size) (by omega)
    have hle : size.toNat ≤ (alignUp size basePageSize).toNat := by omega
    obtain ⟨r, hr, hrlow, hrhigh⟩ := hinv.exists_region hd
    refine ⟨⟨r, hr, hrlow.trans hlow, by omega⟩, G, G', hinv.chains, hinv'.chains, ?_⟩
    intro x hx hx'
    refine ⟨⟨p.extent d, List.mem_map_of_mem hd, ?_⟩, fun hfree => ?_⟩
    · rw [Extent.mem_bytes]
      omega
    · exact ((hbytes x).mp hfree).2 ⟨hx, by omega⟩

end request

/-- One region below `2 ^ 56`.
Source: none: infrastructure
Kind: L -/
theorem PmmOneRegion.recorded {p : Pmm} {size : BitVec 64} (h : PmmOneRegion p size)
    (hsize : 0x80400000 + size.toNat ≤ 2 ^ 56) : PmmRecorded p := by
  have hextents : p.regions.map PmmRegion.extent = [⟨0x80400000, size.toNat⟩] := by
    rw [h.regions]
    rfl
  refine ⟨?_, ?_⟩
  · rw [hextents]
    exact List.pairwise_singleton _ _
  · rw [hextents]
    exact List.forall_mem_singleton.mpr hsize

/-- One page is added, and a request for 100 bytes gets them.
Source: none: infrastructure
Kind: C -/
theorem pmmHandsOut_100 :
    ∃ p p', PmmReach (fun p op => op.KeepsLists p) false 0x80300000 p ∧
      pmmAllocAligned p 100 4096 0x80200000 = some (p', GrouperError.ok.errval, 0x80400000) ∧
      PmmHandsOut p p' 100 0x80400000 := by
  obtain ⟨p, hadd, hone⟩ :=
    exists_pmmOneRegion (show pmmAlignedSize 0x80400000 4096 = 4096 by decide) (by decide)
  obtain ⟨-, p', halloc⟩ := hone.allocAligned (s := 100) (by decide) (by decide)
  have hadd' := congrArg (Option.map Prod.fst) hadd
  have hreach : PmmReach (fun p op => op.KeepsLists p) false 0x80300000 p :=
    .step (.addRegion 0x80400000 4096) (.init pmmZero) trivial hadd'
  refine ⟨p, p', hreach, halloc, ?_⟩
  exact (pmmHandsOut_iff (by decide) (by decide) hreach (hone.recorded (by decide)) halloc).mpr
    (by decide)

/-- **A request for all but the last byte of the address space is granted** from a region of one
page.
Source: `pmm.c` `pmm_alloc_aligned`
Kind: C -/
theorem not_pmmHandsOut_all :
    ∃ p p', PmmReach (fun p op => op.KeepsLists p) false 0x80300000 p ∧ PmmRecorded p ∧
      pmmAllocAligned p 0xFFFFFFFFFFFFFFFF 4096 0x80200000 =
        some (p', GrouperError.ok.errval, 0x80400000) ∧
      ¬ PmmHandsOut p p' 0xFFFFFFFFFFFFFFFF 0x80400000 := by
  obtain ⟨p, hadd, hone⟩ :=
    exists_pmmOneRegion (show pmmAlignedSize 0x80400000 4096 = 4096 by decide) (by decide)
  obtain ⟨-, p', halloc⟩ := hone.allocAligned (s := 0xFFFFFFFFFFFFFFFF) (by decide) (by decide)
  have hadd' := congrArg (Option.map Prod.fst) hadd
  have hreach : PmmReach (fun p op => op.KeepsLists p) false 0x80300000 p :=
    .step (.addRegion 0x80400000 4096) (.init pmmZero) trivial hadd'
  refine ⟨p, p', hreach, hone.recorded (by decide), halloc, fun hout => ?_⟩
  obtain ⟨r, hr, -, hle⟩ := hout.inside
  rw [hone.regions, List.mem_singleton] at hr
  subst hr
  exact absurd hle (by decide)

end Octiron.Kernel
