import Octiron.Kernel.PmmFailures
import Octiron.Kernel.PmmPartition

/-!
# Removing ranges and regions

What `pmm_remove_region` makes of the free lists. It has its own copy of the carving that
`pmm_alloc_aligned` does, and the copy reads the block's fields after it has written them.

* `PmmInvariant p G` — the free lists `G` represent what is free: in order, of whole pages, not
  meeting, inside their regions, and counted.
* `PmmCarved` — exactly the range is gone from the free lists, as `pmm_alloc_aligned` would carve it.
* `PmmTakesUpperEnd` — the range ends where its free block ends.
* **Main result** (`pmmCarved_iff`): a removal of a part of a region that answers `ERR_OK` carves
  exactly the range when the range takes the upper end of its block, and only then.
* **Main result** (`not_pmmRegionDeleted`): a whole region is never deleted, since `region_count`
  stays as it is.
-/

namespace Octiron.Kernel

open Octiron.Found
open Octiron.Found.Mem
open Octiron.Kzadhbat

/-! ## The representation invariant -/

/-- **The free lists represent what is free**: each is as it should be, no two free blocks meet, the
regions are ranges of addresses, and the counters are the sums.
Source: `pmm.c` `struct pmm`
Kind: D -/
structure PmmInvariant (p : Pmm) (G : List (List Addr)) : Prop where
  chains : Chains 0 p.next (p.regions.map PmmRegion.freeBlocks) G
  lists : List.Forall₂ (fun r ds => RegionFree r.base r.size r.free (ds.map p.extent)) p.regions G
  separate : Separate (G.flatten.map p.extent)
  within : ∀ r ∈ p.regions, r.base.toNat + r.size.toNat ≤ 2 ^ 64
  free : p.free.toNat = (p.regions.map fun r => r.free.toNat).sum
  total : p.total.toNat = (p.regions.map fun r => r.size.toNat).sum

/-- The byte at `x` is free.
Source: none: infrastructure
Kind: D -/
def PmmFreeByte (p : Pmm) (G : List (List Addr)) (x : ℕ) : Prop :=
  ∃ e ∈ G.flatten.map p.extent, x ∈ e.bytes

/-- **Exactly the range is gone**: from the block, which is in list `i` after `prev`. The invariant
holds again, the free bytes are those before without the range, the counters have dropped by its
size, the other regions and their blocks are as they were; and the manager is what the carving of
`pmm_alloc_aligned` makes of it, with the counters lowered, whenever that carving takes this range.
Source: `pmm.c` `pmm_remove_region`
Kind: D -/
structure PmmCarved (p p' : Pmm) (G : List (List Addr)) (i : ℕ) (prev block : Addr)
    (base size : BitVec 64) : Prop where
  lists : ∃ G', PmmInvariant p' G' ∧
    (∀ x, PmmFreeByte p' G' x ↔
      PmmFreeByte p G x ∧ ¬ (base.toNat ≤ x ∧ x < base.toNat + size.toNat)) ∧
    ∀ k, k ≠ i → G'[k]? = G[k]? ∧ ∀ ds, G[k]? = some ds → ∀ d ∈ ds, p'.blocks d = p.blocks d
  free : p'.free.toNat + size.toNat = p.free.toNat
  region : ∃ r r', p.regions[i]? = some r ∧ p'.regions[i]? = some r' ∧ r'.base = r.base ∧
    r'.size = r.size ∧ r'.free.toNat + size.toNat = r.free.toNat
  others : ∀ k, k ≠ i → p'.regions[k]? = p.regions[k]?
  carving : ∀ alignment q, alignUp (p.blocks block).base alignment = base →
    pmmTakeBlock p i prev block size alignment = some q → p' = pmmCharge q i size

section invariant

variable {p p' : Pmm} {G : List (List Addr)}

/-- Source: none: infrastructure. Kind: L -/
theorem PmmInvariant.counts (h : PmmInvariant p G) :
    List.Forall₂ (fun c ds => RegionFree c.1 c.2.1 c.2.2 (ds.map p.extent))
      (p.regions.map PmmRegion.counts) G := List.forall₂_map_left_iff.mpr h.lists

/-- A free block is not empty, of whole pages, and ends at or below `2 ^ 64`.
Source: none: infrastructure
Kind: L -/
theorem PmmInvariant.block (h : PmmInvariant p G) {d : Addr} (hd : d ∈ G.flatten) :
    0 < (p.extent d).size ∧ (p.extent d).upper ≤ 2 ^ 64 := by
  obtain ⟨ds, hds, hdmem⟩ := List.mem_flatten.mp hd
  obtain ⟨gpre, gpost, rfl⟩ := List.append_of_mem hds
  obtain ⟨rpre, r, rpost, hregions, -, -, hr, -⟩ := forall₂_split h.lists
  have hmem := List.mem_map_of_mem (f := p.extent) hdmem
  refine ⟨hr.nonempty _ hmem, (hr.inside _ hmem).2.trans (h.within r ?_)⟩
  rw [hregions]
  simp

/-- Different free blocks do not meet, and no block is on two lists.
Source: none: infrastructure
Kind: L -/
theorem PmmInvariant.eq_of_mem_bytes (h : PmmInvariant p G) {d d' : Addr} (hd : d ∈ G.flatten)
    (hd' : d' ∈ G.flatten) {x : ℕ} (hx : x ∈ (p.extent d).bytes) (hx' : x ∈ (p.extent d').bytes) :
    d = d' := by
  have hpair := List.pairwise_map.mp h.separate
  obtain ⟨pre, post, hsplit⟩ := List.append_of_mem hd
  rw [hsplit, List.pairwise_append, List.pairwise_cons] at hpair
  obtain ⟨-, ⟨hpost, -⟩, hpre⟩ := hpair
  rw [hsplit, List.mem_append, List.mem_cons] at hd'
  rcases hd' with hd' | rfl | hd'
  · exact absurd hx (Finset.disjoint_left.mp (hpre d' hd' d List.mem_cons_self) hx')
  · rfl
  · exact absurd hx' (Finset.disjoint_left.mp (hpost d' hd') hx)

/-- Source: none: infrastructure. Kind: L -/
theorem PmmInvariant.nodup (h : PmmInvariant p G) : G.flatten.Nodup := by
  refine List.Pairwise.imp_of_mem ?_ (List.pairwise_map.mp h.separate)
  rintro d d' hd - hdis rfl
  have hpos := (h.block hd).1
  have hbase : (p.extent d).base ∈ (p.extent d).bytes := by
    rw [Extent.mem_bytes, Extent.upper]
    omega
  exact Finset.disjoint_left.mp hdis hbase hbase

/-! ## The range takes the upper end of its block -/

/-- Source: none: infrastructure. Kind: L -/
theorem sum_free_counts (p : Pmm) : (p.regions.map fun r => r.free.toNat).sum =
    ((p.regions.map PmmRegion.counts).map fun c => c.2.2.toNat).sum := by
  rw [List.map_map]
  rfl

/-- Source: none: infrastructure. Kind: L -/
theorem sum_size_counts (p : Pmm) : (p.regions.map fun r => r.size.toNat).sum =
    ((p.regions.map PmmRegion.counts).map fun c => c.2.1.toNat).sum := by
  rw [List.map_map]
  rfl

/-- Charging a region changes no other one.
Source: `pmm.c` `pmm_remove_region`
Kind: L -/
theorem pmmCharge_getElem?_of_ne (p : Pmm) {i k : ℕ} (size : BitVec 64) (h : k ≠ i) :
    (pmmCharge p i size).regions[k]? = p.regions[k]? :=
  List.getElem?_modify_ne _ _ h.symm

/-- **A block's place is taken by what is left of it**, and its region is charged: the invariant
holds again, and exactly the range is gone.
Source: none: infrastructure
Kind: L -/
theorem PmmInvariant.charge {q : Pmm} {gpre gpost : List (List Addr)} {dpre dpost mid : List Addr}
    {block : Addr} {base size : BitVec 64}
    (h : PmmInvariant p (gpre ++ (dpre ++ block :: dpost) :: gpost)) (hframe : PmmFrame p q)
    (hchains : Chains 0 q.next (q.regions.map PmmRegion.freeBlocks)
      (gpre ++ (dpre ++ mid ++ dpost) :: gpost))
    (hothers : ∀ d ∈ gpre.flatten ++ (dpre ++ dpost ++ gpost.flatten), q.range d = p.range d)
    (hmid : mid.map q.extent = carve (p.extent block) base.toNat size.toNat)
    (hlow : (p.extent block).base ≤ base.toNat)
    (hfits : base.toNat + size.toNat ≤ (p.extent block).upper)
    (hbase : 4096 ∣ base.toNat) (hsize : 4096 ∣ size.toNat) :
    let p' := pmmCharge q gpre.length size
    let G' := gpre ++ (dpre ++ mid ++ dpost) :: gpost
    PmmInvariant p' G' ∧
      (∀ x, PmmFreeByte p' G' x ↔ PmmFreeByte p (gpre ++ (dpre ++ block :: dpost) :: gpost) x ∧
        ¬ (base.toNat ≤ x ∧ x < base.toNat + size.toNat)) ∧
      p'.free.toNat + size.toNat = p.free.toNat ∧
      ∃ r r', p.regions[gpre.length]? = some r ∧ p'.regions[gpre.length]? = some r' ∧
        r'.base = r.base ∧ r'.size = r.size ∧ r'.free.toNat + size.toNat = r.free.toNat := by
  dsimp only
  obtain ⟨cpre, c, cpost, hcs, hlen, hcfree, hlists⟩ :=
    forall₂_carve h.counts hothers hmid hlow hfits hbase hsize
  have hcsq : q.regions.map PmmRegion.counts = cpre ++ c :: cpost := hframe.regions.trans hcs
  have hcs' : (pmmCharge q gpre.length size).regions.map PmmRegion.counts =
      cpre ++ (c.1, c.2.1, c.2.2 - size) :: cpost := by
    rw [← hlen]
    exact pmmCharge_counts hcsq
  have hsum : ((pmmCharge q gpre.length size).regions.map fun r => r.free.toNat).sum +
      size.toNat = p.free.toNat := by
    rw [sum_free_counts, hcs', h.free, sum_free_counts, hcs]
    exact sum_free_sub hcfree
  have hfree : (pmmCharge q gpre.length size).free.toNat + size.toNat = p.free.toNat := by
    have hle : size.toNat ≤ p.free.toNat := by omega
    show (q.free - size).toNat + _ = _
    rw [hframe.free, BitVec.toNat_sub_of_le (BitVec.le_def.mpr hle), Nat.sub_add_cancel hle]
  have hcover : ∀ x, _ + cover [⟨base.toNat, size.toNat⟩] x = _ :=
    cover_replace hothers hmid hlow hfits
  refine ⟨⟨?_, ?_, ?_, ?_, ?_, ?_⟩, fun x => ?_, hfree, ?_⟩
  · have hheads : (pmmCharge q gpre.length size).regions.map PmmRegion.freeBlocks =
        q.regions.map PmmRegion.freeBlocks := map_modify_of_eq (g := fun r =>
          { r with free := r.free - size }) PmmRegion.freeBlocks (fun _ => rfl) _ _
    rw [hheads]
    exact hchains
  · rw [← hcs'] at hlists
    exact List.forall₂_map_left_iff.mp hlists
  · refine separate_of_cover_le_one fun x => ?_
    have hone := h.separate.cover_le_one x
    rw [← hcover x] at hone
    exact (Nat.le_add_right _ _).trans hone
  · intro r hr
    -- some region of `p` has the same range
    obtain ⟨r₀, hr₀, hsame⟩ : ∃ r₀ ∈ p.regions, r₀.base = r.base ∧ r₀.size = r.size := by
      have hmem := List.mem_map_of_mem (f := PmmRegion.counts) hr
      have hold : (r.base, r.size) ∈ (p.regions.map PmmRegion.counts).map fun c => (c.1, c.2.1) := by
        rw [hcs, List.map_append, List.map_cons]
        rw [hcs'] at hmem
        have hmem' := List.mem_map_of_mem (f := fun c => (c.1, c.2.1)) hmem
        rwa [List.map_append, List.map_cons] at hmem'
      rw [List.map_map] at hold
      obtain ⟨r₀, hr₀, heq⟩ := List.mem_map.mp hold
      exact ⟨r₀, hr₀, congrArg Prod.fst heq, congrArg Prod.snd heq⟩
    rw [← hsame.1, ← hsame.2]
    exact h.within r₀ hr₀
  · omega
  · show q.total.toNat = _
    rw [hframe.total, h.total, sum_size_counts, sum_size_counts, hcs, hcs']
    simp only [List.map_append, List.map_cons]
  · have hx := hcover x
    have hone := h.separate.cover_le_one x
    have hin : x ∈ Extent.bytes ⟨base.toNat, size.toNat⟩ ↔
        base.toNat ≤ x ∧ x < base.toNat + size.toNat := Extent.mem_bytes
    unfold PmmFreeByte
    rw [← cover_pos_iff, ← cover_pos_iff, ← hin]
    rw [cover_singleton] at hx
    change 0 < cover ((gpre ++ (dpre ++ mid ++ dpost) :: gpost).flatten.map q.extent) x ↔ _
    split_ifs at hx with hmem
    · refine iff_of_false (by omega) fun hh => hh.2 hmem
    · rw [← hx, Nat.add_zero]
      exact ⟨fun hpos => ⟨hpos, hmem⟩, fun hh => hh.1⟩
  · obtain ⟨rpre, rrest, hregions, rfl, hrest⟩ := List.map_eq_append_iff.mp hcs
    obtain ⟨r, rpost, rfl, rfl, rfl⟩ := List.map_eq_cons_iff.mp hrest
    obtain ⟨qpre, qrest, hqregions, hqpre, hqrest⟩ := List.map_eq_append_iff.mp hcsq
    obtain ⟨t, qpost, rfl, ht, -⟩ := List.map_eq_cons_iff.mp hqrest
    rw [List.length_map] at hlen
    have hqlen : qpre.length = gpre.length := by
      rw [← hlen, ← List.length_map (f := PmmRegion.counts), hqpre, List.length_map]
    have htfree : t.free = r.free := congrArg (fun c => c.2.2) ht
    refine ⟨r, { t with free := t.free - size }, ?_, ?_, congrArg Prod.fst ht,
      congrArg (fun c => c.2.1) ht, ?_⟩
    · rw [hregions, ← hlen]
      simp
    · show (q.regions.modify gpre.length _)[gpre.length]? = _
      rw [List.getElem?_modify_eq, hqregions, ← hqlen]
      simp
    · change size.toNat ≤ r.free.toNat at hcfree
      show (t.free - size).toNat + _ = _
      rw [htfree, BitVec.toNat_sub_of_le (BitVec.le_def.mpr hcfree), Nat.sub_add_cancel hcfree]

/-- Two families that differ in one list.
Source: none: infrastructure
Kind: L -/
theorem getElem?_replace_of_ne {gpre gpost : List (List Addr)} (l l' : List Addr) {k : ℕ}
    (hk : k ≠ gpre.length) : (gpre ++ l :: gpost)[k]? = (gpre ++ l' :: gpost)[k]? := by
  rcases Nat.lt_or_gt_of_ne hk with hlt | hgt
  · rw [List.getElem?_append_left hlt, List.getElem?_append_left hlt]
  · rw [List.getElem?_append_right hgt.le, List.getElem?_append_right hgt.le]
    obtain ⟨n, hn⟩ : ∃ n, k - gpre.length = n + 1 := ⟨k - gpre.length - 1, by omega⟩
    rw [hn, List.getElem?_cons_succ, List.getElem?_cons_succ]

/-- A node of another list.
Source: none: infrastructure
Kind: L -/
theorem mem_others_of_getElem? {gpre gpost : List (List Addr)} {l ds : List Addr} {d : Addr} {k : ℕ}
    (hk : k ≠ gpre.length) (hds : (gpre ++ l :: gpost)[k]? = some ds) (hd : d ∈ ds) :
    d ∈ gpre.flatten ++ gpost.flatten := by
  rw [getElem?_replace_of_ne l [] hk] at hds
  have hmem := List.mem_flatten.mpr ⟨ds, List.mem_of_getElem? hds, hd⟩
  rwa [List.flatten_append, List.flatten_cons, List.nil_append] at hmem

/-- **A range at the upper end of its block** is carved as it should be.
Source: `pmm.c` `pmm_remove_region`
Kind: L -/
theorem PmmInvariant.removeBlock_upper {gpre gpost : List (List Addr)} {dpre dpost : List Addr}
    {block : Addr} {base size : BitVec 64} {e : Errval}
    (h : PmmInvariant p (gpre ++ (dpre ++ block :: dpost) :: gpost))
    (hlow : (p.extent block).base ≤ base.toNat)
    (hupper : base.toNat + size.toNat = (p.extent block).upper)
    (hbase : 4096 ∣ base.toNat) (hsize : 4096 ∣ size.toNat)
    (hrun : pmmRemoveBlock p gpre.length (dpre.getLastD 0) block base size = some (p', e)) :
    PmmCarved p p' (gpre ++ (dpre ++ block :: dpost) :: gpost) gpre.length (dpre.getLastD 0) block
      base size := by
  set G := gpre ++ (dpre ++ block :: dpost) :: gpost with hG
  set c := p.blocks block with hc
  have hne := not_mem_others_of_nodup h.nodup
  have hcupper : base.toNat + size.toNat = c.base.toNat + c.size.toNat := hupper
  have hends : base + size = c.base + c.size := by
    apply BitVec.eq_of_toNat_eq
    rw [BitVec.toNat_add, BitVec.toNat_add, hcupper]
  have hpost : ¬ base + size < c.base + c.size := by
    rw [hends]
    exact BitVec.lt_irrefl _
  unfold pmmRemoveBlock at hrun
  dsimp only at hrun
  rw [← hc, if_neg fun hh => hpost hh.2] at hrun
  by_cases hpre : c.base ≠ base
  · -- the lower side stays
    rw [if_pos hpre] at hrun
    cases hrun
    set q := p.setBlock block { c with size := base - c.base } with hq
    have hrange : ∀ d ∈ gpre.flatten ++ (dpre ++ dpost ++ gpost.flatten), q.range d = p.range d := by
      intro d hd
      refine Pmm.setBlock_range_of_ne p _ ?_
      rintro rfl
      exact hne hd
    have hchains : Chains 0 q.next (q.regions.map PmmRegion.freeBlocks)
        (gpre ++ (dpre ++ [block] ++ dpost) :: gpost) := by
      have hnext : q.next = p.next := by
        rw [hq, Pmm.setBlock_next]
        exact Function.update_eq_self ..
      rw [hnext, List.append_assoc]
      exact h.chains
    have hpre' : (p.extent block).base ≠ base.toNat := fun heq => hpre (BitVec.eq_of_toNat_eq heq)
    have hmid : [block].map q.extent = carve (p.extent block) base.toNat size.toNat := by
      unfold carve
      rw [if_pos hpre', if_neg (by omega)]
      simp only [List.map_cons, List.map_nil, List.append_nil, List.cons.injEq, and_true]
      rw [Pmm.extent, hq, Pmm.setBlock_range_self, rangeExtent, Extent.mk.injEq]
      exact ⟨rfl, BitVec.toNat_sub_of_le (BitVec.le_def.mpr hlow)⟩
    have hframe : PmmFrame p q := ⟨rfl, rfl, rfl, rfl, rfl⟩
    obtain ⟨hinv, hbytes, hfree, hregion⟩ :=
      h.charge hframe hchains hrange hmid hlow hupper.le hbase hsize
    refine ⟨⟨_, hinv, hbytes, fun k hk => ⟨getElem?_replace_of_ne _ _ hk, fun ds hds d hd => ?_⟩⟩,
      hfree, hregion, fun k hk => pmmCharge_getElem?_of_ne q size hk, fun alignment t halign htake => ?_⟩
    · refine Pmm.setBlock_blocks_of_ne p _ ?_
      rintro rfl
      have hmem := mem_others_of_getElem? hk hds hd
      simp only [List.mem_append] at hmem hne
      tauto
    · unfold pmmTakeBlock at htake
      dsimp only at htake
      rw [← hc, halign, if_neg fun hh => hpost hh.2, if_pos hpre] at htake
      cases htake
      rfl
  · -- the whole block goes
    rw [if_neg hpre, if_neg hpost, pmmUnlinkBlock_eq] at hrun
    obtain ⟨q, hq, hp'⟩ := Option.map_eq_some_iff.mp hrun
    cases hp'
    obtain ⟨⟨s, e'⟩, hreturn, hqeq⟩ := Option.map_eq_some_iff.mp hq
    obtain ⟨hchains, hrange, hblocks, hothers, -, hframe⟩ := pmmUnlinked_spec h.chains h.nodup
    have hmid : ([] : List Addr).map q.extent = carve (p.extent block) base.toNat size.toNat := by
      have hpre' : (p.extent block).base = base.toNat := congrArg BitVec.toNat (not_not.mp hpre)
      unfold carve
      rw [if_neg (not_not.mpr hpre'), if_neg (by omega)]
      rfl
    have hframe' : PmmFrame p q := by
      rw [← hqeq]
      exact ⟨hframe.regions, hframe.total, hframe.free, hframe.policy, hframe.mem⟩
    have hchains' : Chains 0 q.next (q.regions.map PmmRegion.freeBlocks)
        (gpre ++ (dpre ++ [] ++ dpost) :: gpost) := by
      rw [← hqeq, List.append_nil]
      exact hchains
    have hrange' : ∀ d ∈ gpre.flatten ++ (dpre ++ dpost ++ gpost.flatten),
        q.range d = p.range d := by
      intro d _
      rw [← hqeq]
      exact hrange d
    obtain ⟨hinv, hbytes, hfree, hregion⟩ :=
      h.charge hframe' hchains' hrange' hmid hlow hupper.le hbase hsize
    refine ⟨⟨_, hinv, hbytes, fun k hk => ⟨getElem?_replace_of_ne _ _ hk, fun ds hds d hd => ?_⟩⟩,
      hfree, hregion, fun k hk => ?_, fun alignment t halign htake => ?_⟩
    · rw [← hqeq]
      exact hblocks d (mem_others_of_getElem? hk hds hd)
    · rw [pmmCharge_getElem?_of_ne q size hk, ← hqeq]
      exact hothers k hk
    · unfold pmmTakeBlock at htake
      dsimp only at htake
      rw [← hc, halign, if_neg fun hh => hpost hh.2, if_neg hpre, if_neg hpost,
        pmmUnlinkBlock_eq, hq] at htake
      cases htake
      rfl

/-! ## The range ends before its block does -/

/-- Source: none: infrastructure. Kind: L -/
theorem pmmCharge_heads (p : Pmm) (i : ℕ) (size : BitVec 64) :
    (pmmCharge p i size).regions.map PmmRegion.freeBlocks = p.regions.map PmmRegion.freeBlocks :=
  map_modify_of_eq (g := fun r => { r with free := r.free - size }) PmmRegion.freeBlocks
    (fun _ => rfl) _ _

/-- **A range at the lower end of its block**: the block moves up, but keeps its size, so that the
counters are not the sums any more.
Source: `pmm.c` `pmm_remove_region`
Kind: L -/
theorem PmmInvariant.removeBlock_lower (h : PmmInvariant p G) {i : ℕ} {prev block : Addr}
    {base size : BitVec 64} {e : Errval} (hsize : size ≠ 0) (hbase : (p.blocks block).base = base)
    (hpost : base + size < (p.blocks block).base + (p.blocks block).size)
    (hrun : pmmRemoveBlock p i prev block base size = some (p', e)) (G' : List (List Addr)) :
    ¬ PmmInvariant p' G' := by
  intro h'
  unfold pmmRemoveBlock at hrun
  dsimp only at hrun
  rw [if_neg fun hh => hh.1 hbase, if_neg (not_not.mpr hbase), if_pos hpost] at hrun
  cases hrun
  -- the links are what they were, and so are the sizes
  have hnext : ∀ c : PmmBlock, c.next = p.next block →
      (pmmCharge (p.setBlock block c) i size).next = p.next := by
    intro c hc
    show (p.setBlock block c).next = p.next
    rw [Pmm.setBlock_next, hc, Function.update_eq_self]
  have hchains := h'.chains
  rw [pmmCharge_heads, hnext] at hchains
  · obtain rfl := hchains.unique h.chains
    have hsum' := h'.free
    have hsum := h.free
    rw [sum_free_counts, sum_free_eq h'.counts, List.map_map] at hsum'
    rw [sum_free_counts, sum_free_eq h.counts, List.map_map] at hsum
    have hsizes : ∀ d, (p.blocks d).size.toNat =
        ((p.setBlock block ⟨base + size, base + size + (p.blocks block).size - (base + size),
          (p.blocks block).next⟩).blocks d).size.toNat := by
      intro d
      by_cases hd : d = block
      · subst hd
        rw [Pmm.setBlock_blocks_self]
        show _ = (base + size + (p.blocks d).size - (base + size)).toNat
        rw [BitVec.add_comm (base + size), BitVec.add_sub_cancel]
      · rw [Pmm.setBlock_blocks_of_ne _ _ hd]
    have hsame : (p.free - size).toNat = p.free.toNat := by
      refine hsum'.trans (Eq.trans ?_ hsum.symm)
      congr 1
      exact List.map_congr_left fun d _ => (hsizes d).symm
    have hzero := BitVec.eq_of_toNat_eq hsame
    bv_omega
  · rfl

/-- **A range in the middle of its block**: the new block that is to hold what is behind the range
runs past the end of its region, or meets the one before it.
Source: `pmm.c` `pmm_remove_region`
Kind: L -/
theorem PmmInvariant.removeBlock_middle {gpre gpost : List (List Addr)} {dpre dpost : List Addr}
    {block : Addr} {base size : BitVec 64}
    (h : PmmInvariant p (gpre ++ (dpre ++ block :: dpost) :: gpost)) (hsize : size ≠ 0)
    (hle : (p.blocks block).base ≤ base) (hne : (p.blocks block).base ≠ base)
    (hpost : base + size < (p.blocks block).base + (p.blocks block).size)
    (hend : base.toNat + size.toNat ≤ 2 ^ 64)
    (hwrap : base.toNat + size.toNat = 2 ^ 64 → dpre = [])
    (hrun : pmmRemoveBlock p gpre.length (dpre.getLastD 0) block base size =
      some (p', GrouperError.ok.errval)) (G' : List (List Addr)) :
    ¬ PmmInvariant p' G' := by
  intro h'
  have hlt : (p.blocks block).base.toNat < base.toNat := by
    have hle' := BitVec.le_def.mp hle
    have hne' : (p.blocks block).base.toNat ≠ base.toNat := fun heq => hne (BitVec.eq_of_toNat_eq heq)
    omega
  have hpos : 0 < size.toNat := by
    refine Nat.pos_of_ne_zero fun h0 => hsize ?_
    exact BitVec.eq_of_toNat_eq h0
  unfold pmmRemoveBlock at hrun
  dsimp only at hrun
  rw [if_pos ⟨hne, hpost⟩] at hrun
  set c := p.blocks block with hc
  rcases halloc : slabAlloc (p.setBlock block { c with size := base - c.base }).blockAllocator with
    _ | ⟨s, x⟩
  · rw [halloc] at hrun
    cases hrun
  rw [halloc] at hrun
  dsimp only at hrun
  by_cases hx : x = 0
  · rw [if_pos hx] at hrun
    cases hrun
  rw [if_neg hx] at hrun
  set q := Pmm.setBlock { p.setBlock block { c with size := base - c.base } with
    blockAllocator := s } x ⟨base + size, c.base + (base - c.base) - (base + size), c.next⟩ with hq
  have hp' : p' = pmmCharge (q.setBlock block { q.blocks block with next := x }) gpre.length size := by
    cases hrun
    rfl
  have hnext : p'.next = Function.update q.next block x := by
    rw [hp']
    exact Pmm.setBlock_next ..
  have hnextOther : ∀ r, r ≠ block → r ≠ x → p'.next r = p.next r := by
    intro r hr hrx
    rw [hnext, Function.update_of_ne hr, hq, Pmm.setBlock_next, Function.update_of_ne hrx]
    exact (congrFun (Pmm.setBlock_next p block _) r).trans (Function.update_of_ne hr _ _)
  have hrange : p'.range x = (base + size, -size) := by
    have hval : c.base + (base - c.base) - (base + size) = -size := by
      bv_omega
    rw [hp', ← hval]
    show (q.setBlock block { q.blocks block with next := x }).range x = _
    by_cases hxb : x = block
    · subst hxb
      rw [Pmm.setBlock_range_self]
      exact Pmm.setBlock_range_self ..
    · rw [Pmm.setBlock_range_of_ne _ _ hxb]
      exact Pmm.setBlock_range_self ..
  have hneg : (-size).toNat = 2 ^ 64 - size.toNat := by
    rw [BitVec.toNat_neg]
    omega
  -- the list of the block leads to the new one
  obtain ⟨hpre, head, hpost', hheads, -, -, hhead, -⟩ := h.chains.split
  have hchains := h'.chains
  have hheads' : p'.regions.map PmmRegion.freeBlocks = hpre ++ head :: hpost' := by
    rw [← hheads, hp']
    exact pmmCharge_heads ..
  rw [hheads'] at hchains
  obtain ⟨gpre', gpost', rfl, -, hrest⟩ := hchains.split_heads
  obtain ⟨l, hl, hlmem⟩ : ∃ l, IsChain 0 p'.next head l ∧ l ∈ gpost' := by
    cases hrest with
    | cons hl _ => exact ⟨_, hl, List.mem_cons_self⟩
  have hflat : ∀ d ∈ l, d ∈ (gpre' ++ gpost').flatten := fun d hd =>
    List.mem_flatten.mpr ⟨l, List.mem_append_right _ hlmem, hd⟩
  have hnextBlock : p'.next block = x := by
    rw [hnext, Function.update_self]
  have hxl : x ∈ l := hhead.mem_of_relink hl hx hnextBlock hnextOther
  have hextent : p'.extent x = ⟨(base + size).toNat, 2 ^ 64 - size.toNat⟩ := by
    rw [Pmm.extent, hrange, rangeExtent, hneg]
  have hupper := (h'.block (hflat x hxl)).2
  rw [hextent] at hupper
  unfold Extent.upper at hupper
  rcases Nat.lt_or_ge (base.toNat + size.toNat) (2 ^ 64) with hlow | hhigh
  · rw [BitVec.toNat_add, Nat.mod_eq_of_lt hlow] at hupper
    dsimp only at hupper
    omega
  · -- the range ends at `2 ^ 64`, and the block is the first of its list
    obtain rfl := hwrap (by omega)
    obtain rfl := hhead.head_eq
    have hbl : head ∈ l := hl.head_mem hhead.ne_null
    have hxb : x ≠ head := by
      rintro rfl
      have hnodup := hl.nodup
      cases hl with
      | nil => exact List.not_mem_nil hbl
      | cons _ htail =>
          rw [hnextBlock] at htail
          exact (List.nodup_cons.mp hnodup).1 (htail.head_mem hx)
    have hrangeb : p'.range head = (c.base, base - c.base) := by
      rw [hp']
      show (q.setBlock head { q.blocks head with next := x }).range head = _
      rw [Pmm.setBlock_range_self]
      show q.range head = _
      rw [hq, Pmm.setBlock_range_of_ne _ _ hxb.symm]
      exact Pmm.setBlock_range_self ..
    refine hxb (h'.eq_of_mem_bytes (hflat x hxl) (hflat head hbl) (x := c.base.toNat) ?_ ?_)
    · rw [hextent, Extent.mem_bytes, Extent.upper, BitVec.toNat_add]
      dsimp only
      omega
    · rw [Pmm.extent, hrangeb, rangeExtent, Extent.mem_bytes, Extent.upper,
        BitVec.toNat_sub_of_le hle]
      dsimp only
      omega

/-! ## Which ranges are carved -/

/-- The first free block of the first region that starts at or below `base` and has one.
Source: none: infrastructure
Kind: D -/
def pmmFirstBelow (regions : List PmmRegion) (base : BitVec 64) : Option Addr :=
  (regions.filter fun r => r.base ≤ base ∧ r.freeBlocks ≠ 0).head?.map PmmRegion.freeBlocks

/-- **The range takes the upper end of its free block.** Where the block ends at `2 ^ 64`, the end
that the source computes is zero and the search takes the first block it meets; that block must then
be this one.
Source: `pmm.c` `pmm_remove_region`
Kind: D -/
def PmmTakesUpperEnd (p : Pmm) (block : Addr) (base size : BitVec 64) : Prop :=
  base.toNat + size.toNat = (p.extent block).upper ∧
    ((p.extent block).upper = 2 ^ 64 → pmmFirstBelow p.regions base = some block)

/-- The search for a range that ends at `2 ^ 64`.
Source: `pmm.c` `pmm_remove_region`
Kind: L -/
theorem pmmRemoveFind_wrap {base size : BitVec 64} (hwrap : base + size = 0)
    {regions : List PmmRegion} (hno : ∀ r ∈ regions, ¬ (base = r.base ∧ size = r.size)) {k i : ℕ}
    {prev block : Addr} (hrun : pmmRemoveFind p base size k regions = some (.part i prev block)) :
    prev = 0 ∧ pmmFirstBelow regions base = some block := by
  induction regions generalizing k with
  | nil => cases hrun
  | cons r regions ih =>
      have hrest := ih (fun q hq => hno q (List.mem_cons_of_mem _ hq)) (k := k + 1)
      have hzero : ∀ x : BitVec 64, (0 : BitVec 64) ≤ x := fun x => BitVec.le_def.mpr (Nat.zero_le _)
      unfold pmmRemoveFind at hrun
      rw [if_neg (hno r List.mem_cons_self), hwrap] at hrun
      unfold pmmFirstBelow
      by_cases hbase : r.base ≤ base
      · have hchase : chase 0 p.next (pmmRemoveUpBound p base size) addressCount 0 r.freeBlocks =
            some (0, r.freeBlocks) := by
          have hstop : pmmRemoveUpBound p base size r.freeBlocks = true := by
            unfold pmmRemoveUpBound
            rw [hwrap]
            exact decide_eq_true (hzero _)
          rw [addressCount, show 2 ^ 64 = (2 ^ 64 - 1) + 1 by norm_num, chase, if_pos (Or.inr hstop)]
        rw [if_pos ⟨hbase, hzero _⟩, hchase] at hrun
        dsimp only at hrun
        by_cases hhead : r.freeBlocks = 0
        · rw [if_pos hhead] at hrun
          rw [List.filter_cons_of_neg (by simp [hhead])]
          exact hrest hrun
        · rw [if_neg hhead] at hrun
          have hpick : decide (r.base ≤ base ∧ r.freeBlocks ≠ 0) = true :=
            decide_eq_true ⟨hbase, hhead⟩
          rw [List.filter_cons, if_pos hpick]
          split_ifs at hrun
          · cases hrun
            exact ⟨rfl, rfl⟩
          · cases hrun
      · rw [if_neg fun hh => hbase hh.1] at hrun
        rw [List.filter_cons_of_neg (by simp [hbase])]
        exact hrest hrun

/-- What `pmm_remove_region` finds when it answers `ERR_OK` to a range of pages that is no whole
region.
Source: `pmm.c` `pmm_remove_region`
Kind: L -/
theorem PmmInvariant.removeRegion_part (h : PmmInvariant p G) {assertions : Bool}
    {base size : BitVec 64} (hbase : 4096 ∣ base.toNat) (hsize : 4096 ∣ size.toNat)
    (hpos : 0 < size.toNat) (hwhole : ∀ r ∈ p.regions, ¬ (base = r.base ∧ size = r.size))
    (hrun : pmmRemoveRegion assertions p base size = some (p', GrouperError.ok.errval)) :
    ∃ gpre dpre dpost gpost block, G = gpre ++ (dpre ++ block :: dpost) :: gpost ∧
      (p.blocks block).base ≤ base ∧
      base + size ≤ (p.blocks block).base + (p.blocks block).size ∧
      (base + size = 0 → dpre = [] ∧ pmmFirstBelow p.regions base = some block) ∧
      pmmRemoveBlock p gpre.length (dpre.getLastD 0) block base size =
        some (p', GrouperError.ok.errval) := by
  have hpage : basePageSize ≤ size := by
    rw [BitVec.le_def, basePageSize_toNat]
    omega
  unfold pmmRemoveRegion at hrun
  dsimp only at hrun
  rw [alignDown_page_of_dvd hbase, alignUp_page_of_dvd hsize,
    if_neg fun hA => hA.2 (BitVec.le_refl _), if_neg (not_not.mpr hpage)] at hrun
  rcases pmmRemoveFind_spec base size h.chains 0 with hno | hno | ⟨i, r, hfind, hr, hexact⟩ |
    ⟨i, prev, block, hfind, ⟨gpre, dpre, dpost, gpost, rfl, rfl, rfl⟩, hunder, hup⟩
  · rw [hno] at hrun
    cases hrun
  · rw [hno] at hrun
    cases hrun
  · exact absurd hexact (hwhole r (List.mem_of_getElem? hr))
  · rw [Nat.zero_add] at hfind
    rw [hfind] at hrun
    refine ⟨gpre, dpre, dpost, gpost, block, rfl, hunder, of_decide_eq_true hup, fun hwrap => ?_, hrun⟩
    obtain ⟨hprev, hfirst⟩ := pmmRemoveFind_wrap hwrap hwhole hfind
    refine ⟨?_, hfirst⟩
    obtain ⟨-, head, -, -, -, -, hchain, -⟩ := h.chains.split
    rcases List.eq_nil_or_concat dpre with rfl | ⟨dpre', d, rfl⟩
    · rfl
    · have hd : d = 0 := by simpa using hprev
      refine absurd ?_ hchain.null_not_mem
      rw [hd]
      simp

/-- **A part of a region is carved exactly when it is the upper end of a free block.** For every state
with the representation invariant and every range of pages in one free block that is no whole
region, when `pmm_remove_region` answers `ERR_OK`.
Source: `pmm.c` `pmm_remove_region`
Kind: P
Fidelity: exact
Hyps: the representation invariant; the range is not empty, of whole pages, in the free block
`block`, and no whole region; the answer is `ERR_OK` -/
theorem pmmCarved_iff {assertions : Bool} {base size : BitVec 64} {i : ℕ} {prev block : Addr}
    (h : PmmInvariant p G) (hat : ChainAt 0 G i prev block) (hbase : 4096 ∣ base.toNat)
    (hsize : 4096 ∣ size.toNat) (hpos : 0 < size.toNat) (hlow : (p.extent block).base ≤ base.toNat)
    (hfits : base.toNat + size.toNat ≤ (p.extent block).upper)
    (hwhole : ∀ r ∈ p.regions, ¬ (base = r.base ∧ size = r.size))
    (hrun : pmmRemoveRegion assertions p base size = some (p', GrouperError.ok.errval)) :
    PmmCarved p p' G i prev block base size ↔ PmmTakesUpperEnd p block base size := by
  have hmem : block ∈ G.flatten := by
    obtain ⟨gpre, dpre, dpost, gpost, rfl, -, -⟩ := hat
    rw [List.flatten_append, List.flatten_cons]
    simp
  obtain ⟨hblockpos, hupper⟩ := h.block hmem
  have hsize0 : size ≠ 0 := by
    rintro rfl
    exact absurd hpos (by decide)
  obtain ⟨gpre, dpre, dpost, gpost, found, rfl, hunder, hup, hwrap, hcarve⟩ :=
    h.removeRegion_part hbase hsize hpos hwhole hrun
  have hfound : found ∈ (gpre ++ (dpre ++ found :: dpost) :: gpost).flatten := by
    rw [List.flatten_append, List.flatten_cons]
    simp
  obtain ⟨hfoundpos, hfoundupper⟩ := h.block hfound
  have hunder' : (p.extent found).base ≤ base.toNat := BitVec.le_def.mp hunder
  have hfoundend : (p.extent found).upper =
      (p.blocks found).base.toNat + (p.blocks found).size.toNat := rfl
  have hrangepos : base.toNat ∈ (p.extent block).bytes := by
    rw [Extent.mem_bytes]
    omega
  -- when the search finds the right block
  have hright : found = block → base.toNat + size.toNat = (p.extent block).upper →
      PmmCarved p p' (gpre ++ (dpre ++ found :: dpost) :: gpost) i prev block base size := by
    rintro rfl heq
    obtain ⟨rfl, rfl⟩ := hat.unique ⟨gpre, dpre, dpost, gpost, rfl, rfl, rfl⟩ h.nodup
    exact h.removeBlock_upper hlow heq hbase hsize hcarve
  rw [BitVec.le_def, BitVec.toNat_add, BitVec.toNat_add] at hup
  rcases Nat.lt_or_ge (base.toNat + size.toNat) (2 ^ 64) with hlt | hge
  · have hin : base.toNat + size.toNat ≤ (p.extent found).upper := by omega
    obtain rfl : found = block := by
      refine h.eq_of_mem_bytes hfound hmem (x := base.toNat) ?_ hrangepos
      rw [Extent.mem_bytes]
      omega
    by_cases heq : base.toNat + size.toNat = (p.extent found).upper
    · exact iff_of_true (hright rfl heq) ⟨heq, fun htop => absurd htop (by omega)⟩
    · refine iff_of_false (fun hcarved => ?_) fun htakes => heq htakes.1
      obtain ⟨G', hinv, -⟩ := hcarved.lists
      have hpost : base + size < (p.blocks found).base + (p.blocks found).size := by
        rw [BitVec.lt_def, BitVec.toNat_add, BitVec.toNat_add]
        omega
      by_cases hlead : (p.blocks found).base = base
      · exact h.removeBlock_lower hsize0 hlead hpost hcarve G' hinv
      · exact h.removeBlock_middle hsize0 hunder hlead hpost hlt.le (fun htop => absurd htop (by omega))
          hcarve G' hinv
  · have htop : base.toNat + size.toNat = 2 ^ 64 := by omega
    have hzero : base + size = 0 := by
      apply BitVec.eq_of_toNat_eq
      rw [BitVec.toNat_add, htop]
      rfl
    obtain ⟨rfl, hfirst⟩ := hwrap hzero
    by_cases hsame : found = block
    · refine iff_of_true (hright hsame (by omega)) ⟨by omega, fun _ => ?_⟩
      rw [hfirst, hsame]
    · refine iff_of_false (fun hcarved => ?_) fun htakes => hsame ?_
      · obtain ⟨G', hinv, -⟩ := hcarved.lists
        have hapart : ∀ x, x ∈ (p.extent found).bytes → x ∉ (p.extent block).bytes := fun x hx hx' =>
          hsame (h.eq_of_mem_bytes hfound hmem hx hx')
        have hlead : (p.blocks found).base ≠ base := by
          intro heq
          have hfoundbase : (p.extent found).base = base.toNat := congrArg BitVec.toNat heq
          refine hapart base.toNat ?_ hrangepos
          rw [Extent.mem_bytes, Extent.upper]
          omega
        have hbelow : (p.extent found).upper < 2 ^ 64 := by
          by_contra hno
          have hlast := hapart (2 ^ 64 - 1)
          simp only [Extent.mem_bytes] at hlast
          omega
        have hpost : base + size < (p.blocks found).base + (p.blocks found).size := by
          rw [hzero, BitVec.lt_def, BitVec.toNat_add, Nat.mod_eq_of_lt (by omega)]
          show 0 < _
          have hsizepos : 0 < (p.blocks found).size.toNat := hfoundpos
          omega
        exact h.removeBlock_middle hsize0 hunder hlead hpost (by omega) (fun _ => rfl) hcarve G' hinv
      · have hfirst' := htakes.2 (by omega)
        rw [hfirst] at hfirst'
        exact Option.some.inj hfirst'

end invariant

/-! ## Two pages, one of them removed -/

section twoPages

variable {p : Pmm}

/-- Source: none: infrastructure. Kind: L -/
theorem PmmOneRegion.invariant (h : PmmOneRegion p 8192) :
    PmmInvariant p [[pmmNode (0x80300000 - 1536) 0]] := by
  have hextent : p.extent (pmmNode (0x80300000 - 1536) 0) = ⟨0x80400000, 8192⟩ := by
    rw [Pmm.extent, Pmm.range, h.block]
    rfl
  refine ⟨h.rep.chains, ?_, ?_, ?_, ?_, ?_⟩
  · rw [h.regions]
    refine .cons ?_ .nil
    rw [List.map_singleton, hextent]
    refine ⟨List.pairwise_singleton _ _, ?_, ?_, ?_, rfl⟩ <;> rw [List.forall_mem_singleton]
    · norm_num
    · norm_num
    · exact ⟨le_rfl, le_rfl⟩
  · exact List.pairwise_singleton _ _
  · rw [h.regions, List.forall_mem_singleton]
    decide
  · rw [h.regions, h.free]
    rfl
  · rw [h.regions, h.total]
    rfl

/-- The search finds the block around one of the two pages.
Source: none: infrastructure
Kind: L -/
theorem PmmOneRegion.removePage (h : PmmOneRegion p 8192) {base size ab : BitVec 64}
    (hab : alignDown base basePageSize = ab) (hsz : alignUp size basePageSize = 4096)
    (hpage : ab = 0x80400000 ∨ ab = 0x80401000) (hfits : ab + 4096 ≤ base + size)
    (assertions : Bool) :
    pmmRemoveRegion assertions p base size =
      pmmRemoveBlock p 0 0 (pmmNode (0x80300000 - 1536) 0) ab 4096 := by
  have hhead : pmmNode (0x80300000 - 1536) 0 ≠ 0 :=
    pmmNode_ne_zero h.rep.home (Nat.zero_le _)
  have hfind : pmmRemoveFind p ab 4096 0 p.regions =
      some (.part 0 0 (pmmNode (0x80300000 - 1536) 0)) := by
    rw [h.regions]
    refine pmmRemoveFind_head ?_ ?_ hhead ?_ ?_
    · exact fun hh => absurd hh.2 (by decide)
    · rcases hpage with rfl | rfl <;> exact ⟨by decide, by decide⟩
    · rw [h.block]
      rcases hpage with rfl | rfl <;> decide
    · rw [h.block]
      rcases hpage with rfl | rfl <;> decide
  unfold pmmRemoveRegion
  dsimp only
  rw [hab, hsz, hfind, if_neg fun hA => hA.2 hfits, if_neg (by decide)]

/-- The answers when one of the two pages is removed.
Source: none: infrastructure
Kind: L -/
theorem PmmOneRegion.removeBlock_ok (h : PmmOneRegion p 8192) {ab : BitVec 64}
    (hpage : ab = 0x80400000 ∨ ab = 0x80401000) :
    ∃ p', pmmRemoveBlock p 0 0 (pmmNode (0x80300000 - 1536) 0) ab 4096 =
      some (p', GrouperError.ok.errval) := by
  unfold pmmRemoveBlock
  dsimp only
  rw [h.block]
  rcases hpage with rfl | rfl
  · rw [if_neg (by decide), if_neg (by decide), if_pos (by decide)]
    exact ⟨_, rfl⟩
  · rw [if_neg (by decide), if_pos (by decide)]
    exact ⟨_, rfl⟩

/-- Source: none: infrastructure. Kind: L -/
theorem PmmOneRegion.not_whole (h : PmmOneRegion p 8192) (base : BitVec 64) :
    ∀ r ∈ p.regions, ¬ (base = r.base ∧ (4096 : BitVec 64) = r.size) := by
  rw [h.regions, List.forall_mem_singleton]
  exact fun hh => absurd hh.2 (by decide)

end twoPages

/-- The second of two pages is removed: it is the upper end of its block.
Source: none: infrastructure
Kind: C -/
theorem pmmCarved_secondPage :
    ∃ p p', pmmAddRegion (pmmInitialize pmmZero 0x80300000).1 0x80400000 8192 =
        some (p, GrouperError.ok.errval) ∧
      pmmRemoveRegion true p 0x80401000 4096 = some (p', GrouperError.ok.errval) ∧
      PmmCarved p p' [[pmmNode (0x80300000 - 1536) 0]] 0 0 (pmmNode (0x80300000 - 1536) 0)
        0x80401000 4096 := by
  obtain ⟨p, hadd, hone⟩ :=
    exists_pmmOneRegion (show pmmAlignedSize 0x80400000 8192 = 8192 by decide) (by decide)
  obtain ⟨p', hcarve⟩ := hone.removeBlock_ok (Or.inr rfl)
  have hrun : pmmRemoveRegion true p 0x80401000 4096 = some (p', GrouperError.ok.errval) :=
    (hone.removePage (by decide) (by decide) (Or.inr rfl) (by decide) true).trans hcarve
  have hextent : p.extent (pmmNode (0x80300000 - 1536) 0) = ⟨0x80400000, 8192⟩ := by
    rw [Pmm.extent, Pmm.range, hone.block]
    rfl
  refine ⟨p, p', hadd, hrun, ?_⟩
  refine (pmmCarved_iff hone.invariant ⟨[], [], [], [], rfl, rfl, rfl⟩ (by decide) (by decide)
    (by decide) ?_ ?_ (hone.not_whole _) hrun).mpr ⟨?_, ?_⟩
  · rw [hextent]
    decide
  · rw [hextent]
    decide
  · rw [hextent]
    decide
  · rw [hextent]
    exact fun htop => absurd htop (by decide)

/-- Not every removal carves exactly its range: when the first of two pages is removed, the block
starts at the second one but has two pages still.
Source: `pmm.c` `pmm_remove_region`
Kind: C -/
theorem not_pmmCarved_firstPage :
    ¬ ∀ (assertions : Bool) (p p' : Pmm) (G : List (List Addr)) (i : ℕ) (prev block : Addr)
      (base size : BitVec 64), PmmInvariant p G → ChainAt 0 G i prev block → 4096 ∣ base.toNat →
      4096 ∣ size.toNat → 0 < size.toNat → (p.extent block).base ≤ base.toNat →
      base.toNat + size.toNat ≤ (p.extent block).upper →
      (∀ r ∈ p.regions, ¬ (base = r.base ∧ size = r.size)) →
      pmmRemoveRegion assertions p base size = some (p', GrouperError.ok.errval) →
      PmmCarved p p' G i prev block base size := by
  intro hall
  obtain ⟨p, -, hone⟩ :=
    exists_pmmOneRegion (show pmmAlignedSize 0x80400000 8192 = 8192 by decide) (by decide)
  obtain ⟨p', hcarve⟩ := hone.removeBlock_ok (Or.inl rfl)
  have hextent : p.extent (pmmNode (0x80300000 - 1536) 0) = ⟨0x80400000, 8192⟩ := by
    rw [Pmm.extent, Pmm.range, hone.block]
    rfl
  have hcarved := hall true p p' _ 0 0 _ 0x80400000 4096 hone.invariant
    ⟨[], [], [], [], rfl, rfl, rfl⟩ (by decide) (by decide) (by decide)
    (by rw [hextent]; decide) (by rw [hextent]; decide) (hone.not_whole _)
    ((hone.removePage (by decide) (by decide) (Or.inl rfl) (by decide) true).trans hcarve)
  obtain ⟨G', hinv, -⟩ := hcarved.lists
  refine hone.invariant.removeBlock_lower (by decide) ?_ ?_ hcarve G' hinv
  · rw [hone.block]
  · rw [hone.block]
    decide

/-! ## Whole regions -/

/-- The states that calls of `pmm_alloc_aligned` lead to.
Source: none: infrastructure
Kind: D -/
def PmmAllocates : Pmm → Pmm → Prop :=
  Relation.ReflTransGen fun q q' => ∃ size alignment ret e a,
    pmmAllocAligned q size alignment ret = some (q', e, a)

/-- **Region `i`, which is `r`, is deleted**: the other regions stay in order, the counters have
dropped by its size and are the sums, its descriptors are in the slab and on no list, and nothing is
handed out of it any more.
Source: `pmm.c` `pmm_remove_region` (`EXACT_FIT`)
Kind: D -/
structure PmmRegionDeleted (p p' : Pmm) (i : ℕ) (r : PmmRegion) : Prop where
  regions : p'.regions = p.regions.eraseIdx i
  total : p'.total.toNat + r.size.toNat = p.total.toNat
  free : p'.free.toNat + r.size.toNat = p.free.toNat
  totalSum : p'.total.toNat = (p'.regions.map fun r => r.size.toNat).sum
  freeSum : p'.free.toNat = (p'.regions.map fun r => r.free.toNat).sum
  returned : ∀ ds, IsChain 0 p.next r.freeBlocks ds → ∀ d ∈ ds,
    (∃ rs region ns, IsChain 0 (regionNext p'.blockAllocator.mem) p'.blockAllocator.slabs.regions rs ∧
      region ∈ rs ∧ IsChain 0 (load64 p'.blockAllocator.mem)
        (regionBlocks p'.blockAllocator.mem region) ns ∧ d ∈ ns) ∧
    ∀ G, Chains 0 p'.next (p'.regions.map PmmRegion.freeBlocks) G → d ∉ G.flatten
  gone : ∀ q q' size alignment ret a, PmmAllocates p' q →
    pmmAllocAligned q size alignment ret = some (q', GrouperError.ok.errval, a) →
    ¬ (r.base.toNat ≤ a.toNat ∧ a.toNat < r.base.toNat + r.size.toNat)

section whole

variable {b : Addr} {p p' : Pmm} {j : ℕ}

/-- Source: `pmm.c` `pmm_remove_region`. Kind: L -/
theorem length_pmmShiftLoop (n k : ℕ) (regions : List PmmRegion) :
    (pmmShiftLoop n k regions).length = regions.length := by
  induction n generalizing k regions with
  | zero => rfl
  | succ n ih =>
      unfold pmmShiftLoop
      rcases regions[k + 1]? with _ | r
      · rfl
      · exact (ih (k + 1) _).trans List.length_set

/-- Source: none: infrastructure. Kind: L -/
theorem length_pmmCharge (p : Pmm) (i : ℕ) (size : BitVec 64) :
    (pmmCharge p i size).regions.length = p.regions.length := List.length_modify ..

/-- Source: none: infrastructure. Kind: L -/
theorem length_pmmUnlinkBlock {i : ℕ} {prev block : Addr}
    (hrun : pmmUnlinkBlock p i prev block = some p') : p'.regions.length = p.regions.length := by
  rw [pmmUnlinkBlock_eq] at hrun
  obtain ⟨q, -, rfl⟩ := Option.map_eq_some_iff.mp hrun
  show (pmmUnlinked p i prev block).regions.length = _
  unfold pmmUnlinked
  split_ifs
  · exact List.length_modify ..
  · rfl

/-- Source: `pmm.c` `pmm_remove_region`. Kind: L -/
theorem length_pmmRemoveBlock {i : ℕ} {prev block : Addr} {base size : BitVec 64} {e : Errval}
    (hrun : pmmRemoveBlock p i prev block base size = some (p', e)) :
    p'.regions.length = p.regions.length := by
  unfold pmmRemoveBlock at hrun
  dsimp only at hrun
  split_ifs at hrun
  · rcases halloc : slabAlloc (p.setBlock block { p.blocks block with
        size := base - (p.blocks block).base }).blockAllocator with _ | ⟨s, x⟩
    · rw [halloc] at hrun
      cases hrun
    · rw [halloc] at hrun
      dsimp only at hrun
      split_ifs at hrun
      · cases hrun
        rfl
      · cases hrun
        exact length_pmmCharge ..
  · cases hrun
    exact length_pmmCharge ..
  · cases hrun
    exact length_pmmCharge ..
  · obtain ⟨q, hunlink, hq⟩ := Option.map_eq_some_iff.mp hrun
    cases hq
    exact (length_pmmCharge ..).trans (length_pmmUnlinkBlock hunlink)

/-- **`region_count` never changes.**
Source: `pmm.c` `pmm_remove_region`
Kind: P
Fidelity: exact -/
theorem length_pmmRemoveRegion {assertions : Bool} {base size : BitVec 64} {e : Errval}
    (hrun : pmmRemoveRegion assertions p base size = some (p', e)) :
    p'.regions.length = p.regions.length := by
  unfold pmmRemoveRegion at hrun
  dsimp only at hrun
  split_ifs at hrun
  · rcases hfind : pmmRemoveFind p (alignDown base basePageSize) (alignUp size basePageSize) 0
        p.regions with _ | t
    · rw [hfind] at hrun
      cases hrun
    · rw [hfind] at hrun
      cases t with
      | whole i region =>
          obtain ⟨q, hreturn, hq⟩ := Option.map_eq_some_iff.mp hrun
          obtain ⟨s, -, rfl⟩ := Option.map_eq_some_iff.mp hreturn
          cases hq
          exact length_pmmShiftLoop ..
      | part i prev block => exact length_pmmRemoveBlock hrun
      | allocatedFrom =>
          cases hrun
          rfl
      | notManaged =>
          cases hrun
          rfl
  · cases hrun
    rfl

/-- Source: none: infrastructure. Kind: L -/
theorem not_eraseIdx_of_length_eq {i : ℕ} {r : PmmRegion} (hr : p.regions[i]? = some r)
    (hlen : p'.regions.length = p.regions.length) : p'.regions ≠ p.regions.eraseIdx i := by
  obtain ⟨hi, -⟩ := List.getElem?_eq_some_iff.mp hr
  intro heq
  rw [heq, List.length_eraseIdx_of_lt hi] at hlen
  omega

/-- What the shifting loop makes of the array: the entries behind number `k` move down, and the last
one stays where it was, too.
Source: `pmm.c` `pmm_remove_region`
Kind: L -/
theorem pmmShiftLoop_eq {k : ℕ} {regions : List PmmRegion} (hk : k < regions.length) :
    pmmShiftLoop (regions.length - 1 - k) k regions =
      regions.eraseIdx k ++ regions.getLast?.toList := by
  have hdrop : (regions.drop k).length = regions.length - k := List.length_drop
  have hne : regions.drop k ≠ [] := by
    intro hnil
    rw [hnil, List.length_nil] at hdrop
    omega
  have htake : (regions.take k).length = k := by
    rw [List.length_take]
    omega
  have hshift := pmmShiftLoop_append (regions.take k) (regions.drop k) hne
  rw [List.take_append_drop, htake, hdrop, Nat.sub_right_comm] at hshift
  rw [hshift, List.eraseIdx_eq_take_drop_succ, List.tail_drop, List.getLast_drop hne,
    List.getLast?_eq_some_getLast]
  rfl

/-- **A whole region is never deleted.** In every reachable state, when `pmm_remove_region` is called
with the base and size of region `i` and answers `ERR_OK`, the number of regions is what it was; where
it found a region of that base and size, the last entry of the array is there twice, and the slab has
not got a descriptor back.
Source: `pmm.c` `pmm_remove_region` (`EXACT_FIT`)
Kind: P
Fidelity: exact
Hyps: the static array `pmm_initial_region_slab` lies in the address space, and not in its first
1536 bytes; the answer is `ERR_OK` -/
theorem not_pmmRegionDeleted {assertions : Bool} {slabBuf : Addr} {i : ℕ} {r : PmmRegion}
    (hlo : 1536 < slabBuf.toNat) (hhi : slabBuf.toNat + 1568 ≤ 2 ^ 64)
    (h : PmmReach (fun _ _ => True) assertions slabBuf p) (hr : p.regions[i]? = some r)
    (hrun : pmmRemoveRegion assertions p r.base r.size = some (p', GrouperError.ok.errval)) :
    ¬ PmmRegionDeleted p p' i r ∧ p'.regions.length = p.regions.length ∧
      ∀ k region, pmmRemoveFind p (alignDown r.base basePageSize) (alignUp r.size basePageSize) 0
          p.regions = some (.whole k region) → basePageSize ≤ alignUp r.size basePageSize →
        p'.regions = p.regions.eraseIdx k ++ p.regions.getLast?.toList ∧
          p'.blockAllocator = p.blockAllocator := by
  have hlen := length_pmmRemoveRegion hrun
  refine ⟨fun hdel => not_eraseIdx_of_length_eq hr hlen hdel.regions, hlen, ?_⟩
  intro k region hfind hpage
  obtain ⟨j, hptrs⟩ := pmmPtrs_of_reach hlo hhi h
  obtain ⟨n, hn, hregion⟩ := (hptrs.removeFind hptrs.heads hfind).1 k region rfl
  rw [Nat.zero_add] at hn
  subst hn
  have hmem := List.mem_of_getElem? hregion
  unfold pmmRemoveRegion at hrun
  dsimp only at hrun
  split_ifs at hrun
  rw [hfind] at hrun
  dsimp only at hrun
  rw [pmmRemoveWhole, hptrs.pmmReturnBlock_eq (hptrs.heads region hmem)] at hrun
  cases hrun
  exact ⟨pmmShiftLoop_eq (List.getElem?_eq_some_iff.mp hregion).1, rfl⟩

end whole

/-- A region of one page, all of it free, is removed.
Source: none: infrastructure
Kind: L -/
theorem pmmRemoveRegion_onePage :
    ∃ p p', PmmReach (fun _ _ => True) false 0x80300000 p ∧
      p.regions = [⟨0x80400000, 4096, 4096, pmmNode (0x80300000 - 1536) 0⟩] ∧
      pmmRemoveRegion false p 0x80400000 4096 = some (p', GrouperError.ok.errval) := by
  obtain ⟨p, hadd, hone⟩ :=
    exists_pmmOneRegion (show pmmAlignedSize 0x80400000 4096 = 4096 by decide) (by decide)
  have hadd' := congrArg (Option.map Prod.fst) hadd
  have hreach : PmmReach (fun _ _ => True) false 0x80300000 p :=
    .step (.addRegion 0x80400000 4096) (.init pmmZero) trivial hadd'
  have hround : alignDown 0x80400000 basePageSize = 0x80400000 ∧
      alignUp 4096 basePageSize = 4096 := by decide
  have hfind : pmmRemoveFind p 0x80400000 4096 0 p.regions =
      some (.whole 0 ⟨0x80400000, 4096, 4096, pmmNode (0x80300000 - 1536) 0⟩) := by
    rw [hone.regions, pmmRemoveFind, if_pos ⟨rfl, rfl⟩, if_neg (not_not.mpr rfl)]
  have hreturn : pmmReturnBlock p (pmmNode (0x80300000 - 1536) 0) = some p :=
    hone.rep.pmmReturnBlock_eq (Or.inr (by simp)) rfl
  have hrun : ∃ p', pmmRemoveRegion false p 0x80400000 4096 = some (p', GrouperError.ok.errval) := by
    unfold pmmRemoveRegion
    dsimp only
    rw [hround.1, hround.2, if_neg fun hA => absurd hA.1 (by decide), if_neg (by decide), hfind]
    dsimp only
    rw [pmmRemoveWhole, hreturn]
    exact ⟨_, rfl⟩
  obtain ⟨p', hrun⟩ := hrun
  exact ⟨p, p', hreach, hone.regions, hrun⟩

/-- The only region, of one page, is removed and is there still.
Source: none: infrastructure
Kind: C -/
theorem not_pmmRegionDeleted_onePage :
    ∃ p p' r, p.regions = [r] ∧
      pmmRemoveRegion false p r.base r.size = some (p', GrouperError.ok.errval) ∧
      ¬ PmmRegionDeleted p p' 0 r ∧ p'.regions.length = 1 := by
  obtain ⟨p, p', hreach, hregions, hrun⟩ := pmmRemoveRegion_onePage
  have key := not_pmmRegionDeleted (i := 0) (r := ⟨0x80400000, 4096, 4096,
    pmmNode (0x80300000 - 1536) 0⟩) (by decide) (by decide) hreach (by rw [hregions]; rfl) hrun
  refine ⟨p, p', _, hregions, hrun, key.1, ?_⟩
  rw [key.2.1, hregions]
  rfl

/-- Removing a whole region does not delete it.
Source: `pmm.c` `pmm_remove_region` (`EXACT_FIT`)
Kind: C -/
theorem not_pmmRegionDeleted_of_reach :
    ¬ ∀ (assertions : Bool) (slabBuf : Addr) (p p' : Pmm) (i : ℕ) (r : PmmRegion),
      1536 < slabBuf.toNat → slabBuf.toNat + 1568 ≤ 2 ^ 64 →
      PmmReach (fun _ _ => True) assertions slabBuf p → p.regions[i]? = some r →
      pmmRemoveRegion assertions p r.base r.size = some (p', GrouperError.ok.errval) →
      PmmRegionDeleted p p' i r := by
  intro hall
  obtain ⟨p, p', hreach, hregions, hrun⟩ := pmmRemoveRegion_onePage
  have hr : p.regions[0]? = some ⟨0x80400000, 4096, 4096, pmmNode (0x80300000 - 1536) 0⟩ := by
    rw [hregions]
    rfl
  have hdel := hall false 0x80300000 p p' 0 _ (by decide) (by decide) hreach hr hrun
  exact not_eraseIdx_of_length_eq hr (length_pmmRemoveRegion hrun) hdel.regions

end Octiron.Kernel
