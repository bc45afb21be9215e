import Octiron.Kernel.PmmCoverage

/-!
# The answers of `pmm_remove_region`

The answer comes from where the search ends: at a region that is the range, at the first free block
that ends behind the range, or nowhere. The ends of ranges and blocks are computed with 64 bits.

* `PmmManaged`, `PmmOneBlock` — the range lies in a region, and in one of its free blocks.
* `PmmClassified` — the answer says which of the two holds.
* `PmmSearchEnds` — where the search must end for that.
* **Main result** (`pmmClassified_iff`): the answer is the right one exactly when the search ends
  there; a range behind the last free block of its region is answered as one that is not managed.
-/

namespace Octiron.Kernel

open Octiron.Found
open Octiron.Kzadhbat

/-! ## The right answer -/

/-- The range lies in the region.
Source: `pmm.h` `pmm_remove_region`
Kind: D -/
def PmmRegion.Holds (r : PmmRegion) (base size : BitVec 64) : Prop :=
  r.base.toNat ≤ base.toNat ∧ base.toNat + size.toNat ≤ r.base.toNat + r.size.toNat

instance (r : PmmRegion) (base size : BitVec 64) : Decidable (r.Holds base size) :=
  inferInstanceAs (Decidable (_ ∧ _))

/-- The range lies in a region.
Source: `pmm.h` `pmm_remove_region`
Kind: D -/
def PmmManaged (p : Pmm) (base size : BitVec 64) : Prop := ∃ r ∈ p.regions, r.Holds base size

/-- The range lies in a free block.
Source: `pmm.h` `pmm_remove_region`
Kind: D -/
def PmmOneBlock (p : Pmm) (G : List (List Addr)) (base size : BitVec 64) : Prop :=
  ∃ d ∈ G.flatten, (p.extent d).base ≤ base.toNat ∧ base.toNat + size.toNat ≤ (p.extent d).upper

/-- **The answer is the right one.**
Source: `pmm.c` `pmm_remove_region`, `error.h` `ERR_PMM_REGION_*`
Kind: D -/
structure PmmClassified (p : Pmm) (G : List (List Addr)) (base size : BitVec 64) (e : Errval) :
    Prop where
  ok : e = GrouperError.ok.errval ↔ PmmManaged p base size ∧ PmmOneBlock p G base size
  used : e = GrouperError.pmmRegionAllocatedFrom.errval ↔
    PmmManaged p base size ∧ ¬ PmmOneBlock p G base size
  notManaged : e = GrouperError.pmmRegionNotManaged.errval ↔ ¬ PmmManaged p base size

/-- **Where the search must end.** A range that ends below `2 ^ 64`: the region around it ends below
`2 ^ 64`, too, and has a free block that ends at or behind the end of the range; if the range is the
whole region and all of this is free, it is free in one block. A range that wraps: no free block ends
at or behind the wrapped end, in the regions that start at or below it and end below `2 ^ 64`. A range
that ends at `2 ^ 64` and is not free in one block: no region in the array before the one around it
(or no region at all) starts at or below it and has a free block; and that one, unless it is the
range, has a free block, and the first starts above the base.
Source: `pmm.c` `pmm_remove_region`
Kind: D -/
structure PmmSearchEnds (p : Pmm) (G : List (List Addr)) (base size : BitVec 64) : Prop where
  below : base.toNat + size.toNat < 2 ^ 64 → ∀ rd ∈ p.regions.zip G, rd.1.Holds base size →
    rd.1.base.toNat + rd.1.size.toNat < 2 ^ 64 ∧
      if base = rd.1.base ∧ size = rd.1.size then
        rd.1.free = rd.1.size → PmmOneBlock p G base size
      else ∃ d ∈ rd.2, base.toNat + size.toNat ≤ (p.extent d).upper
  beyond : 2 ^ 64 < base.toNat + size.toNat → ∀ rd ∈ p.regions.zip G,
    rd.1.base.toNat ≤ base.toNat → rd.1.base.toNat + rd.1.size.toNat < 2 ^ 64 →
    ∀ d ∈ rd.2, (p.extent d).upper + 2 ^ 64 < base.toNat + size.toNat
  before : base.toNat + size.toNat = 2 ^ 64 → ¬ PmmOneBlock p G base size →
    ∀ rd ∈ (p.regions.zip G).takeWhile (fun rd => ¬ rd.1.Holds base size),
      rd.1.base.toNat ≤ base.toNat → rd.2 = []
  around : base.toNat + size.toNat = 2 ^ 64 → ¬ PmmOneBlock p G base size →
    ∀ rd ∈ p.regions.zip G, rd.1.Holds base size →
      if base = rd.1.base ∧ size = rd.1.size then rd.1.free ≠ rd.1.size
      else ∃ d ds, rd.2 = d :: ds ∧ base.toNat < (p.extent d).base

/-- The answer that belongs to the end of a search.
Source: `pmm.c` `pmm_remove_region`
Kind: D -/
def PmmRemoveTarget.answer : PmmRemoveTarget → Errval
  | .whole _ _ => GrouperError.ok.errval
  | .part _ _ _ => GrouperError.ok.errval
  | .allocatedFrom => GrouperError.pmmRegionAllocatedFrom.errval
  | .notManaged => GrouperError.pmmRegionNotManaged.errval

section verdicts

variable {p : Pmm} {G : List (List Addr)} {base size : BitVec 64}

/-- The search over the regions with their lists ends with `t`.
Source: `pmm.c` `pmm_remove_region`
Kind: D -/
def PmmSearched (p : Pmm) (G : List (List Addr)) (base size : BitVec 64) (t : PmmRemoveTarget) :
    Prop :=
  (t = .notManaged ∧ ∀ rd ∈ p.regions.zip G, PmmPasses p base size rd.1 rd.2) ∨
    ∃ zpre r ds zpost i, p.regions.zip G = zpre ++ (r, ds) :: zpost ∧
      (∀ rd ∈ zpre, PmmPasses p base size rd.1 rd.2) ∧ PmmStops p base size i r ds t

/-- Source: `pmm.c` `pmm_remove_region`. Kind: L -/
theorem PmmInvariant.searched (h : PmmInvariant p G) (base size : BitVec 64) :
    ∃ t, pmmRemoveFind p base size 0 p.regions = some t ∧ PmmSearched p G base size t := by
  rcases pmmRemoveFind_cases base size h.chains 0 with ⟨hno, hall⟩ |
    ⟨rpre, r, rpost, gpre, ds, gpost, t, hregions, rfl, hpre, hstop, hfind⟩
  · exact ⟨_, hno, Or.inl ⟨rfl, fun rd hrd => (List.forall₂_iff_zip.mp hall).2 hrd⟩⟩
  · refine ⟨t, hfind, Or.inr ⟨rpre.zip gpre, r, ds, rpost.zip gpost, _, ?_, fun rd hrd =>
      (List.forall₂_iff_zip.mp hpre).2 hrd, hstop⟩⟩
    rw [hregions, List.zip_append hpre.length_eq, List.zip_cons_cons]

/-- Source: none: infrastructure. Kind: L -/
theorem PmmInvariant.list_of_zip (h : PmmInvariant p G) {r : PmmRegion} {ds : List Addr}
    (hmem : (r, ds) ∈ p.regions.zip G) :
    RegionFree r.base r.size r.free (ds.map p.extent) ∧ r ∈ p.regions ∧ ds ∈ G ∧
      r.base.toNat + r.size.toNat ≤ 2 ^ 64 :=
  ⟨(List.forall₂_iff_zip.mp h.lists).2 hmem, (List.of_mem_zip hmem).1, (List.of_mem_zip hmem).2,
    h.within r (List.of_mem_zip hmem).1⟩

/-! ## The search in integers -/

/-- The comparison of ends that are computed with 64 bits.
Source: none: infrastructure
Kind: L -/
theorem add_le_add_iff_of_le {e b s : BitVec 64} (h : b.toNat + s.toNat ≤ 2 ^ 64) :
    e ≤ b + s ↔ e.toNat = 0 ∨ b.toNat + s.toNat < 2 ^ 64 ∧ e.toNat ≤ b.toNat + s.toNat := by
  rw [BitVec.le_def, BitVec.toNat_add]
  rcases Nat.lt_or_ge (b.toNat + s.toNat) (2 ^ 64) with hlt | hge
  · rw [Nat.mod_eq_of_lt hlt]
    omega
  · rw [show b.toNat + s.toNat = 2 ^ 64 by omega]
    omega

/-- A block that the walk passes ends before the range does, when its end is not cut off.
Source: `pmm.c` `pmm_remove_region` (`UP_BOUND`)
Kind: L -/
theorem upper_lt_of_upBound_false {d : Addr} (hwithin : (p.extent d).upper ≤ 2 ^ 64)
    (hend : (base + size).toNat = 0 ∨ (p.extent d).upper < 2 ^ 64)
    (hup : pmmRemoveUpBound p base size d = false) : (p.extent d).upper < (base + size).toNat := by
  have hupper : (p.extent d).upper = (p.blocks d).base.toNat + (p.blocks d).size.toNat := rfl
  by_contra hno
  have hle : base + size ≤ (p.blocks d).base + (p.blocks d).size := by
    rw [add_le_add_iff_of_le (by omega)]
    omega
  exact of_decide_eq_false hup hle

/-- **A region is passed**: if it starts at or below the range and its end is not cut off, all its
blocks end before the range does.
Source: `pmm.c` `pmm_remove_region`
Kind: L -/
theorem PmmPasses.ends {r : PmmRegion} {ds : List Addr} (h : PmmPasses p base size r ds)
    (hlist : RegionFree r.base r.size r.free (ds.map p.extent))
    (hwithin : r.base.toNat + r.size.toNat ≤ 2 ^ 64) (hbase : r.base.toNat ≤ base.toNat)
    (hend : (base + size).toNat = 0 ∨ r.base.toNat + r.size.toNat < 2 ^ 64) {d : Addr} (hd : d ∈ ds) :
    (p.extent d).upper < (base + size).toNat := by
  have hin := (hlist.inside _ (List.mem_map_of_mem hd)).2
  by_contra hno
  have hbounds : r.base ≤ base ∧ base + size ≤ r.base + r.size := by
    refine ⟨BitVec.le_def.mpr hbase, (add_le_add_iff_of_le hwithin).mpr ?_⟩
    omega
  exact hno (upper_lt_of_upBound_false (by omega) (by omega) (h.walk hbounds d hd))

/-- **Where the walk over a list ends**: the region's end is not cut off, and the block is the first
that ends at or behind the range.
Source: `pmm.c` `pmm_remove_region`
Kind: L -/
theorem pmmStops_ends {r : PmmRegion} {dpre dpost : List Addr} {block : Addr}
    (hlist : RegionFree r.base r.size r.free ((dpre ++ block :: dpost).map p.extent))
    (hwithin : r.base.toNat + r.size.toNat ≤ 2 ^ 64)
    (hin : r.base ≤ base ∧ base + size ≤ r.base + r.size)
    (hpre : ∀ d ∈ dpre, pmmRemoveUpBound p base size d = false)
    (hup : pmmRemoveUpBound p base size block = true) :
    r.base.toNat ≤ base.toNat ∧
      ((base + size).toNat = 0 ∨ r.base.toNat + r.size.toNat < 2 ^ 64) ∧
      (base + size).toNat ≤ (p.extent block).upper ∧
      (p.extent block).upper ≤ r.base.toNat + r.size.toNat ∧
      ∀ d ∈ dpre, (p.extent d).upper < (base + size).toNat := by
  have hblock := (hlist.inside _ (List.mem_map_of_mem (List.mem_append_right dpre
    (List.mem_cons_self (a := block) (l := dpost))))).2
  have hupper : (p.extent block).upper =
      (p.blocks block).base.toNat + (p.blocks block).size.toNat := rfl
  have hup' := (add_le_add_iff_of_le (by omega)).mp (of_decide_eq_true hup)
  have hin' := (add_le_add_iff_of_le hwithin).mp hin.2
  have hend : (base + size).toNat = 0 ∨ r.base.toNat + r.size.toNat < 2 ^ 64 := by omega
  refine ⟨BitVec.le_def.mp hin.1, hend, by omega, hblock, fun d hd => ?_⟩
  have hdin := (hlist.inside _ (List.mem_map_of_mem (List.mem_append_left _ hd))).2
  exact upper_lt_of_upBound_false (by omega) (by omega) (hpre d hd)

/-- The blocks behind one of a list start behind it.
Source: none: infrastructure
Kind: L -/
theorem RegionFree.le_of_mem {rbase rsize free : BitVec 64} {dpre dpost : List Addr} {block d : Addr}
    (h : RegionFree rbase rsize free ((dpre ++ block :: dpost).map p.extent)) (hd : d ∈ dpost) :
    (p.extent block).upper ≤ (p.extent d).base := by
  have hordered := h.ordered
  rw [List.map_append, List.map_cons] at hordered
  exact (List.pairwise_cons.mp (List.pairwise_append.mp hordered).2.1).1 _ (List.mem_map_of_mem hd)

/-! ## Ranges, regions and blocks -/

/-- Regions with a common byte are one entry of the array.
Source: none: infrastructure
Kind: L -/
theorem PmmInvariant.zip_unique (h : PmmInvariant p G)
    (hsep : Separate (p.regions.map PmmRegion.extent)) {rd rd' : PmmRegion × List Addr}
    (hrd : rd ∈ p.regions.zip G) (hrd' : rd' ∈ p.regions.zip G) {x : ℕ}
    (hx : x ∈ rd.1.extent.bytes) (hx' : x ∈ rd'.1.extent.bytes) : rd = rd' := by
  by_contra hne
  have hsymm : Std.Symm fun a b : PmmRegion × List Addr =>
      Disjoint a.1.extent.bytes b.1.extent.bytes := ⟨fun _ _ hdis => hdis.symm⟩
  have hpair : (p.regions.zip G).Pairwise fun a b => Disjoint a.1.extent.bytes b.1.extent.bytes := by
    have hfst : (p.regions.zip G).map Prod.fst = p.regions :=
      List.map_fst_zip h.lists.length_eq.le
    have hregions := List.pairwise_map.mp hsep
    rw [← hfst, List.pairwise_map] at hregions
    exact hregions
  exact Finset.disjoint_left.mp (hpair.forall hrd hrd' hne) hx hx'

/-- Source: none: infrastructure. Kind: L -/
theorem PmmInvariant.exists_zip (h : PmmInvariant p G) {d : Addr} (hd : d ∈ G.flatten) :
    ∃ r ds, (r, ds) ∈ p.regions.zip G ∧ d ∈ ds := by
  obtain ⟨ds, hds, hdmem⟩ := List.mem_flatten.mp hd
  have hsnd : (p.regions.zip G).map Prod.snd = G := List.map_snd_zip h.lists.length_eq.ge
  rw [← hsnd] at hds
  obtain ⟨⟨r, ds'⟩, hmem, rfl⟩ := List.mem_map.mp hds
  exact ⟨r, ds', hmem, hdmem⟩

/-- Source: none: infrastructure. Kind: L -/
theorem PmmInvariant.managed_iff (h : PmmInvariant p G) :
    PmmManaged p base size ↔ ∃ rd ∈ p.regions.zip G, rd.1.Holds base size := by
  have hfst : (p.regions.zip G).map Prod.fst = p.regions := List.map_fst_zip h.lists.length_eq.le
  constructor
  · rintro ⟨r, hr, hholds⟩
    rw [← hfst] at hr
    obtain ⟨rd, hmem, rfl⟩ := List.mem_map.mp hr
    exact ⟨rd, hmem, hholds⟩
  · rintro ⟨rd, hmem, hholds⟩
    exact ⟨rd.1, (List.of_mem_zip hmem).1, hholds⟩

/-- A free block lies in a region.
Source: none: infrastructure
Kind: L -/
theorem PmmInvariant.managed_of_oneBlock (h : PmmInvariant p G) (hone : PmmOneBlock p G base size) :
    PmmManaged p base size := by
  obtain ⟨d, hd, hlow, hhigh⟩ := hone
  obtain ⟨r, hr, hrlow, hrhigh⟩ := h.exists_region hd
  exact ⟨r, hr, hrlow.trans hlow, hhigh.trans hrhigh⟩

/-- The block around the range is on the list of every region that has the first byte of it.
Source: none: infrastructure
Kind: L -/
theorem PmmInvariant.oneBlock_mem (h : PmmInvariant p G)
    (hsep : Separate (p.regions.map PmmRegion.extent)) (hpos : 0 < size.toNat) {r : PmmRegion}
    {ds : List Addr} (hmem : (r, ds) ∈ p.regions.zip G) (hbase : base.toNat ∈ r.extent.bytes)
    (hone : PmmOneBlock p G base size) :
    ∃ d ∈ ds, (p.extent d).base ≤ base.toNat ∧
      base.toNat + size.toNat ≤ (p.extent d).upper := by
  obtain ⟨d, hd, hlow, hhigh⟩ := hone
  obtain ⟨r', ds', hmem', hdmem⟩ := h.exists_zip hd
  obtain ⟨hlist, -, -, -⟩ := h.list_of_zip hmem'
  obtain ⟨hrlow, hrhigh⟩ := hlist.inside _ (List.mem_map_of_mem hdmem)
  have hbase' : base.toNat ∈ r'.extent.bytes := by
    rw [Extent.mem_bytes, Extent.upper, PmmRegion.extent]
    dsimp only
    omega
  cases h.zip_unique hsep hmem hmem' hbase hbase'
  exact ⟨d, hdmem, hlow, hhigh⟩

/-- Source: none: infrastructure. Kind: L -/
theorem PmmRegion.Holds.base_mem {r : PmmRegion} (h : r.Holds base size) (hpos : 0 < size.toNat) :
    base.toNat ∈ r.extent.bytes := by
  obtain ⟨hlow, hhigh⟩ := h
  rw [Extent.mem_bytes, Extent.upper, PmmRegion.extent]
  dsimp only
  omega

/-- Source: none: infrastructure. Kind: L -/
theorem PmmRegion.holds_of_exact {r : PmmRegion} (h : base = r.base ∧ size = r.size) :
    r.Holds base size := by
  rw [h.1, h.2]
  exact ⟨le_rfl, le_rfl⟩

/-- A region that is free in one block is free.
Source: none: infrastructure
Kind: L -/
theorem PmmInvariant.full_of_oneBlock (h : PmmInvariant p G)
    (hsep : Separate (p.regions.map PmmRegion.extent)) (hpos : 0 < size.toNat) {r : PmmRegion}
    {ds : List Addr} (hmem : (r, ds) ∈ p.regions.zip G) (hexact : base = r.base ∧ size = r.size)
    (hone : PmmOneBlock p G base size) : r.free = r.size := by
  obtain ⟨hlist, -, -, hwithin⟩ := h.list_of_zip hmem
  have hholds : r.Holds base size := PmmRegion.holds_of_exact hexact
  obtain ⟨d, hd, hlow, hhigh⟩ := h.oneBlock_mem hsep hpos hmem (hholds.base_mem hpos) hone
  have hinside := hlist.inside _ (List.mem_map_of_mem hd)
  rw [hexact.1] at hlow hhigh
  rw [hexact.2] at hhigh
  -- the block is the region, and no other fits in beside it
  have hle : (p.extent d).size ≤ ((ds.map p.extent).map Extent.size).sum :=
    List.le_sum_of_mem (List.mem_map_of_mem (List.mem_map_of_mem hd))
  have hsum := Separate.sum_size_le_sub (hlist.ordered.imp Extent.disjoint_of_le) hlist.inside
    (Nat.le_add_right _ _)
  have hup : (p.extent d).upper = (p.extent d).base + (p.extent d).size := rfl
  apply BitVec.eq_of_toNat_eq
  rw [hlist.free]
  omega

/-- **A range that the walk runs past** is in no free block.
Source: `pmm.c` `pmm_remove_region`
Kind: L -/
theorem PmmInvariant.not_oneBlock_of_past (h : PmmInvariant p G)
    (hsep : Separate (p.regions.map PmmRegion.extent)) (hpos : 0 < size.toNat) {r : PmmRegion}
    {dpre dpost : List Addr} {block : Addr} (hmem : (r, dpre ++ block :: dpost) ∈ p.regions.zip G)
    (hrlow : r.base.toNat ≤ base.toNat)
    (hpre : ∀ d ∈ dpre, (p.extent d).upper < base.toNat + size.toNat)
    (hblock : base.toNat < (p.extent block).base) : ¬ PmmOneBlock p G base size := by
  intro hone
  obtain ⟨hlist, -, -, -⟩ := h.list_of_zip hmem
  have hinside := (hlist.inside _ (List.mem_map_of_mem (List.mem_append_right dpre
    (List.mem_cons_self (a := block) (l := dpost))))).2
  have hup : (p.extent block).upper = (p.extent block).base + (p.extent block).size := rfl
  have hbase : base.toNat ∈ r.extent.bytes := by
    rw [Extent.mem_bytes, Extent.upper, PmmRegion.extent]
    dsimp only
    omega
  obtain ⟨d, hd, hlow, hhigh⟩ := h.oneBlock_mem hsep hpos hmem hbase hone
  rcases List.mem_append.mp hd with hd | hd
  · have hlt := hpre d hd
    omega
  · rcases List.mem_cons.mp hd with rfl | hd
    · omega
    · have hbehind := hlist.le_of_mem hd
      omega

/-! ## The answer -/

/-- Source: none: infrastructure. Kind: L -/
theorem PmmInvariant.classified_ok_iff (h : PmmInvariant p G) :
    PmmClassified p G base size GrouperError.ok.errval ↔ PmmOneBlock p G base size := by
  constructor
  · intro hclass
    exact (hclass.ok.mp rfl).2
  · intro hone
    have hmanaged := h.managed_of_oneBlock hone
    exact ⟨iff_of_true rfl ⟨hmanaged, hone⟩, iff_of_false (by decide) fun hh => hh.2 hone,
      iff_of_false (by decide) (not_not.mpr hmanaged)⟩

/-- Source: none: infrastructure. Kind: L -/
theorem pmmClassified_used_iff :
    PmmClassified p G base size GrouperError.pmmRegionAllocatedFrom.errval ↔
      PmmManaged p base size ∧ ¬ PmmOneBlock p G base size := by
  constructor
  · intro hclass
    exact hclass.used.mp rfl
  · intro hused
    exact ⟨iff_of_false (by decide) fun hh => hused.2 hh.2, iff_of_true rfl hused,
      iff_of_false (by decide) (not_not.mpr hused.1)⟩

/-- Source: none: infrastructure. Kind: L -/
theorem pmmClassified_notManaged_iff :
    PmmClassified p G base size GrouperError.pmmRegionNotManaged.errval ↔
      ¬ PmmManaged p base size := by
  constructor
  · intro hclass
    exact hclass.notManaged.mp rfl
  · intro hno
    exact ⟨iff_of_false (by decide) fun hh => hno hh.1, iff_of_false (by decide) fun hh => hno hh.1,
      iff_of_true rfl hno⟩

/-- A range can be removed from a block when the slab can be used.
Source: `pmm.c` `pmm_remove_region`
Kind: L -/
theorem PmmServes.removeBlock (h : PmmServes p G) (i : ℕ) (prev : Addr) {block : Addr}
    (hblock : block ∈ G.flatten) (base size : BitVec 64) :
    ∃ q, pmmRemoveBlock p i prev block base size = some (q, GrouperError.ok.errval) := by
  obtain ⟨s, d, halloc, hd⟩ := h.alloc
  unfold pmmRemoveBlock
  dsimp only
  split_ifs with hboth hpre hpost
  · have halloc' : ∀ c, slabAlloc (p.setBlock block c).blockAllocator = some (s, d) :=
      fun _ => halloc
    simp only [halloc', hd, if_false]
    exact ⟨_, rfl⟩
  · exact ⟨_, rfl⟩
  · exact ⟨_, rfl⟩
  · obtain ⟨q, hq⟩ := h.unlinkBlock i prev hblock
    rw [hq]
    exact ⟨_, rfl⟩

/-- **`pmm_remove_region` answers what its search says.**
Source: `pmm.c` `pmm_remove_region`
Kind: L -/
theorem PmmInvariant.removeRegion_answer (h : PmmInvariant p G) (hserves : PmmServes p G)
    (assertions : Bool) (hbase : 4096 ∣ base.toNat) (hsize : 4096 ∣ size.toNat)
    (hpos : 0 < size.toNat) {t : PmmRemoveTarget} (hsearch : PmmSearched p G base size t)
    (hfind : pmmRemoveFind p base size 0 p.regions = some t) :
    ∃ p', pmmRemoveRegion assertions p base size = some (p', t.answer) := by
  have hpage : basePageSize ≤ size := by
    rw [BitVec.le_def, basePageSize_toNat]
    omega
  unfold pmmRemoveRegion
  dsimp only
  rw [alignDown_page_of_dvd hbase, alignUp_page_of_dvd hsize,
    if_neg fun hA => hA.2 (BitVec.le_refl _), if_neg (not_not.mpr hpage), hfind]
  rcases hsearch with ⟨rfl, -⟩ | ⟨zpre, r, ds, zpost, i, hzip, -, hstop⟩
  · exact ⟨p, rfl⟩
  · have hmem : (r, ds) ∈ p.regions.zip G := by
      rw [hzip]
      simp
    obtain ⟨hlist, -, hds, -⟩ := h.list_of_zip hmem
    cases hstop with
    | used => exact ⟨p, rfl⟩
    | past => exact ⟨p, rfl⟩
    | whole hexact hfull =>
        have hchain : IsChain 0 p.next r.freeBlocks ds :=
          (List.forall₂_iff_zip.mp (List.forall₂_map_left_iff.mp h.chains)).2 hmem
        have hne : ds ≠ [] := by
          rintro rfl
          have hzero := hlist.free
          rw [hfull, ← hexact.2] at hzero
          exact absurd hzero (by simp; omega)
        have hhead : r.freeBlocks ∈ G.flatten :=
          List.mem_flatten.mpr ⟨ds, hds, hchain.head_mem (hchain.head_ne_null hne)⟩
        obtain ⟨q, hq⟩ := hserves.free _ hhead
        refine ⟨_, Option.map_eq_some_iff.mpr ⟨_, Option.map_eq_some_iff.mpr ⟨q, hq, rfl⟩, rfl⟩⟩
    | part _ _ hsplit =>
        refine hserves.removeBlock _ _ (List.mem_flatten.mpr ⟨ds, hds, ?_⟩) base size
        rw [hsplit]
        simp

/-! ## Right answers -/

/-- A list taken up to an element that ends it. Source: none: infrastructure. Kind: L -/
theorem takeWhile_append_cons_of_neg {α : Type} {f : α → Bool} (pre : List α) {a : α}
    {post : List α} (ha : f a = false) :
    (pre ++ a :: post).takeWhile f = pre.takeWhile f := by
  induction pre with
  | nil => simp [ha]
  | cons b pre ih =>
      rw [List.cons_append, List.takeWhile_cons, List.takeWhile_cons, ih]

section ranges

variable {t : PmmRemoveTarget} (h : PmmInvariant p G)
  (hsep : Separate (p.regions.map PmmRegion.extent)) (hpos : 0 < size.toNat)
  (hsearch : PmmSearched p G base size t)

include h hsep hpos hsearch

/-- **Ranges that end below `2 ^ 64`.**
Source: `pmm.c` `pmm_remove_region`
Kind: L -/
theorem PmmInvariant.classified_below (hlt : base.toNat + size.toNat < 2 ^ 64) :
    PmmClassified p G base size t.answer ↔ PmmSearchEnds p G base size := by
  have hsum : (base + size).toNat = base.toNat + size.toNat := by
    rw [BitVec.toNat_add, Nat.mod_eq_of_lt hlt]
  -- only the region around the range matters
  have hends : PmmSearchEnds p G base size ↔
      ∀ rd ∈ p.regions.zip G, rd.1.Holds base size →
        rd.1.base.toNat + rd.1.size.toNat < 2 ^ 64 ∧
          if base = rd.1.base ∧ size = rd.1.size then
            rd.1.free = rd.1.size → PmmOneBlock p G base size
          else ∃ d ∈ rd.2, base.toNat + size.toNat ≤ (p.extent d).upper :=
    ⟨fun hh => hh.below hlt, fun hh => ⟨fun _ => hh, fun hgt => absurd hgt (by omega),
      fun heq => absurd heq (by omega), fun heq => absurd heq (by omega)⟩⟩
  rcases hsearch with ⟨rfl, hall⟩ | ⟨zpre, r, ds, zpost, i, hzip, -, hstop⟩
  · rw [PmmRemoveTarget.answer, pmmClassified_notManaged_iff, hends, h.managed_iff]
    constructor
    · intro hno rd hrd hholds
      exact absurd ⟨rd, hrd, hholds⟩ hno
    · rintro hright ⟨⟨r, ds⟩, hmem, hholds⟩
      obtain ⟨hbelow, hcase⟩ := hright _ hmem hholds
      obtain ⟨hlist, -, -, hwithin⟩ := h.list_of_zip hmem
      have hpass := hall _ hmem
      rw [if_neg hpass.not_exact] at hcase
      obtain ⟨d, hd, hle⟩ := hcase
      have hbehind := hpass.ends hlist hwithin hholds.1 (Or.inr hbelow) hd
      omega
  · have hmem : (r, ds) ∈ p.regions.zip G := by
      rw [hzip]
      simp
    obtain ⟨hlist, -, -, hwithin⟩ := h.list_of_zip hmem
    -- the search ends at the region around the range
    have hone : r.Holds base size → (PmmSearchEnds p G base size ↔
        r.base.toNat + r.size.toNat < 2 ^ 64 ∧
          if base = r.base ∧ size = r.size then r.free = r.size → PmmOneBlock p G base size
          else ∃ d ∈ ds, base.toNat + size.toNat ≤ (p.extent d).upper) := by
      intro hholds
      rw [hends]
      refine ⟨fun hh => hh _ hmem hholds, fun hh rd hrd hholds' => ?_⟩
      cases h.zip_unique hsep hmem hrd (hholds.base_mem hpos) (hholds'.base_mem hpos)
      exact hh
    cases hstop with
    | used hexact hfree =>
        have hholds : r.Holds base size := PmmRegion.holds_of_exact hexact
        rw [PmmRemoveTarget.answer, pmmClassified_used_iff, hone hholds, if_pos hexact, ← hexact.1,
          ← hexact.2]
        refine iff_of_true ⟨h.managed_iff.mpr ⟨_, hmem, hholds⟩, fun hblock => ?_⟩
          ⟨hlt, fun hfull => absurd (hfull.trans hexact.2) hfree⟩
        exact hfree (h.full_of_oneBlock hsep hpos hmem hexact hblock)
    | whole hexact hfull =>
        have hholds : r.Holds base size := PmmRegion.holds_of_exact hexact
        rw [PmmRemoveTarget.answer, h.classified_ok_iff, hone hholds, if_pos hexact, ← hexact.1,
          ← hexact.2]
        exact ⟨fun hblock => ⟨hlt, fun _ => hblock⟩, fun hh => hh.2 (hfull.trans hexact.2.symm)⟩
    | @part dpre dpost block hexact hin hds hpre hup hunder =>
        subst hds
        obtain ⟨hrlow, hrend, hle, hbelow, -⟩ := pmmStops_ends hlist hwithin hin hpre hup
        have hholds : r.Holds base size := ⟨hrlow, by omega⟩
        have hblock : block ∈ dpre ++ block :: dpost := by simp
        rw [PmmRemoveTarget.answer, h.classified_ok_iff, hone hholds, if_neg hexact]
        refine iff_of_true ⟨block, ?_, BitVec.le_def.mp hunder, by omega⟩
          ⟨by omega, block, hblock, by omega⟩
        exact List.mem_flatten.mpr ⟨_, (List.of_mem_zip hmem).2, hblock⟩
    | @past dpre dpost block hexact hin hds hpre hup hover =>
        subst hds
        obtain ⟨hrlow, hrend, hle, hbelow, hbefore⟩ := pmmStops_ends hlist hwithin hin hpre hup
        have hholds : r.Holds base size := ⟨hrlow, by omega⟩
        have hblock : block ∈ dpre ++ block :: dpost := by simp
        rw [PmmRemoveTarget.answer, pmmClassified_used_iff, hone hholds, if_neg hexact]
        refine iff_of_true ⟨h.managed_iff.mpr ⟨_, hmem, hholds⟩, ?_⟩
          ⟨by omega, block, hblock, by omega⟩
        rw [hsum] at hbefore
        exact h.not_oneBlock_of_past hsep hpos hmem hrlow hbefore
          (Nat.lt_of_not_le fun hle => hover (BitVec.le_def.mpr hle))

omit hsep in
/-- **Ranges that wrap.**
Source: `pmm.c` `pmm_remove_region`
Kind: L -/
theorem PmmInvariant.classified_beyond (hgt : 2 ^ 64 < base.toNat + size.toNat) :
    PmmClassified p G base size t.answer ↔ PmmSearchEnds p G base size := by
  have hsum : (base + size).toNat + 2 ^ 64 = base.toNat + size.toNat := by
    have hbase := base.isLt
    have hsize := size.isLt
    rw [BitVec.toNat_add]
    omega
  have hends : PmmSearchEnds p G base size ↔ ∀ rd ∈ p.regions.zip G,
      rd.1.base.toNat ≤ base.toNat → rd.1.base.toNat + rd.1.size.toNat < 2 ^ 64 →
      ∀ d ∈ rd.2, (p.extent d).upper + 2 ^ 64 < base.toNat + size.toNat :=
    ⟨fun hh => hh.beyond hgt, fun hh => ⟨fun hlt => absurd hlt (by omega), fun _ => hh,
      fun heq => absurd heq (by omega), fun heq => absurd heq (by omega)⟩⟩
  -- no region is around the range
  have hno : ¬ PmmManaged p base size := by
    rintro ⟨r, hr, -, hhigh⟩
    have hwithin := h.within r hr
    omega
  have hnoblock : ¬ PmmOneBlock p G base size := fun hone => hno (h.managed_of_oneBlock hone)
  rcases hsearch with ⟨rfl, hall⟩ | ⟨zpre, r, ds, zpost, i, hzip, -, hstop⟩
  · rw [PmmRemoveTarget.answer, pmmClassified_notManaged_iff, hends]
    refine iff_of_true hno fun rd hrd hlow hbelow d hd => ?_
    obtain ⟨hlist, -, -, hwithin⟩ := h.list_of_zip hrd
    have hbehind := (hall rd hrd).ends hlist hwithin hlow (Or.inr hbelow) hd
    omega
  · have hmem : (r, ds) ∈ p.regions.zip G := by
      rw [hzip]
      simp
    obtain ⟨hlist, hr, -, hwithin⟩ := h.list_of_zip hmem
    have hnotexact : ¬ (base = r.base ∧ size = r.size) := fun hexact =>
      hno ⟨r, hr, PmmRegion.holds_of_exact hexact⟩
    -- a block that ends behind the wrapped end
    have hbad : ∀ {dpre dpost : List Addr} {block : Addr}, ds = dpre ++ block :: dpost →
        r.base ≤ base ∧ base + size ≤ r.base + r.size →
        (∀ d ∈ dpre, pmmRemoveUpBound p base size d = false) →
        pmmRemoveUpBound p base size block = true → ¬ PmmSearchEnds p G base size := by
      intro dpre dpost block hds hin hpre hup hright
      subst hds
      obtain ⟨hrlow, hrend, hle, hbelow, -⟩ := pmmStops_ends hlist hwithin hin hpre hup
      have hrbelow : r.base.toNat + r.size.toNat < 2 ^ 64 := by omega
      have hlt := hends.mp hright _ hmem hrlow hrbelow block (by simp)
      omega
    cases hstop with
    | used hexact => exact absurd hexact hnotexact
    | whole hexact => exact absurd hexact hnotexact
    | part _ hin hds hpre hup _ =>
        rw [PmmRemoveTarget.answer, h.classified_ok_iff]
        exact iff_of_false hnoblock (hbad hds hin hpre hup)
    | past _ hin hds hpre hup _ =>
        rw [PmmRemoveTarget.answer, pmmClassified_used_iff]
        exact iff_of_false (fun hh => hno hh.1) (hbad hds hin hpre hup)

end ranges

section top

/-- What the search has to meet when the range ends at `2 ^ 64`.
Source: none: infrastructure
Kind: L -/
theorem pmmSearchEnds_top_iff (htop : base.toNat + size.toNat = 2 ^ 64) :
    PmmSearchEnds p G base size ↔ (¬ PmmOneBlock p G base size →
      (∀ rd ∈ (p.regions.zip G).takeWhile (fun rd => ¬ rd.1.Holds base size),
        rd.1.base.toNat ≤ base.toNat → rd.2 = []) ∧
      ∀ rd ∈ p.regions.zip G, rd.1.Holds base size →
        if base = rd.1.base ∧ size = rd.1.size then rd.1.free ≠ rd.1.size
        else ∃ d ds, rd.2 = d :: ds ∧ base.toNat < (p.extent d).base) :=
  ⟨fun hh hno => ⟨hh.before htop hno, hh.around htop hno⟩, fun hh =>
    ⟨fun hlt => absurd hlt (by omega), fun hgt => absurd hgt (by omega),
      fun _ hno => (hh hno).1, fun _ hno => (hh hno).2⟩⟩

/-- The end of the range is zero for the search, which then ends at the first block it meets: a region
that is passed and starts at or below the range has none.
Source: `pmm.c` `pmm_remove_region`
Kind: L -/
theorem PmmInvariant.passed_top (h : PmmInvariant p G) (htop : base.toNat + size.toNat = 2 ^ 64)
    {rd : PmmRegion × List Addr} (hrd : rd ∈ p.regions.zip G)
    (hpass : PmmPasses p base size rd.1 rd.2) (hlow : rd.1.base.toNat ≤ base.toNat) : rd.2 = [] := by
  have hzero : (base + size).toNat = 0 := by
    rw [BitVec.toNat_add, htop, Nat.mod_self]
  obtain ⟨hlist, -, -, hwithin⟩ := h.list_of_zip hrd
  refine List.eq_nil_iff_forall_not_mem.mpr fun d hd => ?_
  have hlt := hpass.ends hlist hwithin hlow (Or.inl hzero) hd
  omega

/-- No region stops the search, and the range ends at `2 ^ 64`.
Source: `pmm.c` `pmm_remove_region`
Kind: L -/
theorem PmmInvariant.searchEnds_top_passed (h : PmmInvariant p G)
    (hsep : Separate (p.regions.map PmmRegion.extent)) (hpos : 0 < size.toNat)
    (htop : base.toNat + size.toNat = 2 ^ 64)
    (hall : ∀ rd ∈ p.regions.zip G, PmmPasses p base size rd.1 rd.2) :
    PmmSearchEnds p G base size ↔ ¬ PmmManaged p base size := by
  rw [pmmSearchEnds_top_iff htop, h.managed_iff]
  constructor
  · rintro hright ⟨rd, hrd, hholds⟩
    have hempty := h.passed_top htop hrd (hall rd hrd) hholds.1
    have hnoblock : ¬ PmmOneBlock p G base size := by
      intro hone
      obtain ⟨d, hd, -⟩ := h.oneBlock_mem hsep hpos hrd (hholds.base_mem hpos) hone
      rw [hempty] at hd
      exact absurd hd List.not_mem_nil
    have hcase := (hright hnoblock).2 rd hrd hholds
    rw [if_neg (hall rd hrd).not_exact, hempty] at hcase
    obtain ⟨d, ds, hnil, -⟩ := hcase
    cases hnil
  · intro hno _
    refine ⟨fun rd hrd hlow => ?_, fun rd hrd hholds => absurd ⟨rd, hrd, hholds⟩ hno⟩
    have hmem := (List.takeWhile_prefix _).subset hrd
    exact h.passed_top htop hmem (hall rd hmem) hlow

variable {zpre zpost : List (PmmRegion × List Addr)} {r : PmmRegion} {ds : List Addr}

/-- Where the search ends at the region around the range, nothing else matters.
Source: `pmm.c` `pmm_remove_region`
Kind: L -/
theorem PmmInvariant.searchEnds_top_around (h : PmmInvariant p G)
    (hsep : Separate (p.regions.map PmmRegion.extent)) (hpos : 0 < size.toNat)
    (htop : base.toNat + size.toNat = 2 ^ 64) (hzip : p.regions.zip G = zpre ++ (r, ds) :: zpost)
    (hzpre : ∀ rd ∈ zpre, PmmPasses p base size rd.1 rd.2) (hholds : r.Holds base size) :
    PmmSearchEnds p G base size ↔
      (¬ PmmOneBlock p G base size → if base = r.base ∧ size = r.size then r.free ≠ r.size
        else ∃ d ds', ds = d :: ds' ∧ base.toNat < (p.extent d).base) := by
  have hmem : (r, ds) ∈ p.regions.zip G := by
    rw [hzip]
    simp
  rw [pmmSearchEnds_top_iff htop]
  refine ⟨fun hh hno => (hh hno).2 _ hmem hholds, fun hh hno => ⟨fun rd hrd hlow => ?_, ?_⟩⟩
  · -- the regions before the one around the range have been passed
    rw [hzip, takeWhile_append_cons_of_neg _ (by simpa using hholds)] at hrd
    have hrdpre := (List.takeWhile_prefix _).subset hrd
    refine h.passed_top htop ?_ (hzpre rd hrdpre) hlow
    rw [hzip]
    exact List.mem_append_left _ hrdpre
  · intro rd hrd hholds'
    cases h.zip_unique hsep hmem hrd (hholds.base_mem hpos) (hholds'.base_mem hpos)
    exact hh hno

/-- A block of another region must not end the search.
Source: `pmm.c` `pmm_remove_region`
Kind: L -/
theorem PmmInvariant.not_searchEnds_top (h : PmmInvariant p G)
    (htop : base.toNat + size.toNat = 2 ^ 64) (hzip : p.regions.zip G = zpre ++ (r, ds) :: zpost)
    (hzpre : ∀ rd ∈ zpre, PmmPasses p base size rd.1 rd.2) (hnot : ¬ r.Holds base size)
    (hlow : r.base.toNat ≤ base.toNat) (hne : ds ≠ []) (hnoblock : ¬ PmmOneBlock p G base size) :
    ¬ PmmSearchEnds p G base size := by
  have hmempre : ∀ rd ∈ zpre, rd ∈ p.regions.zip G := by
    intro rd hrd
    rw [hzip]
    exact List.mem_append_left _ hrd
  intro hright
  obtain ⟨hfirst, haround⟩ := (pmmSearchEnds_top_iff htop).mp hright hnoblock
  by_cases hearlier : ∃ rd ∈ zpre, rd.1.Holds base size
  · obtain ⟨rd, hrd, hholds⟩ := hearlier
    have hcase := haround rd (hmempre rd hrd) hholds
    rw [if_neg (hzpre rd hrd).not_exact,
      h.passed_top htop (hmempre rd hrd) (hzpre rd hrd) hholds.1] at hcase
    obtain ⟨d, ds', hnil, -⟩ := hcase
    cases hnil
  · refine hne (hfirst (r, ds) ?_ hlow)
    rw [hzip, List.takeWhile_append_of_pos, List.takeWhile_cons_of_pos (by simpa using hnot)]
    · exact List.mem_append_right _ List.mem_cons_self
    · intro rd hrd
      simpa using fun hholds => hearlier ⟨rd, hrd, hholds⟩

/-- **Ranges that end at `2 ^ 64`**: the end is zero for the search.
Source: `pmm.c` `pmm_remove_region`
Kind: L -/
theorem PmmInvariant.classified_top {t : PmmRemoveTarget} (h : PmmInvariant p G)
    (hsep : Separate (p.regions.map PmmRegion.extent)) (hpos : 0 < size.toNat)
    (hsearch : PmmSearched p G base size t) (htop : base.toNat + size.toNat = 2 ^ 64) :
    PmmClassified p G base size t.answer ↔ PmmSearchEnds p G base size := by
  have hzero : (base + size).toNat = 0 := by
    rw [BitVec.toNat_add, htop, Nat.mod_self]
  rcases hsearch with ⟨rfl, hall⟩ | ⟨zpre, r, ds, zpost, i, hzip, hzpre, hstop⟩
  · rw [PmmRemoveTarget.answer, pmmClassified_notManaged_iff,
      h.searchEnds_top_passed hsep hpos htop hall]
  · have hmem : (r, ds) ∈ p.regions.zip G := by
      rw [hzip]
      simp
    obtain ⟨hlist, hr, -, hwithin⟩ := h.list_of_zip hmem
    have hone := h.searchEnds_top_around hsep hpos htop hzip hzpre
    have hbad := h.not_searchEnds_top htop hzip hzpre
    -- the walk ends at the first block
    have hhead : ∀ {dpre : List Addr}, (∀ d ∈ dpre, (p.extent d).upper < (base + size).toNat) →
        dpre = [] := by
      intro dpre hpre
      refine List.eq_nil_iff_forall_not_mem.mpr fun d hd => ?_
      have hlt := hpre d hd
      omega
    cases hstop with
    | used hexact hfree =>
        have hholds : r.Holds base size := PmmRegion.holds_of_exact hexact
        rw [PmmRemoveTarget.answer, pmmClassified_used_iff, hone hholds, if_pos hexact]
        refine iff_of_true ⟨h.managed_iff.mpr ⟨_, hmem, hholds⟩, fun hblock => ?_⟩ fun _ => hfree
        exact hfree (h.full_of_oneBlock hsep hpos hmem hexact hblock)
    | whole hexact hfull =>
        have hholds : r.Holds base size := PmmRegion.holds_of_exact hexact
        rw [PmmRemoveTarget.answer, h.classified_ok_iff, hone hholds, if_pos hexact]
        exact ⟨fun hblock hno => absurd hblock hno, fun hh => by_contra fun hno => hh hno hfull⟩
    | @part dpre dpost block hexact hin hds hpre hup hunder =>
        subst hds
        obtain ⟨hrlow, -, -, -, hpre'⟩ := pmmStops_ends hlist hwithin hin hpre hup
        obtain rfl := hhead hpre'
        rw [PmmRemoveTarget.answer, h.classified_ok_iff]
        refine ⟨fun hblock => (pmmSearchEnds_top_iff htop).mpr fun hno => absurd hblock hno,
          fun hright => ?_⟩
        by_contra hnoblock
        by_cases hholds : r.Holds base size
        · have hcase := (hone hholds).mp hright hnoblock
          rw [if_neg hexact] at hcase
          obtain ⟨d, ds', heq, hlt⟩ := hcase
          cases heq
          exact absurd (BitVec.le_def.mp hunder) (Nat.not_le.mpr hlt)
        · exact hbad hholds hrlow (by simp) hnoblock hright
    | @past dpre dpost block hexact hin hds hpre hup hover =>
        subst hds
        obtain ⟨hrlow, -, -, hbelow, hpre'⟩ := pmmStops_ends hlist hwithin hin hpre hup
        obtain rfl := hhead hpre'
        have hover' : base.toNat < (p.extent block).base :=
          Nat.lt_of_not_le fun hle => hover (BitVec.le_def.mpr hle)
        have hnoblock := h.not_oneBlock_of_past hsep hpos hmem hrlow
          (fun d hd => absurd hd List.not_mem_nil) hover'
        rw [PmmRemoveTarget.answer, pmmClassified_used_iff]
        by_cases hholds : r.Holds base size
        · rw [hone hholds, if_neg hexact]
          exact iff_of_true ⟨h.managed_iff.mpr ⟨_, hmem, hholds⟩, hnoblock⟩
            fun _ => ⟨block, dpost, rfl, hover'⟩
        · refine iff_of_false (fun hh => ?_) (hbad hholds hrlow (by simp) hnoblock)
          -- the region has the first byte of the range, and no other region can
          obtain ⟨rd, hrd, hholds'⟩ := h.managed_iff.mp hh.1
          have hbase : base.toNat ∈ r.extent.bytes := by
            have hup : (p.extent block).upper = (p.extent block).base + (p.extent block).size := rfl
            rw [Extent.mem_bytes, Extent.upper, PmmRegion.extent]
            dsimp only
            omega
          cases h.zip_unique hsep hmem hrd hbase (hholds'.base_mem hpos)
          exact hholds hholds'

end top

/-- **The answer is right exactly when the search ends where it should.** For every state with the
representation invariant, disjoint regions and a descriptor slab that can be used, and every range of
whole pages: `pmm_remove_region` returns, and its answer says whether the range lies in a region, and
there in one free block, if and only if `PmmSearchEnds` holds.
Source: `pmm.c` `pmm_remove_region`
Kind: P
Fidelity: exact
Hyps: the representation invariant; the regions do not meet; the slab can be used; the range is not
empty and of whole pages -/
theorem pmmClassified_iff (h : PmmInvariant p G) (hsep : Separate (p.regions.map PmmRegion.extent))
    (hserves : PmmServes p G) (assertions : Bool) (hbase : 4096 ∣ base.toNat)
    (hsize : 4096 ∣ size.toNat) (hpos : 0 < size.toNat) :
    ∃ p' e, pmmRemoveRegion assertions p base size = some (p', e) ∧
      (PmmClassified p G base size e ↔ PmmSearchEnds p G base size) := by
  obtain ⟨t, hfind, hsearch⟩ := h.searched base size
  obtain ⟨p', hrun⟩ := h.removeRegion_answer hserves assertions hbase hsize hpos hsearch hfind
  refine ⟨p', t.answer, hrun, ?_⟩
  rcases Nat.lt_trichotomy (base.toNat + size.toNat) (2 ^ 64) with hlt | htop | hgt
  · exact h.classified_below hsep hpos hsearch hlt
  · exact h.classified_top hsep hpos hsearch htop
  · exact h.classified_beyond hpos hsearch hgt

end verdicts

/-- The second of two free pages is removed: the answer is right.
Source: none: infrastructure
Kind: C -/
theorem pmmClassified_secondPage :
    ∃ p p' e, pmmAddRegion (pmmInitialize pmmZero 0x80300000).1 0x80400000 8192 =
        some (p, GrouperError.ok.errval) ∧
      pmmRemoveRegion true p 0x80401000 4096 = some (p', e) ∧
      PmmClassified p [[pmmNode (0x80300000 - 1536) 0]] 0x80401000 4096 e := by
  obtain ⟨p, hadd, hone⟩ :=
    exists_pmmOneRegion (show pmmAlignedSize 0x80400000 8192 = 8192 by decide) (by decide)
  have hbase : 4096 ∣ (0x80401000 : BitVec 64).toNat := by decide
  obtain ⟨p', e, hrun, hiff⟩ := pmmClassified_iff hone.invariant
    (hone.recorded (by decide)).separate (hone.rep.serves (by norm_num)) true hbase
    (show 4096 ∣ (4096 : BitVec 64).toNat by decide) (by decide)
  refine ⟨p, p', e, hadd, hrun, hiff.mpr ⟨fun _ => ?_, fun hgt => absurd hgt (by decide),
    fun htop => absurd htop (by decide), fun htop => absurd htop (by decide)⟩⟩
  have hextent : p.extent (pmmNode (0x80300000 - 1536) 0) = ⟨0x80400000, 8192⟩ := by
    rw [Pmm.extent, Pmm.range, hone.block]
    rfl
  rw [hone.regions, List.zip_cons_cons, List.zip_nil_left, List.forall_mem_singleton]
  intro _
  refine ⟨by decide, ?_⟩
  rw [if_neg (by decide)]
  refine ⟨_, List.mem_singleton_self _, ?_⟩
  rw [hextent]
  decide

/-- The second of two pages is removed: it is not free any more, the region is where it was, and the
slab can be used.
Source: none: infrastructure
Kind: L -/
theorem PmmOneRegion.secondPage_removed {p : Pmm} (h : PmmOneRegion p 8192) :
    ∃ p' G, pmmRemoveRegion true p 0x80401000 4096 = some (p', GrouperError.ok.errval) ∧
      PmmInvariant p' G ∧ PmmServes p' G ∧ p'.regions.map PmmRegion.extent = [⟨0x80400000, 8192⟩] ∧
      ∀ x, PmmFreeByte p' G x → x < 0x80401000 := by
  have hrep : DescRep (0x80300000 - 1536) p 1
      ([] ++ ([] ++ pmmNode (0x80300000 - 1536) 0 :: []) :: []) := h.rep
  have hinv : PmmInvariant p ([] ++ ([] ++ pmmNode (0x80300000 - 1536) 0 :: []) :: []) := h.invariant
  have hextent : p.extent (pmmNode (0x80300000 - 1536) 0) = ⟨0x80400000, 8192⟩ := by
    rw [Pmm.extent, Pmm.range, h.block]
    rfl
  obtain ⟨p', hcarve⟩ := h.removeBlock_ok (Or.inr rfl)
  obtain ⟨q, e, j', mid, hcarve', hrep', hj', -, hpieces⟩ :=
    pmmRemoveBlock_desc hrep 0x80401000 4096
  have heq : some (q, e) = some (p', GrouperError.ok.errval) := hcarve'.symm.trans hcarve
  cases heq
  have hlow : (p.extent (pmmNode (0x80300000 - 1536) 0)).base ≤ (0x80401000 : BitVec 64).toNat := by
    rw [hextent]
    decide
  have hupper : (0x80401000 : BitVec 64).toNat + (4096 : BitVec 64).toNat =
      (p.extent (pmmNode (0x80300000 - 1536) 0)).upper := by
    rw [hextent]
    decide
  obtain ⟨G, hinv', hbytes, -⟩ :=
    (hinv.removeBlock_upper hlow hupper (by decide) (by decide) hcarve').lists
  obtain rfl := hinv'.chains.unique hrep'.chains
  -- one piece is left, so that no descriptor has been taken
  have hlen : mid.length = 1 := by
    have hmid := congrArg List.length (hpieces rfl).1
    rw [List.length_map, h.block] at hmid
    exact hmid.trans (by decide)
  refine ⟨p', _, (h.removePage (by decide) (by decide) (Or.inr rfl) (by decide) true).trans hcarve,
    hinv', hrep'.serves (by omega), ?_, fun x hx => ?_⟩
  · rw [pmmRemoveBlock_extents hcarve', h.regions]
    rfl
  · obtain ⟨⟨f, hf, hxf⟩, hout⟩ := (hbytes x).mp hx
    rw [List.mem_singleton.mp hf, hextent, Extent.mem_bytes] at hxf
    have hx' : x < 0x80402000 := hxf.2
    have hout' : ¬ (0x80401000 ≤ x ∧ x < 0x80402000) := hout
    omega

/-- **Not every answer is right**: a page behind the last free block of its region is answered as one
that is not managed.
Source: `pmm.c` `pmm_remove_region`
Kind: C -/
theorem not_pmmClassified_behind :
    ¬ ∀ (assertions : Bool) (p p' : Pmm) (G : List (List Addr)) (base size : BitVec 64) (e : Errval),
      PmmInvariant p G → Separate (p.regions.map PmmRegion.extent) → PmmServes p G →
      4096 ∣ base.toNat → 4096 ∣ size.toNat → 0 < size.toNat →
      pmmRemoveRegion assertions p base size = some (p', e) → PmmClassified p G base size e := by
  intro hall
  obtain ⟨p, -, hone⟩ :=
    exists_pmmOneRegion (show pmmAlignedSize 0x80400000 8192 = 8192 by decide) (by decide)
  obtain ⟨q, G, -, hinv, hserves, hextents, hfree⟩ := hone.secondPage_removed
  have hsep : Separate (q.regions.map PmmRegion.extent) := by
    rw [hextents]
    exact List.pairwise_singleton _ _
  obtain ⟨t, hfind, hsearch⟩ := hinv.searched 0x80401000 4096
  obtain ⟨q', hrun⟩ := hinv.removeRegion_answer hserves true (by decide) (by decide) (by decide)
    hsearch hfind
  have hclass := hall true q q' G 0x80401000 4096 t.answer hinv hsep hserves (by decide) (by decide)
    (by decide) hrun
  have hends := (hinv.classified_below hsep (by decide) hsearch (by decide)).mp hclass
  obtain ⟨r, hr, hextent⟩ : ∃ r ∈ q.regions, r.extent = ⟨0x80400000, 8192⟩ := by
    refine List.mem_map.mp ?_
    rw [hextents]
    exact List.mem_singleton_self _
  obtain ⟨hrbase, hrsize⟩ := Extent.mk.inj hextent
  have hmanaged : PmmManaged q 0x80401000 4096 := by
    refine ⟨r, hr, ?_, ?_⟩
    · rw [hrbase]
      decide
    · rw [hrbase, hrsize]
      decide
  obtain ⟨⟨r', ds⟩, hmem, hholds⟩ := hinv.managed_iff.mp hmanaged
  obtain ⟨hlist, hr', hds, -⟩ := hinv.list_of_zip hmem
  have hextent' : r'.extent = ⟨0x80400000, 8192⟩ := by
    have hin := List.mem_map_of_mem (f := PmmRegion.extent) hr'
    rw [hextents] at hin
    exact List.mem_singleton.mp hin
  have hrsize' : r'.size.toNat = 8192 := (Extent.mk.inj hextent').2
  have hcase := (hends.below (by decide) _ hmem hholds).2
  rw [if_neg fun hexact => by
    have hsize := congrArg BitVec.toNat hexact.2
    rw [hrsize'] at hsize
    exact absurd hsize (by decide)] at hcase
  -- the last byte of a block that ends behind the page would be free
  obtain ⟨d, hd, hle⟩ := hcase
  have hle' : 0x80402000 ≤ (q.extent d).upper := hle
  have hpos := hlist.nonempty _ (List.mem_map_of_mem hd)
  have hup : (q.extent d).upper = (q.extent d).base + (q.extent d).size := rfl
  have hlast := hfree ((q.extent d).upper - 1) ⟨q.extent d,
    List.mem_map_of_mem (List.mem_flatten.mpr ⟨ds, hds, hd⟩), by
      rw [Extent.mem_bytes]
      omega⟩
  omega

end Octiron.Kernel
