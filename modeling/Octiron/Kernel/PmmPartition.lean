import Octiron.Kernel.PmmRuns
import Octiron.Found.Extents

/-!
# What the physical memory manager hands out

Runs of `pmm_add_region` and `pmm_alloc_aligned`, and where the bytes of the regions are: in a block of
a free list, or in a range that has been handed out.

* `PmmAllocation`, `PmmHandedOut slabBuf p out` — runs, with the list of what has been handed out.
* `PmmRecorded p` — the recorded regions do not meet, and end below `2 ^ 56`.
* `RegionFree` — the free list of one region: in order, of whole pages, inside the region, and counted.
* `PmmPartitioned p out` — the free lists and what is out are a partition of the regions.
* **Main result** (`pmmPartitioned_runs`): every state of a run is partitioned, and every range is
  zero when it is handed out.
-/

namespace Octiron.Kernel

open Octiron.Found
open Octiron.Found.Mem
open Octiron.Kzadhbat

/-! ## Runs -/

/-- One successful call of `pmm_alloc_aligned`: the request and the address.
Source: `pmm.c` `pmm_alloc_aligned`
Kind: D -/
structure PmmAllocation where
  size : BitVec 64
  alignment : BitVec 64
  ret : Addr

/-- The bytes handed out: from `ret` on, the size rounded up to pages.
Source: `pmm.c` `pmm_alloc_aligned`
Kind: D -/
def PmmAllocation.extent (a : PmmAllocation) : Extent :=
  ⟨a.ret.toNat, (alignUp a.size basePageSize).toNat⟩

/-- **Runs** of `pmm_add_region` and `pmm_alloc_aligned` from `pmm_initialize`; `out` is what the
successful allocations have handed out, the last one first.
Source: none: the runs of `pmm.c`
Kind: D -/
inductive PmmHandedOut (slabBuf : Addr) : Pmm → List PmmAllocation → Prop
  | init (p : Pmm) : PmmHandedOut slabBuf (pmmInitialize p slabBuf).1 []
  | addRegion {p p' : Pmm} {out : List PmmAllocation} {e : Errval} (base size : BitVec 64) :
      PmmHandedOut slabBuf p out → pmmAddRegion p base size = some (p', e) →
      PmmHandedOut slabBuf p' out
  | allocAligned {p p' : Pmm} {out : List PmmAllocation} {e : Errval} {a : Addr}
      (size alignment : BitVec 64) (ret : Addr) :
      PmmHandedOut slabBuf p out → pmmAllocAligned p size alignment ret = some (p', e, a) →
      PmmHandedOut slabBuf p'
        (if e = GrouperError.ok.errval then ⟨size, alignment, a⟩ :: out else out)

/-! ## Where the bytes are -/

/-- Source: none: infrastructure. Kind: D -/
def rangeExtent (r : BitVec 64 × BitVec 64) : Extent := ⟨r.1.toNat, r.2.toNat⟩

/-- The bytes of a region.
Source: `pmm.c` `struct pmmRegion`
Kind: D -/
def PmmRegion.extent (r : PmmRegion) : Extent := ⟨r.base.toNat, r.size.toNat⟩

/-- The bytes of a free block.
Source: `pmm.c` `struct pmmBlock`
Kind: D -/
def Pmm.extent (p : Pmm) (d : Addr) : Extent := rangeExtent (p.range d)

/-- **The recorded regions** do not meet and end at or below `2 ^ 56`.
Source: none: infrastructure
Kind: D -/
structure PmmRecorded (p : Pmm) : Prop where
  separate : Separate (p.regions.map PmmRegion.extent)
  below : ∀ e ∈ p.regions.map PmmRegion.extent, e.upper ≤ 2 ^ 56

/-- **The free list of a region**: in ascending order and not meeting, of whole pages, none of them
empty, inside the region; and the region's counter is their size.
Source: `pmm.c` `struct pmmRegion`
Kind: D -/
structure RegionFree (base size free : BitVec 64) (es : List Extent) : Prop where
  ordered : Ordered es
  nonempty : ∀ e ∈ es, 0 < e.size
  pages : ∀ e ∈ es, 4096 ∣ e.base ∧ 4096 ∣ e.size
  inside : ∀ e ∈ es, base.toNat ≤ e.base ∧ e.upper ≤ base.toNat + size.toNat
  free : free.toNat = (es.map Extent.size).sum

/-- **Everything is in its place**: the free lists of the regions are as they should be, on different
descriptors, the counters are right, the free blocks and what is out are a partition of the regions,
and what is out is aligned as requested.
Source: none: what the manager is for
Kind: D -/
structure PmmPartitioned (p : Pmm) (out : List PmmAllocation) : Prop where
  free : p.free.toNat = (p.regions.map fun r => r.free.toNat).sum
  aligned : ∀ a ∈ out, a.alignment.toNat ∣ a.ret.toNat
  lists : ∃ G, Chains 0 p.next (p.regions.map PmmRegion.freeBlocks) G ∧ G.flatten.Nodup ∧
    List.Forall₂ (fun r ds => RegionFree r.base r.size r.free (ds.map p.extent)) p.regions G ∧
    Partitions (G.flatten.map p.extent ++ out.map PmmAllocation.extent)
      (p.regions.map PmmRegion.extent)

/-! ## Carving a block -/

/-- An alignment that `pmm_alloc_aligned` takes is a power of two, and a page at least.
Source: `pmm.c` `pmm_alloc_aligned`
Kind: L -/
theorem exists_two_pow_of_alignment {alignment : BitVec 64}
    (h : ¬ (alignment < basePageSize ∨ alignment &&& (alignment - 1) ≠ 0)) :
    ∃ k, 12 ≤ k ∧ k < 64 ∧ alignment.toNat = 2 ^ k := by
  rw [not_or, not_not] at h
  obtain ⟨hpage, hand⟩ := h
  rw [BitVec.lt_def, basePageSize_toNat] at hpage
  have hne : alignment.toNat ≠ 0 := by
    intro h0
    rw [h0] at hpage
    norm_num at hpage
  have hone : (1 : BitVec 64) ≤ alignment := by
    rw [BitVec.le_def]
    exact Nat.pos_of_ne_zero hne
  have hnat : alignment.toNat &&& (alignment.toNat - 1) = 0 := by
    have hval := congrArg BitVec.toNat hand
    rw [BitVec.toNat_and, BitVec.toNat_sub_of_le hone] at hval
    exact hval
  obtain ⟨k, hk⟩ := (Nat.and_sub_one_eq_zero_iff_isPowerOfTwo hne).mp hnat
  refine ⟨k, ?_, ?_, hk⟩
  · rw [hk] at hpage
    exact (Nat.pow_le_pow_iff_right (by norm_num)).mp (Nat.not_lt.mp hpage)
  · have hlt := alignment.isLt
    rw [hk] at hlt
    exact (Nat.pow_lt_pow_iff_right (by norm_num)).mp hlt

section carve

variable {c : PmmBlock} {size alignment : BitVec 64} {k : ℕ}

/-- The next aligned address of a block in the lower half.
Source: none: infrastructure
Kind: L -/
theorem alignUp_block (hk : alignment.toNat = 2 ^ k) (hk64 : k < 64) (hbase : c.base.toNat < 2 ^ 63) :
    c.base.toNat ≤ (alignUp c.base alignment).toNat ∧
      (alignUp c.base alignment).toNat < c.base.toNat + 2 ^ 63 ∧
      2 ^ k ∣ (alignUp c.base alignment).toNat := by
  have hpow : 2 ^ k ≤ 2 ^ 63 := Nat.pow_le_pow_right (by norm_num) (by omega)
  have hpos : 0 < 2 ^ k := Nat.two_pow_pos k
  rw [alignUp_toNat hk (by omega)]
  have hdiv := Nat.div_add_mod (c.base.toNat + (2 ^ k - 1)) (2 ^ k)
  have hmod := Nat.mod_lt (c.base.toNat + (2 ^ k - 1)) hpos
  rw [Nat.mul_comm] at hdiv
  refine ⟨by omega, by omega, Nat.dvd_mul_left _ _⟩

/-- **The block found is large enough**, as integers.
Source: `pmm.c` `pmm_alloc_aligned` (`SIZE_OK`)
Kind: L -/
theorem sizeOk_toNat (hk : alignment.toNat = 2 ^ k) (hk64 : k < 64)
    (hupper : c.base.toNat + c.size.toNat ≤ 2 ^ 56) (hsize : size.toNat ≤ 2 ^ 56)
    (h : alignUp c.base alignment + size ≤ c.base + c.size) :
    (alignUp c.base alignment).toNat + size.toNat ≤ c.base.toNat + c.size.toNat := by
  obtain ⟨-, hlt, -⟩ := alignUp_block hk hk64 (c := c) (by omega)
  rw [BitVec.le_def, BitVec.toNat_add, BitVec.toNat_add, Nat.mod_eq_of_lt (by omega),
    Nat.mod_eq_of_lt (by omega)] at h
  exact h

/-- The pieces of the source are those of the carving.
Source: `pmm.c` `pmm_alloc_aligned`
Kind: L -/
theorem pmmPieces_eq_carve (hbase : c.base.toNat ≤ (alignUp c.base alignment).toNat)
    (hupper : c.base.toNat + c.size.toNat ≤ 2 ^ 56)
    (hfits : (alignUp c.base alignment).toNat + size.toNat ≤ c.base.toNat + c.size.toNat) :
    (pmmPieces c size alignment).map rangeExtent =
      carve ⟨c.base.toNat, c.size.toNat⟩ (alignUp c.base alignment).toNat size.toNat := by
  unfold pmmPieces carve
  dsimp only
  set a := alignUp c.base alignment with ha
  have hend : (c.base + c.size).toNat = c.base.toNat + c.size.toNat := by
    rw [BitVec.toNat_add, Nat.mod_eq_of_lt (by omega)]
  have htaken : (a + size).toNat = a.toNat + size.toNat := by
    rw [BitVec.toNat_add, Nat.mod_eq_of_lt (by omega)]
  have hne : c.base ≠ a ↔ c.base.toNat ≠ a.toNat := by
    rw [ne_eq, ne_eq, BitVec.toNat_inj]
  have hlt : a + size < c.base + c.size ↔
      a.toNat + size.toNat < Extent.upper ⟨c.base.toNat, c.size.toNat⟩ := by
    rw [BitVec.lt_def, htaken, hend]
    rfl
  rw [List.map_append]
  congr 1
  · by_cases hpre : c.base ≠ a
    · rw [if_pos hpre, if_pos (hne.mp hpre)]
      simp only [List.map_cons, List.map_nil, rangeExtent, List.cons.injEq, Extent.mk.injEq,
        true_and, and_true]
      exact BitVec.toNat_sub_of_le (BitVec.le_def.mpr hbase)
    · rw [if_neg hpre, if_neg fun hh => hpre (hne.mpr hh), List.map_nil]
  · by_cases hpost : a + size < c.base + c.size
    · rw [if_pos hpost, if_pos (hlt.mp hpost)]
      simp only [List.map_cons, List.map_nil, rangeExtent, List.cons.injEq, Extent.mk.injEq,
        and_true]
      refine ⟨htaken, ?_⟩
      rw [BitVec.toNat_sub_of_le (BitVec.le_of_lt hpost), hend, htaken]
      rfl
    · rw [if_neg hpost, if_neg fun hh => hpost (hlt.mpr hh), List.map_nil]

/-- **Carving a block of a region's list**.
Source: none: infrastructure
Kind: L -/
theorem RegionFree.carve {base size free taken : BitVec 64} {pre post : List Extent} {e : Extent}
    {a : ℕ} (h : RegionFree base size free (pre ++ e :: post)) (ha : e.base ≤ a)
    (hs : a + taken.toNat ≤ e.upper) (hapage : 4096 ∣ a) (hspage : 4096 ∣ taken.toNat) :
    RegionFree base size (free - taken) (pre ++ Found.carve e a taken.toNat ++ post) := by
  have hemem : e ∈ pre ++ e :: post := by simp
  -- a piece is new, or one of the others
  have hmem : ∀ f ∈ pre ++ Found.carve e a taken.toNat ++ post,
      f ∈ Found.carve e a taken.toNat ∨ f ∈ pre ++ e :: post := by
    intro f hf
    simp only [List.mem_append, List.mem_cons] at hf ⊢
    tauto
  have hsum := sum_size_carve ha hs
  have hfree := h.free
  rw [List.map_append, List.sum_append, List.map_cons, List.sum_cons] at hfree
  refine ⟨h.ordered.carve ha hs, fun f hf => ?_, fun f hf => ?_, fun f hf => ?_, ?_⟩
  · rcases hmem f hf with hf | hf
    · exact (carve_inside ha hs hf).2.2
    · exact h.nonempty f hf
  · rcases hmem f hf with hf | hf
    · exact dvd_of_mem_carve (h.pages e hemem).1 (h.pages e hemem).2 hapage hspage hf
    · exact h.pages f hf
  · rcases hmem f hf with hf | hf
    · obtain ⟨hlow, hhigh, -⟩ := carve_inside ha hs hf
      obtain ⟨helow, hehigh⟩ := h.inside e hemem
      exact ⟨helow.trans hlow, hhigh.trans hehigh⟩
    · exact h.inside f hf
  · have hle : taken ≤ free := by
      rw [BitVec.le_def]
      omega
    rw [BitVec.toNat_sub_of_le hle, List.map_append, List.map_append, List.sum_append,
      List.sum_append]
    omega

end carve

/-! ## The invariant of a run -/

/-- The range and the counter of a region, without its list.
Source: none: infrastructure
Kind: D -/
def PmmRegion.counts (r : PmmRegion) : BitVec 64 × BitVec 64 × BitVec 64 := (r.base, r.size, r.free)

/-- The free lists are `G`, on `j` of the slab's blocks, and `out` is out.
Source: none: infrastructure
Kind: D -/
structure AllocInv (b : Addr) (p : Pmm) (j : ℕ) (G : List (List Addr)) (out : List PmmAllocation) :
    Prop where
  rep : DescRep b p j G
  lists : List.Forall₂ (fun c ds => RegionFree c.1 c.2.1 c.2.2 (ds.map p.extent))
    (p.regions.map PmmRegion.counts) G
  free : p.free.toNat = ((p.regions.map PmmRegion.counts).map fun c => c.2.2.toNat).sum
  covers : ∀ x, cover (G.flatten.map p.extent) x + cover (out.map PmmAllocation.extent) x =
    cover (p.regions.map PmmRegion.extent) x
  aligned : ∀ a ∈ out, a.alignment.toNat ∣ a.ret.toNat

section inv

variable {b : Addr} {p p' : Pmm} {j : ℕ} {G : List (List Addr)} {out : List PmmAllocation}

/-- Source: none: infrastructure. Kind: L -/
theorem AllocInv.partitioned (h : AllocInv b p j G out) (hrec : PmmRecorded p) :
    PmmPartitioned p out := by
  refine ⟨?_, h.aligned, G, h.rep.chains, h.rep.nodup, ?_, ?_⟩
  · rw [h.free, List.map_map]
    rfl
  · exact List.forall₂_map_left_iff.mp h.lists
  · refine partitions_of_cover hrec.separate fun x => ?_
    rw [cover_append]
    exact h.covers x

/-- The counters of the regions are the sizes of all free blocks.
Source: none: infrastructure
Kind: L -/
theorem sum_free_eq {cs : List (BitVec 64 × BitVec 64 × BitVec 64)}
    (h : List.Forall₂ (fun c ds => RegionFree c.1 c.2.1 c.2.2 (ds.map p.extent)) cs G) :
    (cs.map fun c => c.2.2.toNat).sum = ((G.flatten.map p.extent).map Extent.size).sum := by
  induction h with
  | nil => rfl
  | cons hr _ ih =>
      rw [List.map_cons, List.sum_cons, ih, hr.free, List.flatten_cons, List.map_append,
        List.map_append, List.sum_append]

/-- A free block lies in a region.
Source: none: infrastructure
Kind: L -/
theorem exists_region_of_mem {cs : List (BitVec 64 × BitVec 64 × BitVec 64)}
    (h : List.Forall₂ (fun c ds => RegionFree c.1 c.2.1 c.2.2 (ds.map p.extent)) cs G) {e : Extent}
    (he : e ∈ G.flatten.map p.extent) : ∃ c ∈ cs, e.upper ≤ c.1.toNat + c.2.1.toNat := by
  induction h with
  | nil => exact absurd he List.not_mem_nil
  | cons hr _ ih =>
      rw [List.flatten_cons, List.map_append, List.mem_append] at he
      rcases he with he | he
      · exact ⟨_, List.mem_cons_self, (hr.inside e he).2⟩
      · obtain ⟨c, hc, hle⟩ := ih he
        exact ⟨c, List.mem_cons_of_mem _ hc, hle⟩

/-- Source: none: infrastructure. Kind: L -/
theorem AllocInv.upper_le (h : AllocInv b p j G out) (hrec : PmmRecorded p) {e : Extent}
    (he : e ∈ G.flatten.map p.extent) : e.upper ≤ 2 ^ 56 := by
  obtain ⟨c, hc, hle⟩ := exists_region_of_mem h.lists he
  obtain ⟨r, hr, rfl⟩ := List.mem_map.mp hc
  exact hle.trans (hrec.below _ (List.mem_map_of_mem hr))

/-- **No more is free than there is below `2 ^ 56`**, since the free blocks do not meet.
Source: none: infrastructure
Kind: L -/
theorem AllocInv.free_le (h : AllocInv b p j G out) (hrec : PmmRecorded p) :
    p.free.toNat ≤ 2 ^ 56 := by
  rw [h.free, sum_free_eq h.lists]
  refine (separate_of_cover_le_one fun x => ?_).sum_size_le fun e he => h.upper_le hrec he
  have hcover := h.covers x
  have hone := hrec.separate.cover_le_one x
  omega

/-- Source: none: infrastructure. Kind: L -/
theorem allocInv_init (p : Pmm) {slabBuf : Addr} (hlo : 1536 < slabBuf.toNat)
    (hhi : slabBuf.toNat + 1568 ≤ 2 ^ 64) :
    AllocInv (slabBuf - 1536) (pmmInitialize p slabBuf).1 0 [] [] := by
  obtain ⟨p₀, hinit, hrep, hregions, -, hfree, -⟩ := pmmInitialize_desc p hlo hhi
  rw [hinit]
  refine ⟨hrep, ?_, ?_, fun x => ?_, fun a ha => absurd ha List.not_mem_nil⟩
  · rw [hregions]
    exact .nil
  · rw [hfree, hregions]
    rfl
  · rw [hregions]
    rfl

/-- Source: none: infrastructure. Kind: L -/
theorem map_extent_congr {ds : List Addr} (h : ∀ d ∈ ds, p'.range d = p.range d) :
    ds.map p'.extent = ds.map p.extent := by
  refine List.map_congr_left fun d hd => ?_
  rw [Pmm.extent, Pmm.extent, h d hd]

/-- Lists of blocks whose ranges have not changed.
Source: none: infrastructure
Kind: L -/
theorem forall₂_congr_range {cs : List (BitVec 64 × BitVec 64 × BitVec 64)}
    (h : List.Forall₂ (fun c ds => RegionFree c.1 c.2.1 c.2.2 (ds.map p.extent)) cs G)
    (hrange : ∀ d ∈ G.flatten, p'.range d = p.range d) :
    List.Forall₂ (fun c ds => RegionFree c.1 c.2.1 c.2.2 (ds.map p'.extent)) cs G := by
  induction h with
  | nil => exact .nil
  | cons hr _ ih =>
      rw [List.flatten_cons] at hrange
      refine .cons ?_ (ih fun d hd => hrange d (List.mem_append_right _ hd))
      rwa [map_extent_congr fun d hd => hrange d (List.mem_append_left _ hd)]

/-! ## Adding a region -/

/-- A new region is one free block.
Source: none: infrastructure
Kind: L -/
theorem regionFree_new {base size : BitVec 64} (hbase : 4096 ∣ base.toNat)
    (hsize : 4096 ∣ size.toNat) (hpos : 0 < size.toNat) :
    RegionFree base size size [rangeExtent (base, size)] := by
  refine ⟨List.pairwise_singleton _ _, ?_, ?_, ?_, ?_⟩
  · exact List.forall_mem_singleton.mpr hpos
  · exact List.forall_mem_singleton.mpr ⟨hbase, hsize⟩
  · exact List.forall_mem_singleton.mpr ⟨le_refl _, le_refl _⟩
  · simp [rangeExtent]

/-- What `pmm_add_region` records is of whole pages, and not empty.
Source: `pmm.c` `pmm_add_region`
Kind: L -/
theorem PmmAddOk.pages {base size : BitVec 64} (hok : PmmAddOk p base size) :
    4096 ∣ (pmmAlignedBase base).toNat ∧ 4096 ∣ (pmmAlignedSize base size).toNat ∧
      0 < (pmmAlignedSize base size).toNat := by
  refine ⟨?_, ?_, ?_⟩
  · have hval : (pmmAlignedBase base).toNat = _ := alignDown_page_toNat (base + 4095)
    rw [hval]
    exact Nat.dvd_mul_left _ _
  · rw [pmmAlignedSize, alignDown_page_toNat]
    exact Nat.dvd_mul_left _ _
  · have hpage := hok.page
    rw [BitVec.le_def, basePageSize_toNat] at hpage
    omega

section added

variable {node : Addr} {base size : BitVec 64}

/-- Source: none: infrastructure. Kind: L -/
theorem PmmAdded.counts (h : PmmAdded p p' node base size) :
    p'.regions.map PmmRegion.counts = p.regions.map PmmRegion.counts ++ [(base, size, size)] := by
  rw [h.regions, List.map_append]
  rfl

/-- Source: none: infrastructure. Kind: L -/
theorem PmmAdded.extents (h : PmmAdded p p' node base size) :
    p'.regions.map PmmRegion.extent =
      p.regions.map PmmRegion.extent ++ [rangeExtent (base, size)] := by
  rw [h.regions, List.map_append]
  rfl

/-- The free blocks after: those before, and the new region.
Source: none: infrastructure
Kind: L -/
theorem PmmAdded.free_extents (h : PmmAdded p p' node base size) (hfresh : node ∉ G.flatten) :
    (G ++ [[node]]).flatten.map p'.extent =
      G.flatten.map p.extent ++ [rangeExtent (base, size)] := by
  have hrange : ∀ d ∈ G.flatten, p'.range d = p.range d := by
    intro d hd
    refine h.others d ?_
    rintro rfl
    exact hfresh hd
  rw [List.flatten_append, List.flatten_singleton, List.map_append, List.map_singleton,
    map_extent_congr hrange, Pmm.extent, h.range]

/-- The lists of the regions, with that of the new one.
Source: none: infrastructure
Kind: L -/
theorem PmmAdded.lists (h : PmmAdded p p' node base size) (hfresh : node ∉ G.flatten)
    (hlists : List.Forall₂ (fun c ds => RegionFree c.1 c.2.1 c.2.2 (ds.map p.extent))
      (p.regions.map PmmRegion.counts) G)
    (hpages : 4096 ∣ base.toNat ∧ 4096 ∣ size.toNat ∧ 0 < size.toNat) :
    List.Forall₂ (fun c ds => RegionFree c.1 c.2.1 c.2.2 (ds.map p'.extent))
      (p'.regions.map PmmRegion.counts) (G ++ [[node]]) := by
  rw [h.counts]
  refine List.rel_append (forall₂_congr_range hlists fun d hd => ?_) (.cons ?_ .nil)
  · refine h.others d ?_
    rintro rfl
    exact hfresh hd
  · rw [List.map_singleton, Pmm.extent, h.range]
    exact regionFree_new hpages.1 hpages.2.1 hpages.2.2

/-- Source: none: infrastructure. Kind: L -/
theorem PmmAdded.recorded (h : PmmAdded p p' node base size) (hrec : PmmRecorded p') :
    PmmRecorded p := by
  have hsub := List.sublist_append_left (p.regions.map PmmRegion.extent)
    [rangeExtent (base, size)]
  rw [← h.extents] at hsub
  exact ⟨hrec.separate.sublist hsub, fun e he => hrec.below e (hsub.subset he)⟩

/-- A region below `2 ^ 56` does not make the counters wrap.
Source: none: infrastructure
Kind: L -/
theorem PmmAdded.upper_le (h : PmmAdded p p' node base size) (hrec : PmmRecorded p') :
    base.toNat + size.toNat ≤ 2 ^ 56 := by
  refine hrec.below (rangeExtent (base, size)) ?_
  rw [h.extents]
  exact List.mem_append_right _ (List.mem_singleton_self _)

end added

/-- **`pmm_add_region` keeps the invariant**.
Source: `pmm.c` `pmm_add_region`
Kind: L -/
theorem AllocInv.addRegion (h : AllocInv b p j G out) {base size : BitVec 64} {e : Errval}
    (hrun : pmmAddRegion p base size = some (p', e)) (hrec : PmmRecorded p') :
    ∃ j' G', AllocInv b p' j' G' out := by
  rcases pmmAddRegion_spec h.rep base size with ⟨e', hadd, -⟩ | ⟨q, hadd, hok, -, hrep, hadded⟩
  · rw [hrun] at hadd
    cases hadd
    exact ⟨j, G, h⟩
  · rw [hrun] at hadd
    cases hadd
    have hfresh := h.rep.fresh
    refine ⟨j + 1, G ++ [[pmmNode b j]], hrep, hadded.lists hfresh h.lists hok.pages, ?_,
      fun x => ?_, h.aligned⟩
    · have hupper := hadded.upper_le hrec
      have hle := h.free_le (hadded.recorded hrec)
      rw [hadded.free, BitVec.toNat_add, Nat.mod_eq_of_lt (by omega), hadded.counts, List.map_append,
        List.sum_append, ← h.free]
      rfl
    · rw [hadded.free_extents hfresh, cover_append, hadded.extents, cover_append, ← h.covers x]
      omega

/-! ## Allocating -/

/-- What a successful call of `pmm_alloc_aligned` does: it carves the range out of a block that is
large enough, charges the region and the manager, and zeroes the range.
Source: `pmm.c` `pmm_alloc_aligned`
Kind: D -/
structure PmmTaken (b : Addr) (p p' : Pmm) (size alignment a : BitVec 64)
    (gpre gpost : List (List Addr)) (dpre dpost : List Addr) (block : Addr) : Prop where
  alignment_ok : ¬ (alignment < basePageSize ∨ alignment &&& (alignment - 1) ≠ 0)
  le_free : size ≤ p.free
  fits : alignUp (p.blocks block).base alignment + size ≤ (p.blocks block).base + (p.blocks block).size
  ret_eq : a = alignUp (p.blocks block).base alignment
  list : ∃ j' mid, DescRep b p' j' (gpre ++ (dpre ++ mid ++ dpost) :: gpost) ∧
    mid.map p'.range = pmmPieces (p.blocks block) size alignment
  others : ∀ d ∈ gpre.flatten ++ (dpre ++ dpost ++ gpost.flatten), p'.range d = p.range d
  counts : ∀ cpre c cpost, p.regions.map PmmRegion.counts = cpre ++ c :: cpost →
    cpre.length = gpre.length →
    p'.regions.map PmmRegion.counts = cpre ++ (c.1, c.2.1, c.2.2 - size) :: cpost
  free : p'.free = p.free - size
  mem : p'.mem = memset p.mem a 0 size

/-- Charging region `i`, by its counters.
Source: none: infrastructure
Kind: L -/
theorem pmmCharge_counts {size : BitVec 64} {cpre cpost : List (BitVec 64 × BitVec 64 × BitVec 64)}
    {c : BitVec 64 × BitVec 64 × BitVec 64}
    (h : p.regions.map PmmRegion.counts = cpre ++ c :: cpost) :
    (pmmCharge p cpre.length size).regions.map PmmRegion.counts =
      cpre ++ (c.1, c.2.1, c.2.2 - size) :: cpost := by
  obtain ⟨rpre, rrest, hregions, rfl, hrest⟩ := List.map_eq_append_iff.mp h
  obtain ⟨r, rpost, rfl, rfl, rfl⟩ := List.map_eq_cons_iff.mp hrest
  show (p.regions.modify _ fun r => { r with free := r.free - size }).map PmmRegion.counts = _
  rw [hregions, List.length_map,
    map_modify_append PmmRegion.counts fun r => { r with free := r.free - size }]
  rfl

/-- **A call of `pmm_alloc_aligned` that returns** fails and changes nothing, or takes a block apart,
charges its region and the manager, and zeroes what it has taken.
Source: `pmm.c` `pmm_alloc_aligned`
Kind: L -/
theorem pmmAllocAligned_charges (h : DescRep b p j G) {size alignment a : BitVec 64} {ret : Addr}
    {e : Errval} (hrun : pmmAllocAligned p size alignment ret = some (p', e, a)) :
    (e ≠ GrouperError.ok.errval ∧ p' = p) ∨
      e = GrouperError.ok.errval ∧ ∃ gpre gpost dpre dpost block q j' mid,
        G = gpre ++ (dpre ++ block :: dpost) :: gpost ∧
        ¬ (alignment < basePageSize ∨ alignment &&& (alignment - 1) ≠ 0) ∧
        alignUp size basePageSize ≤ p.free ∧
        alignUp (p.blocks block).base alignment + alignUp size basePageSize ≤
          (p.blocks block).base + (p.blocks block).size ∧
        a = alignUp (p.blocks block).base alignment ∧
        DescRep b q j' (gpre ++ (dpre ++ mid ++ dpost) :: gpost) ∧
        mid.map q.range = pmmPieces (p.blocks block) (alignUp size basePageSize) alignment ∧
        (∀ d ∈ gpre.flatten ++ (dpre ++ dpost ++ gpost.flatten), q.range d = p.range d) ∧
        PmmFrame p q ∧
        p' = { pmmCharge q gpre.length (alignUp size basePageSize) with
          mem := memset q.mem a 0 (alignUp size basePageSize) } := by
  rcases pmmAllocAligned_inv hrun with hfail | ⟨hok, i, prev, block, q, halign, hfree, hcount, hfind,
    htake, hret, hp'⟩
  · exact Or.inl hfail
  · rcases pmmFindBlock_spec (alignUp size basePageSize) alignment h.chains 0 with
      hnone | ⟨i', prev', block', hfind', ⟨gpre, dpre, dpost, gpost, rfl, rfl, rfl⟩, hsize⟩
    · rw [hnone] at hfind
      cases hfind
    · rw [hfind', Nat.zero_add] at hfind
      cases hfind
      have hj : j < 64 := by
        rw [BitVec.lt_def, h.slabFreecount_toNat] at hcount
        change ¬ 64 - j < 16 at hcount
        omega
      obtain ⟨q', j', mid, htake', hrep, hpieces, hothers, -, hframe⟩ :=
        pmmTakeBlock_spec h hj (alignUp size basePageSize) alignment
      rw [htake'] at htake
      cases htake
      exact Or.inr ⟨hok, gpre, gpost, dpre, dpost, block, q, j', mid, rfl, halign, hfree,
        of_decide_eq_true hsize, hret, hrep, hpieces, hothers, hframe, hp'⟩

/-- What such a call has taken.
Source: `pmm.c` `pmm_alloc_aligned`
Kind: L -/
theorem pmmAllocAligned_cases (h : DescRep b p j G) {size alignment a : BitVec 64} {ret : Addr}
    {e : Errval} (hrun : pmmAllocAligned p size alignment ret = some (p', e, a)) :
    (e ≠ GrouperError.ok.errval ∧ p' = p) ∨
      e = GrouperError.ok.errval ∧ ∃ gpre gpost dpre dpost block,
        G = gpre ++ (dpre ++ block :: dpost) :: gpost ∧
        PmmTaken b p p' (alignUp size basePageSize) alignment a gpre gpost dpre dpost block := by
  rcases pmmAllocAligned_charges h hrun with hfail | ⟨hok, gpre, gpost, dpre, dpost, block, q, j',
    mid, hG, halign, hfree, hfits, hret, hrep, hpieces, hothers, hframe, rfl⟩
  · exact Or.inl hfail
  · refine Or.inr ⟨hok, gpre, gpost, dpre, dpost, block, hG, halign, hfree, hfits, hret,
      ⟨j', mid, (hrep.pmmCharge _ _).congr rfl rfl fun _ _ => rfl, hpieces⟩, hothers, ?_, ?_, ?_⟩
    · intro cpre c cpost hcs hlen
      rw [← hlen]
      exact pmmCharge_counts (hframe.regions.trans hcs)
    · show q.free - _ = _
      rw [hframe.free]
    · show memset q.mem _ _ _ = _
      rw [hframe.mem]

/-- The ranges of the regions stay as they are.
Source: `pmm.c` `pmm_alloc_aligned`
Kind: L -/
theorem PmmTaken.extent_eq {gpre gpost : List (List Addr)} {dpre dpost : List Addr}
    {block : Addr} {size alignment a : BitVec 64}
    (ht : PmmTaken b p p' size alignment a gpre gpost dpre dpost block)
    (h : DescRep b p j (gpre ++ (dpre ++ block :: dpost) :: gpost)) :
    p'.regions.map PmmRegion.extent = p.regions.map PmmRegion.extent := by
  have hfactor : ∀ q : Pmm, q.regions.map PmmRegion.extent =
      (q.regions.map PmmRegion.counts).map fun c => rangeExtent (c.1, c.2.1) := by
    intro q
    rw [List.map_map]
    rfl
  obtain ⟨rpre, r, rpost, hregions, hlen, -, -, -⟩ :=
    forall₂_split (List.forall₂_map_left_iff.mp h.chains)
  have hcs : p.regions.map PmmRegion.counts =
      rpre.map PmmRegion.counts ++ r.counts :: rpost.map PmmRegion.counts := by
    rw [hregions, List.map_append, List.map_cons]
  have hcs' := ht.counts _ _ _ hcs (by rw [List.length_map, hlen])
  rw [hfactor, hfactor, hcs, hcs', List.map_append, List.map_append, List.map_cons, List.map_cons]

/-- **A block's place is taken by what is left of it**: the lists of the regions, with the counter of
its region lowered.
Source: none: infrastructure
Kind: L -/
theorem forall₂_carve {cs : List (BitVec 64 × BitVec 64 × BitVec 64)} {gpre gpost : List (List Addr)}
    {dpre dpost mid : List Addr} {block : Addr} {a : ℕ} {size : BitVec 64}
    (h : List.Forall₂ (fun c ds => RegionFree c.1 c.2.1 c.2.2 (ds.map p.extent)) cs
      (gpre ++ (dpre ++ block :: dpost) :: gpost))
    (hothers : ∀ d ∈ gpre.flatten ++ (dpre ++ dpost ++ gpost.flatten), p'.range d = p.range d)
    (hmid : mid.map p'.extent = carve (p.extent block) a size.toNat)
    (hlow : (p.extent block).base ≤ a) (hfits : a + size.toNat ≤ (p.extent block).upper)
    (hapage : 4096 ∣ a) (hspage : 4096 ∣ size.toNat) :
    ∃ cpre c cpost, cs = cpre ++ c :: cpost ∧ cpre.length = gpre.length ∧
      size.toNat ≤ c.2.2.toNat ∧
      List.Forall₂ (fun c ds => RegionFree c.1 c.2.1 c.2.2 (ds.map p'.extent))
        (cpre ++ (c.1, c.2.1, c.2.2 - size) :: cpost)
        (gpre ++ (dpre ++ mid ++ dpost) :: gpost) := by
  obtain ⟨cpre, c, cpost, hcs, hlen, hcpre, hc, hcpost⟩ := forall₂_split h
  have hdpre := map_extent_congr fun d hd => hothers d
    (List.mem_append_right _ (List.mem_append_left _ (List.mem_append_left dpost hd)))
  have hdpost := map_extent_congr fun d hd => hothers d
    (List.mem_append_right _ (List.mem_append_left _ (List.mem_append_right dpre hd)))
  rw [List.map_append, List.map_cons] at hc
  refine ⟨cpre, c, cpost, hcs, hlen, ?_, ?_⟩
  · have hsum := hc.free
    rw [List.map_append, List.sum_append, List.map_cons, List.sum_cons] at hsum
    unfold Extent.upper at hfits
    omega
  · refine List.rel_append (forall₂_congr_range hcpre fun d hd => ?_)
      (.cons ?_ (forall₂_congr_range hcpost fun d hd => ?_))
    · exact hothers d (List.mem_append_left _ hd)
    · rw [List.map_append, List.map_append, hdpre, hmid, hdpost]
      exact hc.carve hlow hfits hapage hspage
    · exact hothers d (List.mem_append_right _ (List.mem_append_right _ hd))

/-- The free bytes before are those after and those taken.
Source: none: infrastructure
Kind: L -/
theorem cover_replace {gpre gpost : List (List Addr)} {dpre dpost mid : List Addr} {block : Addr}
    {a s : ℕ}
    (hothers : ∀ d ∈ gpre.flatten ++ (dpre ++ dpost ++ gpost.flatten), p'.range d = p.range d)
    (hmid : mid.map p'.extent = carve (p.extent block) a s)
    (hlow : (p.extent block).base ≤ a) (hfits : a + s ≤ (p.extent block).upper) (x : ℕ) :
    cover ((gpre ++ (dpre ++ mid ++ dpost) :: gpost).flatten.map p'.extent) x + cover [⟨a, s⟩] x =
      cover ((gpre ++ (dpre ++ block :: dpost) :: gpost).flatten.map p.extent) x := by
  have hcarve := cover_carve hlow hfits x
  have hgpre := map_extent_congr fun d hd => hothers d (List.mem_append_left _ hd)
  have hgpost := map_extent_congr fun d hd => hothers d
    (List.mem_append_right _ (List.mem_append_right _ hd))
  have hdpre := map_extent_congr fun d hd => hothers d
    (List.mem_append_right _ (List.mem_append_left _ (List.mem_append_left dpost hd)))
  have hdpost := map_extent_congr fun d hd => hothers d
    (List.mem_append_right _ (List.mem_append_left _ (List.mem_append_right dpre hd)))
  simp only [List.flatten_append, List.flatten_cons, List.map_append, List.map_cons, cover_append,
    hgpre, hgpost, hdpre, hdpost, hmid]
  rw [cover_cons (p.extent block)]
  omega

/-- The descriptors in the block's place hold what is left of it.
Source: none: infrastructure
Kind: L -/
theorem map_extent_of_pieces {c : PmmBlock} {mid : List Addr} {size alignment a : BitVec 64}
    (hpieces : mid.map p'.range = pmmPieces c size alignment) (ha : a = alignUp c.base alignment)
    (hlow : c.base.toNat ≤ a.toNat) (hupper : c.base.toNat + c.size.toNat ≤ 2 ^ 56)
    (hfits : a.toNat + size.toNat ≤ c.base.toNat + c.size.toNat) :
    mid.map p'.extent = carve (rangeExtent (c.base, c.size)) a.toNat size.toNat := by
  subst ha
  have hmap : mid.map p'.extent = (mid.map p'.range).map rangeExtent := by
    rw [List.map_map]
    rfl
  rw [hmap, hpieces]
  exact pmmPieces_eq_carve hlow hupper hfits

/-- The sum of the counters, when one of them is lowered.
Source: none: infrastructure
Kind: L -/
theorem sum_free_sub {cpre cpost : List (BitVec 64 × BitVec 64 × BitVec 64)}
    {c : BitVec 64 × BitVec 64 × BitVec 64} {size : BitVec 64} (h : size.toNat ≤ c.2.2.toNat) :
    ((cpre ++ (c.1, c.2.1, c.2.2 - size) :: cpost).map fun c => c.2.2.toNat).sum + size.toNat =
      ((cpre ++ c :: cpost).map fun c => c.2.2.toNat).sum := by
  simp only [List.map_append, List.map_cons, List.sum_append, List.sum_cons]
  rw [BitVec.toNat_sub_of_le (BitVec.le_def.mpr h)]
  omega

/-- **`pmm_alloc_aligned` keeps the invariant**: what it takes from a block is out.
Source: `pmm.c` `pmm_alloc_aligned`
Kind: L -/
theorem AllocInv.taken {gpre gpost : List (List Addr)} {dpre dpost : List Addr} {block : Addr}
    (h : AllocInv b p j (gpre ++ (dpre ++ block :: dpost) :: gpost) out) (hrec : PmmRecorded p)
    {size alignment a : BitVec 64}
    (ht : PmmTaken b p p' (alignUp size basePageSize) alignment a gpre gpost dpre dpost block) :
    ∃ j' G', AllocInv b p' j' G' (⟨size, alignment, a⟩ :: out) := by
  obtain ⟨k, hk12, hk64, hk⟩ := exists_two_pow_of_alignment ht.alignment_ok
  obtain ⟨j', mid, hrep, hpieces⟩ := ht.list
  set taken := alignUp size basePageSize with htaken
  set c := p.blocks block with hc
  set e : Extent := p.extent block with he
  have hemem : e ∈ (gpre ++ (dpre ++ block :: dpost) :: gpost).flatten.map p.extent := by
    refine List.mem_map_of_mem ?_
    rw [List.flatten_append, List.flatten_cons]
    simp
  have hupper : c.base.toNat + c.size.toNat ≤ 2 ^ 56 := h.upper_le hrec hemem
  have hle : taken.toNat ≤ p.free.toNat := ht.le_free
  have hsize : taken.toNat ≤ 2 ^ 56 := hle.trans (h.free_le hrec)
  obtain ⟨hlow, -, hdvd⟩ := alignUp_block hk hk64 (c := c) (by omega)
  have hfits := sizeOk_toNat hk hk64 hupper hsize ht.fits
  rw [← ht.ret_eq] at hlow hdvd hfits
  have hapage : 4096 ∣ a.toNat := (pow_dvd_pow 2 hk12).trans hdvd
  have hspage : 4096 ∣ taken.toNat := by
    have hval : taken.toNat = _ := alignDown_page_toNat (size + 4095)
    rw [hval]
    exact Nat.dvd_mul_left _ _
  have hmid : mid.map p'.extent = carve e a.toNat taken.toNat :=
    map_extent_of_pieces hpieces ht.ret_eq hlow hupper hfits
  obtain ⟨cpre, cr, cpost, hcs, hlen, hcrfree, hlists⟩ :=
    forall₂_carve h.lists ht.others hmid hlow hfits hapage hspage
  have hcs' := ht.counts cpre cr cpost hcs hlen
  refine ⟨j', _, hrep, ?_, ?_, fun x => ?_, ?_⟩
  · rw [hcs']
    exact hlists
  · have hfree := h.free
    rw [hcs, ← sum_free_sub hcrfree, ← hcs'] at hfree
    rw [ht.free, BitVec.toNat_sub_of_le ht.le_free, hfree, Nat.add_sub_cancel]
  · have hcover := h.covers x
    have hreplace := cover_replace ht.others hmid hlow hfits x
    have hout : cover ((PmmAllocation.mk size alignment a :: out).map PmmAllocation.extent) x =
        cover [⟨a.toNat, taken.toNat⟩] x + cover (out.map PmmAllocation.extent) x := by
      rw [List.map_cons, cover_cons]
      rfl
    rw [hout, ht.extent_eq h.rep, ← hcover, ← hreplace]
    omega
  · intro al hal
    rcases List.mem_cons.mp hal with rfl | hal
    · show alignment.toNat ∣ a.toNat
      rw [hk]
      exact hdvd
    · exact h.aligned al hal

/-! ## Whole runs -/

/-- Every state of a run has its descriptors, and where the regions do not meet it has the invariant.
Source: none: infrastructure
Kind: L -/
theorem allocInv_of_handedOut {slabBuf : Addr} (hlo : 1536 < slabBuf.toNat)
    (hhi : slabBuf.toNat + 1568 ≤ 2 ^ 64) (h : PmmHandedOut slabBuf p out) :
    (∃ j G, DescRep (slabBuf - 1536) p j G) ∧
      (PmmRecorded p → ∃ j G, AllocInv (slabBuf - 1536) p j G out) := by
  induction h with
  | init p =>
      have hinv := allocInv_init p hlo hhi
      exact ⟨⟨0, [], hinv.rep⟩, fun _ => ⟨0, [], hinv⟩⟩
  | @addRegion p p' out e base size _ hrun ih =>
      obtain ⟨⟨j, G, hrep⟩, hinv⟩ := ih
      -- the regions before are among those after
      have hback : (∃ j G, DescRep (slabBuf - 1536) p' j G) ∧ (PmmRecorded p' → PmmRecorded p) := by
        rcases pmmAddRegion_spec hrep base size with ⟨e', hadd, -⟩ | ⟨q, hadd, -, -, hrep', hadded⟩
        · rw [hrun] at hadd
          cases hadd
          exact ⟨⟨j, G, hrep⟩, id⟩
        · rw [hrun] at hadd
          cases hadd
          exact ⟨⟨_, _, hrep'⟩, hadded.recorded⟩
      refine ⟨hback.1, fun hrec => ?_⟩
      obtain ⟨j, G, hinv⟩ := hinv (hback.2 hrec)
      exact hinv.addRegion hrun hrec
  | @allocAligned p p' out e a size alignment ret _ hrun ih =>
      obtain ⟨⟨j, G, hrep⟩, hinv⟩ := ih
      rcases pmmAllocAligned_cases hrep hrun with ⟨hfail, rfl⟩ | ⟨hok, gpre, gpost, dpre, dpost,
        block, rfl, ht⟩
      · rw [if_neg hfail]
        exact ⟨⟨j, G, hrep⟩, hinv⟩
      · rw [if_pos hok]
        obtain ⟨j', mid, hrep', -⟩ := ht.list
        refine ⟨⟨j', _, hrep'⟩, fun hrec => ?_⟩
        have hextent := ht.extent_eq hrep
        have hrec' : PmmRecorded p := by
          refine ⟨?_, ?_⟩
          · rw [← hextent]
            exact hrec.separate
          · rw [← hextent]
            exact hrec.below
        obtain ⟨j, G', hinv⟩ := hinv hrec'
        -- the lists are determined by their heads
        obtain rfl := hrep.chains.unique hinv.rep.chains
        exact hinv.taken hrec' ht

/-- What a successful call hands out is zero.
Source: `pmm.c` `pmm_alloc_aligned` (`ZERO_OUT_PMM_PAGE`)
Kind: L -/
theorem pmmAllocAligned_zero (h : DescRep b p j G) {size alignment a : BitVec 64} {ret : Addr}
    (hrun : pmmAllocAligned p size alignment ret = some (p', GrouperError.ok.errval, a)) (x : Addr)
    (hx : (x - a).toNat < (alignUp size basePageSize).toNat) : p'.mem x = 0 := by
  rcases pmmAllocAligned_cases h hrun with ⟨hfail, -⟩ | ⟨-, gpre, gpost, dpre, dpost, block, -, ht⟩
  · exact absurd rfl hfail
  · rw [ht.mem, memset_eq_fill, Mem.fill, if_pos hx]

end inv

/-- **No byte is handed out twice.** In every state of a run of `pmm_add_region` and
`pmm_alloc_aligned` whose recorded regions do not meet and end at or below `2 ^ 56`, the free lists
are as they should be and with what is out they are a partition of the regions, what is out does not
meet, and whatever is handed out next is zero.
Source: `pmm.c` `pmm_add_region`, `pmm_alloc_aligned`
Kind: P
Fidelity: exact
Hyps: the static array `pmm_initial_region_slab` lies in the address space, and not in its first
1536 bytes -/
theorem pmmPartitioned_runs {slabBuf : Addr} {p : Pmm} {out : List PmmAllocation}
    (hlo : 1536 < slabBuf.toNat) (hhi : slabBuf.toNat + 1568 ≤ 2 ^ 64)
    (h : PmmHandedOut slabBuf p out) (hrec : PmmRecorded p) :
    PmmPartitioned p out ∧ Separate (out.map PmmAllocation.extent) ∧
      ∀ (size alignment ret : BitVec 64) (p' : Pmm) (a : Addr),
        pmmAllocAligned p size alignment ret = some (p', GrouperError.ok.errval, a) →
        ∀ x, (x - a).toNat < (alignUp size basePageSize).toNat → p'.mem x = 0 := by
  obtain ⟨-, hinv⟩ := allocInv_of_handedOut hlo hhi h
  obtain ⟨j, G, hinv⟩ := hinv hrec
  have hpart := hinv.partitioned hrec
  refine ⟨hpart, ?_, ?_⟩
  · obtain ⟨G', -, -, -, hparts⟩ := hpart.lists
    exact hparts.separate.sublist (List.sublist_append_right _ _)
  · intro size alignment ret p' a hrun x hx
    exact pmmAllocAligned_zero hinv.rep hrun x hx

/-- One page is added and handed out: it is all of its region, it is zero, and nothing is free.
Source: none: infrastructure
Kind: C -/
theorem pmmPartitioned_runs_onePage :
    ∃ p p', PmmHandedOut 0x80300000 p' [⟨4096, 4096, 0x80400000⟩] ∧
      PmmPartitioned p' [⟨4096, 4096, 0x80400000⟩] ∧
      pmmAllocAligned p 4096 4096 0x80200000 =
        some (p', GrouperError.ok.errval, 0x80400000) ∧ p'.mem 0x80400fff = 0 := by
  have hlo : 1536 < (0x80300000 : BitVec 64).toNat := by decide
  obtain ⟨p, p', node, hadd, hregions, halloc, -⟩ := pmm_onePage
  have hrun : PmmHandedOut 0x80300000 p [] := .addRegion 0x80400000 4096 (.init pmmZero) hadd
  have hrun' : PmmHandedOut 0x80300000 p' [⟨4096, 4096, 0x80400000⟩] :=
    .allocAligned 4096 4096 0x80200000 hrun halloc
  have hextents : p.regions.map PmmRegion.extent = [⟨0x80400000, 4096⟩] := by
    rw [hregions]
    rfl
  have hrec : ∀ q : Pmm, q.regions.map PmmRegion.extent = [⟨0x80400000, 4096⟩] →
      PmmRecorded q := by
    intro q hq
    refine ⟨?_, ?_⟩
    · rw [hq]
      exact List.pairwise_singleton _ _
    · rw [hq]
      exact List.forall_mem_singleton.mpr (by decide)
  obtain ⟨⟨j, G, hrep⟩, -⟩ := allocInv_of_handedOut hlo (by decide) hrun
  have hextents' : p'.regions.map PmmRegion.extent = [⟨0x80400000, 4096⟩] := by
    rcases pmmAllocAligned_cases hrep halloc with ⟨hfail, -⟩ | ⟨-, gpre, gpost, dpre, dpost, block,
      rfl, ht⟩
    · exact absurd rfl hfail
    · rw [ht.extent_eq hrep, hextents]
  have hparts := pmmPartitioned_runs hlo (by decide) hrun' (hrec p' hextents')
  have hzero := (pmmPartitioned_runs hlo (by decide) hrun (hrec p hextents)).2.2
  exact ⟨p, p', hrun', hparts.1, halloc, hzero _ _ _ _ _ halloc _ (by decide)⟩

end Octiron.Kernel
