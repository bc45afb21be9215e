import Octiron.Kernel.PmmRuns

/-!
# The regions of the physical memory manager

When `pmm_add_region` tells a range that is already managed from one that is not. Its test compares
the end of the new range with the ends of the regions, and with nothing else.

* `RangesMeet`, `RangeOk` — ranges of addresses on the ring of words, and those that have a byte and
  an end.
* `PmmBoundsTell` — the requests at which the comparison of the ends gives the right answer.
* `pmmAddAll` — a list of requests, one after the other.
* **Main result** (`pmmAddRegion_overlap_exact`): the answer to a request is right exactly when the
  ends tell, the regions of a run are disjoint as long as they tell for what is added, and a list of
  disjoint ranges is taken as a whole exactly when it is in ascending order.
-/

namespace Octiron.Kernel

open Octiron.Found
open Octiron.Found.Mem
open Octiron.Kzadhbat

/-! ## Ranges -/

/-- An address of the range `(base, size)`.
Source: none: infrastructure
Kind: D -/
def InRange (r : BitVec 64 × BitVec 64) (x : Addr) : Prop := x - r.1 < r.2

/-- **Two ranges with a common address**.
Source: none: what "already managed" means
Kind: D -/
def RangesMeet (r q : BitVec 64 × BitVec 64) : Prop := ∃ x, InRange r x ∧ InRange q x

/-- The end of a range, as the source computes it.
Source: `pmm.c` `pmm_add_region`
Kind: D -/
def rangeEnd (r : BitVec 64 × BitVec 64) : BitVec 64 := r.1 + r.2

/-- A range that is not empty and does not wrap.
Source: none: infrastructure
Kind: D -/
structure RangeOk (r : BitVec 64 × BitVec 64) : Prop where
  ne_zero : r.2 ≠ 0
  noWrap : r.1.toNat + r.2.toNat < 2 ^ 64

section ranges

variable {r q : BitVec 64 × BitVec 64}

/-- Source: none: infrastructure. Kind: L -/
theorem RangesMeet.symm (h : RangesMeet r q) : RangesMeet q r := by
  obtain ⟨x, hr, hq⟩ := h
  exact ⟨x, hq, hr⟩

/-- Source: none: infrastructure. Kind: L -/
theorem RangeOk.pos (h : RangeOk r) : 0 < r.2.toNat := by
  rw [Nat.pos_iff_ne_zero]
  intro h0
  exact h.ne_zero (BitVec.eq_of_toNat_eq h0)

/-- Source: none: infrastructure. Kind: L -/
theorem RangeOk.rangeEnd_toNat (h : RangeOk r) : (rangeEnd r).toNat = r.1.toNat + r.2.toNat := by
  rw [rangeEnd, BitVec.toNat_add, Nat.mod_eq_of_lt h.noWrap]

/-- Source: none: infrastructure. Kind: L -/
theorem RangeOk.inRange_iff (h : RangeOk r) (x : Addr) :
    InRange r x ↔ r.1.toNat ≤ x.toNat ∧ x.toNat < r.1.toNat + r.2.toNat := by
  have hbound := h.noWrap
  have hx := x.isLt
  rw [InRange, BitVec.lt_def, BitVec.toNat_sub]
  constructor
  · intro hlt
    omega
  · rintro ⟨hle, hlt⟩
    have hval : 2 ^ 64 - r.1.toNat + x.toNat = (x.toNat - r.1.toNat) + 2 ^ 64 := by omega
    rw [hval, Nat.add_mod_right, Nat.mod_eq_of_lt (by omega)]
    omega

/-- **Ordinary ranges are apart** when one ends where the other starts, or before.
Source: none: infrastructure
Kind: L -/
theorem RangeOk.not_meet_iff (hr : RangeOk r) (hq : RangeOk q) :
    ¬ RangesMeet r q ↔ rangeEnd r ≤ q.1 ∨ rangeEnd q ≤ r.1 := by
  rw [BitVec.le_def, BitVec.le_def, hr.rangeEnd_toNat, hq.rangeEnd_toNat]
  have hrpos := hr.pos
  have hqpos := hq.pos
  constructor
  · intro hno
    -- the later of the two bases is a common address otherwise
    by_contra hcon
    push Not at hcon
    apply hno
    rcases Nat.le_total r.1.toNat q.1.toNat with hle | hle
    · refine ⟨q.1, (hr.inRange_iff _).mpr ⟨hle, hcon.1⟩, (hq.inRange_iff _).mpr ⟨le_refl _, ?_⟩⟩
      omega
    · refine ⟨r.1, (hr.inRange_iff _).mpr ⟨le_refl _, ?_⟩, (hq.inRange_iff _).mpr ⟨hle, hcon.2⟩⟩
      omega
  · rintro hside ⟨x, hx, hx'⟩
    rw [hr.inRange_iff] at hx
    rw [hq.inRange_iff] at hx'
    omega

/-- A range clear of another, and ending above it, starts above it.
Source: none: infrastructure
Kind: L -/
theorem RangeOk.above_iff (hr : RangeOk r) (hq : RangeOk q) :
    (¬ RangesMeet r q ∧ rangeEnd r < rangeEnd q) ↔ rangeEnd r ≤ q.1 := by
  rw [hr.not_meet_iff hq, BitVec.lt_def, BitVec.le_def, BitVec.le_def, hr.rangeEnd_toNat,
    hq.rangeEnd_toNat]
  have hrpos := hr.pos
  have hqpos := hq.pos
  omega

end ranges

/-! ## The answer to one request -/

/-- Source: none: infrastructure. Kind: D -/
def PmmRegion.range (r : PmmRegion) : BitVec 64 × BitVec 64 := (r.base, r.size)

/-- The range that a request comes down to.
Source: `pmm.c` `pmm_add_region`
Kind: D -/
def pmmAlignedRange (base size : BitVec 64) : BitVec 64 × BitVec 64 :=
  (pmmAlignedBase base, pmmAlignedSize base size)

/-- No two managed regions have a byte in common.
Source: none: what the managed-region check is for
Kind: D -/
def PmmDisjoint (p : Pmm) : Prop :=
  p.regions.Pairwise fun r r' => ¬ RangesMeet r.range r'.range

/-- **The ends tell**: the range of the request meets a region and does not end above them all, or it
is clear of the regions and ends above each. (`NULL` is never taken, nor said to be managed.)
Source: none: infrastructure
Kind: D -/
def PmmBoundsTell (p : Pmm) (base size : BitVec 64) : Prop :=
  (base ≠ 0 ∧ (∃ r ∈ p.regions, RangesMeet r.range (pmmAlignedRange base size)) ∧
    ∃ r ∈ p.regions, rangeEnd (pmmAlignedRange base size) ≤ rangeEnd r.range) ∨
  ∀ r ∈ p.regions, ¬ RangesMeet r.range (pmmAlignedRange base size) ∧
    (base = 0 ∨ rangeEnd r.range < rangeEnd (pmmAlignedRange base size))

section answer

variable {p p' : Pmm} {base size : BitVec 64}

/-- Source: none: infrastructure. Kind: L -/
theorem any_pmmUpBound_iff :
    p.regions.any (pmmUpBound (pmmAlignedBase base) (pmmAlignedSize base size)) = true ↔
      ∃ r ∈ p.regions, rangeEnd (pmmAlignedRange base size) ≤ rangeEnd r.range := by
  rw [List.any_eq_true]
  simp only [pmmUpBound, decide_eq_true_eq]
  rfl

/-- Source: none: infrastructure. Kind: L -/
theorem errval_ne {q : Pmm} {e e' : Errval} (h : e ≠ e') :
    (some (q, e)).map Prod.snd ≠ some e' := by
  simpa using h

/-- A range of pages that has an end fits into the request.
Source: `pmm.c` `pmm_add_region` (`ALIGNED_REGION_FITS`)
Kind: L -/
theorem pmmAligned_fits (h : RangeOk (pmmAlignedRange base size)) :
    pmmAlignedBase base + pmmAlignedSize base size ≤ base + size := by
  have hnoWrap := h.noWrap
  simp only [pmmAlignedRange] at hnoWrap
  set rest := size - (pmmAlignedBase base - base) with hrest
  have hsum : base + size = pmmAlignedBase base + rest := by
    rw [hrest]
    bv_omega
  have hsize : (pmmAlignedSize base size).toNat = rest.toNat / 4096 * 4096 :=
    alignDown_page_toNat rest
  have hbase : (pmmAlignedBase base).toNat = (base + 4095).toNat / 4096 * 4096 :=
    alignDown_page_toNat (base + 4095)
  -- the end is a multiple of the page size, so the part of a page that is left does not wrap
  rw [hsum, BitVec.le_def, BitVec.toNat_add, BitVec.toNat_add, Nat.mod_eq_of_lt hnoWrap]
  rw [hsize] at hnoWrap ⊢
  rw [Nat.mod_eq_of_lt (by omega)]
  omega

/-- Source: none: infrastructure. Kind: L -/
theorem pmmAligned_page (h : RangeOk (pmmAlignedRange base size)) :
    basePageSize ≤ pmmAlignedSize base size := by
  have hpos := h.pos
  simp only [pmmAlignedRange] at hpos
  have hsize : (pmmAlignedSize base size).toNat = _ :=
    alignDown_page_toNat (size - (pmmAlignedBase base - base))
  rw [BitVec.le_def, basePageSize_toNat]
  omega

/-- What a request with an ordinary range has to pass.
Source: none: infrastructure
Kind: L -/
theorem RangeOk.pmmAddOk_iff (h : RangeOk (pmmAlignedRange base size)) (hbase : base ≠ 0)
    (hroom : p.regions.length < pmmRegionCount) :
    PmmAddOk p base size ↔
      ∀ r ∈ p.regions, rangeEnd r.range < rangeEnd (pmmAlignedRange base size) := by
  have hupBound : p.regions.any (pmmUpBound (pmmAlignedBase base) (pmmAlignedSize base size)) =
      false ↔ ∀ r ∈ p.regions, rangeEnd r.range < rangeEnd (pmmAlignedRange base size) := by
    rw [← Bool.not_eq_true, any_pmmUpBound_iff]
    push Not
    simp only [BitVec.not_le]
  constructor
  · intro hok
    exact hupBound.mp hok.upBound
  · intro habove
    exact ⟨hbase, pmmAligned_fits h, pmmAligned_page h, hroom, hupBound.mpr habove⟩

/-- **The answer "already managed"** is given exactly to a range that ends at or below the end of a
region.
Source: `pmm.c` `pmm_add_region`
Kind: L -/
theorem pmmAddRegion_managed_iff (h : RangeOk (pmmAlignedRange base size))
    (hroom : p.regions.length < pmmRegionCount) :
    (pmmAddRegion p base size).map Prod.snd = some GrouperError.pmmAddManagedRegion.errval ↔
      base ≠ 0 ∧ ∃ r ∈ p.regions, rangeEnd (pmmAlignedRange base size) ≤ rangeEnd r.range := by
  rw [← any_pmmUpBound_iff]
  unfold pmmAddRegion
  by_cases hbase : base = 0
  · rw [if_pos hbase]
    exact iff_of_false (errval_ne (by decide)) fun hh => hh.1 hbase
  · rw [if_neg hbase]
    dsimp only
    have hsmall : ¬ (¬ pmmAlignedBase base + pmmAlignedSize base size ≤ base + size ∨
        ¬ basePageSize ≤ pmmAlignedSize base size) := by
      push Not
      exact ⟨pmmAligned_fits h, pmmAligned_page h⟩
    rw [if_neg hsmall, if_neg (not_le.mpr hroom)]
    by_cases hany : p.regions.any
        (pmmUpBound (pmmAlignedBase base) (pmmAlignedSize base size)) = true
    · rw [if_pos hany]
      exact iff_of_true rfl ⟨hbase, hany⟩
    · rw [if_neg hany]
      refine iff_of_false ?_ fun hh => hany hh.2
      -- the two answers that are left are different errors
      cases slabAlloc p.blockAllocator with
      | none => simp
      | some sb =>
          obtain ⟨s, freeBlock⟩ := sb
          dsimp only
          by_cases hnull : freeBlock = 0
          · rw [if_pos hnull]
            exact errval_ne (by decide)
          · rw [if_neg hnull]
            exact errval_ne (by decide)

/-- **The answer is right exactly when the ends tell.**
Source: `pmm.c` `pmm_add_region`
Kind: L -/
theorem managed_right_iff (h : RangeOk (pmmAlignedRange base size))
    (hroom : p.regions.length < pmmRegionCount) :
    ((pmmAddRegion p base size).map Prod.snd = some GrouperError.pmmAddManagedRegion.errval ↔
        ∃ r ∈ p.regions, RangesMeet r.range (pmmAlignedRange base size)) ↔
      PmmBoundsTell p base size := by
  rw [pmmAddRegion_managed_iff h hroom, PmmBoundsTell]
  constructor
  · intro hiff
    by_cases hmeet : ∃ r ∈ p.regions, RangesMeet r.range (pmmAlignedRange base size)
    · obtain ⟨hbase, hend⟩ := hiff.mpr hmeet
      exact Or.inl ⟨hbase, hmeet, hend⟩
    · refine Or.inr fun r hr => ⟨fun hm => hmeet ⟨r, hr, hm⟩, ?_⟩
      by_contra hcon
      rw [not_or, BitVec.not_lt] at hcon
      exact hmeet (hiff.mp ⟨hcon.1, r, hr, hcon.2⟩)
  · rintro (⟨hbase, hmeet, hend⟩ | hclear)
    · exact iff_of_true ⟨hbase, hend⟩ hmeet
    · refine iff_of_false ?_ fun ⟨r, hr, hm⟩ => (hclear r hr).1 hm
      rintro ⟨hbase, r, hr, hle⟩
      have hlt := (hclear r hr).2.resolve_left hbase
      exact BitVec.not_le.mpr hlt hle

/-- Among ordinary regions the ends tell for the ranges that start at or above the end of each, and
for those that meet one and do not end above them all.
Source: none: infrastructure
Kind: L -/
theorem pmmBoundsTell_iff_of_rangeOk (h : RangeOk (pmmAlignedRange base size)) (hbase : base ≠ 0)
    (hregions : ∀ r ∈ p.regions, RangeOk r.range) :
    PmmBoundsTell p base size ↔
      (∀ r ∈ p.regions, rangeEnd r.range ≤ pmmAlignedBase base) ∨
      (∃ r ∈ p.regions, RangesMeet r.range (pmmAlignedRange base size)) ∧
        ∃ r ∈ p.regions, rangeEnd (pmmAlignedRange base size) ≤ rangeEnd r.range := by
  have habove : (∀ r ∈ p.regions, ¬ RangesMeet r.range (pmmAlignedRange base size) ∧
      (base = 0 ∨ rangeEnd r.range < rangeEnd (pmmAlignedRange base size))) ↔
      ∀ r ∈ p.regions, rangeEnd r.range ≤ pmmAlignedBase base := by
    refine forall₂_congr fun r hr => ?_
    rw [or_iff_right hbase]
    exact (hregions r hr).above_iff h
  rw [PmmBoundsTell, habove, or_comm]
  simp only [ne_eq, hbase, not_false_eq_true, true_and]

end answer

/-! ## Runs of `pmm_add_region` -/

/-- A call of `pmm_add_region` for which the ends tell, if it gets as far as adding the region.
Source: none: infrastructure
Kind: D -/
def PmmAddTold (p : Pmm) (op : PmmOp) : Prop :=
  ∃ base size, op = .addRegion base size ∧ (PmmAddOk p base size → PmmBoundsTell p base size)

/-- The manager after regions have been added, and nothing else: each has one descriptor.
Source: none: infrastructure
Kind: D -/
structure AddRep (b : Addr) (p : Pmm) (G : List (List Addr)) : Prop where
  rep : DescRep b p p.regions.length G
  le : p.regions.length ≤ pmmRegionCount

section runs

variable {b : Addr} {p p' : Pmm} {G : List (List Addr)} {base size : BitVec 64}

/-- Source: none: infrastructure. Kind: L -/
theorem addRep_init (p : Pmm) {slabBuf : Addr} (hlo : 1536 < slabBuf.toNat)
    (hhi : slabBuf.toNat + 1568 ≤ 2 ^ 64) :
    ∃ p₀, (pmmInitialize p slabBuf).1 = p₀ ∧ AddRep (slabBuf - 1536) p₀ [] ∧ p₀.regions = [] ∧
      p₀.total = 0 ∧ p₀.free = 0 := by
  obtain ⟨p₀, hinit, hrep, hregions, htotal, hfree, -⟩ := pmmInitialize_desc p hlo hhi
  refine ⟨p₀, by rw [hinit], ⟨?_, ?_⟩, hregions, htotal, hfree⟩
  · rw [hregions]
    exact hrep
  · rw [hregions]
    exact Nat.zero_le _

/-- **One call of `pmm_add_region`** after others: it returns, and it adds the region exactly when the
request passes the checks.
Source: `pmm.c` `pmm_add_region`
Kind: L -/
theorem AddRep.step (h : AddRep b p G) (base size : BitVec 64) :
    ∃ p', (pmmAddRegion p base size).map Prod.fst = some p' ∧
      ((¬ PmmAddOk p base size ∧ p' = p) ∨
        PmmAddOk p base size ∧ (∃ G', AddRep b p' G') ∧
          p'.regions.map PmmRegion.range =
            p.regions.map PmmRegion.range ++ [pmmAlignedRange base size] ∧
          p'.total = p.total + pmmAlignedSize base size ∧
          p'.free = p.free + pmmAlignedSize base size) := by
  have hj : p.regions.length < 64 := lt_of_le_of_lt h.le (by norm_num [pmmRegionCount])
  rcases pmmAddRegion_spec h.rep base size with ⟨e, hadd, hno⟩ | ⟨p', hadd, hok, -, hrep, hadded⟩
  · refine ⟨p, by rw [hadd]; rfl, Or.inl ⟨fun hok => hno ⟨hok, hj⟩, rfl⟩⟩
  · have hlen : p'.regions.length = p.regions.length + 1 := by
      rw [hadded.regions, List.length_append, List.length_singleton]
    refine ⟨p', by rw [hadd]; rfl, Or.inr ⟨hok, ⟨G ++ [[pmmNode b p.regions.length]], ?_, ?_⟩, ?_,
      hadded.total, hadded.free⟩⟩
    · rw [hlen]
      exact hrep
    · rw [hlen]
      exact hok.room
    · rw [hadded.regions, List.map_append]
      rfl

/-- Source: none: infrastructure. Kind: L -/
theorem pmmDisjoint_iff_ranges :
    PmmDisjoint p ↔ (p.regions.map PmmRegion.range).Pairwise fun r q => ¬ RangesMeet r q := by
  rw [List.pairwise_map]
  rfl

/-- After a request that passes the checks the regions are disjoint exactly when the ends told.
Source: none: infrastructure
Kind: L -/
theorem pmmDisjoint_added_iff (hok : PmmAddOk p base size) (hdis : PmmDisjoint p)
    (hregions : p'.regions.map PmmRegion.range =
      p.regions.map PmmRegion.range ++ [pmmAlignedRange base size]) :
    PmmDisjoint p' ↔ PmmBoundsTell p base size := by
  have hnoEnd : ¬ ∃ r ∈ p.regions, rangeEnd (pmmAlignedRange base size) ≤ rangeEnd r.range := by
    rw [← any_pmmUpBound_iff, hok.upBound]
    exact Bool.false_ne_true
  rw [pmmDisjoint_iff_ranges, hregions, List.pairwise_append]
  constructor
  · rintro ⟨-, -, hclear⟩
    refine Or.inr fun r hr => ⟨?_, Or.inr ?_⟩
    · exact hclear _ (List.mem_map_of_mem hr) _ (List.mem_singleton_self _)
    · rw [← BitVec.not_le]
      exact fun hle => hnoEnd ⟨r, hr, hle⟩
  · rintro (⟨-, -, hend⟩ | hclear)
    · exact absurd hend hnoEnd
    · refine ⟨pmmDisjoint_iff_ranges.mp hdis, List.pairwise_singleton _ _, ?_⟩
      intro r hr q hq
      rw [List.mem_singleton] at hq
      obtain ⟨r', hr', rfl⟩ := List.mem_map.mp hr
      rw [hq]
      exact (hclear r' hr').1

/-- One call from a disjoint state.
Source: none: infrastructure
Kind: L -/
theorem AddRep.disjoint_step (h : AddRep b p G) (hdis : PmmDisjoint p)
    (hrun : (pmmAddRegion p base size).map Prod.fst = some p') :
    (∃ G', AddRep b p' G') ∧
      (PmmDisjoint p' ↔ (PmmAddOk p base size → PmmBoundsTell p base size)) := by
  obtain ⟨p'', hrun', hcase⟩ := h.step base size
  obtain rfl : p'' = p' := Option.some_inj.mp (hrun'.symm.trans hrun)
  rcases hcase with ⟨hno, rfl⟩ | ⟨hok, hrep, hregions, -, -⟩
  · exact ⟨⟨G, h⟩, iff_of_true hdis fun hok => absurd hok hno⟩
  · refine ⟨hrep, ?_⟩
    rw [pmmDisjoint_added_iff hok hdis hregions]
    exact ⟨fun htell _ => htell, fun himp => himp hok⟩

/-- Regions added while the ends tell are disjoint.
Source: none: infrastructure
Kind: L -/
theorem addRep_of_reach {assertions : Bool} {slabBuf : Addr} (hlo : 1536 < slabBuf.toNat)
    (hhi : slabBuf.toNat + 1568 ≤ 2 ^ 64) (h : PmmReach PmmAddTold assertions slabBuf p) :
    (∃ G, AddRep (slabBuf - 1536) p G) ∧ PmmDisjoint p := by
  induction h with
  | init p =>
      obtain ⟨p₀, hinit, hrep, hregions, -⟩ := addRep_init p hlo hhi
      rw [hinit, PmmDisjoint, hregions]
      exact ⟨⟨_, hrep⟩, List.Pairwise.nil⟩
  | step op _ hC hrun ih =>
      obtain ⟨⟨G, hrep⟩, hdis⟩ := ih
      obtain ⟨base, size, rfl, htell⟩ := hC
      obtain ⟨hrep', hiff⟩ := hrep.disjoint_step hdis hrun
      exact ⟨hrep', hiff.mpr htell⟩

end runs

/-! ## Lists of requests -/

/-- The requests of a list, one after the other.
Source: none: runs of `pmm_add_region`
Kind: D -/
def pmmAddAll : List (BitVec 64 × BitVec 64) → Pmm → Option Pmm
  | [], p => some p
  | q :: reqs, p => ((pmmAddRegion p q.1 q.2).map Prod.fst).bind (pmmAddAll reqs)

/-- The ranges of a list of requests.
Source: none: infrastructure
Kind: D -/
def alignedRanges (reqs : List (BitVec 64 × BitVec 64)) : List (BitVec 64 × BitVec 64) :=
  reqs.map fun q => pmmAlignedRange q.1 q.2

/-- Requests that can be taken together: not `NULL`, with ordinary ranges that do not meet.
Source: none: infrastructure
Kind: D -/
structure AddableTogether (reqs : List (BitVec 64 × BitVec 64)) : Prop where
  base_ne : ∀ q ∈ reqs, q.1 ≠ 0
  rangeOk : ∀ r ∈ alignedRanges reqs, RangeOk r
  disjoint : (alignedRanges reqs).Pairwise fun r q => ¬ RangesMeet r q

/-- **The whole list is taken**: the regions are its ranges, in some order, and the counters their
sizes.
Source: none: what a list of requests is for
Kind: D -/
def PmmAddsAll (p : Pmm) (reqs : List (BitVec 64 × BitVec 64)) : Prop :=
  ∃ p', pmmAddAll reqs p = some p' ∧
    (p'.regions.map PmmRegion.range).Perm (alignedRanges reqs) ∧
    p'.total = ((alignedRanges reqs).map Prod.snd).sum ∧
    p'.free = ((alignedRanges reqs).map Prod.snd).sum

/-- Each range ends where the later ones start, or before.
Source: none: infrastructure
Kind: D -/
def Ascending (rs : List (BitVec 64 × BitVec 64)) : Prop :=
  rs.Pairwise fun r q => rangeEnd r ≤ q.1

section lists

variable {b : Addr} {p : Pmm} {G : List (List Addr)} {reqs : List (BitVec 64 × BitVec 64)}

/-- **The list, request by request**: what is taken is a part of it, and all of it exactly when it is
in ascending order and above the regions there were.
Source: none: infrastructure
Kind: L -/
theorem AddRep.addAll (h : AddRep b p G) (hroom : p.regions.length + reqs.length ≤ pmmRegionCount)
    (hbase : ∀ q ∈ reqs, q.1 ≠ 0)
    (hok : ∀ r ∈ p.regions.map PmmRegion.range ++ alignedRanges reqs, RangeOk r)
    (hdis : (p.regions.map PmmRegion.range ++ alignedRanges reqs).Pairwise
      fun r q => ¬ RangesMeet r q) :
    ∃ p' taken, pmmAddAll reqs p = some p' ∧
      p'.regions.map PmmRegion.range = p.regions.map PmmRegion.range ++ taken ∧
      p'.total = p.total + (taken.map Prod.snd).sum ∧ p'.free = p.free + (taken.map Prod.snd).sum ∧
      taken.Sublist (alignedRanges reqs) ∧
      (taken = alignedRanges reqs ↔
        (∀ r ∈ p.regions.map PmmRegion.range, ∀ q ∈ alignedRanges reqs, rangeEnd r ≤ q.1) ∧
          Ascending (alignedRanges reqs)) := by
  induction reqs generalizing p G with
  | nil =>
      refine ⟨p, [], rfl, (List.append_nil _).symm, ?_, ?_, List.Sublist.refl _, ?_⟩
      · simp
      · simp
      · exact iff_of_true rfl ⟨fun _ _ _ hq => absurd hq List.not_mem_nil, List.Pairwise.nil⟩
  | cons q reqs ih =>
      have hcons : alignedRanges (q :: reqs) = pmmAlignedRange q.1 q.2 :: alignedRanges reqs := rfl
      rw [hcons] at hok hdis ⊢
      set rs := p.regions.map PmmRegion.range with hrs
      set q' := pmmAlignedRange q.1 q.2 with hq'
      have hq'ok : RangeOk q' := hok q' (by simp)
      have hlt : p.regions.length < pmmRegionCount := by
        rw [List.length_cons] at hroom
        omega
      -- the request is taken exactly when it starts above what there is
      have hiff : PmmAddOk p q.1 q.2 ↔ ∀ r ∈ rs, rangeEnd r ≤ q'.1 := by
        rw [hq'ok.pmmAddOk_iff (hbase q List.mem_cons_self) hlt, hrs, List.forall_mem_map]
        refine forall₂_congr fun r hr => ?_
        have hmem : r.range ∈ rs := List.mem_map_of_mem hr
        have hr_ok : RangeOk r.range := hok _ (List.mem_append_left _ hmem)
        rw [← hr_ok.above_iff hq'ok]
        have hclear : ¬ RangesMeet r.range q' :=
          (List.pairwise_append.mp hdis).2.2 _ hmem _ List.mem_cons_self
        exact ⟨fun hh => ⟨hclear, hh⟩, fun hh => hh.2⟩
      obtain ⟨p₁, hrun, hcase⟩ := h.step q.1 q.2
      have hstep : pmmAddAll (q :: reqs) p = pmmAddAll reqs p₁ := by
        rw [pmmAddAll, hrun]
        rfl
      have hbase' : ∀ q ∈ reqs, q.1 ≠ 0 := fun q hq => hbase q (List.mem_cons_of_mem _ hq)
      rw [hstep]
      rcases hcase with ⟨hno, rfl⟩ | ⟨hyes, ⟨G₁, hrep₁⟩, hregions₁, htotal₁, hfree₁⟩
      · -- refused: the rest goes on from the same regions
        have hsub : (rs ++ alignedRanges reqs).Sublist (rs ++ q' :: alignedRanges reqs) :=
          (List.Sublist.refl _).append (List.sublist_cons_self _ _)
        obtain ⟨p', taken, hall, hregions, htotal, hfree, htaken, -⟩ := ih h
          (by rw [List.length_cons] at hroom; omega) hbase' (fun r hr => hok r (hsub.subset hr))
          (hdis.sublist hsub)
        refine ⟨p', taken, hall, hregions, htotal, hfree, htaken.cons _, iff_of_false ?_ ?_⟩
        · intro heq
          have hle := htaken.length_le
          rw [heq, List.length_cons] at hle
          omega
        · rintro ⟨hbelow, -⟩
          exact hno (hiff.mpr fun r hr => hbelow r hr q' List.mem_cons_self)
      · have happend : rs ++ q' :: alignedRanges reqs = p₁.regions.map PmmRegion.range ++
            alignedRanges reqs := by
          rw [hregions₁, List.append_assoc]
          rfl
        rw [happend] at hok hdis
        have hlen₁ : p₁.regions.length = p.regions.length + 1 := by
          have := congrArg List.length hregions₁
          rwa [List.length_map, List.length_append, List.length_map, List.length_singleton] at this
        obtain ⟨p', taken, hall, hregions, htotal, hfree, htaken, hfull⟩ := ih hrep₁
          (by rw [List.length_cons] at hroom; omega) hbase' hok hdis
        refine ⟨p', q' :: taken, hall, ?_, ?_, ?_, htaken.cons_cons _, ?_⟩
        · rw [hregions, hregions₁, List.append_assoc]
          rfl
        · rw [htotal, htotal₁, List.map_cons, List.sum_cons, BitVec.add_assoc]
          rfl
        · rw [hfree, hfree₁, List.map_cons, List.sum_cons, BitVec.add_assoc]
          rfl
        · rw [List.cons_inj_right, hfull, hregions₁, Ascending, Ascending, List.pairwise_cons]
          have hbelow := hiff.mp hyes
          constructor
          · rintro ⟨hall, hasc⟩
            refine ⟨fun r hr x hx => ?_, fun x hx => ?_, hasc⟩
            · rcases List.mem_cons.mp hx with rfl | hx
              · exact hbelow r hr
              · exact hall r (List.mem_append_left _ hr) x hx
            · exact hall q' (List.mem_append_right _ (List.mem_singleton_self _)) x hx
          · rintro ⟨hall, hq, hasc⟩
            refine ⟨fun r hr x hx => ?_, hasc⟩
            rcases List.mem_append.mp hr with hr | hr
            · exact hall r hr x (List.mem_cons_of_mem _ hx)
            · rw [List.mem_singleton.mp hr]
              exact hq x hx

/-- From `pmm_initialize` a list is taken as a whole exactly when it is in ascending order.
Source: none: infrastructure
Kind: L -/
theorem AddRep.addsAll_iff (h : AddRep b p G) (hregions : p.regions = []) (htotal : p.total = 0)
    (hfree : p.free = 0) (hlen : reqs.length ≤ pmmRegionCount) (hadd : AddableTogether reqs) :
    PmmAddsAll p reqs ↔ Ascending (alignedRanges reqs) := by
  have hnil : p.regions.map PmmRegion.range = [] := by rw [hregions]; rfl
  obtain ⟨p', taken, hall, hregions', htotal', hfree', htaken, hiff⟩ := h.addAll
    (by rw [hregions, List.length_nil]; omega) hadd.base_ne (by rw [hnil]; exact hadd.rangeOk)
    (by rw [hnil]; exact hadd.disjoint)
  rw [hnil, List.nil_append] at hregions'
  simp only [htotal, BitVec.ofNat_eq_ofNat, BitVec.zero_add] at htotal'
  simp only [hfree, BitVec.ofNat_eq_ofNat, BitVec.zero_add] at hfree'
  have hfull : taken = alignedRanges reqs ↔ Ascending (alignedRanges reqs) := by
    rw [hiff, hnil]
    exact and_iff_right fun r hr => absurd hr List.not_mem_nil
  rw [← hfull]
  constructor
  · rintro ⟨p'', hall', hperm, -⟩
    obtain rfl : p' = p'' := Option.some_inj.mp (hall.symm.trans hall')
    rw [hregions'] at hperm
    exact htaken.eq_of_length hperm.length_eq
  · rintro rfl
    exact ⟨p', hall, by rw [hregions'], htotal', hfree'⟩

end lists

/-! ## When the overlap test is right -/

/-- **The overlap test of `pmm_add_region`.** For every state with a free slot and every request with
an ordinary range the answer "already managed" is given exactly to the ranges that meet a region iff
the ends tell; among ordinary regions they tell for a range that starts at or above the end of each,
or that meets one and does not end above them all. In every run of calls for which the ends tell the
regions are disjoint, and a further call leaves them so exactly when they tell for it. A list of at
most 16 disjoint requests is taken as a whole exactly when it is in ascending order.
Source: `pmm.c` `pmm_add_region`
Kind: P
Fidelity: exact
Hyps: the static array `pmm_initial_region_slab` lies in the address space, and not in its first
1536 bytes -/
theorem pmmAddRegion_overlap_exact {slabBuf : Addr} (hlo : 1536 < slabBuf.toNat)
    (hhi : slabBuf.toNat + 1568 ≤ 2 ^ 64) :
    (∀ (p : Pmm) (base size : BitVec 64), p.regions.length < pmmRegionCount →
      RangeOk (pmmAlignedRange base size) →
      (((pmmAddRegion p base size).map Prod.snd = some GrouperError.pmmAddManagedRegion.errval ↔
          ∃ r ∈ p.regions, RangesMeet r.range (pmmAlignedRange base size)) ↔
        PmmBoundsTell p base size) ∧
      (base ≠ 0 → (∀ r ∈ p.regions, RangeOk r.range) →
        (PmmBoundsTell p base size ↔
          (∀ r ∈ p.regions, rangeEnd r.range ≤ pmmAlignedBase base) ∨
          (∃ r ∈ p.regions, RangesMeet r.range (pmmAlignedRange base size)) ∧
            ∃ r ∈ p.regions, rangeEnd (pmmAlignedRange base size) ≤ rangeEnd r.range))) ∧
    (∀ (assertions : Bool) (p : Pmm), PmmReach PmmAddTold assertions slabBuf p →
      PmmDisjoint p ∧ ∀ (base size : BitVec 64) (p' : Pmm),
        (PmmOp.addRegion base size).run assertions p = some p' →
        (PmmDisjoint p' ↔ (PmmAddOk p base size → PmmBoundsTell p base size))) ∧
    ∀ (p : Pmm) (reqs : List (BitVec 64 × BitVec 64)), reqs.length ≤ pmmRegionCount →
      AddableTogether reqs →
      (PmmAddsAll (pmmInitialize p slabBuf).1 reqs ↔ Ascending (alignedRanges reqs)) := by
  refine ⟨?_, ?_, ?_⟩
  · intro p base size hroom hrange
    exact ⟨managed_right_iff hrange hroom,
      fun hbase hregions => pmmBoundsTell_iff_of_rangeOk hrange hbase hregions⟩
  · intro assertions p hreach
    obtain ⟨⟨G, hrep⟩, hdis⟩ := addRep_of_reach hlo hhi hreach
    exact ⟨hdis, fun base size p' hrun => (hrep.disjoint_step hdis hrun).2⟩
  · intro p reqs hlen hadd
    obtain ⟨p₀, hinit, hrep, hregions, htotal, hfree⟩ := addRep_init p hlo hhi
    rw [hinit]
    exact hrep.addsAll_iff hregions htotal hfree hlen hadd

/-- Two pages a megabyte apart can be taken together, in one order or the other.
Source: none: infrastructure
Kind: C -/
theorem addableTogether_twoPages :
    AddableTogether [(0x80400000, 4096), (0x80500000, 4096)] ∧
      AddableTogether [(0x80500000, 4096), (0x80400000, 4096)] := by
  have hlow : RangeOk (0x80400000, 4096) := ⟨by decide, by decide⟩
  have hhigh : RangeOk (0x80500000, 4096) := ⟨by decide, by decide⟩
  have hclear : ¬ RangesMeet (0x80400000, 4096) (0x80500000, 4096) :=
    (hlow.not_meet_iff hhigh).mpr (Or.inl (by decide))
  have heq : pmmAlignedRange 0x80400000 4096 = (0x80400000, 4096) := by decide
  have heq' : pmmAlignedRange 0x80500000 4096 = (0x80500000, 4096) := by decide
  have hne : (0x80400000 : BitVec 64) ≠ 0 := by decide
  have hne' : (0x80500000 : BitVec 64) ≠ 0 := by decide
  constructor
  · refine ⟨List.forall_mem_cons.mpr ⟨hne, List.forall_mem_singleton.mpr hne'⟩, ?_, ?_⟩
    · simp only [alignedRanges, List.map_cons, List.map_nil, heq, heq']
      exact List.forall_mem_cons.mpr ⟨hlow, List.forall_mem_singleton.mpr hhigh⟩
    · simp only [alignedRanges, List.map_cons, List.map_nil, heq, heq']
      exact List.pairwise_pair.mpr hclear
  · refine ⟨List.forall_mem_cons.mpr ⟨hne', List.forall_mem_singleton.mpr hne⟩, ?_, ?_⟩
    · simp only [alignedRanges, List.map_cons, List.map_nil, heq, heq']
      exact List.forall_mem_cons.mpr ⟨hhigh, List.forall_mem_singleton.mpr hlow⟩
    · simp only [alignedRanges, List.map_cons, List.map_nil, heq, heq']
      exact List.pairwise_pair.mpr fun hmeet => hclear hmeet.symm

/-- The two pages are taken in ascending order, and not in the other.
Source: none: infrastructure
Kind: C -/
theorem pmmAddRegion_overlap_twoPages :
    PmmAddsAll (pmmInitialize pmmZero 0x80300000).1 [(0x80400000, 4096), (0x80500000, 4096)] ∧
      ¬ PmmAddsAll (pmmInitialize pmmZero 0x80300000).1
        [(0x80500000, 4096), (0x80400000, 4096)] := by
  have hlists := (pmmAddRegion_overlap_exact (show 1536 < (0x80300000 : BitVec 64).toNat by decide)
    (by decide)).2.2
  constructor
  · rw [hlists pmmZero _ (by decide) addableTogether_twoPages.1]
    exact List.pairwise_pair.mpr (by decide)
  · rw [hlists pmmZero _ (by decide) addableTogether_twoPages.2]
    intro hasc
    exact absurd (List.pairwise_pair.mp hasc) (by decide)

/-- A page below a managed one is refused as already managed, though they are disjoint.
Source: `pmm.c` `pmm_add_region`
Kind: C -/
theorem not_managed_iff_meets :
    ¬ ∀ (p : Pmm) (base size : BitVec 64), PmmDisjoint p → p.regions.length < pmmRegionCount →
      0 < slabFreecount p.blockAllocator → RangeOk (pmmAlignedRange base size) →
      ((pmmAddRegion p base size).map Prod.snd = some GrouperError.pmmAddManagedRegion.errval ↔
        ∃ r ∈ p.regions, RangesMeet r.range (pmmAlignedRange base size)) := by
  intro hall
  have hlo : 1536 < (0x80300000 : BitVec 64).toNat := by decide
  obtain ⟨p₀, -, hrep₀, hregions₀, -, -⟩ := addRep_init pmmZero hlo (by decide)
  have hhigh : RangeOk (pmmAlignedRange 0x80500000 4096) := ⟨by decide, by decide⟩
  have hlow : RangeOk (pmmAlignedRange 0x80400000 4096) := ⟨by decide, by decide⟩
  obtain ⟨p, -, hcase⟩ := hrep₀.step 0x80500000 4096
  have hok : PmmAddOk p₀ 0x80500000 4096 := by
    rw [hhigh.pmmAddOk_iff (by decide) (by rw [hregions₀]; decide), hregions₀]
    exact fun r hr => absurd hr List.not_mem_nil
  rcases hcase with ⟨hno, -⟩ | ⟨-, ⟨G, hrep⟩, hranges, -, -⟩
  · exact hno hok
  rw [hregions₀, List.map_nil, List.nil_append, List.map_eq_singleton_iff] at hranges
  obtain ⟨r, hregions, hr⟩ := hranges
  have hlen : p.regions.length = 1 := by
    rw [hregions]
    rfl
  have hroom : p.regions.length < pmmRegionCount := by
    rw [hlen]
    decide
  have hcount : 0 < slabFreecount p.blockAllocator := by
    rw [BitVec.lt_def, hrep.rep.slabFreecount_toNat, hlen]
    decide
  have hdis : PmmDisjoint p := by
    rw [PmmDisjoint, hregions]
    exact List.pairwise_singleton _ _
  have hiff := hall p 0x80400000 4096 hdis hroom hcount hlow
  rw [pmmAddRegion_managed_iff hlow hroom] at hiff
  simp only [hregions, List.mem_singleton, exists_eq_left, hr] at hiff
  have hmeet := hiff.mp ⟨by decide, by decide⟩
  exact (hhigh.not_meet_iff hlow).mpr (Or.inr (by decide)) hmeet

end Octiron.Kernel
