import Octiron.Kernel.PmmRegions

/-!
# The pages that `pmm_add_region` records

`pmm_add_region` rounds the range it is given to whole pages, in 64-bit arithmetic that wraps.

* `LargestPages base size b s` — `[b, b + s)` are all the pages inside `[base, base + size)`, as
  integers.
* `PageFits` — there is a page inside.
* `PmmAddExact` — what is recorded are all the pages inside, and a request is answered "too small"
  exactly when there is none.
* **Main result** (`pmmAddExact_iff`): this is so exactly when the first page boundary from `base` on
  is not behind the end of the range. Otherwise the rest of the range is computed as nearly `2 ^ 64`
  bytes, which passes both checks.
-/

namespace Octiron.Kernel

open Octiron.Found
open Octiron.Kzadhbat

/-! ## Pages inside a range -/

/-- There is a page inside the range.
Source: none: infrastructure
Kind: D -/
def PageFits (base size : ℕ) : Prop := ∃ b, 4096 ∣ b ∧ base ≤ b ∧ b + 4096 ≤ base + size

/-- **All the pages inside a range**, and at least one.
Source: none: what `pmm_add_region` is for
Kind: D -/
structure LargestPages (base size b s : ℕ) : Prop where
  base_dvd : 4096 ∣ b
  size_dvd : 4096 ∣ s
  page : 4096 ≤ s
  lower : base ≤ b
  upper : b + s ≤ base + size
  largest : ∀ b' s', 4096 ∣ b' → 4096 ∣ s' → 0 < s' → base ≤ b' → b' + s' ≤ base + size →
    b ≤ b' ∧ b' + s' ≤ b + s

/-- The first page boundary from `base` on.
Source: none: infrastructure
Kind: D -/
def nextPage (base : ℕ) : ℕ := (base + 4095) / 4096 * 4096

/-- Source: none: infrastructure. Kind: L -/
theorem pageFits_iff (base size : ℕ) : PageFits base size ↔ nextPage base + 4096 ≤ base + size := by
  unfold PageFits nextPage
  constructor
  · rintro ⟨b, ⟨k, rfl⟩, hlo, hhi⟩
    omega
  · intro h
    exact ⟨_, ⟨_, Nat.mul_comm _ _⟩, by omega, h⟩

/-- The pages from the first boundary on.
Source: none: infrastructure
Kind: L -/
theorem largestPages_nextPage {base size : ℕ} (h : nextPage base + 4096 ≤ base + size) :
    LargestPages base size (nextPage base)
      ((base + size - nextPage base) / 4096 * 4096) := by
  unfold nextPage at h ⊢
  refine ⟨⟨_, Nat.mul_comm _ _⟩, ⟨_, Nat.mul_comm _ _⟩, by omega, by omega, by omega, ?_⟩
  rintro b' s' ⟨k, rfl⟩ ⟨n, rfl⟩ - hlo hhi
  omega

/-! ## The request -/

/-- **The request is answered exactly**: what is recorded are all the pages inside the range, and it is
too small exactly when there is none.
Source: `pmm.c` `pmm_add_region`
Kind: D -/
def PmmAddExact (p : Pmm) (base size : BitVec 64) : Prop :=
  (∀ p', pmmAddRegion p base size = some (p', GrouperError.ok.errval) →
    ∃ r, p'.regions = p.regions ++ [r] ∧
      LargestPages base.toNat size.toNat r.base.toNat r.size.toNat) ∧
  ((pmmAddRegion p base size).map Prod.snd = some GrouperError.pmmAddRegionTooSmall.errval ↔
    ¬ PageFits base.toNat size.toNat)

section request

variable {p p' : Pmm} {base size : BitVec 64}

/-- What is recorded, when the request is taken.
Source: `pmm.c` `pmm_add_region`
Kind: L -/
theorem pmmAddRegion_ok (h : pmmAddRegion p base size = some (p', GrouperError.ok.errval)) :
    pmmAlignedBase base + pmmAlignedSize base size ≤ base + size ∧
      basePageSize ≤ pmmAlignedSize base size ∧
      ∃ r, p'.regions = p.regions ++ [r] ∧ r.base = pmmAlignedBase base ∧
        r.size = pmmAlignedSize base size := by
  unfold pmmAddRegion at h
  dsimp only at h
  split_ifs at h with hbase hsmall hfull hany
  · cases h
  · cases h
  · cases h
  · cases h
  · push Not at hsmall
    cases halloc : slabAlloc p.blockAllocator with
    | none =>
        rw [halloc] at h
        cases h
    | some sb =>
        rw [halloc] at h
        dsimp only at h
        split_ifs at h with hnull
        · cases h
        · cases h
          exact ⟨hsmall.1, hsmall.2, _, rfl, rfl, rfl⟩

/-- **The answer "too small"** is the failure of the two checks.
Source: `pmm.c` `pmm_add_region`
Kind: L -/
theorem pmmAddRegion_tooSmall_iff (hbase : base ≠ 0) :
    (pmmAddRegion p base size).map Prod.snd = some GrouperError.pmmAddRegionTooSmall.errval ↔
      ¬ pmmAlignedBase base + pmmAlignedSize base size ≤ base + size ∨
        ¬ basePageSize ≤ pmmAlignedSize base size := by
  unfold pmmAddRegion
  dsimp only
  rw [if_neg hbase]
  by_cases hsmall : ¬ pmmAlignedBase base + pmmAlignedSize base size ≤ base + size ∨
      ¬ basePageSize ≤ pmmAlignedSize base size
  · rw [if_pos hsmall]
    exact iff_of_true rfl hsmall
  · rw [if_neg hsmall]
    refine iff_of_false ?_ hsmall
    -- the other answers are different errors
    split_ifs with hfull hany
    · exact errval_ne (by decide)
    · exact errval_ne (by decide)
    · cases slabAlloc p.blockAllocator with
      | none => simp
      | some sb =>
          obtain ⟨s, freeBlock⟩ := sb
          dsimp only
          by_cases hnull : freeBlock = 0
          · rw [if_pos hnull]
            exact errval_ne (by decide)
          · rw [if_neg hnull]
            exact errval_ne (by decide)

end request

/-! ## The arithmetic -/

section arithmetic

variable {base size : BitVec 64}

/-- Source: none: infrastructure. Kind: L -/
theorem pmmAlignedBase_toNat (base : BitVec 64) :
    (pmmAlignedBase base).toNat = nextPage base.toNat % 2 ^ 64 := by
  have hlt := base.isLt
  have hdown : (pmmAlignedBase base).toNat = (base + 4095).toNat / 4096 * 4096 :=
    alignDown_page_toNat (base + 4095)
  have hp : (4095 : BitVec 64).toNat = 4095 := rfl
  rw [hdown, BitVec.toNat_add, hp]
  unfold nextPage
  omega

/-- The rest of the range behind the boundary, when the boundary is in it.
Source: `pmm.c` `pmm_add_region`
Kind: L -/
theorem pmmAlignedSize_toNat (hgap : nextPage base.toNat ≤ base.toNat + size.toNat) :
    (pmmAlignedSize base size).toNat =
      (base.toNat + size.toNat - nextPage base.toNat) / 4096 * 4096 := by
  have hlt := base.isLt
  have hsize := size.isLt
  have hbase := pmmAlignedBase_toNat base
  have hdown : (pmmAlignedSize base size).toNat = _ :=
    alignDown_page_toNat (size - (pmmAlignedBase base - base))
  have hrest : (size - (pmmAlignedBase base - base)).toNat =
      base.toNat + size.toNat - nextPage base.toNat := by
    rw [BitVec.toNat_sub, BitVec.toNat_sub, hbase]
    unfold nextPage at hgap ⊢
    omega
  rw [hdown, hrest]

/-- **The underflow**: when the boundary is behind the range, the rest of it is taken for all but a page
of the address space, and both checks pass.
Source: `pmm.c` `pmm_add_region`
Kind: L -/
theorem pmmAligned_underflow (hgap : base.toNat + size.toNat < nextPage base.toNat) :
    pmmAlignedBase base + pmmAlignedSize base size ≤ base + size ∧
      basePageSize ≤ pmmAlignedSize base size := by
  have hlt := base.isLt
  have hsize := size.isLt
  have hbase := pmmAlignedBase_toNat base
  have hdown : (pmmAlignedSize base size).toNat = _ :=
    alignDown_page_toNat (size - (pmmAlignedBase base - base))
  have hrest : (size - (pmmAlignedBase base - base)).toNat =
      2 ^ 64 - (nextPage base.toNat - (base.toNat + size.toNat)) := by
    rw [BitVec.toNat_sub, BitVec.toNat_sub, hbase]
    unfold nextPage at hgap ⊢
    omega
  have hall : (pmmAlignedSize base size).toNat = 2 ^ 64 - 4096 := by
    rw [hdown, hrest]
    unfold nextPage at hgap ⊢
    omega
  constructor
  · rw [BitVec.le_def, BitVec.toNat_add, BitVec.toNat_add, hall, hbase]
    unfold nextPage at hgap ⊢
    omega
  · rw [BitVec.le_def, hall, basePageSize_toNat]
    omega

/-- The checks on a range with the boundary in it.
Source: `pmm.c` `pmm_add_region`
Kind: L -/
theorem pmmAligned_checks_iff (_hend : base.toNat + size.toNat ≤ 2 ^ 64)
    (hgap : nextPage base.toNat ≤ base.toNat + size.toNat) :
    (¬ pmmAlignedBase base + pmmAlignedSize base size ≤ base + size ∨
      ¬ basePageSize ≤ pmmAlignedSize base size) ↔ ¬ PageFits base.toNat size.toNat := by
  have hsize := pmmAlignedSize_toNat hgap
  have hbase := pmmAlignedBase_toNat base
  rw [pageFits_iff, BitVec.le_def, BitVec.le_def, BitVec.toNat_add, BitVec.toNat_add, hsize, hbase,
    basePageSize_toNat]
  have hlt := base.isLt
  unfold nextPage at hgap ⊢
  omega

end arithmetic

/-- **When a request is answered exactly**: the first page boundary from `base` on is in the range, or at
its end.
Source: `pmm.c` `pmm_add_region`
Kind: P
Fidelity: exact
Hyps: the range is not at `NULL` and does not reach behind the address space -/
theorem pmmAddExact_iff (p : Pmm) (base size : BitVec 64) (hbase : base ≠ 0)
    (hend : base.toNat + size.toNat ≤ 2 ^ 64) :
    PmmAddExact p base size ↔ nextPage base.toNat ≤ base.toNat + size.toNat := by
  unfold PmmAddExact
  rw [pmmAddRegion_tooSmall_iff hbase]
  constructor
  · rintro ⟨-, hsmall⟩
    by_contra hgap
    rw [not_le] at hgap
    obtain ⟨hfits, hpage⟩ := pmmAligned_underflow hgap
    have hnone : ¬ PageFits base.toNat size.toNat := by
      rw [pageFits_iff]
      omega
    rcases hsmall.mpr hnone with hno | hno
    · exact hno hfits
    · exact hno hpage
  · intro hgap
    have hchecks := pmmAligned_checks_iff hend hgap
    refine ⟨fun p' hrun => ?_, hchecks⟩
    obtain ⟨hfits, hpage, r, hregions, hrbase, hrsize⟩ := pmmAddRegion_ok hrun
    have hfits' : PageFits base.toNat size.toNat := by
      by_contra hnone
      rcases hchecks.mpr hnone with hno | hno
      · exact hno hfits
      · exact hno hpage
    rw [pageFits_iff] at hfits'
    have hwrap : nextPage base.toNat % 2 ^ 64 = nextPage base.toNat := Nat.mod_eq_of_lt (by omega)
    refine ⟨r, hregions, ?_⟩
    rw [hrbase, hrsize, pmmAlignedSize_toNat hgap, pmmAlignedBase_toNat, hwrap]
    exact largestPages_nextPage hfits'

/-- Two pages and a bit from `0x80400010` on, on an empty manager: one page is recorded.
Source: none: infrastructure
Kind: C -/
theorem pmmAddExact_unaligned : PmmAddExact pmmZero 0x80400010 0x2000 :=
  (pmmAddExact_iff pmmZero 0x80400010 0x2000 (by decide) (by decide)).mpr (by decide)

/-- One byte at `0x80400001` is recorded as nearly the whole address space.
Source: `pmm.c` `pmm_add_region`
Kind: C -/
theorem not_pmmAddExact_oneByte : ¬ PmmAddExact (pmmInitialize pmmZero 0x80300000).1 0x80400001 1 := by
  rintro ⟨-, hsmall⟩
  rw [pmmAddRegion_tooSmall_iff (by decide)] at hsmall
  have hnone : ¬ PageFits (0x80400001 : BitVec 64).toNat (1 : BitVec 64).toNat := by
    rw [pageFits_iff]
    decide
  exact absurd (hsmall.mpr hnone) (by decide)

end Octiron.Kernel
