import Mathlib.Tactic

/-!
# Bit fields of machine words

Facts about words as sequences of bits, for code that packs and unpacks fields with shifts and
masks: a field is compared bit by bit, so what is needed is which bits a mask has, and what
alignment and size bounds say about single bits.

* `lowMask w k` — the word with the lowest `k` bits set.
* `and_lowMask_eq_zero_iff` — alignment to `2 ^ k`, bit by bit; `toNat_lt_two_pow_iff` — a bound,
  bit by bit.
* `and_lowMask_toNat` — masking is taking the remainder.
-/

namespace Octiron.Found

variable {w : ℕ}

/-- The lowest `k` bits. Kind: D -/
def lowMask (w k : ℕ) : BitVec w := BitVec.ofNat w (2 ^ k - 1)

@[simp] theorem getLsbD_lowMask (k i : ℕ) : (lowMask w k).getLsbD i = decide (i < k ∧ i < w) := by
  rw [lowMask, BitVec.getLsbD_ofNat, Nat.testBit_two_pow_sub_one]
  by_cases h₁ : i < k <;> by_cases h₂ : i < w <;> simp [h₁, h₂]

/-- A word is a multiple of `2 ^ k` when its lowest `k` bits are clear. Kind: L -/
theorem and_lowMask_eq_zero_iff (x : BitVec w) (k : ℕ) :
    x &&& lowMask w k = 0 ↔ ∀ i < k, x.getLsbD i = false := by
  constructor
  · intro h i hi
    by_cases hw : i < w
    · have hbit : (x &&& lowMask w k).getLsbD i = (0 : BitVec w).getLsbD i := by rw [h]
      rw [BitVec.getLsbD_and, getLsbD_lowMask, decide_eq_true ⟨hi, hw⟩, Bool.and_true] at hbit
      rw [hbit]
      exact BitVec.getLsbD_zero
    · exact BitVec.getLsbD_of_ge x i (by omega)
  · intro h
    apply BitVec.eq_of_getLsbD_eq
    intro i hi
    by_cases hk : i < k
    · simp [h i hk]
    · simp [hk]

/-- A word is below `2 ^ k` when its bits from `k` on are clear. Kind: L -/
theorem toNat_lt_two_pow_iff (x : BitVec w) (k : ℕ) :
    x.toNat < 2 ^ k ↔ ∀ i, k ≤ i → x.getLsbD i = false := by
  constructor
  · intro h i hi
    exact Nat.testBit_lt_two_pow (h.trans_le (Nat.pow_le_pow_right (by norm_num) hi))
  · intro h
    exact Nat.lt_pow_two_of_testBit _ h

/-- The integer a masked word stands for. Kind: L -/
theorem and_lowMask_toNat (x : BitVec w) {k : ℕ} (hk : k ≤ w) :
    (x &&& lowMask w k).toNat = x.toNat % 2 ^ k := by
  have hlt : 2 ^ k - 1 < 2 ^ w := by
    have h₁ : 2 ^ k ≤ 2 ^ w := Nat.pow_le_pow_right (by norm_num) hk
    have h₂ : 0 < 2 ^ k := Nat.two_pow_pos k
    omega
  rw [BitVec.toNat_and, lowMask, BitVec.toNat_ofNat, Nat.mod_eq_of_lt hlt,
    Nat.and_two_pow_sub_one_eq_mod]

end Octiron.Found
