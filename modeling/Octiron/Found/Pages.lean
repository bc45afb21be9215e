import Octiron.Found.Bits
import Octiron.Found.Memory

/-!
# Pages of words

A page is 4096 bytes at a page-aligned address, used as a table of 512 words.

* `PageAligned`, `slot t i` — the address of the `i`-th word of the table at `t`.
* `PageZero`, `PageEq` — a page of zeros, and two memories that agree on a page.
* The rules: stores to one slot leave every other slot of every table (`load64_store64_slot`), and
  slots of equal pages load equal words (`PageEq.load_slot`).
-/

namespace Octiron.Found

open Mem

/-- The low twelve bits are clear. Kind: D -/
def PageAligned (a : Addr) : Prop := a &&& lowMask 64 12 = 0

instance (a : Addr) : Decidable (PageAligned a) := inferInstanceAs (Decidable (_ = _))

/-- The `i`-th word of the table at `t`. Kind: D -/
def slot (t : Addr) (i : BitVec 64) : Addr := t + 8 * i

/-- The 4096 bytes from `p` are zero. Kind: D -/
def PageZero (m : Mem) (p : Addr) : Prop := ∀ i < 4096, m (p + BitVec.ofNat 64 i) = 0

/-- The memories agree on the 4096 bytes from `p`. Kind: D -/
def PageEq (m m' : Mem) (p : Addr) : Prop :=
  ∀ i < 4096, m (p + BitVec.ofNat 64 i) = m' (p + BitVec.ofNat 64 i)

/-- Page alignment, as an integer. Kind: L -/
theorem pageAligned_iff (a : Addr) : PageAligned a ↔ a.toNat % 4096 = 0 := by
  have h : (a &&& lowMask 64 12).toNat = a.toNat % 4096 := and_lowMask_toNat a (by norm_num)
  rw [PageAligned, ← h]
  constructor
  · intro h0
    rw [h0]
    rfl
  · intro h0
    exact BitVec.eq_of_toNat_eq h0

/-- A slot as an offset in its page. Kind: L -/
theorem slot_eq (t : Addr) (i : BitVec 64) :
    slot t i = t + BitVec.ofNat 64 (8 * i.toNat) := by
  have h : 8 * i = BitVec.ofNat 64 (8 * i.toNat) := by
    apply BitVec.eq_of_toNat_eq
    rw [BitVec.toNat_mul, BitVec.toNat_ofNat]
    rfl
  rw [slot, h]

/-- Two different pages do not meet. Kind: L -/
theorem apart_pages {a b : Addr} (ha : PageAligned a) (hb : PageAligned b) (hne : a ≠ b) :
    Apart a 4096 b 4096 := by
  rw [pageAligned_iff] at ha hb
  have hne' : a.toNat ≠ b.toNat := fun h => hne (BitVec.eq_of_toNat_eq h)
  have := a.isLt
  have := b.isLt
  constructor <;> rw [BitVec.toNat_sub] <;> omega

/-- Pages that do not meet are different. Kind: L -/
theorem Mem.Apart.ne {a b : Addr} {n k : ℕ} (h : Apart a (n + 1) b k) : a ≠ b := by
  rintro rfl
  have := h.1
  rw [BitVec.sub_self] at this
  change n + 1 ≤ 0 at this
  omega

/-- Two different slots do not meet. Kind: L -/
theorem apart_slots {t t' : Addr} {i i' : BitVec 64} (ht : PageAligned t) (ht' : PageAligned t')
    (hi : i.toNat < 512) (hi' : i'.toNat < 512) (hne : t ≠ t' ∨ i ≠ i') :
    Apart (slot t i) 8 (slot t' i') 8 := by
  rw [slot_eq t i, slot_eq t' i']
  by_cases htt : t = t'
  · subst htt
    have hii : i.toNat ≠ i'.toNat := fun h =>
      (hne.resolve_left (not_not_intro rfl)) (BitVec.eq_of_toNat_eq h)
    exact apart_offsets t (by norm_num) (by norm_num) (by omega) (by omega) (by omega)
  · rw [pageAligned_iff] at ht ht'
    have hne' : t.toNat ≠ t'.toNat := fun h => htt (BitVec.eq_of_toNat_eq h)
    have := t.isLt
    have := t'.isLt
    constructor <;>
      rw [BitVec.toNat_sub, BitVec.toNat_add, BitVec.toNat_add, BitVec.toNat_ofNat,
        BitVec.toNat_ofNat] <;> omega

/-- A store to one slot leaves every other slot. Kind: L -/
theorem load64_store64_slot {m : Mem} {t t' : Addr} {i i' : BitVec 64} (v : BitVec 64)
    (ht : PageAligned t) (ht' : PageAligned t') (hi : i.toNat < 512) (hi' : i'.toNat < 512)
    (hne : t ≠ t' ∨ i ≠ i') :
    load64 (store64 m (slot t i) v) (slot t' i') = load64 m (slot t' i') :=
  load64_store64_of_apart v (apart_slots ht ht' hi hi' hne)

/-- Memories that agree on a page load the same words from it. Kind: L -/
theorem PageEq.load_slot {m m' : Mem} {t : Addr} {i : BitVec 64} (h : PageEq m m' t)
    (hi : i.toNat < 512) : load64 m (slot t i) = load64 m' (slot t i) := by
  rw [slot_eq t i]
  apply load64_congr
  intro k hk
  have := h (8 * i.toNat + k) (by omega)
  rwa [BitVec.ofNat_add, ← BitVec.add_assoc] at this

/-- Every word of a zero page is zero. Kind: L -/
theorem PageZero.load_slot {m : Mem} {t : Addr} {i : BitVec 64} (h : PageZero m t)
    (hi : i.toNat < 512) : load64 m (slot t i) = 0 := by
  rw [slot_eq t i]
  apply load64_of_zero
  intro k hk
  have := h (8 * i.toNat + k) (by omega)
  rwa [BitVec.ofNat_add, ← BitVec.add_assoc] at this

end Octiron.Found
