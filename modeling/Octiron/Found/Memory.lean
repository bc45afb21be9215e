import Mathlib

/-!
# Byte-addressed memory

A memory of a 64-bit machine as a total map from addresses to bytes, with little-endian 64-bit
loads and stores and the constant fill. Addresses are words, so every range lives on the ring of
`2 ^ 64` addresses and pointer arithmetic wraps as the machine's does.

* `Mem`, `load64`, `store64`, `fill` — the operations. `overlay m c l` is `m` with the ranges `l` of another
  memory, for what has been written to places of which only the addresses are known.
* `Apart a n b k` — the ranges of `n` bytes at `a` and of `k` bytes at `b` do not meet: each starts
  at least the other's length after it, going round the ring.
* The rules a program proof uses: `load64_store64_same`, `load64_store64_of_apart`,
  `store64_apply_of_apart`, `load64_fill_of_apart`, `load64_congr`, `load64_of_zero`.
-/

namespace Octiron.Found

/-- An address: a 64-bit word. Kind: D -/
abbrev Addr := BitVec 64

/-- A memory: a byte at every address. Kind: D -/
abbrev Mem := Addr → BitVec 8

namespace Mem

/-- The `i`-th byte of a word, least significant first. Kind: D -/
def byteOf (v : BitVec 64) (i : ℕ) : BitVec 8 := v.extractLsb' (8 * i) 8

/-- The little-endian 64-bit load. Kind: D -/
def load64 (m : Mem) (a : Addr) : BitVec 64 :=
  m (a + 7#64) ++ m (a + 6#64) ++ m (a + 5#64) ++ m (a + 4#64) ++ m (a + 3#64) ++ m (a + 2#64) ++
    m (a + 1#64) ++ m (a + 0#64)

/-- The little-endian 64-bit store. Kind: D -/
def store64 (m : Mem) (a : Addr) (v : BitVec 64) : Mem := fun x =>
  if (x - a).toNat < 8 then byteOf v (x - a).toNat else m x

/-- The little-endian 32-bit store. Kind: D -/
def store32 (m : Mem) (a : Addr) (v : BitVec 32) : Mem := fun x =>
  if (x - a).toNat < 4 then v.extractLsb' (8 * (x - a).toNat) 8 else m x

/-- The little-endian 128-bit load. Kind: D -/
def load128 (m : Mem) (a : Addr) : BitVec 128 := load64 m (a + 8) ++ load64 m a

/-- The little-endian 128-bit store. Kind: D -/
def store128 (m : Mem) (a : Addr) (v : BitVec 128) : Mem :=
  store64 (store64 m a (v.extractLsb' 0 64)) (a + 8) (v.extractLsb' 64 64)

/-- The memory with the `n` bytes from `a` set to `b`. Kind: D -/
def fill (m : Mem) (a : Addr) (n : ℕ) (b : BitVec 8) : Mem := fun x =>
  if (x - a).toNat < n then b else m x

/-- The memory `m` in which the ranges of the list hold what they hold in `c`. Kind: D -/
def overlay (m c : Mem) (l : List (Addr × ℕ)) : Mem := fun x =>
  if l.any fun r => decide ((x - r.1).toNat < r.2) then c x else m x

/-- The `n` bytes at `a` and the `k` bytes at `b` are disjoint. Kind: D -/
def Apart (a : Addr) (n : ℕ) (b : Addr) (k : ℕ) : Prop :=
  n ≤ (b - a).toNat ∧ k ≤ (a - b).toNat

/-! ## Disjoint ranges -/

theorem Apart.symm {a b : Addr} {n k : ℕ} (h : Apart a n b k) : Apart b k a n := ⟨h.2, h.1⟩

/-- Shrinking both ranges keeps them apart. Kind: L -/
theorem Apart.mono {a b : Addr} {n n' k k' : ℕ} (h : Apart a n b k) (hn : n' ≤ n) (hk : k' ≤ k) :
    Apart a n' b k' := ⟨hn.trans h.1, hk.trans h.2⟩

/-- A byte of the second range is not in the first. Kind: L -/
theorem Apart.not_mem {a b : Addr} {n k : ℕ} (h : Apart a n b k) {i : ℕ} (hi : i < k) :
    ¬ (b + BitVec.ofNat 64 i - a).toNat < n := by
  obtain ⟨h₁, h₂⟩ := h
  have hlt := (a - b).isLt
  have hi' : (BitVec.ofNat 64 i).toNat = i := by
    rw [BitVec.toNat_ofNat, Nat.mod_eq_of_lt (by omega)]
  rw [BitVec.toNat_sub] at h₁ h₂ ⊢
  rw [BitVec.toNat_add, hi']
  have ha := a.isLt
  have hb := b.isLt
  omega

/-- Ranges at offsets from one base, both below `2 ^ 64`, are apart when the offsets are.
Kind: L -/
theorem apart_offsets (a : Addr) {x y n k : ℕ} (hn : 0 < n) (hk : 0 < k) (hx : x + n ≤ 2 ^ 64)
    (hy : y + k ≤ 2 ^ 64) (h : x + n ≤ y ∨ y + k ≤ x) :
    Apart (a + BitVec.ofNat 64 x) n (a + BitVec.ofNat 64 y) k := by
  have hx' : (BitVec.ofNat 64 x).toNat = x := by
    rw [BitVec.toNat_ofNat, Nat.mod_eq_of_lt (by omega)]
  have hy' : (BitVec.ofNat 64 y).toNat = y := by
    rw [BitVec.toNat_ofNat, Nat.mod_eq_of_lt (by omega)]
  have ha := a.isLt
  constructor <;> rw [BitVec.toNat_sub, BitVec.toNat_add, BitVec.toNat_add, hx', hy'] <;> omega

/-! ## Loads and stores -/

/-- Equal bytes load equal words. Kind: L -/
theorem load64_congr {m m' : Mem} {a : Addr}
    (h : ∀ i < 8, m (a + BitVec.ofNat 64 i) = m' (a + BitVec.ofNat 64 i)) :
    load64 m a = load64 m' a := by
  simp only [load64, h 0 (by omega), h 1 (by omega), h 2 (by omega), h 3 (by omega),
    h 4 (by omega), h 5 (by omega), h 6 (by omega), h 7 (by omega)]

/-- Eight zero bytes load zero. Kind: L -/
theorem load64_of_zero {m : Mem} {a : Addr} (h : ∀ i < 8, m (a + BitVec.ofNat 64 i) = 0) :
    load64 m a = 0 := by
  simp only [load64, h 0 (by omega), h 1 (by omega), h 2 (by omega), h 3 (by omega),
    h 4 (by omega), h 5 (by omega), h 6 (by omega), h 7 (by omega)]
  decide

/-- The byte offset inside a range from its start. Kind: L -/
theorem add_ofNat_sub_toNat (a : Addr) {i : ℕ} (hi : i < 2 ^ 64) :
    (a + BitVec.ofNat 64 i - a).toNat = i := by
  rw [BitVec.add_comm, BitVec.add_sub_cancel, BitVec.toNat_ofNat, Nat.mod_eq_of_lt hi]

theorem store64_apply_of_lt (m : Mem) (a : Addr) (v : BitVec 64) {i : ℕ} (hi : i < 8) :
    store64 m a v (a + BitVec.ofNat 64 i) = byteOf v i := by
  rw [store64, add_ofNat_sub_toNat a (by omega), if_pos hi]

/-- A word is the concatenation of its bytes. Kind: L -/
theorem byteOf_append (v : BitVec 64) :
    byteOf v 7 ++ byteOf v 6 ++ byteOf v 5 ++ byteOf v 4 ++ byteOf v 3 ++ byteOf v 2 ++
      byteOf v 1 ++ byteOf v 0 = v := by
  apply BitVec.eq_of_getLsbD_eq
  intro i hi
  simp only [byteOf, BitVec.getLsbD_append, BitVec.getLsbD_extractLsb']
  interval_cases i <;> simp

/-- A load sees the last store to its address. Kind: L -/
@[simp] theorem load64_store64_same (m : Mem) (a : Addr) (v : BitVec 64) :
    load64 (store64 m a v) a = v := by
  have h := fun i (hi : i < 8) => store64_apply_of_lt m a v hi
  rw [load64, h 0 (by omega), h 1 (by omega), h 2 (by omega), h 3 (by omega), h 4 (by omega),
    h 5 (by omega), h 6 (by omega), h 7 (by omega)]
  exact byteOf_append v

/-- A store leaves the bytes of every disjoint range. Kind: L -/
theorem store64_apply_of_apart {m : Mem} {a b : Addr} {k : ℕ} (v : BitVec 64)
    (h : Apart a 8 b k) {i : ℕ} (hi : i < k) :
    store64 m a v (b + BitVec.ofNat 64 i) = m (b + BitVec.ofNat 64 i) :=
  if_neg (h.not_mem hi)

/-- A store leaves the words of every disjoint range. Kind: L -/
theorem load64_store64_of_apart {m : Mem} {a b : Addr} (v : BitVec 64) (h : Apart a 8 b 8) :
    load64 (store64 m a v) b = load64 m b :=
  load64_congr fun _ hi => store64_apply_of_apart v h hi

/-! ## Fills -/

theorem fill_apply_of_lt (m : Mem) (a : Addr) {n i : ℕ} (b : BitVec 8) (hi : i < n)
    (h64 : i < 2 ^ 64) : fill m a n b (a + BitVec.ofNat 64 i) = b := by
  rw [fill, add_ofNat_sub_toNat a h64, if_pos hi]

theorem fill_apply_of_apart {m : Mem} {a b : Addr} {n k : ℕ} (v : BitVec 8)
    (h : Apart a n b k) {i : ℕ} (hi : i < k) :
    fill m a n v (b + BitVec.ofNat 64 i) = m (b + BitVec.ofNat 64 i) :=
  if_neg (h.not_mem hi)

/-- A fill leaves the words of every disjoint range. Kind: L -/
theorem load64_fill_of_apart {m : Mem} {a b : Addr} {n : ℕ} (v : BitVec 8) (h : Apart a n b 8) :
    load64 (fill m a n v) b = load64 m b :=
  load64_congr fun _ hi => fill_apply_of_apart v h hi

/-! ## Overlays -/

/-- An overlay leaves what no range of it meets. Kind: L -/
theorem overlay_apply_of_forall {m c : Mem} {l : List (Addr × ℕ)} {x : Addr}
    (h : ∀ r ∈ l, ¬ (x - r.1).toNat < r.2) : overlay m c l x = m x := by
  refine if_neg fun hany => ?_
  obtain ⟨r, hr, hlt⟩ := List.any_eq_true.mp hany
  exact h r hr (of_decide_eq_true hlt)

theorem overlay_apply_of_apart {m c : Mem} {l : List (Addr × ℕ)} {b : Addr} {k : ℕ}
    (h : ∀ r ∈ l, Apart r.1 r.2 b k) {i : ℕ} (hi : i < k) :
    overlay m c l (b + BitVec.ofNat 64 i) = m (b + BitVec.ofNat 64 i) :=
  overlay_apply_of_forall fun r hr => (h r hr).not_mem hi

end Mem

end Octiron.Found
