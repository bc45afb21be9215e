import Octiron.Found.Memory

/-!
# Byte strings in memory

Ranges of a memory as lists of bytes, the numbers that such lists are in either byte order, and tables
whose columns are written row by row.

* `leNat`, `beNat` — the number with these bytes, the least or the most significant one first, and
  `leBytes`, `beBytes` — the bytes of a number (`beBytes_beNat`). `beNat_eq_sum` is the sum that
  `beNat` is.
* `slice l j w` — a part of a list.
* `Mem.bytes m a n`, `Mem.put m a l` — the `n` bytes at `a`, and the memory with the bytes `l` there.
* `Mem.span a n` — the addresses of a range; spans that do not meet are `Disjoint` sets.
* The rules: `bytes_put_same`, `bytes_put_of_disjoint`, `bytes_add`, `bytes_sub`, and the stores of
  `Memory` as `put` (`store32_eq_put`, `store64_eq_put`, `store128_eq_put`).
* `Column`, `putRows` — columns of elements of one width each, written row by row.
* **Main result** (`bytes_putRows`): when the columns do not meet, every element that was written is
  there in the end, and nothing else has changed (`putRows_apply`).
-/

namespace Octiron.Found

/-! ## Numbers -/

/-- The number with these bytes, the least significant one first. Kind: D -/
def leNat (l : List (BitVec 8)) : ℕ := Nat.ofDigits 256 (l.map BitVec.toNat)

/-- The number with these bytes, the most significant one first. Kind: D -/
def beNat (l : List (BitVec 8)) : ℕ := leNat l.reverse

/-- The `k` low bytes of a number, the least significant one first. Kind: D -/
def leBytes : ℕ → ℕ → List (BitVec 8)
  | 0, _ => []
  | k + 1, v => BitVec.ofNat 8 v :: leBytes k (v / 256)

/-- The `k` low bytes of a number, the most significant one first. Kind: D -/
def beBytes (k v : ℕ) : List (BitVec 8) := (leBytes k v).reverse

theorem leNat_cons (b : BitVec 8) (l : List (BitVec 8)) : leNat (b :: l) = b.toNat + 256 * leNat l := by
  simp [leNat, Nat.ofDigits_cons]

/-- The lower bytes of a number. Kind: L -/
theorem leNat_append_mod (l l' : List (BitVec 8)) : leNat (l ++ l') % 256 ^ l.length = leNat l := by
  have hlt : leNat l < 256 ^ l.length := by
    have hdigits := Nat.ofDigits_lt_base_pow_length' (b := 254) (l := l.map BitVec.toNat) fun d hd => by
      obtain ⟨b, -, rfl⟩ := List.mem_map.mp hd
      exact b.isLt
    rwa [List.length_map] at hdigits
  unfold leNat at hlt ⊢
  rw [List.map_append, Nat.ofDigits_append, List.length_map, Nat.add_mul_mod_self_left,
    Nat.mod_eq_of_lt hlt]

/-- The bytes of the number that bytes are. Kind: L -/
theorem leBytes_leNat (l : List (BitVec 8)) : leBytes l.length (leNat l) = l := by
  induction l with
  | nil => rfl
  | cons b l ih =>
      have hb := b.isLt
      have hdiv : (b.toNat + 256 * leNat l) / 256 = leNat l := by omega
      have hmod : BitVec.ofNat 8 (b.toNat + 256 * leNat l) = b := by
        apply BitVec.eq_of_toNat_eq
        rw [BitVec.toNat_ofNat]
        omega
      rw [leNat_cons, List.length_cons, leBytes, hdiv, hmod, ih]

/-- **Re-encoding**: the bytes of the number that bytes are. Kind: L -/
theorem beBytes_beNat (l : List (BitVec 8)) : beBytes l.length (beNat l) = l := by
  have h := leBytes_leNat l.reverse
  rw [List.length_reverse] at h
  rw [beBytes, beNat, h, List.reverse_reverse]

theorem beNat_cons (b : BitVec 8) (l : List (BitVec 8)) :
    beNat (b :: l) = b.toNat * 256 ^ l.length + beNat l := by
  unfold beNat leNat
  rw [List.reverse_cons, List.map_append, Nat.ofDigits_append, List.length_map, List.length_reverse]
  simp [Nat.ofDigits_singleton]
  ring

/-- The number as a sum. Kind: L -/
theorem beNat_eq_sum (l : List (BitVec 8)) :
    beNat l = ∑ i ∈ Finset.range l.length, (l.getD i 0).toNat * 256 ^ (l.length - 1 - i) := by
  induction l with
  | nil => rfl
  | cons b l ih =>
      rw [beNat_cons, List.length_cons, Finset.sum_range_succ', ih, Nat.add_comm]
      refine congrArg₂ (· + ·) (Finset.sum_congr rfl fun i hi => ?_) ?_
      · have hi' := Finset.mem_range.mp hi
        rw [List.getD_cons_succ, show l.length + 1 - 1 - (i + 1) = l.length - 1 - i by omega]
      · simp

/-! ## Slices -/

/-- The `w` bytes from offset `j` on. Kind: D -/
def slice (l : List (BitVec 8)) (j w : ℕ) : List (BitVec 8) := (List.range w).map fun k => l.getD (j + k) 0

@[simp] theorem length_slice (l : List (BitVec 8)) (j w : ℕ) : (slice l j w).length = w := by
  simp [slice]

theorem slice_add (l : List (BitVec 8)) (j v w : ℕ) :
    slice l j (v + w) = slice l j v ++ slice l (j + v) w := by
  simp only [slice, List.range_add, List.map_append, List.map_map]
  refine congrArg (_ ++ ·) (List.map_congr_left fun k _ => ?_)
  show l.getD (j + (v + k)) 0 = l.getD (j + v + k) 0
  rw [Nat.add_assoc]

theorem slice_zero (l : List (BitVec 8)) : slice l 0 l.length = l := by
  refine List.ext_getElem (length_slice _ _ _) fun k hk hk' => ?_
  simp [slice, hk']

/-- A list that is made of groups. Kind: L -/
theorem flatMap_slice (l : List (BitVec 8)) (g n : ℕ) :
    (List.range n).flatMap (fun i => slice l (g * i) g) = slice l 0 (g * n) := by
  induction n with
  | zero => rfl
  | succ n ih =>
      rw [List.range_succ, List.flatMap_append, ih, Nat.mul_succ, slice_add, Nat.zero_add]
      simp

namespace Mem

/-! ## Ranges -/

/-- The `n` bytes at `a`. Kind: D -/
def bytes (m : Mem) (a : Addr) (n : ℕ) : List (BitVec 8) :=
  (List.range n).map fun i => m (a + BitVec.ofNat 64 i)

/-- The memory with the bytes `l` at `a`. Kind: D -/
def put (m : Mem) (a : Addr) (l : List (BitVec 8)) : Mem := fun x => l.getD (x - a).toNat (m x)

/-- The addresses of the `n` bytes at `a`. Kind: D -/
def span (a : Addr) (n : ℕ) : Set Addr := {x | (x - a).toNat < n}

section ranges

variable {m m' : Mem} {a b : Addr} {n k : ℕ} {l : List (BitVec 8)}

@[simp] theorem length_bytes (m : Mem) (a : Addr) (n : ℕ) : (bytes m a n).length = n := by
  simp [bytes]

theorem getElem?_bytes {i : ℕ} (hi : i < n) : (bytes m a n)[i]? = some (m (a + BitVec.ofNat 64 i)) := by
  simp [bytes, hi]

theorem mem_span_add {i : ℕ} (hi : i < n) (hn : n ≤ 2 ^ 64) : a + BitVec.ofNat 64 i ∈ span a n := by
  show (a + BitVec.ofNat 64 i - a).toNat < n
  rw [add_ofNat_sub_toNat a (by omega)]
  exact hi

/-- Memories that agree on a range have the same bytes there. Kind: L -/
theorem bytes_congr (hn : n ≤ 2 ^ 64) (h : ∀ x ∈ span a n, m x = m' x) :
    bytes m a n = bytes m' a n := by
  refine List.map_congr_left fun i hi => ?_
  exact h _ (mem_span_add (List.mem_range.mp hi) hn)

theorem put_apply_of_notMem {x : Addr} (h : x ∉ span a l.length) : put m a l x = m x := by
  have hx : l.length ≤ (x - a).toNat := Nat.not_lt.mp h
  rw [put, List.getD_eq_getElem?_getD, List.getElem?_eq_none hx]
  rfl

@[simp] theorem put_nil (m : Mem) (a : Addr) : put m a [] = m := rfl

/-- **What was put is there**. Kind: L -/
theorem bytes_put_same (m : Mem) (a : Addr) (hl : l.length ≤ 2 ^ 64) :
    bytes (put m a l) a l.length = l := by
  refine List.ext_getElem? fun i => ?_
  by_cases hi : i < l.length
  · rw [getElem?_bytes hi, put, add_ofNat_sub_toNat a (by omega), List.getD_eq_getElem?_getD,
      List.getElem?_eq_getElem hi]
    rfl
  · have hle : l.length ≤ i := Nat.not_lt.mp hi
    rw [List.getElem?_eq_none (by rw [length_bytes]; exact hle), List.getElem?_eq_none hle]

/-- **Other ranges stay**. Kind: L -/
theorem bytes_put_of_disjoint (hn : n ≤ 2 ^ 64) (h : Disjoint (span a l.length) (span b n)) :
    bytes (put m a l) b n = bytes m b n :=
  bytes_congr hn fun _ hx => put_apply_of_notMem fun hxa => Set.disjoint_left.mp h hxa hx

theorem bytes_add (m : Mem) (a : Addr) (k n : ℕ) :
    bytes m a (k + n) = bytes m a k ++ bytes m (a + BitVec.ofNat 64 k) n := by
  simp only [bytes, List.range_add, List.map_append, List.map_map]
  refine congrArg (_ ++ ·) (List.map_congr_left fun i _ => ?_)
  show m (a + BitVec.ofNat 64 (k + i)) = m (a + BitVec.ofNat 64 k + BitVec.ofNat 64 i)
  rw [BitVec.ofNat_add, BitVec.add_assoc]

/-- A part of a range. Kind: L -/
theorem bytes_sub (h : bytes m a l.length = l) {j : ℕ} (hj : j + n ≤ l.length) :
    bytes m (a + BitVec.ofNat 64 j) n = slice l j n := by
  refine List.map_congr_left fun k hk => ?_
  have hk' := List.mem_range.mp hk
  have hget := getElem?_bytes (m := m) (a := a) (n := l.length) (i := j + k) (by omega)
  rw [h] at hget
  rw [List.getD_eq_getElem?_getD, hget, BitVec.add_assoc, ← BitVec.ofNat_add]
  rfl

/-- Ranges at offsets from one base, none of which goes round the ring. Kind: L -/
theorem disjoint_span_offsets (a : Addr) {x y : ℕ} (hx : x + n ≤ 2 ^ 64) (hy : y + k ≤ 2 ^ 64)
    (h : x + n ≤ y ∨ y + k ≤ x ∨ n = 0 ∨ k = 0) :
    Disjoint (span (a + BitVec.ofNat 64 x) n) (span (a + BitVec.ofNat 64 y) k) := by
  refine Set.disjoint_left.mpr fun z hz hz' => ?_
  have hz₁ : (z - (a + BitVec.ofNat 64 x)).toNat < n := hz
  have hz₂ : (z - (a + BitVec.ofNat 64 y)).toNat < k := hz'
  have hx' : (BitVec.ofNat 64 x).toNat = x := by
    rw [BitVec.toNat_ofNat, Nat.mod_eq_of_lt (by omega)]
  have hy' : (BitVec.ofNat 64 y).toNat = y := by
    rw [BitVec.toNat_ofNat, Nat.mod_eq_of_lt (by omega)]
  rw [BitVec.toNat_sub, BitVec.toNat_add, hx'] at hz₁
  rw [BitVec.toNat_sub, BitVec.toNat_add, hy'] at hz₂
  have ha := a.isLt
  have hz := z.isLt
  omega

/-- A range inside another. Kind: L -/
theorem span_sub (a : Addr) {j : ℕ} (hj : j + k ≤ n) (hn : n ≤ 2 ^ 64) :
    span (a + BitVec.ofNat 64 j) k ⊆ span a n := by
  intro z hz
  have hz₁ : (z - (a + BitVec.ofNat 64 j)).toNat < k := hz
  show (z - a).toNat < n
  have hj' : (BitVec.ofNat 64 j).toNat = j := by
    rw [BitVec.toNat_ofNat, Nat.mod_eq_of_lt (by omega)]
  rw [BitVec.toNat_sub, BitVec.toNat_add, hj'] at hz₁
  rw [BitVec.toNat_sub]
  have ha := a.isLt
  have hz := z.isLt
  omega

end ranges

/-! ## Stores -/

/-- The `n` low bytes of a word, the least significant one first. Kind: D -/
def wordBytes {w : ℕ} (v : BitVec w) (n : ℕ) : List (BitVec 8) :=
  (List.range n).map fun i => v.extractLsb' (8 * i) 8

section stores

variable {m : Mem} {a : Addr}

@[simp] theorem length_wordBytes {w : ℕ} (v : BitVec w) (n : ℕ) : (wordBytes v n).length = n := by
  simp [wordBytes]

theorem put_wordBytes_apply {w : ℕ} (v : BitVec w) (n : ℕ) (x : Addr) :
    put m a (wordBytes v n) x =
      if (x - a).toNat < n then v.extractLsb' (8 * (x - a).toNat) 8 else m x := by
  unfold put wordBytes
  rw [List.getD_eq_getElem?_getD, List.getElem?_map]
  by_cases hx : (x - a).toNat < n
  · rw [List.getElem?_range hx, if_pos hx]
    rfl
  · rw [List.getElem?_eq_none (by rw [List.length_range]; exact Nat.not_lt.mp hx), if_neg hx]
    rfl

theorem wordBytes_append_byte {w : ℕ} (x : BitVec w) (b : BitVec 8) (n : ℕ) :
    wordBytes (x ++ b) (n + 1) = b :: wordBytes x n := by
  unfold wordBytes
  rw [List.range_succ_eq_map, List.map_cons, List.map_map]
  have hb : (x ++ b).extractLsb' (8 * 0) 8 = b := BitVec.extractLsb'_append_eq_right
  rw [hb]
  refine congrArg (b :: ·) (List.map_congr_left fun i _ => ?_)
  show (x ++ b).extractLsb' (8 * (i + 1)) 8 = x.extractLsb' (8 * i) 8
  rw [BitVec.extractLsb'_append_eq_of_le (by omega), show 8 * (i + 1) - 8 = 8 * i by omega]

theorem wordBytes_append {w : ℕ} (x : BitVec w) (y : BitVec 64) (n : ℕ) :
    wordBytes (x ++ y) (8 + n) = wordBytes y 8 ++ wordBytes x n := by
  unfold wordBytes
  rw [List.range_add, List.map_append, List.map_map]
  refine congrArg₂ (· ++ ·) ?_ ?_
  · refine List.map_congr_left fun i hi => ?_
    have hi' := List.mem_range.mp hi
    exact BitVec.extractLsb'_append_eq_of_add_le (by omega)
  · refine List.map_congr_left fun i _ => ?_
    show (x ++ y).extractLsb' (8 * (8 + i)) 8 = _
    rw [BitVec.extractLsb'_append_eq_of_le (by omega), show 8 * (8 + i) - 64 = 8 * i by omega]

/-- The number of the bytes of a word. Kind: L -/
theorem leNat_wordBytes {w : ℕ} (v : BitVec w) (k : ℕ) :
    leNat (wordBytes v k) = v.toNat % 2 ^ (8 * k) := by
  induction k generalizing w v with
  | zero => simp [wordBytes, leNat, Nat.mod_one]
  | succ k ih =>
      have hsplit : wordBytes v (k + 1) = v.extractLsb' 0 8 :: wordBytes (v >>> 8) k := by
        unfold wordBytes
        rw [List.range_succ_eq_map, List.map_cons, List.map_map]
        refine congrArg (v.extractLsb' 0 8 :: ·) (List.map_congr_left fun i _ => ?_)
        apply BitVec.eq_of_getLsbD_eq
        intro j hj
        simp only [Function.comp_apply, BitVec.getLsbD_extractLsb', BitVec.getLsbD_ushiftRight]
        rw [show 8 * i.succ + j = 8 + (8 * i + j) by rw [Nat.succ_eq_add_one]; ring]
      have hlow : (v.extractLsb' 0 8).toNat = v.toNat % 2 ^ 8 := by
        simp [BitVec.extractLsb']
      rw [hsplit, leNat_cons, ih, hlow, BitVec.toNat_ushiftRight, Nat.shiftRight_eq_div_pow,
        show 8 * (k + 1) = 8 + 8 * k by ring, Nat.pow_add, Nat.mod_mul]

/-- A word is the number of its bytes. Kind: L -/
theorem toNat_eq_leNat {k : ℕ} (v : BitVec (8 * k)) : v.toNat = leNat (wordBytes v k) := by
  rw [leNat_wordBytes, Nat.mod_eq_of_lt v.isLt]

/-- The bytes of a word that was loaded. Kind: L -/
theorem wordBytes_load64 (m : Mem) (p : Addr) : wordBytes (load64 m p) 8 = bytes m p 8 := by
  unfold load64
  rw [wordBytes_append_byte, wordBytes_append_byte, wordBytes_append_byte, wordBytes_append_byte,
    wordBytes_append_byte, wordBytes_append_byte, wordBytes_append_byte]
  simp [wordBytes, bytes, List.range_succ]

theorem wordBytes_load128 (m : Mem) (p : Addr) : wordBytes (load128 m p) 16 = bytes m p 16 := by
  unfold load128
  rw [wordBytes_append _ _ 8, wordBytes_load64, wordBytes_load64, show (16 : ℕ) = 8 + 8 from rfl,
    bytes_add]
  rfl

theorem store32_eq_put (v : BitVec 32) : store32 m a v = put m a (wordBytes v 4) := by
  funext x
  rw [put_wordBytes_apply, store32]

theorem store64_eq_put (v : BitVec 64) : store64 m a v = put m a (wordBytes v 8) := by
  funext x
  rw [put_wordBytes_apply, store64]
  rfl

/-- Both halves of a 128-bit store. Kind: L -/
theorem store128_eq_put (v : BitVec 128) : store128 m a v = put m a (wordBytes v 16) := by
  funext x
  have hx := x.isLt
  have ha := a.isLt
  have hoff : (x - (a + 8)).toNat < 8 ↔ 8 ≤ (x - a).toNat ∧ (x - a).toNat < 16 := by
    rw [BitVec.toNat_sub, BitVec.toNat_add, BitVec.toNat_sub]
    show (2 ^ 64 - (a.toNat + 8) % 2 ^ 64 + x.toNat) % 2 ^ 64 < 8 ↔ _
    omega
  have hval : 8 ≤ (x - a).toNat ∧ (x - a).toNat < 16 →
      (x - (a + 8)).toNat = (x - a).toNat - 8 := by
    rw [BitVec.toNat_sub x a, BitVec.toNat_sub x (a + 8), BitVec.toNat_add]
    show _ → (2 ^ 64 - (a.toNat + 8) % 2 ^ 64 + x.toNat) % 2 ^ 64 = _
    omega
  rw [put_wordBytes_apply, store128, store64_eq_put, store64_eq_put, put_wordBytes_apply,
    put_wordBytes_apply]
  by_cases hhigh : 8 ≤ (x - a).toNat ∧ (x - a).toNat < 16
  · rw [if_pos (hoff.mpr hhigh), if_pos hhigh.2, hval hhigh]
    apply BitVec.eq_of_getLsbD_eq
    intro i hi
    simp only [BitVec.getLsbD_extractLsb']
    rw [show 64 + (8 * ((x - a).toNat - 8) + i) = 8 * (x - a).toNat + i by omega]
    have hlt : decide (8 * ((x - a).toNat - 8) + i < 64) = true := by
      rw [decide_eq_true_eq]
      omega
    rw [hlt, Bool.true_and]
  · rw [if_neg fun h => hhigh (hoff.mp h)]
    by_cases hlow : (x - a).toNat < 8
    · rw [if_pos hlow, if_pos (by omega)]
      apply BitVec.eq_of_getLsbD_eq
      intro i hi
      simp only [BitVec.getLsbD_extractLsb', Nat.zero_add]
      have hlt : decide (8 * (x - a).toNat + i < 64) = true := by
        rw [decide_eq_true_eq]
        omega
      rw [hlt, Bool.true_and]
    · rw [if_neg hlow, if_neg (by omega)]

end stores

/-! ## Columns -/

/-- A column of elements of one width. Kind: D -/
structure Column where
  base : Addr
  width : ℕ
  /-- The bytes of each element. -/
  elem : ℕ → List (BitVec 8)
  length_elem : ∀ i, (elem i).length = width

/-- The addresses of element `i`. Kind: D -/
def Column.at (c : Column) (i : ℕ) : Set Addr := span (c.base + BitVec.ofNat 64 (c.width * i)) c.width

/-- The memory with element `i`. Kind: D -/
def Column.put (c : Column) (i : ℕ) (m : Mem) : Mem :=
  Mem.put m (c.base + BitVec.ofNat 64 (c.width * i)) (c.elem i)

/-- One row: an element of each column. Kind: D -/
def putRow (cols : List Column) (i : ℕ) (m : Mem) : Mem := cols.foldl (fun m c => c.put i m) m

/-- The rows from `i` on, `n` of them. Kind: D -/
def putRows (cols : List Column) : ℕ → ℕ → Mem → Mem
  | _, 0, m => m
  | i, n + 1, m => putRows cols (i + 1) n (putRow cols i m)

/-- Columns of `n` rows that do not meet. Kind: D -/
structure ColumnsApart (cols : List Column) (n : ℕ) : Prop where
  fits : ∀ c ∈ cols, c.width * n ≤ 2 ^ 64
  apart : cols.Pairwise fun c d => Disjoint (span c.base (c.width * n)) (span d.base (d.width * n))

section columns

variable {cols : List Column} {c : Column} {n i : ℕ} {m : Mem}

theorem Column.at_subset (c : Column) {k : ℕ} (hk : k < n) (hn : c.width * n ≤ 2 ^ 64) :
    c.at k ⊆ span c.base (c.width * n) := by
  refine span_sub _ ?_ hn
  calc c.width * k + c.width = c.width * (k + 1) := by ring
    _ ≤ c.width * n := Nat.mul_le_mul_left _ hk

/-- Elements of one column do not meet. Kind: L -/
theorem Column.disjoint_at (c : Column) {j k : ℕ} (hjk : j ≠ k) (hj : j < n) (hk : k < n)
    (hn : c.width * n ≤ 2 ^ 64) : Disjoint (c.at j) (c.at k) := by
  have hstep : ∀ {x y : ℕ}, x < y → c.width * x + c.width ≤ c.width * y := by
    intro x y hxy
    calc c.width * x + c.width = c.width * (x + 1) := by ring
      _ ≤ c.width * y := Nat.mul_le_mul_left _ hxy
  refine disjoint_span_offsets _ ((hstep hj).trans hn) ((hstep hk).trans hn) ?_
  rcases Nat.lt_or_gt_of_ne hjk with h | h
  · exact Or.inl (hstep h)
  · exact Or.inr (Or.inl (hstep h))

theorem ColumnsApart.disjoint {d : Column} (h : ColumnsApart cols n) (hc : c ∈ cols) (hd : d ∈ cols)
    (hcd : c ≠ d) : Disjoint (span c.base (c.width * n)) (span d.base (d.width * n)) := by
  have : Std.Symm fun c d : Column =>
      Disjoint (span c.base (c.width * n)) (span d.base (d.width * n)) := ⟨fun _ _ h => h.symm⟩
  exact h.apart.forall hc hd hcd

theorem Column.put_apply (c : Column) {x : Addr} (hx : x ∉ c.at i) : c.put i m x = m x := by
  refine put_apply_of_notMem ?_
  rw [c.length_elem]
  exact hx

/-- A row changes only its elements. Kind: L -/
theorem putRow_apply {x : Addr} (hx : ∀ c ∈ cols, x ∉ c.at i) : putRow cols i m x = m x := by
  unfold putRow
  induction cols generalizing m with
  | nil => rfl
  | cons c cols ih =>
      rw [List.foldl_cons, ih fun d hd => hx d (List.mem_cons_of_mem _ hd)]
      exact c.put_apply (hx c List.mem_cons_self)

/-- **Rows change only their elements**. Kind: L -/
theorem putRows_apply {x : Addr} (hx : ∀ c ∈ cols, ∀ k, i ≤ k → k < i + n → x ∉ c.at k) :
    putRows cols i n m x = m x := by
  induction n generalizing i m with
  | zero => rfl
  | succ n ih =>
      rw [putRows, ih fun c hc k hik hk => hx c hc k (by omega) (by omega)]
      exact putRow_apply fun c hc => hx c hc i (le_refl i) (by omega)

/-- An element of the row that was written. Kind: L -/
theorem bytes_putRow (h : ColumnsApart cols n) (hi : i < n) (hc : c ∈ cols) :
    bytes (putRow cols i m) (c.base + BitVec.ofNat 64 (c.width * i)) c.width = c.elem i := by
  obtain ⟨hfits, hapart⟩ := h
  unfold putRow
  induction cols generalizing m with
  | nil => exact absurd hc List.not_mem_nil
  | cons d cols ih =>
      obtain ⟨hd, hcols⟩ := List.pairwise_cons.mp hapart
      rw [List.foldl_cons]
      rcases List.mem_cons.mp hc with rfl | hc
      · -- the other columns of the row come later
        have hw : c.width ≤ 2 ^ 64 := by
          refine le_trans ?_ (hfits c List.mem_cons_self)
          exact Nat.le_mul_of_pos_right _ (Nat.zero_lt_of_lt hi)
        have hkeep : bytes (putRow cols i (c.put i m)) (c.base + BitVec.ofNat 64 (c.width * i))
            c.width = bytes (c.put i m) (c.base + BitVec.ofNat 64 (c.width * i)) c.width := by
          refine bytes_congr hw fun x hx => putRow_apply fun e he hxe => ?_
          have hxc := c.at_subset hi (hfits c List.mem_cons_self) hx
          have hxe' := e.at_subset hi (hfits e (List.mem_cons_of_mem _ he)) hxe
          exact Set.disjoint_left.mp (hd e he) hxc hxe'
        have hsame := bytes_put_same m (c.base + BitVec.ofNat 64 (c.width * i)) (l := c.elem i)
          (by rw [c.length_elem]; exact hw)
        rw [c.length_elem] at hsame
        exact hkeep.trans hsame
      · exact ih hc (fun e he => hfits e (List.mem_cons_of_mem _ he)) hcols

/-- **Every element that was written is there**. Kind: P -/
theorem bytes_putRows (h : ColumnsApart cols n) {r : ℕ} (hr : i + r ≤ n) {k : ℕ} (hik : i ≤ k)
    (hk : k < i + r) (hc : c ∈ cols) :
    bytes (putRows cols i r m) (c.base + BitVec.ofNat 64 (c.width * k)) c.width = c.elem k := by
  induction r generalizing i m with
  | zero => omega
  | succ r ih =>
      rw [putRows]
      by_cases hki : k = i
      · subst hki
        have hw : c.width ≤ 2 ^ 64 := by
          refine le_trans ?_ (h.fits c hc)
          exact Nat.le_mul_of_pos_right _ (by omega)
        -- the later rows do not touch this one
        have hkeep : bytes (putRows cols (k + 1) r (putRow cols k m))
            (c.base + BitVec.ofNat 64 (c.width * k)) c.width =
            bytes (putRow cols k m) (c.base + BitVec.ofNat 64 (c.width * k)) c.width := by
          refine bytes_congr hw fun x hx => putRows_apply fun d hd j hkj hj hxd => ?_
          by_cases hcd : c = d
          · subst hcd
            exact Set.disjoint_left.mp (c.disjoint_at (by omega) (by omega : k < n)
              (by omega : j < n) (h.fits c hc)) hx hxd
          · have hxc := c.at_subset (by omega : k < n) (h.fits c hc) hx
            have hxd' := d.at_subset (by omega : j < n) (h.fits d hd) hxd
            exact Set.disjoint_left.mp (h.disjoint hc hd hcd) hxc hxd'
        rw [hkeep]
        exact bytes_putRow h (by omega) hc
      · exact ih (by omega) (by omega) (by omega)

end columns

end Mem

end Octiron.Found
