import Mathlib.Tactic
import Mathlib.Algebra.BigOperators.Intervals
import Mathlib.Order.Interval.Finset.Nat

/-!
# Extents

Ranges of integers given by a base and a size, the lists of them that an allocator keeps, and what
taking a range out of one of them does to the list.

* `Extent`, `Extent.bytes` — a range and its elements; an empty one is allowed.
* `cover es x` — in how many of the ranges `x` is. Lists of ranges that are cut, moved from one list to
  another and taken apart are compared by it: `cover_append`, `cover_carve`.
* `Ordered` — ascending, each range ending where the next starts or before.
* `Partitions pieces wholes` — the pieces do not meet and have the elements of the wholes.
* `carve e a s` — what is left of `e` when the `s` elements from `a` on are taken.
* `IsFirstFit es s n a` — `a` is the lowest place for `s` elements at a multiple of `n` in the first
  range that has one.
* **Main results** (`partitions_of_cover`, `sum_size_le`, `Ordered.carve`, `sum_size_carve`).
-/

namespace Octiron.Found

/-- The range of `size` integers from `base` on. Kind: D -/
structure Extent where
  base : ℕ
  size : ℕ
  deriving DecidableEq

namespace Extent

/-- The first integer above the range. Kind: D -/
def upper (e : Extent) : ℕ := e.base + e.size

/-- The elements. Kind: D -/
def bytes (e : Extent) : Finset ℕ := Finset.Ico e.base e.upper

/-- Source: none: infrastructure. Kind: L -/
@[simp] theorem mem_bytes {e : Extent} {x : ℕ} : x ∈ e.bytes ↔ e.base ≤ x ∧ x < e.upper :=
  Finset.mem_Ico

/-- Source: none: infrastructure. Kind: L -/
@[simp] theorem card_bytes (e : Extent) : e.bytes.card = e.size := by
  rw [bytes, Nat.card_Ico, upper, Nat.add_sub_cancel_left]

/-- A range that starts where another ends, or later, does not meet it. Kind: L -/
theorem disjoint_of_le {e f : Extent} (h : e.upper ≤ f.base) : Disjoint e.bytes f.bytes := by
  rw [Finset.disjoint_left]
  intro x he hf
  rw [mem_bytes] at he hf
  omega

end Extent

/-! ## Covers -/

/-- The number of ranges of the list that `x` is in. Kind: D -/
def cover (es : List Extent) (x : ℕ) : ℕ := es.countP fun e => decide (x ∈ e.bytes)

/-- No two ranges of the list meet. Kind: D -/
def Separate (es : List Extent) : Prop := es.Pairwise fun e f => Disjoint e.bytes f.bytes

section cover

variable {es fs : List Extent} {e : Extent} {x N : ℕ}

@[simp] theorem cover_nil (x : ℕ) : cover [] x = 0 := rfl

theorem cover_cons (e : Extent) (es : List Extent) (x : ℕ) :
    cover (e :: es) x = cover [e] x + cover es x := by
  rw [cover, List.countP_cons, cover, cover, List.countP_singleton, Nat.add_comm]

@[simp] theorem cover_append (es fs : List Extent) (x : ℕ) :
    cover (es ++ fs) x = cover es x + cover fs x := List.countP_append

theorem cover_singleton (e : Extent) (x : ℕ) : cover [e] x = if x ∈ e.bytes then 1 else 0 := by
  rw [cover, List.countP_singleton]
  simp only [decide_eq_true_eq]

theorem cover_pos_iff : 0 < cover es x ↔ ∃ e ∈ es, x ∈ e.bytes := by
  rw [cover, List.countP_pos_iff]
  simp only [decide_eq_true_eq]

/-- Where no element is covered twice the ranges do not meet. Kind: L -/
theorem separate_of_cover_le_one (h : ∀ x, cover es x ≤ 1) : Separate es := by
  induction es with
  | nil => exact List.Pairwise.nil
  | cons e es ih =>
      refine List.Pairwise.cons ?_ (ih fun x => ?_)
      · intro f hf
        rw [Finset.disjoint_left]
        intro x he hfx
        have hone := h x
        rw [cover_cons, cover_singleton, if_pos he] at hone
        have hpos : 0 < cover es x := cover_pos_iff.mpr ⟨f, hf, hfx⟩
        omega
      · have hone := h x
        rw [cover_cons] at hone
        omega

/-- Ranges that do not meet cover no element twice. Kind: L -/
theorem Separate.cover_le_one (h : Separate es) (x : ℕ) : cover es x ≤ 1 := by
  induction es with
  | nil => exact Nat.zero_le 1
  | cons e es ih =>
      obtain ⟨hhead, htail⟩ := List.pairwise_cons.mp h
      rw [cover_cons, cover_singleton]
      by_cases hx : x ∈ e.bytes
      · have hzero : cover es x = 0 := by
          by_contra hne
          obtain ⟨f, hf, hxf⟩ := cover_pos_iff.mp (Nat.pos_of_ne_zero hne)
          exact Finset.disjoint_left.mp (hhead f hf) hx hxf
        rw [if_pos hx, hzero]
      · rw [if_neg hx, Nat.zero_add]
        exact ih htail

/-- The sizes are the elements counted with the ranges they are in. Kind: L -/
theorem sum_size_eq_sum_cover (hN : ∀ e ∈ es, e.upper ≤ N) :
    (es.map Extent.size).sum = ∑ x ∈ Finset.range N, cover es x := by
  induction es with
  | nil => simp
  | cons e es ih =>
      have hle : e.upper ≤ N := hN e List.mem_cons_self
      have hone : ∑ x ∈ Finset.range N, cover [e] x = e.size := by
        simp only [cover_singleton]
        rw [Finset.sum_boole, Nat.cast_id, ← e.card_bytes]
        congr 1
        ext x
        rw [Finset.mem_filter, Finset.mem_range]
        constructor
        · exact fun hx => hx.2
        · intro hx
          exact ⟨lt_of_lt_of_le (Extent.mem_bytes.mp hx).2 hle, hx⟩
      simp only [cover_cons e es, Finset.sum_add_distrib]
      rw [List.map_cons, List.sum_cons, hone, ih fun f hf => hN f (List.mem_cons_of_mem _ hf)]

/-- **Ranges below `N` that do not meet** have at most `N` elements. Kind: L -/
theorem Separate.sum_size_le (h : Separate es) (hN : ∀ e ∈ es, e.upper ≤ N) :
    (es.map Extent.size).sum ≤ N := by
  rw [sum_size_eq_sum_cover hN]
  calc ∑ x ∈ Finset.range N, cover es x ≤ ∑ _x ∈ Finset.range N, 1 :=
        Finset.sum_le_sum fun x _ => h.cover_le_one x
    _ = N := by simp

/-- **Ranges between `lo` and `hi` that do not meet** fit in between. Kind: L -/
theorem Separate.sum_size_le_sub {lo hi : ℕ} (h : Separate es)
    (hin : ∀ e ∈ es, lo ≤ e.base ∧ e.upper ≤ hi) (hle : lo ≤ hi) :
    lo + (es.map Extent.size).sum ≤ hi := by
  have hsep : Separate (⟨0, lo⟩ :: es) := by
    refine List.pairwise_cons.mpr ⟨fun e he => Extent.disjoint_of_le ?_, h⟩
    simpa [Extent.upper] using (hin e he).1
  have hsum := hsep.sum_size_le (N := hi) ?_
  · simpa using hsum
  · refine List.forall_mem_cons.mpr ⟨?_, fun e he => (hin e he).2⟩
    simpa [Extent.upper] using hle

/-- **Ranges between `lo` and `hi` that do not meet** and have `hi - lo` elements leave none out.
Kind: L -/
theorem Separate.covers {lo hi : ℕ} (h : Separate es)
    (hin : ∀ e ∈ es, lo ≤ e.base ∧ e.upper ≤ hi) (hsum : hi ≤ lo + (es.map Extent.size).sum)
    (hlow : lo ≤ x) (hhigh : x < hi) : ∃ e ∈ es, x ∈ e.bytes := by
  by_contra hno
  have hone : ∀ y, y ∈ (⟨x, 1⟩ : Extent).bytes → y = x := by
    intro y hy
    rw [Extent.mem_bytes, Extent.upper] at hy
    dsimp only at hy
    omega
  -- the element itself would fit in, too
  have hsep : Separate (⟨x, 1⟩ :: es) := by
    refine List.pairwise_cons.mpr ⟨fun e he => ?_, h⟩
    refine Finset.disjoint_left.mpr fun y hy hye => hno ⟨e, he, ?_⟩
    rw [← hone y hy]
    exact hye
  have hle := hsep.sum_size_le_sub (List.forall_mem_cons.mpr ⟨⟨hlow, hhigh⟩, hin⟩) (by omega)
  simp only [List.map_cons, List.sum_cons] at hle
  omega

end cover

/-! ## Partitions -/

/-- **A partition**: the pieces do not meet, and they have the elements of the wholes. Kind: D -/
structure Partitions (pieces wholes : List Extent) : Prop where
  separate : Separate pieces
  mem_iff : ∀ x, (∃ e ∈ pieces, x ∈ e.bytes) ↔ ∃ e ∈ wholes, x ∈ e.bytes

/-- Pieces that cover as the wholes do are a partition of them. Kind: L -/
theorem partitions_of_cover {pieces wholes : List Extent} (h : Separate wholes)
    (hcover : ∀ x, cover pieces x = cover wholes x) : Partitions pieces wholes := by
  refine ⟨separate_of_cover_le_one fun x => ?_, fun x => ?_⟩
  · rw [hcover]
    exact h.cover_le_one x
  · rw [← cover_pos_iff, ← cover_pos_iff, hcover]

/-! ## Ordered lists and carving -/

/-- Ascending, and not meeting. Kind: D -/
def Ordered (es : List Extent) : Prop := es.Pairwise fun e f => e.upper ≤ f.base

/-- What is left of `e` without the `s` elements from `a` on. Kind: D -/
def carve (e : Extent) (a s : ℕ) : List Extent :=
  (if e.base ≠ a then [⟨e.base, a - e.base⟩] else []) ++
    if a + s < e.upper then [⟨a + s, e.upper - (a + s)⟩] else []

section carve

variable {e : Extent} {a s : ℕ}

/-- The two ranges that can be left. Kind: L -/
theorem mem_carve {f : Extent} : f ∈ carve e a s ↔
    (e.base ≠ a ∧ f = ⟨e.base, a - e.base⟩) ∨
      (a + s < e.upper ∧ f = ⟨a + s, e.upper - (a + s)⟩) := by
  rw [carve, List.mem_append]
  by_cases hpre : e.base = a <;> by_cases hpost : a + s < e.upper <;> simp [hpre, hpost]

/-- **What is taken and what is left** cover what there was. Kind: L -/
theorem cover_carve (ha : e.base ≤ a) (hs : a + s ≤ e.upper) (x : ℕ) :
    cover (carve e a s) x + cover [⟨a, s⟩] x = cover [e] x := by
  have hpre : cover (if e.base ≠ a then [⟨e.base, a - e.base⟩] else []) x =
      if e.base ≤ x ∧ x < a then 1 else 0 := by
    by_cases hne : e.base ≠ a
    · rw [if_pos hne, cover_singleton]
      simp only [Extent.mem_bytes, Extent.upper, Nat.add_sub_cancel' ha]
    · rw [if_neg hne, cover_nil, if_neg]
      omega
  have hpost : cover (if a + s < e.upper then [⟨a + s, e.upper - (a + s)⟩] else []) x =
      if a + s ≤ x ∧ x < e.upper then 1 else 0 := by
    by_cases hlt : a + s < e.upper
    · rw [if_pos hlt, cover_singleton]
      have hupper : Extent.upper ⟨a + s, e.upper - (a + s)⟩ = e.upper := Nat.add_sub_cancel' hs
      simp only [Extent.mem_bytes, hupper]
    · rw [if_neg hlt, cover_nil, if_neg]
      omega
  rw [carve, cover_append, hpre, hpost, cover_singleton, cover_singleton]
  have hmid : x ∈ Extent.bytes ⟨a, s⟩ ↔ a ≤ x ∧ x < a + s := Extent.mem_bytes
  rcases Nat.lt_or_ge x a with hlow | hlow
  · rw [if_neg (c := a + s ≤ x ∧ _) (by omega), if_neg (c := x ∈ _) (by rw [hmid]; omega)]
    by_cases hx : e.base ≤ x
    · rw [if_pos ⟨hx, hlow⟩, if_pos (Extent.mem_bytes.mpr ⟨hx, by omega⟩)]
    · rw [if_neg (fun hh => hx hh.1), if_neg (fun hh => hx (Extent.mem_bytes.mp hh).1)]
  · rw [if_neg (c := e.base ≤ x ∧ _) (by omega)]
    rcases Nat.lt_or_ge x (a + s) with hhigh | hhigh
    · rw [if_neg (c := a + s ≤ x ∧ _) (by omega), if_pos (hmid.mpr ⟨hlow, hhigh⟩),
        if_pos (Extent.mem_bytes.mpr ⟨by omega, by omega⟩)]
    · rw [if_neg (c := x ∈ Extent.bytes ⟨a, s⟩) (by rw [hmid]; omega)]
      by_cases hx : x < e.upper
      · rw [if_pos ⟨hhigh, hx⟩, if_pos (Extent.mem_bytes.mpr ⟨by omega, hx⟩)]
      · rw [if_neg (fun hh => hx hh.2), if_neg (fun hh => hx (Extent.mem_bytes.mp hh).2)]

/-- Source: none: infrastructure. Kind: L -/
theorem sum_size_carve (ha : e.base ≤ a) (hs : a + s ≤ e.upper) :
    ((carve e a s).map Extent.size).sum + s = e.size := by
  have hpre : ((if e.base ≠ a then [(⟨e.base, a - e.base⟩ : Extent)] else []).map
      Extent.size).sum = a - e.base := by
    by_cases hne : e.base = a
    · simp [hne]
    · simp [hne]
  have hpost : ((if a + s < e.upper then [(⟨a + s, e.upper - (a + s)⟩ : Extent)] else []).map
      Extent.size).sum = e.upper - (a + s) := by
    by_cases hlt : a + s < e.upper
    · simp [hlt]
    · rw [if_neg hlt, Nat.sub_eq_zero_of_le (Nat.not_lt.mp hlt)]
      rfl
  rw [carve, List.map_append, List.sum_append, hpre, hpost]
  unfold Extent.upper at hs ⊢
  omega

/-- What is left lies in what there was, and is not empty. Kind: L -/
theorem carve_inside (ha : e.base ≤ a) (hs : a + s ≤ e.upper) {f : Extent} (hf : f ∈ carve e a s) :
    e.base ≤ f.base ∧ f.upper ≤ e.upper ∧ 0 < f.size := by
  rcases mem_carve.mp hf with ⟨hne, rfl⟩ | ⟨hlt, rfl⟩ <;> simp only [Extent.upper] at * <;> omega

/-- Carving at multiples of `n` leaves ranges between multiples of `n`. Kind: L -/
theorem dvd_of_mem_carve {n : ℕ} (hbase : n ∣ e.base) (hsize : n ∣ e.size) (ha : n ∣ a)
    (hs : n ∣ s) {f : Extent} (hf : f ∈ carve e a s) : n ∣ f.base ∧ n ∣ f.size := by
  rcases mem_carve.mp hf with ⟨-, rfl⟩ | ⟨-, rfl⟩
  · exact ⟨hbase, Nat.dvd_sub ha hbase⟩
  · exact ⟨Nat.dvd_add ha hs, Nat.dvd_sub (Nat.dvd_add hbase hsize) (Nat.dvd_add ha hs)⟩

/-- What is left, in the place of what there was, keeps a list in order. Kind: L -/
theorem Ordered.carve {pre post : List Extent} (h : Ordered (pre ++ e :: post)) (ha : e.base ≤ a)
    (hs : a + s ≤ e.upper) : Ordered (pre ++ carve e a s ++ post) := by
  unfold Ordered at h ⊢
  rw [List.pairwise_append, List.pairwise_cons] at h
  obtain ⟨hpre, ⟨hepost, hpost⟩, hcross⟩ := h
  have hcarve : (Found.carve e a s).Pairwise fun f g => f.upper ≤ g.base := by
    rw [Found.carve, List.pairwise_append]
    refine ⟨?_, ?_, ?_⟩
    · by_cases hne : e.base = a <;> simp [hne]
    · by_cases hlt : a + s < e.upper <;> simp [hlt]
    · intro f hf g hg
      by_cases hne : e.base = a
      · simp [hne] at hf
      · by_cases hlt : a + s < e.upper
        · simp only [ne_eq, hne, not_false_eq_true, if_true, List.mem_singleton, hlt] at hf hg
          subst hf hg
          simp only [Extent.upper]
          omega
        · simp [hlt] at hg
  rw [List.append_assoc, List.pairwise_append, List.pairwise_append]
  refine ⟨hpre, ⟨hcarve, hpost, ?_⟩, ?_⟩
  · intro f hf g hg
    exact (carve_inside ha hs hf).2.1.trans (hepost g hg)
  · intro f hf g hg
    rcases List.mem_append.mp hg with hg | hg
    · exact (hcross f hf e List.mem_cons_self).trans (carve_inside ha hs hg).1
    · exact hcross f hf g (List.mem_cons_of_mem _ hg)

end carve

/-! ## First fit -/

/-- Where in `e` a range of `s` elements at a multiple of `n` can be. Kind: D -/
def Extent.places (e : Extent) (s n : ℕ) : Set ℕ := {a | n ∣ a ∧ e.base ≤ a ∧ a + s ≤ e.upper}

/-- **First fit**: the lowest place in the first range of the list that has one. Kind: D -/
def IsFirstFit (es : List Extent) (s n a : ℕ) : Prop :=
  ∃ pre e post, es = pre ++ e :: post ∧ (∀ f ∈ pre, f.places s n = ∅) ∧ IsLeast (e.places s n) a

section places

variable {e : Extent} {s n a : ℕ}

/-- A range in `e` is no larger than `e`. Kind: L -/
theorem Extent.size_le_of_mem_places (h : a ∈ e.places s n) : s ≤ e.size := by
  obtain ⟨-, hbase, hupper⟩ := h
  unfold Extent.upper at hupper
  omega

/-- A list that is smaller than the range altogether has no place for it. Kind: L -/
theorem Extent.places_eq_empty_of_sum_lt {es : List Extent} (he : e ∈ es)
    (hlt : (es.map Extent.size).sum < s) : e.places s n = ∅ := by
  rw [Set.eq_empty_iff_forall_notMem]
  intro a ha
  have hle := Extent.size_le_of_mem_places ha
  have hsum : e.size ≤ (es.map Extent.size).sum :=
    List.single_le_sum (fun _ _ => Nat.zero_le _) _ (List.mem_map_of_mem he)
  omega

/-- The first multiple of `n` at or above the base is below every other one. Kind: L -/
theorem Extent.roundUp_le (hn : 0 < n) (hdvd : n ∣ a) (hbase : e.base ≤ a) :
    (e.base + (n - 1)) / n * n ≤ a := by
  obtain ⟨k, rfl⟩ := hdvd
  have hlt : e.base + (n - 1) < (k + 1) * n := by
    rw [Nat.add_one_mul, Nat.mul_comm k n]
    omega
  have hk : (e.base + (n - 1)) / n ≤ k := Nat.lt_succ_iff.mp ((Nat.div_lt_iff_lt_mul hn).mpr hlt)
  rw [Nat.mul_comm n k]
  exact Nat.mul_le_mul_right n hk

/-- Source: none: infrastructure. Kind: L -/
theorem Extent.le_roundUp (hn : 0 < n) : e.base ≤ (e.base + (n - 1)) / n * n := by
  have hdiv := Nat.div_add_mod (e.base + (n - 1)) n
  have hmod := Nat.mod_lt (e.base + (n - 1)) hn
  rw [Nat.mul_comm] at hdiv
  omega

/-- **The lowest place** is the first multiple at or above the base, if there is one. Kind: L -/
theorem Extent.isLeast_places (hn : 0 < n) (h : (e.base + (n - 1)) / n * n + s ≤ e.upper) :
    IsLeast (e.places s n) ((e.base + (n - 1)) / n * n) :=
  ⟨⟨Nat.dvd_mul_left _ _, Extent.le_roundUp hn, h⟩,
    fun _ ha => Extent.roundUp_le hn ha.1 ha.2.1⟩

/-- Source: none: infrastructure. Kind: L -/
theorem Extent.places_eq_empty_iff (hn : 0 < n) :
    e.places s n = ∅ ↔ ¬ (e.base + (n - 1)) / n * n + s ≤ e.upper := by
  constructor
  · intro hempty hfits
    have hmem := (Extent.isLeast_places hn hfits).1
    rw [hempty] at hmem
    exact hmem
  · intro hno
    rw [Set.eq_empty_iff_forall_notMem]
    intro a ha
    have hle := Extent.roundUp_le hn ha.1 ha.2.1
    exact hno ((Nat.add_le_add_right hle s).trans ha.2.2)

end places

end Octiron.Found
