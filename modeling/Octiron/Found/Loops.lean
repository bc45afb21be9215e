import Mathlib.Tactic

/-!
# Counting loops with early exits

The loop `for (x = start; x < stop; x += step) body` over machine words, with a body that may leave it.

* `countLoop` — the loop, for a bounded number of rounds.
* `runEach` — the body on the elements of a list, up to the first that leaves.
* `counts step n x` — the values `x`, `x + step`, … of the variable.
* **Main result** (`countLoop_eq_runEach`): a loop whose variable does not wrap is a run over the list
  of its values, so that a proof about it is an induction over a list.
* `countLoop_of_left` — a loop that is left while its guard holds, whether its variable wraps or not.
-/

namespace Octiron.Found

variable {w : ℕ} {α S ε : Type}

/-- How a loop ends. Kind: D -/
inductive LoopEnd (ε : Type)
  | finished
  /-- The body leaves the loop. -/
  | left (e : ε)
  /-- The bound on the rounds is reached. -/
  | endless
  deriving DecidableEq

/-- Kind: D -/
def LoopEnd.ofOption : Option ε → LoopEnd ε
  | none => .finished
  | some e => .left e

@[simp] theorem LoopEnd.ofOption_none : LoopEnd.ofOption (none : Option ε) = .finished := rfl

@[simp] theorem LoopEnd.ofOption_some (e : ε) : LoopEnd.ofOption (some e) = .left e := rfl

/-- The loop from `x` on, for at most the given number of rounds. Kind: D -/
def countLoop (step stop : BitVec w) (body : BitVec w → S → S × Option ε) :
    ℕ → BitVec w → S → S × LoopEnd ε
  | 0, _, s => (s, .endless)
  | n + 1, x, s =>
      if x < stop then
        match body x s with
        | (s, some e) => (s, .left e)
        | (s, none) => countLoop step stop body n (x + step) s
      else (s, .finished)

/-- The body on every element of a list, up to the first one that leaves. Kind: D -/
def runEach (body : α → S → S × Option ε) : List α → S → S × Option ε
  | [], s => (s, none)
  | a :: l, s =>
      match body a s with
      | (s, some e) => (s, some e)
      | (s, none) => runEach body l s

/-- The first `n` values of the variable. Kind: D -/
def counts (step : BitVec w) : ℕ → BitVec w → List (BitVec w)
  | 0, _ => []
  | n + 1, x => x :: counts step n (x + step)

section runs

variable {body : α → S → S × Option ε} {a : α} {l : List α} {s s' : S} {e : ε}

theorem runEach_cons_of_none (h : body a s = (s', none)) :
    runEach body (a :: l) s = runEach body l s' := by
  simp only [runEach, h]

theorem runEach_cons_of_some (h : body a s = (s', some e)) :
    runEach body (a :: l) s = (s', some e) := by
  simp only [runEach, h]

/-- A run over two lists whose first part is not left. Kind: L -/
theorem runEach_append_of_none {l' : List α} (h : runEach body l s = (s', none)) :
    runEach body (l ++ l') s = runEach body l' s' := by
  induction l generalizing s with
  | nil =>
      cases h
      rfl
  | cons a l ih =>
      rw [List.cons_append]
      rcases hb : body a s with ⟨t, _ | e⟩
      · rw [runEach_cons_of_none hb] at h ⊢
        exact ih h
      · rw [runEach_cons_of_some hb] at h
        cases h

/-- A run over two lists whose first part is left. Kind: L -/
theorem runEach_append_of_some {l' : List α} (h : runEach body l s = (s', some e)) :
    runEach body (l ++ l') s = (s', some e) := by
  induction l generalizing s with
  | nil => cases h
  | cons a l ih =>
      rw [List.cons_append]
      rcases hb : body a s with ⟨t, _ | e'⟩
      · rw [runEach_cons_of_none hb] at h ⊢
        exact ih h
      · rw [runEach_cons_of_some hb] at h ⊢
        exact h

/-- What the body keeps, a run keeps. Kind: L -/
theorem runEach_keeps {I : S → Prop} (hbody : ∀ a s, I s → I (body a s).1) (h : I s) :
    I (runEach body l s).1 := by
  induction l generalizing s with
  | nil => exact h
  | cons a l ih =>
      have ha := hbody a s h
      rcases hb : body a s with ⟨t, _ | e⟩
      · rw [runEach_cons_of_none hb]
        rw [hb] at ha
        exact ih ha
      · rw [runEach_cons_of_some hb]
        rw [hb] at ha
        exact ha

/-- A run over a mapped list. Kind: L -/
theorem runEach_map {β : Type} (f : β → α) (l : List β) (s : S) :
    runEach body (l.map f) s = runEach (fun b => body (f b)) l s := by
  induction l generalizing s with
  | nil => rfl
  | cons b l ih =>
      rw [List.map_cons]
      rcases hb : body (f b) s with ⟨t, _ | e⟩
      · simp only [runEach, hb, ih]
      · simp only [runEach, hb]

end runs

/-! ## The values of the variable -/

section values

variable {step x y : BitVec w} {n : ℕ}

/-- The values, by the number of the round. Kind: L -/
theorem counts_eq_map (step : BitVec w) (n : ℕ) (x : BitVec w) :
    counts step n x = (List.range n).map fun i => x + BitVec.ofNat w i * step := by
  induction n generalizing x with
  | zero => rfl
  | succ n ih =>
      rw [counts, ih, List.range_succ_eq_map, List.map_cons, List.map_map]
      congr 1
      · simp
      · apply List.map_congr_left
        intro i _
        have hone : BitVec.ofNat w 1 * step = step := BitVec.one_mul step
        rw [Function.comp_apply, ← Nat.add_one, Nat.add_comm i 1, BitVec.ofNat_add, BitVec.add_mul,
          hone, BitVec.add_assoc]

/-- The values, as integers, when they do not wrap. Kind: L -/
theorem mem_counts_iff (hfit : x.toNat + n * step.toNat < 2 ^ w) :
    y ∈ counts step n x ↔ ∃ i < n, y.toNat = x.toNat + i * step.toNat := by
  induction n generalizing x with
  | zero => simp [counts]
  | succ n ih =>
      have hsucc : (n + 1) * step.toNat = step.toNat + n * step.toNat := by ring
      rw [hsucc] at hfit
      have hnext : (x + step).toNat = x.toNat + step.toNat := by
        rw [BitVec.toNat_add, Nat.mod_eq_of_lt (by omega)]
      rw [counts, List.mem_cons, ih (by rw [hnext]; omega), hnext]
      constructor
      · rintro (rfl | ⟨i, hi, hy⟩)
        · exact ⟨0, Nat.succ_pos n, by simp⟩
        · exact ⟨i + 1, Nat.succ_lt_succ hi, by rw [hy]; ring⟩
      · rintro ⟨_ | i, hi, hy⟩
        · left
          apply BitVec.eq_of_toNat_eq
          simpa using hy
        · right
          exact ⟨i, Nat.lt_of_succ_lt_succ hi, by rw [hy]; ring⟩

/-- The values are different. Kind: L -/
theorem nodup_counts (hstep : 0 < step.toNat) (hfit : x.toNat + n * step.toNat < 2 ^ w) :
    (counts step n x).Nodup := by
  induction n generalizing x with
  | zero => exact List.nodup_nil
  | succ n ih =>
      have hsucc : (n + 1) * step.toNat = step.toNat + n * step.toNat := by ring
      rw [hsucc] at hfit
      have hnext : (x + step).toNat = x.toNat + step.toNat := by
        rw [BitVec.toNat_add, Nat.mod_eq_of_lt (by omega)]
      have hfit' : (x + step).toNat + n * step.toNat < 2 ^ w := by
        rw [hnext]
        omega
      refine List.nodup_cons.mpr ⟨fun hmem => ?_, ih hfit'⟩
      obtain ⟨i, -, hx⟩ := (mem_counts_iff hfit').mp hmem
      rw [hnext] at hx
      omega

end values

section loop

variable {step stop : BitVec w} {body : BitVec w → S → S × Option ε}

/-- **A loop whose variable does not wrap** is a run over its values. Kind: P -/
theorem countLoop_eq_runEach {n : ℕ} :
    ∀ {rounds : ℕ} {x : BitVec w} {s : S}, n < rounds → x.toNat + n * step.toNat < 2 ^ w →
      stop.toNat ≤ x.toNat + n * step.toNat →
      (∀ i < n, x.toNat + i * step.toNat < stop.toNat) →
      countLoop step stop body rounds x s =
        ((runEach body (counts step n x) s).1,
          LoopEnd.ofOption (runEach body (counts step n x) s).2) := by
  induction n with
  | zero =>
      intro rounds x s hrounds hfit hstop hlt
      obtain ⟨k, rfl⟩ : ∃ k, rounds = k + 1 := ⟨rounds - 1, by omega⟩
      have hge : ¬ x < stop := by
        rw [BitVec.lt_def]
        omega
      rw [countLoop, if_neg hge]
      rfl
  | succ n ih =>
      intro rounds x s hrounds hfit hstop hlt
      obtain ⟨k, rfl⟩ : ∃ k, rounds = k + 1 := ⟨rounds - 1, by omega⟩
      have hsucc : (n + 1) * step.toNat = step.toNat + n * step.toNat := by ring
      rw [hsucc] at hfit hstop
      have hx : x < stop := by
        have := hlt 0 (Nat.succ_pos n)
        rw [BitVec.lt_def]
        omega
      have hnext : (x + step).toNat = x.toNat + step.toNat := by
        rw [BitVec.toNat_add, Nat.mod_eq_of_lt (by omega)]
      rw [countLoop, if_pos hx, counts]
      rcases hb : body x s with ⟨t, _ | e⟩
      · rw [runEach_cons_of_none hb]
        refine ih (Nat.lt_of_succ_lt_succ hrounds) (by rw [hnext]; omega) (by rw [hnext]; omega) ?_
        intro i hi
        have := hlt (i + 1) (Nat.succ_lt_succ hi)
        rw [hnext]
        calc x.toNat + step.toNat + i * step.toNat = x.toNat + (i + 1) * step.toNat := by ring
          _ < stop.toNat := this
      · rw [runEach_cons_of_some hb]
        rfl

/-- **Every loop** is a run over the values for which its guard has held; if it finishes, the run is not
left and the guard does not hold for the next value. Kind: P -/
theorem countLoop_exists (rounds : ℕ) (x : BitVec w) (s : S) :
    ∃ n, (∀ y ∈ counts step n x, y < stop) ∧
      (countLoop step stop body rounds x s).1 = (runEach body (counts step n x) s).1 ∧
      ((countLoop step stop body rounds x s).2 = .finished →
        (runEach body (counts step n x) s).2 = none ∧ ¬ x + BitVec.ofNat w n * step < stop) := by
  induction rounds generalizing x s with
  | zero =>
      refine ⟨0, fun y hy => absurd hy List.not_mem_nil, rfl, fun hfin => ?_⟩
      cases hfin
  | succ rounds ih =>
      by_cases hx : x < stop
      · rw [countLoop, if_pos hx]
        rcases hb : body x s with ⟨t, _ | e⟩
        · obtain ⟨n, hguard, hstate, hfinished⟩ := ih (x + step) t
          have hnext : x + BitVec.ofNat w (n + 1) * step = x + step + BitVec.ofNat w n * step := by
            have hone : BitVec.ofNat w 1 * step = step := BitVec.one_mul step
            rw [Nat.add_comm n 1, BitVec.ofNat_add, BitVec.add_mul, hone, BitVec.add_assoc]
          refine ⟨n + 1, fun y hy => ?_, ?_, ?_⟩
          · rcases List.mem_cons.mp hy with rfl | hy
            · exact hx
            · exact hguard y hy
          · rw [counts, runEach_cons_of_none hb]
            exact hstate
          · rw [counts, runEach_cons_of_none hb, hnext]
            exact hfinished
        · refine ⟨1, fun y hy => List.mem_singleton.mp hy ▸ hx, ?_, fun hfin => ?_⟩
          · rw [counts, runEach_cons_of_some hb]
          · cases hfin
      · rw [countLoop, if_neg hx]
        refine ⟨0, fun y hy => absurd hy List.not_mem_nil, rfl, fun _ => ⟨rfl, ?_⟩⟩
        rwa [BitVec.zero_mul, BitVec.add_zero]

/-- Fewer values are the first of more values. Kind: L -/
theorem counts_eq_take {k n : ℕ} (hk : k ≤ n) (x : BitVec w) :
    counts step k x = (counts step n x).take k := by
  rw [counts_eq_map, counts_eq_map, ← List.map_take, List.take_range, Nat.min_eq_left hk]

end loop

end Octiron.Found
