import Mathlib.Tactic
import Mathlib.Data.Fintype.Card
import Mathlib.Data.List.Nodup

/-!
# Null-terminated chains of pointers

A heap of list nodes seen through its link field `next : α → α`, over any type of pointers with a
distinguished `null`.

* `IsChain null next p l` — following `next` from `p` visits exactly the nodes `l` and then `null`.
* `chase` — the loop `while (p != NULL && !stop(p)) { prev = p; p = next(p); }` with a bound on its
  rounds; `none` when the bound is reached.
* The rules a program proof uses: a chain is determined by its head (`IsChain.unique`), visits no
  node twice (`IsChain.nodup`), survives changes outside it (`IsChain.congr`), and
  `chase_of_append` / `chase_of_forall_not` say where the loop stops on it, `chase_invariant` what
  it keeps where there may be no chain.
* The three edits of a linked list: `IsChain.insertAfter`, `IsChain.unlinkAfter`, and dropping the
  head, which is `IsChain.tail`.
* `Chains` — a family of chains, one for each of a list of heads, and `Chains.replace`, an edit of
  one of them.
-/

namespace Octiron.Found

variable {α : Type*} {null : α} {next next' : α → α}

/-- Following `next` from `p` visits the nodes `l` and ends at `null`. Kind: D -/
inductive IsChain (null : α) (next : α → α) : α → List α → Prop
  | nil : IsChain null next null []
  | cons {p : α} {l : List α} : p ≠ null → IsChain null next (next p) l →
      IsChain null next p (p :: l)

namespace IsChain

theorem null_not_mem {p : α} {l : List α} (h : IsChain null next p l) : null ∉ l := by
  induction h with
  | nil => exact List.not_mem_nil
  | cons hp _ ih => exact fun hmem => (List.mem_cons.mp hmem).elim (fun heq => hp heq.symm) ih

/-- The chain of `null` is empty. Kind: L -/
theorem eq_nil_of_null {l : List α} (h : IsChain null next null l) : l = [] := by
  cases h with
  | nil => rfl
  | cons hp _ => exact absurd rfl hp

/-- A chain with a node starts at it. Kind: L -/
theorem head_eq {p q : α} {l : List α} (h : IsChain null next p (q :: l)) : p = q := by
  cases h
  rfl

theorem tail {p q : α} {l : List α} (h : IsChain null next p (q :: l)) :
    IsChain null next (next q) l := by
  cases h
  assumption

theorem ne_null {p q : α} {l : List α} (h : IsChain null next p (q :: l)) : q ≠ null := by
  cases h
  assumption

/-- A chain that starts at a node has it. Kind: L -/
theorem head_mem {p : α} {l : List α} (h : IsChain null next p l) (hp : p ≠ null) : p ∈ l := by
  cases h with
  | nil => exact absurd rfl hp
  | cons _ _ => exact List.mem_cons_self

/-- A chain with nodes does not start at `null`. Kind: L -/
theorem head_ne_null {p : α} {l : List α} (h : IsChain null next p l) (hl : l ≠ []) : p ≠ null := by
  cases h with
  | nil => exact absurd rfl hl
  | cons hp _ => exact hp

/-- A chain is determined by where it starts. Kind: L -/
theorem unique {p : α} {l l' : List α} (h : IsChain null next p l) (h' : IsChain null next p l') :
    l = l' := by
  induction h generalizing l' with
  | nil => exact h'.eq_nil_of_null.symm
  | cons hp _ ih =>
      cases h' with
      | nil => exact absurd rfl hp
      | cons _ h' => rw [ih h']

/-- Changing links of nodes off the chain keeps it. Kind: L -/
theorem congr {p : α} {l : List α} (h : IsChain null next p l) (heq : ∀ q ∈ l, next' q = next q) :
    IsChain null next' p l := by
  induction h with
  | nil => exact .nil
  | cons hp _ ih =>
      refine .cons hp ?_
      rw [heq _ List.mem_cons_self]
      exact ih fun q hq => heq q (List.mem_cons_of_mem _ hq)

/-- Every node of a chain starts a chain of its own. Kind: L -/
theorem suffix {p q : α} {pre post : List α} (h : IsChain null next p (pre ++ q :: post)) :
    IsChain null next q (q :: post) := by
  induction pre generalizing p with
  | nil =>
      rw [List.nil_append] at h
      obtain rfl := h.head_eq
      exact h
  | cons r pre ih => exact ih h.tail

/-- The links of a chain stay in it. Kind: L -/
theorem next_mem {p q : α} {l : List α} (h : IsChain null next p l) (hq : q ∈ l) :
    next q = null ∨ next q ∈ l := by
  obtain ⟨pre, post, rfl⟩ := List.append_of_mem hq
  have htail : IsChain null next (next q) post := h.suffix.tail
  by_cases hnull : next q = null
  · exact Or.inl hnull
  · exact Or.inr (List.mem_append_right _ (List.mem_cons_of_mem _ (htail.head_mem hnull)))

/-- A finite chain visits no node twice: from the second visit on it would repeat. Kind: L -/
theorem nodup {p : α} {l : List α} (h : IsChain null next p l) : l.Nodup := by
  induction h with
  | nil => exact List.nodup_nil
  | @cons p l hp hl ih =>
      refine List.nodup_cons.mpr ⟨fun hmem => ?_, ih⟩
      obtain ⟨pre, post, rfl⟩ := List.append_of_mem hmem
      have hshort : IsChain null next p (p :: post) := hl.suffix
      have hlong : IsChain null next p (p :: (pre ++ p :: post)) := .cons hp hl
      have hlen := congrArg List.length (hshort.unique hlong)
      simp at hlen
      omega

/-- A chain has fewer nodes than there are pointers. Kind: L -/
theorem length_lt {n : ℕ} (f : α → Fin n) (hf : Function.Injective f) {p : α} {l : List α}
    (h : IsChain null next p l) : l.length < n := by
  have hnodup : (null :: l).Nodup := List.nodup_cons.mpr ⟨h.null_not_mem, h.nodup⟩
  have hle := (hnodup.map hf).length_le_card
  rwa [List.length_map, List.length_cons, Fintype.card_fin] at hle

/-! ## Editing a chain -/

/-- Linking `x` in after `q`: `q` points to `x` and `x` to what `q` pointed to. Kind: L -/
theorem insertAfter {p q x : α} {pre post : List α} (h : IsChain null next p (pre ++ q :: post))
    (hx : x ≠ null) (hq : next' q = x) (hxn : next' x = next q)
    (heq : ∀ r ∈ pre ++ post, next' r = next r) :
    IsChain null next' p (pre ++ q :: x :: post) := by
  induction pre generalizing p with
  | nil =>
      obtain rfl := h.head_eq
      refine .cons h.ne_null ?_
      rw [hq]
      refine .cons hx ?_
      rw [hxn]
      exact h.tail.congr fun r hr => heq r (by simpa using hr)
  | cons r pre ih =>
      obtain rfl := h.head_eq
      refine .cons h.ne_null ?_
      rw [heq p (by simp)]
      exact ih h.tail fun s hs => heq s (List.mem_cons_of_mem _ hs)

/-- Unlinking the node after `q`: `q` points to what that node pointed to. Kind: L -/
theorem unlinkAfter {p q x : α} {pre post : List α}
    (h : IsChain null next p (pre ++ q :: x :: post)) (hq : next' q = next x)
    (heq : ∀ r ∈ pre ++ post, next' r = next r) :
    IsChain null next' p (pre ++ q :: post) := by
  induction pre generalizing p with
  | nil =>
      obtain rfl := h.head_eq
      refine .cons h.ne_null ?_
      rw [hq]
      exact h.tail.tail.congr fun r hr => heq r (by simpa using hr)
  | cons r pre ih =>
      obtain rfl := h.head_eq
      refine .cons h.ne_null ?_
      rw [heq p (by simp)]
      exact ih h.tail fun s hs => heq s (List.mem_cons_of_mem _ hs)

/-- When `d` is made to point to `x`, and `x` elsewhere, whatever chain starts where one with `d`
started has `x`. Kind: L -/
theorem mem_of_relink {p d x : α} {l pre post : List α} (h : IsChain null next p (pre ++ d :: post))
    (h' : IsChain null next' p l) (hx : x ≠ null) (hd : next' d = x)
    (heq : ∀ r, r ≠ d → r ≠ x → next' r = next r) : x ∈ l := by
  induction pre generalizing p l with
  | nil =>
      obtain rfl := h.head_eq
      cases h' with
      | nil => exact absurd rfl h.ne_null
      | cons _ htail =>
          rw [hd] at htail
          exact List.mem_cons_of_mem _ (htail.head_mem hx)
  | cons r pre ih =>
      obtain rfl := h.head_eq
      by_cases hrx : p = x
      · subst hrx
        exact h'.head_mem hx
      · cases h' with
        | nil => exact absurd rfl h.ne_null
        | cons _ htail =>
            by_cases hrd : p = d
            · rw [hrd, hd] at htail
              exact List.mem_cons_of_mem _ (htail.head_mem hx)
            · rw [heq p hrd hrx] at htail
              exact List.mem_cons_of_mem _ (ih h.tail htail)

end IsChain

/-! ## Families of chains -/

/-- Lists in relation split together. Kind: L -/
theorem forall₂_split {β γ : Type*} {R : β → γ → Prop} {l : List β} {gpre gpost : List γ} {g : γ}
    (h : List.Forall₂ R l (gpre ++ g :: gpost)) :
    ∃ lpre a lpost, l = lpre ++ a :: lpost ∧ lpre.length = gpre.length ∧
      List.Forall₂ R lpre gpre ∧ R a g ∧ List.Forall₂ R lpost gpost := by
  induction gpre generalizing l with
  | nil =>
      cases h with
      | cons hp hpost => exact ⟨[], _, _, rfl, rfl, .nil, hp, hpost⟩
  | cons c gpre ih =>
      cases h with
      | cons hp h =>
          obtain ⟨lpre, a, lpost, rfl, hlen, hpre', hp', hpost'⟩ := ih h
          exact ⟨_ :: lpre, a, lpost, rfl, by simp [hlen], .cons hp hpre', hp', hpost'⟩

/-- An element on the right has one on the left. Kind: L -/
theorem forall₂_exists_left {β γ : Type*} {R : β → γ → Prop} {l : List β} {g : List γ} {b : γ}
    (h : List.Forall₂ R l g) (hb : b ∈ g) : ∃ a ∈ l, R a b := by
  induction h with
  | nil => exact absurd hb List.not_mem_nil
  | cons hab _ ih =>
      rcases List.mem_cons.mp hb with rfl | hb
      · exact ⟨_, List.mem_cons_self, hab⟩
      · obtain ⟨a, ha, hrel⟩ := ih hb
        exact ⟨a, List.mem_cons_of_mem _ ha, hrel⟩

/-- Lists in one relation are in another that follows from it for the members. Kind: L -/
theorem forall₂_imp_of_mem {β γ : Type*} {R S : β → γ → Prop} {l : List β} {g : List γ}
    (h : List.Forall₂ R l g) (himp : ∀ a b, b ∈ g → R a b → S a b) : List.Forall₂ S l g := by
  induction h with
  | nil => exact .nil
  | cons hab _ ih =>
      exact .cons (himp _ _ List.mem_cons_self hab)
        (ih fun a b hb => himp a b (List.mem_cons_of_mem _ hb))

/-- Lists in relation end in elements in relation. Kind: L -/
theorem forall₂_getLast {β γ : Type*} {R : β → γ → Prop} {l : List β} {g : List γ}
    (h : List.Forall₂ R l g) (hl : l ≠ []) (hg : g ≠ []) : R (l.getLast hl) (g.getLast hg) := by
  induction h with
  | nil => exact absurd rfl hl
  | cons hab hrest ih =>
      cases hrest with
      | nil => exact hab
      | cons => exact ih (by simp) (by simp)

/-- The chains `G` start at the pointers `heads`. Kind: D -/
def Chains (null : α) (next : α → α) (heads : List α) (G : List (List α)) : Prop :=
  List.Forall₂ (IsChain null next) heads G

namespace Chains

variable {heads : List α} {G : List (List α)}

/-- Changing links of nodes off the chains keeps them. Kind: L -/
theorem congr (h : Chains null next heads G) (heq : ∀ q ∈ G.flatten, next' q = next q) :
    Chains null next' heads G := by
  induction h with
  | nil => exact .nil
  | cons hp _ ih =>
      simp only [List.flatten_cons, List.mem_append] at heq
      exact .cons (hp.congr fun q hq => heq q (Or.inl hq)) (ih fun q hq => heq q (Or.inr hq))

/-- The chains are determined by where they start. Kind: L -/
theorem unique {G' : List (List α)} (h : Chains null next heads G)
    (h' : Chains null next heads G') : G = G' := by
  induction h generalizing G' with
  | nil =>
      cases h'
      rfl
  | cons hp _ ih =>
      cases h' with
      | cons hp' h' => rw [hp.unique hp', ih h']

/-- The heads of a family are in its chains. Kind: L -/
theorem head_mem {p : α} (h : Chains null next heads G) (hp : p ∈ heads) :
    p = null ∨ p ∈ G.flatten := by
  induction h with
  | nil => exact absurd hp List.not_mem_nil
  | cons hchain _ ih =>
      rw [List.flatten_cons, List.mem_append]
      rcases List.mem_cons.mp hp with rfl | hp
      · by_cases hnull : p = null
        · exact Or.inl hnull
        · exact Or.inr (Or.inl (hchain.head_mem hnull))
      · exact (ih hp).imp_right Or.inr

/-- The links of a family stay in its chains. Kind: L -/
theorem next_mem {q : α} (h : Chains null next heads G) (hq : q ∈ G.flatten) :
    next q = null ∨ next q ∈ G.flatten := by
  induction h with
  | nil => exact absurd hq List.not_mem_nil
  | cons hchain _ ih =>
      rw [List.flatten_cons, List.mem_append] at hq ⊢
      rcases hq with hq | hq
      · exact (hchain.next_mem hq).imp_right Or.inl
      · exact (ih hq).imp_right Or.inr

/-- A family splits at each of its chains. Kind: L -/
theorem split {gpre gpost : List (List α)} {l : List α}
    (h : Chains null next heads (gpre ++ l :: gpost)) :
    ∃ hpre p hpost, heads = hpre ++ p :: hpost ∧ hpre.length = gpre.length ∧
      Chains null next hpre gpre ∧ IsChain null next p l ∧ Chains null next hpost gpost :=
  forall₂_split h

/-- A family splits where its heads do. Kind: L -/
theorem split_heads {hpre hpost : List α} (h : Chains null next (hpre ++ hpost) G) :
    ∃ gpre gpost, G = gpre ++ gpost ∧ Chains null next hpre gpre ∧ Chains null next hpost gpost := by
  induction hpre generalizing G with
  | nil => exact ⟨[], G, rfl, .nil, h⟩
  | cons p hpre ih =>
      cases h with
      | cons hp h =>
          obtain ⟨gpre, gpost, rfl, hpre', hpost'⟩ := ih h
          exact ⟨_ :: gpre, gpost, rfl, .cons hp hpre', hpost'⟩

theorem join {hpre hpost : List α} {gpre gpost : List (List α)} {p : α} {l : List α}
    (hpre' : Chains null next hpre gpre) (hp : IsChain null next p l)
    (hpost' : Chains null next hpost gpost) :
    Chains null next (hpre ++ p :: hpost) (gpre ++ l :: gpost) :=
  List.rel_append hpre' (.cons hp hpost')

/-- One chain of a family is replaced, the links of the others being left alone. Kind: L -/
theorem replace {gpre gpost : List (List α)} {hpre hpost : List α} {p : α} {l l' : List α}
    (h : Chains null next (hpre ++ p :: hpost) (gpre ++ l :: gpost))
    (hlen : hpre.length = gpre.length) {p' : α} (hl' : IsChain null next' p' l')
    (heq : ∀ q ∈ gpre.flatten ++ gpost.flatten, next' q = next q) :
    Chains null next' (hpre ++ p' :: hpost) (gpre ++ l' :: gpost) := by
  obtain ⟨hpre₁, p₁, hpost₁, hheads, hlen₁, hpre', -, hpost'⟩ := h.split
  obtain ⟨rfl, htail⟩ := List.append_inj hheads (hlen.trans hlen₁.symm)
  obtain ⟨rfl, rfl⟩ := List.cons.inj htail
  exact join (hpre'.congr fun q hq => heq q (List.mem_append_left _ hq)) hl'
    (hpost'.congr fun q hq => heq q (List.mem_append_right _ hq))

end Chains

/-- Where a node of a family of chains is: in chain number `i`, after `prev`. Kind: D -/
def ChainAt (null : α) (G : List (List α)) (i : ℕ) (prev q : α) : Prop :=
  ∃ gpre dpre dpost gpost, G = gpre ++ (dpre ++ q :: dpost) :: gpost ∧ gpre.length = i ∧
    prev = dpre.getLastD null

/-- A node of chains that have no node twice is in one place. Kind: L -/
theorem ChainAt.unique {G : List (List α)} {i i' : ℕ} {prev prev' q : α}
    (h : ChainAt null G i prev q) (h' : ChainAt null G i' prev' q) (hnodup : G.flatten.Nodup) :
    i = i' ∧ prev = prev' := by
  obtain ⟨gpre, dpre, dpost, gpost, rfl, rfl, rfl⟩ := h
  obtain ⟨gpre', dpre', dpost', gpost', heq, rfl, rfl⟩ := h'
  induction gpre generalizing gpre' with
  | nil =>
      rw [List.nil_append, List.flatten_cons, List.nodup_append] at hnodup
      cases gpre' with
      | nil =>
          obtain ⟨hlist, -⟩ := List.cons.inj heq
          have hmid := hnodup.1
          rw [hlist, List.nodup_middle, List.nodup_cons, List.mem_append, not_or] at hmid
          obtain ⟨rfl, -⟩ := (List.append_cons_inj_of_notMem hmid.1.1 hmid.1.2).mp hlist.symm
          exact ⟨rfl, rfl⟩
      | cons g gpre' =>
          have hrest : gpost = gpre' ++ (dpre' ++ q :: dpost') :: gpost' := (List.cons.inj heq).2
          refine absurd rfl (hnodup.2.2 q (by simp) q ?_)
          rw [hrest, List.flatten_append, List.flatten_cons]
          simp
  | cons g gpre ih =>
      rw [List.cons_append, List.flatten_cons, List.nodup_append] at hnodup
      cases gpre' with
      | nil =>
          obtain ⟨hlist, -⟩ := List.cons.inj heq
          refine absurd rfl (hnodup.2.2 q ?_ q ?_)
          · rw [hlist]
            simp
          · rw [List.flatten_append, List.flatten_cons]
            simp
      | cons g' gpre' =>
          obtain ⟨-, hrest⟩ := List.cons.inj heq
          obtain ⟨hlen, hprev⟩ := ih hnodup.2.1 gpre' hrest
          exact ⟨by rw [List.length_cons, List.length_cons, hlen], hprev⟩

/-! ## Walking a chain -/

variable [DecidableEq α]

/-- `while (p != NULL && !stop(p)) { prev = p; p = next(p); }`, for at most `fuel` tests: the pair
`(prev, p)` it ends with. Kind: D -/
def chase (null : α) (next : α → α) (stop : α → Bool) : ℕ → α → α → Option (α × α)
  | 0, _, _ => none
  | fuel + 1, prev, p =>
      if p = null ∨ stop p = true then some (prev, p) else chase null next stop fuel p (next p)

/-- On a chain the walk stops at the first node that satisfies `stop`. Kind: L -/
theorem chase_of_append {stop : α → Bool} {p q prev : α} {pre post : List α} {fuel : ℕ}
    (h : IsChain null next p (pre ++ q :: post)) (hpre : ∀ r ∈ pre, stop r = false)
    (hq : stop q = true) (hfuel : pre.length < fuel) :
    chase null next stop fuel prev p = some (pre.getLastD prev, q) := by
  induction pre generalizing p prev fuel with
  | nil =>
      obtain rfl := h.head_eq
      cases fuel with
      | zero => exact absurd hfuel (Nat.not_lt_zero _)
      | succ fuel => rw [chase, if_pos (Or.inr hq), List.getLastD_nil]
  | cons r pre ih =>
      obtain rfl := h.head_eq
      cases fuel with
      | zero => exact absurd hfuel (Nat.not_lt_zero _)
      | succ fuel =>
          have hgo : ¬ (p = null ∨ stop p = true) := by
            rintro (hp | hp)
            · exact h.ne_null hp
            · rw [hpre p List.mem_cons_self] at hp
              exact Bool.false_ne_true hp
          rw [chase, if_neg hgo, List.getLastD_cons]
          exact ih h.tail (fun s hs => hpre s (List.mem_cons_of_mem _ hs))
            (Nat.lt_of_succ_lt_succ hfuel)

/-- On a chain without such a node the walk ends at `null`. Kind: L -/
theorem chase_of_forall_not {stop : α → Bool} {p prev : α} {l : List α} {fuel : ℕ}
    (h : IsChain null next p l) (hl : ∀ r ∈ l, stop r = false) (hfuel : l.length < fuel) :
    chase null next stop fuel prev p = some (l.getLastD prev, null) := by
  induction h generalizing prev fuel with
  | nil =>
      cases fuel with
      | zero => exact absurd hfuel (Nat.not_lt_zero _)
      | succ fuel => rw [chase, if_pos (Or.inl rfl), List.getLastD_nil]
  | @cons p l hp _ ih =>
      cases fuel with
      | zero => exact absurd hfuel (Nat.not_lt_zero _)
      | succ fuel =>
          have hgo : ¬ (p = null ∨ stop p = true) := by
            rintro (hnull | hstop)
            · exact hp hnull
            · rw [hl p List.mem_cons_self] at hstop
              exact Bool.false_ne_true hstop
          rw [chase, if_neg hgo, List.getLastD_cons]
          exact ih (fun s hs => hl s (List.mem_cons_of_mem _ hs)) (Nat.lt_of_succ_lt_succ hfuel)

/-- A property of pointers that the links keep holds of both pointers the walk ends with. Kind: L -/
theorem chase_invariant {S : α → Prop} {stop : α → Bool} (hnext : ∀ q, S q → q ≠ null → S (next q))
    {fuel : ℕ} {prev p : α} {r : α × α} (hprev : S prev) (hp : S p)
    (h : chase null next stop fuel prev p = some r) : S r.1 ∧ S r.2 := by
  induction fuel generalizing prev p with
  | zero => cases h
  | succ fuel ih =>
      rw [chase] at h
      split_ifs at h with hstop
      · cases h
        exact ⟨hprev, hp⟩
      · exact ih hp (hnext p hp fun h0 => hstop (Or.inl h0)) h

/-- The walk ends at the null pointer or where it is told to stop. Kind: L -/
theorem chase_stop {stop : α → Bool} {fuel : ℕ} {prev p : α} {r : α × α}
    (h : chase null next stop fuel prev p = some r) : r.2 = null ∨ stop r.2 = true := by
  induction fuel generalizing prev p with
  | zero => cases h
  | succ fuel ih =>
      rw [chase] at h
      split_ifs at h with hstop
      · cases h
        exact hstop
      · exact ih h

omit [DecidableEq α] in
/-- A list has a first element that satisfies `stop`, or none. Kind: L -/
theorem exists_first_or_forall_not (stop : α → Bool) (l : List α) :
    (∀ r ∈ l, stop r = false) ∨
      ∃ pre q post, l = pre ++ q :: post ∧ (∀ r ∈ pre, stop r = false) ∧ stop q = true := by
  induction l with
  | nil => exact Or.inl fun r hr => absurd hr List.not_mem_nil
  | cons a l ih =>
      rcases ha : stop a with _ | _
      · rcases ih with ih | ⟨pre, q, post, rfl, hpre, hq⟩
        · refine Or.inl fun r hr => ?_
          rcases List.mem_cons.mp hr with rfl | hr
          · exact ha
          · exact ih r hr
        · refine Or.inr ⟨a :: pre, q, post, rfl, fun r hr => ?_, hq⟩
          rcases List.mem_cons.mp hr with rfl | hr
          · exact ha
          · exact hpre r hr
      · exact Or.inr ⟨[], a, l, rfl, fun r hr => absurd hr List.not_mem_nil, ha⟩

/-- Where the walk over a chain ends. Kind: L -/
theorem chase_cases {stop : α → Bool} {p prev : α} {l : List α} {fuel : ℕ}
    (h : IsChain null next p l) (hfuel : l.length < fuel) :
    ((∀ r ∈ l, stop r = false) ∧
      chase null next stop fuel prev p = some (l.getLastD prev, null)) ∨
    ∃ pre q post, l = pre ++ q :: post ∧ stop q = true ∧ (∀ r ∈ pre, stop r = false) ∧
      chase null next stop fuel prev p = some (pre.getLastD prev, q) := by
  rcases exists_first_or_forall_not stop l with hl | ⟨pre, q, post, rfl, hpre, hq⟩
  · exact Or.inl ⟨hl, chase_of_forall_not h hl hfuel⟩
  · refine Or.inr ⟨pre, q, post, rfl, hq, hpre, chase_of_append h hpre hq ?_⟩
    rw [List.length_append] at hfuel
    omega

end Octiron.Found
