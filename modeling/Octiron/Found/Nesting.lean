import Mathlib.Tactic

/-!
# Nested token streams

Streams of tokens that open and close nodes, over an arbitrary type of tokens of which only the kind
matters: opening, closing, an item inside a node, or a blank that may stand anywhere.

* `depthAfter` — the number of open nodes after a stream, if every closing token and every item has an
  open node.
* `tops` — the number of nodes that are opened when none is open.
* `Items`, `IsNode` — the grammar: what may be inside a node, and one node.
* **Main result** (`isNode_iff`): without its blanks a stream is one node exactly when its depth is
  defined and comes back to 0, with one node at the top.
-/

namespace Octiron.Found

/-- The kinds of tokens. Kind: D -/
inductive Nest
  | opening
  | closing
  | item
  | blank
  deriving DecidableEq

section nesting

variable {α : Type} (kind : α → Nest)

/-- The depth after the tokens, from depth `d`. Kind: D -/
def depthAfter : ℕ → List α → Option ℕ
  | d, [] => some d
  | d, a :: l =>
      match kind a, d with
      | .opening, d => depthAfter (d + 1) l
      | .closing, 0 => none
      | .closing, d + 1 => depthAfter d l
      | .item, 0 => none
      | .item, d + 1 => depthAfter (d + 1) l
      | .blank, d => depthAfter d l

/-- The nodes that are opened at depth 0, from depth `d`. Kind: D -/
def tops : ℕ → List α → ℕ
  | _, [] => 0
  | d, a :: l =>
      match kind a with
      | .opening => (if d = 0 then 1 else 0) + tops (d + 1) l
      | .closing => tops (d - 1) l
      | .item => tops d l
      | .blank => tops d l

/-- **The inside of a node**: items and nodes, in any order. Kind: D -/
inductive Items : List α → Prop
  | nil : Items []
  | item {a : α} {l : List α} : kind a = .item → Items l → Items (a :: l)
  | node {a b : α} {body rest : List α} : kind a = .opening → Items body → kind b = .closing →
      Items rest → Items (a :: body ++ b :: rest)

/-- **One node**. Kind: D -/
def IsNode (l : List α) : Prop :=
  ∃ a body b, l = a :: body ++ [b] ∧ kind a = .opening ∧ Items kind body ∧ kind b = .closing

variable {kind}

/-- The depth, one token after the other. Kind: L -/
theorem depthAfter_cons (a : α) (l : List α) (d : ℕ) :
    depthAfter kind d (a :: l) = (depthAfter kind d [a]).bind fun d' => depthAfter kind d' l := by
  cases hk : kind a with
  | opening => simp only [depthAfter, hk, Option.bind_some]
  | blank => simp only [depthAfter, hk, Option.bind_some]
  | closing => cases d <;> simp only [depthAfter, hk, Option.bind_some, Option.bind_none]
  | item => cases d <;> simp only [depthAfter, hk, Option.bind_some, Option.bind_none]

/-! ## Blanks -/

theorem depthAfter_filter (l : List α) (d : ℕ) :
    depthAfter kind d (l.filter fun a => kind a ≠ .blank) = depthAfter kind d l := by
  induction l generalizing d with
  | nil => rfl
  | cons a l ih =>
      cases hk : kind a with
      | blank =>
          rw [List.filter_cons_of_neg (by simp [hk])]
          simp only [depthAfter, hk]
          exact ih d
      | opening =>
          rw [List.filter_cons_of_pos (by simp [hk])]
          simp only [depthAfter, hk]
          exact ih (d + 1)
      | closing =>
          rw [List.filter_cons_of_pos (by simp [hk])]
          cases d with
          | zero => simp only [depthAfter, hk]
          | succ d =>
              simp only [depthAfter, hk]
              exact ih d
      | item =>
          rw [List.filter_cons_of_pos (by simp [hk])]
          cases d with
          | zero => simp only [depthAfter, hk]
          | succ d =>
              simp only [depthAfter, hk]
              exact ih (d + 1)

theorem tops_filter (l : List α) (d : ℕ) :
    tops kind d (l.filter fun a => kind a ≠ .blank) = tops kind d l := by
  induction l generalizing d with
  | nil => rfl
  | cons a l ih =>
      cases hk : kind a with
      | blank =>
          rw [List.filter_cons_of_neg (by simp [hk])]
          simp only [tops, hk]
          exact ih d
      | opening =>
          rw [List.filter_cons_of_pos (by simp [hk])]
          simp only [tops, hk]
          rw [ih]
      | closing =>
          rw [List.filter_cons_of_pos (by simp [hk])]
          simp only [tops, hk]
          exact ih (d - 1)
      | item =>
          rw [List.filter_cons_of_pos (by simp [hk])]
          simp only [tops, hk]
          exact ih d

/-- Only the kinds count. Kind: L -/
theorem tops_congr {β : Type} {kind' : β → Nest} {l : List α} {l' : List β}
    (h : l.map kind = l'.map kind') (d : ℕ) : tops kind d l = tops kind' d l' := by
  induction l generalizing l' d with
  | nil =>
      cases l' with
      | nil => rfl
      | cons b l' => cases h
  | cons a l ih =>
      cases l' with
      | nil => cases h
      | cons b l' =>
          obtain ⟨hk, htail⟩ := List.cons.inj h
          cases ha : kind a <;> (rw [ha] at hk; simp only [tops, ha, ← hk, ih htail])

/-! ## From the grammar to the depth -/

/-- The inside of a node leaves the depth as it is. Kind: L -/
theorem Items.depthAfter_append {l : List α} (h : Items kind l) (d : ℕ) (r : List α) :
    depthAfter kind (d + 1) (l ++ r) = depthAfter kind (d + 1) r ∧
      tops kind (d + 1) (l ++ r) = tops kind (d + 1) r := by
  induction h generalizing d r with
  | nil => exact ⟨rfl, rfl⟩
  | item ha _ ih => simpa [depthAfter, tops, ha] using ih d r
  | @node a b body rest ha _ hb _ ihbody ihrest =>
      have hbody := ihbody (d + 1) (b :: (rest ++ r))
      have hrest := ihrest d r
      have happ : a :: body ++ b :: rest ++ r = a :: (body ++ b :: (rest ++ r)) := by simp
      rw [happ]
      simp only [depthAfter, tops, ha]
      rw [hbody.1, hbody.2]
      simp only [depthAfter, tops, hb]
      exact ⟨hrest.1, by simpa using hrest.2⟩

/-! ## From the depth to the grammar -/

/-- `l` closes `k` open nodes and the node around them is still open. Kind: D -/
def Closes (kind : α → Nest) : ℕ → List α → Prop
  | 0, l => Items kind l
  | k + 1, l => ∃ body b rest, l = body ++ b :: rest ∧ Items kind body ∧ kind b = .closing ∧
      Closes kind k rest

/-- An item or a node in front. Kind: L -/
theorem Closes.cons_item {k : ℕ} {a : α} {l : List α} (ha : kind a = .item) (h : Closes kind k l) :
    Closes kind k (a :: l) := by
  cases k with
  | zero => exact .item ha h
  | succ k =>
      obtain ⟨body, b, rest, rfl, hbody, hb, hrest⟩ := h
      exact ⟨a :: body, b, rest, rfl, .item ha hbody, hb, hrest⟩

/-- Source: none: infrastructure. Kind: L -/
theorem Closes.cons_opening {k : ℕ} {a : α} {l : List α} (ha : kind a = .opening)
    (h : Closes kind (k + 1) l) : Closes kind k (a :: l) := by
  obtain ⟨body, b, rest, rfl, hbody, hb, hrest⟩ := h
  cases k with
  | zero => exact .node ha hbody hb hrest
  | succ k =>
      obtain ⟨body', b', rest', rfl, hbody', hb', hrest'⟩ := hrest
      refine ⟨a :: body ++ b :: body', b', rest', by simp, .node ha hbody hb hbody', hb', hrest'⟩

/-- **Back at depth 0, for the first time at the end**: everything that was open is closed. Kind: L -/
theorem closes_of_depthAfter {l : List α} (hblank : ∀ a ∈ l, kind a ≠ .blank) {k : ℕ}
    (hdepth : depthAfter kind (k + 1) l = some 0) (htops : tops kind (k + 1) l = 0) :
    ∃ l' b, l = l' ++ [b] ∧ kind b = .closing ∧ Closes kind k l' := by
  induction l generalizing k with
  | nil => cases hdepth
  | cons a l ih =>
      have hblank' : ∀ c ∈ l, kind c ≠ .blank := fun c hc => hblank c (List.mem_cons_of_mem _ hc)
      cases hk : kind a with
      | blank => exact absurd hk (hblank a List.mem_cons_self)
      | opening =>
          simp only [depthAfter, tops, hk] at hdepth htops
          obtain ⟨l', b, rfl, hb, hcl⟩ := ih hblank' hdepth (by omega)
          exact ⟨a :: l', b, rfl, hb, hcl.cons_opening hk⟩
      | item =>
          simp only [depthAfter, tops, hk] at hdepth htops
          obtain ⟨l', b, rfl, hb, hcl⟩ := ih hblank' hdepth htops
          exact ⟨a :: l', b, rfl, hb, hcl.cons_item hk⟩
      | closing =>
          simp only [depthAfter, tops, hk] at hdepth htops
          cases k with
          | succ k =>
              obtain ⟨l', b, rfl, hb, hcl⟩ := ih hblank' hdepth htops
              exact ⟨a :: l', b, rfl, hb, [], a, l', rfl, .nil, hk, hcl⟩
          | zero =>
              -- nothing can follow: a node would be another one at the top
              cases l with
              | nil => exact ⟨[], a, rfl, hk, .nil⟩
              | cons c l =>
                  cases hc : kind c with
                  | blank => exact absurd hc (hblank' c List.mem_cons_self)
                  | opening => simp [tops, hc] at htops
                  | item => simp [depthAfter, hc] at hdepth
                  | closing => simp [depthAfter, hc] at hdepth

/-- A stream without blanks. Kind: L -/
theorem isNode_iff_of_no_blank {l : List α} (hblank : ∀ a ∈ l, kind a ≠ .blank) :
    IsNode kind l ↔ depthAfter kind 0 l = some 0 ∧ tops kind 0 l = 1 := by
  constructor
  · rintro ⟨a, body, b, rfl, ha, hbody, hb⟩
    obtain ⟨hdepth, htops⟩ := hbody.depthAfter_append 0 [b]
    simp only [List.cons_append, depthAfter, tops, ha, Nat.zero_add] at hdepth htops ⊢
    rw [hdepth, htops]
    simp [hb]
  · rintro ⟨hdepth, htops⟩
    cases l with
    | nil => simp [tops] at htops
    | cons a l =>
        have hblank' : ∀ c ∈ l, kind c ≠ .blank := fun c hc => hblank c (List.mem_cons_of_mem _ hc)
        cases hk : kind a with
        | blank => exact absurd hk (hblank a List.mem_cons_self)
        | item => simp [depthAfter, hk] at hdepth
        | closing => simp [depthAfter, hk] at hdepth
        | opening =>
            simp only [depthAfter, tops, hk] at hdepth htops
            obtain ⟨l', b, rfl, hb, hcl⟩ := closes_of_depthAfter hblank' hdepth (by simpa using htops)
            exact ⟨a, l', b, rfl, hk, hcl, hb⟩

/-- **One node, up to blanks**, by the depth and the nodes at the top. Kind: L -/
theorem isNode_iff (l : List α) :
    IsNode kind (l.filter fun a => kind a ≠ .blank) ↔
      depthAfter kind 0 l = some 0 ∧ tops kind 0 l = 1 := by
  rw [isNode_iff_of_no_blank, depthAfter_filter, tops_filter]
  intro a ha
  simpa using (List.mem_filter.mp ha).2

/-- A stream that opens a node opens one at the top. Kind: L -/
theorem tops_pos_of_opening {l : List α} {d : ℕ} (hd : depthAfter kind 0 l = some d)
    (h : ∃ a ∈ l, kind a = .opening) : 0 < tops kind 0 l := by
  induction l with
  | nil =>
      obtain ⟨a, ha, -⟩ := h
      exact absurd ha List.not_mem_nil
  | cons c l ih =>
      cases hk : kind c with
      | opening => simp [tops, hk]
      | item => simp [depthAfter, hk] at hd
      | closing => simp [depthAfter, hk] at hd
      | blank =>
          simp only [depthAfter, tops, hk] at hd ⊢
          refine ih hd ?_
          obtain ⟨a, ha, hopen⟩ := h
          rcases List.mem_cons.mp ha with rfl | ha
          · rw [hk] at hopen
            cases hopen
          · exact ⟨a, ha, hopen⟩

/-- Source: none: infrastructure. Kind: L -/
theorem exists_opening_of_tops_ne_zero {l : List α} {d : ℕ} (h : tops kind d l ≠ 0) :
    ∃ a ∈ l, kind a = .opening := by
  induction l generalizing d with
  | nil => exact absurd rfl h
  | cons c l ih =>
      cases hk : kind c with
      | opening => exact ⟨c, List.mem_cons_self, hk⟩
      | item =>
          simp only [tops, hk] at h
          obtain ⟨a, ha, hopen⟩ := ih h
          exact ⟨a, List.mem_cons_of_mem _ ha, hopen⟩
      | closing =>
          simp only [tops, hk] at h
          obtain ⟨a, ha, hopen⟩ := ih h
          exact ⟨a, List.mem_cons_of_mem _ ha, hopen⟩
      | blank =>
          simp only [tops, hk] at h
          obtain ⟨a, ha, hopen⟩ := ih h
          exact ⟨a, List.mem_cons_of_mem _ ha, hopen⟩

end nesting

end Octiron.Found
