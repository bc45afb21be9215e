import Octiron.Kernel.DeviceArrays
import Octiron.Kernel.DeviceSteps

/-!
# A parsed tree is at its places

Between the two passes of `dt_initialize`, for a structure block that encodes a tree.

* `Reads.kinds` — the tokens of the block are those of the tree, so the arrays have as many nodes and
  properties as the tree (`EncodesTree.countP_eq`).
* `PlacedForest.Closed` — the links of nodes at their places lead to such nodes and properties.
* **Main result** (`dtPlaced_of_parse`): the tree is at its places. The links reach everything that was
  pushed, and there is not more of it than the tree has, so no place is taken twice.
-/

namespace Octiron.Kernel

open Octiron.Found
open Octiron.Kzadhbat

/-! ## Counting tokens -/

/-- Source: none: infrastructure. Kind: D -/
def FdtToken.kind : FdtToken → Nest
  | .beginNode _ => .opening
  | .endNode => .closing
  | .prop _ => .item

/-- The tree as a forest of one node.
Source: none: infrastructure
Kind: D -/
def FdtTree.forest (t : FdtTree) : FdtForest := .node t.name t.props t.children .nil

/-- Source: none: infrastructure. Kind: L -/
theorem FdtToken.kind_ne_blank (t : FdtToken) : t.kind ≠ .blank := by
  cases t <;> exact fun h => Nest.noConfusion h

section tokens

variable {env : DtEnv} {t : FdtTree}

/-- Source: none: infrastructure. Kind: L -/
theorem FdtToken.At.kind_eq {off off' : ℕ} {tok : FdtToken} (h : tok.At env off off') :
    ∃ t, dtLex env.structs off = .tok t off' ∧ dtKind t = tok.kind := by
  cases tok with
  | beginNode name => exact ⟨_, h, rfl⟩
  | endNode => exact ⟨_, h, rfl⟩
  | prop p =>
      obtain ⟨propLen, nameOffset, hlex, -, -⟩ := h
      exact ⟨_, hlex, rfl⟩

/-- **What is read are the tokens of the block**, without those for `FDT_NOP`.
Source: `device_tree.c` `dt_initialize`
Kind: L -/
theorem Reads.kinds {off off' : ℕ} {ts : List FdtToken} (h : Reads env off ts off')
    (hend : dtLex env.structs off' = .ending .fdtEnd) {n : ℕ} (hn : env.structs.length < off + n) :
    ((dtTokensFrom env.structs n off).1.filter fun t => dtKind t ≠ .blank).map dtKind =
      ts.map FdtToken.kind := by
  induction h generalizing n with
  | nil off =>
      cases n with
      | zero => rfl
      | succ n =>
          rw [dtTokensFrom, hend]
          rfl
  | @nop off off₁ off' ts hlex _ ih =>
      obtain ⟨hle, hstep, -⟩ := dtLex_tok_off hlex
      obtain ⟨n, rfl⟩ : ∃ k, n = k + 1 := ⟨n - 1, by omega⟩
      rw [dtTokensFrom, hlex]
      dsimp only
      rw [List.filter_cons_of_neg (by decide)]
      exact ih hend (by omega)
  | @tok off off₁ off' t ts hat _ ih =>
      obtain ⟨tok, hlex, hkind⟩ := hat.kind_eq
      obtain ⟨hle, hstep, -⟩ := dtLex_tok_off hlex
      obtain ⟨n, rfl⟩ : ∃ k, n = k + 1 := ⟨n - 1, by omega⟩
      rw [dtTokensFrom, hlex]
      dsimp only
      rw [List.filter_cons_of_pos (by rw [hkind]; exact decide_eq_true t.kind_ne_blank), List.map_cons,
        List.map_cons,
        hkind, ih hend (by omega)]

/-- Source: none: infrastructure. Kind: L -/
theorem EncodesTree.kinds (h : EncodesTree env t) :
    ((dtTokens env.structs).1.filter fun t => dtKind t ≠ .blank).map dtKind =
      t.tokens.map FdtToken.kind := by
  obtain ⟨l, rest, hencodes, hstructs⟩ := h
  have hdrop : env.structs.drop 0 = l ++ (beU32 fdtEnd ++ rest) := hstructs
  obtain ⟨hreads, hend⟩ := hencodes.reads hdrop
  exact hreads.kinds (dtLex_fdtEnd hend) (by omega)

/-- **As many tokens of a kind** as the tree has.
Source: none: infrastructure
Kind: L -/
theorem EncodesTree.countP_eq (h : EncodesTree env t) {k : Nest} (hk : k ≠ .blank) :
    (dtTokens env.structs).1.countP (dtKind · = k) = t.tokens.countP (FdtToken.kind · = k) := by
  have hcount := congrArg (List.countP (· = k)) h.kinds
  rw [List.countP_map, List.countP_map, List.countP_filter] at hcount
  refine (List.countP_congr fun a _ => ?_).trans hcount
  simp only [Function.comp_apply, decide_eq_true_eq, Bool.and_eq_true]
  constructor
  · rintro rfl
    exact ⟨rfl, hk⟩
  · exact fun h => h.1

/-- The tokens of nodes nest.
Source: none: infrastructure
Kind: L -/
theorem FdtForest.items (f : FdtForest) : Items FdtToken.kind f.tokens := by
  induction f with
  | nil => exact .nil
  | node name props children rest ihChildren ihRest =>
      have hprops : Items FdtToken.kind (props.map .prop ++ children.tokens) := by
        induction props with
        | nil => exact ihChildren
        | cons p props ih => exact .item rfl ih
      have hnode : Items FdtToken.kind (.beginNode name :: (props.map .prop ++ children.tokens) ++
          .endNode :: rest.tokens) := .node rfl hprops rfl ihRest
      rw [FdtForest.tokens, ← List.append_assoc]
      exact hnode

/-- **There is one node at the top**.
Source: `device_tree.c` `dt_initialize`
Kind: L -/
theorem EncodesTree.tops_eq (h : EncodesTree env t) : tops dtKind 0 (dtTokens env.structs).1 = 1 := by
  have hnode : IsNode FdtToken.kind (t.tokens.filter fun t => t.kind ≠ .blank) := by
    have hblank : t.tokens.filter (fun t => t.kind ≠ .blank) = t.tokens :=
      List.filter_eq_self.mpr fun a _ => decide_eq_true a.kind_ne_blank
    rw [hblank]
    have hprops : Items FdtToken.kind (t.props.map .prop ++ t.children.tokens) := by
      induction t.props with
      | nil => exact t.children.items
      | cons p props ih => exact .item rfl ih
    refine ⟨.beginNode t.name, _, .endNode, ?_, rfl, hprops, rfl⟩
    rw [FdtTree.tokens, List.cons_append, List.append_assoc]
  rw [← tops_filter, tops_congr h.kinds]
  exact ((isNode_iff t.tokens).mp hnode).2

/-- **The arrays have as many elements** as nodes with places have nodes and properties.
Source: none: infrastructure
Kind: L -/
theorem PlacedForest.countP_tokens (f : PlacedForest) :
    f.forest.tokens.countP (FdtToken.kind · = .opening) = f.nodes.length ∧
      f.forest.tokens.countP (FdtToken.kind · = .item) = f.properties.length := by
  induction f with
  | nil => exact ⟨rfl, rfl⟩
  | node ptr name props children rest ihChildren ihRest =>
      obtain ⟨hnodes, hproperties⟩ := ihChildren
      obtain ⟨hnodes', hproperties'⟩ := ihRest
      have hnone : ∀ l : List FdtProp, (l.map FdtToken.prop).countP (FdtToken.kind · = .opening) = 0 := by
        intro l
        rw [List.countP_eq_zero]
        intro t ht
        obtain ⟨p, -, rfl⟩ := List.mem_map.mp ht
        exact fun h => Nest.noConfusion (of_decide_eq_true h)
      have hall : ∀ l : List FdtProp,
          (l.map FdtToken.prop).countP (FdtToken.kind · = .item) = l.length := by
        intro l
        rw [List.countP_map]
        refine List.countP_eq_length.mpr fun p _ => ?_
        exact decide_eq_true (show (FdtToken.prop p).kind = .item from rfl)
      rw [PlacedForest.forest, FdtForest.tokens, PlacedForest.nodes, PlacedForest.properties]
      simp only [List.countP_cons, List.countP_append, hnone, hall, hnodes, hproperties, hnodes',
        hproperties', List.length_reverse, List.length_map, List.length_cons, List.length_append]
      simp [FdtToken.kind]

end tokens

/-! ## Links -/

/-- **The links lead to nodes and properties of the forest**.
Source: none: infrastructure
Kind: D -/
structure PlacedForest.Closed (h : DtHeap) (head : Option ArrayPtr) (f : PlacedForest) : Prop where
  head : ∀ p, head = some p → p ∈ f.nodes
  children : ∀ p ∈ f.nodes, ∀ q, (h.nodes p).children = some q → q ∈ f.nodes
  sibling : ∀ p ∈ f.nodes, ∀ q, (h.nodes p).sibling = some q → q ∈ f.nodes
  first : ∀ p ∈ f.nodes, ∀ q, (h.nodes p).properties = some q → q ∈ f.properties
  next : ∀ q ∈ f.properties, ∀ q', (h.properties q).next = some q' → q' ∈ f.properties

section links

variable {h : DtHeap} {head : Option ArrayPtr}

/-- Source: none: infrastructure. Kind: L -/
theorem PropsAt.closed {props : List (ArrayPtr × FdtProp)} (hat : PropsAt h head props) :
    (∀ q, head = some q → q ∈ props.map Prod.fst) ∧
      ∀ q ∈ props.map Prod.fst, ∀ q', (h.properties q).next = some q' → q' ∈ props.map Prod.fst := by
  induction props generalizing head with
  | nil =>
      refine ⟨fun q hq => ?_, fun q hq => absurd hq List.not_mem_nil⟩
      rw [show head = none from hat] at hq
      cases hq
  | cons x props ih =>
      obtain ⟨rfl, -, hnext⟩ := hat
      obtain ⟨hfirst, hrest⟩ := ih hnext
      refine ⟨fun q hq => ?_, fun q hq q' hq' => ?_⟩
      · cases hq
        exact List.mem_cons_self
      · rcases List.mem_cons.mp hq with rfl | hq
        · exact List.mem_cons_of_mem _ (hfirst q' hq')
        · exact List.mem_cons_of_mem _ (hrest q hq q' hq')

/-- Source: none: infrastructure. Kind: L -/
theorem PlacedForest.At.closed {f : PlacedForest} (hat : f.At h head) : f.Closed h head := by
  induction f generalizing head with
  | nil =>
      rw [show head = none from hat]
      exact ⟨fun p hp => (by cases hp), fun p hp => absurd hp List.not_mem_nil,
        fun p hp => absurd hp List.not_mem_nil, fun p hp => absurd hp List.not_mem_nil,
        fun q hq => absurd hq List.not_mem_nil⟩
  | node ptr name props children rest ihChildren ihRest =>
      obtain ⟨rfl, hprops, hchildren, hrest⟩ := hat
      obtain ⟨hfirst, hnext⟩ := hprops.closed
      have hc := ihChildren hchildren
      have hr := ihRest hrest
      -- a node of the forest is the first, below it or behind it
      have hcases : ∀ {P : ArrayPtr → Prop}, P ptr → (∀ p ∈ children.nodes, P p) →
          (∀ p ∈ rest.nodes, P p) →
          ∀ p ∈ (PlacedForest.node ptr name props children rest).nodes, P p := by
        intro P hptr hchild hsibling
        exact List.forall_mem_cons.mpr ⟨hptr, List.forall_mem_append.mpr ⟨hchild, hsibling⟩⟩
      have hinl : ∀ q ∈ children.nodes, q ∈ (PlacedForest.node ptr name props children rest).nodes :=
        fun q hq => List.mem_cons_of_mem _ (List.mem_append_left _ hq)
      have hinr : ∀ q ∈ rest.nodes, q ∈ (PlacedForest.node ptr name props children rest).nodes :=
        fun q hq => List.mem_cons_of_mem _ (List.mem_append_right _ hq)
      have hpl : ∀ q ∈ children.properties,
          q ∈ (PlacedForest.node ptr name props children rest).properties :=
        fun q hq => List.mem_append_right _ (List.mem_append_left _ hq)
      have hpr : ∀ q ∈ rest.properties,
          q ∈ (PlacedForest.node ptr name props children rest).properties :=
        fun q hq => List.mem_append_right _ (List.mem_append_right _ hq)
      refine ⟨fun p hp => ?_, ?_, ?_, ?_, ?_⟩
      · cases hp
        exact List.mem_cons_self
      · exact hcases (fun q hq => hinl q (hc.head q hq)) (fun p hp q hq => hinl q (hc.children p hp q hq))
          fun p hp q hq => hinr q (hr.children p hp q hq)
      · exact hcases (fun q hq => hinr q (hr.head q hq)) (fun p hp q hq => hinl q (hc.sibling p hp q hq))
          fun p hp q hq => hinr q (hr.sibling p hp q hq)
      · exact hcases (fun q hq => List.mem_append_left _ (hfirst q hq))
          (fun p hp q hq => hpl q (hc.first p hp q hq)) fun p hp q hq => hpr q (hr.first p hp q hq)
      · exact List.forall_mem_append.mpr ⟨fun q hq q' hq' => List.mem_append_left _ (hnext q hq q' hq'),
          List.forall_mem_append.mpr ⟨fun q hq q' hq' => hpl q' (hc.next q hq q' hq'),
            fun q hq q' hq' => hpr q' (hr.next q hq q' hq')⟩⟩

/-- **The places of a tree**.
Source: none: infrastructure
Kind: L -/
theorem TreeRep.exists_placed {ns ps : List ArrayPtr} {root : ArrayPtr} {t : FdtTree}
    (ht : TreeRep h ns ps root t) : ∃ props children,
      (PlacedForest.node root t.name props children .nil).forest = t.forest ∧
        (PlacedForest.node root t.name props children .nil).At h (some root) := by
  obtain ⟨-, hprops, hchildren, hsibling⟩ := ht
  obtain ⟨props, hplaced, hat, -⟩ := hprops.exists_placed
  obtain ⟨children, hforest, hatChildren, -, -⟩ := hchildren.exists_placed
  refine ⟨props, children, ?_, rfl, hat, hatChildren, hsibling⟩
  show FdtForest.node t.name (props.map Prod.snd).reverse children.forest .nil = _
  rw [hplaced, hforest, List.reverse_reverse]
  rfl

end links

/-! ## The tree between the passes -/

/-- All properties of the nodes.
Source: none: infrastructure
Kind: D -/
def FdtForest.properties : FdtForest → List FdtProp
  | .nil => []
  | .node _ props children rest => props ++ (children.properties ++ rest.properties)

section parse

variable {env : DtEnv} {bump : BumpAllocator} {t : FdtTree}

/-- Source: none: infrastructure. Kind: L -/
theorem PlacedForest.mem_properties {f : PlacedForest} {above : List (List FdtProp)} :
    ∀ n ∈ f.scoped above, ∀ x ∈ n.props, x.2 ∈ f.forest.properties := by
  induction f generalizing above with
  | nil => exact fun n hn => absurd hn List.not_mem_nil
  | node ptr name props children rest ihChildren ihRest =>
      rw [PlacedForest.scoped, PlacedForest.forest, FdtForest.properties]
      refine List.forall_mem_cons.mpr ⟨fun x hx => ?_, fun n hn x hx => ?_⟩
      · exact List.mem_append_left _ (List.mem_reverse.mpr (List.mem_map_of_mem hx))
      · refine List.mem_append_right _ ?_
        rcases List.mem_append.mp hn with hn | hn
        · exact List.mem_append_left _ (ihChildren n hn x hx)
        · exact List.mem_append_right _ (ihRest n hn x hx)

/-- What is reached from the first node is at the places of the tree, or is the first node.
Source: none: infrastructure
Kind: L -/
theorem PlacedForest.Closed.of_nodeReached {s : DtState} {root first p : ArrayPtr} {f : PlacedForest}
    (hc : f.Closed s.heap (some root)) (hcopy : s.nodes.cells root = s.nodes.cells first)
    (hr : NodeReached s first p) : p = first ∨ p ∈ f.nodes := by
  have hroot := hc.head root rfl
  induction hr with
  | root => exact Or.inl rfl
  | @child p q _ hlink ih =>
      rcases ih with rfl | hp
      · rw [← hcopy] at hlink
        exact Or.inr (hc.children root hroot q hlink)
      · exact Or.inr (hc.children p hp q hlink)
  | @sibling p q _ hlink ih =>
      rcases ih with rfl | hp
      · rw [← hcopy] at hlink
        exact Or.inr (hc.sibling root hroot q hlink)
      · exact Or.inr (hc.sibling p hp q hlink)

/-- Source: none: infrastructure. Kind: L -/
theorem PlacedForest.Closed.of_propReached {s : DtState} {root first q : ArrayPtr} {f : PlacedForest}
    (hc : f.Closed s.heap (some root)) (hcopy : s.nodes.cells root = s.nodes.cells first)
    (hr : PropReached s first q) : q ∈ f.properties := by
  induction hr with
  | @first p q hnode hlink =>
      rcases hc.of_nodeReached hcopy hnode with rfl | hp
      · rw [← hcopy] at hlink
        exact hc.first root (hc.head root rfl) q hlink
      · exact hc.first p hp q hlink
  | @next q q' _ hlink ih => exact hc.next q ih q' hlink

/-- As many elements, all of which are in a list, are those of the list, each once.
Source: none: infrastructure
Kind: L -/
theorem nodup_of_subset {α : Type} {l l' : List α} (hl : l.Nodup) (hsub : l ⊆ l')
    (hlen : l'.length ≤ l.length) : l'.Nodup ∧ l' ⊆ l := by
  have hperm := (hl.subperm hsub).perm_of_length_le hlen
  exact ⟨hperm.nodup_iff.mp hl, hperm.symm.subset⟩

/-- **A parsed tree is at its places**: the links from the first node reach every node and property that
was pushed.
Source: `device_tree.c` `dt_initialize`
Kind: P
Hyps: the allocations succeed, and the counts of the tree have at least the four bytes that are read -/
theorem dtPlaced_of_parse (hblock : EncodesTree env t) (hgrants : ∀ k, env.grants k = true)
    (hbump : BumpOk bump) (hroom : t.need ≤ bump.room)
    (hsize : bump.size.toNat + env.structs.length < 2 ^ 64) (hbig : bump.size.toNat ≤ 2 ^ 63)
    (hwords : ∀ p ∈ t.forest.properties, p.HasWord) :
    ∃ s root f, dtbParse env bump = .rewrite s root ∧ f.forest = t.forest ∧ DtPlaced s root f := by
  obtain ⟨s, root, added, plive, hparse, -, -, hready, hframe, hcopy, htree⟩ :=
    dtbParse_ready env bump t hblock hgrants hbump hroom
  have hsingle := htree.2.2.2
  obtain ⟨props, children, hforest, hat⟩ := TreeRep.exists_placed htree
  have hclosed := hat.closed
  set f := PlacedForest.node root t.name props children .nil with hf
  -- the arrays have as many elements as the tree
  obtain ⟨live, plive', hinv, hlinks, hnodes, hproperties, hroots, hroot, hzero⟩ :=
    dtLinks_of_parse hbump hsize hparse
  obtain ⟨hcount, hcount'⟩ := f.countP_tokens
  have htokens : f.forest.tokens = t.tokens := by
    rw [hforest]
    rfl
  have hnodes' : s.nodes.size = f.nodes.length := by
    rw [hnodes, ← hcount, htokens]
    exact hblock.countP_eq (by decide)
  have hproperties' : s.properties.size = f.properties.length := by
    rw [hproperties, ← hcount', htokens]
    exact hblock.countP_eq (by decide)
  rw [hblock.tops_eq] at hroots
  -- the links reach all of them
  have hfirst : (0, 0) ∈ live := by
    have hpos : 0 < live.length := by
      rw [hinv.array.length, hnodes']
      exact Nat.succ_pos _
    have hget := List.getElem?_eq_getElem hpos
    have hindex := hinv.array.index 0 _ hget
    have hmem := List.getElem_mem hpos
    rw [← show live[0] = (0, 0) from
      Prod.ext (hlinks.growth.first _ hmem (by rw [hindex]; decide)) hindex]
    exact hmem
  have hreach := hlinks.nodeReached_of_mem hinv.array hroots hfirst rfl
  have hpreach := hlinks.propReached_of_mem hreach
  have hfnodes : f.nodes = root :: children.nodes := congrArg (root :: ·) (List.append_nil _)
  have hlive : live ⊆ (0, 0) :: children.nodes := by
    intro q hq
    rcases hclosed.of_nodeReached hcopy (hreach q hq) with rfl | hmem
    · exact List.mem_cons_self
    · rw [hfnodes] at hmem
      rcases List.mem_cons.mp hmem with rfl | hmem
      · rw [hinv.array.eq_of_index hq hfirst hzero]
        exact List.mem_cons_self
      · exact List.mem_cons_of_mem _ hmem
  -- so no place is taken twice
  obtain ⟨hnodup, hsub⟩ := nodup_of_subset hinv.array.nodup hlive (by
    rw [hinv.array.length, hnodes', hfnodes]
    exact le_refl _)
  obtain ⟨hnodupProperties, -⟩ := nodup_of_subset hlinks.array.nodup
    (fun q hq => hclosed.of_propReached hcopy (hpreach q hq)) (by rw [hlinks.array.length, hproperties'])
  obtain ⟨hnot, hnodupChildren⟩ := List.nodup_cons.mp hnodup
  refine ⟨s, root, f, hparse, hforest, ⟨hat, ?_, hnodupProperties, hready.bump, ?_, ?_, ?_⟩, hsingle, ?_⟩
  · rw [hfnodes]
    refine List.nodup_cons.mpr ⟨fun hmem => hnot ?_, hnodupChildren⟩
    rw [hinv.array.eq_of_index (hsub (List.mem_cons_of_mem _ hmem)) hfirst hzero] at hmem
    exact hmem
  · rw [hframe.size]
    exact hbig
  · intro n hn x hx
    refine hwords x.2 ?_
    rw [← hforest]
    exact PlacedForest.mem_properties n hn x hx
  · rw [hproperties']
  · rw [hnodes']

end parse

end Octiron.Kernel
