import Octiron.Kernel.DeviceGrammar
import Octiron.Kernel.DeviceHeap
import Octiron.Kernel.DeviceRewrite

/-!
# The arrays and the tree

`state.nodes` and `state.properties` are arrays that grow, and the nodes and properties point to each
other by addresses that growing makes old.

* `NodeReached`, `PropReached` — what is reached from the root by the links.
* `ArraysHoldTree` — the arrays hold exactly what is reached.
* `DtLinks s live plive` — what the links are like in every state of the loop: they lead to the
  addresses `live` and `plive` at which nodes and properties were pushed, also from the copies in the
  newest buffer; and every node with a parent, and every property, is linked from somewhere.
* `dtLinks_of_loop` — the loop keeps it, and counts the nodes, the properties and the roots.
* `dtbRewrite_ends` — the lists are finite, so that the rewrite pass ends.
* **Main result** (`arraysHoldTree_iff`): the arrays hold the tree if and only if the nodes and the
  properties fit in the first page of their arrays.
-/

namespace Octiron.Kernel

open Octiron.Found
open Octiron.Kzadhbat

/-! ## What is reached -/

/-- Nodes reached from `root` by `children` and `sibling`.
Source: `device_tree.c` `dtb_recursive_property_rewrite`, `dtb_recursive_print`
Kind: D -/
inductive NodeReached (s : DtState) (root : ArrayPtr) : ArrayPtr → Prop
  | root : NodeReached s root root
  | child {p q : ArrayPtr} : NodeReached s root p → (s.nodes.cells p).children = some q →
      NodeReached s root q
  | sibling {p q : ArrayPtr} : NodeReached s root p → (s.nodes.cells p).sibling = some q →
      NodeReached s root q

/-- Properties reached from these by `properties` and `next`.
Source: `device_tree.c` `dtb_recursive_property_rewrite`, `dtb_recursive_print`
Kind: D -/
inductive PropReached (s : DtState) (root : ArrayPtr) : ArrayPtr → Prop
  | first {p q : ArrayPtr} : NodeReached s root p → (s.nodes.cells p).properties = some q →
      PropReached s root q
  | next {q q' : ArrayPtr} : PropReached s root q → (s.properties.cells q).next = some q' →
      PropReached s root q'

/-- **The arrays hold the tree**: the nodes and properties that are reached, and the parents, are the
elements of the arrays, and there are no other elements. So what is reached as a node or a property is
what the element of the array holds.
Source: `device_tree.c` `struct dt`
Kind: D -/
structure ArraysHoldTree (s : DtState) (root : ArrayPtr) : Prop where
  nodes : ∀ p, NodeReached s root p ↔ s.nodes.Elem p
  parents : ∀ p q, NodeReached s root p → (s.nodes.cells p).parent = some q → s.nodes.Elem q
  properties : ∀ q, PropReached s root q ↔ s.properties.Elem q

section same

variable {s s' : DtState} {root : ArrayPtr}

/-- Source: none: infrastructure. Kind: L -/
theorem SameLinks.symm (h : SameLinks s s') : SameLinks s' s := by
  refine ⟨h.nodes.symm, h.properties.symm, fun p => ?_, fun q => ?_⟩
  · obtain ⟨a, z, hp⟩ := h.node p
    exact ⟨(s.nodes.cells p).addressCells, (s.nodes.cells p).sizeCells, by rw [hp]⟩
  · obtain ⟨t, d, hq⟩ := h.property q
    exact ⟨(s.properties.cells q).type, (s.properties.cells q).data, by rw [hq]⟩

/-- Source: none: infrastructure. Kind: L -/
theorem NodeReached.of_sameLinks {p : ArrayPtr} (hr : NodeReached s root p) (h : SameLinks s s') :
    NodeReached s' root p := by
  induction hr with
  | root => exact .root
  | @child p q _ hlink ih =>
      obtain ⟨a, z, hp⟩ := h.node p
      exact ih.child (by rw [hp]; exact hlink)
  | @sibling p q _ hlink ih =>
      obtain ⟨a, z, hp⟩ := h.node p
      exact ih.sibling (by rw [hp]; exact hlink)

/-- Source: none: infrastructure. Kind: L -/
theorem PropReached.of_sameLinks {q : ArrayPtr} (hr : PropReached s root q) (h : SameLinks s s') :
    PropReached s' root q := by
  induction hr with
  | @first p q hnode hlink =>
      obtain ⟨a, z, hp⟩ := h.node p
      exact .first (hnode.of_sameLinks h) (by rw [hp]; exact hlink)
  | @next q q' _ hlink ih =>
      obtain ⟨t, d, hq⟩ := h.property q
      exact ih.next (by rw [hq]; exact hlink)

/-- **Only the links count**.
Source: none: infrastructure
Kind: L -/
theorem ArraysHoldTree.of_sameLinks (hold : ArraysHoldTree s root) (h : SameLinks s s') :
    ArraysHoldTree s' root := by
  have helem : ∀ p, s'.nodes.Elem p ↔ s.nodes.Elem p := by
    intro p
    have hdata : s'.nodes.data = s.nodes.data := congrArg (fun x : KArray Unit => x.data) h.nodes
    have hsize : s'.nodes.size = s.nodes.size := congrArg (fun x : KArray Unit => x.size) h.nodes
    unfold KArray.Elem
    rw [hdata, hsize]
  have helem' : ∀ q, s'.properties.Elem q ↔ s.properties.Elem q := by
    intro q
    have hdata : s'.properties.data = s.properties.data :=
      congrArg (fun x : KArray Unit => x.data) h.properties
    have hsize : s'.properties.size = s.properties.size :=
      congrArg (fun x : KArray Unit => x.size) h.properties
    unfold KArray.Elem
    rw [hdata, hsize]
  refine ⟨fun p => ?_, fun p q hp hq => ?_, fun q => ?_⟩
  · rw [helem, ← hold.nodes]
    exact ⟨fun hr => hr.of_sameLinks h.symm, fun hr => hr.of_sameLinks h⟩
  · obtain ⟨a, z, hcell⟩ := h.node p
    rw [hcell] at hq
    rw [helem]
    exact hold.parents p q (hp.of_sameLinks h.symm) hq
  · rw [helem', ← hold.properties]
    exact ⟨fun hr => hr.of_sameLinks h.symm, fun hr => hr.of_sameLinks h⟩

end same

/-! ## The links of the loop -/

/-- The room of the first page of `state.nodes`.
Source: `array.h` `ARRAY_PUSH`
Kind: D -/
def nodesPerPage : ℕ := 4096 / sizeofDtNode

/-- Source: `array.h` `ARRAY_PUSH`. Kind: D -/
def propertiesPerPage : ℕ := 4096 / sizeofDtProperty

/-- The links of a node lead to nodes and properties that have been pushed.
Source: none: infrastructure
Kind: D -/
structure NodeLinks (n : DtNode) (live plive : List ArrayPtr) : Prop where
  children : ∀ q, n.children = some q → q ∈ live
  sibling : ∀ q, n.sibling = some q → q ∈ live
  parent : ∀ q, n.parent = some q → q ∈ live
  properties : ∀ q, n.properties = some q → q ∈ plive

/-- **The links in a state of the loop**.
Source: `device_tree.c` `dtb_parse_node`, `dtb_parse_property`
Kind: D -/
structure DtLinks (nodes : KArray DtNode) (properties : KArray DtProperty)
    (live plive : List ArrayPtr) : Prop where
  array : ArrayLive properties plive
  growth : ArrayGrowth nodesPerPage nodes live
  pgrowth : ArrayGrowth propertiesPerPage properties plive
  links : ∀ p, p ∈ live ∨ nodes.Elem p → NodeLinks (nodes.cells p) live plive
  next : ∀ q, q ∈ plive ∨ properties.Elem q → ∀ q', (properties.cells q).next = some q' → q' ∈ plive
  parent_lt : ∀ p ∈ live, ∀ q, (nodes.cells p).parent = some q → q.2 < p.2
  child_lt : ∀ p, p ∈ live ∨ nodes.Elem p → ∀ q, (nodes.cells p).children = some q → p.2 < q.2
  next_lt : ∀ q ∈ plive, ∀ q', (properties.cells q).next = some q' → q'.2 < q.2
  linked : ∀ q ∈ live, (nodes.cells q).parent ≠ none → ∃ p ∈ live, p.2 < q.2 ∧
    ((nodes.cells p).children = some q ∨ (nodes.cells p).sibling = some q)
  listed : ∀ q ∈ plive, (∃ p ∈ live, (nodes.cells p).properties = some q) ∨
    ∃ q' ∈ plive, q.2 < q'.2 ∧ (properties.cells q').next = some q

section links

variable {nodes : KArray DtNode} {properties : KArray DtProperty} {live plive stack : List ArrayPtr}

/-- Source: none: infrastructure. Kind: L -/
theorem NodeLinks.mono {n : DtNode} {live' plive' : List ArrayPtr} (h : NodeLinks n live plive)
    (hlive : live ⊆ live') (hplive : plive ⊆ plive') : NodeLinks n live' plive' :=
  ⟨fun q hq => hlive (h.children q hq), fun q hq => hlive (h.sibling q hq),
    fun q hq => hlive (h.parent q hq), fun q hq => hplive (h.properties q hq)⟩

/-- Source: none: infrastructure. Kind: L -/
theorem dtLinks_init (bump : BumpAllocator) :
    DtLinks (dtbInit bump).nodes (dtbInit bump).properties [] [] := by
  have hnode : ∀ p, ¬ (p ∈ [] ∨ (dtbInit bump).nodes.Elem p) := by
    rintro p (hp | ⟨hdata, -⟩)
    · exact absurd hp List.not_mem_nil
    · cases hdata
  have hproperty : ∀ q, ¬ (q ∈ [] ∨ (dtbInit bump).properties.Elem q) := by
    rintro q (hq | ⟨hdata, -⟩)
    · exact absurd hq List.not_mem_nil
    · cases hdata
  exact ⟨arrayLive_init _, arrayGrowth_init _ _, arrayGrowth_init _ _,
    fun p hp => absurd hp (hnode p), fun q hq => absurd hq (hproperty q),
    fun p hp => absurd hp List.not_mem_nil, fun p hp => absurd hp (hnode p),
    fun q hq => absurd hq List.not_mem_nil, fun q hq => absurd hq List.not_mem_nil,
    fun q hq => absurd hq List.not_mem_nil⟩

/-- **What is found after a push**, at the pointers given out and in the newest buffer: the new value, or
what was found at the same index before.
Source: `array.h` `ARRAY_PUSH`
Kind: L -/
theorem ArrayGrowth.append_cases {α : Type} {room sizeofElem : ℕ} {a a₁ : KArray α}
    (h : ArrayGrowth room a plive) (harray : ArrayLive a plive) {granted : Bool}
    (hreserve : arrayReserve sizeofElem granted a = some a₁) (value : α) {q : ArrayPtr}
    (hq : q ∈ plive ++ [(arrayAppend a₁ value).2] ∨ (arrayAppend a₁ value).1.Elem q) :
    (q.2 = a.size ∧ (arrayAppend a₁ value).1.cells q = value) ∨
    ∃ q', (q' ∈ plive ∨ a.Elem q') ∧ q'.2 = q.2 ∧ (q ∈ plive → q' = q) ∧
      (arrayAppend a₁ value).1.cells q = a.cells q' := by
  obtain ⟨hlive, hsize, hcells, -, d, hd, hcopy⟩ := harray.reserve hreserve
  obtain ⟨hnew, hfresh, -, hcell, hother⟩ := hlive.append hd value
  rw [hnew, hsize] at hq
  rw [hsize] at hfresh hcell hother
  by_cases hqn : q = (d, a.size)
  · rw [hqn]
    exact Or.inl ⟨rfl, hcell⟩
  · refine Or.inr ?_
    rw [hother q hqn]
    rcases hq with hq | ⟨hdata, hlt⟩
    · have hmem : q ∈ plive := (List.mem_append.mp hq).resolve_right fun hq =>
        hqn (List.mem_singleton.mp hq)
      exact ⟨q, Or.inl hmem, rfl, fun _ => rfl, hcells q hmem⟩
    · change a₁.data = some q.1 at hdata
      change q.2 < a₁.size + 1 at hlt
      rw [hd] at hdata
      have hq1 : q.1 = d := (Option.some.inj hdata).symm
      have hk : q.2 ≠ a.size := fun hk => hqn (Prod.ext hq1 hk)
      have hk' : q.2 < a.size := by omega
      by_cases hmem : q ∈ plive
      · exact ⟨q, Or.inl hmem, rfl, fun _ => rfl, hcells q hmem⟩
      · obtain ⟨e, he⟩ := h.exists_data (Nat.zero_lt_of_lt hk')
        refine ⟨(e, q.2), Or.inr ⟨he, hk'⟩, rfl, fun hq => absurd hq hmem, ?_⟩
        rw [← hcopy e he q.2 hk', ← hq1]

/-- The new first property of a node.
Source: `device_tree.c` `dtb_parse_property`
Kind: L -/
theorem modify_properties_cases (nodes : KArray DtNode) (c new p : ArrayPtr) :
    (p = c ∧ (nodes.modify c fun n => { n with properties := some new }).cells p =
      { nodes.cells p with properties := some new }) ∨
    (p ≠ c ∧ (nodes.modify c fun n => { n with properties := some new }).cells p = nodes.cells p) := by
  by_cases hp : p = c
  · exact Or.inl ⟨hp, by rw [hp, KArray.modify_cells_self]⟩
  · exact Or.inr ⟨hp, KArray.modify_cells_of_ne _ _ hp⟩

/-- **`FDT_PROP` keeps the links**: the new property is the first of the open node `c`, before the one
that was.
Source: `device_tree.c` `dtb_parse_property`
Kind: P -/
theorem DtLinks.pushProperty (h : DtLinks nodes properties live plive) {c : ArrayPtr} (hc : c ∈ live)
    {granted : Bool} {reserved : KArray DtProperty}
    (hreserve : arrayReserve sizeofDtProperty granted properties = some reserved) {value : DtProperty}
    (hvalue : value.next = (nodes.cells c).properties) :
    DtLinks (nodes.modify c fun n => { n with properties := some (arrayAppend reserved value).2 })
      (arrayAppend reserved value).1 live (plive ++ [(arrayAppend reserved value).2]) := by
  obtain ⟨harray, hsize, -, -, d, hd, -⟩ := h.array.reserve hreserve
  obtain ⟨hnew, hfresh, hlive, hcell, -⟩ := harray.append hd value
  have hcases := fun q hq => h.pgrowth.append_cases (q := q) h.array hreserve value hq
  rw [hnew] at hcases ⊢
  rw [hsize] at hlive hfresh hcell hcases ⊢
  set new : ArrayPtr := (d, properties.size) with hnewdef
  set properties' := (arrayAppend reserved value).1 with hproperties'
  have hnewMem : new ∈ plive ++ [new] := List.mem_append_right _ (List.mem_singleton_self new)
  have hsub : plive ⊆ plive ++ [new] := List.subset_append_left _ _
  have hmodify := fun p => modify_properties_cases nodes c new p
  -- the property that was the first one of `c`
  have hfirst : ∀ q', value.next = some q' → q' ∈ plive := by
    intro q' hq'
    rw [hvalue] at hq'
    exact (h.links c (Or.inl hc)).properties q' hq'
  refine ⟨hlive, h.growth.of_forget rfl, ?_, fun p hp => ?_, fun q hq q' hq' => ?_, fun p hp q hq => ?_,
    fun p hp q hq => ?_, fun q hq q' hq' => ?_, fun q hq hpar => ?_, fun q hq => ?_⟩
  · exact h.pgrowth.push (by decide) rfl hreserve (KArray.forget_append reserved value) hd
  · have hold := h.links p hp
    rcases hmodify p with ⟨-, hp'⟩ | ⟨-, hp'⟩
    · rw [hp']
      refine ⟨hold.children, hold.sibling, hold.parent, fun q hq => ?_⟩
      cases hq
      exact hnewMem
    · rw [hp']
      exact hold.mono (List.Subset.refl live) hsub
  · rcases hcases q hq with ⟨-, hq₁⟩ | ⟨q₁, hq₁, -, -, hcopied⟩
    · rw [hq₁] at hq'
      exact hsub (hfirst q' hq')
    · rw [hcopied] at hq'
      exact hsub (h.next q₁ hq₁ q' hq')
  · rcases hmodify p with ⟨-, hp'⟩ | ⟨-, hp'⟩ <;> rw [hp'] at hq <;> exact h.parent_lt p hp q hq
  · rcases hmodify p with ⟨-, hp'⟩ | ⟨-, hp'⟩ <;> rw [hp'] at hq <;> exact h.child_lt p hp q hq
  · rcases hcases q (Or.inl hq) with ⟨hindex, hq₁⟩ | ⟨q₁, -, -, hself, hcopied⟩
    · rw [hq₁] at hq'
      rw [hindex]
      exact h.array.index_lt (hfirst q' hq')
    · rcases List.mem_append.mp hq with hq | hq
      · rw [hcopied, hself hq] at hq'
        exact h.next_lt q hq q' hq'
      · rw [List.mem_singleton.mp hq, hcell] at hq'
        rw [List.mem_singleton.mp hq]
        exact h.array.index_lt (hfirst q' hq')
  · have hpar' : (nodes.cells q).parent ≠ none := by
      rcases hmodify q with ⟨-, hq'⟩ | ⟨-, hq'⟩ <;> rw [hq'] at hpar <;> exact hpar
    obtain ⟨p, hp, hlt, hlink⟩ := h.linked q hq hpar'
    refine ⟨p, hp, hlt, ?_⟩
    rcases hmodify p with ⟨-, hp'⟩ | ⟨-, hp'⟩ <;> rw [hp'] <;> exact hlink
  · have hkeep : ∀ q ∈ plive, properties'.cells q = properties.cells q := by
      intro q hq
      rcases hcases q (Or.inl (hsub hq)) with ⟨hindex, -⟩ | ⟨q₁, -, -, hself, hcopied⟩
      · exact absurd hindex (h.array.index_lt hq).ne
      · rw [hcopied, hself hq]
    rcases List.mem_append.mp hq with hq | hq
    · rcases h.listed q hq with ⟨p, hp, hhead⟩ | ⟨q', hq', hlt, hnext⟩
      · rcases hmodify p with ⟨hpc, -⟩ | ⟨-, hp'⟩
        · refine Or.inr ⟨new, hnewMem, h.array.index_lt hq, ?_⟩
          rw [hcell, hvalue, ← hpc, hhead]
        · refine Or.inl ⟨p, hp, ?_⟩
          rw [hp', hhead]
      · refine Or.inr ⟨q', hsub hq', hlt, ?_⟩
        rw [hkeep q' hq', hnext]
    · rw [List.mem_singleton.mp hq]
      refine Or.inl ⟨c, hc, ?_⟩
      rw [KArray.modify_cells_self]

/-- **Filling a slot** adds a link where there was none.
Source: `device_tree.c` `dtb_parse_node`
Kind: L -/
theorem dtSlot_fill_cases {curr : Option ArrayPtr} {cs : List ArrayPtr}
    (hcs : ∀ c, curr = some c → SibChain nodes.cells (nodes.cells c).children cs) (new p : ArrayPtr) :
    (((dtSlot curr cs).fill nodes new).cells p = { nodes.cells p with children := some new } ∧
      (nodes.cells p).children = none) ∨
    (((dtSlot curr cs).fill nodes new).cells p = { nodes.cells p with sibling := some new } ∧
      (nodes.cells p).sibling = none) ∨
    (((dtSlot curr cs).fill nodes new).cells p = nodes.cells p ∧ (dtSlot curr cs).ptr ≠ some p) := by
  by_cases hptr : (dtSlot curr cs).ptr = some p
  · cases curr with
    | none => cases hptr
    | some c =>
        have hchain := hcs c rfl
        unfold dtSlot at hptr ⊢
        dsimp only at hptr ⊢
        cases hlast : cs.getLast? with
        | none =>
            rw [hlast] at hptr
            cases hptr
            rw [List.getLast?_eq_none_iff] at hlast
            subst hlast
            refine Or.inl ⟨?_, hchain⟩
            unfold DtSlot.fill
            rw [KArray.modify_cells_self]
        | some l =>
            rw [hlast] at hptr
            cases hptr
            refine Or.inr (Or.inl ⟨?_, hchain.last hlast⟩)
            unfold DtSlot.fill
            rw [KArray.modify_cells_self]
  · exact Or.inr (Or.inr ⟨DtSlot.fill_cells_of_ne nodes new hptr, hptr⟩)

/-- Source: none: infrastructure. Kind: L -/
theorem dtSlot_ptr_ne_none (c : ArrayPtr) (cs : List ArrayPtr) : (dtSlot (some c) cs).ptr ≠ none := by
  unfold dtSlot
  dsimp only
  cases cs.getLast? with
  | none => exact Option.some_ne_none c
  | some l => exact Option.some_ne_none l

/-- A node after another was linked in: with the link where there was none, or as it was.
Source: `device_tree.c` `dtb_parse_node`
Kind: D -/
def NodeFilled (n n' : DtNode) (new : ArrayPtr) : Prop :=
  (n' = { n with children := some new } ∧ n.children = none) ∨
  (n' = { n with sibling := some new } ∧ n.sibling = none) ∨ n' = n

/-- Source: none: infrastructure. Kind: L -/
theorem NodeFilled.links {n n' : DtNode} {new : ArrayPtr} (h : NodeFilled n n' new)
    (hn : NodeLinks n live plive) : NodeLinks n' (live ++ [new]) plive := by
  have hnew : new ∈ live ++ [new] := List.mem_append_right _ (List.mem_singleton_self new)
  have hold := hn.mono (List.subset_append_left live [new]) (List.Subset.refl plive)
  rcases h with ⟨rfl, -⟩ | ⟨rfl, -⟩ | rfl
  · refine ⟨fun q hq => ?_, hold.sibling, hold.parent, hold.properties⟩
    cases hq
    exact hnew
  · refine ⟨hold.children, fun q hq => ?_, hold.parent, hold.properties⟩
    cases hq
    exact hnew
  · exact hold

/-- Source: none: infrastructure. Kind: L -/
theorem NodeFilled.parent {n n' : DtNode} {new : ArrayPtr} (h : NodeFilled n n' new) :
    n'.parent = n.parent ∧ n'.properties = n.properties := by
  rcases h with ⟨rfl, -⟩ | ⟨rfl, -⟩ | rfl <;> exact ⟨rfl, rfl⟩

/-- The links that were there are still there.
Source: none: infrastructure
Kind: L -/
theorem NodeFilled.keeps {n n' : DtNode} {new q : ArrayPtr} (h : NodeFilled n n' new)
    (hlink : n.children = some q ∨ n.sibling = some q) :
    n'.children = some q ∨ n'.sibling = some q := by
  rcases h with ⟨rfl, hnone⟩ | ⟨rfl, hnone⟩ | rfl
  · rw [hnone] at hlink
    exact Or.inr (hlink.resolve_left nofun)
  · rw [hnone] at hlink
    exact Or.inl (hlink.resolve_right nofun)
  · exact hlink

section pushed

variable {s s' : DtState} {cs : List ArrayPtr} {new : ArrayPtr} {name : DtName}

/-- Source: none: infrastructure. Kind: L -/
theorem DtPushed.nodeFilled (hp : DtPushed s s' live (dtSlot s.curr cs) new name)
    (hcs : ∀ c, s.curr = some c → SibChain s.nodes.cells (s.nodes.cells c).children cs) {p : ArrayPtr}
    (hpl : p ∈ live) : NodeFilled (s.nodes.cells p) (s'.nodes.cells p) new := by
  rw [hp.filled p hpl]
  rcases dtSlot_fill_cases hcs new p with hcell | hcell | ⟨hcell, -⟩
  · exact Or.inl hcell
  · exact Or.inr (Or.inl hcell)
  · exact Or.inr (Or.inr hcell)

/-- **The nodes after `FDT_BEGIN_NODE`**, those pushed and those in the newest buffer: the new one, or one
that was there with the same index.
Source: `device_tree.c` `dtb_parse_node`, `array.h` `ARRAY_PUSH`
Kind: L -/
theorem DtPushed.node_cases (hp : DtPushed s s' live (dtSlot s.curr cs) new name)
    (hinv : DtInv s live stack) (hgrowth : ArrayGrowth nodesPerPage s.nodes live)
    (hcs : ∀ c, s.curr = some c → SibChain s.nodes.cells (s.nodes.cells c).children cs)
    (hcsLive : ∀ p ∈ cs, p ∈ live) {p : ArrayPtr} (hpl : p ∈ live ++ [new] ∨ s'.nodes.Elem p) :
    p = new ∨ ∃ p', (p' ∈ live ∨ s.nodes.Elem p') ∧ p'.2 = p.2 ∧
      NodeFilled (s.nodes.cells p') (s'.nodes.cells p) new := by
  rcases hpl with hpl | ⟨hdata, hlt⟩
  · rcases List.mem_append.mp hpl with hpl | hpl
    · exact Or.inr ⟨p, Or.inl hpl, rfl, hp.nodeFilled hcs hpl⟩
    · exact Or.inl (List.mem_singleton.mp hpl)
  · have hsize : s'.nodes.size = s.nodes.size + 1 := by
      rw [← hp.array.length, List.length_append, hinv.array.length]
      rfl
    have hp1 : p.1 = new.1 := by
      rw [hp.data] at hdata
      exact (Option.some.inj hdata).symm
    by_cases hk : p.2 = s.nodes.size
    · exact Or.inl (Prod.ext hp1 (hk.trans hp.index.symm))
    · refine Or.inr ?_
      by_cases hptr : (dtSlot s.curr cs).ptr = some p
      · have hmem := dtSlot_ptr_mem hinv.curr hinv.stack_live hcsLive hptr
        exact ⟨p, Or.inl hmem, rfl, hp.nodeFilled hcs hmem⟩
      · -- a copy of an element that was there
        have hk' : p.2 < s.nodes.size := by omega
        have hpn : p = (new.1, p.2) := Prod.ext hp1 rfl
        obtain ⟨e, he⟩ := hgrowth.exists_data (Nat.zero_lt_of_lt hk')
        refine ⟨(e, p.2), Or.inr ⟨he, hk'⟩, rfl, Or.inr (Or.inr ?_)⟩
        rw [hpn] at hptr
        rw [hpn, hp.copies e he p.2 hk' hptr]

/-- The new node is linked in at its slot.
Source: `device_tree.c` `dtb_parse_node`
Kind: L -/
theorem DtPushed.exists_link (hp : DtPushed s s' live (dtSlot s.curr cs) new name)
    (hinv : DtInv s live stack)
    (hcs : ∀ c, s.curr = some c → SibChain s.nodes.cells (s.nodes.cells c).children cs)
    (hcsLive : ∀ p ∈ cs, p ∈ live) (hparent : (s'.nodes.cells new).parent ≠ none) :
    ∃ p ∈ live, (s'.nodes.cells p).children = some new ∨ (s'.nodes.cells p).sibling = some new := by
  rw [hp.node] at hparent
  obtain ⟨c, hc⟩ := Option.ne_none_iff_exists'.mp hparent
  change s.curr = some c at hc
  have hptr := dtSlot_ptr_ne_none c cs
  rw [← hc] at hptr
  obtain ⟨p, hptr⟩ := Option.ne_none_iff_exists'.mp hptr
  have hpl := dtSlot_ptr_mem hinv.curr hinv.stack_live hcsLive hptr
  refine ⟨p, hpl, ?_⟩
  rw [hp.filled p hpl]
  rcases dtSlot_fill_cases hcs new p with ⟨hcell, -⟩ | ⟨hcell, -⟩ | ⟨-, hne⟩
  · rw [hcell]
    exact Or.inl rfl
  · rw [hcell]
    exact Or.inr rfl
  · exact absurd hptr hne

/-- **`FDT_BEGIN_NODE` keeps the links**.
Source: `device_tree.c` `dtb_parse_node`
Kind: P -/
theorem DtLinks.pushNode (h : DtLinks s.nodes s.properties live plive) (hinv : DtInv s live stack)
    (hcs : ∀ c, s.curr = some c → SibChain s.nodes.cells (s.nodes.cells c).children cs)
    (hcsLive : ∀ p ∈ cs, p ∈ live) (hp : DtPushed s s' live (dtSlot s.curr cs) new name)
    (hgrowth : ArrayGrowth nodesPerPage s'.nodes (live ++ [new])) :
    DtLinks s'.nodes s'.properties (live ++ [new]) plive := by
  have hsub : live ⊆ live ++ [new] := List.subset_append_left _ _
  have hcases := fun p hpl => hp.node_cases (p := p) hinv h.growth hcs hcsLive hpl
  have hfilled := fun p hpl => hp.nodeFilled (p := p) hcs hpl
  have hlt : ∀ p ∈ live, p.2 < new.2 := by
    intro p hpl
    rw [hp.index]
    exact hinv.array.index_lt hpl
  have hcurrLive : ∀ c, s.curr = some c → c ∈ live := by
    intro c hc
    rw [hinv.curr] at hc
    exact hinv.stack_live c (List.mem_of_head? hc)
  refine ⟨?_, hgrowth, ?_, fun p hpl => ?_, ?_, fun p hpl q hq => ?_, fun p hpl q hq => ?_, ?_,
    fun q hq hpar => ?_, fun q hq => ?_⟩
  · rw [hp.properties]
    exact h.array
  · rw [hp.properties]
    exact h.pgrowth
  · rcases hcases p hpl with rfl | ⟨p', hp', -, hfill⟩
    · rw [hp.node]
      exact ⟨nofun, nofun, fun q hq => hsub (hcurrLive q hq), nofun⟩
    · exact hfill.links (h.links p' hp')
  · rw [hp.properties]
    exact h.next
  · rcases List.mem_append.mp hpl with hpl | hpl
    · rw [(hfilled p hpl).parent.1] at hq
      exact h.parent_lt p hpl q hq
    · rw [List.mem_singleton.mp hpl, hp.node] at hq
      rw [List.mem_singleton.mp hpl]
      exact hlt q (hcurrLive q hq)
  · rcases hcases p hpl with rfl | ⟨p', hp', hindex, hfill⟩
    · rw [hp.node] at hq
      cases hq
    · have hlt' : p'.2 < new.2 := by
        rw [hp.index]
        rcases hp' with hp' | hp'
        · exact hinv.array.index_lt hp'
        · exact hp'.2
      rw [← hindex]
      rcases hfill with ⟨hcell, -⟩ | ⟨hcell, -⟩ | hcell
      · rw [hcell] at hq
        cases hq
        exact hlt'
      · rw [hcell] at hq
        exact h.child_lt p' hp' q hq
      · rw [hcell] at hq
        exact h.child_lt p' hp' q hq
  · rw [hp.properties]
    exact h.next_lt
  · rcases List.mem_append.mp hq with hq | hq
    · rw [(hfilled q hq).parent.1] at hpar
      obtain ⟨p, hpl, hpq, hlink⟩ := h.linked q hq hpar
      exact ⟨p, hsub hpl, hpq, (hfilled p hpl).keeps hlink⟩
    · rw [List.mem_singleton.mp hq] at hpar ⊢
      obtain ⟨p, hpl, hlink⟩ := hp.exists_link hinv hcs hcsLive hpar
      exact ⟨p, hsub hpl, hlt p hpl, hlink⟩
  · rw [hp.properties]
    rcases h.listed q hq with ⟨p, hpl, hhead⟩ | hnext
    · refine Or.inl ⟨p, hsub hpl, ?_⟩
      rw [(hfilled p hpl).parent.2]
      exact hhead
    · exact Or.inr hnext

end pushed

end links

/-! ## The loop -/

/-- The number of nodes without a parent.
Source: none: infrastructure
Kind: D -/
def rootCount (nodes : KArray DtNode) (live : List ArrayPtr) : ℕ :=
  live.countP fun p => (nodes.cells p).parent = none

/-- What a round with the token `t` comes to: the links, the sizes of the arrays, and a root for every
node at depth 0.
Source: none: infrastructure
Kind: D -/
structure LinksAfter (s s' : DtState) (live stack live' plive' stack' : List ArrayPtr) (t : DtToken) :
    Prop where
  inv : DtInv s' live' stack'
  links : DtLinks s'.nodes s'.properties live' plive'
  bump : BumpOk s'.bump
  bumpSize : s'.bump.size = s.bump.size
  nodes : s'.nodes.size = s.nodes.size + if dtKind t = .opening then 1 else 0
  properties : s'.properties.size = s.properties.size + if dtKind t = .item then 1 else 0
  roots : ∀ ts, rootCount s'.nodes live' + tops dtKind stack'.length ts =
    rootCount s.nodes live + tops dtKind stack.length (t :: ts)

section loop

variable {env : DtEnv} {s s' : DtState} {live plive stack : List ArrayPtr} {off' : ℕ}

/-- Source: none: infrastructure. Kind: L -/
theorem rootCount_congr {nodes nodes' : KArray DtNode}
    (h : ∀ p ∈ live, (nodes'.cells p).parent = (nodes.cells p).parent) :
    rootCount nodes' live = rootCount nodes live := by
  unfold rootCount
  refine List.countP_congr fun p hp => ?_
  rw [h p hp]

/-- A round with `FDT_PROP`.
Source: `device_tree.c` `dtb_parse_property`
Kind: L -/
theorem DtLinks.step_prop (h : DtLinks s.nodes s.properties live plive) (hinv : DtInv s live stack)
    (hoff : s.off % 4 = 0) (hbump : BumpOk s.bump) {propLen nameOffset : BitVec 32}
    {value : List (BitVec 8)}
    (hlex : dtLex env.structs s.off = .tok (.prop propLen nameOffset value) off')
    (hstep : dtbStep env s = .ok s') :
    ∃ plive', LinksAfter s s' live stack live plive' stack (.prop propLen nameOffset value) ∧
      s'.off = off' := by
  rcases dtbStep_prop hinv hoff hlex with ⟨stop, -, herror⟩ |
    ⟨bump, propName, propValue, reserved, halloc, hcases⟩
  · rw [herror] at hstep
    cases hstep
  · rcases hcases with ⟨-, herror⟩ | ⟨c, rest, s₁, rfl, hstep₁, hs₁, hinv₁⟩
    · rw [herror] at hstep
      cases hstep
    · rw [hstep₁] at hstep
      cases hstep
      obtain ⟨hok, hbsize⟩ := dtbAllocProperty_bump hbump halloc
      have hreserve := dtbAllocProperty_reserve halloc
      have hc : c ∈ live := hinv.stack_live c List.mem_cons_self
      have hvalue : (DtProperty.mk propName (s.nodes.cells c).properties .raw
          (.raw propLen propValue)).next = (s.nodes.cells c).properties := rfl
      have hlinks := h.pushProperty hc hreserve hvalue
      have hsize := (h.array.reserve hreserve).2.1
      have hparent : ∀ p ∈ live, (s'.nodes.cells p).parent = (s.nodes.cells p).parent := by
        intro p _
        rw [hs₁]
        by_cases hp : p = c
        · rw [hp, KArray.modify_cells_self]
        · rw [KArray.modify_cells_of_ne _ _ hp]
      refine ⟨plive ++ [(arrayAppend reserved ⟨propName, (s.nodes.cells c).properties, .raw,
        .raw propLen propValue⟩).2], ⟨hinv₁, ?_, ?_, ?_, ?_, ?_, fun ts => ?_⟩, ?_⟩
      · rw [hs₁]
        exact hlinks
      · rw [hs₁]
        exact hok
      · rw [hs₁]
        exact hbsize
      · rw [hs₁]
        rfl
      · rw [hs₁]
        show reserved.size + 1 = _
        rw [hsize]
        rfl
      · rw [rootCount_congr hparent]
        rfl
      · rw [hs₁]

/-- A round with `FDT_BEGIN_NODE`.
Source: `device_tree.c` `dtb_parse_node`
Kind: L -/
theorem DtLinks.step_beginNode (h : DtLinks s.nodes s.properties live plive)
    (hinv : DtInv s live stack) (hoff : s.off % 4 = 0) (hbump : BumpOk s.bump)
    (hsize : s.bump.size.toNat + env.structs.length < 2 ^ 64) {name : List (BitVec 8)}
    (hlex : dtLex env.structs s.off = .tok (.beginNode name) off') (hstep : dtbStep env s = .ok s') :
    ∃ new, LinksAfter s s' live stack (live ++ [new]) plive (new :: stack) (.beginNode name) ∧
      s'.off = off' := by
  cases halloc : dtbAllocNode env s.bump s.nodes s.allocs name with
  | error stop =>
      rw [dtbStep_beginNode_error hoff hlex halloc] at hstep
      cases hstep
  | ok r =>
      obtain ⟨bump, nameBuf, nodes⟩ := r
      have hnameLen := dtLex_beginNode_length hlex
      obtain ⟨hname, hok, hbsize⟩ := dtbAllocNode_ok hbump (by omega) halloc
      obtain ⟨cs, hcs, hcsLive, hcsLen⟩ := hinv.exists_children
      obtain ⟨s₁, new, hstep₁, hpushed, hoff', hbump', -, hforget⟩ := dtbStep_beginNode hinv hoff hlex
        halloc hname (by omega) hcs hcsLive hcsLen
      rw [hstep₁] at hstep
      cases hstep
      have hdata : nodes.data = some new.1 := by
        rw [← hpushed.data]
        exact (congrArg (fun x : KArray Unit => x.data) hforget).symm
      have hgrowth := h.growth.push (by decide) rfl (dtbAllocNode_reserve halloc) hforget hdata
      have hnew : (new.1, s.nodes.size) = new := Prod.ext rfl hpushed.index.symm
      rw [hnew] at hgrowth
      have hparent : ∀ p ∈ live, (s'.nodes.cells p).parent = (s.nodes.cells p).parent := by
        intro p hp
        rw [hpushed.filled p hp]
        exact DtSlot.fill_parent s.nodes new _ p
      refine ⟨new, ⟨hpushed.inv hinv, h.pushNode hinv hcs hcsLive hpushed hgrowth, ?_, ?_, ?_, ?_,
        fun ts => ?_⟩, hoff'⟩
      · rw [hbump']
        exact hok
      · rw [hbump', hbsize]
      · rw [← hpushed.array.length, List.length_append, hinv.array.length]
        rfl
      · rw [hpushed.properties]
        rfl
      · -- the new node has no parent exactly when none is open
        have hroot : (s'.nodes.cells new).parent = none ↔ stack.length = 0 := by
          rw [hpushed.node, hinv.curr, List.head?_eq_none_iff, List.length_eq_zero_iff]
        have hcount : rootCount s'.nodes (live ++ [new]) =
            rootCount s.nodes live + if stack.length = 0 then 1 else 0 := by
          have hold := rootCount_congr hparent
          unfold rootCount at hold ⊢
          rw [List.countP_append, hold]
          simp [List.countP_cons, hroot]
        rw [hcount]
        show _ = _ + ((if stack.length = 0 then 1 else 0) + tops dtKind (stack.length + 1) ts)
        rw [List.length_cons]
        omega

/-- **One round**.
Source: `device_tree.c` `dt_initialize`
Kind: P -/
theorem DtLinks.step (h : DtLinks s.nodes s.properties live plive) (hinv : DtInv s live stack)
    (hoff : s.off % 4 = 0) (hbump : BumpOk s.bump)
    (hsize : s.bump.size.toNat + env.structs.length < 2 ^ 64) {t : DtToken}
    (hlex : dtLex env.structs s.off = .tok t off') (hstep : dtbStep env s = .ok s') :
    ∃ live' plive' stack', LinksAfter s s' live stack live' plive' stack' t ∧ s'.off = off' := by
  cases t with
  | nop =>
      rw [dtbStep_nop hoff hlex] at hstep
      cases hstep
      exact ⟨live, plive, stack, ⟨⟨hinv.array, hinv.curr, hinv.depth, hinv.parents, hinv.stack_live,
        hinv.children, hinv.sibling⟩, h, hbump, rfl, rfl, rfl, fun _ => rfl⟩, rfl⟩
  | endNode =>
      rcases dtbStep_endNode hinv hoff hlex with ⟨-, herror⟩ | ⟨c, rest, rfl, hstep₁, hinv₁⟩
      · rw [herror] at hstep
        cases hstep
      · rw [hstep₁] at hstep
        cases hstep
        exact ⟨live, plive, rest, ⟨hinv₁, h, hbump, rfl, rfl, rfl, fun _ => rfl⟩, rfl⟩
  | prop propLen nameOffset value =>
      obtain ⟨plive', hafter, hoff'⟩ := h.step_prop hinv hoff hbump hlex hstep
      exact ⟨live, plive', stack, hafter, hoff'⟩
  | beginNode name =>
      obtain ⟨new, hafter, hoff'⟩ := h.step_beginNode hinv hoff hbump hsize hlex hstep
      exact ⟨live ++ [new], plive, new :: stack, hafter, hoff'⟩

/-- **The links when the loop gets to the rewrite pass**, with a node for each `FDT_BEGIN_NODE`, a
property for each `FDT_PROP` and a root for each node at depth 0.
Source: `device_tree.c` `dt_initialize`
Kind: P -/
theorem dtLinks_of_loop {n : ℕ} :
    ∀ {s : DtState} {live plive stack : List ArrayPtr}, DtLinks s.nodes s.properties live plive →
      DtInv s live stack → s.off % 4 = 0 → BumpOk s.bump →
      s.bump.size.toNat + env.structs.length < 2 ^ 64 →
      dtbLoop env n s = (.rewritePass, s') →
      ∃ live' plive', DtInv s' live' [] ∧ DtLinks s'.nodes s'.properties live' plive' ∧
        s'.nodes.size =
          s.nodes.size + (dtTokensFrom env.structs n s.off).1.countP (dtKind · = .opening) ∧
        s'.properties.size =
          s.properties.size + (dtTokensFrom env.structs n s.off).1.countP (dtKind · = .item) ∧
        rootCount s'.nodes live' =
          rootCount s.nodes live + tops dtKind stack.length (dtTokensFrom env.structs n s.off).1 := by
  induction n with
  | zero =>
      intro s live plive stack _ _ _ _ _ hloop
      cases hloop
  | succ n ih =>
      intro s live plive stack h hinv hoff hbump hsize hloop
      rw [dtbLoop] at hloop
      rw [dtTokensFrom]
      cases hlex : dtLex env.structs s.off with
      | ending e =>
          -- the loop is left at `FDT_END` with no open node
          have hcurr : s.curr = none ∧ s' = s := by
            rcases dtbStep_of_ending hoff hlex with ⟨rfl, hstep⟩ | ⟨token, rfl, hstep⟩ | ⟨rfl, hstep⟩
            · rw [hstep] at hloop
              by_cases hcurr : s.curr = none
              · rw [if_pos hcurr] at hloop
                cases hloop
                exact ⟨hcurr, rfl⟩
              · rw [if_neg hcurr] at hloop
                cases hloop
            · rw [hstep] at hloop
              cases hloop
            · rw [hstep] at hloop
              cases hloop
          obtain ⟨hcurr, rfl⟩ := hcurr
          have hstack : stack = [] := by
            rw [hinv.curr, List.head?_eq_none_iff] at hcurr
            exact hcurr
          subst hstack
          exact ⟨live, plive, hinv, h, rfl, rfl, rfl⟩
      | tok t off' =>
          cases hstep : dtbStep env s with
          | error stop =>
              rw [hstep] at hloop
              cases hloop
              rcases dtbStep_tok hinv hoff hbump hsize hlex with ⟨stop, herror, hstop⟩ |
                ⟨_, -, -, hstop⟩ | ⟨_, _, _, -, -, hok, -⟩
              · rw [hstop] at hstep
                cases hstep
                exact absurd rfl (dtReserveFor_error herror)
              · rw [hstop] at hstep
                cases hstep
              · rw [hok] at hstep
                cases hstep
          | ok s₁ =>
              rw [hstep] at hloop
              obtain ⟨live₁, plive₁, stack₁, hafter, rfl⟩ := h.step hinv hoff hbump hsize hlex hstep
              obtain ⟨live', plive', hinv', hlinks', hnodes', hprops', hroots'⟩ :=
                ih hafter.links hafter.inv ((dtLex_tok_off hlex).2.2 hoff) hafter.bump
                  (by rw [hafter.bumpSize]; exact hsize) hloop
              refine ⟨live', plive', hinv', hlinks', ?_, ?_, ?_⟩
              · rw [hnodes', hafter.nodes, List.countP_cons]
                simp only [decide_eq_true_eq]
                omega
              · rw [hprops', hafter.properties, List.countP_cons]
                simp only [decide_eq_true_eq]
                omega
              · rw [hroots']
                exact hafter.roots _

end loop

/-! ## The tree in the arrays -/

section tree

variable {s : DtState} {live plive stack : List ArrayPtr} {root p q : ArrayPtr}

/-- Source: none: infrastructure. Kind: L -/
theorem ArrayLive.eq_of_index {α : Type} {a : KArray α} (h : ArrayLive a live) (hp : p ∈ live)
    (hq : q ∈ live) (hindex : p.2 = q.2) : p = q := by
  obtain ⟨j, hj⟩ := List.mem_iff_getElem?.mp hp
  obtain ⟨k, hk⟩ := List.mem_iff_getElem?.mp hq
  have hjk : j = k := by
    rw [← h.index j p hj, ← h.index k q hk]
    exact hindex
  rw [hjk, hk] at hj
  exact (Option.some.inj hj).symm

/-- The links of the root lead to nodes that were pushed, and so on.
Source: none: infrastructure
Kind: L -/
theorem DtLinks.of_nodeReached (h : DtLinks s.nodes s.properties live plive)
    (hroot : s.nodes.Elem root) (hr : NodeReached s root p) : p = root ∨ p ∈ live := by
  have hlinks : ∀ p, p = root ∨ p ∈ live → NodeLinks (s.nodes.cells p) live plive := by
    rintro p (rfl | hp)
    · exact h.links p (Or.inr hroot)
    · exact h.links p (Or.inl hp)
  induction hr with
  | root => exact Or.inl rfl
  | @child p q _ hlink ih => exact Or.inr ((hlinks p ih).children q hlink)
  | @sibling p q _ hlink ih => exact Or.inr ((hlinks p ih).sibling q hlink)

/-- Source: none: infrastructure. Kind: L -/
theorem DtLinks.of_propReached (h : DtLinks s.nodes s.properties live plive)
    (hroot : s.nodes.Elem root) (hr : PropReached s root q) : q ∈ plive := by
  induction hr with
  | @first p q hnode hlink =>
      rcases h.of_nodeReached hroot hnode with rfl | hp
      · exact (h.links p (Or.inr hroot)).properties q hlink
      · exact (h.links p (Or.inl hp)).properties q hlink
  | @next q q' _ hlink ih => exact h.next q (Or.inl ih) q' hlink

/-- **With one root, every other node has a parent**.
Source: none: infrastructure
Kind: L -/
theorem DtLinks.parent_ne_none {nodes : KArray DtNode} {properties : KArray DtProperty}
    (h : DtLinks nodes properties live plive) (hroots : rootCount nodes live = 1) (hp : p ∈ live)
    (hzero : p.2 = 0) (hq : q ∈ live) (hne : q.2 ≠ 0) : (nodes.cells q).parent ≠ none := by
  intro hnone
  have hpnone : (nodes.cells p).parent = none := by
    by_contra hsome
    obtain ⟨r, hr⟩ := Option.ne_none_iff_exists'.mp hsome
    have hlt := h.parent_lt p hp r hr
    omega
  unfold rootCount at hroots
  rw [List.countP_eq_length_filter] at hroots
  obtain ⟨r, hr⟩ := List.length_eq_one_iff.mp hroots
  have honly : ∀ p ∈ live, (nodes.cells p).parent = none → p = r := by
    intro p hp hnone
    have hmem : p ∈ live.filter fun p => (nodes.cells p).parent = none :=
      List.mem_filter.mpr ⟨hp, decide_eq_true hnone⟩
    rw [hr] at hmem
    exact List.mem_singleton.mp hmem
  rw [honly q hq hnone, ← honly p hp hpnone] at hne
  exact hne hzero

/-- **Every pushed node is reached**: by induction on its index, as it is linked from a node with a
smaller one.
Source: none: infrastructure
Kind: L -/
theorem DtLinks.nodeReached_of_mem (h : DtLinks s.nodes s.properties live plive)
    (harray : ArrayLive s.nodes live) (hroots : rootCount s.nodes live = 1) (hroot : root ∈ live)
    (hzero : root.2 = 0) : ∀ q ∈ live, NodeReached s root q := by
  have hall : ∀ k, ∀ q ∈ live, q.2 = k → NodeReached s root q := by
    intro k
    induction k using Nat.strong_induction_on with
    | _ k ih =>
        intro q hq hk
        by_cases hqz : q.2 = 0
        · rw [harray.eq_of_index hq hroot (by rw [hqz, hzero])]
          exact .root
        · have hparent := h.parent_ne_none hroots hroot hzero hq hqz
          obtain ⟨p, hp, hlt, hlink | hlink⟩ := h.linked q hq hparent
          · exact (ih p.2 (by omega) p hp rfl).child hlink
          · exact (ih p.2 (by omega) p hp rfl).sibling hlink
  exact fun q hq => hall q.2 q hq rfl

/-- **Every pushed property is reached**: it is the first of a node, or behind one that was pushed
later.
Source: none: infrastructure
Kind: L -/
theorem DtLinks.propReached_of_mem (h : DtLinks s.nodes s.properties live plive)
    (hnodes : ∀ p ∈ live, NodeReached s root p) : ∀ q ∈ plive, PropReached s root q := by
  have hall : ∀ k, ∀ q ∈ plive, s.properties.size - q.2 = k → PropReached s root q := by
    intro k
    induction k using Nat.strong_induction_on with
    | _ k ih =>
        intro q hq hk
        rcases h.listed q hq with ⟨p, hp, hlink⟩ | ⟨q', hq', hlt, hlink⟩
        · exact .first (hnodes p hp) hlink
        · have hlt' := h.array.index_lt hq'
          exact (ih (s.properties.size - q'.2) (by omega) q' hq' rfl).next hlink
  exact fun q hq => hall _ q hq rfl

/-- **In the first page the arrays hold the tree**.
Source: none: infrastructure
Kind: P -/
theorem DtLinks.arraysHoldTree (h : DtLinks s.nodes s.properties live plive)
    (harray : ArrayLive s.nodes live) (hroots : rootCount s.nodes live = 1)
    (hroot : s.nodes.Elem root) (hzero : root.2 = 0) (hnodes : s.nodes.size ≤ nodesPerPage)
    (hproperties : s.properties.size ≤ propertiesPerPage) : ArraysHoldTree s root := by
  have helem := h.growth.elem_iff harray hnodes
  have helem' := h.pgrowth.elem_iff h.array hproperties
  have hrootMem : root ∈ live := (helem root).mp hroot
  have hreach := h.nodeReached_of_mem harray hroots hrootMem hzero
  have hlive : ∀ p, NodeReached s root p → p ∈ live := by
    intro p hp
    rcases h.of_nodeReached hroot hp with rfl | hp
    · exact hrootMem
    · exact hp
  refine ⟨fun p => ?_, fun p q hp hq => ?_, fun q => ?_⟩
  · rw [helem]
    exact ⟨hlive p, hreach p⟩
  · rw [helem]
    exact (h.links p (Or.inl (hlive p hp))).parent q hq
  · rw [helem']
    exact ⟨h.of_propReached hroot, h.propReached_of_mem hreach q⟩

/-- **Past it they do not**: the second node, or the first property, is at an address to which nothing
leads.
Source: none: infrastructure
Kind: P -/
theorem DtLinks.fits_of_arraysHoldTree (h : DtLinks s.nodes s.properties live plive)
    (hroot : s.nodes.Elem root) (hzero : root.2 = 0) (hold : ArraysHoldTree s root) :
    s.nodes.size ≤ nodesPerPage ∧ s.properties.size ≤ propertiesPerPage := by
  constructor
  · by_contra hgt
    have hsize : nodesPerPage < s.nodes.size := Nat.not_le.mp hgt
    have hroom : 1 < nodesPerPage := by decide
    have helem : s.nodes.Elem (root.1, 1) := ⟨hroot.1, by show 1 < s.nodes.size; omega⟩
    rcases h.of_nodeReached hroot ((hold.nodes (root.1, 1)).mpr helem) with heq | hmem
    · rw [← heq] at hzero
      cases hzero
    · exact h.growth.not_mem_of_elem hsize helem hroom hmem
  · by_contra hgt
    have hsize : propertiesPerPage < s.properties.size := Nat.not_le.mp hgt
    have hroom : 0 < propertiesPerPage := by decide
    obtain ⟨d, hd⟩ := h.pgrowth.exists_data (Nat.zero_lt_of_lt hsize)
    have helem : s.properties.Elem (d, 0) := ⟨hd, by show 0 < s.properties.size; omega⟩
    exact h.pgrowth.not_mem_of_elem hsize helem hroom
      (h.of_propReached hroot ((hold.properties (d, 0)).mpr helem))

end tree

/-! ## The end of the rewrite pass -/

section ends

variable {assertions : Bool} {s₀ : DtState} {live plive stack : List ArrayPtr}

/-- The properties of a node are a list that ends: each was pushed before the one that leads to it.
Source: `device_tree.c` `dtb_recursive_property_rewrite`
Kind: L -/
theorem DtLinks.rewriteProperties_ends (h : DtLinks s₀.nodes s₀.properties live plive) {n : ℕ} :
    ∀ {node : ArrayPtr} {prop : Option ArrayPtr} {cells : DtCells} {s : DtState}, SameLinks s₀ s →
      0 < n → (∀ q, prop = some q → q ∈ plive ∧ q.2 + 2 ≤ n) →
      dtbRewriteProperties assertions node n prop cells s ≠ .error .endless := by
  induction n with
  | zero => exact fun _ hpos => absurd hpos (lt_irrefl 0)
  | succ n ih =>
      intro node prop cells s hsame _ hprop
      cases prop with
      | none => exact nofun
      | some q =>
          obtain ⟨hq, hn⟩ := hprop q rfl
          rw [dtbRewriteProperties]
          split
          · rename_i stop hstop
            rintro ⟨⟩
            exact dtbRewriteRound_ends _ hstop
          · rename_i bump type data hdata
            have hsame' := hsame.trans (sameLinks_setProperty s q bump type data)
            refine ih hsame' (by omega) fun q' hq' => ?_
            obtain ⟨t, d, hcell⟩ := hsame'.property q
            rw [hcell] at hq'
            have hlt := h.next_lt q hq q' hq'
            exact ⟨h.next q (Or.inl hq) q' hq', by omega⟩

/-- **The recursion ends**: subnodes and siblings were pushed after the node that leads to them. By
induction on the bound, for the call on a node and the loop over subnodes at once.
Source: `device_tree.c` `dtb_recursive_property_rewrite`
Kind: P -/
theorem DtLinks.rewriteNode_ends (h : DtLinks s₀.nodes s₀.properties live plive)
    (hinv : DtInv s₀ live stack) (n : ℕ) :
    (∀ {node : ArrayPtr} {s : DtState}, SameLinks s₀ s → node ∈ live ∨ s₀.nodes.Elem node →
      2 * (s₀.nodes.size - node.2) + 1 ≤ n →
      dtbRecursivePropertyRewrite assertions n node s ≠ .error .endless) ∧
    ∀ {cells : DtCells} {child : Option ArrayPtr} {s : DtState}, SameLinks s₀ s → 0 < n →
      (∀ q, child = some q → q ∈ live ∧ 2 * (s₀.nodes.size - q.2) + 2 ≤ n) →
      dtbRewriteChildren assertions n cells child s ≠ .error .endless := by
  induction n with
  | zero => exact ⟨fun _ _ hn => absurd hn (by omega), fun _ hpos => absurd hpos (lt_irrefl 0)⟩
  | succ n ih =>
      constructor
      · intro node s hsame hnode hn
        have hlt : node.2 < s₀.nodes.size := by
          rcases hnode with hnode | hnode
          · exact hinv.array.index_lt hnode
          · exact hnode.2
        rw [dtbRecursivePropertyRewrite]
        split
        · rename_i stop hstop
          rintro ⟨⟩
          refine h.rewriteProperties_ends hsame (Nat.succ_pos _) (fun q hq => ?_) hstop
          obtain ⟨a, z, hcell⟩ := hsame.node node
          rw [hcell] at hq
          have hmem := (h.links node hnode).properties q hq
          have hlt' := h.array.index_lt hmem
          have hsize : s.properties.size = s₀.properties.size :=
            congrArg (fun x : KArray Unit => x.size) hsame.properties
          exact ⟨hmem, by omega⟩
        · rename_i s₁ cells hprops
          have hsame₁ := hsame.trans (sameLinks_of_properties hprops)
          refine ih.2 hsame₁ (by omega) fun q hq => ?_
          obtain ⟨a, z, hcell⟩ := hsame₁.node node
          rw [hcell] at hq
          have hlt' := h.child_lt node hnode q hq
          exact ⟨(h.links node hnode).children q hq, by omega⟩
      · intro cells child s hsame _ hchild
        cases child with
        | none =>
            rw [dtbRewriteChildren]
            simp
        | some q =>
            obtain ⟨hq, hn⟩ := hchild q rfl
            have hlt := hinv.array.index_lt hq
            have hsame' := hsame.trans (sameLinks_setCells s q cells)
            rw [dtbRewriteChildren]
            split
            · rename_i stop hstop
              rintro ⟨⟩
              exact ih.1 hsame' (Or.inl hq) (by omega) hstop
            · rename_i s₁ hnode
              have hsame₁ := hsame'.trans ((sameLinks_of_rewriteNode n).1 hnode)
              refine ih.2 hsame₁ (by omega) fun q' hq' => ?_
              obtain ⟨a, z, hcell⟩ := hsame₁.node q
              rw [hcell] at hq'
              obtain ⟨hmem, hlt'⟩ := hinv.sibling q hq q' hq'
              exact ⟨hmem, by omega⟩

end ends

/-! ## After `dt_initialize` -/

/-- The number of `FDT_BEGIN_NODE` tokens.
Source: none: infrastructure
Kind: D -/
def dtNodeCount (structs : List (BitVec 8)) : ℕ :=
  (dtTokens structs).1.countP (dtKind · = .opening)

/-- The number of `FDT_PROP` tokens.
Source: none: infrastructure
Kind: D -/
def dtPropertyCount (structs : List (BitVec 8)) : ℕ :=
  (dtTokens structs).1.countP (dtKind · = .item)

section passes

variable {env : DtEnv} {bump : BumpAllocator} {s s' : DtState} {root : ArrayPtr}

/-- **The state with which the rewrite pass starts**.
Source: `device_tree.c` `dt_initialize`
Kind: L -/
theorem dtLinks_of_parse (hbump : BumpOk bump)
    (hsize : bump.size.toNat + env.structs.length < 2 ^ 64)
    (hparse : dtbParse env bump = .rewrite s root) :
    ∃ live plive, DtInv s live [] ∧ DtLinks s.nodes s.properties live plive ∧
      s.nodes.size = dtNodeCount env.structs ∧ s.properties.size = dtPropertyCount env.structs ∧
      rootCount s.nodes live = tops dtKind 0 (dtTokens env.structs).1 ∧ s.nodes.Elem root ∧
      root.2 = 0 := by
  unfold dtbParse at hparse
  split at hparse
  · rename_i s₁ hloop
    split_ifs at hparse with hnodes
    cases hparse
    obtain ⟨live, plive, hinv, hlinks, hsize', hpsize', hroots⟩ := dtLinks_of_loop (dtLinks_init bump)
      (dtInv_init bump) rfl hbump hsize hloop
    refine ⟨live, plive, hinv, hlinks, ?_, ?_, ?_, ⟨?_, ?_⟩, rfl⟩
    · rw [hsize']
      exact Nat.zero_add _
    · rw [hpsize']
      exact Nat.zero_add _
    · rw [hroots]
      exact Nat.zero_add _
    · obtain ⟨d, hd⟩ := hlinks.growth.exists_data (Nat.pos_of_ne_zero hnodes)
      rw [hd]
      rfl
    · exact Nat.pos_of_ne_zero hnodes
  · cases hparse

/-- **The rewrite pass ends** after a parse.
Source: `device_tree.c` `dt_initialize`
Kind: P -/
theorem dtbRewrite_ends (hbump : BumpOk bump)
    (hsize : bump.size.toNat + env.structs.length < 2 ^ 64)
    (hparse : dtbParse env bump = .rewrite s root) :
    dtbRewrite env.assertions s root ≠ .error .endless := by
  obtain ⟨live, plive, hinv, hlinks, -, -, -, hroot, hzero⟩ := dtLinks_of_parse hbump hsize hparse
  exact (hlinks.rewriteNode_ends hinv _).1 (sameLinks_setCells s root ⟨2, 1⟩) (Or.inr hroot) (by omega)

/-- **The arrays hold the tree exactly if its nodes and its properties fit in a page each**.
Source: `device_tree.c` `dt_initialize`, `array.h` `ARRAY_PUSH`
Kind: P
Hyps: a block in the grammar, and both passes succeed -/
theorem arraysHoldTree_iff (hgrammar : InGrammar env.structs) (hbump : BumpOk bump)
    (hsize : bump.size.toNat + env.structs.length < 2 ^ 64)
    (hparse : dtbParse env bump = .rewrite s root)
    (hrewrite : dtbRewrite env.assertions s root = .ok s') :
    ArraysHoldTree s' root ↔
      dtNodeCount env.structs ≤ nodesPerPage ∧ dtPropertyCount env.structs ≤ propertiesPerPage := by
  have hsame := sameLinks_of_rewrite hrewrite
  obtain ⟨live, plive, hinv, hlinks, hnodes, hproperties, hroots, hroot, hzero⟩ :=
    dtLinks_of_parse hbump hsize hparse
  rw [(inGrammar_iff env.structs).mp hgrammar |>.2.2] at hroots
  rw [← hnodes, ← hproperties]
  constructor
  · intro hold
    exact hlinks.fits_of_arraysHoldTree hroot hzero (hold.of_sameLinks hsame.symm)
  · rintro ⟨hfit, hpfit⟩
    exact (hlinks.arraysHoldTree hinv.array hroots hroot hzero hfit hpfit).of_sameLinks hsame

end passes

/-- Both passes succeed.
Source: `device_tree.c` `dt_initialize`
Kind: D -/
def dtbSucceeds (env : DtEnv) (bump : BumpAllocator) : Bool :=
  match dtbParse env bump with
  | .rewrite s root => (dtbRewrite env.assertions s root).isOk
  | _ => false

/-- Source: none: infrastructure. Kind: L -/
theorem exists_of_dtbSucceeds {env : DtEnv} {bump : BumpAllocator} (h : dtbSucceeds env bump = true) :
    ∃ s root s', dtbParse env bump = .rewrite s root ∧
      dtbRewrite env.assertions s root = .ok s' := by
  unfold dtbSucceeds at h
  split at h
  · rename_i s root hparse
    cases hrewrite : dtbRewrite env.assertions s root with
    | error stop =>
        rw [hrewrite] at h
        cases h
    | ok s' => exact ⟨s, root, s', hparse, hrewrite⟩
  · cases h

/-- A root node with `n` empty properties without a name.
Source: none: infrastructure
Kind: D -/
def propertiesBlock (n : ℕ) : List (BitVec 8) :=
  [0, 0, 0, 1, 0, 0, 0, 0] ++ (List.replicate n [0, 0, 0, 3, 0, 0, 0, 0, 0, 0, 0, 0]).flatten ++
    [0, 0, 0, 2, 0, 0, 0, 9]

/-- Source: none: infrastructure. Kind: C -/
theorem arraysHoldTree_twoProperties :
    ∃ s root s', dtbParse (blockEnv (propertiesBlock 2)) twoPageBump = .rewrite s root ∧
      dtbRewrite true s root = .ok s' ∧ ArraysHoldTree s' root := by
  obtain ⟨s, root, s', hparse, hrewrite⟩ : ∃ s root s',
      dtbParse (blockEnv (propertiesBlock 2)) twoPageBump = .rewrite s root ∧
        dtbRewrite true s root = .ok s' := exists_of_dtbSucceeds (by decide +kernel)
  have hgrammar : InGrammar (blockEnv (propertiesBlock 2)).structs :=
    (inGrammar_iff _).mpr (by decide +kernel)
  refine ⟨s, root, s', hparse, hrewrite, ?_⟩
  rw [arraysHoldTree_iff hgrammar bumpOk_twoPageBump (by decide) hparse hrewrite]
  decide +kernel

set_option maxRecDepth 8000 in
/-- **A block with 74 properties**: `properties.data[0]` is a copy to which nothing leads.
Source: `array.h` `ARRAY_PUSH`
Kind: C -/
theorem not_arraysHoldTree_seventyFour :
    ∃ s root s', InGrammar (propertiesBlock 74) ∧
      dtbParse (blockEnv (propertiesBlock 74)) twoPageBump = .rewrite s root ∧
      dtbRewrite true s root = .ok s' ∧ ¬ ArraysHoldTree s' root := by
  obtain ⟨s, root, s', hparse, hrewrite⟩ : ∃ s root s',
      dtbParse (blockEnv (propertiesBlock 74)) twoPageBump = .rewrite s root ∧
        dtbRewrite true s root = .ok s' := exists_of_dtbSucceeds (by decide +kernel)
  have htokens : ((dtTokens (propertiesBlock 74)).2 = .fdtEnd ∧
      depthAfter dtKind 0 (dtTokens (propertiesBlock 74)).1 = some 0 ∧
      tops dtKind 0 (dtTokens (propertiesBlock 74)).1 = 1) ∧
      dtPropertyCount (propertiesBlock 74) = 74 := by decide +kernel
  refine ⟨s, root, s', (inGrammar_iff _).mpr htokens.1, hparse, hrewrite, fun hold => ?_⟩
  obtain ⟨live, plive, -, hlinks, -, hproperties, -, hroot, hzero⟩ :=
    dtLinks_of_parse bumpOk_twoPageBump (by decide +kernel) hparse
  have hfit := hlinks.fits_of_arraysHoldTree hroot hzero
    (hold.of_sameLinks (sameLinks_of_rewrite hrewrite).symm)
  have hcount : s.properties.size = 74 := hproperties.trans htokens.2
  have hle : s.properties.size ≤ 73 := hfit.2
  omega

end Octiron.Kernel
