import Octiron.Kernel.DeviceGrammar
import Octiron.Kernel.DeviceRewrite

/-!
# What the rewrite pass comes to

The rounds of `dtb_recursive_property_rewrite` over properties, in the order in which it makes them.

* `DtPropName`, `dtbRewriteAs` — a property by the name that the chain of `strcmp` finds
  (`dtbRewriteProperty_eq`).
* `DtVisit`, `dtbVisits` — the rounds: the node, the bump allocator and the property as the round finds
  them. The pass stops where one of them stops (`dtbRewrite_of_visit`, `exists_visit_of_error`).
* **Main result** (`visits_bounded`): in every round the node has at most three address cells and two
  size cells, by induction over the recursion, because the counts come from properties that were checked
  or from `dt_initialize`.
-/

namespace Octiron.Kernel

open Octiron.Found
open Octiron.Kzadhbat

/-! ## Names -/

/-- The names that the pass knows. `phandle` is also `linux,phandle`.
Source: `device_tree.c` `dtb_recursive_property_rewrite`
Kind: D -/
inductive DtPropName
  | compatible
  | model
  | phandle
  | status
  | addressCells
  | sizeCells
  | dmaCoherent
  | dmaNoncoherent
  | deviceType
  | reg
  | ranges
  | dmaRanges
  | other
  deriving DecidableEq

/-- The first name of the chain that `named` accepts.
Source: `device_tree.c` `dtb_recursive_property_rewrite`
Kind: D -/
def firstNamed (named : String → Bool) : DtPropName :=
  if named "compatible" then .compatible
  else if named "model" then .model
  else if named "phandle" || named "linux,phandle" then .phandle
  else if named "status" then .status
  else if named "#address-cells" then .addressCells
  else if named "#size-cells" then .sizeCells
  else if named "dma-coherent" then .dmaCoherent
  else if named "dma-noncoherent" then .dmaNoncoherent
  else if named "device_type" then .deviceType
  else if named "reg" then .reg
  else if named "ranges" then .ranges
  else if named "dma-ranges" then .dmaRanges
  else .other

/-- The name at `p`.
Source: `device_tree.c` `dtb_recursive_property_rewrite`
Kind: D -/
def propNameAt (m : Mem) (p : Addr) : DtPropName := firstNamed fun name => strcmpEq m p (ascii name)

/-- The type of a property with that name.
Source: `device_tree.c` `enum dtPropertyType`
Kind: D -/
def DtPropName.type : DtPropName → DtPropertyType
  | .compatible => .compatible
  | .model => .model
  | .phandle => .phandle
  | .status => .status
  | .addressCells => .addressCells
  | .sizeCells => .sizeCells
  | .dmaCoherent => .dmaCoherence
  | .dmaNoncoherent => .dmaCoherence
  | .deviceType => .deviceType
  | .reg => .reg
  | .ranges => .ranges
  | .dmaRanges => .dmaRanges
  | .other => .raw

/-- What the body of the loop does with a property of that name.
Source: `device_tree.c` `dtb_recursive_property_rewrite`
Kind: D -/
def dtbRewriteAs (assertions : Bool) (node : DtNode) (bump : BumpAllocator) (p : DtProperty) :
    DtPropName → Except DtRewriteStop (BumpAllocator × DtPropertyType × DtPropData)
  | .compatible => dtbRewritePropertyCompatible assertions bump p
  | .model => p.data.rawValue.map fun value => (bump, .model, .model value)
  | .phandle => (dtbReadValueU32 bump.mem p.data).map fun v => (bump, .phandle, .phandle v)
  | .status => (dtbRewritePropertyStatus assertions bump.mem p).map fun r => (bump, r)
  | .addressCells =>
    match dtbReadValueU32 bump.mem p.data with
    | .error stop => .error stop
    | .ok v =>
      if v > 3 then .error (.err GrouperError.dtbAddressCellsTooLarge.errval)
      else .ok (bump, .addressCells, .addressCells v)
  | .sizeCells =>
    match dtbReadValueU32 bump.mem p.data with
    | .error stop => .error stop
    | .ok v =>
      if v > 2 then .error (.err GrouperError.dtbSizeCellsTooLarge.errval)
      else .ok (bump, .sizeCells, .sizeCells v)
  | .dmaCoherent => .ok (bump, .dmaCoherence, .dmaCoherence true)
  | .dmaNoncoherent => .ok (bump, .dmaCoherence, .dmaCoherence false)
  | .deviceType => p.data.rawValue.map fun value => (bump, .deviceType, .deviceType value)
  | .reg => dtbRewritePropertyReg assertions bump p node.addressCells node.sizeCells
  | .ranges => dtbRewritePropertyRanges assertions bump p node.addressCells node.sizeCells
  | .dmaRanges =>
    (dtbRewritePropertyRanges assertions bump p node.addressCells node.sizeCells).map fun r =>
      (r.1, .dmaRanges, r.2.2)
  | .other => .ok (bump, p.type, p.data)

/-- **A property is rewritten by its name**.
Source: `device_tree.c` `dtb_recursive_property_rewrite`
Kind: L -/
theorem dtbRewriteProperty_eq {assertions : Bool} {node : DtNode} {bump : BumpAllocator}
    {p : DtProperty} (hname : p.name ≠ 0) :
    dtbRewriteProperty assertions node bump p =
      dtbRewriteAs assertions node bump p (propNameAt bump.mem p.name) := by
  unfold dtbRewriteProperty propNameAt firstNamed
  dsimp only
  rw [if_neg hname]
  simp only [apply_ite (dtbRewriteAs assertions node bump p)]
  rfl

/-! ## Rounds -/

/-- A round of the loop over properties: what it finds.
Source: `device_tree.c` `dtb_recursive_property_rewrite`
Kind: D -/
structure DtVisit where
  node : DtNode
  bump : BumpAllocator
  property : DtProperty

/-- What the round comes to.
Source: `device_tree.c` `dtb_recursive_property_rewrite`
Kind: D -/
def DtVisit.result (assertions : Bool) (v : DtVisit) :
    Except DtRewriteStop (BumpAllocator × DtPropertyType × DtPropData) :=
  dtbRewriteRound assertions v.node v.bump v.property

/-- The rounds over the properties of `node` from `prop` on.
Source: `device_tree.c` `dtb_recursive_property_rewrite`
Kind: D -/
def dtbVisitProperties (assertions : Bool) (node : ArrayPtr) :
    ℕ → Option ArrayPtr → DtState → List DtVisit
  | 0, _, _ => []
  | _ + 1, none, _ => []
  | n + 1, some q, s =>
      ⟨s.nodes.cells node, s.bump, s.properties.cells q⟩ ::
        match dtbRewriteRound assertions (s.nodes.cells node) s.bump (s.properties.cells q) with
        | .error _ => []
        | .ok (bump, type, data) =>
          let s := s.setProperty q bump type data
          dtbVisitProperties assertions node n (s.properties.cells q).next s

mutual

/-- The rounds of a call.
Source: `device_tree.c` `dtb_recursive_property_rewrite`
Kind: D -/
def dtbVisitNode (assertions : Bool) : ℕ → ArrayPtr → DtState → List DtVisit
  | 0, _, _ => []
  | n + 1, node, s =>
      let cells : DtCells := ⟨(s.nodes.cells node).addressCells, (s.nodes.cells node).sizeCells⟩
      dtbVisitProperties assertions node (s.properties.size + 1) (s.nodes.cells node).properties s ++
        match dtbRewriteProperties assertions node (s.properties.size + 1)
            (s.nodes.cells node).properties cells s with
        | .error _ => []
        | .ok (s, cells) => dtbVisitChildren assertions n cells (s.nodes.cells node).children s

/-- The rounds of the calls for the subnodes from `child` on.
Source: `device_tree.c` `dtb_recursive_property_rewrite`
Kind: D -/
def dtbVisitChildren (assertions : Bool) :
    ℕ → DtCells → Option ArrayPtr → DtState → List DtVisit
  | 0, _, _, _ => []
  | _ + 1, _, none, _ => []
  | n + 1, cells, some child, s =>
      dtbVisitNode assertions n child (s.setCells child cells) ++
        match dtbRecursivePropertyRewrite assertions n child (s.setCells child cells) with
        | .error _ => []
        | .ok s => dtbVisitChildren assertions n cells (s.nodes.cells child).sibling s

end

/-- **The rounds of the rewrite pass**.
Source: `device_tree.c` `dt_initialize`
Kind: D -/
def dtbVisits (assertions : Bool) (s : DtState) (root : ArrayPtr) : List DtVisit :=
  dtbVisitNode assertions (2 * s.nodes.size + 2) root (s.setCells root ⟨2, 1⟩)

section visits

variable {assertions : Bool} {s : DtState} {root node : ArrayPtr} {v : DtVisit} {stop : DtRewriteStop}

/-- A round over a property that stops ends the loop.
Source: `device_tree.c` `dtb_recursive_property_rewrite`
Kind: L -/
theorem rewriteProperties_of_visit (hv : v.result assertions = .error stop) {n : ℕ} :
    ∀ {prop : Option ArrayPtr} {cells : DtCells} {s : DtState},
      v ∈ dtbVisitProperties assertions node n prop s →
      dtbRewriteProperties assertions node n prop cells s = .error stop := by
  induction n with
  | zero => exact fun hmem => absurd hmem List.not_mem_nil
  | succ n ih =>
      intro prop cells s hmem
      cases prop with
      | none => exact absurd hmem List.not_mem_nil
      | some q =>
          rw [dtbVisitProperties] at hmem
          rw [dtbRewriteProperties]
          rcases List.mem_cons.mp hmem with rfl | hmem
          · have hstop : dtbRewriteRound assertions (s.nodes.cells node) s.bump
                (s.properties.cells q) = .error stop := hv
            rw [hstop]
          · cases hp : dtbRewriteRound assertions (s.nodes.cells node) s.bump
                (s.properties.cells q) with
            | error stop' =>
                rw [hp] at hmem
                exact absurd hmem List.not_mem_nil
            | ok r =>
                rw [hp] at hmem
                exact ih hmem

/-- A call ends where one of its rounds does: by induction on the bound, for the call and the loop over
subnodes at once.
Source: `device_tree.c` `dtb_recursive_property_rewrite`
Kind: L -/
theorem rewriteNode_of_visit (hv : v.result assertions = .error stop) (n : ℕ) :
    (∀ {node : ArrayPtr} {s : DtState}, v ∈ dtbVisitNode assertions n node s →
      dtbRecursivePropertyRewrite assertions n node s = .error stop) ∧
    ∀ {cells : DtCells} {child : Option ArrayPtr} {s : DtState},
      v ∈ dtbVisitChildren assertions n cells child s →
      dtbRewriteChildren assertions n cells child s = .error stop := by
  induction n with
  | zero =>
      constructor
      · intro node s hmem
        rw [dtbVisitNode] at hmem
        exact absurd hmem List.not_mem_nil
      · intro cells child s hmem
        rw [dtbVisitChildren] at hmem
        exact absurd hmem List.not_mem_nil
  | succ n ih =>
      constructor
      · intro node s hmem
        rw [dtbVisitNode] at hmem
        rw [dtbRecursivePropertyRewrite]
        rcases List.mem_append.mp hmem with hmem | hmem
        · rw [rewriteProperties_of_visit hv hmem]
        · cases hprops : dtbRewriteProperties assertions node (s.properties.size + 1)
              (s.nodes.cells node).properties
              ⟨(s.nodes.cells node).addressCells, (s.nodes.cells node).sizeCells⟩ s with
          | error stop' =>
              rw [hprops] at hmem
              exact absurd hmem List.not_mem_nil
          | ok r =>
              rw [hprops] at hmem
              exact ih.2 hmem
      · intro cells child s hmem
        cases child with
        | none =>
            rw [dtbVisitChildren] at hmem
            exact absurd hmem List.not_mem_nil
        | some child =>
            rw [dtbVisitChildren] at hmem
            rw [dtbRewriteChildren]
            rcases List.mem_append.mp hmem with hmem | hmem
            · rw [ih.1 hmem]
            · cases hnode : dtbRecursivePropertyRewrite assertions n child (s.setCells child cells) with
              | error stop' =>
                  rw [hnode] at hmem
                  exact absurd hmem List.not_mem_nil
              | ok s₁ =>
                  rw [hnode] at hmem
                  exact ih.2 hmem

/-- **The pass ends where one of its rounds does**.
Source: `device_tree.c` `dt_initialize`
Kind: P -/
theorem dtbRewrite_of_visit (hmem : v ∈ dtbVisits assertions s root)
    (hv : v.result assertions = .error stop) : dtbRewrite assertions s root = .error stop :=
  (rewriteNode_of_visit hv _).1 hmem

/-- Source: `device_tree.c` `dtb_recursive_property_rewrite`. Kind: L -/
theorem exists_visit_of_properties (hstop : stop ≠ .endless) {n : ℕ} :
    ∀ {prop : Option ArrayPtr} {cells : DtCells} {s : DtState},
      dtbRewriteProperties assertions node n prop cells s = .error stop →
      ∃ v ∈ dtbVisitProperties assertions node n prop s, v.result assertions = .error stop := by
  induction n with
  | zero => exact fun h => absurd (Except.error.inj h).symm hstop
  | succ n ih =>
      intro prop cells s h
      cases prop with
      | none => cases h
      | some q =>
          rw [dtbRewriteProperties] at h
          rw [dtbVisitProperties]
          cases hp : dtbRewriteRound assertions (s.nodes.cells node) s.bump
              (s.properties.cells q) with
          | error stop' =>
              rw [hp] at h
              cases h
              exact ⟨_, List.mem_cons_self, hp⟩
          | ok r =>
              rw [hp] at h
              obtain ⟨v, hmem, hv⟩ := ih h
              exact ⟨v, List.mem_cons_of_mem _ hmem, hv⟩

/-- Source: `device_tree.c` `dtb_recursive_property_rewrite`. Kind: L -/
theorem exists_visit_of_node (hstop : stop ≠ .endless) (n : ℕ) :
    (∀ {node : ArrayPtr} {s : DtState}, dtbRecursivePropertyRewrite assertions n node s = .error stop →
      ∃ v ∈ dtbVisitNode assertions n node s, v.result assertions = .error stop) ∧
    ∀ {cells : DtCells} {child : Option ArrayPtr} {s : DtState},
      dtbRewriteChildren assertions n cells child s = .error stop →
      ∃ v ∈ dtbVisitChildren assertions n cells child s, v.result assertions = .error stop := by
  induction n with
  | zero =>
      constructor
      · intro node s h
        rw [dtbRecursivePropertyRewrite] at h
        exact absurd (Except.error.inj h).symm hstop
      · intro cells child s h
        rw [dtbRewriteChildren] at h
        exact absurd (Except.error.inj h).symm hstop
  | succ n ih =>
      constructor
      · intro node s h
        rw [dtbRecursivePropertyRewrite] at h
        rw [dtbVisitNode]
        cases hprops : dtbRewriteProperties assertions node (s.properties.size + 1)
            (s.nodes.cells node).properties
            ⟨(s.nodes.cells node).addressCells, (s.nodes.cells node).sizeCells⟩ s with
        | error stop' =>
            rw [hprops] at h
            cases h
            obtain ⟨v, hmem, hv⟩ := exists_visit_of_properties hstop hprops
            exact ⟨v, List.mem_append_left _ hmem, hv⟩
        | ok r =>
            rw [hprops] at h
            obtain ⟨v, hmem, hv⟩ := ih.2 h
            exact ⟨v, List.mem_append_right _ hmem, hv⟩
      · intro cells child s h
        cases child with
        | none =>
            rw [dtbRewriteChildren] at h
            cases h
        | some child =>
            rw [dtbRewriteChildren] at h
            rw [dtbVisitChildren]
            cases hnode : dtbRecursivePropertyRewrite assertions n child (s.setCells child cells) with
            | error stop' =>
                rw [hnode] at h
                cases h
                obtain ⟨v, hmem, hv⟩ := ih.1 hnode
                exact ⟨v, List.mem_append_left _ hmem, hv⟩
            | ok s₁ =>
                rw [hnode] at h
                obtain ⟨v, hmem, hv⟩ := ih.2 h
                exact ⟨v, List.mem_append_right _ hmem, hv⟩

/-- **A stop of the pass is the stop of one of its rounds**.
Source: `device_tree.c` `dt_initialize`
Kind: P -/
theorem exists_visit_of_error (h : dtbRewrite assertions s root = .error stop)
    (hstop : stop ≠ .endless) :
    ∃ v ∈ dtbVisits assertions s root, v.result assertions = .error stop :=
  (exists_visit_of_node hstop _).1 h

end visits

/-! ## Cell counts -/

/-- A count in a property that has been rewritten has been checked.
Source: `device_tree.c` `dtb_recursive_property_rewrite`
Kind: D -/
def DtPropData.Bounded : DtPropData → Prop
  | .addressCells v => v ≤ 3
  | .sizeCells v => v ≤ 2
  | _ => True

/-- Source: `device_tree.c` `dtb_recursive_property_rewrite`. Kind: D -/
def DtCells.Bounded (cells : DtCells) : Prop := cells.address ≤ 3 ∧ cells.size ≤ 2

/-- Source: `device_tree.c` `dtb_recursive_property_rewrite`. Kind: D -/
def DtNode.cells (n : DtNode) : DtCells := ⟨n.addressCells, n.sizeCells⟩

/-- Source: none: infrastructure. Kind: D -/
def DtState.Bounded (s : DtState) : Prop := ∀ q, (s.properties.cells q).data.Bounded

section bounded

variable {assertions : Bool} {s s' : DtState} {root node : ArrayPtr} {n : DtNode}
  {bump bump' : BumpAllocator} {p : DtProperty} {type : DtPropertyType} {data : DtPropData}

/-- Source: none: infrastructure. Kind: L -/
theorem except_map_ok {ε α β : Type} {x : Except ε α} {f : α → β} {b : β} (h : x.map f = .ok b) :
    ∃ a, x = .ok a ∧ b = f a := by
  cases x with
  | error e => cases h
  | ok a => exact ⟨a, rfl, (Except.ok.inj h).symm⟩

/-- Source: `device_tree.c` `dtb_rewrite_property_compatible`. Kind: L -/
theorem dtbRewritePropertyCompatible_data
    (h : dtbRewritePropertyCompatible assertions bump p = .ok (bump', type, data)) :
    type = .compatible ∧ ∃ strings, data = .compat strings := by
  unfold dtbRewritePropertyCompatible at h
  by_cases htype : assertions = true ∧ p.type ≠ .raw
  · rw [if_pos htype] at h
    cases h
  · rw [if_neg htype] at h
    split at h
    · dsimp only at h
      split_ifs at h
      all_goals
        cases h
        exact ⟨rfl, _, rfl⟩
    · cases h

/-- Source: `device_tree.c` `dtb_rewrite_property_status`. Kind: L -/
theorem dtbRewritePropertyStatus_data {m : Mem}
    (h : dtbRewritePropertyStatus assertions m p = .ok (type, data)) :
    type = .status ∧ ((∃ value reason, data = .status value reason) ∨ data = p.data) := by
  unfold dtbRewritePropertyStatus at h
  by_cases htype : assertions = true ∧ p.type ≠ .raw
  · rw [if_pos htype] at h
    cases h
  · rw [if_neg htype] at h
    split at h
    · rename_i len value hdata
      split_ifs at h <;> cases h
      all_goals first
        | exact ⟨rfl, Or.inl ⟨_, _, rfl⟩⟩
        | exact ⟨rfl, Or.inr rfl⟩
    · cases h

/-- Source: `device_tree.c` `dtb_rewrite_property_reg`. Kind: L -/
theorem dtbRewritePropertyReg_data {a z : BitVec 32}
    (h : dtbRewritePropertyReg assertions bump p a z = .ok (bump', type, data)) :
    type = .reg ∧ ∃ addresses sizes nPairs, data = .reg addresses sizes nPairs := by
  unfold dtbRewritePropertyReg at h
  split at h
  · dsimp only at h
    split_ifs at h
    all_goals
      split at h
      · cases h
      · cases h
        exact ⟨rfl, _, _, _, rfl⟩
  · cases h

/-- Source: `device_tree.c` `dtb_rewrite_property_ranges`. Kind: L -/
theorem dtbRewritePropertyRanges_data {a z : BitVec 32}
    (h : dtbRewritePropertyRanges assertions bump p a z = .ok (bump', type, data)) :
    type = .ranges ∧ ∃ childBusAddrs parentBusAddrs lengths nTrips,
      data = .ranges childBusAddrs parentBusAddrs lengths nTrips := by
  unfold dtbRewritePropertyRanges at h
  split at h
  · dsimp only at h
    split_ifs at h
    all_goals
      split at h
      · cases h
      · cases h
        exact ⟨rfl, _, _, _, _, rfl⟩
  · cases h

/-- **A round checks the counts that it stores**.
Source: `device_tree.c` `dtb_recursive_property_rewrite`
Kind: L -/
theorem dtbRewriteProperty_bounded (hp : p.data.Bounded)
    (h : dtbRewriteProperty assertions n bump p = .ok (bump', type, data)) : data.Bounded := by
  by_cases hname : p.name = 0
  · unfold dtbRewriteProperty at h
    rw [if_pos hname] at h
    cases h
  · rw [dtbRewriteProperty_eq hname] at h
    cases hkind : propNameAt bump.mem p.name with
    | compatible =>
        rw [hkind] at h
        obtain ⟨-, strings, rfl⟩ := dtbRewritePropertyCompatible_data h
        trivial
    | model =>
        rw [hkind] at h
        obtain ⟨value, -, hr⟩ := except_map_ok h
        cases hr
        trivial
    | phandle =>
        rw [hkind] at h
        obtain ⟨value, -, hr⟩ := except_map_ok h
        cases hr
        trivial
    | status =>
        rw [hkind] at h
        obtain ⟨r, hr, heq⟩ := except_map_ok h
        cases heq
        rcases (dtbRewritePropertyStatus_data hr).2 with ⟨value, reason, rfl⟩ | rfl
        · trivial
        · exact hp
    | addressCells =>
        rw [hkind, dtbRewriteAs] at h
        split at h
        · cases h
        · split_ifs at h with hgt
          cases h
          exact BitVec.not_lt.mp hgt
    | sizeCells =>
        rw [hkind, dtbRewriteAs] at h
        split at h
        · cases h
        · split_ifs at h with hgt
          cases h
          exact BitVec.not_lt.mp hgt
    | dmaCoherent =>
        rw [hkind] at h
        cases h
        trivial
    | dmaNoncoherent =>
        rw [hkind] at h
        cases h
        trivial
    | deviceType =>
        rw [hkind] at h
        obtain ⟨value, -, hr⟩ := except_map_ok h
        cases hr
        trivial
    | reg =>
        rw [hkind] at h
        obtain ⟨-, addresses, sizes, nPairs, rfl⟩ := dtbRewritePropertyReg_data h
        trivial
    | ranges =>
        rw [hkind] at h
        obtain ⟨-, _, _, _, _, rfl⟩ := dtbRewritePropertyRanges_data h
        trivial
    | dmaRanges =>
        rw [hkind] at h
        obtain ⟨⟨b, t, d⟩, hr, heq⟩ := except_map_ok h
        cases heq
        obtain ⟨-, _, _, _, _, rfl⟩ := dtbRewritePropertyRanges_data hr
        trivial
    | other =>
        rw [hkind] at h
        cases h
        exact hp

/-- Source: none: infrastructure. Kind: L -/
theorem DtCells.Bounded.next {cells : DtCells} (h : cells.Bounded) (hdata : data.Bounded) :
    (cells.next data).Bounded := by
  cases data with
  | addressCells v => exact ⟨hdata, h.2⟩
  | sizeCells v => exact ⟨h.1, hdata⟩
  | _ => exact h

/-- Source: none: infrastructure. Kind: L -/
theorem DtState.Bounded.setProperty (h : s.Bounded) (q : ArrayPtr) (hdata : data.Bounded) :
    (s.setProperty q bump type data).Bounded := by
  intro q'
  unfold DtState.setProperty
  dsimp only
  by_cases hq : q' = q
  · rw [hq, KArray.modify_cells_self]
    exact hdata
  · rw [KArray.modify_cells_of_ne _ _ hq]
    exact h q'

/-- The loop over the properties of a node: its rounds find the cell counts that the node has, and leave
counts that were checked.
Source: `device_tree.c` `dtb_recursive_property_rewrite`
Kind: L -/
theorem bounded_properties (assertions : Bool) (node : ArrayPtr) {k : ℕ} :
    ∀ (prop : Option ArrayPtr) {cells : DtCells} {s : DtState}, s.Bounded → cells.Bounded →
      (∀ v ∈ dtbVisitProperties assertions node k prop s, v.node = s.nodes.cells node) ∧
      ∀ {s' cells'}, dtbRewriteProperties assertions node k prop cells s = .ok (s', cells') →
        s'.Bounded ∧ cells'.Bounded := by
  induction k with
  | zero => exact fun _ _ _ _ _ => ⟨fun v hv => absurd hv List.not_mem_nil, fun h => by cases h⟩
  | succ k ih =>
      intro prop cells s hs hcells
      cases prop with
      | none =>
          refine ⟨fun v hv => absurd hv List.not_mem_nil, fun h => ?_⟩
          cases h
          exact ⟨hs, hcells⟩
      | some q =>
          rw [dtbVisitProperties, dtbRewriteProperties]
          cases hp : dtbRewriteRound assertions (s.nodes.cells node) s.bump
              (s.properties.cells q) with
          | error stop =>
              refine ⟨fun v hv => ?_, fun h => by cases h⟩
              rw [List.mem_singleton.mp hv]
          | ok r =>
              have hdata := dtbRewriteProperty_bounded (hs q) (dtbRewriteRound_ok_iff.mp hp).1
              obtain ⟨hvisits, hok⟩ := ih ((s.setProperty q r.1 r.2.1 r.2.2).properties.cells
                q).next (hs.setProperty q hdata) (hcells.next hdata)
              refine ⟨fun v hv => ?_, hok⟩
              rcases List.mem_cons.mp hv with rfl | hv
              · rfl
              · exact hvisits v hv

/-- **The counts are bounded in every round**: by induction on the bound of the recursion.
Source: `device_tree.c` `dtb_recursive_property_rewrite`
Kind: P -/
theorem bounded_node (k : ℕ) :
    (∀ {node : ArrayPtr} {s : DtState}, s.Bounded → (s.nodes.cells node).cells.Bounded →
      (∀ v ∈ dtbVisitNode assertions k node s, v.node.cells.Bounded) ∧
      ∀ {s'}, dtbRecursivePropertyRewrite assertions k node s = .ok s' → s'.Bounded) ∧
    ∀ {cells : DtCells} (child : Option ArrayPtr) {s : DtState}, s.Bounded → cells.Bounded →
      (∀ v ∈ dtbVisitChildren assertions k cells child s, v.node.cells.Bounded) ∧
      ∀ {s'}, dtbRewriteChildren assertions k cells child s = .ok s' → s'.Bounded := by
  induction k with
  | zero =>
      constructor
      · intro node s _ _
        rw [dtbVisitNode, dtbRecursivePropertyRewrite]
        exact ⟨fun v hv => absurd hv List.not_mem_nil, fun h => by cases h⟩
      · intro cells child s _ _
        rw [dtbVisitChildren, dtbRewriteChildren]
        exact ⟨fun v hv => absurd hv List.not_mem_nil, fun h => by cases h⟩
  | succ k ih =>
      constructor
      · intro node s hs hnode
        obtain ⟨hvisits, hok⟩ := bounded_properties assertions node (k := s.properties.size + 1)
          (s.nodes.cells node).properties hs hnode
        rw [dtbVisitNode, dtbRecursivePropertyRewrite]
        cases hprops : dtbRewriteProperties assertions node (s.properties.size + 1)
            (s.nodes.cells node).properties (s.nodes.cells node).cells s with
        | error stop =>
            unfold DtNode.cells at hprops
            rw [hprops]
            refine ⟨fun v hv => ?_, fun h => by cases h⟩
            rw [List.append_nil] at hv
            rw [hvisits v hv]
            exact hnode
        | ok r =>
            obtain ⟨s₁, cells₁⟩ := r
            obtain ⟨hs₁, hcells₁⟩ := hok hprops
            unfold DtNode.cells at hprops
            rw [hprops]
            obtain ⟨hvisits₁, hok₁⟩ := ih.2 (s₁.nodes.cells node).children hs₁ hcells₁
            refine ⟨fun v hv => ?_, hok₁⟩
            rcases List.mem_append.mp hv with hv | hv
            · rw [hvisits v hv]
              exact hnode
            · exact hvisits₁ v hv
      · intro cells child s hs hcells
        cases child with
        | none =>
            rw [dtbVisitChildren, dtbRewriteChildren]
            refine ⟨fun v hv => absurd hv List.not_mem_nil, fun h => ?_⟩
            cases h
            exact hs
        | some child =>
            have hcell : ((s.setCells child cells).nodes.cells child).cells.Bounded := by
              unfold DtState.setCells
              dsimp only
              rw [KArray.modify_cells_self]
              exact hcells
            have hs₀ : (s.setCells child cells).Bounded := hs
            obtain ⟨hvisits, hok⟩ := ih.1 hs₀ hcell
            rw [dtbVisitChildren, dtbRewriteChildren]
            cases hnode : dtbRecursivePropertyRewrite assertions k child (s.setCells child cells) with
            | error stop =>
                refine ⟨fun v hv => ?_, fun h => by cases h⟩
                rw [List.append_nil] at hv
                exact hvisits v hv
            | ok s₁ =>
                obtain ⟨hvisits₁, hok₁⟩ := ih.2 (s₁.nodes.cells child).sibling (hok hnode) hcells
                refine ⟨fun v hv => ?_, hok₁⟩
                rcases List.mem_append.mp hv with hv | hv
                · exact hvisits v hv
                · exact hvisits₁ v hv

/-- **At most three address cells and two size cells** in every round of the pass.
Source: `device_tree.c` `dt_initialize`
Kind: P -/
theorem visits_bounded (hs : s.Bounded) {v : DtVisit} (hv : v ∈ dtbVisits assertions s root) :
    v.node.cells.Bounded := by
  have hs₀ : (s.setCells root ⟨2, 1⟩).Bounded := hs
  have hroot : ((s.setCells root ⟨2, 1⟩).nodes.cells root).cells.Bounded := by
    unfold DtState.setCells
    dsimp only
    rw [KArray.modify_cells_self]
    show (2 : BitVec 32) ≤ 3 ∧ (1 : BitVec 32) ≤ 2
    decide
  exact ((bounded_node _).1 hs₀ hroot).1 v hv

end bounded

/-! ## What the loop leaves -/

/-- Every property is as `dtb_parse_property` makes it.
Source: `device_tree.c` `dtb_parse_property`
Kind: D -/
def DtState.Raw (s : DtState) : Prop :=
  ∀ q, (s.properties.cells q).type = .raw ∧ ∃ len value, (s.properties.cells q).data = .raw len value

section raw

variable {env : DtEnv} {s s' : DtState}

/-- Source: none: infrastructure. Kind: L -/
theorem DtState.Raw.bounded (h : s.Raw) : s.Bounded := by
  intro q
  obtain ⟨-, len, value, hdata⟩ := h q
  rw [hdata]
  trivial

/-- Growing copies elements.
Source: `array.h` `ARRAY_PUSH`
Kind: L -/
theorem arrayReserve_cells {α : Type} {sizeofElem : ℕ} {granted : Bool} {a a' : KArray α}
    (h : arrayReserve sizeofElem granted a = some a') (p : ArrayPtr) :
    ∃ p', a'.cells p = a.cells p' := by
  unfold arrayReserve at h
  by_cases hfull : arrayFull a = true
  · rw [if_pos hfull] at h
    cases granted with
    | false => cases h
    | true =>
        cases h
        show ∃ p', arrayCopy a a.buffers p = a.cells p'
        unfold arrayCopy
        split
        · exact ⟨p, rfl⟩
        · split_ifs
          · exact ⟨_, rfl⟩
          · exact ⟨p, rfl⟩
  · rw [if_neg hfull] at h
    cases h
    exact ⟨p, rfl⟩

/-- Source: `device_tree.c` `dtb_parse_property`. Kind: L -/
theorem DtState.Raw.parseProperty (h : s.Raw) (hok : dtbParseProperty env s = .ok s') : s'.Raw := by
  unfold dtbParseProperty at hok
  split at hok
  · dsimp only at hok
    split at hok
    · cases hok
    · rename_i bump propName propValue properties halloc
      split at hok
      · cases hok
      · cases hok
        intro q
        show (Function.update properties.cells _ _ q).type = _ ∧ _
        by_cases hq : q = (properties.data.getD 0, properties.size)
        · subst hq
          show (Function.update properties.cells _ _ _).type = _ ∧
            ∃ len value, (Function.update properties.cells _ _ _).data = _
          rw [Function.update_self]
          exact ⟨rfl, _, _, rfl⟩
        · show (Function.update properties.cells _ _ _).type = _ ∧
            ∃ len value, (Function.update properties.cells _ _ _).data = _
          rw [Function.update_of_ne hq]
          obtain ⟨q', hcells⟩ := arrayReserve_cells (dtbAllocProperty_reserve halloc) q
          rw [hcells]
          exact h q'
  · cases hok

/-- Source: `device_tree.c` `dtb_parse_node`. Kind: L -/
theorem dtbParseNode_properties (hok : dtbParseNode env s = .ok s') :
    s'.properties = s.properties := by
  unfold dtbParseNode at hok
  split at hok
  · cases hok
  · split at hok
    · cases hok
    · dsimp only at hok
      split at hok
      · cases hok
      · cases hok
        rfl

/-- One round of the loop.
Source: `device_tree.c` `dt_initialize`
Kind: L -/
theorem DtState.Raw.step (h : s.Raw) (hok : dtbStep env s = .ok s') : s'.Raw := by
  have hoff : ({ s with off := s.off + 4 } : DtState).Raw := h
  unfold dtbStep at hok
  split_ifs at hok
  split at hok
  · cases hok
  · rename_i token _
    dsimp only at hok
    by_cases hbegin : token = fdtBeginNode
    · rw [if_pos hbegin] at hok
      obtain ⟨s₁, hnode, rfl⟩ := except_map_ok hok
      have hprops := dtbParseNode_properties hnode
      have hprops' : (dtbBeginNode s₁).properties = s₁.properties := by
        unfold dtbBeginNode
        split
        · rfl
        · split_ifs <;> rfl
      unfold DtState.Raw
      rw [hprops', hprops]
      exact h
    · rw [if_neg hbegin] at hok
      by_cases hend : token = fdtEndNode
      · rw [if_pos hend] at hok
        split at hok
        · cases hok
        · split_ifs at hok
          cases hok
          exact h
      · rw [if_neg hend] at hok
        by_cases hprop : token = fdtProp
        · rw [if_pos hprop] at hok
          exact hoff.parseProperty hok
        · rw [if_neg hprop] at hok
          split_ifs at hok
          cases hok
          exact h

/-- **The rewrite pass starts with raw properties**.
Source: `device_tree.c` `dt_initialize`
Kind: P -/
theorem raw_of_parse {bump : BumpAllocator} {root : ArrayPtr}
    (h : dtbParse env bump = .rewrite s root) : s.Raw := by
  have hloop : ∀ {n : ℕ} {s s' : DtState} {stop : DtStop}, s.Raw → dtbLoop env n s = (stop, s') →
      s'.Raw := by
    intro n
    induction n with
    | zero =>
        intro s s' stop hs h
        cases h
        exact hs
    | succ n ih =>
        intro s s' stop hs h
        rw [dtbLoop] at h
        split at h
        · cases h
          exact hs
        · rename_i s₁ hstep
          exact ih (hs.step hstep) h
  have hinit : (dtbInit bump).Raw := fun q => ⟨rfl, 0, 0, rfl⟩
  unfold dtbParse at h
  split at h
  · rename_i s₁ heq
    split_ifs at h
    cases h
    exact hloop hinit heq
  · cases h

end raw

end Octiron.Kernel
