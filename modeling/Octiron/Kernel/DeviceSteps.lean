import Octiron.Kernel.DevicePass

/-!
# The rewrite pass, step by step

`dtb_recursive_property_rewrite` on nodes whose places are known. Rewriting a property leaves alone what
is in the buffer, so the pass comes to one step after the other.

* `DtPassStep` — a step of the pass: the counts of a node are set, or a property is rewritten with given
  counts. `PlacedForest.steps` lists those of a forest, with the counts of `governing`.
* `PassFrame` — what steps leave alone that touch only some nodes and properties.
* `PassReady` — nodes at their places, before the pass comes to them.
* **Main results** (`rewriteChildren_eq`, `dtbRewrite_eq`): the recursion comes to these steps.
-/

namespace Octiron.Kernel

open Octiron.Found
open Octiron.Kzadhbat

/-! ## Steps -/

/-- All of a node that the rewriting of a property reads.
Source: `device_tree.c` `dtb_recursive_property_rewrite`
Kind: D -/
def cellsNode (cells : DtCells) : DtNode := ⟨.slash, cells.address, cells.size, none, none, none, none⟩

/-- **A step of the pass**: a node gets its counts, or a property of a node with these counts is
rewritten.
Source: `device_tree.c` `dtb_recursive_property_rewrite`
Kind: D -/
inductive DtPassStep
  | enter (node : ArrayPtr) (cells : DtCells)
  | rewrite (cells : DtCells) (property : ArrayPtr)

/-- The node that a step touches.
Source: none: infrastructure
Kind: D -/
def DtPassStep.node : DtPassStep → Option ArrayPtr
  | .enter node _ => some node
  | .rewrite _ _ => none

/-- The property that a step touches.
Source: none: infrastructure
Kind: D -/
def DtPassStep.property : DtPassStep → Option ArrayPtr
  | .enter _ _ => none
  | .rewrite _ q => some q

/-- What a step does.
Source: `device_tree.c` `dtb_recursive_property_rewrite`
Kind: D -/
def DtPassStep.run (assertions : Bool) (s : DtState) : DtPassStep → Except DtRewriteStop DtState
  | .enter node cells => .ok (s.setCells node cells)
  | .rewrite cells q =>
    match dtbRewriteRound assertions (cellsNode cells) s.bump (s.properties.cells q) with
    | .error stop => .error stop
    | .ok (bump, type, data) => .ok (s.setProperty q bump type data)

/-- The steps of a node.
Source: `device_tree.c` `dtb_recursive_property_rewrite`
Kind: D -/
def ScopedNode.steps (n : ScopedNode) : List DtPassStep :=
  .enter n.ptr n.cells :: n.props.map fun x => .rewrite n.cells x.1

/-- **The steps of a forest**.
Source: `device_tree.c` `dtb_recursive_property_rewrite`
Kind: D -/
def PlacedForest.steps (above : List (List FdtProp)) (f : PlacedForest) : List DtPassStep :=
  (f.scoped above).flatMap ScopedNode.steps

/-- What steps leave alone that touch only the nodes `ns` and the properties `ps`.
Source: none: infrastructure
Kind: D -/
structure PassFrame (s s' : DtState) (ns ps : List ArrayPtr) : Prop where
  ok : BumpOk s'.bump
  bump : BumpFrame s.bump s'.bump
  links : SameLinks s s'
  nodes : ∀ p ∉ ns, s'.nodes.cells p = s.nodes.cells p
  properties : ∀ q ∉ ps, s'.properties.cells q = s.properties.cells q

/-- The step can be made: its counts have been checked, and its property is raw.
Source: none: infrastructure
Kind: D -/
def DtPassStep.Ready (s : DtState) : DtPassStep → Prop
  | .enter _ _ => True
  | .rewrite cells q => cells.Bounded ∧ ∃ p, PropHeld s.bump p (s.properties.cells q)

section steps

variable {assertions : Bool} {s s₁ s' : DtState} {ns ns' ps ps' : List ArrayPtr} {step : DtPassStep}
  {above : List (List FdtProp)}

@[simp] theorem PlacedForest.steps_nil : PlacedForest.steps above .nil = [] := rfl

/-- Source: none: infrastructure. Kind: L -/
theorem PlacedForest.steps_node {ptr : ArrayPtr} {name : CStr} {props : List (ArrayPtr × FdtProp)}
    {children rest : PlacedForest} :
    (PlacedForest.node ptr name props children rest).steps above =
      .enter ptr (governing above) :: (props.map fun x => .rewrite (governing above) x.1) ++
        (children.steps (props.map Prod.snd :: above) ++ rest.steps above) := by
  unfold PlacedForest.steps
  rw [PlacedForest.scoped, List.flatMap_cons, List.flatMap_append]
  rfl

/-- Source: none: infrastructure. Kind: L -/
theorem PassFrame.refl (hok : BumpOk s.bump) : PassFrame s s ns ps :=
  ⟨hok, BumpFrame.refl _, SameLinks.refl s, fun _ _ => rfl, fun _ _ => rfl⟩

/-- Source: none: infrastructure. Kind: L -/
theorem PassFrame.trans (h : PassFrame s s₁ ns ps) (h' : PassFrame s₁ s' ns' ps') :
    PassFrame s s' (ns ++ ns') (ps ++ ps') := by
  refine ⟨h'.ok, h.bump.trans h'.bump, h.links.trans h'.links, fun p hp => ?_, fun q hq => ?_⟩
  · rw [List.mem_append, not_or] at hp
    rw [h'.nodes p hp.2, h.nodes p hp.1]
  · rw [List.mem_append, not_or] at hq
    rw [h'.properties q hq.2, h.properties q hq.1]

/-- A rewriting that goes on.
Source: `device_tree.c` `dtb_recursive_property_rewrite`
Kind: L -/
theorem DtPassStep.run_rewrite_ok {cells : DtCells} {q : ArrayPtr}
    (h : (DtPassStep.rewrite cells q).run assertions s = .ok s') :
    ∃ b t d, dtbRewriteProperty assertions (cellsNode cells) s.bump (s.properties.cells q) =
      .ok (b, t, d) ∧ s' = s.setProperty q b t d := by
  simp only [DtPassStep.run] at h
  cases hrun : dtbRewriteRound assertions (cellsNode cells) s.bump (s.properties.cells q) with
  | error stop =>
      rw [hrun] at h
      cases h
  | ok r =>
      rw [hrun] at h
      cases h
      exact ⟨_, _, _, (dtbRewriteRound_ok_iff.mp hrun).1, rfl⟩

/-- **A step** touches its node or its property.
Source: `device_tree.c` `dtb_recursive_property_rewrite`
Kind: L -/
theorem DtPassStep.run_frame (hready : step.Ready s) (hok : BumpOk s.bump)
    (hbig : s.bump.size.toNat ≤ 2 ^ 63) (h : step.run assertions s = .ok s') :
    PassFrame s s' step.node.toList step.property.toList := by
  cases step with
  | enter node cells =>
      cases h
      refine ⟨hok, BumpFrame.refl _, sameLinks_setCells s node cells, fun p hp => ?_, fun _ _ => rfl⟩
      unfold DtState.setCells
      rw [KArray.modify_cells_of_ne _ _ fun heq => hp (List.mem_singleton.mpr heq)]
  | rewrite cells q =>
      obtain ⟨hcells, p, hheld⟩ := hready
      obtain ⟨b, t, d, hrun, rfl⟩ := DtPassStep.run_rewrite_ok h
      obtain ⟨hok', hframe⟩ := dtbRewriteProperty_frame hok hbig
        (show (cellsNode cells).cells.Bounded from hcells) hheld hrun
      refine ⟨hok', hframe, sameLinks_setProperty s q b t d, fun _ _ => rfl, fun q' hq' => ?_⟩
      unfold DtState.setProperty
      rw [KArray.modify_cells_of_ne _ _ fun heq => hq' (List.mem_singleton.mpr heq)]

/-- A step that is ready stays so when other properties are touched.
Source: none: infrastructure
Kind: L -/
theorem DtPassStep.Ready.frame (hready : step.Ready s) (hf : PassFrame s s' ns ps)
    (hps : ∀ q ∈ step.property, q ∉ ps) : step.Ready s' := by
  cases step with
  | enter node cells => trivial
  | rewrite cells q =>
      obtain ⟨hcells, p, hheld⟩ := hready
      refine ⟨hcells, p, ?_⟩
      rw [hf.properties q (hps q rfl)]
      exact PropHeld.frame hheld hf.bump

/-- **A run of steps** touches their nodes and properties.
Source: `device_tree.c` `dtb_recursive_property_rewrite`
Kind: L -/
theorem runSteps_frame {steps : List DtPassStep} (hready : ∀ step ∈ steps, step.Ready s)
    (hnodup : (steps.filterMap DtPassStep.property).Nodup) (hok : BumpOk s.bump)
    (hbig : s.bump.size.toNat ≤ 2 ^ 63)
    (h : steps.foldlM (DtPassStep.run assertions) s = .ok s') :
    PassFrame s s' (steps.filterMap DtPassStep.node) (steps.filterMap DtPassStep.property) := by
  induction steps generalizing s with
  | nil =>
      cases h
      exact PassFrame.refl hok
  | cons step steps ih =>
      rw [List.foldlM_cons] at h
      cases hrun : step.run assertions s with
      | error stop =>
          rw [hrun] at h
          cases h
      | ok s₁ =>
          rw [hrun] at h
          obtain ⟨hstep, hsteps⟩ := List.forall_mem_cons.mp hready
          have hfilter : ∀ {α : Type} (f : DtPassStep → Option α),
              (step :: steps).filterMap f = (f step).toList ++ steps.filterMap f := by
            intro α f
            rw [List.filterMap_cons]
            cases f step <;> rfl
          rw [hfilter] at hnodup
          obtain ⟨-, htail, hdisj⟩ := List.nodup_append.mp hnodup
          have hframe := DtPassStep.run_frame hstep hok hbig hrun
          have hsteps' : ∀ step' ∈ steps, step'.Ready s₁ := by
            refine fun step' hmem => (hsteps step' hmem).frame hframe fun q hq hqs => ?_
            exact hdisj q hqs q (List.mem_filterMap.mpr ⟨step', hmem, hq⟩) rfl
          rw [hfilter, hfilter]
          exact hframe.trans (ih hsteps' htail hframe.ok (by rw [hframe.bump.size]; exact hbig) h)

end steps

/-! ## The counts for the subnodes -/

/-- A count has at least the four bytes that are read.
Source: `device_tree.c` `dtb_recursive_property_rewrite`
Kind: D -/
def FdtProp.HasWord (p : FdtProp) : Prop :=
  p.kind = .addressCells ∨ p.kind = .sizeCells → 4 ≤ p.value.length

section counts

variable {assertions : Bool} {b b' : BumpAllocator} {x : DtProperty} {t : DtPropertyType}
  {d : DtPropData} {p : FdtProp} {node : DtNode} {cells : DtCells}

/-- Only the counts give counts.
Source: `device_tree.c` `dtb_recursive_property_rewrite`
Kind: L -/
theorem dtbRewriteAs_next {name : DtPropName} {len : BitVec 32} {value : Addr}
    (hdata : x.data = .raw len value) (haddress : name ≠ .addressCells) (hsize : name ≠ .sizeCells)
    (h : dtbRewriteAs assertions node b x name = .ok (b', t, d)) : cells.next d = cells := by
  cases name with
  | addressCells => exact absurd rfl haddress
  | sizeCells => exact absurd rfl hsize
  | compatible =>
      obtain ⟨-, strings, rfl⟩ := dtbRewritePropertyCompatible_data h
      rfl
  | model =>
      obtain ⟨r, -, hr⟩ := except_map_ok h
      cases hr
      rfl
  | phandle =>
      obtain ⟨r, -, hr⟩ := except_map_ok h
      cases hr
      rfl
  | status =>
      obtain ⟨r, hstatus, hr⟩ := except_map_ok h
      cases hr
      rcases (dtbRewritePropertyStatus_data hstatus).2 with ⟨v, reason, rfl⟩ | rfl
      · rfl
      · rw [hdata]
        rfl
  | dmaCoherent =>
      cases h
      rfl
  | dmaNoncoherent =>
      cases h
      rfl
  | deviceType =>
      obtain ⟨r, -, hr⟩ := except_map_ok h
      cases hr
      rfl
  | reg =>
      obtain ⟨-, addresses, sizes, nPairs, rfl⟩ := dtbRewritePropertyReg_data h
      rfl
  | ranges =>
      obtain ⟨-, _, _, _, _, rfl⟩ := dtbRewritePropertyRanges_data h
      rfl
  | dmaRanges =>
      obtain ⟨⟨b₁, t₁, d₁⟩, hranges, hr⟩ := except_map_ok h
      cases hr
      obtain ⟨-, _, _, _, _, rfl⟩ := dtbRewritePropertyRanges_data hranges
      rfl
  | other =>
      cases h
      rw [hdata]
      rfl

/-- The count that is read.
Source: `device_tree.c` `dtb_recursive_property_rewrite`
Kind: L -/
theorem PropHeld.read_eq (hheld : PropHeld b p x) (hok : BumpOk b) (hlen : 4 ≤ p.value.length) :
    dtbReadValueU32 b.mem x.data = .ok p.word := by
  obtain ⟨-, -, len, value, hdata, -, hvalue⟩ := hheld
  have hne : p.value ≠ [] := by
    intro hnil
    rw [hnil] at hlen
    exact absurd hlen (by decide)
  unfold dtbReadValueU32
  rw [hdata]
  dsimp only [DtPropData.rawValue]
  rw [if_neg (BumpHolds.ne_zero (hvalue hne) hok hne), readU32At_eq hlen (hvalue hne).1]

/-- **The counts after a property**, which have been checked.
Source: `device_tree.c` `dtb_recursive_property_rewrite`
Kind: L -/
theorem PropHeld.next_eq (hheld : PropHeld b p x) (hok : BumpOk b) (hword : p.HasWord)
    (h : dtbRewriteProperty assertions node b x = .ok (b', t, d)) :
    cells.next d = cells.after p ∧ (cells.Bounded → (cells.after p).Bounded) := by
  rw [hheld.rewrite_eq hok] at h
  unfold DtCells.after
  by_cases haddress : p.kind = .addressCells
  · rw [haddress] at h
    obtain ⟨v, hread, hle, hr⟩ := dtbRewriteAs_addressCells h
    rw [hheld.read_eq hok (hword (Or.inl haddress))] at hread
    cases hr
    cases hread
    rw [if_pos ((FdtProp.kind_eq_iff (k := .addressCells) rfl).mp haddress)]
    exact ⟨rfl, fun hcells => ⟨BitVec.not_lt.mp hle, hcells.2⟩⟩
  rw [if_neg fun hname => haddress ((FdtProp.kind_eq_iff (k := .addressCells) rfl).mpr hname)]
  by_cases hsize : p.kind = .sizeCells
  · rw [hsize] at h
    obtain ⟨v, hread, hle, hr⟩ := dtbRewriteAs_sizeCells h
    rw [hheld.read_eq hok (hword (Or.inr hsize))] at hread
    cases hr
    cases hread
    rw [if_pos ((FdtProp.kind_eq_iff (k := .sizeCells) rfl).mp hsize)]
    exact ⟨rfl, fun hcells => ⟨hcells.1, BitVec.not_lt.mp hle⟩⟩
  rw [if_neg fun hname => hsize ((FdtProp.kind_eq_iff (k := .sizeCells) rfl).mpr hname)]
  obtain ⟨-, -, len, value, hdata, -⟩ := hheld
  exact ⟨dtbRewriteAs_next hdata haddress hsize h, fun hcells => hcells⟩

end counts

/-! ## The recursion -/

/-- **Nodes at their places**, before the pass comes to them.
Source: `device_tree.c` `dtb_recursive_property_rewrite`
Kind: D -/
structure PassReady (s : DtState) (above : List (List FdtProp)) (head : Option ArrayPtr)
    (f : PlacedForest) : Prop where
  places : f.At s.heap head
  nodes : f.nodes.Nodup
  properties : f.properties.Nodup
  bump : BumpOk s.bump
  size : s.bump.size.toNat ≤ 2 ^ 63
  words : ∀ n ∈ f.scoped above, ∀ x ∈ n.props, x.2.HasWord
  fits : f.properties.length ≤ s.properties.size

section recursion

variable {assertions : Bool} {s s₁ s' : DtState} {node : ArrayPtr} {head : Option ArrayPtr}
  {above : List (List FdtProp)} {props : List (ArrayPtr × FdtProp)} {ns ps : List ArrayPtr}

/-- The property that a step leaves.
Source: `device_tree.c` `dtb_recursive_property_rewrite`
Kind: L -/
theorem DtState.setProperty_same (s : DtState) (q : ArrayPtr) (b : BumpAllocator) (t : DtPropertyType)
    (d : DtPropData) :
    (s.setProperty q b t d).properties.cells q = { s.properties.cells q with type := t, data := d } := by
  unfold DtState.setProperty
  rw [KArray.modify_cells_self]

variable (assertions) in
/-- **The loop over the properties of a node** comes to its steps; when it goes on, the counts for the
subnodes have been checked.
Source: `device_tree.c` `dtb_recursive_property_rewrite`
Kind: L -/
theorem rewriteProperties_eq {counts : DtCells} (hat : PropsAt s.heap head props)
    (hnodup : (props.map Prod.fst).Nodup) (hok : BumpOk s.bump) (hbig : s.bump.size.toNat ≤ 2 ^ 63)
    (hcounts : (s.nodes.cells node).cells = counts) (hbounded : counts.Bounded)
    (hwords : ∀ x ∈ props, x.2.HasWord) {n : ℕ} (hn : props.length < n) (cells : DtCells) :
    dtbRewriteProperties assertions node n head cells s =
      (((props.map fun x => .rewrite counts x.1).foldlM (DtPassStep.run assertions) s).map fun s' =>
        (s', (props.map Prod.snd).foldl DtCells.after cells)) ∧
    ∀ s', (props.map fun x => .rewrite counts x.1).foldlM (DtPassStep.run assertions) s = .ok s' →
      cells.Bounded → ((props.map Prod.snd).foldl DtCells.after cells).Bounded := by
  induction props generalizing s head n cells with
  | nil =>
      obtain ⟨n, rfl⟩ := Nat.exists_eq_succ_of_ne_zero (Nat.ne_of_gt hn)
      rw [show head = none from hat]
      exact ⟨rfl, fun _ _ hcells => hcells⟩
  | cons x props ih =>
      obtain ⟨q, p⟩ := x
      obtain ⟨n, rfl⟩ := Nat.exists_eq_succ_of_ne_zero (Nat.ne_of_gt (Nat.lt_of_le_of_lt (Nat.zero_le _) hn))
      obtain ⟨rfl, hheld, hnext⟩ := hat
      obtain ⟨hq, htail⟩ := List.nodup_cons.mp hnodup
      obtain ⟨hword, hwords'⟩ := List.forall_mem_cons.mp hwords
      have hnode : dtbRewriteRound assertions (s.nodes.cells node) s.bump (s.properties.cells q) =
          dtbRewriteRound assertions (cellsNode counts) s.bump (s.properties.cells q) := by
        rw [← hcounts]
        rfl
      rw [dtbRewriteProperties, hnode]
      simp only [List.map_cons, List.foldlM_cons, List.foldl_cons, DtPassStep.run]
      cases hrun : dtbRewriteRound assertions (cellsNode counts) s.bump (s.properties.cells q) with
      | error stop => exact ⟨rfl, fun s' h => by cases h⟩
      | ok r =>
          obtain ⟨b, t, d⟩ := r
          have hproperty := (dtbRewriteRound_ok_iff.mp hrun).1
          obtain ⟨hok', hframe⟩ := dtbRewriteProperty_frame hok hbig
            (show (cellsNode counts).cells.Bounded from hbounded) hheld hproperty
          obtain ⟨hafter, hbounded'⟩ : cells.next d = cells.after p ∧
              (cells.Bounded → (cells.after p).Bounded) := PropHeld.next_eq hheld hok hword hproperty
          have hat' : PropsAt (s.setProperty q b t d).heap
              ((s.setProperty q b t d).properties.cells q).next props := by
            rw [DtState.setProperty_same]
            refine hnext.frame (fun q' hq' => ?_) hframe
            show (s.setProperty q b t d).properties.cells q' = s.properties.cells q'
            unfold DtState.setProperty
            rw [KArray.modify_cells_of_ne _ _ fun heq => hq (by rw [← heq]; exact hq')]
          obtain ⟨heq, hchecked⟩ := ih (s := s.setProperty q b t d) hat' htail hok'
            (by rw [← hframe.size] at hbig; exact hbig) hcounts hwords' (n := n)
            (Nat.lt_of_succ_lt_succ hn) (cells.after p)
          dsimp only
          rw [hafter, heq]
          exact ⟨rfl, fun s' h hcells => hchecked s' h (hbounded' hcells)⟩

/-- Source: none: infrastructure. Kind: L -/
theorem filterMap_rewrites (counts : DtCells) (props : List (ArrayPtr × FdtProp)) :
    (props.map fun x => DtPassStep.rewrite counts x.1).filterMap DtPassStep.node = [] ∧
      (props.map fun x => DtPassStep.rewrite counts x.1).filterMap DtPassStep.property =
        props.map Prod.fst := by
  rw [List.filterMap_map, List.filterMap_map]
  exact ⟨List.filterMap_eq_nil_iff.mpr fun _ _ => rfl,
    congrFun (List.filterMap_eq_map (f := fun x : ArrayPtr × FdtProp => x.1)) props⟩

/-- **The steps touch each node and each property**.
Source: none: infrastructure
Kind: L -/
theorem PlacedForest.filterMap_steps (f : PlacedForest) (above : List (List FdtProp)) :
    (f.steps above).filterMap DtPassStep.node = f.nodes ∧
      (f.steps above).filterMap DtPassStep.property = f.properties := by
  induction f generalizing above with
  | nil => exact ⟨rfl, rfl⟩
  | node ptr name props children rest ihChildren ihRest =>
      obtain ⟨hnodes, hproperties⟩ := ihChildren (props.map Prod.snd :: above)
      obtain ⟨hnodes', hproperties'⟩ := ihRest above
      obtain ⟨hnone, hsome⟩ := filterMap_rewrites (governing above) props
      rw [PlacedForest.steps_node]
      simp only [List.cons_append, List.filterMap_cons, List.filterMap_append, DtPassStep.node,
        DtPassStep.property, hnone, hsome, hnodes, hnodes', hproperties, hproperties', List.nil_append]
      exact ⟨rfl, rfl⟩

/-- Source: none: infrastructure. Kind: L -/
theorem PropsAt.held (hat : PropsAt s.heap head props) :
    ∀ x ∈ props, PropHeld s.bump x.2 (s.properties.cells x.1) := by
  induction props generalizing head with
  | nil => exact fun x hx => absurd hx List.not_mem_nil
  | cons x props ih =>
      obtain ⟨-, hheld, hnext⟩ := hat
      exact List.forall_mem_cons.mpr ⟨hheld, ih hnext⟩

/-- **The properties of the nodes** are held.
Source: none: infrastructure
Kind: L -/
theorem PlacedForest.At.held {f : PlacedForest} (hat : f.At s.heap head) :
    ∀ n ∈ f.scoped above, ∀ x ∈ n.props, PropHeld s.bump x.2 (s.properties.cells x.1) := by
  induction f generalizing head above with
  | nil => exact fun n hn => absurd hn List.not_mem_nil
  | node ptr name props children rest ihChildren ihRest =>
      obtain ⟨-, hprops, hchildren, hrest⟩ := hat
      rw [PlacedForest.scoped]
      refine List.forall_mem_cons.mpr ⟨hprops.held, fun n hn => ?_⟩
      rcases List.mem_append.mp hn with hn | hn
      · exact ihChildren hchildren n hn
      · exact ihRest hrest n hn

/-- Source: none: infrastructure. Kind: L -/
theorem PassReady.steps_ready {f : PlacedForest} (h : PassReady s above head f)
    (hbounded : ∀ n ∈ f.scoped above, n.cells.Bounded) : ∀ step ∈ f.steps above, step.Ready s := by
  intro step hstep
  obtain ⟨n, hn, hmem⟩ := List.mem_flatMap.mp hstep
  rcases List.mem_cons.mp hmem with rfl | hmem
  · trivial
  · obtain ⟨x, hx, rfl⟩ := List.mem_map.mp hmem
    exact ⟨hbounded n hn, x.2, h.places.held n hn x hx⟩

/-- Other nodes and properties may be touched.
Source: none: infrastructure
Kind: L -/
theorem PassReady.frame {f : PlacedForest} (h : PassReady s above head f) (hf : PassFrame s s' ns ps)
    (hps : ∀ q ∈ f.properties, q ∉ ps) : PassReady s' above head f := by
  have hlinks : ∀ p, (s'.nodes.cells p).properties = (s.nodes.cells p).properties ∧
      (s'.nodes.cells p).children = (s.nodes.cells p).children ∧
      (s'.nodes.cells p).sibling = (s.nodes.cells p).sibling := by
    intro p
    obtain ⟨a, z, hp⟩ := hf.links.node p
    rw [hp]
    exact ⟨rfl, rfl, rfl⟩
  have hsize : s'.properties.size = s.properties.size :=
    congrArg (fun a : KArray Unit => a.size) hf.links.properties
  refine ⟨h.places.frame ⟨hlinks, fun q hq => hf.properties q (hps q hq), hf.bump⟩, h.nodes,
    h.properties, hf.ok, ?_, h.words, ?_⟩
  · rw [hf.bump.size]
    exact h.size
  · rw [hsize]
    exact h.fits

/-- **The steps of a node**, its properties first, and those behind it.
Source: `device_tree.c` `dtb_recursive_property_rewrite`
Kind: L -/
theorem runSteps_node {ptr : ArrayPtr} {name : CStr} {children rest : PlacedForest} :
    ((PlacedForest.node ptr name props children rest).steps above).foldlM
        (DtPassStep.run assertions) s =
      match (props.map fun x => .rewrite (governing above) x.1).foldlM (DtPassStep.run assertions)
          (s.setCells ptr (governing above)) with
      | .error stop => .error stop
      | .ok s₁ =>
        match (children.steps (props.map Prod.snd :: above)).foldlM (DtPassStep.run assertions) s₁ with
        | .error stop => .error stop
        | .ok s₂ => (rest.steps above).foldlM (DtPassStep.run assertions) s₂ := by
  rw [PlacedForest.steps_node, List.cons_append, List.foldlM_cons]
  simp only [DtPassStep.run]
  show List.foldlM (DtPassStep.run assertions) (s.setCells ptr (governing above)) _ = _
  rw [List.foldlM_append]
  cases (props.map fun x => DtPassStep.rewrite (governing above) x.1).foldlM
      (DtPassStep.run assertions) (s.setCells ptr (governing above)) with
  | error stop => rfl
  | ok s₁ =>
      dsimp only
      show List.foldlM (DtPassStep.run assertions) s₁ _ = _
      rw [List.foldlM_append]
      cases (children.steps (props.map Prod.snd :: above)).foldlM (DtPassStep.run assertions) s₁ <;> rfl

variable (assertions) in
/-- **The recursion over subnodes** comes to the steps of the forest, and when it ends well all counts
have been checked: by induction on the forest.
Source: `device_tree.c` `dtb_recursive_property_rewrite`
Kind: P -/
theorem rewriteChildren_eq {f : PlacedForest} (h : PassReady s above head f)
    (hbounded : (governing above).Bounded) {n : ℕ} (hn : 2 * f.nodes.length < n) :
    dtbRewriteChildren assertions n (governing above) head s =
      (f.steps above).foldlM (DtPassStep.run assertions) s ∧
    ∀ s', (f.steps above).foldlM (DtPassStep.run assertions) s = .ok s' →
      ∀ m ∈ f.scoped above, m.cells.Bounded := by
  induction f generalizing s head above n with
  | nil =>
      obtain ⟨n, rfl⟩ := Nat.exists_eq_succ_of_ne_zero (Nat.ne_of_gt hn)
      rw [show head = none from h.places, dtbRewriteChildren]
      exact ⟨rfl, fun _ _ m hm => absurd hm List.not_mem_nil⟩
  | node ptr name props children rest ihChildren ihRest =>
      have hlen : (PlacedForest.node ptr name props children rest).nodes.length =
          children.nodes.length + rest.nodes.length + 1 := by
        rw [PlacedForest.nodes, List.length_cons, List.length_append]
      obtain ⟨n, rfl⟩ : ∃ k, n = k + 2 := ⟨n - 2, by omega⟩
      obtain ⟨rfl, hprops, hchildren, hrest⟩ := h.places
      obtain ⟨hptr, hnodes⟩ := List.nodup_cons.mp h.nodes
      obtain ⟨hnodesChildren, hnodesRest, -⟩ := List.nodup_append.mp hnodes
      obtain ⟨hnodupProps, hnodup, hapart⟩ := List.nodup_append.mp h.properties
      obtain ⟨hnodupChildren, hnodupRest, hapart'⟩ := List.nodup_append.mp hnodup
      have hfits := h.fits
      rw [PlacedForest.properties, List.length_append, List.length_append, List.length_map] at hfits
      have hwords := h.words
      rw [PlacedForest.scoped, List.forall_mem_cons, List.forall_mem_append] at hwords
      -- the counts of the node
      set s₀ := s.setCells ptr (governing above) with hs₀
      have hrun₀ : (DtPassStep.enter ptr (governing above)).run assertions s = .ok s₀ := rfl
      have hframe₀ : PassFrame s s₀ [ptr] [] :=
        DtPassStep.run_frame (show (DtPassStep.enter ptr (governing above)).Ready s from trivial) h.bump
          h.size hrun₀
      have hnode₀ : s₀.nodes.cells ptr = { s.nodes.cells ptr with
          addressCells := (governing above).address, sizeCells := (governing above).size } := by
        rw [hs₀]
        unfold DtState.setCells
        rw [KArray.modify_cells_self]
      have hready₀ : PassReady s₀ (props.map Prod.snd :: above) (s.nodes.cells ptr).children children :=
        PassReady.frame ⟨hchildren, hnodesChildren, hnodupChildren, h.bump, h.size, hwords.2.1, by omega⟩
          hframe₀ fun _ _ => List.not_mem_nil
      have hready₀' : PassReady s₀ above (s.nodes.cells ptr).sibling rest :=
        PassReady.frame ⟨hrest, hnodesRest, hnodupRest, h.bump, h.size, hwords.2.2, by omega⟩
          hframe₀ fun _ _ => List.not_mem_nil
      have hprops₀ : PropsAt s₀.heap (s.nodes.cells ptr).properties props :=
        hprops.frame (fun _ _ => rfl) (BumpFrame.refl _)
      -- its properties
      have hcounts : (s₀.nodes.cells ptr).cells = governing above := by
        rw [hnode₀]
        rfl
      have hfuel : props.length < s₀.properties.size + 1 := by
        refine Nat.lt_succ_of_le ?_
        show props.length ≤ s.properties.size
        omega
      obtain ⟨heq, hchecked⟩ := rewriteProperties_eq assertions hprops₀ hnodupProps h.bump h.size hcounts
        hbounded hwords.1 hfuel (governing above)
      rw [foldl_after_governing] at heq hchecked
      rw [dtbRewriteChildren, dtbRecursivePropertyRewrite, hnode₀, runSteps_node]
      dsimp only
      rw [heq]
      cases hrun : (props.map fun x => DtPassStep.rewrite (governing above) x.1).foldlM
          (DtPassStep.run assertions) s₀ with
      | error stop => exact ⟨rfl, fun s' h => by cases h⟩
      | ok s₁ =>
          have hgoverns : (governing (props.map Prod.snd :: above)).Bounded :=
            hchecked s₁ hrun hbounded
          obtain ⟨hnone, hsome⟩ := filterMap_rewrites (governing above) props
          have hsteps₀ : ∀ step ∈ props.map fun x => DtPassStep.rewrite (governing above) x.1,
              step.Ready s₀ := by
            intro step hstep
            obtain ⟨x, hx, rfl⟩ := List.mem_map.mp hstep
            exact ⟨hbounded, x.2, hprops₀.held x hx⟩
          have hframe₁ : PassFrame s₀ s₁ [] (props.map Prod.fst) := by
            have hframe := runSteps_frame hsteps₀ (by rw [hsome]; exact hnodupProps) h.bump h.size hrun
            rw [hnone, hsome] at hframe
            exact hframe
          have hnode₁ : s₁.nodes.cells ptr = s₀.nodes.cells ptr := hframe₁.nodes ptr List.not_mem_nil
          -- its subnodes
          have hready₁ := hready₀.frame hframe₁ fun q hq hqs =>
            hapart q hqs q (List.mem_append_left _ hq) rfl
          have hready₁' := hready₀'.frame hframe₁ fun q hq hqs =>
            hapart q hqs q (List.mem_append_right _ hq) rfl
          obtain ⟨heqChildren, hcheckedChildren⟩ := ihChildren hready₁ hgoverns (n := n) (by omega)
          dsimp only [Except.map]
          rw [hnode₁, hnode₀, heqChildren]
          cases hrunChildren : (children.steps (props.map Prod.snd :: above)).foldlM
              (DtPassStep.run assertions) s₁ with
          | error stop => exact ⟨rfl, fun s' h => by cases h⟩
          | ok s₂ =>
              have hsteps := hready₁.steps_ready (hcheckedChildren s₂ hrunChildren)
              obtain ⟨htouched, htouched'⟩ := children.filterMap_steps (props.map Prod.snd :: above)
              have hframe₂ : PassFrame s₁ s₂ children.nodes children.properties := by
                have hframe := runSteps_frame hsteps (by rw [htouched']; exact hnodupChildren)
                  hready₁.bump hready₁.size hrunChildren
                rw [htouched, htouched'] at hframe
                exact hframe
              have hnode₂ : s₂.nodes.cells ptr = s₁.nodes.cells ptr :=
                hframe₂.nodes ptr fun hmem => hptr (List.mem_append_left _ hmem)
              -- and the nodes behind it
              have hready₂ := hready₁'.frame hframe₂ fun q hq hqs => hapart' q hqs q hq rfl
              obtain ⟨heqRest, hcheckedRest⟩ := ihRest hready₂ hbounded (n := n + 1) (by omega)
              dsimp only
              rw [hnode₂, hnode₁, hnode₀, heqRest]
              refine ⟨rfl, fun s' hs' => ?_⟩
              rw [PlacedForest.scoped]
              refine List.forall_mem_cons.mpr ⟨hbounded, fun m hm => ?_⟩
              rcases List.mem_append.mp hm with hm | hm
              · exact hcheckedChildren s₂ hrunChildren m hm
              · exact hcheckedRest s' hs' m hm

end recursion

/-! ## The whole pass -/

/-- **A tree at its places**, as the pass of `dt_initialize` over the block leaves it.
Source: `device_tree.c` `dt_initialize`
Kind: D -/
structure DtPlaced (s : DtState) (root : ArrayPtr) (f : PlacedForest) : Prop
    extends PassReady s [] (some root) f where
  single : (s.nodes.cells root).sibling = none
  nodes_fit : f.nodes.length ≤ s.nodes.size

/-- **The round for a property**: the allocator that it finds, what it comes to, and what is left in the
end.
Source: `device_tree.c` `dtb_recursive_property_rewrite`
Kind: D -/
def DtRound (assertions : Bool) (s s' : DtState) (cells : DtCells) (q : ArrayPtr) : Prop :=
  ∃ b b' t d, BumpOk b ∧ BumpFrame s.bump b ∧
    dtbRewriteProperty assertions (cellsNode cells) b (s.properties.cells q) = .ok (b', t, d) ∧
    BumpFrame b' s'.bump ∧ s'.properties.cells q = { s.properties.cells q with type := t, data := d }

section pass

variable {assertions : Bool} {s s₁ s' : DtState} {root : ArrayPtr} {f : PlacedForest}
  {step : DtPassStep} {ns ps : List ArrayPtr} {cells : DtCells} {q : ArrayPtr}

/-- Source: none: infrastructure. Kind: L -/
theorem DtRound.frame (h : DtRound assertions s₁ s' cells q) (hf : PassFrame s s₁ ns ps) (hq : q ∉ ps) :
    DtRound assertions s s' cells q := by
  obtain ⟨b, b', t, d, hok, hbefore, hrun, hafter, hcell⟩ := h
  rw [hf.properties q hq] at hrun hcell
  exact ⟨b, b', t, d, hok, hf.bump.trans hbefore, hrun, hafter, hcell⟩

/-- **What a run of steps leaves**: by induction on the steps, as each touches something else.
Source: `device_tree.c` `dtb_recursive_property_rewrite`
Kind: L -/
theorem runSteps_rounds {steps : List DtPassStep} (hready : ∀ step ∈ steps, step.Ready s)
    (hnodes : (steps.filterMap DtPassStep.node).Nodup)
    (hnodup : (steps.filterMap DtPassStep.property).Nodup) (hok : BumpOk s.bump)
    (hbig : s.bump.size.toNat ≤ 2 ^ 63)
    (h : steps.foldlM (DtPassStep.run assertions) s = .ok s') :
    (∀ cells q, .rewrite cells q ∈ steps → DtRound assertions s s' cells q) ∧
      ∀ node cells, .enter node cells ∈ steps → (s'.nodes.cells node).cells = cells := by
  induction steps generalizing s with
  | nil => exact ⟨fun _ _ hmem => absurd hmem List.not_mem_nil, fun _ _ hmem => absurd hmem List.not_mem_nil⟩
  | cons step steps ih =>
      rw [List.foldlM_cons] at h
      cases hrun : step.run assertions s with
      | error stop =>
          rw [hrun] at h
          cases h
      | ok s₁ =>
          rw [hrun] at h
          obtain ⟨hstep, hsteps⟩ := List.forall_mem_cons.mp hready
          have hfilter : ∀ {α : Type} (f : DtPassStep → Option α),
              (step :: steps).filterMap f = (f step).toList ++ steps.filterMap f := by
            intro α f
            rw [List.filterMap_cons]
            cases f step <;> rfl
          rw [hfilter] at hnodup hnodes
          obtain ⟨-, htail, hdisj⟩ := List.nodup_append.mp hnodup
          obtain ⟨-, htail', hdisj'⟩ := List.nodup_append.mp hnodes
          have hframe := DtPassStep.run_frame hstep hok hbig hrun
          have hbig₁ : s₁.bump.size.toNat ≤ 2 ^ 63 := by
            rw [hframe.bump.size]
            exact hbig
          have hsteps' : ∀ step' ∈ steps, step'.Ready s₁ := by
            refine fun step' hmem => (hsteps step' hmem).frame hframe fun q hq hqs => ?_
            exact hdisj q hqs q (List.mem_filterMap.mpr ⟨step', hmem, hq⟩) rfl
          have hrest := runSteps_frame hsteps' htail hframe.ok hbig₁ h
          obtain ⟨hrounds, henters⟩ := ih hsteps' htail' htail hframe.ok hbig₁ h
          refine ⟨fun cells q hmem => ?_, fun node cells hmem => ?_⟩
          · rcases List.mem_cons.mp hmem with rfl | hmem
            · -- the round itself, which no later step touches
              obtain ⟨b, t, d, hproperty, rfl⟩ := DtPassStep.run_rewrite_ok hrun
              have hlast := hrest.properties q fun hq => hdisj q (List.mem_singleton_self q) q hq rfl
              rw [DtState.setProperty_same] at hlast
              exact ⟨s.bump, b, t, d, hok, BumpFrame.refl _, hproperty, hrest.bump, hlast⟩
            · refine (hrounds cells q hmem).frame hframe fun hq => ?_
              exact hdisj q hq q (List.mem_filterMap.mpr ⟨_, hmem, rfl⟩) rfl
          · rcases List.mem_cons.mp hmem with rfl | hmem
            · cases hrun
              rw [hrest.nodes node fun hn => hdisj' node (List.mem_singleton_self node) node hn rfl]
              unfold DtState.setCells
              rw [KArray.modify_cells_self]
              rfl
            · exact henters node cells hmem

/-- The pass is one round of the loop over subnodes.
Source: `device_tree.c` `dt_initialize`
Kind: L -/
theorem dtbRewrite_eq_children (hsingle : (s.nodes.cells root).sibling = none) :
    dtbRewrite assertions s root =
      dtbRewriteChildren assertions (2 * s.nodes.size + 3) (governing []) (some root) s := by
  unfold dtbRewrite
  rw [dtbRewriteChildren, governing_nil]
  cases hrun : dtbRecursivePropertyRewrite assertions (2 * s.nodes.size + 2) root
      (s.setCells root ⟨2, 1⟩) with
  | error stop => rfl
  | ok s' =>
      obtain ⟨a, z, hroot⟩ := (sameLinks_of_rewrite hrun).node root
      dsimp only
      rw [hroot, hsingle, dtbRewriteChildren]

variable (assertions) in
/-- **The pass comes to the steps of the tree**, and when it ends well all counts have been checked.
Source: `device_tree.c` `dt_initialize`
Kind: P -/
theorem dtbRewrite_eq (h : DtPlaced s root f) :
    dtbRewrite assertions s root = (f.steps []).foldlM (DtPassStep.run assertions) s ∧
    ∀ s', (f.steps []).foldlM (DtPassStep.run assertions) s = .ok s' →
      ∀ n ∈ f.scoped [], n.cells.Bounded := by
  have hfits := h.nodes_fit
  rw [dtbRewrite_eq_children h.single]
  exact rewriteChildren_eq assertions h.toPassReady ⟨by decide, by decide⟩ (by omega)

/-- **What a pass leaves that ends well**: a round for each property with the counts that govern its node,
which the node has in the end.
Source: `device_tree.c` `dt_initialize`
Kind: P -/
theorem DtPlaced.rounds (h : DtPlaced s root f) (hrewrite : dtbRewrite assertions s root = .ok s') :
    ∀ n ∈ f.scoped [], n.cells.Bounded ∧ (s'.nodes.cells n.ptr).cells = n.cells ∧
      ∀ x ∈ n.props, DtRound assertions s s' n.cells x.1 := by
  obtain ⟨heq, hchecked⟩ := dtbRewrite_eq assertions h
  rw [heq] at hrewrite
  have hbounded := hchecked s' hrewrite
  obtain ⟨htouched, htouched'⟩ := f.filterMap_steps []
  obtain ⟨hrounds, henters⟩ := runSteps_rounds (h.steps_ready hbounded)
    (by rw [htouched]; exact h.nodes) (by rw [htouched']; exact h.properties) h.bump h.size hrewrite
  intro n hn
  refine ⟨hbounded n hn, henters n.ptr n.cells ?_, fun x hx => hrounds n.cells x.1 ?_⟩
  · exact List.mem_flatMap.mpr ⟨n, hn, List.mem_cons_self⟩
  · exact List.mem_flatMap.mpr ⟨n, hn, List.mem_cons_of_mem _ (List.mem_map_of_mem hx)⟩

end pass

end Octiron.Kernel
