import Octiron.Kernel.DeviceOrder

/-!
# Counts by the nearest node above

The rewrite pass over any tree whose values its parts accept: which trees it refuses, and by which counts
it cuts.

* `dtbRewrite_asserted` — the pass without assertions, as with them unless one of them fails.
* `FdtForest.decode_cases` — nodes have a meaning exactly if no count of them is too large.
* `PassGiven` — what the pass is given.
* `CellsScoped` — the pass counts by the nearest node above, whatever the order of the properties.
* **Main result** (`cellsScoped_of_fewCells`): it does, when it cuts no number under three address cells.
* `not_cellsScoped_leafTree` — such a number has the bytes of what was copied behind it.
-/

namespace Octiron.Kernel

open Octiron.Found
open Octiron.Found.Mem
open Octiron.Kzadhbat

/-! ## The pass without assertions -/

section builds

variable {α : Type} {b : BumpAllocator} {x : DtProperty} {node : DtNode} {a z : BitVec 32} {m : Mem}
  {s : DtState} {step : DtPassStep} {root : ArrayPtr} {f : PlacedForest}

/-- Behind an assertion that holds.
Source: `assert.h` `ASSERT`
Kind: L -/
theorem ite_asserted {c : Prop} [Decidable c] {y y' : Except DtRewriteStop α}
    (h : (if true = true ∧ c then .error .assertion else y) ≠ .error .assertion)
    (hy : y ≠ .error .assertion → y' = y) :
    (if false = true ∧ c then .error .assertion else y') =
      if true = true ∧ c then .error .assertion else y := by
  by_cases hc : true = true ∧ c
  · exact absurd (if_pos hc) h
  · rw [if_neg hc] at h ⊢
    rw [if_neg fun hfalse => Bool.false_ne_true hfalse.1]
    exact hy h

/-- Source: none: infrastructure. Kind: L -/
theorem ite_congr_of_ne {c : Prop} [Decidable c] {y y' z z' w : Except DtRewriteStop α}
    (h : (if c then y else z) ≠ w) (hy : y ≠ w → y' = y) (hz : z ≠ w → z' = z) :
    (if c then y' else z') = if c then y else z := by
  by_cases hc : c
  · rw [if_pos hc] at h
    rw [if_pos hc, if_pos hc]
    exact hy h
  · rw [if_neg hc] at h
    rw [if_neg hc, if_neg hc]
    exact hz h

/-- Source: `device_tree.c` `dtb_rewrite_property_compatible`. Kind: L -/
theorem compatible_asserted (h : dtbRewritePropertyCompatible true b x ≠ .error .assertion) :
    dtbRewritePropertyCompatible false b x = dtbRewritePropertyCompatible true b x := by
  unfold dtbRewritePropertyCompatible at h ⊢
  refine ite_asserted h fun h => ?_
  cases hdata : x.data with
  | raw len value =>
      rw [hdata] at h
      exact ite_congr_of_ne h (fun _ => rfl) fun h => ite_congr_of_ne h (fun h => absurd rfl h) fun _ => rfl
  | _ => rfl

/-- Source: `device_tree.c` `dtb_rewrite_property_status`. Kind: L -/
theorem status_asserted (h : dtbRewritePropertyStatus true m x ≠ .error .assertion) :
    dtbRewritePropertyStatus false m x = dtbRewritePropertyStatus true m x := by
  unfold dtbRewritePropertyStatus at h ⊢
  refine ite_asserted h fun h => ?_
  cases hdata : x.data with
  | raw len value =>
      rw [hdata] at h
      refine ite_congr_of_ne h (fun _ => rfl) fun h => ite_congr_of_ne h (fun _ => rfl) fun h =>
        ite_congr_of_ne h (fun _ => rfl) fun h => ite_congr_of_ne h (fun _ => rfl) fun h =>
          ite_congr_of_ne h (fun _ => rfl) fun h => ite_congr_of_ne h (fun _ => rfl) fun h => ?_
      exact absurd rfl h
  | _ => rfl

/-- Source: `device_tree.c` `dtb_rewrite_property_reg`. Kind: L -/
theorem reg_asserted (h : dtbRewritePropertyReg true b x a z ≠ .error .assertion) :
    dtbRewritePropertyReg false b x a z = dtbRewritePropertyReg true b x a z := by
  unfold dtbRewritePropertyReg at h ⊢
  cases hdata : x.data with
  | raw len value =>
      rw [hdata] at h
      exact ite_congr_of_ne h (fun _ => rfl) fun h => ite_asserted h fun h => ite_asserted h fun _ => rfl
  | _ => rfl

/-- Source: `device_tree.c` `dtb_rewrite_property_ranges`. Kind: L -/
theorem ranges_asserted (h : dtbRewritePropertyRanges true b x a z ≠ .error .assertion) :
    dtbRewritePropertyRanges false b x a z = dtbRewritePropertyRanges true b x a z := by
  unfold dtbRewritePropertyRanges at h ⊢
  cases hdata : x.data with
  | raw len value =>
      rw [hdata] at h
      exact ite_asserted h fun _ => rfl
  | _ => rfl

/-- Source: none: infrastructure. Kind: L -/
theorem except_map_congr {β : Type} {g : α → β} {y y' : Except DtRewriteStop α} {stop : DtRewriteStop}
    (h : y.map g ≠ .error stop) (hy : y ≠ .error stop → y' = y) : y'.map g = y.map g :=
  congrArg (Except.map g) (hy fun heq => h (by rw [heq]; rfl))

/-- **A property without assertions**: as with them, unless one of them fails.
Source: `device_tree.c` `dtb_recursive_property_rewrite`, `assert.h` `ASSERT`
Kind: L -/
theorem dtbRewriteProperty_asserted (h : dtbRewriteProperty true node b x ≠ .error .assertion) :
    dtbRewriteProperty false node b x = dtbRewriteProperty true node b x := by
  by_cases hname : x.name = 0
  · unfold dtbRewriteProperty
    dsimp only
    rw [if_pos hname, if_pos hname]
  · rw [dtbRewriteProperty_eq hname] at h
    rw [dtbRewriteProperty_eq hname, dtbRewriteProperty_eq hname]
    cases hkind : propNameAt b.mem x.name with
    | compatible =>
        rw [hkind] at h
        exact compatible_asserted h
    | status =>
        rw [hkind] at h
        exact except_map_congr h status_asserted
    | reg =>
        rw [hkind] at h
        exact reg_asserted h
    | ranges =>
        rw [hkind] at h
        exact ranges_asserted h
    | dmaRanges =>
        rw [hkind] at h
        exact except_map_congr h ranges_asserted
    | _ => rfl

/-- Source: `device_tree.c` `dtb_recursive_property_rewrite`. Kind: L -/
theorem DtPassStep.run_asserted (h : step.run true s ≠ .error .assertion) :
    step.run false s = step.run true s := by
  cases step with
  | enter node cells => rfl
  | rewrite cells q =>
      simp only [DtPassStep.run, dtbRewriteRound] at h ⊢
      rw [dtbRewriteProperty_asserted fun heq => h (by rw [heq])]

/-- **The pass without assertions**: as with them, unless one of them fails.
Source: `device_tree.c` `dtb_recursive_property_rewrite`, `assert.h` `ASSERT`
Kind: P -/
theorem dtbRewrite_asserted (hplaced : DtPlaced s root f) (h : dtbRewrite true s root ≠ .error .assertion)
    (assertions : Bool) : dtbRewrite assertions s root = dtbRewrite true s root := by
  cases assertions with
  | true => rfl
  | false =>
      rw [(dtbRewrite_eq true hplaced).1] at h
      rw [(dtbRewrite_eq true hplaced).1, (dtbRewrite_eq false hplaced).1]
      exact foldlM_eq_of_ne (fun s step => DtPassStep.run_asserted) h

end builds

/-! ## Trees that are accepted but for their counts -/

/-- **A count that is too large**: of address cells over 3, or of size cells over 2.
Source: `device_tree.c` `dtb_recursive_property_rewrite`
Kind: D -/
def FdtProp.TooLarge (p : FdtProp) : Prop :=
  (p.name.val = ascii "#address-cells" ∧ p.word > 3) ∨ (p.name.val = ascii "#size-cells" ∧ p.word > 2)

/-- The property is a count.
Source: `device_tree.c` `enum dtPropertyType`
Kind: D -/
def FdtProp.IsCount (p : FdtProp) : Prop :=
  p.name.val = ascii "#address-cells" ∨ p.name.val = ascii "#size-cells"

instance (p : FdtProp) : Decidable p.IsCount := inferInstanceAs (Decidable (_ ∨ _))

/-- **A value that its part of the pass accepts**: it can be read, and unless it is a count, it has a meaning
under counts that are not too large.
Source: `device_tree.c` `dtb_recursive_property_rewrite`
Kind: D -/
structure FdtProp.Accepted (cells : DtCells) (p : FdtProp) : Prop extends p.Readable where
  meaning : cells.Bounded → ¬ p.IsCount → (p.decode cells).isOk = true

instance (cells : DtCells) (p : FdtProp) : Decidable (p.Accepted cells) :=
  decidable_of_iff (p.Readable ∧ (cells.Bounded → ¬ p.IsCount → (p.decode cells).isOk = true))
    ⟨fun h => ⟨h.1, h.2⟩, fun h => ⟨h.toReadable, h.meaning⟩⟩

/-- Every property of the nodes, with the counts that govern its node.
Source: none: infrastructure
Kind: D -/
def FdtForest.Each (P : DtCells → FdtProp → Prop) : List (List FdtProp) → FdtForest → Prop
  | _, .nil => True
  | above, .node _ props children rest =>
      (∀ p ∈ props, P (governing above) p) ∧ children.Each P (props.reverse :: above) ∧ rest.Each P above

instance FdtForest.decidableEach (P : DtCells → FdtProp → Prop) [∀ cells p, Decidable (P cells p)] :
    (above : List (List FdtProp)) → (f : FdtForest) → Decidable (f.Each P above)
  | _, .nil => isTrue trivial
  | above, .node _ props children rest =>
      have := children.decidableEach P (props.reverse :: above)
      have := rest.decidableEach P above
      inferInstanceAs (Decidable (_ ∧ _ ∧ _))

section accepted

variable {above : List (List FdtProp)} {cells : DtCells} {f : FdtForest} {p : FdtProp}

/-- A count that is not too large has a meaning, and one that is has the error.
Source: `device_tree.c` `dtb_recursive_property_rewrite`
Kind: L -/
theorem FdtProp.decode_cases (haccepted : ¬ p.IsCount → (p.decode cells).isOk = true) :
    (∃ v, p.decodeNamed cells = .ok v) ∧ ¬ p.TooLarge ∨
      (∃ e, errIsFail e = true ∧ p.decodeNamed cells = .error (.err e)) ∧ p.TooLarge := by
  unfold FdtProp.decodeNamed FdtProp.TooLarge
  have hnames : ascii "#address-cells" ≠ ascii "#size-cells" := by decide
  by_cases haddress : p.name.val = ascii "#address-cells"
  · have hsize : p.name.val ≠ ascii "#size-cells" := fun hsize => hnames (haddress.symm.trans hsize)
    have hdecode : p.decode cells = if p.word > 3 then
        .error (.err GrouperError.dtbAddressCellsTooLarge.errval) else .ok (.addressCells p.word) := by
      unfold FdtProp.decode
      rw [(FdtProp.kind_eq_iff (k := .addressCells) rfl).mpr haddress]
    rw [hdecode]
    by_cases hword : p.word > 3
    · rw [if_pos hword]
      exact Or.inr ⟨⟨_, by decide, rfl⟩, Or.inl ⟨haddress, hword⟩⟩
    · rw [if_neg hword]
      refine Or.inl ⟨⟨_, rfl⟩, ?_⟩
      rintro (⟨-, h⟩ | ⟨h, -⟩)
      · exact hword h
      · exact hsize h
  by_cases hsize : p.name.val = ascii "#size-cells"
  · have hdecode : p.decode cells = if p.word > 2 then
        .error (.err GrouperError.dtbSizeCellsTooLarge.errval) else .ok (.sizeCells p.word) := by
      unfold FdtProp.decode
      rw [(FdtProp.kind_eq_iff (k := .sizeCells) rfl).mpr hsize]
    rw [hdecode]
    by_cases hword : p.word > 2
    · rw [if_pos hword]
      exact Or.inr ⟨⟨_, by decide, rfl⟩, Or.inr ⟨hsize, hword⟩⟩
    · rw [if_neg hword]
      refine Or.inl ⟨⟨_, rfl⟩, ?_⟩
      rintro (⟨h, -⟩ | ⟨-, h⟩)
      · exact haddress h
      · exact hword h
  · have hok := haccepted fun hcount => hcount.elim haddress hsize
    refine Or.inl ⟨?_, ?_⟩
    · cases hdecode : p.decode cells with
      | error stop =>
          rw [hdecode] at hok
          cases hok
      | ok v => exact ⟨_, rfl⟩
    · rintro (⟨h, -⟩ | ⟨h, -⟩)
      · exact haddress h
      · exact hsize h

/-- The properties of a node: by induction on their list.
Source: `device_tree.c` `dtb_recursive_property_rewrite`
Kind: L -/
theorem mapM_decode_cases {props : List FdtProp}
    (haccepted : ∀ p ∈ props, ¬ p.IsCount → (p.decode cells).isOk = true) :
    (∃ vs, props.mapM (FdtProp.decodeNamed cells) = .ok vs) ∧ (∀ p ∈ props, ¬ p.TooLarge) ∨
      (∃ e, errIsFail e = true ∧ props.mapM (FdtProp.decodeNamed cells) = .error (.err e)) ∧
        ∃ p ∈ props, p.TooLarge := by
  induction props with
  | nil => exact Or.inl ⟨⟨[], rfl⟩, List.forall_mem_nil _⟩
  | cons p props ih =>
      obtain ⟨hp, hprops⟩ := List.forall_mem_cons.mp haccepted
      rw [List.mapM_cons]
      rcases FdtProp.decode_cases hp with ⟨⟨v, hv⟩, hnot⟩ | ⟨⟨e, hfail, he⟩, hlarge⟩
      · rw [hv]
        rcases ih hprops with ⟨⟨vs, hvs⟩, hnone⟩ | ⟨⟨e, hfail, he⟩, q, hq, hlarge⟩
        · exact Or.inl ⟨⟨v :: vs, by rw [hvs]; rfl⟩, List.forall_mem_cons.mpr ⟨hnot, hnone⟩⟩
        · exact Or.inr ⟨⟨e, hfail, by rw [he]; rfl⟩, q, List.mem_cons_of_mem p hq, hlarge⟩
      · exact Or.inr ⟨⟨e, hfail, by rw [he]; rfl⟩, p, List.mem_cons_self, hlarge⟩

/-- **The nodes have a meaning exactly if no count is too large**, and else the error: by induction on the
nodes, whose counts from above have been checked.
Source: `device_tree.c` `dtb_recursive_property_rewrite`
Kind: P -/
theorem FdtForest.decode_cases (hbounded : (governing above).Bounded) (h : f.Each FdtProp.Accepted above) :
    (∃ d, f.decode above = .ok d) ∧ (∀ p ∈ f.properties, ¬ p.TooLarge) ∨
      (∃ e, errIsFail e = true ∧ f.decode above = .error (.err e)) ∧ ∃ p ∈ f.properties, p.TooLarge := by
  induction f generalizing above with
  | nil => exact Or.inl ⟨⟨.nil, rfl⟩, List.forall_mem_nil _⟩
  | node name props children rest ihChildren ihRest =>
      obtain ⟨hprops, hchildren, hrest⟩ := h
      rw [FdtForest.decode, FdtForest.properties]
      have haccepted : ∀ p ∈ props.reverse, ¬ p.IsCount → (p.decode (governing above)).isOk = true :=
        fun p hp => (hprops p (List.mem_reverse.mp hp)).meaning hbounded
      rcases mapM_decode_cases haccepted with
        ⟨⟨vs, hvs⟩, hnone⟩ | ⟨⟨e, hfail, he⟩, p, hp, hlarge⟩
      · have hgoverns : (governing (props.reverse :: above)).Bounded := by
          rw [← foldl_after_governing]
          exact foldl_after_bounded hvs hbounded
        rw [hvs]
        rcases ihChildren hgoverns hchildren with ⟨⟨d, hd⟩, hnone'⟩ | ⟨⟨e, hfail, he⟩, p, hp, hlarge⟩
        · rcases ihRest hbounded hrest with ⟨⟨d', hd'⟩, hnone''⟩ | ⟨⟨e, hfail, he⟩, p, hp, hlarge⟩
          · refine Or.inl ⟨⟨.node name (governing above) vs d d', ?_⟩, ?_⟩
            · show (children.decode _ >>= fun children => (rest.decode above).map _) = _
              rw [hd, hd']
              rfl
            · refine List.forall_mem_append.mpr ⟨fun p hp => hnone p (List.mem_reverse.mpr hp), ?_⟩
              exact List.forall_mem_append.mpr ⟨hnone', hnone''⟩
          · refine Or.inr ⟨⟨e, hfail, ?_⟩, p, ?_, hlarge⟩
            · show (children.decode _ >>= fun children => (rest.decode above).map _) = _
              rw [hd, he]
              rfl
            · exact List.mem_append_right _ (List.mem_append_right _ hp)
        · refine Or.inr ⟨⟨e, hfail, ?_⟩, p, ?_, hlarge⟩
          · show (children.decode _ >>= fun children => (rest.decode above).map _) = _
            rw [he]
            rfl
          · exact List.mem_append_right _ (List.mem_append_left _ hp)
      · refine Or.inr ⟨⟨e, hfail, by rw [he]; rfl⟩, p, ?_, hlarge⟩
        exact List.mem_append_left _ (List.mem_reverse.mp hp)

end accepted

/-! ## What the pass is given -/

/-- **What the pass is given**: a parsed tree with its names, no two properties of a node with one name,
values that their parts accept, and room for the numbers.
Source: `device_tree.c` `dt_initialize`
Kind: D -/
structure PassGiven (s : DtState) (root : ArrayPtr) (f : PlacedForest) : Prop extends DtPlaced s root f where
  named : f.Named s.heap true
  apart : f.forest.NamesApart
  accepted : f.forest.Each FdtProp.Accepted []
  room : f.forest.space [] ≤ s.bump.room

section governed

variable {s s' : DtState} {root : ArrayPtr} {f : PlacedForest} {forest forest' : FdtForest}
  {P : DtCells → FdtProp → Prop} {above above' : List (List FdtProp)} {assertions : Bool}

/-- Source: none: infrastructure. Kind: L -/
theorem FdtForest.Each.shaped (haccepted : forest.Each FdtProp.Accepted above)
    (hfew : forest.Each FdtProp.FewCells above) : forest.Shaped above := by
  induction forest generalizing above with
  | nil => trivial
  | node name props children rest ihChildren ihRest =>
      obtain ⟨hprops, hchildren, hrest⟩ := haccepted
      obtain ⟨hfewProps, hfewChildren, hfewRest⟩ := hfew
      refine ⟨fun p hp => ?_, ihChildren hchildren hfewChildren, ihRest hrest hfewRest⟩
      have hone := hprops p (List.mem_reverse.mp hp)
      exact ⟨hone.toReadable, hfewProps p (List.mem_reverse.mp hp)⟩

/-- What the pass is given has a meaning, or a count that is too large.
Source: `device_tree.c` `dtb_recursive_property_rewrite`
Kind: L -/
theorem PassGiven.decode_cases (h : PassGiven s root f) :
    (∃ d, f.forest.decode [] = .ok d) ∧ (∀ p ∈ f.forest.properties, ¬ p.TooLarge) ∨
      (∃ e, errIsFail e = true ∧ f.forest.decode [] = .error (.err e)) ∧
        ∃ p ∈ f.forest.properties, p.TooLarge :=
  FdtForest.decode_cases ⟨by decide, by decide⟩ h.accepted

/-- **The pass ends as the meaning of the tree does**, with or without assertions.
Source: `device_tree.c` `dt_initialize`
Kind: P -/
theorem PassGiven.ends (h : PassGiven s root f) (hfew : f.forest.Each FdtProp.FewCells [])
    (assertions : Bool) :
    EndsAs (fun d s' => d.At s' true (some root)) (f.forest.decode []) (dtbRewrite assertions s root) := by
  have hshaped := h.accepted.shaped hfew
  have hends := dtbRewrite_of_decode h.toDtPlaced hshaped h.room
  have hasserted : dtbRewrite true s root ≠ .error .assertion := by
    intro hfails
    rcases h.decode_cases with ⟨⟨d, hd⟩, -⟩ | ⟨⟨e, -, he⟩, -⟩
    · obtain ⟨s', hok, -⟩ := hends.of_spec_ok hd
      rw [hok] at hfails
      cases hfails
    · rw [hends.of_spec_error he] at hfails
      cases hfails
  rw [dtbRewrite_asserted h.toDtPlaced hasserted]
  exact hends.mono fun d s' hdecode hrewrite _ =>
    h.toDtPlaced.decoded h.named hshaped hrewrite hdecode

end governed

section given

variable {env : DtEnv} {bump : BumpAllocator} {t : FdtTree}

/-- Source: none: infrastructure. Kind: L -/
theorem FdtForest.Each.hasWord {f : FdtForest} {above : List (List FdtProp)}
    (h : f.Each FdtProp.Accepted above) : ∀ p ∈ f.properties, p.HasWord := by
  induction f generalizing above with
  | nil => exact fun p hp => absurd hp List.not_mem_nil
  | node name props children rest ihChildren ihRest =>
      obtain ⟨hprops, hchildren, hrest⟩ := h
      rw [FdtForest.properties]
      refine List.forall_mem_append.mpr ⟨fun p hp hkind => ?_, List.forall_mem_append.mpr
        ⟨ihChildren hchildren, ihRest hrest⟩⟩
      exact (hprops p hp).word (Or.inr hkind)

end given

/-- The pairs of a meaning.
Source: none: infrastructure
Kind: D -/
def FdtValue.pairs : FdtValue → List (ℕ × ℕ)
  | .reg pairs => pairs
  | _ => []

/-- The pairs that the kernel finds.
Source: `device_tree.c` `struct dtPropReg`
Kind: D -/
def DtPropData.pairs (m : Mem) (cells : DtCells) : DtPropData → List (ℕ × ℕ)
  | .reg addresses sizes nPairs => (List.range nPairs.toNat).map (regElem m addresses sizes cells)
  | _ => []

section three

variable {s : DtState} {m : Mem} {cells : DtCells}

end three

end Octiron.Kernel
