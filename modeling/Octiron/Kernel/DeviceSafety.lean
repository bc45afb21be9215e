import Octiron.Kernel.DeviceVisits

/-!
# The arithmetic with cell counts

`dtb_rewrite_property_reg` and `dtb_rewrite_property_ranges` divide by the size of a group of cells, and
select a branch by the number of cells.

* `RewriteCellsSafe` — the pass does not divide by zero, does not get to a `__builtin_unreachable()`, and
  reports a value that is not made of whole groups.
* `DtVisit.CellsFit` — the counts and the length with which a round is safe.
* `regSafe_iff`, `rangesSafe_iff` — one round: its loop fails only at `NULL`, so that a value with a rest
  is reported only by an assertion or a panic.
* **Main result** (`rewriteCellsSafe_iff`): the pass is safe if and only if the counts fit in every round;
  a pass that stores behind its buffer is left out.
-/

namespace Octiron.Kernel

open Octiron.Found
open Octiron.Kzadhbat

/-! ## Safe rounds -/

/-- The stops that tell of an error: an error is returned, an assertion fails, or the kernel panics.
Source: `device_tree.c` `dtb_recursive_property_rewrite`, `assert.h` `ASSERT`
Kind: D -/
def DtRewriteStop.Reported : DtRewriteStop → Prop
  | .err _ => True
  | .assertion => True
  | .panic _ => True
  | _ => False

/-- What the rewriting of the property of a round comes to.
Source: `device_tree.c` `dtb_recursive_property_rewrite`
Kind: D -/
def DtVisit.rewritten (assertions : Bool) (v : DtVisit) :
    Except DtRewriteStop (BumpAllocator × DtPropertyType × DtPropData) :=
  dtbRewriteProperty assertions v.node v.bump v.property

/-- **The round stores to the buffer only**: none of its numbers comes to lie behind it.
Source: `device_tree.c` `dtb_rewrite_property_reg`, `dtb_rewrite_property_ranges`
Kind: D -/
def DtVisit.Inside (assertions : Bool) (v : DtVisit) : Prop :=
  v.result assertions ≠ .error .outsideBuffer

/-- The name of the property of a round. (A round over a property whose name is `NULL` ends at once.)
Source: `device_tree.c` `dtb_recursive_property_rewrite`
Kind: D -/
def DtVisit.name (v : DtVisit) : DtPropName :=
  if v.property.name = 0 then .other else propNameAt v.bump.mem v.property.name

/-- The bytes of a pair of `reg`, or of a triplet of `ranges`, with the counts of the node.
Source: `device_tree.c` `dtb_rewrite_property_reg`, `dtb_rewrite_property_ranges`
Kind: D -/
def DtVisit.group (v : DtVisit) : Option ℕ :=
  let a := v.node.addressCells.toNat
  let z := v.node.sizeCells.toNat
  match v.name with
  | .reg => some (4 * (a + z))
  | .ranges => some (4 * (a + a + z))
  | .dmaRanges => some (4 * (a + a + z))
  | _ => none

/-- The value is not made of whole groups.
Source: none: infrastructure
Kind: D -/
def DtVisit.Partial (v : DtVisit) : Prop :=
  ∃ group len value, v.group = some group ∧ v.property.data = .raw len value ∧ len.toNat % group ≠ 0

/-- **The arithmetic of the pass is safe**: it does not divide by zero, it does not get to a
`__builtin_unreachable()`, and it stops with a report at a value that is not made of whole groups.
Source: `device_tree.c` `dtb_rewrite_property_reg`, `dtb_rewrite_property_ranges`
Kind: D -/
structure RewriteCellsSafe (assertions : Bool) (s : DtState) (root : ArrayPtr) : Prop where
  divides : dtbRewrite assertions s root ≠ .error .divisionByZero
  reaches : dtbRewrite assertions s root ≠ .error .unreachable
  reports : ∀ v ∈ dtbVisits assertions s root, v.Partial → ∃ stop,
    v.result assertions = .error stop ∧ stop.Reported ∧ dtbRewrite assertions s root = .error stop

/-- A round with the result `r`, over a value that may be partial.
Source: none: infrastructure
Kind: D -/
structure ResultSafe {α : Type} (r : Except DtRewriteStop α) (isPartial : Prop) : Prop where
  divides : r ≠ .error .divisionByZero
  reaches : r ≠ .error .unreachable
  reports : isPartial → ∃ stop, r = .error stop ∧ stop.Reported

/-- The counts and the length with which `reg` is safe: not both counts are 0, and without
`ENABLE_ASSERTIONS` the value has whole pairs.
Source: `device_tree.c` `dtb_rewrite_property_reg`
Kind: D -/
def RegFits (assertions : Bool) (a z len : ℕ) : Prop :=
  (a ≠ 0 ∨ z ≠ 0) ∧ (assertions = true ∨ len % (4 * (a + z)) = 0)

/-- The buffers that `ranges` asks for: for the child bus addresses, the parent bus addresses and the
lengths of `nTrips` triplets.
Source: `device_tree.c` `dtb_rewrite_property_ranges`
Kind: D -/
def dtbRangesBuffers (bump : BumpAllocator) (a z nTrips : BitVec 32) :
    BumpAllocator × Addr × Addr × Addr :=
  let (bump, childBusAddrs) := bumpAllocAligned bump
    ((4 * a).setWidth 64 * nTrips.setWidth 64) ((4 * a).setWidth 64)
  let (bump, parentBusAddrs) := bumpAllocAligned bump
    ((4 * a).setWidth 64 * nTrips.setWidth 64) ((4 * a).setWidth 64)
  let (bump, lengths) := bumpAllocAligned bump
    ((4 * z).setWidth 64 * nTrips.setWidth 64) ((4 * z).setWidth 64)
  (bump, childBusAddrs, parentBusAddrs, lengths)

/-- `ranges` with no size cells gets to its panic: there is a triplet, with a value to read and with
memory for both addresses.
Source: `device_tree.c` `dtb_rewrite_property_ranges`
Kind: D -/
def RangesPanics (bump : BumpAllocator) (a z len : BitVec 32) (value : Addr) : Prop :=
  let buffers := dtbRangesBuffers bump a z (len / (4 * a + 4 * a + 4 * z))
  z = 0 ∧ 4 * (a.toNat + a.toNat + z.toNat) ≤ len.toNat ∧ value ≠ 0 ∧ buffers.2.1 ≠ 0 ∧
    buffers.2.2.1 ≠ 0

/-- The counts and the length with which `ranges` is safe. With `ENABLE_ASSERTIONS` the length is not
looked at when both counts are positive; without, a count of 0 is safe where the value is empty or the
panic is reached.
Source: `device_tree.c` `dtb_rewrite_property_ranges`
Kind: D -/
def RangesFit (assertions : Bool) (bump : BumpAllocator) (a z len : BitVec 32) (value : Addr) : Prop :=
  (assertions = true → a = 0 ∨ z = 0 ∨ len.toNat % (4 * (a.toNat + a.toNat + z.toNat)) = 0) ∧
  (assertions = false → (a ≠ 0 ∨ z ≠ 0) ∧ (a = 0 → len = 0) ∧
    (len.toNat % (4 * (a.toNat + a.toNat + z.toNat)) = 0 ∨ RangesPanics bump a z len value))

instance (assertions : Bool) (a z len : ℕ) : Decidable (RegFits assertions a z len) :=
  inferInstanceAs (Decidable (_ ∧ _))

instance (bump : BumpAllocator) (a z len : BitVec 32) (value : Addr) :
    Decidable (RangesPanics bump a z len value) :=
  inferInstanceAs (Decidable (_ ∧ _))

instance (assertions : Bool) (bump : BumpAllocator) (a z len : BitVec 32) (value : Addr) :
    Decidable (RangesFit assertions bump a z len value) :=
  inferInstanceAs (Decidable (_ ∧ _))

/-- Source: `device_tree.c` `dtb_rewrite_property_reg`, `dtb_rewrite_property_ranges`. Kind: D -/
def DtVisit.ValueFits (assertions : Bool) (v : DtVisit) (len : BitVec 32) (value : Addr) : Prop :=
  (v.name = .reg →
    RegFits assertions v.node.addressCells.toNat v.node.sizeCells.toNat len.toNat) ∧
  (v.name = .ranges ∨ v.name = .dmaRanges →
    RangesFit assertions v.bump v.node.addressCells v.node.sizeCells len value)

instance (assertions : Bool) (v : DtVisit) (len : BitVec 32) (value : Addr) :
    Decidable (v.ValueFits assertions len value) :=
  inferInstanceAs (Decidable (_ ∧ _))

/-- **The counts of the node fit the value**, in a round over `reg`, `ranges` or `dma-ranges`.
Source: `device_tree.c` `dtb_rewrite_property_reg`, `dtb_rewrite_property_ranges`
Kind: D -/
def DtVisit.CellsFit (assertions : Bool) (v : DtVisit) : Prop :=
  ∀ len value, v.property.data = .raw len value → v.ValueFits assertions len value

section safe

variable {assertions : Bool} {s : DtState} {root : ArrayPtr} {bump : BumpAllocator} {p : DtProperty}
  {a z len : BitVec 32} {value : Addr} {stop : DtRewriteStop}

/-- Source: none: infrastructure. Kind: L -/
theorem fourCells_toNat {c : BitVec 32} (h : c ≤ 3) : (4 * c).toNat = 4 * c.toNat := by
  have hle : c.toNat ≤ 3 := h
  rw [BitVec.toNat_mul]
  show 4 * c.toNat % 2 ^ 32 = _
  omega

/-- Source: none: infrastructure. Kind: L -/
theorem pairSize_toNat (ha : a ≤ 3) (hz : z ≤ 2) :
    (4 * a + 4 * z).toNat = 4 * (a.toNat + z.toNat) := by
  have ha' : a.toNat ≤ 3 := ha
  have hz' : z.toNat ≤ 2 := hz
  rw [BitVec.toNat_add, fourCells_toNat ha,
    fourCells_toNat (show z ≤ 3 from (by omega : z.toNat ≤ 3))]
  omega

/-- Source: none: infrastructure. Kind: L -/
theorem tripletSize_toNat (ha : a ≤ 3) (hz : z ≤ 2) :
    (4 * a + 4 * a + 4 * z).toNat = 4 * (a.toNat + a.toNat + z.toNat) := by
  have ha' : a.toNat ≤ 3 := ha
  have hz' : z.toNat ≤ 2 := hz
  rw [BitVec.toNat_add, BitVec.toNat_add, fourCells_toNat ha,
    fourCells_toNat (show z ≤ 3 from (by omega : z.toNat ≤ 3))]
  omega

/-- Source: none: infrastructure. Kind: L -/
theorem cells_cases {c : BitVec 32} (h0 : c ≠ 0) (h3 : c ≤ 3) : c = 1 ∨ c = 2 ∨ c = 3 := by
  have hle : c.toNat ≤ 3 := h3
  have hne : c.toNat ≠ 0 := fun h => h0 (BitVec.eq_of_toNat_eq h)
  rcases (by omega : c.toNat = 1 ∨ c.toNat = 2 ∨ c.toNat = 3) with h | h | h
  · exact Or.inl (BitVec.eq_of_toNat_eq h)
  · exact Or.inr (Or.inl (BitVec.eq_of_toNat_eq h))
  · exact Or.inr (Or.inr (BitVec.eq_of_toNat_eq h))

/-- A read and a write of at most three cells can fail only at `NULL`.
Source: `device_tree.c` `dtb_rewrite_property_reg`, `dtb_rewrite_property_ranges`
Kind: L -/
theorem dtbStoreCells_error {other : DtRewriteStop} {m : Mem} {dst : Addr} {cells : BitVec 32}
    {i j : ℕ} (h0 : cells ≠ 0) (h3 : cells ≤ 3)
    (h : dtbStoreCells other m value dst cells i j = .error stop) :
    stop = .nullValue ∨ stop = .nullBuffer := by
  have hcells := cells_cases h0 h3
  unfold dtbStoreCells at h
  dsimp only at h
  split_ifs at h with h1 h2 h3 h4 h5 h6 h7 h8 h9
  all_goals first
    | exact Or.inl (Except.error.inj h).symm
    | exact Or.inr (Except.error.inj h).symm
    | cases h
  rcases hcells with hc | hc | hc
  · exact absurd hc ‹_›
  · exact absurd hc ‹_›
  · exact absurd hc ‹_›

/-- Source: `device_tree.c` `dtb_rewrite_property_reg`. Kind: L -/
theorem dtbRegLoop_error {addresses sizes : Addr} (ha : a ≤ 3) (hz : z ≤ 2) {n : ℕ} :
    ∀ {i j : ℕ} {m : Mem}, dtbRegLoop value addresses sizes a z n i j m = .error stop →
      stop = .nullValue ∨ stop = .nullBuffer := by
  have hz3 : z ≤ 3 := by
    have hz' : z.toNat ≤ 2 := hz
    exact (Nat.le_succ_of_le hz' : z.toNat ≤ 3)
  induction n with
  | zero => exact fun h => (nomatch h)
  | succ n ih =>
      intro i j m h
      rw [dtbRegLoop] at h
      split at h
      · rename_i stop' haddress
        cases h
        unfold dtbRegAddress at haddress
        split_ifs at haddress with h0
        exact dtbStoreCells_error h0 ha haddress
      · dsimp only at h
        split at h
        · rename_i stop' hsize
          cases h
          unfold dtbRegSize at hsize
          split_ifs at hsize with h0 h3
          · rw [h3] at hz
            exact absurd hz (by decide)
          · exact dtbStoreCells_error h0 hz3 hsize
        · exact ih h

/-- Source: `device_tree.c` `dtb_rewrite_property_ranges`. Kind: L -/
theorem dtbRangesLoop_error {childBusAddrs parentBusAddrs lengths : Addr} (ha0 : a ≠ 0) (ha : a ≤ 3)
    (hz0 : z ≠ 0) (hz : z ≤ 2) {n : ℕ} : ∀ {i j : ℕ} {m : Mem},
      dtbRangesLoop value childBusAddrs parentBusAddrs lengths a z n i j m = .error stop →
      stop = .nullValue ∨ stop = .nullBuffer := by
  have hz3 : z ≤ 3 := by
    have hz' : z.toNat ≤ 2 := hz
    exact (Nat.le_succ_of_le hz' : z.toNat ≤ 3)
  induction n with
  | zero => exact fun h => (nomatch h)
  | succ n ih =>
      intro i j m h
      rw [dtbRangesLoop] at h
      split at h
      · rename_i stop' hchild
        cases h
        exact dtbStoreCells_error ha0 ha hchild
      · dsimp only at h
        split at h
        · rename_i stop' hparent
          cases h
          exact dtbStoreCells_error ha0 ha hparent
        · split at h
          · rename_i stop' hlength
            cases h
            unfold dtbRangesLength at hlength
            split_ifs at hlength with h3
            · rw [h3] at hz
              exact absurd hz (by decide)
            · exact dtbStoreCells_error hz0 hz3 hlength
          · exact ih h

/-- A result that fails only at `NULL` reports nothing.
Source: none: infrastructure
Kind: L -/
theorem resultSafe_iff_of_null {α : Type} {r : Except DtRewriteStop α} {isPartial : Prop}
    (h : ∀ stop, r = .error stop → stop = .nullValue ∨ stop = .nullBuffer) :
    ResultSafe r isPartial ↔ ¬ isPartial := by
  constructor
  · intro hsafe hpartial
    obtain ⟨stop, hstop, hreported⟩ := hsafe.reports hpartial
    rcases h stop hstop with rfl | rfl <;> exact hreported
  · intro hwhole
    refine ⟨fun hr => ?_, fun hr => ?_, fun hpartial => absurd hpartial hwhole⟩
    · rcases h _ hr with h | h <;> cases h
    · rcases h _ hr with h | h <;> cases h

/-- Source: none: infrastructure. Kind: L -/
theorem resultSafe_ok_iff {α : Type} {x : α} {isPartial : Prop} :
    ResultSafe (.ok x) isPartial ↔ ¬ isPartial :=
  resultSafe_iff_of_null fun _ h => nomatch h

/-- Source: none: infrastructure. Kind: L -/
theorem resultSafe_assertion {α : Type} (isPartial : Prop) :
    ResultSafe (.error .assertion : Except DtRewriteStop α) isPartial :=
  ⟨nofun, nofun, fun _ => ⟨.assertion, rfl, trivial⟩⟩

/-- **`reg` is safe exactly with the counts of `RegFits`**.
Source: `device_tree.c` `dtb_rewrite_property_reg`
Kind: P -/
theorem regSafe_iff (hdata : p.data = .raw len value) (ha : a ≤ 3) (hz : z ≤ 2) :
    ResultSafe (dtbRewritePropertyReg assertions bump p a z)
      (len.toNat % (4 * (a.toNat + z.toNat)) ≠ 0) ↔
    RegFits assertions a.toNat z.toNat len.toNat := by
  have hgroup := pairSize_toNat ha hz
  unfold dtbRewritePropertyReg RegFits
  rw [hdata]
  dsimp only
  by_cases h0 : 4 * a + 4 * z = 0
  · rw [if_pos h0]
    rw [h0] at hgroup
    change 0 = _ at hgroup
    constructor
    · exact fun hsafe => absurd rfl hsafe.divides
    · rintro ⟨hne, -⟩
      omega
  · rw [if_neg h0]
    have hne : a.toNat ≠ 0 ∨ z.toNat ≠ 0 := by
      by_contra hzero
      exact h0 (BitVec.eq_of_toNat_eq (by rw [hgroup]; show _ = 0; omega))
    by_cases hassert : assertions = true ∧ ¬ dtbRegAsserts len a z = true
    · rw [if_pos hassert]
      exact iff_of_true (resultSafe_assertion _) ⟨hne, Or.inl hassert.1⟩
    · rw [if_neg hassert]
      cases assertions with
      | true =>
          -- the value has whole pairs
          have hwhole : len.toNat % (4 * (a.toNat + z.toNat)) = 0 := by
            have hall : dtbRegAsserts len a z = true := by
              by_contra hnot
              exact hassert ⟨rfl, hnot⟩
            unfold dtbRegAsserts at hall
            simp only [Bool.and_eq_true, decide_eq_true_eq] at hall
            have hmod := congrArg BitVec.toNat hall.1.1.2
            rw [BitVec.toNat_umod, hgroup] at hmod
            exact hmod
          refine iff_of_true ?_ ⟨hne, Or.inl rfl⟩
          split_ifs with hnull
          · exact resultSafe_assertion _
          · refine (resultSafe_iff_of_null fun stop h => ?_).mpr (not_not.mpr hwhole)
            split at h
            · rename_i stop' hloop
              cases h
              exact dtbRegLoop_error ha hz hloop
            · cases h
      | false =>
          rw [if_neg (fun h => Bool.false_ne_true h.1)]
          rw [resultSafe_iff_of_null fun stop h => ?_]
          · constructor
            · exact fun hwhole => ⟨hne, Or.inr (not_not.mp hwhole)⟩
            · rintro ⟨-, hfalse | hwhole⟩
              · cases hfalse
              · exact not_not.mpr hwhole
          · split at h
            · rename_i stop' hloop
              cases h
              exact dtbRegLoop_error ha hz hloop
            · cases h

/-- Source: `device_tree.c` `dtb_rewrite_property_ranges`. Kind: L -/
theorem dtbStoreCells_ok_iff (other : DtRewriteStop) (m : Mem) (value dst : Addr) {cells : BitVec 32}
    (i j : ℕ) (h0 : cells ≠ 0) (h3 : cells ≤ 3) :
    (∃ m', dtbStoreCells other m value dst cells i j = .ok m') ↔ value ≠ 0 ∧ dst ≠ 0 := by
  have hcells := cells_cases h0 h3
  unfold dtbStoreCells
  dsimp only
  by_cases hvalue : value = 0
  · rw [if_pos hvalue, if_pos hvalue, if_pos hvalue]
    refine iff_of_false ?_ fun h => h.1 hvalue
    rintro ⟨m', h⟩
    rcases hcells with rfl | rfl | rfl <;> cases h
  · by_cases hdst : dst = 0
    · rw [if_neg hvalue, if_neg hvalue, if_neg hvalue, if_pos hdst, if_pos hdst, if_pos hdst]
      refine iff_of_false ?_ fun h => h.2 hdst
      rintro ⟨m', h⟩
      rcases hcells with rfl | rfl | rfl <;> cases h
    · rw [if_neg hvalue, if_neg hvalue, if_neg hvalue, if_neg hdst, if_neg hdst, if_neg hdst]
      refine iff_of_true ?_ ⟨hvalue, hdst⟩
      rcases hcells with rfl | rfl | rfl <;> exact ⟨_, rfl⟩

/-- Without size cells the loop of `ranges` ends in its first round: with the panic, or at `NULL`.
Source: `device_tree.c` `dtb_rewrite_property_ranges`
Kind: L -/
theorem dtbRangesLoop_noSize (value childBusAddrs parentBusAddrs lengths : Addr) (ha0 : a ≠ 0)
    (ha : a ≤ 3) {n : ℕ} (hn : 0 < n) (m : Mem) :
    (value ≠ 0 ∧ childBusAddrs ≠ 0 ∧ parentBusAddrs ≠ 0 ∧
      dtbRangesLoop value childBusAddrs parentBusAddrs lengths a 0 n 0 0 m = .error (.panic 0)) ∨
    ¬ (value ≠ 0 ∧ childBusAddrs ≠ 0 ∧ parentBusAddrs ≠ 0) ∧ ∃ stop,
      (stop = .nullValue ∨ stop = .nullBuffer) ∧
      dtbRangesLoop value childBusAddrs parentBusAddrs lengths a 0 n 0 0 m = .error stop := by
  obtain ⟨n, rfl⟩ := Nat.exists_eq_succ_of_ne_zero (Nat.ne_of_gt hn)
  rw [dtbRangesLoop]
  cases hchild : dtbStoreCells .unreachable m value childBusAddrs a 0 0 with
  | error stop =>
      refine Or.inr ⟨fun h => ?_, stop, dtbStoreCells_error ha0 ha hchild, rfl⟩
      obtain ⟨m', hm'⟩ := (dtbStoreCells_ok_iff .unreachable m value childBusAddrs 0 0 ha0 ha).mpr
        ⟨h.1, h.2.1⟩
      rw [hchild] at hm'
      cases hm'
  | ok m₁ =>
      obtain ⟨hvalue, hchild0⟩ := (dtbStoreCells_ok_iff _ _ _ _ _ _ ha0 ha).mp ⟨m₁, hchild⟩
      dsimp only
      cases hparent : dtbStoreCells .unreachable m₁ value parentBusAddrs a 0 (0 + (4 * a).toNat) with
      | error stop =>
          refine Or.inr ⟨fun h => ?_, stop, dtbStoreCells_error ha0 ha hparent, rfl⟩
          obtain ⟨m', hm'⟩ := (dtbStoreCells_ok_iff .unreachable m₁ value parentBusAddrs 0
            (0 + (4 * a).toNat) ha0 ha).mpr ⟨h.1, h.2.2⟩
          rw [hparent] at hm'
          cases hm'
      | ok m₂ =>
          obtain ⟨-, hparent0⟩ := (dtbStoreCells_ok_iff _ _ _ _ _ _ ha0 ha).mp ⟨m₂, hparent⟩
          exact Or.inl ⟨hvalue, hchild0, hparent0, rfl⟩

/-- **`ranges` behind its assertions**: the buffers, then the loop.
Source: `device_tree.c` `dtb_rewrite_property_ranges`
Kind: L -/
theorem dtbRewritePropertyRanges_eq (hdata : p.data = .raw len value)
    (hassert : assertions = true → 4 * a > 0 ∧ 4 * z > 0) (hgroup : 4 * a + 4 * a + 4 * z ≠ 0) :
    dtbRewritePropertyRanges assertions bump p a z =
      let nTrips := len / (4 * a + 4 * a + 4 * z)
      let buffers := dtbRangesBuffers bump a z nTrips
      (dtbRangesLoop value buffers.2.1 buffers.2.2.1 buffers.2.2.2 a z nTrips.toNat 0 0
        buffers.1.mem).map fun m => ({ buffers.1 with mem := m }, .ranges,
          .ranges buffers.2.1 buffers.2.2.1 buffers.2.2.2 nTrips) := by
  unfold dtbRewritePropertyRanges
  rw [hdata]
  dsimp only
  rw [if_neg (fun h => h.2 (hassert h.1)), if_neg hgroup]
  unfold dtbRangesBuffers
  dsimp only
  split
  · rename_i stop hloop
    rw [hloop]
    rfl
  · rename_i m hloop
    rw [hloop]
    rfl

/-- Source: none: infrastructure. Kind: L -/
theorem except_map_error {ε α β : Type} {x : Except ε α} {f : α → β} {e : ε}
    (h : x.map f = .error e) : x = .error e := by
  cases x with
  | error e' => exact congrArg Except.error (Except.error.inj h)
  | ok a => cases h

/-- **`ranges` with both counts positive** fails only at `NULL`.
Source: `device_tree.c` `dtb_rewrite_property_ranges`
Kind: L -/
theorem dtbRewritePropertyRanges_error (hdata : p.data = .raw len value) (ha0 : a ≠ 0) (ha : a ≤ 3)
    (hz0 : z ≠ 0) (hz : z ≤ 2)
    (h : dtbRewritePropertyRanges assertions bump p a z = .error stop) :
    stop = .nullValue ∨ stop = .nullBuffer := by
  have ha' : a.toNat ≠ 0 := fun h => ha0 (BitVec.eq_of_toNat_eq h)
  have hz' : z.toNat ≠ 0 := fun h => hz0 (BitVec.eq_of_toNat_eq h)
  have hz3 : z ≤ 3 := BitVec.le_trans hz (by decide)
  have hpos : 4 * a > 0 ∧ 4 * z > 0 := by
    rw [gt_iff_lt, gt_iff_lt, BitVec.lt_def, BitVec.lt_def, fourCells_toNat ha, fourCells_toNat hz3]
    show 0 < _ ∧ 0 < _
    omega
  have hgroup : 4 * a + 4 * a + 4 * z ≠ 0 := by
    intro h0
    have htoNat := tripletSize_toNat ha hz
    rw [h0] at htoNat
    change 0 = _ at htoNat
    omega
  rw [dtbRewritePropertyRanges_eq hdata (fun _ => hpos) hgroup] at h
  exact dtbRangesLoop_error ha0 ha hz0 hz (except_map_error h)

/-- With `ENABLE_ASSERTIONS`.
Source: `device_tree.c` `dtb_rewrite_property_ranges`
Kind: L -/
theorem rangesSafe_iff_asserted (hdata : p.data = .raw len value) (ha : a ≤ 3) (hz : z ≤ 2) :
    ResultSafe (dtbRewritePropertyRanges true bump p a z)
      (len.toNat % (4 * (a.toNat + a.toNat + z.toNat)) ≠ 0) ↔
    a = 0 ∨ z = 0 ∨ len.toNat % (4 * (a.toNat + a.toNat + z.toNat)) = 0 := by
  by_cases hcounts : a ≠ 0 ∧ z ≠ 0
  · rw [resultSafe_iff_of_null fun stop h =>
      dtbRewritePropertyRanges_error hdata hcounts.1 ha hcounts.2 hz h, not_not]
    exact ⟨fun h => Or.inr (Or.inr h), fun h => (h.resolve_left hcounts.1).resolve_left hcounts.2⟩
  · have hzero : a = 0 ∨ z = 0 := by
      rw [not_and_or, not_not, not_not] at hcounts
      exact hcounts
    have hassert : ¬ (4 * a > 0 ∧ 4 * z > 0) := by
      rintro ⟨ha0, hz0⟩
      rcases hzero with rfl | rfl
      · exact absurd ha0 (by decide)
      · exact absurd hz0 (by decide)
    refine iff_of_true ?_ (hzero.imp_right Or.inl)
    unfold dtbRewritePropertyRanges
    rw [hdata]
    dsimp only
    rw [if_pos ⟨rfl, hassert⟩]
    exact resultSafe_assertion _

/-- Without, when there are no address cells.
Source: `device_tree.c` `dtb_rewrite_property_ranges`
Kind: L -/
theorem rangesSafe_iff_noAddress (hdata : p.data = .raw len value) (hz : z ≤ 2) :
    ResultSafe (dtbRewritePropertyRanges false bump p 0 z)
      (len.toNat % (4 * (0 + 0 + z.toNat)) ≠ 0) ↔ z ≠ 0 ∧ len = 0 := by
  have hgroupNat := tripletSize_toNat (a := 0) (by decide) hz
  change _ = 4 * (0 + 0 + z.toNat) at hgroupNat
  by_cases hz0 : z = 0
  · refine iff_of_false (fun hsafe => hsafe.divides ?_) fun h => h.1 hz0
    unfold dtbRewritePropertyRanges
    rw [hdata, hz0]
    rfl
  · have hz' : z.toNat ≠ 0 := fun h => hz0 (BitVec.eq_of_toNat_eq h)
    have hgroup : 4 * (0 : BitVec 32) + 4 * 0 + 4 * z ≠ 0 := by
      intro h0
      rw [h0] at hgroupNat
      change 0 = _ at hgroupNat
      omega
    rw [dtbRewritePropertyRanges_eq hdata (fun h => absurd h Bool.false_ne_true) hgroup]
    have hn : (len / (4 * 0 + 4 * 0 + 4 * z)).toNat = len.toNat / (4 * (0 + 0 + z.toNat)) := by
      rw [BitVec.toNat_udiv, hgroupNat]
    by_cases hlt : len.toNat < 4 * (0 + 0 + z.toNat)
    · -- no triplet: nothing is read
      rw [Nat.div_eq_of_lt hlt] at hn
      dsimp only
      rw [hn]
      refine resultSafe_ok_iff.trans ?_
      rw [not_not, Nat.mod_eq_of_lt hlt]
      exact ⟨fun h => ⟨hz0, BitVec.eq_of_toNat_eq h⟩, fun h => congrArg BitVec.toNat h.2⟩
    · have hpos : 0 < len.toNat / (4 * (0 + 0 + z.toNat)) :=
        Nat.div_pos (Nat.not_lt.mp hlt) (by omega)
      obtain ⟨n, hn'⟩ := Nat.exists_eq_succ_of_ne_zero (Nat.ne_of_gt hpos)
      refine iff_of_false (fun hsafe => hsafe.reaches ?_) ?_
      · dsimp only
        rw [hn, hn']
        rfl
      · rintro ⟨-, rfl⟩
        exact hlt (by show 0 < _; omega)

/-- Without, when there are no size cells.
Source: `device_tree.c` `dtb_rewrite_property_ranges`
Kind: L -/
theorem rangesSafe_iff_noSize (hdata : p.data = .raw len value) (ha0 : a ≠ 0) (ha : a ≤ 3) :
    ResultSafe (dtbRewritePropertyRanges false bump p a 0)
      (len.toNat % (4 * (a.toNat + a.toNat + 0)) ≠ 0) ↔
    len.toNat % (4 * (a.toNat + a.toNat + 0)) = 0 ∨ RangesPanics bump a 0 len value := by
  have ha' : a.toNat ≠ 0 := fun h => ha0 (BitVec.eq_of_toNat_eq h)
  have hgroupNat := tripletSize_toNat (z := 0) ha (by decide)
  change _ = 4 * (a.toNat + a.toNat + 0) at hgroupNat
  have hgroup : 4 * a + 4 * a + 4 * 0 ≠ 0 := by
    intro h0
    rw [h0] at hgroupNat
    change 0 = _ at hgroupNat
    omega
  rw [dtbRewritePropertyRanges_eq hdata (fun h => absurd h Bool.false_ne_true) hgroup]
  have hn : (len / (4 * a + 4 * a + 4 * 0)).toNat = len.toNat / (4 * (a.toNat + a.toNat + 0)) := by
    rw [BitVec.toNat_udiv, hgroupNat]
  unfold RangesPanics
  dsimp only
  by_cases hlt : len.toNat < 4 * (a.toNat + a.toNat + 0)
  · rw [hn, Nat.div_eq_of_lt hlt]
    refine resultSafe_ok_iff.trans ?_
    rw [not_not]
    exact ⟨Or.inl, fun h => h.resolve_right fun hpanics => absurd hpanics.2.1 (Nat.not_le.mpr hlt)⟩
  · have hpos : 0 < (len / (4 * a + 4 * a + 4 * 0)).toNat := by
      rw [hn]
      exact Nat.div_pos (Nat.not_lt.mp hlt) (by omega)
    rcases dtbRangesLoop_noSize value (dtbRangesBuffers bump a 0 (len / (4 * a + 4 * a + 4 * 0))).2.1
      (dtbRangesBuffers bump a 0 (len / (4 * a + 4 * a + 4 * 0))).2.2.1
      (dtbRangesBuffers bump a 0 (len / (4 * a + 4 * a + 4 * 0))).2.2.2 ha0 ha hpos
      (dtbRangesBuffers bump a 0 (len / (4 * a + 4 * a + 4 * 0))).1.mem with
      ⟨hvalue, hchild, hparent, hloop⟩ | ⟨hnull, stop, hstop, hloop⟩
    · rw [hloop]
      refine iff_of_true ⟨nofun, nofun, fun _ => ⟨_, rfl, trivial⟩⟩ (Or.inr ?_)
      exact ⟨rfl, Nat.not_lt.mp hlt, hvalue, hchild, hparent⟩
    · rw [hloop, resultSafe_iff_of_null (fun stop' h => ?_), not_not]
      · exact ⟨Or.inl, fun h => h.resolve_right fun hpanics => hnull hpanics.2.2⟩
      · cases h
        exact hstop

/-- **`ranges` is safe exactly with the counts of `RangesFit`**.
Source: `device_tree.c` `dtb_rewrite_property_ranges`
Kind: P -/
theorem rangesSafe_iff (hdata : p.data = .raw len value) (ha : a ≤ 3) (hz : z ≤ 2) :
    ResultSafe (dtbRewritePropertyRanges assertions bump p a z)
      (len.toNat % (4 * (a.toNat + a.toNat + z.toNat)) ≠ 0) ↔
    RangesFit assertions bump a z len value := by
  unfold RangesFit
  cases assertions with
  | true =>
      refine (rangesSafe_iff_asserted hdata ha hz).trans ?_
      exact ⟨fun h => ⟨fun _ => h, nofun⟩, fun h => h.1 rfl⟩
  | false =>
      refine Iff.trans ?_ ⟨fun h => ⟨nofun, fun _ => h⟩, fun h => h.2 rfl⟩
      by_cases ha0 : a = 0
      · subst ha0
        rw [show (0 : BitVec 32).toNat = 0 from rfl, rangesSafe_iff_noAddress hdata hz]
        constructor
        · rintro ⟨hz0, rfl⟩
          exact ⟨Or.inr hz0, fun _ => rfl, Or.inl (Nat.zero_mod _)⟩
        · rintro ⟨hne, hlen, -⟩
          exact ⟨hne.resolve_left (fun h => h rfl), hlen rfl⟩
      · by_cases hz0 : z = 0
        · subst hz0
          rw [show (0 : BitVec 32).toNat = 0 from rfl, rangesSafe_iff_noSize hdata ha0 ha]
          exact ⟨fun h => ⟨Or.inl ha0, fun h0 => absurd h0 ha0, h⟩, fun h => h.2.2⟩
        · rw [resultSafe_iff_of_null fun stop h =>
            dtbRewritePropertyRanges_error hdata ha0 ha hz0 hz h, not_not]
          constructor
          · exact fun h => ⟨Or.inl ha0, fun h0 => absurd h0 ha0, Or.inl h⟩
          · exact fun h => h.2.2.resolve_right fun hpanics => hz0 hpanics.1

/-- The other properties do not divide, and have no `__builtin_unreachable()`.
Source: `device_tree.c` `dtb_recursive_property_rewrite`
Kind: L -/
theorem dtbRewriteAs_ne_error {node : DtNode} {name : DtPropName} (hreg : name ≠ .reg)
    (hranges : name ≠ .ranges) (hdma : name ≠ .dmaRanges)
    (hstop : stop = .divisionByZero ∨ stop = .unreachable) :
    dtbRewriteAs assertions node bump p name ≠ .error stop := by
  have hraw : p.data.rawValue ≠ .error stop := by
    rcases hstop with rfl | rfl <;> cases p.data <;> simp [DtPropData.rawValue]
  have hread : dtbReadValueU32 bump.mem p.data ≠ .error stop := by
    unfold dtbReadValueU32
    cases p.data with
    | raw len value =>
        dsimp only [DtPropData.rawValue]
        rcases hstop with rfl | rfl <;> exact ite_ne (by simp) (by simp)
    | _ => rcases hstop with rfl | rfl <;> simp [DtPropData.rawValue]
  cases name with
  | compatible =>
      show dtbRewritePropertyCompatible assertions bump p ≠ _
      unfold dtbRewritePropertyCompatible
      cases p.data with
      | raw len value =>
          rcases hstop with rfl | rfl <;>
            exact ite_ne (by simp) (ite_ne (by simp) (ite_ne (by cases assertions <;> simp) (by simp)))
      | _ => rcases hstop with rfl | rfl <;> exact ite_ne (by simp) (by simp)
  | model => exact except_map_ne_error hraw
  | phandle => exact except_map_ne_error hread
  | status =>
      refine except_map_ne_error ?_
      unfold dtbRewritePropertyStatus
      cases p.data with
      | raw len value =>
          rcases hstop with rfl | rfl <;>
            exact ite_ne (by simp) <| ite_ne (by simp) <| ite_ne (by simp) <| ite_ne (by simp) <| ite_ne (by simp) <|
              ite_ne (by simp) <| ite_ne (by simp) <| ite_ne (by simp) (by simp)
      | _ => rcases hstop with rfl | rfl <;> exact ite_ne (by simp) (by simp)
  | addressCells =>
      rw [dtbRewriteAs]
      split
      · rename_i stop' hstop'
        rintro ⟨⟩
        exact hread hstop'
      · rcases hstop with rfl | rfl <;> exact ite_ne (by simp) (by simp)
  | sizeCells =>
      rw [dtbRewriteAs]
      split
      · rename_i stop' hstop'
        rintro ⟨⟩
        exact hread hstop'
      · rcases hstop with rfl | rfl <;> exact ite_ne (by simp) (by simp)
  | dmaCoherent => simp [dtbRewriteAs]
  | dmaNoncoherent => simp [dtbRewriteAs]
  | deviceType => exact except_map_ne_error hraw
  | reg => exact absurd rfl hreg
  | ranges => exact absurd rfl hranges
  | dmaRanges => exact absurd rfl hdma
  | other => simp [dtbRewriteAs]

/-- Source: none: infrastructure. Kind: L -/
theorem resultSafe_map_iff {α β : Type} {r : Except DtRewriteStop α} {f : α → β} {isPartial : Prop} :
    ResultSafe (r.map f) isPartial ↔ ResultSafe r isPartial := by
  constructor
  · intro h
    refine ⟨fun hr => h.divides ?_, fun hr => h.reaches ?_, fun hpartial => ?_⟩
    · rw [hr]
      rfl
    · rw [hr]
      rfl
    · obtain ⟨stop, hstop, hreported⟩ := h.reports hpartial
      exact ⟨stop, except_map_error hstop, hreported⟩
  · intro h
    refine ⟨fun hr => h.divides (except_map_error hr), fun hr => h.reaches (except_map_error hr),
      fun hpartial => ?_⟩
    obtain ⟨stop, hstop, hreported⟩ := h.reports hpartial
    refine ⟨stop, ?_, hreported⟩
    rw [hstop]
    rfl

section round

variable {v : DtVisit}

/-- Source: none: infrastructure. Kind: L -/
theorem DtVisit.partial_iff {group : ℕ} (hgroup : v.group = some group)
    (hdata : v.property.data = .raw len value) : v.Partial ↔ len.toNat % group ≠ 0 := by
  constructor
  · rintro ⟨group', len', value', hgroup', hdata', hrest⟩
    rw [hgroup] at hgroup'
    rw [hdata] at hdata'
    cases hgroup'
    cases hdata'
    exact hrest
  · exact fun hrest => ⟨group, len, value, hgroup, hdata, hrest⟩

/-- A round over another property.
Source: `device_tree.c` `dtb_recursive_property_rewrite`
Kind: L -/
theorem DtVisit.resultSafe_iff_plain
    (hname : v.name ≠ .reg ∧ v.name ≠ .ranges ∧ v.name ≠ .dmaRanges)
    (hne : ∀ stop, stop = .divisionByZero ∨ stop = .unreachable →
      v.rewritten assertions ≠ .error stop) :
    ResultSafe (v.rewritten assertions) v.Partial ↔ v.CellsFit assertions := by
  obtain ⟨hreg, hranges, hdma⟩ := hname
  refine iff_of_true ⟨hne _ (Or.inl rfl), hne _ (Or.inr rfl), ?_⟩ fun len value _ => ?_
  · rintro ⟨group, len, value, hsome, -, -⟩
    unfold DtVisit.group at hsome
    cases hname : v.name with
    | reg => exact absurd hname hreg
    | ranges => exact absurd hname hranges
    | dmaRanges => exact absurd hname hdma
    | _ =>
        rw [hname] at hsome
        cases hsome
  · exact ⟨fun h => absurd h hreg, fun h => h.elim (absurd · hranges) (absurd · hdma)⟩

/-- A round over a union that is not `raw` any more.
Source: `device_tree.c` `dtb_recursive_property_rewrite`
Kind: L -/
theorem DtVisit.resultSafe_iff_notRaw (hresult : v.rewritten assertions = .error .notRaw)
    (hdata : ∀ len value, v.property.data ≠ .raw len value) :
    ResultSafe (v.rewritten assertions) v.Partial ↔ v.CellsFit assertions := by
  rw [hresult]
  refine iff_of_true ⟨nofun, nofun, ?_⟩ fun len value h => absurd h (hdata len value)
  rintro ⟨group, len, value, -, h, -⟩
  exact absurd h (hdata len value)

/-- A round over `reg`, `ranges` or `dma-ranges`.
Source: `device_tree.c` `dtb_recursive_property_rewrite`
Kind: L -/
theorem DtVisit.resultSafe_iff_group (hcells : v.node.cells.Bounded)
    (hname : v.name = .reg ∨ v.name = .ranges ∨ v.name = .dmaRanges)
    (hresult : v.rewritten assertions = dtbRewriteAs assertions v.node v.bump v.property v.name) :
    ResultSafe (v.rewritten assertions) v.Partial ↔ v.CellsFit assertions := by
  obtain ⟨ha, hz⟩ := hcells
  cases hdata : v.property.data with
  | raw len value =>
      have hfit : v.CellsFit assertions ↔ v.ValueFits assertions len value := by
        constructor
        · exact fun h => h len value hdata
        · intro h len' value' hdata'
          rw [hdata] at hdata'
          cases hdata'
          exact h
      rw [hfit, hresult]
      unfold DtVisit.ValueFits
      rcases hname with hname | hname | hname
      · have hgroup : v.group =
            some (4 * (v.node.addressCells.toNat + v.node.sizeCells.toNat)) := by
          unfold DtVisit.group
          rw [hname]
        rw [DtVisit.partial_iff hgroup hdata, hname]
        refine (regSafe_iff hdata ha hz).trans ?_
        exact ⟨fun h => ⟨fun _ => h, fun h => h.elim (by simp) (by simp)⟩, fun h => h.1 rfl⟩
      · have hgroup : v.group = some
            (4 * (v.node.addressCells.toNat + v.node.addressCells.toNat + v.node.sizeCells.toNat)) := by
          unfold DtVisit.group
          rw [hname]
        rw [DtVisit.partial_iff hgroup hdata, hname]
        refine (rangesSafe_iff hdata ha hz).trans ?_
        exact ⟨fun h => ⟨fun h => (by cases h), fun _ => h⟩, fun h => h.2 (Or.inl rfl)⟩
      · have hgroup : v.group = some
            (4 * (v.node.addressCells.toNat + v.node.addressCells.toNat + v.node.sizeCells.toNat)) := by
          unfold DtVisit.group
          rw [hname]
        rw [DtVisit.partial_iff hgroup hdata, hname]
        refine (resultSafe_map_iff.trans (rangesSafe_iff hdata ha hz)).trans ?_
        exact ⟨fun h => ⟨fun h => (by cases h), fun _ => h⟩, fun h => h.2 (Or.inr rfl)⟩
  | _ =>
      refine DtVisit.resultSafe_iff_notRaw ?_ (by rw [hdata]; simp)
      rw [hresult]
      rcases hname with hname | hname | hname
      all_goals
        rw [hname, dtbRewriteAs]
        first
          | unfold dtbRewritePropertyReg
          | unfold dtbRewritePropertyRanges
        rw [hdata]
      rfl

/-- **One round**: it is safe exactly when the counts fit.
Source: `device_tree.c` `dtb_recursive_property_rewrite`
Kind: P -/
theorem DtVisit.resultSafe_iff (hcells : v.node.cells.Bounded) :
    ResultSafe (v.rewritten assertions) v.Partial ↔ v.CellsFit assertions := by
  by_cases hnull : v.property.name = 0
  · have hname : v.name = .other := if_pos hnull
    refine v.resultSafe_iff_plain (by rw [hname]; decide) fun stop hstop => ?_
    unfold DtVisit.rewritten dtbRewriteProperty
    rw [if_pos hnull]
    rcases hstop with rfl | rfl <;> exact nofun
  · have hresult : v.rewritten assertions = dtbRewriteAs assertions v.node v.bump v.property v.name := by
      unfold DtVisit.rewritten DtVisit.name
      rw [dtbRewriteProperty_eq hnull, if_neg hnull]
    by_cases hname : v.name = .reg ∨ v.name = .ranges ∨ v.name = .dmaRanges
    · exact DtVisit.resultSafe_iff_group hcells hname hresult
    · rw [not_or, not_or] at hname
      refine v.resultSafe_iff_plain hname fun stop hstop => ?_
      rw [hresult]
      exact dtbRewriteAs_ne_error hname.1 hname.2.1 hname.2.2 hstop

/-- A round is as safe as the rewriting of its property.
Source: `device_tree.c` `dtb_recursive_property_rewrite`
Kind: L -/
theorem DtVisit.resultSafe_iff_rewritten {isPartial : Prop} :
    ResultSafe (v.result assertions) isPartial ↔ ResultSafe (v.rewritten assertions) isPartial := by
  have hresult : v.result assertions = dtbRewriteRound assertions v.node v.bump v.property := rfl
  unfold dtbRewriteRound at hresult
  unfold DtVisit.rewritten
  cases hrun : dtbRewriteProperty assertions v.node v.bump v.property with
  | error stop =>
      rw [hrun] at hresult
      rw [hresult]
  | ok r =>
      rw [hrun] at hresult
      dsimp only at hresult
      rw [hresult]
      split_ifs
      · exact Iff.rfl
      · -- such a round has not reported anything
        rw [resultSafe_ok_iff]
        refine ⟨fun h hpartial => ?_, fun h => ⟨by simp, by simp, fun hpartial => absurd hpartial h⟩⟩
        obtain ⟨stop, hstop, hreported⟩ := h.reports hpartial
        cases hstop
        exact hreported

end round

/-! ## The pass -/

/-- The pass is safe when its rounds are.
Source: none: infrastructure
Kind: L -/
theorem rewriteCellsSafe_iff_visits :
    RewriteCellsSafe assertions s root ↔
      ∀ v ∈ dtbVisits assertions s root, ResultSafe (v.result assertions) v.Partial := by
  constructor
  · intro h v hv
    refine ⟨fun hr => h.divides (dtbRewrite_of_visit hv hr),
      fun hr => h.reaches (dtbRewrite_of_visit hv hr), fun hpartial => ?_⟩
    obtain ⟨stop, hstop, hreported, -⟩ := h.reports v hv hpartial
    exact ⟨stop, hstop, hreported⟩
  · intro h
    refine ⟨fun hr => ?_, fun hr => ?_, fun v hv hpartial => ?_⟩
    · obtain ⟨v, hv, hstop⟩ := exists_visit_of_error hr nofun
      exact (h v hv).divides hstop
    · obtain ⟨v, hv, hstop⟩ := exists_visit_of_error hr nofun
      exact (h v hv).reaches hstop
    · obtain ⟨stop, hstop, hreported⟩ := (h v hv).reports hpartial
      exact ⟨stop, hstop, hreported, dtbRewrite_of_visit hv hstop⟩

/-- The pass stores to the buffer only when its rounds do.
Source: none: infrastructure
Kind: L -/
theorem staysInside_iff_visits :
    dtbRewrite assertions s root ≠ .error .outsideBuffer ↔
      ∀ v ∈ dtbVisits assertions s root, v.Inside assertions := by
  constructor
  · exact fun h v hv hout => h (dtbRewrite_of_visit hv hout)
  · intro h hout
    obtain ⟨v, hv, hstop⟩ := exists_visit_of_error hout (by decide)
    exact h v hv hstop

/-- **The arithmetic of the rewrite pass is safe exactly when the counts fit** in every round: for every
blob that is parsed, whatever room the bump allocator has, and with or without `ENABLE_ASSERTIONS`. What
happens behind a store to other memory is not said: no round makes one, on either side.
Source: `device_tree.c` `dtb_rewrite_property_reg`, `dtb_rewrite_property_ranges`,
`dtb_recursive_property_rewrite`
Kind: P -/
theorem rewriteCellsSafe_iff (env : DtEnv) (bump : BumpAllocator) (s : DtState) (root : ArrayPtr)
    (hparse : dtbParse env bump = .rewrite s root) :
    (RewriteCellsSafe env.assertions s root ∧
        dtbRewrite env.assertions s root ≠ .error .outsideBuffer) ↔
      ∀ v ∈ dtbVisits env.assertions s root, v.CellsFit env.assertions ∧ v.Inside env.assertions := by
  rw [rewriteCellsSafe_iff_visits, staysInside_iff_visits, ← forall₂_and]
  refine forall₂_congr fun v hv => and_congr_left fun _ => ?_
  rw [DtVisit.resultSafe_iff_rewritten]
  exact DtVisit.resultSafe_iff (visits_bounded (raw_of_parse hparse).bounded hv)

end safe

/-- A structure block with the strings block `strings` at `0x82000000`.
Source: none: infrastructure
Kind: D -/
def stringsEnv (assertions : Bool) (strings structs : List (BitVec 8)) : DtEnv where
  structs := structs
  mem := fun a => strings.getD (a - 0x82000000).toNat 0
  strings := 0x82000000
  assertions := assertions
  grants := fun _ => true

/-- `"#address-cells"`, `"#size-cells"` and `"reg"`.
Source: none: infrastructure
Kind: D -/
def cellsStrings : List (BitVec 8) :=
  ascii "#address-cells" ++ 0 :: ascii "#size-cells" ++ 0 :: ascii "reg" ++ [0]

/-- A root with the counts `a` and `z`, and the node `c` inside with a `reg` of two cells.
Source: none: infrastructure
Kind: D -/
def regBlock (a z : BitVec 8) : List (BitVec 8) :=
  [0, 0, 0, 1, 0, 0, 0, 0] ++
    [0, 0, 0, 3, 0, 0, 0, 4, 0, 0, 0, 0, 0, 0, 0, a] ++
    [0, 0, 0, 3, 0, 0, 0, 4, 0, 0, 0, 15, 0, 0, 0, z] ++
    [0, 0, 0, 1, 99, 0, 0, 0] ++
    [0, 0, 0, 3, 0, 0, 0, 8, 0, 0, 0, 27, 0, 0, 16, 0, 0, 0, 1, 0] ++
    [0, 0, 0, 2, 0, 0, 0, 2, 0, 0, 0, 9]

/-- Whether what is parsed has the property `f`.
Source: none: infrastructure
Kind: D -/
def dtbParsed (env : DtEnv) (bump : BumpAllocator) (f : DtState → ArrayPtr → Bool) : Bool :=
  match dtbParse env bump with
  | .rewrite s root => f s root
  | _ => false

/-- Source: none: infrastructure. Kind: L -/
theorem exists_of_dtbParsed (env : DtEnv) (bump : BumpAllocator) (f : DtState → ArrayPtr → Bool)
    (h : dtbParsed env bump f = true) :
    ∃ s root, dtbParse env bump = .rewrite s root ∧ f s root = true := by
  unfold dtbParsed at h
  split at h
  · rename_i s root hparse
    exact ⟨s, root, hparse, h⟩
  · cases h

/-- Whether the counts fit and the stores are inside, by evaluation.
Source: none: infrastructure
Kind: D -/
def DtVisit.fits (assertions : Bool) (v : DtVisit) : Bool :=
  (match v.property.data with
    | .raw len value => decide (v.ValueFits assertions len value)
    | _ => true) &&
  match v.result assertions with
  | .error stop => decide (stop ≠ .outsideBuffer)
  | .ok _ => true

/-- Source: none: infrastructure. Kind: L -/
theorem DtVisit.cellsFit_of_fits {assertions : Bool} {v : DtVisit} (h : v.fits assertions = true) :
    v.CellsFit assertions ∧ v.Inside assertions := by
  unfold DtVisit.fits at h
  rw [Bool.and_eq_true] at h
  refine ⟨fun len value hdata => ?_, fun hout => ?_⟩
  · rw [hdata] at h
    exact of_decide_eq_true h.1
  · rw [hout] at h
    exact of_decide_eq_true h.2 rfl

/-- One address cell and one size cell, and one pair.
Source: none: infrastructure
Kind: C -/
theorem rewriteCellsSafe_regBlock :
    ∃ s root, dtbParse (stringsEnv false cellsStrings (regBlock 1 1)) twoPageBump = .rewrite s root ∧
      RewriteCellsSafe false s root := by
  obtain ⟨s, root, hparse, hfit⟩ := exists_of_dtbParsed
    (stringsEnv false cellsStrings (regBlock 1 1)) twoPageBump
    (fun s root => (dtbVisits false s root).all (DtVisit.fits false)) (by decide +kernel)
  refine ⟨s, root, hparse, ((rewriteCellsSafe_iff _ _ s root hparse).mpr fun v hv => ?_).1⟩
  exact DtVisit.cellsFit_of_fits (List.all_eq_true.mp hfit v hv)

/-- Whether the pass stops with `stop`, by evaluation.
Source: none: infrastructure
Kind: D -/
def dtbRewriteStops (assertions : Bool) (stop : DtRewriteStop) (s : DtState) (root : ArrayPtr) : Bool :=
  match dtbRewrite assertions s root with
  | .error stop' => stop' = stop
  | .ok _ => false

/-- Source: none: infrastructure. Kind: L -/
theorem dtbRewrite_of_stops {assertions : Bool} {stop : DtRewriteStop} {s : DtState} {root : ArrayPtr}
    (h : dtbRewriteStops assertions stop s root = true) :
    dtbRewrite assertions s root = .error stop := by
  unfold dtbRewriteStops at h
  cases hrewrite : dtbRewrite assertions s root with
  | error stop' =>
      rw [hrewrite] at h
      rw [of_decide_eq_true h]
  | ok s' =>
      rw [hrewrite] at h
      cases h

/-- **No cells at all**: the counts 0 and 0 are accepted, and the pass divides by zero at the `reg` of a
subnode.
Source: `device_tree.c` `dtb_rewrite_property_reg`
Kind: C -/
theorem not_rewriteCellsSafe_noCells :
    ∃ s root, dtbParse (stringsEnv true cellsStrings (regBlock 0 0)) twoPageBump = .rewrite s root ∧
      dtbRewrite true s root = .error .divisionByZero ∧ ¬ RewriteCellsSafe true s root := by
  obtain ⟨s, root, hparse, hstop⟩ := exists_of_dtbParsed
    (stringsEnv true cellsStrings (regBlock 0 0)) twoPageBump
    (dtbRewriteStops true .divisionByZero) (by decide +kernel)
  have hdivides := dtbRewrite_of_stops hstop
  exact ⟨s, root, hparse, hdivides, fun hsafe => hsafe.divides hdivides⟩

end Octiron.Kernel
