import Octiron.Kernel.DeviceRanges

/-!
# What the values of a tree mean

The meaning of a property, from the bytes of the block alone, and a property of the kernel that has it.

* `terminated`, `statusOf`, `pairAt` — strings, a status and numbers in a value.
* `FdtProp.decode` — what a value means at a node with these counts, or how the pass has to stop.
* `FdtProp.Readable`, `FdtProp.FewCells`, `FdtProp.Shaped` — the code reads the value and nothing else, and
  has types for its numbers.
* `ValueAt` — the property of the kernel with this meaning.
* **Main result** (`valueAt_of_rewrite`): a property that the pass rewrites has the meaning of its value,
  whatever is rewritten after it.
-/

namespace Octiron.Kernel

open Octiron.Found
open Octiron.Found.Mem
open Octiron.Kzadhbat

/-! ## Strings and numbers -/

/-- The strings of a value that have a terminator in it.
Source: `device_tree.c` `struct dtProperty`
Kind: D -/
def terminated : List (BitVec 8) → List (List (BitVec 8))
  | [] => []
  | b :: l =>
      if b = 0 then [] :: terminated l
      else
        match terminated l with
        | [] => []
        | s :: strs => (b :: s) :: strs

/-- What a status says, and why the device does not work.
Source: `device_tree.c` `struct dtPropStatus`
Kind: D -/
def statusOf (s : List (BitVec 8)) : Option (DtPropStatus × List (BitVec 8)) :=
  if s = ascii "okay" then some (.ok, [])
  else if s = ascii "disabled" then some (.disabled, [])
  else if s = ascii "reserved" then some (.reserved, [])
  else if s = ascii "fail" then some (.fail, [])
  else if s.take 5 = ascii "fail-" then some (.failSss, s.drop 5)
  else none

/-- The bytes of an address and a size.
Source: `device_tree.c` `DTB_PROP_REG`
Kind: D -/
def pairBytes (cells : DtCells) : ℕ := 4 * (cells.address.toNat + cells.size.toNat)

/-- **Pair `i`**: an address and a size.
Source: `device_tree.c` `DTB_PROP_REG`
Kind: D -/
def pairAt (cells : DtCells) (l : List (BitVec 8)) (i : ℕ) : ℕ × ℕ :=
  (beNat (slice l (pairBytes cells * i) (4 * cells.address.toNat)),
    beNat (slice l (pairBytes cells * i + 4 * cells.address.toNat) (4 * cells.size.toNat)))

/-- Element `i` of the arrays of `reg`.
Source: `device_tree.c` `struct dtPropReg`, `dtb_recursive_print`
Kind: D -/
def regElem (m : Mem) (addresses sizes : Addr) (cells : DtCells) (i : ℕ) : ℕ × ℕ :=
  (elemAt m addresses (cellsWidth cells.address) i, elemAt m sizes (cellsWidth cells.size) i)

/-! ## The meaning of a property -/

/-- **What a value means**.
Source: `device_tree.c` `enum dtPropertyType`
Kind: D -/
inductive FdtValue
  | raw (value : List (BitVec 8))
  | compatible (strings : List (List (BitVec 8)))
  | model (value : List (BitVec 8))
  | phandle (value : BitVec 32)
  | status (value : DtPropStatus) (reason : List (BitVec 8))
  | addressCells (cells : BitVec 32)
  | sizeCells (cells : BitVec 32)
  | dmaCoherence (value : Bool)
  | deviceType (value : List (BitVec 8))
  | reg (pairs : List (ℕ × ℕ))
  | ranges (triplets : List (ℕ × ℕ × ℕ))
  | dmaRanges (triplets : List (ℕ × ℕ × ℕ))
  deriving DecidableEq

/-- The pairs of `reg`, of which there has to be one at least, and no more.
Source: `device_tree.c` `dtb_rewrite_property_reg`
Kind: D -/
def FdtProp.pairs (cells : DtCells) (p : FdtProp) : Except DtRewriteStop (List (ℕ × ℕ)) :=
  if pairBytes cells = 0 then .error .divisionByZero
  else if p.value = [] ∨ ¬ pairBytes cells ∣ p.value.length then .error .assertion
  else .ok ((List.range (p.value.length / pairBytes cells)).map (pairAt cells p.value))

/-- The triplets of `ranges`, which all have the counts that govern the node.
Source: `device_tree.c` `dtb_rewrite_property_ranges`
Kind: D -/
def FdtProp.triplets (cells : DtCells) (p : FdtProp) : Except DtRewriteStop (List (ℕ × ℕ × ℕ)) :=
  if cells.address = 0 ∨ cells.size = 0 then .error .assertion
  else .ok ((List.range (p.value.length / tripletBytes cells cells)).map (tripletAt cells cells p.value))

/-- **The meaning of a property** of a node that these counts govern, or how the pass has to stop.
Source: `device_tree.c` `dtb_recursive_property_rewrite`
Kind: D -/
def FdtProp.decode (cells : DtCells) (p : FdtProp) : Except DtRewriteStop FdtValue :=
  match p.kind with
  | .compatible => .ok (.compatible (terminated p.value))
  | .model => .ok (.model p.value)
  | .phandle => .ok (.phandle p.word)
  | .status =>
    match statusOf (p.value.takeWhile (· ≠ 0)) with
    | none => .error .assertion
    | some (value, reason) => .ok (.status value reason)
  | .addressCells =>
    if p.word > 3 then .error (.err GrouperError.dtbAddressCellsTooLarge.errval)
    else .ok (.addressCells p.word)
  | .sizeCells =>
    if p.word > 2 then .error (.err GrouperError.dtbSizeCellsTooLarge.errval)
    else .ok (.sizeCells p.word)
  | .dmaCoherent => .ok (.dmaCoherence true)
  | .dmaNoncoherent => .ok (.dmaCoherence false)
  | .deviceType => .ok (.deviceType p.value)
  | .reg => (p.pairs cells).map .reg
  | .ranges => (p.triplets cells).map .ranges
  | .dmaRanges => (p.triplets cells).map .dmaRanges
  | .other => .ok (.raw p.value)

/-- **The value can be read**: four bytes for a count or a handle, and a terminator in a status.
Source: `device_tree.c` `dtb_recursive_property_rewrite`
Kind: D -/
structure FdtProp.Readable (p : FdtProp) : Prop where
  word : p.kind = .phandle ∨ p.kind = .addressCells ∨ p.kind = .sizeCells → 4 ≤ p.value.length
  terminator : p.kind = .status → 0 ∈ p.value

/-- **No number under three address cells** is cut out of the value.
Source: `device_tree.c` `dtb_rewrite_property_reg`, `dtb_rewrite_property_ranges`
Kind: D -/
def FdtProp.FewCells (cells : DtCells) (p : FdtProp) : Prop :=
  cells.Bounded → cells.address = 3 → p.groups cells = 0

/-- **The value has the shape that its reader needs**.
Source: `device_tree.c` `dtb_recursive_property_rewrite`
Kind: D -/
structure FdtProp.Shaped (cells : DtCells) (p : FdtProp) : Prop extends p.Readable where
  numbers : p.FewCells cells

instance (cells : DtCells) : Decidable cells.Bounded := inferInstanceAs (Decidable (_ ∧ _))

instance (cells : DtCells) (p : FdtProp) : Decidable (p.FewCells cells) :=
  inferInstanceAs (Decidable (_ → _ → _))

instance (p : FdtProp) : Decidable p.Readable :=
  decidable_of_iff ((p.kind = .phandle ∨ p.kind = .addressCells ∨ p.kind = .sizeCells → 4 ≤ p.value.length) ∧
      (p.kind = .status → 0 ∈ p.value))
    ⟨fun h => ⟨h.1, h.2⟩, fun h => ⟨h.word, h.terminator⟩⟩

instance (cells : DtCells) (p : FdtProp) : Decidable (p.Shaped cells) :=
  decidable_of_iff (p.Readable ∧ p.FewCells cells)
    ⟨fun h => ⟨h.1, h.2⟩, fun h => ⟨h.toReadable, h.numbers⟩⟩

/-- Numbers have at most two address cells.
Source: `device_tree.c` `dtb_rewrite_property_reg`, `dtb_rewrite_property_ranges`
Kind: L -/
theorem FdtProp.Shaped.address_le {cells : DtCells} {p : FdtProp} (h : p.Shaped cells)
    (hcells : cells.Bounded) (hgroups : p.groups cells ≠ 0) : cells.address ≤ 2 :=
  hcells.address_le fun h3 => hgroups (h.numbers hcells h3)

/-! ## A property of the kernel -/

/-- The arrays of `ranges` hold these triplets.
Source: `device_tree.c` `struct dtPropRanges`
Kind: D -/
def TripletsAt (m : Mem) (cells : DtCells) (d : DtPropData) (triplets : List (ℕ × ℕ × ℕ)) : Prop :=
  ∃ childBusAddrs parentBusAddrs lengths nTrips,
    d = .ranges childBusAddrs parentBusAddrs lengths nTrips ∧
      (List.range nTrips.toNat).map (rangesElem m childBusAddrs parentBusAddrs lengths cells) = triplets

/-- **The property has this meaning**: its type, and what its data leads to.
Source: `device_tree.c` `struct dtProperty`
Kind: D -/
def ValueAt (m : Mem) (cells : DtCells) (t : DtPropertyType) (d : DtPropData) : FdtValue → Prop
  | .raw l => t = .raw ∧ ∃ len value, d = .raw len value ∧ len.toNat = l.length ∧ BytesAt m value l
  | .compatible strs => t = .compatible ∧ ∃ compat, d = .compat compat ∧
      ∀ n, strs.length < n → compatStrings m n compat = strs
  | .model l => t = .model ∧ ∃ value, d = .model value ∧ BytesAt m value l
  | .phandle v => t = .phandle ∧ d = .phandle v
  | .status v reason => t = .status ∧ ∃ p, d = .status v p ∧
      if v = .failSss then CStringAt m p reason else p = 0
  | .addressCells v => t = .addressCells ∧ d = .addressCells v
  | .sizeCells v => t = .sizeCells ∧ d = .sizeCells v
  | .dmaCoherence v => t = .dmaCoherence ∧ d = .dmaCoherence v
  | .deviceType l => t = .deviceType ∧ ∃ value, d = .deviceType value ∧ BytesAt m value l
  | .reg pairs => t = .reg ∧ ∃ addresses sizes nPairs, d = .reg addresses sizes nPairs ∧
      (List.range nPairs.toNat).map (regElem m addresses sizes cells) = pairs
  | .ranges triplets => t = .ranges ∧ TripletsAt m cells d triplets
  | .dmaRanges triplets => t = .dmaRanges ∧ TripletsAt m cells d triplets

/-! ## Strings -/

section strings

variable {m : Mem} {q : Addr} {l s : List (BitVec 8)}

/-- Source: none: infrastructure. Kind: L -/
theorem cutInto_terminated (l : List (BitVec 8)) : ∃ tail, CutInto l (terminated l) tail := by
  induction l with
  | nil => exact ⟨[], rfl, fun _ hs => absurd hs List.not_mem_nil, List.not_mem_nil⟩
  | cons b l ih =>
      obtain ⟨tail, hl, hstrs, htail⟩ := ih
      unfold terminated
      by_cases hb : b = 0
      · rw [if_pos hb]
        refine ⟨tail, ?_, List.forall_mem_cons.mpr ⟨List.not_mem_nil, hstrs⟩, htail⟩
        rw [hb]
        exact congrArg (0 :: ·) hl
      · rw [if_neg hb]
        cases hterminated : terminated l with
        | nil =>
            rw [hterminated] at hl
            exact ⟨b :: tail, congrArg (b :: ·) hl, fun _ hs => absurd hs List.not_mem_nil,
              List.not_mem_cons_of_ne_of_not_mem (Ne.symm hb) htail⟩
        | cons s strs =>
            rw [hterminated] at hl hstrs
            obtain ⟨hs, hstrs'⟩ := List.forall_mem_cons.mp hstrs
            exact ⟨tail, congrArg (b :: ·) hl, List.forall_mem_cons.mpr
              ⟨List.not_mem_cons_of_ne_of_not_mem (Ne.symm hb) hs, hstrs'⟩, htail⟩

/-- A value with a terminator is a string and more.
Source: none: infrastructure
Kind: L -/
theorem cstringAt_takeWhile (h : BytesAt m q l) (h0 : 0 ∈ l) : CStringAt m q (l.takeWhile (· ≠ 0)) := by
  induction l generalizing q with
  | nil => exact absurd h0 List.not_mem_nil
  | cons b l ih =>
      obtain ⟨hb, htail⟩ := bytesAt_cons.mp h
      rw [List.takeWhile_cons]
      by_cases hzero : b = 0
      · rw [if_neg (by rw [hzero]; decide)]
        exact bytesAt_cons.mpr ⟨hb.trans hzero, fun i c hc => by cases hc⟩
      · rw [if_pos (decide_eq_true hzero)]
        refine bytesAt_cons.mpr ⟨hb, ih htail ?_⟩
        exact (List.mem_cons.mp h0).resolve_left (Ne.symm hzero)

/-- Source: none: infrastructure. Kind: L -/
theorem zero_notMem_takeWhile (l : List (BitVec 8)) : 0 ∉ l.takeWhile (· ≠ 0) := by
  intro hmem
  have hne := List.mem_takeWhile_imp hmem
  exact of_decide_eq_true hne rfl

/-- The first bytes of a string.
Source: none: infrastructure
Kind: L -/
theorem bytesAt_iff_take {str : List (BitVec 8)} (h : CStringAt m q s) (hstr : 0 ∉ str) :
    BytesAt m q str ↔ s.take str.length = str := by
  induction str generalizing q s with
  | nil => exact ⟨fun _ => rfl, fun _ i b hb => by cases hb⟩
  | cons c str ih =>
      rw [List.mem_cons, not_or] at hstr
      cases s with
      | nil =>
          have hq : m q = 0 := (bytesAt_cons.mp h).1
          constructor
          · intro hat
            exact absurd (hq.symm.trans (bytesAt_cons.mp hat).1) hstr.1
          · intro htake
            exact absurd htake (List.cons_ne_nil c str).symm
      | cons b s =>
          obtain ⟨hb, htail⟩ := bytesAt_cons.mp h
          rw [bytesAt_cons, ih htail hstr.2, hb, List.length_cons, List.take_succ_cons, List.cons.injEq]

/-- `strncmp` with a literal.
Source: `impl.c` `strncmp`
Kind: L -/
theorem strncmpEq_eq {str : List (BitVec 8)} (h : CStringAt m q s) (hstr : 0 ∉ str) :
    strncmpEq m q str = decide (s.take str.length = str) := by
  have hat : strncmpEq m q str = true ↔ BytesAt m q str := by
    unfold strncmpEq BytesAt
    simp only [List.all_eq_true, List.mem_range, decide_eq_true_eq]
    constructor
    · intro hall i b hb
      rw [hall i (List.getElem?_eq_some_iff.mp hb).1, List.getD_eq_getElem?_getD, hb]
      rfl
    · intro hall i hi
      rw [List.getD_eq_getElem?_getD, List.getElem?_eq_getElem hi]
      exact hall i _ (List.getElem?_eq_getElem hi)
  rw [Bool.eq_iff_iff, hat, bytesAt_iff_take h hstr, decide_eq_true_eq]

/-- The rest of a string.
Source: none: infrastructure
Kind: L -/
theorem CStringAt.drop (h : CStringAt m q s) {k : ℕ} (hk : k ≤ s.length) :
    CStringAt m (q + BitVec.ofNat 64 k) (s.drop k) := by
  intro i b hb
  rw [BitVec.add_assoc, ← BitVec.ofNat_add]
  refine h (k + i) b ?_
  rw [← hb, ← List.getElem?_drop, List.drop_append_of_le_length hk]

end strings

/-! ## One property -/

section single

variable {assertions : Bool} {b b' b'' : BumpAllocator} {x : DtProperty} {len : BitVec 32} {value : Addr}
  {l : List (BitVec 8)} {t : DtPropertyType} {d : DtPropData} {cells : DtCells} {p : FdtProp}

/-- **A status** whose string has its terminator.
Source: `device_tree.c` `dtb_rewrite_property_status`
Kind: P -/
theorem dtbRewritePropertyStatus_eq {m : Mem} {s : List (BitVec 8)} (htype : x.type = .raw)
    (hdata : x.data = .raw len value) (hvalue : value ≠ 0) (h : CStringAt m value s) (h0 : 0 ∉ s) :
    dtbRewritePropertyStatus assertions m x =
      match statusOf s with
      | some (v, _) => .ok (.status, .status v (if v = .failSss then value + 5 else 0))
      | none => if assertions then .error .assertion else .ok (.status, x.data) := by
  unfold dtbRewritePropertyStatus statusOf
  rw [if_neg (fun h => h.2 htype), hdata]
  dsimp only
  rw [if_neg hvalue, strcmpEq_eq h h0 (by decide), strcmpEq_eq h h0 (by decide),
    strcmpEq_eq h h0 (by decide), strcmpEq_eq h h0 (by decide), strncmpEq_eq h (by decide),
    show (ascii "fail-").length = 5 from rfl]
  simp only [decide_eq_true_eq]
  split_ifs <;> rfl

/-- Source: none: infrastructure. Kind: L -/
theorem statusOf_failSss {s reason : List (BitVec 8)} (h : statusOf s = some (.failSss, reason)) :
    reason = s.drop 5 ∧ 5 ≤ s.length := by
  unfold statusOf at h
  split_ifs at h with h₁ h₂ h₃ h₄ h₅
  · cases h
  · cases h
  · cases h
  · cases h
  · cases h
    refine ⟨rfl, ?_⟩
    have hlen := congrArg List.length h₅
    rw [List.length_take] at hlen
    change min 5 s.length = 5 at hlen
    omega

/-- A word that has been handed out.
Source: none: infrastructure
Kind: L -/
theorem load64_frame {q : Addr} {n j : ℕ} (h : BumpHas b q n) (hf : BumpFrame b b') (hj : j + 8 ≤ n) :
    load64 b'.mem (q + BitVec.ofNat 64 j) = load64 b.mem (q + BitVec.ofNat 64 j) := by
  refine load64_of_bytes ?_
  rw [bytes_frame h hf hj, wordBytes_load64]

/-- **The strings of a `compatible`**, later on.
Source: `device_tree.c` `dtb_rewrite_property_compatible`
Kind: L -/
theorem CompatSlots.strings {compat : Addr} (h : CompatSlots b b' value compat l) (hok : BumpOk b)
    (hvalue : l ≠ [] → BumpHolds b value l) (hlen : l.length < 2 ^ 64) (hf : BumpFrame b' b'') {n : ℕ}
    (hn : (terminated l).length < n) : compatStrings b''.mem n compat = terminated l := by
  obtain ⟨tail, hcut⟩ := cutInto_terminated l
  obtain ⟨-, hframe⟩ := h.keeps hok
  have hhas : BumpHas b' compat (8 * (l.count 0 + 1)) := h.slots.has
  have hcount := hcut.count
  have hbytes : bytes b''.mem value l.length = l := by
    by_cases hnil : l = []
    · rw [hnil]
      rfl
    · exact ((hvalue hnil).frame (hframe.trans hf)).bytes
  have hnull : ∀ off < l.length, value + BitVec.ofNat 64 off ≠ 0 := by
    intro off hoff
    have hnil : l ≠ [] := List.ne_nil_of_length_pos (by omega)
    refine BumpHas.ne_zero (b := b) (n := 1) ?_ hok (by decide)
    obtain ⟨-, o, rfl, ho⟩ := hvalue hnil
    exact Or.inr ⟨o + off, by rw [BitVec.ofNat_add, BitVec.add_assoc], by omega⟩
  have hstrings := compatStrings_eq hbytes hcut hlen hnull
    (fun i hi => (load64_frame hhas hf (by omega)).trans (h.pointer _ _ hcut i hi))
    (by rw [← hcount]; exact (load64_frame hhas hf (by omega)).trans h.last) [] n rfl hn
  rw [List.length_nil, Nat.mul_zero, BitVec.add_zero] at hstrings
  exact hstrings

/-- **The arrays of an accepted `reg`**, without a pair under three address cells.
Source: `device_tree.c` `dtb_rewrite_property_reg`
Kind: P -/
theorem dtbRewritePropertyReg_elems (hok : BumpOk b) (hbig : b.size.toNat ≤ 2 ^ 63)
    (hcells : cells.Bounded) (ha : l.length / pairBytes cells ≠ 0 → cells.address ≤ 2)
    (hdata : x.data = .raw len value) (hlen : len.toNat = l.length)
    (hvalue : l ≠ [] → BumpHolds b value l)
    (h : dtbRewritePropertyReg assertions b x cells.address cells.size = .ok (b', t, d)) :
    ∃ addresses sizes n, t = .reg ∧ d = .reg addresses sizes n ∧
      n.toNat = l.length / pairBytes cells ∧ ∀ b'', BumpFrame b' b'' → ∀ i < n.toNat,
        regElem b''.mem addresses sizes cells i = pairAt cells l i := by
  obtain ⟨-, b₁, addresses, b₂, sizes, m, halloc, halloc', hloop, rfl, rfl, rfl⟩ :=
    dtbRewritePropertyReg_ok hdata h
  obtain ⟨ha3, hz⟩ := hcells
  set a := cells.address with ha'
  set z := cells.size with hz'
  set n := len / (4 * a + 4 * z) with hn
  have hcount : n.toNat = l.length / pairBytes cells := nPairs_toNat ha3 hz hlen
  refine ⟨addresses, sizes, n, rfl, rfl, hcount, fun b'' hf i hi => ?_⟩
  replace ha := ha (by omega)
  obtain ⟨haddresses, hsizes⟩ := dtbRegLoop_ne_zero (Nat.lt_of_le_of_lt (Nat.zero_le i) hi) ha3 hz hloop
  have hmul : 4 * (a.toNat + z.toNat) * n.toNat ≤ l.length := by
    rw [hcount]
    exact Nat.mul_div_le _ _
  have hnil : l ≠ [] := by
    rintro rfl
    rw [hcount, List.length_nil, Nat.zero_div] at hi
    exact absurd hi (Nat.not_lt_zero i)
  have hvalue0 : value ≠ 0 := BumpHolds.ne_zero (hvalue hnil) hok hnil
  -- the buffers
  obtain ⟨hok₁, hframe₁, -, hbuffer₁⟩ := allocCells_spec hbig hok ha3 halloc
  obtain ⟨-, -, -, hbuffer₂⟩ := allocCells_spec (by rw [hframe₁.size]; exact hbig) hok₁
    (BitVec.le_trans hz (by decide)) halloc'
  have hgiven : BumpBuffers b ((regColumns l addresses sizes a.toNat z.toNat).map
      fun c => (c.base, c.width * n.toNat)) b₂ :=
    .cons (hbuffer₁ fun h0 _ => haddresses h0).1 (.cons (hbuffer₂ fun h0 _ => hsizes h0).1 .nil)
  have hrows := dtbRegLoop_eq hvalue0 ha hz haddresses hsizes hmul
    (valueApart_of_buffers hgiven (BumpHas.of_holds (hvalue hnil))) (m := b₂.mem) (r := n.toNat)
    (Nat.zero_add _).le (by rw [hgiven.mem]; exact (hvalue hnil).bytes)
  rw [Nat.mul_zero, hloop] at hrows
  cases hrows
  have hrow := fun c hc => bytes_of_rows (c := c) hgiven hf hc hi
  unfold regElem pairAt
  rw [cellsWidth_eq ha, cellsWidth_eq hz]
  have helem₁ := elemAt_cut (hrow _ List.mem_cons_self)
  have helem₂ := elemAt_cut (hrow _ (List.mem_cons_of_mem _ (List.mem_singleton_self _)))
  rw [Nat.add_zero] at helem₁
  exact Prod.ext helem₁ helem₂

/-- The pairs of an accepted `reg`.
Source: `device_tree.c` `dtb_rewrite_property_reg`
Kind: L -/
theorem pairsAt_of_rewrite {pairs : List (ℕ × ℕ)} (hok : BumpOk b) (hbig : b.size.toNat ≤ 2 ^ 63)
    (hcells : cells.Bounded) (ha : p.value.length / pairBytes cells ≠ 0 → cells.address ≤ 2)
    (hdata : x.data = .raw len value) (hlen : len.toNat = p.value.length)
    (hvalue : p.value ≠ [] → BumpHolds b value p.value) (hdecode : p.pairs cells = .ok pairs)
    (h : dtbRewritePropertyReg assertions b x cells.address cells.size = .ok (b', t, d))
    (hf : BumpFrame b' b'') : ValueAt b''.mem cells t d (.reg pairs) := by
  obtain ⟨addresses, sizes, n, ht, hd, hcount, helems⟩ :=
    dtbRewritePropertyReg_elems hok hbig hcells ha hdata hlen hvalue h
  refine ⟨ht, addresses, sizes, n, hd, ?_⟩
  unfold FdtProp.pairs at hdecode
  split_ifs at hdecode with hgroup hwhole
  cases hdecode
  rw [← hcount]
  exact List.map_congr_left fun i hi => helems b'' hf i (List.mem_range.mp hi)

/-- The triplets of an accepted `ranges`.
Source: `device_tree.c` `dtb_rewrite_property_ranges`
Kind: L -/
theorem tripletsAt_of_rewrite {triplets : List (ℕ × ℕ × ℕ)} (hok : BumpOk b)
    (hbig : b.size.toNat ≤ 2 ^ 63) (hcells : cells.Bounded)
    (ha : p.value.length / tripletBytes cells cells ≠ 0 → cells.address ≤ 2)
    (hdata : x.data = .raw len value) (hlen : len.toNat = p.value.length)
    (hvalue : p.value ≠ [] → BumpHolds b value p.value) (hdecode : p.triplets cells = .ok triplets)
    (h : dtbRewritePropertyRanges assertions b x cells.address cells.size = .ok (b', t, d))
    (hf : BumpFrame b' b'') : t = .ranges ∧ TripletsAt b''.mem cells d triplets := by
  obtain ⟨child, parent, lengths, n, ht, hd, hcount, helems⟩ :=
    dtbRewritePropertyRanges_elems hok hbig hcells ha hdata hlen hvalue h
  refine ⟨ht, child, parent, lengths, n, hd, ?_⟩
  unfold FdtProp.triplets at hdecode
  split_ifs at hdecode with h0
  cases hdecode
  rw [← hcount]
  exact List.map_congr_left fun i hi => helems b'' hf i (List.mem_range.mp hi)

/-- The state of an accepted `status`.
Source: `device_tree.c` `dtb_rewrite_property_status`
Kind: L -/
theorem statusAt_of_rewrite {m : Mem} {v : DtPropStatus} {reason : List (BitVec 8)} (hok : BumpOk b)
    (htype : x.type = .raw) (hdata : x.data = .raw len value)
    (hvalue : p.value ≠ [] → BumpHolds b value p.value) (hbytes : BytesAt m value p.value)
    (h0 : 0 ∈ p.value) (hstatus : statusOf (p.value.takeWhile (· ≠ 0)) = some (v, reason))
    (h : dtbRewritePropertyStatus assertions b.mem x = .ok (t, d)) :
    ValueAt m cells t d (.status v reason) := by
  have hnil : p.value ≠ [] := List.ne_nil_of_mem h0
  rw [dtbRewritePropertyStatus_eq htype hdata (BumpHolds.ne_zero (hvalue hnil) hok hnil)
    (cstringAt_takeWhile (hvalue hnil).1 h0) (zero_notMem_takeWhile _), hstatus] at h
  cases h
  refine ⟨rfl, _, rfl, ?_⟩
  by_cases hsss : v = .failSss
  · rw [if_pos hsss, if_pos hsss]
    rw [hsss] at hstatus
    obtain ⟨rfl, hlen5⟩ := statusOf_failSss hstatus
    exact CStringAt.drop (cstringAt_takeWhile hbytes h0) hlen5
  · rw [if_neg hsss, if_neg hsss]

/-- The count of an accepted `#address-cells` or `#size-cells`.
Source: `device_tree.c` `dtb_recursive_property_rewrite`
Kind: L -/
theorem countAt_of_rewrite {m : Mem} {node : DtNode} {v : FdtValue} (hok : BumpOk b)
    (hheld : PropHeld b p x) (hlen : 4 ≤ p.value.length)
    (hkind : p.kind = .addressCells ∨ p.kind = .sizeCells) (hdecode : p.decode cells = .ok v)
    (h : dtbRewriteAs assertions node b x p.kind = .ok (b', t, d)) : ValueAt m cells t d v := by
  have hread := hheld.read_eq (p := p) hok hlen
  unfold FdtProp.decode at hdecode
  rcases hkind with hkind | hkind
  · rw [hkind] at h hdecode
    obtain ⟨w, hr, -, heq⟩ := dtbRewriteAs_addressCells h
    rw [hread] at hr
    cases hr
    cases heq
    dsimp only at hdecode
    split_ifs at hdecode
    cases hdecode
    exact ⟨rfl, rfl⟩
  · rw [hkind] at h hdecode
    obtain ⟨w, hr, -, heq⟩ := dtbRewriteAs_sizeCells h
    rw [hread] at hr
    cases hr
    cases heq
    dsimp only at hdecode
    split_ifs at hdecode
    cases hdecode
    exact ⟨rfl, rfl⟩

/-- **A rewritten property has the meaning of its value**, and keeps it: the cases are those of its name.
Source: `device_tree.c` `dtb_recursive_property_rewrite`
Kind: P
Hyps: the property is in the buffer, and its value has the shape that is read -/
theorem valueAt_of_rewrite {v : FdtValue} (hok : BumpOk b) (hbig : b.size.toNat ≤ 2 ^ 63)
    (hcells : cells.Bounded) (hheld : PropHeld b p x) (hshaped : p.Shaped cells)
    (hdecode : p.decode cells = .ok v)
    (h : dtbRewriteProperty assertions (cellsNode cells) b x = .ok (b', t, d))
    (hf : BumpFrame b' b'') : ValueAt b''.mem cells t d v := by
  have hframe := (dtbRewriteProperty_frame hok hbig
    (show (cellsNode cells).cells.Bounded from hcells) hheld h).2.trans hf
  rw [hheld.rewrite_eq hok] at h
  have hread := fun hlen => hheld.read_eq (p := p) hok hlen
  have hcount := fun hlen hkind => countAt_of_rewrite (m := b''.mem) hok hheld hlen hkind hdecode h
  obtain ⟨-, htype, len, value, hdata, hlen, hvalue⟩ := hheld
  have hbytes : BytesAt b''.mem value p.value := by
    by_cases hnil : p.value = []
    · rw [hnil]
      exact fun i c hc => by cases hc
    · exact ((hvalue hnil).frame hframe).1
  have hle := hshaped.address_le hcells
  unfold FdtProp.groups at hle
  unfold FdtProp.decode at hdecode
  cases hkind : p.kind with
  | compatible =>
      rw [hkind] at h hdecode
      cases hdecode
      obtain ⟨rfl, compat, rfl, hslots⟩ :=
        dtbRewritePropertyCompatible_ok hok hbig htype hdata hlen hvalue h
      have hlen32 := len.isLt
      exact ⟨rfl, compat, rfl, fun n hn => hslots.strings hok hvalue (by omega) hf hn⟩
  | model =>
      rw [hkind] at h hdecode
      cases hdecode
      obtain ⟨r, hr, heq⟩ := except_map_ok h
      rw [hdata] at hr
      cases hr
      cases heq
      exact ⟨rfl, value, rfl, hbytes⟩
  | phandle =>
      rw [hkind] at h
      obtain ⟨r, hr, heq⟩ := except_map_ok h
      rw [hread (hshaped.word (Or.inl hkind))] at hr
      rw [hkind] at hdecode
      cases hdecode
      cases hr
      cases heq
      exact ⟨rfl, rfl⟩
  | status =>
      rw [hkind] at h hdecode
      obtain ⟨⟨t', d'⟩, hr, heq⟩ := except_map_ok h
      cases heq
      dsimp only at hdecode
      cases hstatus : statusOf (p.value.takeWhile (· ≠ 0)) with
      | none =>
          rw [hstatus] at hdecode
          cases hdecode
      | some y =>
          rw [hstatus] at hdecode
          cases hdecode
          exact statusAt_of_rewrite hok htype hdata hvalue hbytes (hshaped.terminator hkind) hstatus hr
  | addressCells => exact hcount (hshaped.word (Or.inr (Or.inl hkind))) (Or.inl hkind)
  | sizeCells => exact hcount (hshaped.word (Or.inr (Or.inr hkind))) (Or.inr hkind)
  | dmaCoherent =>
      rw [hkind] at h hdecode
      cases h
      cases hdecode
      exact ⟨rfl, rfl⟩
  | dmaNoncoherent =>
      rw [hkind] at h hdecode
      cases h
      cases hdecode
      exact ⟨rfl, rfl⟩
  | deviceType =>
      rw [hkind] at h hdecode
      cases hdecode
      obtain ⟨r, hr, heq⟩ := except_map_ok h
      rw [hdata] at hr
      cases hr
      cases heq
      exact ⟨rfl, value, rfl, hbytes⟩
  | reg =>
      rw [hkind] at h hdecode hle
      obtain ⟨pairs, hpairs, heq⟩ := except_map_ok hdecode
      cases heq
      exact pairsAt_of_rewrite hok hbig hcells hle hdata hlen hvalue hpairs h hf
  | ranges =>
      rw [hkind] at h hdecode hle
      obtain ⟨triplets, htriplets, heq⟩ := except_map_ok hdecode
      cases heq
      exact tripletsAt_of_rewrite hok hbig hcells hle hdata hlen hvalue htriplets h hf
  | dmaRanges =>
      rw [hkind] at h hdecode hle
      obtain ⟨triplets, htriplets, heq⟩ := except_map_ok hdecode
      cases heq
      obtain ⟨⟨b₁, t₁, d₁⟩, hranges, heq⟩ := except_map_ok h
      cases heq
      exact ⟨rfl, (tripletsAt_of_rewrite hok hbig hcells hle hdata hlen hvalue htriplets hranges hf).2⟩
  | other =>
      rw [hkind] at h hdecode
      cases hdecode
      cases h
      exact ⟨htype, len, value, hdata, hlen, hbytes⟩

end single

end Octiron.Kernel
