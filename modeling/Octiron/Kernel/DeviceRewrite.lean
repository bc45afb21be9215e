import Octiron.Kernel.DeviceTree

/-!
# The rewrite pass

`device_tree.c`: `dtb_recursive_property_rewrite` gives the properties whose names it knows a type and
decoded data, and the subnodes of a node their cell counts.

* `dtbRewritePropertyCompatible`, `dtbRewritePropertyStatus`, `dtbRewritePropertyReg`,
  `dtbRewritePropertyRanges`, `dtbRewriteProperty` — one property. They give its new type and data, and
  change only the bump allocator.
* `dtbRewriteProperties`, `dtbRecursivePropertyRewrite`, `dtbRewriteChildren` — the loops and the
  recursion.
* `DtRewriteStop` — an error that is returned, an assertion or a panic that does not return, and
  behaviour that the code does not define: an access through `NULL`, a division by zero, a
  `__builtin_unreachable()`, or a store behind the buffer.
* `dtbRewriteRound` — a property, with the check that its numbers have been stored to the buffer. Three
  cells take 16 bytes where 12 are allocated, so that the last of them can come to lie behind it, on the
  pages that hold the arrays.
* `dtbRewriteProperty_ends` — a property never takes it into a loop without end.
* `SameLinks s s'` — the arrays and the links between their elements are the same.
* **Main result** (`sameLinks_of_rewrite`): the rewrite pass changes no link, as long as it stores to the
  buffer only.
-/

namespace Octiron.Kernel

open Octiron.Found
open Octiron.Found.Mem
open Octiron.Kzadhbat

/-! ## One property -/

/-- How the rewrite pass can end other than with `ERR_OK`.
Source: `device_tree.c` `dtb_recursive_property_rewrite`
Kind: D -/
inductive DtRewriteStop
  /-- An error is returned. -/
  | err (e : Errval)
  /-- A failed `ASSERT`. -/
  | assertion
  /-- "Unsupported size_cells" -/
  | panic (sizeCells : BitVec 32)
  /-- `strcmp` of a name that is `NULL`. -/
  | nullName
  /-- A read from a value that is `NULL`. -/
  | nullValue
  /-- A write to a buffer that is `NULL`. -/
  | nullBuffer
  | divisionByZero
  /-- `__builtin_unreachable()` -/
  | unreachable
  /-- The union is read as `raw` after it has been rewritten. -/
  | notRaw
  /-- A list that does not end. -/
  | endless
  /-- A number has been stored behind the buffer: what is there has been overwritten. -/
  | outsideBuffer
  deriving DecidableEq

/-- The characters of a literal.
Source: none: infrastructure
Kind: D -/
def ascii (str : String) : List (BitVec 8) := str.toList.map fun c => BitVec.ofNat 8 c.toNat

/-- `READ_BIG_ENDIAN_U32(p)`.
Source: `bitmacros.h` `READ_BIG_ENDIAN_U32`
Kind: D -/
def readU32At (m : Mem) (p : Addr) : BitVec 32 :=
  readBigEndianU32 (m p) (m (p + 1)) (m (p + 2)) (m (p + 3))

/-- The loop over the strings of a `compatible` value: `i` counts them, `j` is the offset of the next.
Source: `device_tree.c` `dtb_rewrite_property_compatible`
Kind: D -/
def dtbCompatLoop (compat value : Addr) (valueLen : ℕ) : ℕ → ℕ → ℕ → Mem → Mem
  | 0, _, _, m => m
  | n + 1, i, j, m =>
      if j < valueLen then
        let m := store64 m (compat + BitVec.ofNat 64 (8 * i)) (value + BitVec.ofNat 64 j)
        dtbCompatLoop compat value valueLen n (i + 1)
          (j + (strlen m (value + BitVec.ofNat 64 j) + 1)) m
      else m

/-- `dtb_rewrite_property_compatible`. Every round of its second loop moves `j` on.
Source: `device_tree.c` `dtb_rewrite_property_compatible`
Kind: D
Fidelity: exact -/
def dtbRewritePropertyCompatible (assertions : Bool) (bump : BumpAllocator) (p : DtProperty) :
    Except DtRewriteStop (BumpAllocator × DtPropertyType × DtPropData) :=
  if assertions = true ∧ p.type ≠ .raw then .error .assertion
  else
    match p.data with
    | .raw valueLen value =>
      if value = 0 ∧ valueLen ≠ 0 then .error .nullValue
      else
        let numStrings :=
          (List.range valueLen.toNat).countP fun i => bump.mem (value + BitVec.ofNat 64 i) = 0
        let (bump, compat) := bumpAllocAligned bump (BitVec.ofNat 64 (8 * (numStrings + 1))) 8
        if compat = 0 then .error (if assertions then .assertion else .nullBuffer)
        else
          let m := dtbCompatLoop compat value valueLen.toNat valueLen.toNat 0 0 bump.mem
          let m := store64 m (compat + BitVec.ofNat 64 (8 * numStrings)) 0
          .ok ({ bump with mem := m }, .compatible, .compat compat)
    | _ => .error .notRaw

/-- `dtb_rewrite_property_status`. Without `ENABLE_ASSERTIONS` an unknown status keeps what is in the
union.
Source: `device_tree.c` `dtb_rewrite_property_status`
Kind: D
Fidelity: exact -/
def dtbRewritePropertyStatus (assertions : Bool) (m : Mem) (p : DtProperty) :
    Except DtRewriteStop (DtPropertyType × DtPropData) :=
  if assertions = true ∧ p.type ≠ .raw then .error .assertion
  else
    match p.data with
    | .raw _ value =>
      if value = 0 then .error .nullValue
      else if strcmpEq m value (ascii "okay") then .ok (.status, .status .ok 0)
      else if strcmpEq m value (ascii "disabled") then .ok (.status, .status .disabled 0)
      else if strcmpEq m value (ascii "reserved") then .ok (.status, .status .reserved 0)
      else if strcmpEq m value (ascii "fail") then .ok (.status, .status .fail 0)
      else if strncmpEq m value (ascii "fail-") then .ok (.status, .status .failSss (value + 5))
      else if assertions then .error .assertion
      else .ok (.status, p.data)
    | _ => .error .notRaw

/-- `((uN *)dst)[i] = READ_BIG_ENDIAN_UN(value + j)`, with the type of `cells` cells; `other` is the
default of the `switch`.
Source: `device_tree.c` `dtb_rewrite_property_reg`, `dtb_rewrite_property_ranges`
Kind: D -/
def dtbStoreCells (other : DtRewriteStop) (m : Mem) (value dst : Addr) (cells : BitVec 32)
    (i j : ℕ) : Except DtRewriteStop Mem :=
  let src := value + BitVec.ofNat 64 j
  let store (m : Mem) : Except DtRewriteStop Mem :=
    if value = 0 then .error .nullValue else if dst = 0 then .error .nullBuffer else .ok m
  if cells = 1 then store (store32 m (dst + BitVec.ofNat 64 (4 * i)) (readU32At m src))
  else if cells = 2 then
    store (store64 m (dst + BitVec.ofNat 64 (8 * i)) (endiannessFlipU64 (load64 m src)))
  else if cells = 3 then
    store (store128 m (dst + BitVec.ofNat 64 (16 * i)) (endiannessFlipU128 (load128 m src)))
  else .error other

/-- The first `switch` of `dtb_rewrite_property_reg`.
Source: `device_tree.c` `dtb_rewrite_property_reg`
Kind: D -/
def dtbRegAddress (m : Mem) (value addresses : Addr) (addressCells : BitVec 32) (i j : ℕ) :
    Except DtRewriteStop Mem :=
  if addressCells = 0 then .ok m else dtbStoreCells .unreachable m value addresses addressCells i j

/-- The second `switch`, which has no case for three cells.
Source: `device_tree.c` `dtb_rewrite_property_reg`
Kind: D -/
def dtbRegSize (m : Mem) (value sizes : Addr) (sizeCells : BitVec 32) (i j : ℕ) :
    Except DtRewriteStop Mem :=
  if sizeCells = 0 then .ok m
  else if sizeCells = 3 then .error .unreachable
  else dtbStoreCells .unreachable m value sizes sizeCells i j

/-- The loop over the pairs: `n` are left, `i` are done, `j` is the offset of the next.
Source: `device_tree.c` `dtb_rewrite_property_reg`
Kind: D -/
def dtbRegLoop (value addresses sizes : Addr) (addressCells sizeCells : BitVec 32) :
    ℕ → ℕ → ℕ → Mem → Except DtRewriteStop Mem
  | 0, _, _, m => .ok m
  | n + 1, i, j, m =>
      match dtbRegAddress m value addresses addressCells i j with
      | .error stop => .error stop
      | .ok m =>
        let j := j + (4 * addressCells).toNat
        match dtbRegSize m value sizes sizeCells i j with
        | .error stop => .error stop
        | .ok m =>
          dtbRegLoop value addresses sizes addressCells sizeCells n (i + 1)
            (j + (4 * sizeCells).toNat) m

/-- The four assertions of `dtb_rewrite_property_reg` about the numbers.
Source: `device_tree.c` `dtb_rewrite_property_reg`
Kind: D -/
def dtbRegAsserts (valueLen addressCells sizeCells : BitVec 32) : Bool :=
  let group := 4 * addressCells + 4 * sizeCells
  decide (valueLen / group > 0) && decide (valueLen % group = 0) && decide (addressCells ≤ 3) &&
    decide (sizeCells ≤ 2)

/-- `dtb_rewrite_property_reg`.
Source: `device_tree.c` `dtb_rewrite_property_reg`
Kind: D
Fidelity: exact -/
def dtbRewritePropertyReg (assertions : Bool) (bump : BumpAllocator) (p : DtProperty)
    (addressCells sizeCells : BitVec 32) :
    Except DtRewriteStop (BumpAllocator × DtPropertyType × DtPropData) :=
  match p.data with
  | .raw valueLen value =>
    let addressSize := 4 * addressCells
    let sizeSize := 4 * sizeCells
    if addressSize + sizeSize = 0 then .error .divisionByZero
    else
      let nPairs := valueLen / (addressSize + sizeSize)
      if assertions = true ∧ ¬ dtbRegAsserts valueLen addressCells sizeCells then .error .assertion
      else
        let (bump, addresses) := bumpAllocAligned bump
          (addressSize.setWidth 64 * nPairs.setWidth 64) (addressSize.setWidth 64)
        let (bump, sizes) := bumpAllocAligned bump
          (sizeSize.setWidth 64 * nPairs.setWidth 64) (sizeSize.setWidth 64)
        if assertions = true ∧ ¬ ((addressSize = 0 ↔ addresses = 0) ∧ (sizeSize = 0 ↔ sizes = 0)) then
          .error .assertion
        else
          match dtbRegLoop value addresses sizes addressCells sizeCells nPairs.toNat 0 0 bump.mem with
          | .error stop => .error stop
          | .ok m => .ok ({ bump with mem := m }, .reg, .reg addresses sizes nPairs)
  | _ => .error .notRaw

/-- The third `switch` of `dtb_rewrite_property_ranges`, which has no case for three cells either.
Source: `device_tree.c` `dtb_rewrite_property_ranges`
Kind: D -/
def dtbRangesLength (m : Mem) (value lengths : Addr) (sizeCells : BitVec 32) (i j : ℕ) :
    Except DtRewriteStop Mem :=
  if sizeCells = 3 then .error (.panic sizeCells)
  else dtbStoreCells (.panic sizeCells) m value lengths sizeCells i j

/-- The loop over the triplets.
Source: `device_tree.c` `dtb_rewrite_property_ranges`
Kind: D -/
def dtbRangesLoop (value childBusAddrs parentBusAddrs lengths : Addr)
    (addressCells sizeCells : BitVec 32) : ℕ → ℕ → ℕ → Mem → Except DtRewriteStop Mem
  | 0, _, _, m => .ok m
  | n + 1, i, j, m =>
      match dtbStoreCells .unreachable m value childBusAddrs addressCells i j with
      | .error stop => .error stop
      | .ok m =>
        let j := j + (4 * addressCells).toNat
        match dtbStoreCells .unreachable m value parentBusAddrs addressCells i j with
        | .error stop => .error stop
        | .ok m =>
          let j := j + (4 * addressCells).toNat
          match dtbRangesLength m value lengths sizeCells i j with
          | .error stop => .error stop
          | .ok m =>
            dtbRangesLoop value childBusAddrs parentBusAddrs lengths addressCells sizeCells n (i + 1)
              (j + (4 * sizeCells).toNat) m

/-- `dtb_rewrite_property_ranges`; both addresses of a triplet are read with the same number of cells.
Source: `device_tree.c` `dtb_rewrite_property_ranges`
Kind: D
Fidelity: exact -/
def dtbRewritePropertyRanges (assertions : Bool) (bump : BumpAllocator) (p : DtProperty)
    (addressCells sizeCells : BitVec 32) :
    Except DtRewriteStop (BumpAllocator × DtPropertyType × DtPropData) :=
  match p.data with
  | .raw valueLen value =>
    let addressSize := 4 * addressCells
    let sizeSize := 4 * sizeCells
    if assertions = true ∧ ¬ (addressSize > 0 ∧ sizeSize > 0) then .error .assertion
    else if addressSize + addressSize + sizeSize = 0 then .error .divisionByZero
    else
      let nTrips := valueLen / (addressSize + addressSize + sizeSize)
      let (bump, childBusAddrs) := bumpAllocAligned bump
        (addressSize.setWidth 64 * nTrips.setWidth 64) (addressSize.setWidth 64)
      let (bump, parentBusAddrs) := bumpAllocAligned bump
        (addressSize.setWidth 64 * nTrips.setWidth 64) (addressSize.setWidth 64)
      let (bump, lengths) := bumpAllocAligned bump
        (sizeSize.setWidth 64 * nTrips.setWidth 64) (sizeSize.setWidth 64)
      match dtbRangesLoop value childBusAddrs parentBusAddrs lengths addressCells sizeCells
          nTrips.toNat 0 0 bump.mem with
      | .error stop => .error stop
      | .ok m => .ok ({ bump with mem := m }, .ranges,
          .ranges childBusAddrs parentBusAddrs lengths nTrips)
  | _ => .error .notRaw

/-- Reading the union as `raw`.
Source: `device_tree.c` `struct dtPropRaw`
Kind: D -/
def DtPropData.rawValue : DtPropData → Except DtRewriteStop Addr
  | .raw _ value => .ok value
  | _ => .error .notRaw

/-- `READ_BIG_ENDIAN_U32(prop->data.raw.value)`.
Source: `device_tree.c` `dtb_recursive_property_rewrite`
Kind: D -/
def dtbReadValueU32 (m : Mem) (data : DtPropData) : Except DtRewriteStop (BitVec 32) :=
  match data.rawValue with
  | .error stop => .error stop
  | .ok value => if value = 0 then .error .nullValue else .ok (readU32At m value)

/-- The body of the loop over the properties of `node`.
Source: `device_tree.c` `dtb_recursive_property_rewrite`
Kind: D
Fidelity: exact -/
def dtbRewriteProperty (assertions : Bool) (node : DtNode) (bump : BumpAllocator) (p : DtProperty) :
    Except DtRewriteStop (BumpAllocator × DtPropertyType × DtPropData) :=
  let named (name : String) : Bool := strcmpEq bump.mem p.name (ascii name)
  if p.name = 0 then .error .nullName
  else if named "compatible" then dtbRewritePropertyCompatible assertions bump p
  else if named "model" then p.data.rawValue.map fun value => (bump, .model, .model value)
  else if named "phandle" || named "linux,phandle" then
    (dtbReadValueU32 bump.mem p.data).map fun v => (bump, .phandle, .phandle v)
  else if named "status" then
    (dtbRewritePropertyStatus assertions bump.mem p).map fun r => (bump, r)
  else if named "#address-cells" then
    match dtbReadValueU32 bump.mem p.data with
    | .error stop => .error stop
    | .ok v =>
      if v > 3 then .error (.err GrouperError.dtbAddressCellsTooLarge.errval)
      else .ok (bump, .addressCells, .addressCells v)
  else if named "#size-cells" then
    match dtbReadValueU32 bump.mem p.data with
    | .error stop => .error stop
    | .ok v =>
      if v > 2 then .error (.err GrouperError.dtbSizeCellsTooLarge.errval)
      else .ok (bump, .sizeCells, .sizeCells v)
  else if named "dma-coherent" then .ok (bump, .dmaCoherence, .dmaCoherence true)
  else if named "dma-noncoherent" then .ok (bump, .dmaCoherence, .dmaCoherence false)
  else if named "device_type" then
    p.data.rawValue.map fun value => (bump, .deviceType, .deviceType value)
  else if named "reg" then
    dtbRewritePropertyReg assertions bump p node.addressCells node.sizeCells
  else if named "ranges" then
    dtbRewritePropertyRanges assertions bump p node.addressCells node.sizeCells
  else if named "dma-ranges" then
    (dtbRewritePropertyRanges assertions bump p node.addressCells node.sizeCells).map fun r =>
      (r.1, .dmaRanges, r.2.2)
  -- "Unhandled property"
  else .ok (bump, p.type, p.data)

/-- The width of `u32`, `u64` or `u128`, the types for one, two and three cells.
Source: `device_tree.c` `dtb_rewrite_property_reg`, `dtb_rewrite_property_ranges`
Kind: D -/
def cellsWidth (cells : BitVec 32) : ℕ :=
  if cells = 1 then 4 else if cells = 2 then 8 else if cells = 3 then 16 else 0

/-- Where the numbers of a property have been stored, and how many bytes.
Source: `device_tree.c` `dtb_rewrite_property_reg`, `dtb_rewrite_property_ranges`
Kind: D -/
def DtPropData.stores (node : DtNode) : DtPropData → List (Addr × ℕ)
  | .reg addresses sizes nPairs =>
    [(addresses, cellsWidth node.addressCells * nPairs.toNat),
      (sizes, cellsWidth node.sizeCells * nPairs.toNat)]
  | .ranges childBusAddrs parentBusAddrs lengths nTrips =>
    [(childBusAddrs, cellsWidth node.addressCells * nTrips.toNat),
      (parentBusAddrs, cellsWidth node.addressCells * nTrips.toNat),
      (lengths, cellsWidth node.sizeCells * nTrips.toNat)]
  | _ => []

/-- The bytes lie in the buffer.
Source: `bump_allocator.h` `struct bumpAllocator`
Kind: D -/
def bumpSpans (bump : BumpAllocator) (x : Addr × ℕ) : Bool :=
  decide (x.2 = 0 ∨
    bump.memory.toNat ≤ x.1.toNat ∧ x.1.toNat + x.2 ≤ bump.memory.toNat + bump.size.toNat)

/-- The body of the loop, which ends here when a number has been stored behind the buffer: `bump.mem` is
the memory of the buffer, and does not have what lies behind it.
Source: `device_tree.c` `dtb_recursive_property_rewrite`
Kind: D -/
def dtbRewriteRound (assertions : Bool) (node : DtNode) (bump : BumpAllocator) (p : DtProperty) :
    Except DtRewriteStop (BumpAllocator × DtPropertyType × DtPropData) :=
  match dtbRewriteProperty assertions node bump p with
  | .error stop => .error stop
  | .ok (bump, type, data) =>
    if (data.stores node).all (bumpSpans bump) then .ok (bump, type, data) else .error .outsideBuffer

/-! ## The pass -/

/-- The cell counts for the subnodes: `next_address_cells` and `next_size_cells`.
Source: `device_tree.c` `dtb_recursive_property_rewrite`
Kind: D -/
structure DtCells where
  address : BitVec 32
  size : BitVec 32
  deriving DecidableEq

/-- The cell counts after a property.
Source: `device_tree.c` `dtb_recursive_property_rewrite`
Kind: D -/
def DtCells.next (cells : DtCells) : DtPropData → DtCells
  | .addressCells v => { cells with address := v }
  | .sizeCells v => { cells with size := v }
  | _ => cells

/-- The property at `q` with a new type and data.
Source: `device_tree.c` `dtb_recursive_property_rewrite`
Kind: D -/
def DtState.setProperty (s : DtState) (q : ArrayPtr) (bump : BumpAllocator) (type : DtPropertyType)
    (data : DtPropData) : DtState :=
  { s with
    bump := bump
    properties := s.properties.modify q fun p => { p with type := type, data := data } }

/-- The node at `p` with new cell counts.
Source: `device_tree.c` `dtb_recursive_property_rewrite`, `dt_initialize`
Kind: D -/
def DtState.setCells (s : DtState) (p : ArrayPtr) (cells : DtCells) : DtState :=
  { s with nodes := s.nodes.modify p fun n =>
      { n with addressCells := cells.address, sizeCells := cells.size } }

/-- The loop over the properties of `node` from `prop` on, for at most `n` rounds.
Source: `device_tree.c` `dtb_recursive_property_rewrite`
Kind: D
Fidelity: exact -/
def dtbRewriteProperties (assertions : Bool) (node : ArrayPtr) :
    ℕ → Option ArrayPtr → DtCells → DtState → Except DtRewriteStop (DtState × DtCells)
  | 0, _, _, _ => .error .endless
  | _ + 1, none, cells, s => .ok (s, cells)
  | n + 1, some q, cells, s =>
      match dtbRewriteRound assertions (s.nodes.cells node) s.bump (s.properties.cells q) with
      | .error stop => .error stop
      | .ok (bump, type, data) =>
        let s := s.setProperty q bump type data
        dtbRewriteProperties assertions node n (s.properties.cells q).next (cells.next data) s

mutual

/-- `dtb_recursive_property_rewrite`, with at most `n` nested calls and rounds.
Source: `device_tree.c` `dtb_recursive_property_rewrite`
Kind: D
Fidelity: exact -/
def dtbRecursivePropertyRewrite (assertions : Bool) :
    ℕ → ArrayPtr → DtState → Except DtRewriteStop DtState
  | 0, _, _ => .error .endless
  | n + 1, node, s =>
      let cells : DtCells := ⟨(s.nodes.cells node).addressCells, (s.nodes.cells node).sizeCells⟩
      match dtbRewriteProperties assertions node (s.properties.size + 1) (s.nodes.cells node).properties
          cells s with
      | .error stop => .error stop
      | .ok (s, cells) => dtbRewriteChildren assertions n cells (s.nodes.cells node).children s

/-- The loop over the subnodes from `child` on.
Source: `device_tree.c` `dtb_recursive_property_rewrite`
Kind: D
Fidelity: exact -/
def dtbRewriteChildren (assertions : Bool) :
    ℕ → DtCells → Option ArrayPtr → DtState → Except DtRewriteStop DtState
  | 0, _, _, _ => .error .endless
  | _ + 1, _, none, s => .ok s
  | n + 1, cells, some child, s =>
      match dtbRecursivePropertyRewrite assertions n child (s.setCells child cells) with
      | .error stop => .error stop
      | .ok s => dtbRewriteChildren assertions n cells (s.nodes.cells child).sibling s

end

/-- The rewrite pass of `dt_initialize`. A call or a round goes one node further down or along, so twice
the number of nodes is enough.
Source: `device_tree.c` `dt_initialize`
Kind: D
Fidelity: exact -/
def dtbRewrite (assertions : Bool) (s : DtState) (root : ArrayPtr) : Except DtRewriteStop DtState :=
  dtbRecursivePropertyRewrite assertions (2 * s.nodes.size + 2) root (s.setCells root ⟨2, 1⟩)

/-! ## The end of the rewriting of a property -/

section ends

variable {assertions : Bool} {m : Mem} {p : DtProperty} {bump : BumpAllocator}

/-- Source: none: infrastructure. Kind: L -/
theorem ite_ne {α : Type} {c : Prop} [Decidable c] {x y z : α} (hx : x ≠ z) (hy : y ≠ z) :
    (if c then x else y) ≠ z := by
  split_ifs
  · exact hx
  · exact hy

/-- Source: none: infrastructure. Kind: L -/
theorem except_map_ne_error {ε α β : Type} {x : Except ε α} {f : α → β} {e : ε} (h : x ≠ .error e) :
    x.map f ≠ .error e := by
  cases x with
  | error e' => exact fun heq => h (congrArg Except.error (Except.error.inj heq))
  | ok a => exact nofun

/-- Source: none: infrastructure. Kind: L -/
theorem dtbStoreCells_ends {other : DtRewriteStop} (hother : other ≠ .endless) (value dst : Addr)
    (cells : BitVec 32) (i j : ℕ) : dtbStoreCells other m value dst cells i j ≠ .error .endless := by
  unfold dtbStoreCells
  dsimp only
  split_ifs
  all_goals first
    | exact fun h => hother (Except.error.inj h)
    | exact nofun

/-- Source: none: infrastructure. Kind: L -/
theorem dtbRegLoop_ends (value addresses sizes : Addr) (addressCells sizeCells : BitVec 32) (n : ℕ) :
    ∀ (i j : ℕ) (m : Mem),
      dtbRegLoop value addresses sizes addressCells sizeCells n i j m ≠ .error .endless := by
  induction n with
  | zero => exact fun i j m => nofun
  | succ n ih =>
      intro i j m
      have haddress : ∀ m, dtbRegAddress m value addresses addressCells i j ≠ .error .endless := by
        intro m
        unfold dtbRegAddress
        split_ifs
        · exact nofun
        · exact dtbStoreCells_ends (by decide) _ _ _ _ _
      have hsize : ∀ m j, dtbRegSize m value sizes sizeCells i j ≠ .error .endless := by
        intro m j
        unfold dtbRegSize
        split_ifs
        · exact nofun
        · exact nofun
        · exact dtbStoreCells_ends (by decide) _ _ _ _ _
      rw [dtbRegLoop]
      split
      · rename_i stop hstop
        rintro ⟨⟩
        exact haddress _ hstop
      · dsimp only
        split
        · rename_i stop hstop
          rintro ⟨⟩
          exact hsize _ _ hstop
        · exact ih _ _ _

/-- Source: none: infrastructure. Kind: L -/
theorem dtbRangesLoop_ends (value childBusAddrs parentBusAddrs lengths : Addr)
    (addressCells sizeCells : BitVec 32) (n : ℕ) : ∀ (i j : ℕ) (m : Mem),
      dtbRangesLoop value childBusAddrs parentBusAddrs lengths addressCells sizeCells n i j m ≠
        .error .endless := by
  induction n with
  | zero => exact fun i j m => nofun
  | succ n ih =>
      intro i j m
      have hlength : ∀ m j, dtbRangesLength m value lengths sizeCells i j ≠ .error .endless := by
        intro m j
        unfold dtbRangesLength
        split_ifs
        · exact nofun
        · exact dtbStoreCells_ends (fun h => DtRewriteStop.noConfusion h) _ _ _ _ _
      rw [dtbRangesLoop]
      split
      · rename_i stop hstop
        rintro ⟨⟩
        exact dtbStoreCells_ends (by decide) _ _ _ _ _ hstop
      · dsimp only
        split
        · rename_i stop hstop
          rintro ⟨⟩
          exact dtbStoreCells_ends (by decide) _ _ _ _ _ hstop
        · split
          · rename_i stop hstop
            rintro ⟨⟩
            exact hlength _ _ hstop
          · exact ih _ _ _

/-- Source: none: infrastructure. Kind: L -/
theorem dtbRewritePropertyReg_ends (addressCells sizeCells : BitVec 32) :
    dtbRewritePropertyReg assertions bump p addressCells sizeCells ≠ .error .endless := by
  unfold dtbRewritePropertyReg
  cases p.data with
  | raw valueLen value =>
      dsimp only
      split_ifs
      · exact nofun
      · exact nofun
      · exact nofun
      · split
        · rename_i stop hstop
          rintro ⟨⟩
          exact dtbRegLoop_ends _ _ _ _ _ _ _ _ _ hstop
        · exact nofun
  | _ => exact nofun

/-- Source: none: infrastructure. Kind: L -/
theorem dtbRewritePropertyRanges_ends (addressCells sizeCells : BitVec 32) :
    dtbRewritePropertyRanges assertions bump p addressCells sizeCells ≠ .error .endless := by
  unfold dtbRewritePropertyRanges
  cases p.data with
  | raw valueLen value =>
      dsimp only
      split_ifs
      · exact nofun
      · exact nofun
      · split
        · rename_i stop hstop
          rintro ⟨⟩
          exact dtbRangesLoop_ends _ _ _ _ _ _ _ _ _ _ hstop
        · exact nofun
  | _ => exact nofun

/-- Source: none: infrastructure. Kind: L -/
theorem dtbRewritePropertyCompatible_ends :
    dtbRewritePropertyCompatible assertions bump p ≠ .error .endless := by
  unfold dtbRewritePropertyCompatible
  refine ite_ne nofun ?_
  cases p.data with
  | raw valueLen value =>
      refine ite_ne nofun (ite_ne ?_ nofun)
      cases assertions <;> exact nofun
  | _ => exact nofun

/-- Source: none: infrastructure. Kind: L -/
theorem dtbRewritePropertyStatus_ends :
    dtbRewritePropertyStatus assertions m p ≠ .error .endless := by
  unfold dtbRewritePropertyStatus
  refine ite_ne nofun ?_
  cases p.data with
  | raw valueLen value =>
      exact ite_ne nofun <| ite_ne nofun <| ite_ne nofun <| ite_ne nofun <| ite_ne nofun <|
        ite_ne nofun <| ite_ne nofun nofun
  | _ => exact nofun

/-- Source: none: infrastructure. Kind: L -/
theorem dtbReadValueU32_ends (data : DtPropData) : dtbReadValueU32 m data ≠ .error .endless := by
  unfold dtbReadValueU32
  cases data with
  | raw valueLen value =>
      dsimp only [DtPropData.rawValue]
      split_ifs <;> exact nofun
  | _ => exact nofun

/-- **The rewriting of a property ends**: its loops count.
Source: `device_tree.c` `dtb_recursive_property_rewrite`
Kind: L -/
theorem dtbRewriteProperty_ends (node : DtNode) :
    dtbRewriteProperty assertions node bump p ≠ .error .endless := by
  have hread := dtbReadValueU32_ends (m := bump.mem) p.data
  have hraw : p.data.rawValue ≠ .error .endless := by
    cases p.data <;> exact nofun
  have hranges : dtbRewritePropertyRanges assertions bump p node.addressCells node.sizeCells ≠
      .error .endless := dtbRewritePropertyRanges_ends _ _
  unfold dtbRewriteProperty
  refine ite_ne nofun <| ite_ne dtbRewritePropertyCompatible_ends <|
    ite_ne (except_map_ne_error hraw) <| ite_ne (except_map_ne_error hread) <|
    ite_ne (except_map_ne_error dtbRewritePropertyStatus_ends) <| ite_ne ?_ <| ite_ne ?_ <|
    ite_ne nofun <| ite_ne nofun <| ite_ne (except_map_ne_error hraw) <|
    ite_ne (dtbRewritePropertyReg_ends _ _) <| ite_ne hranges <|
    ite_ne (except_map_ne_error hranges) nofun
  · split
    · rename_i stop hstop
      rintro ⟨⟩
      exact hread hstop
    · exact ite_ne nofun nofun
  · split
    · rename_i stop hstop
      rintro ⟨⟩
      exact hread hstop
    · exact ite_ne nofun nofun

/-- **A round that is done** has stored to the buffer only.
Source: `device_tree.c` `dtb_recursive_property_rewrite`
Kind: L -/
theorem dtbRewriteRound_ok_iff {node : DtNode} {r : BumpAllocator × DtPropertyType × DtPropData} :
    dtbRewriteRound assertions node bump p = .ok r ↔
      dtbRewriteProperty assertions node bump p = .ok r ∧ (r.2.2.stores node).all (bumpSpans r.1) := by
  unfold dtbRewriteRound
  cases hrun : dtbRewriteProperty assertions node bump p with
  | error stop => exact iff_of_false (by simp) (by simp)
  | ok r' =>
      dsimp only
      constructor
      · intro h
        split_ifs at h with hall
        cases h
        exact ⟨rfl, hall⟩
      · rintro ⟨heq, hall⟩
        cases heq
        exact if_pos hall

/-- Source: `device_tree.c` `dtb_recursive_property_rewrite`. Kind: L -/
theorem dtbRewriteRound_error_iff {node : DtNode} {stop : DtRewriteStop} (hstop : stop ≠ .outsideBuffer) :
    dtbRewriteRound assertions node bump p = .error stop ↔
      dtbRewriteProperty assertions node bump p = .error stop := by
  unfold dtbRewriteRound
  cases hrun : dtbRewriteProperty assertions node bump p with
  | error stop' => rfl
  | ok r' =>
      refine iff_of_false (fun h => ?_) (by simp)
      dsimp only at h
      split_ifs at h
      exact hstop (Except.error.inj h).symm

/-- Source: `device_tree.c` `dtb_recursive_property_rewrite`. Kind: L -/
theorem dtbRewriteRound_ends (node : DtNode) : dtbRewriteRound assertions node bump p ≠ .error .endless :=
  fun h => dtbRewriteProperty_ends node ((dtbRewriteRound_error_iff (by decide)).mp h)

end ends

/-! ## Links -/

/-- **The same arrays with the same links**: only the cell counts of nodes and the types and data of
properties may differ.
Source: none: infrastructure
Kind: D -/
structure SameLinks (s s' : DtState) : Prop where
  nodes : s'.nodes.forget = s.nodes.forget
  properties : s'.properties.forget = s.properties.forget
  node : ∀ p, ∃ a z, s'.nodes.cells p = { s.nodes.cells p with addressCells := a, sizeCells := z }
  property : ∀ q, ∃ t d, s'.properties.cells q = { s.properties.cells q with type := t, data := d }

section links

variable {assertions : Bool} {s s₁ s' : DtState}

/-- Source: none: infrastructure. Kind: L -/
theorem SameLinks.refl (s : DtState) : SameLinks s s :=
  ⟨rfl, rfl, fun _ => ⟨_, _, rfl⟩, fun _ => ⟨_, _, rfl⟩⟩

/-- Source: none: infrastructure. Kind: L -/
theorem SameLinks.trans (h : SameLinks s s₁) (h' : SameLinks s₁ s') : SameLinks s s' := by
  refine ⟨h'.nodes.trans h.nodes, h'.properties.trans h.properties, fun p => ?_, fun q => ?_⟩
  · obtain ⟨a, z, hp⟩ := h.node p
    obtain ⟨a', z', hp'⟩ := h'.node p
    exact ⟨a', z', by rw [hp', hp]⟩
  · obtain ⟨t, d, hq⟩ := h.property q
    obtain ⟨t', d', hq'⟩ := h'.property q
    exact ⟨t', d', by rw [hq', hq]⟩

/-- Source: none: infrastructure. Kind: L -/
theorem sameLinks_setCells (s : DtState) (p : ArrayPtr) (cells : DtCells) :
    SameLinks s (s.setCells p cells) := by
  refine ⟨rfl, rfl, fun q => ?_, fun _ => ⟨_, _, rfl⟩⟩
  unfold DtState.setCells
  by_cases hq : q = p
  · subst hq
    exact ⟨cells.address, cells.size, by rw [KArray.modify_cells_self]⟩
  · exact ⟨(s.nodes.cells q).addressCells, (s.nodes.cells q).sizeCells,
      by rw [KArray.modify_cells_of_ne _ _ hq]⟩

/-- Source: none: infrastructure. Kind: L -/
theorem sameLinks_setProperty (s : DtState) (q : ArrayPtr) (bump : BumpAllocator)
    (type : DtPropertyType) (data : DtPropData) : SameLinks s (s.setProperty q bump type data) := by
  refine ⟨rfl, rfl, fun _ => ⟨_, _, rfl⟩, fun q' => ?_⟩
  unfold DtState.setProperty
  by_cases hq : q' = q
  · subst hq
    exact ⟨type, data, by rw [KArray.modify_cells_self]⟩
  · exact ⟨(s.properties.cells q').type, (s.properties.cells q').data,
      by rw [KArray.modify_cells_of_ne _ _ hq]⟩

/-- The loop over the properties of a node.
Source: `device_tree.c` `dtb_recursive_property_rewrite`
Kind: L -/
theorem sameLinks_of_properties {node : ArrayPtr} {n : ℕ} :
    ∀ {prop : Option ArrayPtr} {cells cells' : DtCells} {s : DtState},
      dtbRewriteProperties assertions node n prop cells s = .ok (s', cells') → SameLinks s s' := by
  induction n with
  | zero => exact fun h => (nomatch h)
  | succ n ih =>
      intro prop cells cells' s h
      cases prop with
      | none =>
          cases h
          exact SameLinks.refl _
      | some q =>
          rw [dtbRewriteProperties] at h
          cases hp : dtbRewriteRound assertions (s.nodes.cells node) s.bump
              (s.properties.cells q) with
          | error stop =>
              rw [hp] at h
              cases h
          | ok r =>
              rw [hp] at h
              exact (sameLinks_setProperty s q r.1 r.2.1 r.2.2).trans (ih h)

/-- **The recursion changes no link**: by induction on the bound, for the call on a node and the loop
over subnodes at once.
Source: `device_tree.c` `dtb_recursive_property_rewrite`
Kind: P -/
theorem sameLinks_of_rewriteNode (n : ℕ) :
    (∀ {node : ArrayPtr} {s s' : DtState},
      dtbRecursivePropertyRewrite assertions n node s = .ok s' → SameLinks s s') ∧
    ∀ {cells : DtCells} {child : Option ArrayPtr} {s s' : DtState},
      dtbRewriteChildren assertions n cells child s = .ok s' → SameLinks s s' := by
  induction n with
  | zero =>
      constructor
      · intro node s s' h
        rw [dtbRecursivePropertyRewrite] at h
        cases h
      · intro cells child s s' h
        rw [dtbRewriteChildren] at h
        cases h
  | succ n ih =>
      constructor
      · intro node s s' h
        rw [dtbRecursivePropertyRewrite] at h
        split at h
        · cases h
        · rename_i s₁ cells₁ hprops
          exact (sameLinks_of_properties hprops).trans (ih.2 h)
      · intro cells child s s' h
        cases child with
        | none =>
            rw [dtbRewriteChildren] at h
            cases h
            exact SameLinks.refl s
        | some child =>
            rw [dtbRewriteChildren] at h
            split at h
            · cases h
            · rename_i s₁ hnode
              exact ((sameLinks_setCells s child cells).trans (ih.1 hnode)).trans (ih.2 h)

/-- **The rewrite pass changes no link**, when all that it stores lies in the buffer.
Source: `device_tree.c` `dt_initialize`
Kind: P -/
theorem sameLinks_of_rewrite {root : ArrayPtr} (h : dtbRewrite assertions s root = .ok s') :
    SameLinks s s' :=
  (sameLinks_setCells s root ⟨2, 1⟩).trans ((sameLinks_of_rewriteNode _).1 h)

end links

end Octiron.Kernel
