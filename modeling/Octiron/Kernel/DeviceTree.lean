import Octiron.Kernel.Array
import Octiron.Kzadhbat.Bump

/-!
# Parsing the device tree

`device_tree.c`: the loop of `dt_initialize` over the structure block of the blob, and the two
functions that it calls.

* `DtNode`, `DtProperty` — the structures. Nodes and properties are in growing arrays (`KArray`), and
  they point to each other by the addresses they had when they were pushed.
* `DtEnv` — the blob, and what does not depend on it: whether the build has `ENABLE_ASSERTIONS`, and
  which of the calls of `pmm_alloc_aligned` succeed.
* `DtState` — the arrays, the bump allocator and the variables of the loop.
* `dtbParseNode`, `dtbParseProperty`, `dtbStep`, `dtbLoop`, `dtbParse` — the code. A round of the loop
  ends in a `DtStop` when it leaves the loop, and also where it does what no run should do: reads behind
  the structure block, goes through a `NULL` pointer, or counts the depth below zero.
-/

namespace Octiron.Kernel

open Octiron.Found
open Octiron.Kzadhbat

/-! ## The structures -/

/-- Source: `device_tree.c` `enum dtPropertyType`. Kind: D -/
inductive DtPropertyType
  | raw
  | compatible
  | model
  | phandle
  | status
  | addressCells
  | sizeCells
  | dmaCoherence
  | deviceType
  | reg
  | ranges
  | dmaRanges
  deriving DecidableEq

/-- Source: `device_tree.c` `struct dtPropStatus`. Kind: D -/
inductive DtPropStatus
  | ok
  | disabled
  | reserved
  | fail
  | failSss
  deriving DecidableEq

/-- The union `data` of a property. The loop leaves it `raw`; the rewrite pass has the others.
Source: `device_tree.c` `struct dtProperty`, `struct dtPropRaw`, `struct dtPropStatus`,
`struct dtPropReg`, `struct dtPropRanges`
Kind: D -/
inductive DtPropData
  | raw (valueLen : BitVec 32) (value : Addr)
  | compat (strings : Addr)
  | model (value : Addr)
  | phandle (value : BitVec 32)
  | status (value : DtPropStatus) (reason : Addr)
  | addressCells (cells : BitVec 32)
  | sizeCells (cells : BitVec 32)
  | dmaCoherence (value : Bool)
  | deviceType (value : Addr)
  | reg (addresses sizes : Addr) (nPairs : BitVec 32)
  | ranges (childBusAddrs parentBusAddrs lengths : Addr) (nTrips : BitVec 32)
  deriving DecidableEq

/-- Source: `device_tree.c` `struct dtProperty`. Kind: D -/
structure DtProperty where
  /-- The name of the property. -/
  name : Addr
  /-- The next property in the linked list. -/
  next : Option ArrayPtr
  /-- The type of this property. -/
  type : DtPropertyType
  /-- The property type specific data. -/
  data : DtPropData
  deriving DecidableEq

/-- The name of a node: a string in the bump allocator's buffer, or the literal `"/"`.
Source: `device_tree.c` `dt_initialize`
Kind: D -/
inductive DtName
  | copied (p : Addr)
  | slash
  deriving DecidableEq

/-- Source: `device_tree.c` `struct dtNode`. Kind: D -/
structure DtNode where
  /-- Name of the node. -/
  name : DtName
  /-- The number of cells of an address in this node's `reg`. -/
  addressCells : BitVec 32
  /-- The number of cells of a size in this node's `reg`. -/
  sizeCells : BitVec 32
  /-- Properties of the node. -/
  properties : Option ArrayPtr
  /-- The parent node. -/
  parent : Option ArrayPtr
  /-- The first child node. -/
  children : Option ArrayPtr
  /-- The next sibling node. -/
  sibling : Option ArrayPtr
  deriving DecidableEq

/-- Source: `device_tree.c` `sizeof(struct dtNode)`. Kind: D -/
def sizeofDtNode : ℕ := 48

/-- Source: `device_tree.c` `sizeof(struct dtProperty)`. Kind: D -/
def sizeofDtProperty : ℕ := 56

/-- A zeroed node, and a zeroed property.
Source: none: infrastructure
Kind: D -/
def dtNodeZero : DtNode := ⟨.copied 0, 0, 0, none, none, none, none⟩

/-- Source: none: infrastructure. Kind: D -/
def dtPropertyZero : DtProperty := ⟨0, none, .raw, .raw 0 0⟩

/-- What the loop reads and does not change.
Source: `device_tree.c` `dt_initialize`
Kind: D -/
structure DtEnv where
  /-- The structure block: the `size_dt_struct` bytes at `structures`. -/
  structs : List (BitVec 8)
  /-- The memory of the strings block. -/
  mem : Mem
  /-- The strings block. -/
  strings : Addr
  /-- The build has `ENABLE_ASSERTIONS`. -/
  assertions : Bool
  /-- Whether call number `k` of `pmm_alloc_aligned` in the loop succeeds. -/
  grants : ℕ → Bool

/-- What the loop changes.
Source: `device_tree.c` `struct dt`, `dt_initialize`
Kind: D -/
structure DtState where
  nodes : KArray DtNode
  properties : KArray DtProperty
  bump : BumpAllocator
  /-- The calls of `pmm_alloc_aligned` so far. -/
  allocs : ℕ
  /-- The node that is open, `NULL` before the first and after the last. -/
  curr : Option ArrayPtr
  off : ℕ
  depth : ℕ

/-- Source: `device_tree.c` `PANIC_LOOP` in `dt_initialize` and `ARRAY_PUSH`. Kind: D -/
inductive DtPanic
  | notRootNode (depth : ℕ)
  | unknownStructureType (token : BitVec 32)
  | arrayAllocation
  deriving DecidableEq

/-- How a round of the loop can end other than with the next one.
Source: `device_tree.c` `dt_initialize`
Kind: D -/
inductive DtStop
  /-- `goto dtb_rewrite_pass` -/
  | rewritePass
  | panic (p : DtPanic)
  /-- A failed `ASSERT`. -/
  | assertion
  /-- A read behind the structure block. -/
  | pastEnd
  /-- An access through `curr` when it is `NULL`. -/
  | nullCurr
  /-- `strlen` of a name that is `NULL`. -/
  | nullName
  /-- `depth--` when it is zero. -/
  | depthUnderflow
  /-- A list of siblings that does not end. -/
  | endlessSiblings
  /-- More rounds than the structure block has bytes. -/
  | endless
  deriving DecidableEq

/-! ## Reading the structure block -/

/-- Source: `device_tree.c` `enum dtb_StructureToken`. Kind: D -/
def fdtBeginNode : BitVec 32 := 0x01
/-- Source: `device_tree.c` `enum dtb_StructureToken`. Kind: D -/
def fdtEndNode : BitVec 32 := 0x02
/-- Source: `device_tree.c` `enum dtb_StructureToken`. Kind: D -/
def fdtProp : BitVec 32 := 0x03
/-- Source: `device_tree.c` `enum dtb_StructureToken`. Kind: D -/
def fdtNop : BitVec 32 := 0x04
/-- Source: `device_tree.c` `enum dtb_StructureToken`. Kind: D -/
def fdtEnd : BitVec 32 := 0x09

/-- `READ_BIG_ENDIAN_U32(structures + off)`; `none` if it does not lie in the block.
Source: `bitmacros.h` `READ_BIG_ENDIAN_U32`
Kind: D -/
def readU32 (structs : List (BitVec 8)) (off : ℕ) : Option (BitVec 32) :=
  match structs.drop off with
  | b₀ :: b₁ :: b₂ :: b₃ :: _ => some (readBigEndianU32 b₀ b₁ b₂ b₃)
  | _ => none

/-- The string at `structures + off`; `none` if no zero byte ends it in the block.
Source: `impl.c` `strlen`
Kind: D -/
def cstrAt (structs : List (BitVec 8)) (off : ℕ) : Option (List (BitVec 8)) :=
  let str := (structs.drop off).takeWhile (· ≠ 0)
  if off + str.length < structs.length then some str else none

/-- The string at `p`.
Source: `impl.c` `strlen`
Kind: D -/
def cstring (m : Mem) (p : Addr) : List (BitVec 8) :=
  (List.range (strlen m p)).map fun i => m (p + BitVec.ofNat 64 i)

/-- `ALIGN_UP(n, sizeof(u32))` of the length of a name or a value.
Source: `device_tree.c` `dtb_parse_property`, `dtb_parse_node`
Kind: D -/
def alignUpU32 (n : ℕ) : ℕ := (n + 3) / 4 * 4

/-! ## The functions of the loop -/

/-- The calls of `pmm_alloc_aligned` after one `ARRAY_PUSH` to `a`.
Source: `array.h` `ARRAY_PUSH`
Kind: D -/
def allocsAfter {α : Type} (allocs : ℕ) (a : KArray α) : ℕ :=
  if arrayFull a then allocs + 1 else allocs

/-- The copies and the array of `dtb_parse_property`, up to where it reads `curr`: the name, the value and
a place for the property. `value` is what the block has of the `propLen` bytes of the value.
Source: `device_tree.c` `dtb_parse_property`
Kind: D -/
def dtbAllocProperty {α : Type} (env : DtEnv) (bump : BumpAllocator) (properties : KArray α)
    (allocs : ℕ) (propLen nameOffset : BitVec 32) (value : List (BitVec 8)) :
    Except DtStop (BumpAllocator × Addr × Addr × KArray α) :=
  let (bump, propName) :=
    bumpCopyString bump (some (cstring env.mem (env.strings + nameOffset.setWidth 64)))
  -- the value is read only if it is copied
  if ¬ bumpRefuses bump (propLen.setWidth 64) ∧ value.length < propLen.toNat then .error .pastEnd
  else
    let (bump, propValue) := bumpCopy bump (some fun i => value.getD i 0) (propLen.setWidth 64)
    match arrayReserve sizeofDtProperty (env.grants allocs) properties with
    | none => .error (.panic .arrayAllocation)
    | some properties => .ok (bump, propName, propValue, properties)

/-- `dtb_parse_property`.
Source: `device_tree.c` `dtb_parse_property`
Kind: D
Fidelity: exact -/
def dtbParseProperty (env : DtEnv) (s : DtState) : Except DtStop DtState :=
  match readU32 env.structs s.off, readU32 env.structs (s.off + 4) with
  | some propLen, some nameOffset =>
    let off := s.off + 8
    let value := (env.structs.drop off).take propLen.toNat
    match dtbAllocProperty env s.bump s.properties s.allocs propLen nameOffset value with
    | .error stop => .error stop
    | .ok (bump, propName, propValue, properties) =>
      match s.curr with
      | none => .error .nullCurr
      | some curr =>
        let (properties, new) := arrayAppend properties
          ⟨propName, (s.nodes.cells curr).properties, .raw, .raw propLen propValue⟩
        .ok { s with
          properties := properties
          nodes := s.nodes.modify curr fun n => { n with properties := some new }
          bump := bump
          allocs := allocsAfter s.allocs s.properties
          off := off + alignUpU32 propLen.toNat }
  | _, _ => .error .pastEnd

/-- The loop `while (last_child->sibling != NULL)`.
Source: `device_tree.c` `dtb_parse_node`
Kind: D -/
def dtbLastChild (nodes : KArray DtNode) : ℕ → ArrayPtr → Option ArrayPtr
  | 0, _ => none
  | n + 1, child =>
      match (nodes.cells child).sibling with
      | none => some child
      | some sibling => dtbLastChild nodes n sibling

/-- Making `new` the last child of `curr`.
Source: `device_tree.c` `dtb_parse_node`
Kind: D -/
def dtbLinkChild (nodes : KArray DtNode) (curr new : ArrayPtr) : Option (KArray DtNode) :=
  match (nodes.cells curr).children with
  | none => some (nodes.modify curr fun n => { n with children := some new })
  | some child =>
    (dtbLastChild nodes nodes.size child).map fun last =>
      nodes.modify last fun n => { n with sibling := some new }

/-- Linking in `new` under `curr`, if a node is open.
Source: `device_tree.c` `dtb_parse_node`
Kind: D -/
def dtbLinkNode (nodes : KArray DtNode) (curr : Option ArrayPtr) (new : ArrayPtr) :
    Option (KArray DtNode) :=
  match curr with
  | none => some nodes
  | some curr => dtbLinkChild nodes curr new

/-- The copy and the array of `dtb_parse_node`: the name and a place for the node.
Source: `device_tree.c` `dtb_parse_node`
Kind: D -/
def dtbAllocNode {α : Type} (env : DtEnv) (bump : BumpAllocator) (nodes : KArray α) (allocs : ℕ)
    (name : List (BitVec 8)) : Except DtStop (BumpAllocator × Addr × KArray α) :=
  let (bump, nameBuf) := bumpCopyString bump (some name)
  -- the `ASSERT`, or else `strlen(NULL)`
  if nameBuf = 0 then .error (if env.assertions then .assertion else .nullName)
  else
    match arrayReserve sizeofDtNode (env.grants allocs) nodes with
    | none => .error (.panic .arrayAllocation)
    | some nodes => .ok (bump, nameBuf, nodes)

/-- `dtb_parse_node`.
Source: `device_tree.c` `dtb_parse_node`
Kind: D
Fidelity: exact -/
def dtbParseNode (env : DtEnv) (s : DtState) : Except DtStop DtState :=
  match cstrAt env.structs s.off with
  | none => .error .pastEnd
  | some name =>
    match dtbAllocNode env s.bump s.nodes s.allocs name with
    | .error stop => .error stop
    | .ok (bump, nameBuf, nodes) =>
      let nameLen := strlen bump.mem nameBuf + 1
      let (nodes, new) := arrayAppend nodes ⟨.copied nameBuf, 0, 0, none, s.curr, none, none⟩
      match dtbLinkNode nodes s.curr new with
      | none => .error .endlessSiblings
      | some nodes =>
        .ok { s with
          nodes := nodes
          bump := bump
          allocs := allocsAfter s.allocs s.nodes
          curr := some new
          off := s.off + alignUpU32 nameLen }

/-- `name[0] == 0`.
Source: `device_tree.c` `dt_initialize`
Kind: D -/
def dtNameEmpty (m : Mem) : DtName → Bool
  | .copied p => m p = 0
  | .slash => false

/-- The rest of a round that has parsed a node: the name of a root without one, and the depth.
Source: `device_tree.c` `dt_initialize` (`FDT_BEGIN_NODE`)
Kind: D -/
def dtbBeginNode (s : DtState) : DtState :=
  match s.curr with
  | none => { s with depth := s.depth + 1 }
  | some curr =>
    if s.depth = 0 ∧ dtNameEmpty s.bump.mem (s.nodes.cells curr).name then
      { s with
        nodes := s.nodes.modify curr fun n => { n with name := .slash }
        depth := s.depth + 1 }
    else { s with depth := s.depth + 1 }

/-- One round of the loop.
Source: `device_tree.c` `dt_initialize`
Kind: D
Fidelity: exact -/
def dtbStep (env : DtEnv) (s : DtState) : Except DtStop DtState :=
  if env.assertions = true ∧ s.off % 4 ≠ 0 then .error .assertion
  else
    match readU32 env.structs s.off with
    | none => .error .pastEnd
    | some token =>
      let s := { s with off := s.off + 4 }
      if token = fdtBeginNode then (dtbParseNode env s).map dtbBeginNode
      else if token = fdtEndNode then
        match s.curr with
        | none => .error .nullCurr
        | some curr =>
          if s.depth = 0 then .error .depthUnderflow
          else .ok { s with curr := (s.nodes.cells curr).parent, depth := s.depth - 1 }
      else if token = fdtProp then dtbParseProperty env s
      else if token = fdtNop then .ok s
      else if token = fdtEnd then
        if s.curr ≠ none then .error (.panic (.notRootNode s.depth)) else .error .rewritePass
      else .error (.panic (.unknownStructureType token))

/-- The loop, for at most `n` rounds: how it ends, and the state at the beginning of its last round.
Source: `device_tree.c` `dt_initialize`
Kind: D -/
def dtbLoop (env : DtEnv) : ℕ → DtState → DtStop × DtState
  | 0, s => (.endless, s)
  | n + 1, s =>
      match dtbStep env s with
      | .error stop => (stop, s)
      | .ok s' => dtbLoop env n s'

/-- The state in which the loop starts, with a bump allocator that has been initialised.
Source: `device_tree.c` `dt_initialize`
Kind: D -/
def dtbInit (bump : BumpAllocator) : DtState :=
  ⟨arrayInit dtNodeZero, arrayInit dtPropertyZero, bump, 0, none, 0, 0⟩

/-- What the parsing comes to.
Source: `device_tree.c` `dt_initialize`
Kind: D -/
inductive DtResult
  /-- The rewrite pass, which starts at `root`. -/
  | rewrite (s : DtState) (root : ArrayPtr)
  /-- `ERR_DTB_NO_NODES` -/
  | noNodes
  /-- The loop does not get there. -/
  | stopped (stop : DtStop)

/-- The part of `dt_initialize` that parses the structure block. Every round reads a token, so there
are fewer rounds than bytes.
Source: `device_tree.c` `dt_initialize`
Kind: D
Fidelity: exact -/
def dtbParse (env : DtEnv) (bump : BumpAllocator) : DtResult :=
  match dtbLoop env (env.structs.length + 1) (dtbInit bump) with
  | (.rewritePass, s) =>
    if s.nodes.size = 0 then .noNodes else .rewrite s (s.nodes.data.getD 0, 0)
  | (stop, _) => .stopped stop

/-- The bump allocator of two pages that `dt_initialize` starts with.
Source: `device_tree.c` `dt_initialize`
Kind: D -/
def twoPageBump : BumpAllocator := ⟨0x80300000, 8192, 0, fun _ => 0⟩

/-- Source: none: infrastructure. Kind: L -/
theorem bumpOk_twoPageBump : BumpOk twoPageBump := ⟨by decide, by decide, by decide⟩

end Octiron.Kernel
