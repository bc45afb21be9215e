import Octiron.Kernel.DeviceGrammar
import Octiron.Kernel.DeviceParse

/-!
# Running out of bump space while parsing

The copies of the loop of `dt_initialize` fail with `NULL`. Of the three copies, that of a node's name
is checked, by an `ASSERT`; a property is linked in whatever its copies gave.

* `DtRecords env s ts` — the arrays hold the nodes and properties of the tokens `ts` that have been
  read, with names and values that are not `NULL` and equal to those of the block.
* `SpaceSafe` — in every state of the loop; and a token whose strings do not fit stops it.
* `FdtToken.Fits`, `FdtToken.Stopped` — there is room for the strings of a token; its round ends for
  another reason.
* **Main result** (`spaceSafe_iff`): for every block that encodes a tree, the loop is safe exactly if
  every token it comes to fits or is stopped.
-/

namespace Octiron.Kernel

open Octiron.Found
open Octiron.Kzadhbat

/-! ## Arrays -/

section array

variable {α β : Type}

/-- Stores that `g` does not see.
Source: none: infrastructure
Kind: L -/
theorem KArray.map_contents_modify (a : KArray α) (p : ArrayPtr) {f : α → α} {g : α → β}
    (hg : ∀ x, g (f x) = g x) : (a.modify p f).contents.map g = a.contents.map g := by
  unfold KArray.contents
  rw [List.map_map, List.map_map]
  refine List.map_congr_left fun k _ => ?_
  show g ((a.modify p f).cells (a.data.getD 0, k)) = g (a.cells (a.data.getD 0, k))
  by_cases hp : (a.data.getD 0, k) = p
  · rw [hp, KArray.modify_cells_self, hg]
  · rw [KArray.modify_cells_of_ne _ _ hp]

/-- A store to the last element.
Source: none: infrastructure
Kind: L -/
theorem KArray.contents_modify_last {a : KArray α} {n : ℕ} (hsize : a.size = n + 1) (f : α → α) :
    (a.modify (a.data.getD 0, n) f).contents =
      a.contents.dropLast ++ [f (a.cells (a.data.getD 0, n))] := by
  have hinit : a.contents.dropLast = (List.range n).map fun k => a.cells (a.data.getD 0, k) := by
    unfold KArray.contents
    rw [hsize, List.range_succ, List.map_append, List.map_singleton, List.dropLast_concat]
  rw [hinit]
  unfold KArray.contents
  show (List.range a.size).map (fun k => (a.modify _ f).cells (a.data.getD 0, k)) = _
  rw [hsize, List.range_succ, List.map_append, List.map_singleton, KArray.modify_cells_self]
  refine congrArg (· ++ [_]) (List.map_congr_left fun k hk => KArray.modify_cells_of_ne _ _ ?_)
  intro heq
  have hk := List.mem_range.mp hk
  have : k = n := congrArg Prod.snd heq
  omega

end array

/-! ## What the loop has recorded -/

/-- Source: none: infrastructure. Kind: D -/
def FdtToken.nodeName : FdtToken → Option CStr
  | .beginNode name => some name
  | _ => none

/-- Source: none: infrastructure. Kind: D -/
def FdtToken.property : FdtToken → Option FdtProp
  | .prop p => some p
  | _ => none

/-- The name of a node: the one in the block, or `"/"` for a root without a name.
Source: `device_tree.c` `struct dtNode`
Kind: D -/
def NameRecorded (m : Mem) (name : CStr) (n : DtNode) : Prop :=
  if n.parent = none ∧ name.val = [] then n.name = .slash
  else ∃ p, n.name = .copied p ∧ p ≠ 0 ∧ CStringAt m p name.val

/-- The name and the value of a property; a value without bytes may be `NULL`.
Source: `device_tree.c` `struct dtProperty`, `struct dtPropRaw`
Kind: D -/
structure PropRecorded (m : Mem) (p : FdtProp) (q : DtProperty) : Prop where
  name_ne : q.name ≠ 0
  name : CStringAt m q.name p.name.val
  raw : q.type = .raw
  value : ∃ len value, q.data = .raw len value ∧ len.toNat = p.value.length ∧
    (p.value ≠ [] → value ≠ 0 ∧ BytesAt m value p.value)

/-- **The arrays hold what has been read**, up to the offset of the state.
Source: `device_tree.c` `struct dt`
Kind: D -/
structure DtRecords (env : DtEnv) (s : DtState) (ts : List FdtToken) : Prop where
  reads : Reads env 0 ts s.off
  nodes : List.Forall₂ (NameRecorded s.bump.mem) (ts.filterMap FdtToken.nodeName) s.nodes.contents
  properties : List.Forall₂ (PropRecorded s.bump.mem) (ts.filterMap FdtToken.property)
    s.properties.contents

/-- The bytes of the bump allocator that the copies of the token take.
Source: `device_tree.c` `dtb_parse_node`, `dtb_parse_property`
Kind: D -/
def FdtToken.need : FdtToken → ℕ
  | .beginNode name => name.val.length + 1
  | .endNode => 0
  | .prop p => p.need

/-- There is room for the strings of the token.
Source: `device_tree.c` `dtb_parse_node`, `dtb_parse_property`
Kind: D -/
def FdtToken.Fits (b : BumpAllocator) (t : FdtToken) : Prop := t.need ≤ b.room

/-- The round with the token does not go on without room: at a node the build has the assertion, and at
a property the array cannot grow.
Source: `device_tree.c` `dtb_parse_node`, `dtb_parse_property`; `array.h` `ARRAY_PUSH`
Kind: D -/
def FdtToken.Stopped (env : DtEnv) (s : DtState) : FdtToken → Prop
  | .beginNode _ => env.assertions = true
  | .endNode => False
  | .prop _ => arrayFull s.properties = true ∧ env.grants s.allocs = false

/-- **Running out of space is never recorded as data**: in every state of the loop the arrays hold what
has been read, and a token whose strings do not fit ends it with a panic or an assertion.
Source: `device_tree.c` `dt_initialize`
Kind: D -/
def SpaceSafe (env : DtEnv) (bump : BumpAllocator) (t : FdtTree) : Prop :=
  ∀ s, DtReach env (dtbInit bump) s →
    (∃ ts, ts <+: t.tokens ∧ DtRecords env s ts) ∧
      ∀ tok off', FdtToken.At env s.off off' tok → ¬ tok.Fits s.bump →
        (∃ p, dtbStep env s = .error (.panic p)) ∨ dtbStep env s = .error .assertion

/-! ## The arrays after a round -/

/-- What is recorded of a node: its name, and whether it is a root.
Source: `device_tree.c` `struct dtNode`
Kind: D -/
def DtNode.label (n : DtNode) : DtName × Option ArrayPtr := (n.name, n.parent)

section rounds

variable {env : DtEnv} {s s' : DtState} {off' : ℕ}

/-- Linking in a node is one store, to links.
Source: `device_tree.c` `dtb_parse_node`
Kind: L -/
theorem dtbLinkNode_eq {nodes nodes' : KArray DtNode} {curr : Option ArrayPtr} {new : ArrayPtr}
    (h : dtbLinkNode nodes curr new = some nodes') :
    ∃ p f, nodes' = nodes.modify p f ∧ ∀ n, DtNode.label (f n) = n.label := by
  unfold dtbLinkNode at h
  cases curr with
  | none =>
      cases h
      refine ⟨new, id, ?_, fun _ => rfl⟩
      unfold KArray.modify
      rw [id, Function.update_eq_self]
  | some c =>
      dsimp only at h
      unfold dtbLinkChild at h
      cases hchild : (nodes.cells c).children with
      | none =>
          rw [hchild] at h
          cases h
          exact ⟨c, _, rfl, fun _ => rfl⟩
      | some child =>
          rw [hchild] at h
          obtain ⟨last, -, rfl⟩ := Option.map_eq_some_iff.mp h
          exact ⟨last, _, rfl, fun _ => rfl⟩

/-- **The nodes after `dtb_parse_node`**: one more, with the copied name, and it is open.
Source: `device_tree.c` `dtb_parse_node`
Kind: L -/
theorem dtbParseNode_labels (hok : ArrayOk s.nodes) {name : List (BitVec 8)}
    (hname : cstrAt env.structs s.off = some name) (h : dtbParseNode env s = .ok s') :
    ∃ bump nameBuf nodes, dtbAllocNode env s.bump s.nodes s.allocs name = .ok (bump, nameBuf, nodes) ∧
      s'.bump = bump ∧ s'.properties = s.properties ∧ s'.depth = s.depth ∧ ArrayOk s'.nodes ∧
      s'.nodes.size = s.nodes.size + 1 ∧ s'.curr = some (s'.nodes.data.getD 0, s.nodes.size) ∧
      s'.nodes.contents.map DtNode.label =
        s.nodes.contents.map DtNode.label ++ [(.copied nameBuf, s.curr)] := by
  unfold dtbParseNode at h
  rw [hname] at h
  dsimp only at h
  cases halloc : dtbAllocNode env s.bump s.nodes s.allocs name with
  | error stop =>
      rw [halloc] at h
      cases h
  | ok r =>
      obtain ⟨bump, nameBuf, nodes⟩ := r
      rw [halloc] at h
      dsimp only at h
      obtain ⟨hok', hcontents, hdata⟩ := arrayReserve_contents hok (dtbAllocNode_reserve halloc)
      have hsize : nodes.size = s.nodes.size := by
        have := congrArg List.length hcontents
        simpa [KArray.contents] using this
      set node : DtNode := ⟨.copied nameBuf, 0, 0, none, s.curr, none, none⟩ with hnode
      cases hlink : dtbLinkNode (arrayAppend nodes node).1 s.curr (arrayAppend nodes node).2 with
      | none =>
          rw [hlink] at h
          cases h
      | some nodes' =>
          rw [hlink] at h
          cases h
          obtain ⟨p, f, rfl, hf⟩ := dtbLinkNode_eq hlink
          refine ⟨bump, nameBuf, nodes, rfl, rfl, rfl, rfl, ⟨hok'.allocated, fun hd => absurd hd hdata⟩,
            congrArg (· + 1) hsize, ?_, ?_⟩
          · show some (nodes.data.getD 0, nodes.size) = _
            rw [hsize]
            rfl
          · show (KArray.contents (KArray.modify _ _ _)).map _ = _
            rw [KArray.map_contents_modify _ _ hf, arrayAppend_contents, List.map_append, hcontents]
            rfl

/-- **The nodes after a round with `FDT_BEGIN_NODE`**: a root without a name gets one.
Source: `device_tree.c` `dt_initialize`
Kind: L -/
theorem dtbStep_beginNode_labels (hoff : s.off % 4 = 0) (hok : ArrayOk s.nodes)
    {name : List (BitVec 8)} (hlex : dtLex env.structs s.off = .tok (.beginNode name) off')
    (h : dtbStep env s = .ok s') :
    ∃ bump nameBuf nodes, dtbAllocNode env s.bump s.nodes s.allocs name = .ok (bump, nameBuf, nodes) ∧
      s'.bump = bump ∧ s'.properties = s.properties ∧ ArrayOk s'.nodes ∧
      s'.nodes.contents.map DtNode.label = s.nodes.contents.map DtNode.label ++
        [(if s.depth = 0 ∧ dtNameEmpty bump.mem (.copied nameBuf) then .slash else .copied nameBuf,
          s.curr)] := by
  obtain ⟨hread, hcstr, -⟩ := dtLex_beginNode hlex
  rw [dtbStep_of_token hoff hread, if_pos rfl] at h
  cases hparse : dtbParseNode env { s with off := s.off + 4 } with
  | error stop =>
      rw [hparse] at h
      cases h
  | ok s₁ =>
      rw [hparse] at h
      cases h
      obtain ⟨bump, nameBuf, nodes, halloc, hbump, hprops, hdepth, hok₁, hsize, hcurr, hlabels⟩ :=
        dtbParseNode_labels (s := { s with off := s.off + 4 }) hok hcstr hparse
      change s₁.nodes.size = s.nodes.size + 1 at hsize
      change s₁.nodes.contents.map _ = s.nodes.contents.map _ ++ [(DtName.copied nameBuf, s.curr)]
        at hlabels
      refine ⟨bump, nameBuf, nodes, halloc, ?_⟩
      -- the label of the last node
      have hlast : (s₁.nodes.cells (s₁.nodes.data.getD 0, s.nodes.size)).label =
          (.copied nameBuf, s.curr) := by
        have hget := congrArg (fun l => l[s.nodes.size]?) hlabels
        have hlen : (s.nodes.contents.map DtNode.label).length = s.nodes.size := by
          simp [KArray.contents]
        simp only [List.getElem?_append_right (Nat.le_of_eq hlen), hlen, Nat.sub_self] at hget
        simpa [KArray.contents, hsize] using hget
      unfold dtbBeginNode
      rw [hcurr]
      dsimp only
      have hname : (s₁.nodes.cells (s₁.nodes.data.getD 0, s.nodes.size)).name = .copied nameBuf :=
        congrArg Prod.fst hlast
      rw [hname, hbump, hdepth]
      dsimp only
      by_cases hslash : s.depth = 0 ∧ dtNameEmpty bump.mem (.copied nameBuf) = true
      · rw [if_pos hslash, if_pos hslash]
        refine ⟨rfl, hprops, ⟨hok₁.allocated, hok₁.empty⟩, ?_⟩
        show (KArray.contents (s₁.nodes.modify _ _)).map _ = _
        have hinit : s₁.nodes.contents.dropLast.map DtNode.label =
            s.nodes.contents.map DtNode.label := by
          rw [List.map_dropLast, hlabels, List.dropLast_concat]
        rw [KArray.contents_modify_last hsize, List.map_append, hinit]
        have hparent : (s₁.nodes.cells (s₁.nodes.data.getD 0, s.nodes.size)).parent = s.curr :=
          congrArg Prod.snd hlast
        show _ ++ [(DtName.slash, (s₁.nodes.cells _).parent)] = _
        rw [hparent]
      · rw [if_neg hslash, if_neg hslash]
        exact ⟨rfl, hprops, hok₁, hlabels⟩

/-- **The properties after a round with `FDT_PROP`**: one more, with what the copies gave.
Source: `device_tree.c` `dtb_parse_property`
Kind: L -/
theorem dtbStep_prop_contents (hoff : s.off % 4 = 0) (hok : ArrayOk s.properties)
    {propLen nameOffset : BitVec 32} {value : List (BitVec 8)}
    (hlex : dtLex env.structs s.off = .tok (.prop propLen nameOffset value) off')
    (h : dtbStep env s = .ok s') :
    ∃ bump propName propValue properties next,
      dtbAllocProperty env s.bump s.properties s.allocs propLen nameOffset value =
        .ok (bump, propName, propValue, properties) ∧ s'.bump = bump ∧
      s'.nodes.contents.map DtNode.label = s.nodes.contents.map DtNode.label ∧
      (ArrayOk s.nodes → ArrayOk s'.nodes) ∧ ArrayOk s'.properties ∧
      s'.properties.contents =
        s.properties.contents ++ [⟨propName, next, .raw, .raw propLen propValue⟩] := by
  rcases dtLex_tok_cases hlex with ⟨-, name, ht, -⟩ | ⟨-, ht, -⟩ |
    ⟨hread, propLen', nameOffset', hlen, hname, ht, rfl⟩ | ⟨-, ht, -⟩
  · cases ht
  · cases ht
  · cases ht
    rw [dtbStep_of_token hoff hread, if_neg (by decide), if_neg (by decide), if_pos rfl] at h
    unfold dtbParseProperty at h
    dsimp only at h
    rw [hlen, hname] at h
    dsimp only at h
    set value := (env.structs.drop (s.off + 4 + 8)).take propLen.toNat with hvalue
    cases halloc : dtbAllocProperty env s.bump s.properties s.allocs propLen nameOffset value with
    | error stop =>
        rw [halloc] at h
        cases h
    | ok r =>
        obtain ⟨bump, propName, propValue, properties⟩ := r
        rw [halloc] at h
        obtain ⟨hok', hcontents, hdata⟩ := arrayReserve_contents hok (dtbAllocProperty_reserve halloc)
        cases hcurr : s.curr with
        | none =>
            rw [hcurr] at h
            cases h
        | some curr =>
            rw [hcurr] at h
            cases h
            refine ⟨bump, propName, propValue, properties, (s.nodes.cells curr).properties, rfl, rfl, ?_,
              fun hnodes => ⟨hnodes.allocated, hnodes.empty⟩,
              ⟨hok'.allocated, fun hd => absurd hd hdata⟩, ?_⟩
            · exact KArray.map_contents_modify _ _ fun _ => rfl
            · rw [← hcontents]
              exact arrayAppend_contents _ _
  · cases ht

end rounds

/-! ## Copies with room -/

section copies

variable {env : DtEnv} {b b' : BumpAllocator}

/-- What is held in the buffer is not at `NULL`.
Source: none: infrastructure
Kind: L -/
theorem BumpHolds.ne_zero {p : Addr} {l : List (BitVec 8)} (h : BumpHolds b p l) (hok : BumpOk b)
    (hne : l ≠ []) : p ≠ 0 := by
  obtain ⟨-, o, rfl, ho⟩ := h
  have hpos := List.length_pos_of_ne_nil hne
  have hfits := hok.fits
  have hindex := hok.index
  have hmem := hok.pos
  intro hzero
  have hnat := congrArg BitVec.toNat hzero
  rw [BitVec.toNat_add, BitVec.toNat_ofNat, Nat.mod_eq_of_lt (a := o) (by omega),
    Nat.mod_eq_of_lt (by omega)] at hnat
  change b.memory.toNat + o = 0 at hnat
  omega

/-- A node whose name fits.
Source: `device_tree.c` `dtb_parse_node`
Kind: L -/
theorem dtbAllocNode_fits {α : Type} {nodes nodes' : KArray α} {allocs : ℕ} {name : List (BitVec 8)}
    {nameBuf : Addr} (hok : BumpOk b) (hfits : name.length + 1 ≤ b.room)
    (h : dtbAllocNode env b nodes allocs name = .ok (b', nameBuf, nodes')) :
    BumpHolds b' nameBuf (name ++ [0]) ∧ BumpFrame b b' ∧ b'.room + (name.length + 1) = b.room := by
  obtain ⟨b₁, hcopy, -, -, hroom, hholds, hframe⟩ := bumpCopyString_of_room hok hfits
  unfold dtbAllocNode at h
  rw [hcopy] at h
  dsimp only at h
  split_ifs at h
  cases hres : arrayReserve sizeofDtNode (env.grants allocs) nodes with
  | none =>
      rw [hres] at h
      cases h
  | some nodes₁ =>
      rw [hres] at h
      cases h
      exact ⟨hholds, hframe, by omega⟩

/-- A node whose name does not fit.
Source: `device_tree.c` `dtb_parse_node`
Kind: L -/
theorem dtbAllocNode_not_fits {α : Type} (nodes : KArray α) (allocs : ℕ) {name : List (BitVec 8)}
    (hok : BumpOk b) (hlen : b.size.toNat + (name.length + 1) < 2 ^ 64)
    (hfits : ¬ name.length + 1 ≤ b.room) :
    dtbAllocNode env b nodes allocs name =
      .error (if env.assertions then .assertion else .nullName) := by
  have hnull : (bumpCopyString b (some name)).2 = 0 := by
    by_contra hne
    exact hfits (room_of_bumpCopyString_ne_zero hok hlen hne)
  unfold dtbAllocNode
  dsimp only
  rw [if_pos hnull]

/-- A property whose name and value fit.
Source: `device_tree.c` `dtb_parse_property`
Kind: L -/
theorem dtbAllocProperty_fits {α : Type} {properties properties' : KArray α} {allocs : ℕ} {p : FdtProp}
    {propLen nameOffset : BitVec 32} {propName propValue : Addr} (hok : BumpOk b)
    (hlen : propLen.toNat = p.value.length)
    (hname : CStringAt env.mem (env.strings + nameOffset.setWidth 64) p.name.val)
    (hfits : p.need ≤ b.room)
    (h : dtbAllocProperty env b properties allocs propLen nameOffset p.value =
      .ok (b', propName, propValue, properties')) :
    BumpHolds b' propName (p.name.val ++ [0]) ∧
      (p.value ≠ [] → BumpHolds b' propValue p.value) ∧ BumpFrame b b' ∧
        b'.room + p.need = b.room := by
  unfold FdtProp.need at hfits ⊢
  have hlt := b.size.isLt
  have hroomLt : b.room < 2 ^ 64 := lt_of_le_of_lt (Nat.sub_le _ _) hlt
  have hcstring := cstring_of_cstringAt hname p.name.property (by omega)
  have hroomName : p.name.val.length + 1 ≤ b.room := by omega
  obtain ⟨b₁, hcopy, -, hok₁, hroom₁, hholds, hframe⟩ := bumpCopyString_of_room hok hroomName
  have hsrc : ∀ i c, p.value[i]? = some c → (fun i => p.value.getD i 0) i = c := by
    intro i c hc
    show p.value.getD i 0 = c
    rw [List.getD_eq_getElem?_getD, hc]
    rfl
  have hroomValue : p.value.length ≤ b₁.room := by omega
  obtain ⟨b₂, value, hcopy₂, -, hroom₂, hholds₂, hframe₂⟩ := bumpCopy_of_room hok₁ hroomValue hsrc
  have hwidth : propLen.setWidth 64 = BitVec.ofNat 64 p.value.length := by
    rw [← hlen]
    apply BitVec.eq_of_toNat_eq
    rw [BitVec.toNat_setWidth, BitVec.toNat_ofNat]
  unfold dtbAllocProperty at h
  rw [hcstring, hcopy, hwidth] at h
  dsimp only at h
  rw [if_neg (by omega), hcopy₂] at h
  dsimp only at h
  cases hres : arrayReserve sizeofDtProperty (env.grants allocs) properties with
  | none =>
      rw [hres] at h
      cases h
  | some properties₁ =>
      rw [hres] at h
      cases h
      exact ⟨hholds.frame hframe₂, hholds₂, hframe.trans hframe₂, by omega⟩

/-- **The copies of a property never stop it**: only the array does, when it cannot grow.
Source: `device_tree.c` `dtb_parse_property`
Kind: L -/
theorem dtbAllocProperty_error {α : Type} {properties : KArray α} {allocs : ℕ} {p : FdtProp}
    {propLen nameOffset : BitVec 32} {stop : DtStop} (hlen : propLen.toNat = p.value.length)
    (h : dtbAllocProperty env b properties allocs propLen nameOffset p.value = .error stop) :
    stop = .panic .arrayAllocation ∧ arrayFull properties = true ∧ env.grants allocs = false := by
  unfold dtbAllocProperty at h
  dsimp only at h
  rw [if_neg (by omega)] at h
  unfold arrayReserve at h
  by_cases hfull : arrayFull properties = true
  · rw [if_pos hfull] at h
    cases hgrants : env.grants allocs with
    | false =>
        rw [hgrants] at h
        cases h
        exact ⟨rfl, hfull, rfl⟩
    | true =>
        rw [hgrants] at h
        cases h
  · rw [if_neg hfull] at h
    cases h

end copies

/-! ## The run -/

/-- A recorded name, in the buffer.
Source: none: infrastructure
Kind: D -/
def LabelHeld (b : BumpAllocator) (name : CStr) (l : DtName × Option ArrayPtr) : Prop :=
  if l.2 = none ∧ name.val = [] then l.1 = .slash
  else ∃ p, l.1 = .copied p ∧ BumpHolds b p (name.val ++ [0])

/-- A recorded property, with its strings in the buffer.
Source: none: infrastructure
Kind: D -/
def PropHeld (b : BumpAllocator) (p : FdtProp) (q : DtProperty) : Prop :=
  BumpHolds b q.name (p.name.val ++ [0]) ∧ q.type = .raw ∧
    ∃ len value, q.data = .raw len value ∧ len.toNat = p.value.length ∧
      (p.value ≠ [] → BumpHolds b value p.value)

/-- Source: none: infrastructure. Kind: D -/
def tokensNeed (ts : List FdtToken) : ℕ := (ts.map FdtToken.need).sum

/-- **The state between two tokens**: `ts` have been read, from a state with room for `room` bytes, and
`rest` are ahead.
Source: none: infrastructure
Kind: D -/
structure DtRecording (env : DtEnv) (room : ℕ) (s : DtState) (ts rest : List FdtToken)
    (live stack : List ArrayPtr) : Prop where
  inv : DtInv s live stack
  aligned : s.off % 4 = 0
  bump : BumpOk s.bump
  size : s.bump.size.toNat + env.structs.length < 2 ^ 64
  room : s.bump.room + tokensNeed ts = room
  nodesOk : ArrayOk s.nodes
  propertiesOk : ArrayOk s.properties
  reads : Reads env 0 ts s.off
  ahead : ∃ offEnd, Reads env s.off rest offEnd ∧ dtLex env.structs offEnd = .ending .fdtEnd
  nodes : List.Forall₂ (LabelHeld s.bump) (ts.filterMap FdtToken.nodeName)
    (s.nodes.contents.map DtNode.label)
  properties : List.Forall₂ (PropHeld s.bump) (ts.filterMap FdtToken.property) s.properties.contents

section run

variable {env : DtEnv} {b b' : BumpAllocator} {s s' : DtState} {ts rest : List FdtToken}
  {live stack : List ArrayPtr} {room : ℕ}

@[simp] theorem tokensNeed_nil : tokensNeed [] = 0 := rfl

@[simp] theorem tokensNeed_cons (t : FdtToken) (ts : List FdtToken) :
    tokensNeed (t :: ts) = t.need + tokensNeed ts := List.sum_cons

@[simp] theorem tokensNeed_append (ts ts' : List FdtToken) :
    tokensNeed (ts ++ ts') = tokensNeed ts + tokensNeed ts' := by
  unfold tokensNeed
  rw [List.map_append, List.sum_append]

@[simp] theorem tokensNeed_props (props : List FdtProp) :
    tokensNeed (props.map .prop) = propsNeed props := by
  unfold tokensNeed propsNeed
  rw [List.map_map]
  rfl

/-- Source: none: infrastructure. Kind: L -/
theorem tokensNeed_concat (ts : List FdtToken) (t : FdtToken) :
    tokensNeed (ts ++ [t]) = tokensNeed ts + t.need := by
  simp

/-- Source: none: infrastructure. Kind: L -/
theorem LabelHeld.frame {name : CStr} {l : DtName × Option ArrayPtr} (h : LabelHeld b name l)
    (hf : BumpFrame b b') : LabelHeld b' name l := by
  unfold LabelHeld at h ⊢
  by_cases hroot : l.2 = none ∧ name.val = []
  · rw [if_pos hroot] at h ⊢
    exact h
  · rw [if_neg hroot] at h ⊢
    obtain ⟨p, hp, hholds⟩ := h
    exact ⟨p, hp, hholds.frame hf⟩

/-- Source: none: infrastructure. Kind: L -/
theorem PropHeld.frame {p : FdtProp} {q : DtProperty} (h : PropHeld b p q) (hf : BumpFrame b b') :
    PropHeld b' p q := by
  obtain ⟨hname, htype, len, value, hdata, hlen, hvalue⟩ := h
  exact ⟨hname.frame hf, htype, len, value, hdata, hlen, fun hne => (hvalue hne).frame hf⟩

/-- Source: none: infrastructure. Kind: L -/
theorem Reads.trans {off off₁ off₂ : ℕ} {ts ts' : List FdtToken} (h : Reads env off ts off₁)
    (h' : Reads env off₁ ts' off₂) : Reads env off (ts ++ ts') off₂ := by
  induction h with
  | nil _ => exact h'
  | nop hlex _ ih => exact .nop hlex (ih h')
  | tok hat _ ih => exact .tok hat (ih h')

/-- A last element that is filtered out.
Source: none: infrastructure
Kind: L -/
theorem filterMap_concat_none {α β : Type} {f : α → Option β} {a : α} (l : List α)
    (ha : f a = none) : (l ++ [a]).filterMap f = l.filterMap f := by
  rw [List.filterMap_append, List.filterMap_cons_none ha, List.filterMap_nil, List.append_nil]

/-- The label of a node that has been pushed, with its name in the buffer.
Source: `device_tree.c` `dt_initialize`
Kind: L -/
theorem labelHeld_beginNode {name : CStr} {nameBuf : Addr} {depth : ℕ} {curr : Option ArrayPtr}
    (hholds : BumpHolds b nameBuf (name.val ++ [0])) (hdepth : depth = 0 ↔ curr = none) :
    LabelHeld b name (if depth = 0 ∧ dtNameEmpty b.mem (.copied nameBuf) then .slash
      else .copied nameBuf, curr) := by
  have hempty := dtNameEmpty_iff hholds.1 name.property
  have hiff : (depth = 0 ∧ dtNameEmpty b.mem (.copied nameBuf) = true) ↔
      (curr = none ∧ name.val = []) := and_congr hdepth hempty
  unfold LabelHeld
  dsimp only
  by_cases hroot : curr = none ∧ name.val = []
  · rw [if_pos hroot, if_pos (hiff.mpr hroot)]
  · rw [if_neg hroot, if_neg fun hslash => hroot (hiff.mp hslash)]
    exact ⟨nameBuf, rfl, hholds⟩

/-- **One round**, if the token that it reads fits or is stopped.
Source: `device_tree.c` `dt_initialize`
Kind: P -/
theorem DtRecording.step (h : DtRecording env room s ts rest live stack)
    (hroom : ∀ tok off', FdtToken.At env s.off off' tok → tok.Fits s.bump ∨ tok.Stopped env s)
    (hstep : dtbStep env s = .ok s') :
    ∃ ts' rest' live' stack', ts' ++ rest' = ts ++ rest ∧
      DtRecording env room s' ts' rest' live' stack' := by
  obtain ⟨offEnd, hahead, hend⟩ := h.ahead
  -- what a round with a token that is not `FDT_NOP` leaves of the invariant
  have hround : ∀ {t off'}, dtLex env.structs s.off = .tok t off' → ∃ live' stack',
      dtReserveFor env s.resources t = .ok s'.resources ∧ DtInv s' live' stack' ∧ s'.off = off' ∧
        BumpOk s'.bump ∧ s'.bump.size = s.bump.size := by
    intro t off' hlex
    rcases dtbStep_tok h.inv h.aligned h.bump h.size hlex with ⟨stop, -, herror⟩ | ⟨r, -, -, herror⟩ |
      ⟨s₁, live', stack', hreserve, -, hok, hinv, hoff, hbump, hsize, -⟩
    · rw [hstep] at herror
      cases herror
    · rw [hstep] at herror
      cases herror
    · rw [hstep] at hok
      cases hok
      exact ⟨live', stack', hreserve, hinv, hoff, hbump, hsize⟩
  cases hahead with
  | nil =>
      rcases dtbStep_of_ending h.aligned hend with ⟨-, herror⟩ | ⟨token, -, herror⟩ | ⟨-, herror⟩ <;>
        rw [hstep] at herror <;> cases herror
  | @nop _ off₁ _ _ hlex hrest =>
      obtain ⟨live', stack', -, hinv, hoff, hbump, hsize⟩ := hround hlex
      have hs' := dtbStep_nop h.aligned hlex
      rw [hstep] at hs'
      cases hs'
      refine ⟨ts, rest, live', stack', rfl, hinv, (dtLex_tok_off hlex).2.2 h.aligned, hbump, h.size,
        h.room, h.nodesOk, h.propertiesOk, ?_, ⟨offEnd, hrest, hend⟩, h.nodes, h.properties⟩
      have hreads := h.reads.trans (Reads.nop hlex (.nil off₁))
      rwa [List.append_nil] at hreads
  | @tok _ off₁ _ tok rest hat hrest =>
      have hreads := h.reads.trans (Reads.tok hat (.nil off₁))
      have htokens : ts ++ [tok] ++ rest = ts ++ tok :: rest := by
        rw [List.append_assoc, List.singleton_append]
      have hgoes := hroom tok off₁ hat
      cases tok with
      | endNode =>
          obtain ⟨live', stack', -, hinv, hoff, hbump, hsize⟩ := hround hat
          rcases dtbStep_endNode h.inv h.aligned hat with ⟨-, herror⟩ | ⟨c, rest', -, hs', -⟩
          · rw [hstep] at herror
            cases herror
          rw [hstep] at hs'
          cases hs'
          refine ⟨ts ++ [.endNode], rest, live', stack', htokens, hinv,
            (dtLex_tok_off hat).2.2 h.aligned, hbump, h.size, ?_, h.nodesOk, h.propertiesOk, hreads,
            ⟨offEnd, hrest, hend⟩, ?_, ?_⟩
          · rw [tokensNeed_concat]
            exact h.room
          · rw [filterMap_concat_none _ rfl]
            exact h.nodes
          · rw [filterMap_concat_none _ rfl]
            exact h.properties
      | beginNode name =>
          obtain ⟨live', stack', -, hinv, hoff, hbump, hsize⟩ := hround hat
          obtain ⟨bump, nameBuf, nodes, halloc, rfl, hprops, hnodesOk, hlabels⟩ :=
            dtbStep_beginNode_labels h.aligned h.nodesOk hat hstep
          have hfits : name.val.length + 1 ≤ s.bump.room := by
            by_contra hno
            have hlen := dtLex_beginNode_length hat
            rw [dtbAllocNode_not_fits _ _ h.bump (by have := h.size; omega) hno] at halloc
            cases halloc
          obtain ⟨hholds, hframe, hleft⟩ := dtbAllocNode_fits h.bump hfits halloc
          have hdepth : s.depth = 0 ↔ s.curr = none := by
            rw [h.inv.curr, h.inv.depth, List.head?_eq_none_iff, List.length_eq_zero_iff]
          have hneed : FdtToken.need (.beginNode name) = name.val.length + 1 := rfl
          refine ⟨ts ++ [.beginNode name], rest, live', stack', htokens, hinv, ?_, hbump, ?_, ?_, hnodesOk,
            hprops ▸ h.propertiesOk, hoff ▸ hreads, ⟨offEnd, hoff ▸ hrest, hend⟩, ?_, ?_⟩
          · rw [hoff]
            exact (dtLex_tok_off hat).2.2 h.aligned
          · rw [hsize]
            exact h.size
          · rw [tokensNeed_concat, ← h.room, ← hleft, hneed]
            omega
          · rw [List.filterMap_append, hlabels]
            exact List.rel_append (h.nodes.imp fun _ _ hl => hl.frame hframe)
              (.cons (labelHeld_beginNode hholds hdepth) .nil)
          · rw [filterMap_concat_none _ rfl, hprops]
            exact h.properties.imp fun _ _ hq => hq.frame hframe
      | prop p =>
          obtain ⟨propLen, nameOffset, hlex, hlen, hname⟩ := hat
          obtain ⟨live', stack', -, hinv, hoff, hbump, hsize⟩ := hround hlex
          obtain ⟨bump, propName, propValue, properties, next, halloc, rfl, hlabels, hnodesOk,
            hpropertiesOk, hcontents⟩ := dtbStep_prop_contents h.aligned h.propertiesOk hlex hstep
          have hfits : p.need ≤ s.bump.room := by
            rcases hgoes with hfits | ⟨hfull, hgrants⟩
            · exact hfits
            · have hreserve := dtbAllocProperty_reserve halloc
              unfold arrayReserve at hreserve
              rw [if_pos hfull, hgrants] at hreserve
              cases hreserve
          obtain ⟨hholds, hvalue, hframe, hleft⟩ := dtbAllocProperty_fits h.bump hlen hname hfits halloc
          have hneed : FdtToken.need (.prop p) = p.need := rfl
          refine ⟨ts ++ [.prop p], rest, live', stack', htokens, hinv, ?_, hbump, ?_, ?_,
            hnodesOk h.nodesOk, hpropertiesOk, hoff ▸ hreads, ⟨offEnd, hoff ▸ hrest, hend⟩, ?_, ?_⟩
          · rw [hoff]
            exact (dtLex_tok_off hlex).2.2 h.aligned
          · rw [hsize]
            exact h.size
          · rw [tokensNeed_concat, ← h.room, ← hleft, hneed]
            omega
          · rw [filterMap_concat_none _ rfl, hlabels]
            exact h.nodes.imp fun _ _ hl => hl.frame hframe
          · rw [List.filterMap_append, hcontents]
            exact List.rel_append (h.properties.imp fun _ _ hq => PropHeld.frame hq hframe)
              (.cons ⟨hholds, rfl, propLen, propValue, rfl, hlen, hvalue⟩ .nil)

/-- The state in which the loop starts.
Source: `device_tree.c` `dt_initialize`
Kind: L -/
theorem dtRecording_init {bump : BumpAllocator} {t : FdtTree} (hblock : EncodesTree env t)
    (hbump : BumpOk bump) (hsize : bump.size.toNat + env.structs.length < 2 ^ 64) :
    DtRecording env bump.room (dtbInit bump) [] t.tokens [] [] := by
  obtain ⟨l, rest, hencodes, hstructs⟩ := hblock
  have hdrop : env.structs.drop 0 = l ++ (beU32 fdtEnd ++ rest) := hstructs
  obtain ⟨hreads, hend⟩ := hencodes.reads hdrop
  exact ⟨dtInv_init bump, rfl, hbump, hsize, rfl, arrayOk_init _, arrayOk_init _, .nil 0,
    ⟨_, hreads, dtLex_fdtEnd hend⟩, .nil, .nil⟩

/-- **A run** whose rounds that go on read tokens that fit or are stopped.
Source: `device_tree.c` `dt_initialize`
Kind: P -/
theorem DtRecording.reach {s₀ : DtState} {all : List FdtToken} (h₀ : DtRecording env room s₀ [] all [] [])
    (hroom : ∀ s s' ts rest live stack, DtReach env s₀ s → ts ++ rest = all →
      DtRecording env room s ts rest live stack → dtbStep env s = .ok s' → ∀ tok off',
      FdtToken.At env s.off off' tok → tok.Fits s.bump ∨ tok.Stopped env s)
    (hreach : DtReach env s₀ s) :
    ∃ ts rest live stack, ts ++ rest = all ∧ DtRecording env room s ts rest live stack := by
  induction hreach with
  | refl => exact ⟨[], all, [], [], rfl, h₀⟩
  | tail hbefore hstep ih =>
      obtain ⟨ts, rest, live, stack, rfl, hrec⟩ := ih
      obtain ⟨ts', rest', live', stack', htokens, hrec'⟩ :=
        hrec.step (hroom _ _ ts rest live stack hbefore rfl hrec hstep) hstep
      exact ⟨ts', rest', live', stack', htokens, hrec'⟩

/-- What is in the buffer is not `NULL`.
Source: none: infrastructure
Kind: L -/
theorem DtRecording.records (h : DtRecording env room s ts rest live stack) : DtRecords env s ts := by
  refine ⟨h.reads, ?_, ?_⟩
  · refine (List.forall₂_map_right_iff.mp h.nodes).imp fun name n hlabel => ?_
    unfold NameRecorded
    unfold LabelHeld at hlabel
    by_cases hroot : n.parent = none ∧ name.val = []
    · rw [if_pos hroot]
      rw [if_pos (show n.label.2 = none ∧ name.val = [] from hroot)] at hlabel
      exact hlabel
    · rw [if_neg hroot]
      rw [if_neg (show ¬ (n.label.2 = none ∧ name.val = []) from hroot)] at hlabel
      obtain ⟨p, hp, hholds⟩ := hlabel
      exact ⟨p, hp, BumpHolds.ne_zero hholds h.bump (List.concat_ne_nil _ _), hholds.1⟩
  · refine h.properties.imp fun p q hheld => ?_
    obtain ⟨hname, htype, len, value, hdata, hlen, hvalue⟩ := hheld
    have hnameNe := BumpHolds.ne_zero hname h.bump (List.concat_ne_nil _ _)
    exact ⟨hnameNe, hname.1, htype, len, value, hdata, hlen,
      fun hne => ⟨BumpHolds.ne_zero (hvalue hne) h.bump hne, (hvalue hne).1⟩⟩

/-- **A token that is stopped** ends the loop.
Source: `device_tree.c` `dtb_parse_node`, `dtb_parse_property`
Kind: L -/
theorem DtRecording.stopped (h : DtRecording env room s ts rest live stack) {tok : FdtToken} {off' : ℕ}
    (hat : tok.At env s.off off') (hfits : ¬ tok.Fits s.bump) (hstopped : tok.Stopped env s) :
    (∃ p, dtbStep env s = .error (.panic p)) ∨ dtbStep env s = .error .assertion := by
  cases tok with
  | endNode => exact absurd (Nat.zero_le _) hfits
  | beginNode name =>
      have hlen := dtLex_beginNode_length hat
      have halloc : dtbAllocNode env s.bump s.nodes s.allocs name.val =
          .error (if env.assertions = true then .assertion else .nullName) :=
        dtbAllocNode_not_fits s.nodes s.allocs h.bump (by have := h.size; omega) hfits
      rw [if_pos (show env.assertions = true from hstopped)] at halloc
      exact Or.inr (dtbStep_beginNode_error h.aligned hat halloc)
  | prop p =>
      obtain ⟨propLen, nameOffset, hlex, hlen, -⟩ := hat
      obtain ⟨hfull, hgrants⟩ := hstopped
      rcases dtbStep_prop h.inv h.aligned hlex with ⟨stop, halloc, hstep⟩ |
        ⟨bump, propName, propValue, properties, halloc, -⟩
      · obtain ⟨rfl, -⟩ := dtbAllocProperty_error hlen halloc
        exact Or.inl ⟨_, hstep⟩
      · have hreserve := dtbAllocProperty_reserve halloc
        unfold arrayReserve at hreserve
        rw [if_pos hfull, hgrants] at hreserve
        cases hreserve

/-- **A token without room that ends the loop with a panic or an assertion** is one that is stopped.
Source: `device_tree.c` `dtb_parse_node`, `dtb_parse_property`
Kind: L -/
theorem DtRecording.stopped_of_step (h : DtRecording env room s ts rest live stack) {tok : FdtToken}
    {off' : ℕ} (hat : tok.At env s.off off') (hfits : ¬ tok.Fits s.bump)
    (hstep : (∃ p, dtbStep env s = .error (.panic p)) ∨ dtbStep env s = .error .assertion) :
    tok.Stopped env s := by
  cases tok with
  | endNode => exact absurd (Nat.zero_le _) hfits
  | beginNode name =>
      have hlen := dtLex_beginNode_length hat
      have halloc : dtbAllocNode env s.bump s.nodes s.allocs name.val =
          .error (if env.assertions = true then .assertion else .nullName) :=
        dtbAllocNode_not_fits s.nodes s.allocs h.bump (by have := h.size; omega) hfits
      have herror := dtbStep_beginNode_error h.aligned hat halloc
      cases hassert : env.assertions with
      | true => exact hassert
      | false =>
          rw [hassert] at herror
          rcases hstep with ⟨p, hp⟩ | hp <;> rw [herror] at hp <;> cases hp
  | prop p =>
      obtain ⟨propLen, nameOffset, hlex, hlen, -⟩ := hat
      rcases dtbStep_prop h.inv h.aligned hlex with ⟨stop, halloc, -⟩ |
        ⟨bump, propName, propValue, properties, -, ⟨-, herror⟩ | ⟨c, stack', s', -, hok, -⟩⟩
      · exact (dtbAllocProperty_error hlen halloc).2
      · rcases hstep with ⟨p, hp⟩ | hp <;> rw [herror] at hp <;> cases hp
      · rcases hstep with ⟨p, hp⟩ | hp <;> rw [hok] at hp <;> cases hp

end run

section tree

variable {env : DtEnv} {bump : BumpAllocator} {t : FdtTree}

/-- Source: none: infrastructure. Kind: L -/
theorem tokensNeed_forest (f : FdtForest) : tokensNeed f.tokens = f.need := by
  induction f with
  | nil => rfl
  | node name props children rest ihChildren ihRest =>
      simp only [FdtForest.tokens, FdtForest.need, tokensNeed_cons, tokensNeed_append, tokensNeed_props,
        FdtToken.need, ihChildren, ihRest]
      omega

/-- Source: none: infrastructure. Kind: L -/
theorem tokensNeed_tree (t : FdtTree) : tokensNeed t.tokens = t.need := by
  simp only [FdtTree.tokens, FdtTree.need, tokensNeed_cons, tokensNeed_append, tokensNeed_props,
    tokensNeed_forest, tokensNeed_nil, FdtToken.need]
  omega

/-- What the loop reads where a token is.
Source: none: infrastructure
Kind: D -/
inductive FdtToken.Lexed (env : DtEnv) : DtToken → FdtToken → Prop
  | beginNode {bytes : List (BitVec 8)} {name : CStr} : bytes = name.val →
      Lexed env (.beginNode bytes) (.beginNode name)
  | endNode : Lexed env .endNode .endNode
  | prop {propLen nameOffset : BitVec 32} {value : List (BitVec 8)} {p : FdtProp} : value = p.value →
      CStringAt env.mem (env.strings + nameOffset.setWidth 64) p.name.val →
      Lexed env (.prop propLen nameOffset value) (.prop p)

/-- Source: none: infrastructure. Kind: L -/
theorem FdtToken.At.lexed {off off' : ℕ} {t : FdtToken} (h : t.At env off off') :
    ∃ tok, dtLex env.structs off = .tok tok off' ∧ t.Lexed env tok := by
  cases t with
  | beginNode name => exact ⟨_, h, .beginNode rfl⟩
  | endNode => exact ⟨_, h, .endNode⟩
  | prop p =>
      obtain ⟨propLen, nameOffset, hlex, -, hname⟩ := h
      exact ⟨_, hlex, .prop rfl hname⟩

/-- What two tokens at one place take.
Source: none: infrastructure
Kind: L -/
theorem FdtToken.At.need_eq {off off₁ off₂ : ℕ} {t t' : FdtToken} (h : t.At env off off₁)
    (h' : t'.At env off off₂) : t'.need = t.need := by
  obtain ⟨tok, hlex, htok⟩ := h.lexed
  obtain ⟨tok', hlex', htok'⟩ := h'.lexed
  rw [hlex] at hlex'
  cases hlex'
  cases htok with
  | endNode =>
      cases htok'
      rfl
  | beginNode hbytes =>
      cases htok' with
      | beginNode hbytes' => exact congrArg (·.length + 1) (hbytes'.symm.trans hbytes)
  | @prop _ _ _ p hvalue hname =>
      cases htok' with
      | @prop _ _ _ p' hvalue' hname' =>
          show p'.need = p.need
          unfold FdtProp.need
          rw [cstringAt_inj hname' hname p'.name.property p.name.property, ← hvalue', hvalue]

/-- Source: none: infrastructure. Kind: L -/
theorem Reads.eq_cons {off off₁ off' : ℕ} {ts : List FdtToken} {t : FdtToken}
    (h : Reads env off ts off') (hend : dtLex env.structs off' = .ending .fdtEnd)
    (hat : t.At env off off₁) : ∃ t' ts', ts = t' :: ts' ∧ t'.need = t.need := by
  cases h with
  | nil =>
      obtain ⟨tok, hlex, -⟩ := hat.lexed
      exact nomatch hend.symm.trans hlex
  | nop hnop _ =>
      obtain ⟨tok, hlex, htok⟩ := hat.lexed
      rw [hnop] at hlex
      cases hlex
      cases htok
  | tok hat' _ => exact ⟨_, _, rfl, hat.need_eq hat'⟩

/-- **With room for the whole tree every token fits**.
Source: `device_tree.c` `dtb_parse_node`, `dtb_parse_property`
Kind: L -/
theorem fits_of_room (hblock : EncodesTree env t) (hbump : BumpOk bump)
    (hsize : bump.size.toNat + env.structs.length < 2 ^ 64) (hroom : t.need ≤ bump.room) {s : DtState}
    (hs : DtReach env (dtbInit bump) s) {tok : FdtToken} {off' : ℕ}
    (hat : tok.At env s.off off') : tok.Fits s.bump := by
  have hfits : ∀ s ts rest live stack, ts ++ rest = t.tokens →
      DtRecording env bump.room s ts rest live stack → ∀ tok off', FdtToken.At env s.off off' tok →
      tok.Fits s.bump := by
    intro s ts rest live stack htokens hrec tok off' hat
    obtain ⟨offEnd, hahead, hend⟩ := hrec.ahead
    obtain ⟨tok', rest', rfl, hneed⟩ := hahead.eq_cons hend hat
    have htotal := tokensNeed_tree t
    rw [← htokens, tokensNeed_append, tokensNeed_cons, hneed] at htotal
    have hleft := hrec.room
    unfold FdtToken.Fits
    omega
  obtain ⟨ts, rest, live, stack, htokens, hrec⟩ := (dtRecording_init hblock hbump hsize).reach
    (fun s s' ts rest live stack _ htokens hrec _ tok off' hat =>
      Or.inl (hfits s ts rest live stack htokens hrec tok off' hat)) hs
  exact hfits s ts rest live stack htokens hrec tok off' hat

/-- The loop is safe if every token that it comes to fits or is stopped.
Source: `device_tree.c` `dt_initialize`
Kind: L -/
theorem spaceSafe_of_fits (hblock : EncodesTree env t) (hbump : BumpOk bump)
    (hsize : bump.size.toNat + env.structs.length < 2 ^ 64)
    (hfits : ∀ s, DtReach env (dtbInit bump) s → ∀ tok off', FdtToken.At env s.off off' tok →
      tok.Fits s.bump ∨ tok.Stopped env s) : SpaceSafe env bump t := by
  intro s hs
  obtain ⟨ts, rest, live, stack, htokens, hrec⟩ := (dtRecording_init hblock hbump hsize).reach
    (fun s _ _ _ _ _ hs _ _ _ => hfits s hs) hs
  refine ⟨⟨ts, ⟨rest, htokens⟩, hrec.records⟩, fun tok off' hat hno => ?_⟩
  exact hrec.stopped hat hno ((hfits s hs tok off' hat).resolve_left hno)

end tree

/-- **When running out of space is never recorded as data**: on a block that encodes a tree, exactly if
each token that the loop comes to has room for its strings or is stopped for another reason, the
`ASSERT` at a node and the panic of an array that cannot grow at a property.
Source: `device_tree.c` `dt_initialize`, `dtb_parse_node`, `dtb_parse_property`; `bump_allocator.c`
`bump_copy`, `bump_copy_string`; `assert.h` `ASSERT`
Kind: P
Hyps: the structure block encodes a tree; the bump allocator is in order, and its end and the structure
block's do not wrap round -/
theorem spaceSafe_iff (env : DtEnv) (bump : BumpAllocator) (t : FdtTree) (hblock : EncodesTree env t)
    (hbump : BumpOk bump) (hsize : bump.size.toNat + env.structs.length < 2 ^ 64) :
    SpaceSafe env bump t ↔
      ∀ s, DtReach env (dtbInit bump) s → ∀ tok off', FdtToken.At env s.off off' tok →
        tok.Fits s.bump ∨ tok.Stopped env s := by
  refine ⟨fun hsafe s hs tok off' hat => ?_, spaceSafe_of_fits hblock hbump hsize⟩
  have hroom : ∀ s s' ts rest live stack, DtReach env (dtbInit bump) s → ts ++ rest = t.tokens →
      DtRecording env bump.room s ts rest live stack → dtbStep env s = .ok s' → ∀ tok off',
      FdtToken.At env s.off off' tok → tok.Fits s.bump ∨ tok.Stopped env s := by
    intro s s' _ _ _ _ hs _ _ hok tok off' hat
    refine Or.inl (not_not.mp fun hfits => ?_)
    rcases (hsafe s hs).2 tok off' hat hfits with ⟨p, herror⟩ | herror <;> rw [hok] at herror <;>
      cases herror
  obtain ⟨ts, rest, live, stack, -, hrec⟩ := (dtRecording_init hblock hbump hsize).reach hroom hs
  refine or_iff_not_imp_left.mpr fun hfits => ?_
  exact hrec.stopped_of_step hat hfits ((hsafe s hs).2 tok off' hat hfits)

/-- The tree that is written out in `propEnv` fits.
Source: none: infrastructure
Kind: C -/
theorem spaceSafe_propEnv : SpaceSafe propEnv twoPageBump propTree :=
  (spaceSafe_iff propEnv twoPageBump propTree encodesTree_propEnv bumpOk_twoPageBump (by decide)).mpr
    fun _ hs _ _ hat => Or.inl
      (fits_of_room encodesTree_propEnv bumpOk_twoPageBump (by decide) (by decide) hs hat)

/-- A value that is recorded as `NULL` has no bytes.
Source: `device_tree.c` `struct dtPropRaw`
Kind: L -/
theorem DtRecords.eq_zero_of_null {env : DtEnv} {s : DtState} {ts : List FdtToken}
    (h : DtRecords env s ts) {q : DtProperty} (hq : q ∈ s.properties.contents) {len : BitVec 32}
    (hdata : q.data = .raw len 0) : len.toNat = 0 := by
  obtain ⟨i, hi, hget⟩ := List.getElem_of_mem hq
  have hi' : i < (ts.filterMap FdtToken.property).length := by
    rw [h.properties.length_eq]
    exact hi
  have hp := h.properties.get hi' hi
  rw [List.get_eq_getElem, List.get_eq_getElem, hget] at hp
  obtain ⟨len', value, hraw, hlen, hvalue⟩ := hp.value
  rw [hdata] at hraw
  cases hraw
  by_contra hne
  refine (hvalue fun hnil => hne ?_).1 rfl
  rw [hlen, hnil]
  rfl

/-- The states of the loop are reached.
Source: `device_tree.c` `dt_initialize`
Kind: L -/
theorem dtReach_loop (env : DtEnv) (n : ℕ) (s : DtState) : DtReach env s (dtbLoop env n s).2 := by
  induction n generalizing s with
  | zero => exact .refl
  | succ n ih =>
      unfold dtbLoop
      cases hstep : dtbStep env s with
      | error stop => exact .refl
      | ok s' => exact .head hstep (ih s')

/-- Source: none: infrastructure. Kind: L -/
theorem nul_not_mem_nil : (0 : BitVec 8) ∉ ([] : List (BitVec 8)) := List.not_mem_nil

/-- Source: none: infrastructure. Kind: L -/
theorem nul_not_mem_x : (0 : BitVec 8) ∉ [(120 : BitVec 8)] := by decide

/-- A root without a name that has the property `x`.
Source: none: infrastructure
Kind: D -/
def valueTree (value : List (BitVec 8)) : FdtTree :=
  ⟨⟨[], nul_not_mem_nil⟩, [⟨⟨[120], nul_not_mem_x⟩, value⟩], .nil⟩

/-- A block that encodes it for a value of two pages, with `x` in the strings block.
Source: none: infrastructure
Kind: D -/
def valueEnv (value : List (BitVec 8)) : DtEnv where
  structs := beU32 fdtBeginNode ++ ([] ++ 0 :: ([0, 0, 0] ++ (beU32 fdtProp ++ (beU32 8192 ++ (beU32 0 ++
    (value ++ ([] ++ (beU32 fdtEndNode ++ [])))))))) ++ (beU32 fdtEnd ++ [])
  mem := propEnv.mem
  strings := propEnv.strings
  assertions := true
  grants := fun _ => true

/-- Source: none: infrastructure. Kind: L -/
theorem encodesTree_valueEnv {value : List (BitVec 8)} (hlen : value.length = 8192) :
    EncodesTree (valueEnv value) (valueTree value) := by
  refine ⟨_, [], ?_, rfl⟩
  have hpad : value.length + 0 = alignUpU32 value.length := by
    rw [hlen]
    rfl
  have hprop : Encodes (valueEnv value) [.prop ⟨⟨[120], nul_not_mem_x⟩, value⟩, .endNode]
      (beU32 fdtProp ++ (beU32 8192 ++ (beU32 0 ++ (value ++ ([] ++ (beU32 fdtEndNode ++ [])))))) :=
    .prop hlen.symm cstringAt_propEnv hpad (.endNode .nil)
  have hroot : Encodes (valueEnv value)
      (.beginNode ⟨[], nul_not_mem_nil⟩ :: [.prop ⟨⟨[120], nul_not_mem_x⟩, value⟩, .endNode])
      (beU32 fdtBeginNode ++ ([] ++ 0 :: ([0, 0, 0] ++ _))) := .beginNode rfl hprop
  exact hroot

/-- **A value that does not fit** is recorded as `NULL`, with its length.
Source: `device_tree.c` `dtb_parse_property`
Kind: C -/
theorem not_spaceSafe_longValue :
    EncodesTree (valueEnv (List.replicate 8192 0)) (valueTree (List.replicate 8192 0)) ∧
      (∃ s, DtReach (valueEnv (List.replicate 8192 0)) (dtbInit twoPageBump) s ∧
        ∃ q ∈ s.properties.contents, q.data = .raw 8192 0) ∧
      ¬ SpaceSafe (valueEnv (List.replicate 8192 0)) twoPageBump
        (valueTree (List.replicate 8192 0)) := by
  have hrecorded : (dtbLoop (valueEnv (List.replicate 8192 0)) 2
      (dtbInit twoPageBump)).2.properties.contents.any
        (fun q => decide (q.data = .raw 8192 0)) = true := by decide +kernel
  obtain ⟨q, hq, hdata⟩ := List.any_eq_true.mp hrecorded
  have hdata := of_decide_eq_true hdata
  have hreach := dtReach_loop (valueEnv (List.replicate 8192 0)) 2 (dtbInit twoPageBump)
  refine ⟨encodesTree_valueEnv List.length_replicate, ⟨_, hreach, q, hq, hdata⟩, fun hsafe => ?_⟩
  obtain ⟨⟨ts, -, hrecords⟩, -⟩ := hsafe _ hreach
  exact absurd (hrecords.eq_zero_of_null hq hdata) (by decide)

end Octiron.Kernel
