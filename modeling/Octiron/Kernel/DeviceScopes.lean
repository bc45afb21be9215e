import Octiron.Kernel.DeviceHeap
import Octiron.Kernel.DeviceStrings

/-!
# Which cell counts govern a node

The properties `#address-cells` and `#size-cells` of a node say how the addresses of its subnodes are
written. A node without one leaves the count of the nearest node above that has it.

* `FdtProp.kind` — what the rewrite pass takes a property for, by its name (`propNameAt_eq`).
* `cellCount`, `governing` — the count that a node has, and the counts from the nodes above, the nearest
  first; at the top they are 2 and 1. `governing_cons` is one more node, as the pass goes through its
  properties (`DtCells.after`).
* `PlacedForest` — nodes with the places of their nodes and properties in memory, and
  `PlacedForest.scoped`, each node with the properties of those above it.
* `PlacedForest.At` — the nodes are at these places. Changes elsewhere keep it (`PlacedForest.At.frame`).
* **Main result** (`governing_perm`): the order of the properties inside the nodes does not count.
-/

namespace Octiron.Kernel

open Octiron.Found
open Octiron.Found.Mem
open Octiron.Kzadhbat

/-! ## Properties by name -/

/-- What the pass takes a property for.
Source: `device_tree.c` `dtb_recursive_property_rewrite`
Kind: D -/
def FdtProp.kind (p : FdtProp) : DtPropName := firstNamed fun name => p.name.val = ascii name

/-- The first four bytes of the value as a big-endian number.
Source: `bitmacros.h` `READ_BIG_ENDIAN_U32`
Kind: D -/
def FdtProp.word (p : FdtProp) : BitVec 32 := BitVec.ofNat 32 (beNat (p.value.take 4))

section names

variable {m : Mem} {q : Addr}

/-- `strcmp` with a literal.
Source: `impl.c` `strcmp`
Kind: L -/
theorem strcmpEq_eq {s str : List (BitVec 8)} (h : CStringAt m q s) (hs : 0 ∉ s) (hstr : 0 ∉ str) :
    strcmpEq m q str = decide (s = str) := by
  have hat : strcmpEq m q str = true ↔ CStringAt m q str := by
    unfold strcmpEq CStringAt BytesAt
    simp only [List.all_eq_true, List.mem_range, decide_eq_true_eq]
    constructor
    · intro hall i b hb
      have hlt := (List.getElem?_eq_some_iff.mp hb).1
      rw [List.length_append, List.length_singleton] at hlt
      rw [hall i hlt, List.getD_eq_getElem?_getD, hb]
      rfl
    · intro hall i hi
      have hlt : i < (str ++ [0]).length := by
        rw [List.length_append, List.length_singleton]
        exact hi
      rw [List.getD_eq_getElem?_getD, List.getElem?_eq_getElem hlt]
      exact hall i _ (List.getElem?_eq_getElem hlt)
  by_cases heq : s = str
  · rw [decide_eq_true heq, hat, ← heq]
    exact h
  · rw [decide_eq_false heq, ← Bool.not_eq_true, hat]
    exact fun hstrAt => heq (cstringAt_inj h hstrAt hs hstr)

/-- `firstNamed` only asks for twelve names, which have no zero byte.
Source: none: infrastructure
Kind: L -/
theorem firstNamed_congr {named named' : String → Bool}
    (h : ∀ name, 0 ∉ ascii name → named name = named' name) : firstNamed named = firstNamed named' := by
  unfold firstNamed
  rw [h "compatible" (by decide), h "model" (by decide), h "phandle" (by decide),
    h "linux,phandle" (by decide), h "status" (by decide), h "#address-cells" (by decide),
    h "#size-cells" (by decide), h "dma-coherent" (by decide), h "dma-noncoherent" (by decide),
    h "device_type" (by decide), h "reg" (by decide), h "ranges" (by decide),
    h "dma-ranges" (by decide)]

/-- **The name in memory** is that of the block.
Source: `device_tree.c` `dtb_recursive_property_rewrite`
Kind: L -/
theorem propNameAt_eq {p : FdtProp} (h : CStringAt m q p.name.val) : propNameAt m q = p.kind :=
  firstNamed_congr fun _ hname => strcmpEq_eq h p.name.property hname

/-- The name of a property, for those that have one name only.
Source: `device_tree.c` `dtb_recursive_property_rewrite`
Kind: D -/
def DtPropName.text : DtPropName → Option String
  | .compatible => some "compatible"
  | .model => some "model"
  | .status => some "status"
  | .addressCells => some "#address-cells"
  | .sizeCells => some "#size-cells"
  | .dmaCoherent => some "dma-coherent"
  | .dmaNoncoherent => some "dma-noncoherent"
  | .deviceType => some "device_type"
  | .reg => some "reg"
  | .ranges => some "ranges"
  | .dmaRanges => some "dma-ranges"
  | .phandle => none
  | .other => none

/-- Source: none: infrastructure. Kind: L -/
theorem ite_eq_cases {α : Type} {c : Prop} [Decidable c] {x y z : α} (h : (if c then x else y) = z) :
    (c ∧ x = z) ∨ y = z := by
  by_cases hc : c
  · rw [if_pos hc] at h
    exact Or.inl ⟨hc, h⟩
  · rw [if_neg hc] at h
    exact Or.inr h

/-- The branch that `firstNamed` takes was asked for by its name.
Source: `device_tree.c` `dtb_recursive_property_rewrite`
Kind: L -/
theorem firstNamed_text {named : String → Bool} {k : DtPropName} {text : String}
    (hk : k.text = some text) (h : firstNamed named = k) : named text = true := by
  unfold firstNamed at h
  -- one branch of the chain after the other
  iterate 12
    rcases ite_eq_cases h with ⟨hnamed, rfl⟩ | h
    · cases hk <;> exact hnamed
  subst h
  cases hk

/-- **A property is known by its name**.
Source: `device_tree.c` `dtb_recursive_property_rewrite`
Kind: L -/
theorem FdtProp.kind_eq_iff {p : FdtProp} {k : DtPropName} {text : String} (hk : k.text = some text) :
    p.kind = k ↔ p.name.val = ascii text := by
  refine ⟨fun h => of_decide_eq_true (firstNamed_text hk h), fun h => ?_⟩
  unfold FdtProp.kind
  rw [h]
  cases k
  all_goals
    cases hk
  all_goals decide

/-- `READ_BIG_ENDIAN_U32` of a value of four bytes or more.
Source: `bitmacros.h` `READ_BIG_ENDIAN_U32`
Kind: L -/
theorem readU32At_eq {p : FdtProp} (hlen : 4 ≤ p.value.length) (h : BytesAt m q p.value) :
    readU32At m q = p.word := by
  have hbytes : bytes m q 4 = p.value.take 4 := by
    have hsplit := bytes_add m q 4 (p.value.length - 4)
    rw [Nat.add_sub_cancel' hlen, BytesAt.bytes h] at hsplit
    rw [hsplit, List.take_left' (length_bytes m q 4)]
  apply BitVec.eq_of_toNat_eq
  have hnat : (readU32At m q).toNat = beNat (p.value.take 4) := by
    rw [toNat_eq_leNat (k := 4) (readU32At m q)]
    unfold readU32At beNat
    rw [wordBytes_readBigEndianU32, hbytes]
  unfold FdtProp.word
  rw [hnat, BitVec.toNat_ofNat, ← hnat, Nat.mod_eq_of_lt (readU32At m q).isLt]

end names

/-! ## Counts -/

/-- The count that a node with these properties has; they are in the order of the list in memory, of which
the last counts.
Source: `device_tree.c` `dtb_recursive_property_rewrite`
Kind: D -/
def cellCount (name : String) (props : List FdtProp) : Option (BitVec 32) :=
  (props.reverse.find? fun p => p.name.val = ascii name).map FdtProp.word

/-- **The counts below nodes with these properties**, the nearest node first; `dt_initialize` starts with 2
and 1.
Source: `device_tree.c` `dtb_recursive_property_rewrite`, `dt_initialize`
Kind: D -/
def governing (above : List (List FdtProp)) : DtCells where
  address := (above.findSome? (cellCount "#address-cells")).getD 2
  size := (above.findSome? (cellCount "#size-cells")).getD 1

/-- The counts after one more property.
Source: `device_tree.c` `dtb_recursive_property_rewrite`
Kind: D -/
def DtCells.after (cells : DtCells) (p : FdtProp) : DtCells :=
  if p.name.val = ascii "#address-cells" then { cells with address := p.word }
  else if p.name.val = ascii "#size-cells" then { cells with size := p.word }
  else cells

/-- No two properties of a node have one name.
Source: none: infrastructure
Kind: D -/
def NamesApart (props : List FdtProp) : Prop := (props.map FdtProp.name).Nodup

section counts

variable {name : String} {props props' : List FdtProp} {above above' : List (List FdtProp)}

@[simp] theorem governing_nil : governing [] = ⟨2, 1⟩ := rfl

/-- Source: none: infrastructure. Kind: L -/
theorem NamesApart.perm (h : NamesApart props) (hperm : props.Perm props') : NamesApart props' :=
  ((hperm.map FdtProp.name).nodup_iff).mp h

/-- Source: none: infrastructure. Kind: L -/
theorem governing_cons (props : List FdtProp) (above : List (List FdtProp)) :
    governing (props :: above) =
      ⟨(cellCount "#address-cells" props).getD (governing above).address,
        (cellCount "#size-cells" props).getD (governing above).size⟩ := by
  unfold governing
  rw [List.findSome?_cons, List.findSome?_cons]
  cases cellCount "#address-cells" props <;> cases cellCount "#size-cells" props <;> rfl

/-- **Going through the properties of a node** gives the counts for its subnodes: by induction on the
list in the other direction, in which the first property with a name counts.
Source: `device_tree.c` `dtb_recursive_property_rewrite`
Kind: L -/
theorem foldl_after (props : List FdtProp) (cells : DtCells) :
    props.foldl DtCells.after cells =
      ⟨(cellCount "#address-cells" props).getD cells.address,
        (cellCount "#size-cells" props).getD cells.size⟩ := by
  rw [← List.foldr_reverse]
  unfold cellCount
  generalize props.reverse = l
  induction l with
  | nil => rfl
  | cons p l ih =>
      have hnames : ascii "#address-cells" ≠ ascii "#size-cells" := by decide
      rw [List.foldr_cons, ih, List.find?_cons, List.find?_cons]
      unfold DtCells.after
      by_cases ha : p.name.val = ascii "#address-cells"
      · have hz : p.name.val ≠ ascii "#size-cells" := fun hz => hnames (ha.symm.trans hz)
        rw [if_pos ha, decide_eq_true ha, decide_eq_false hz]
        rfl
      · rw [if_neg ha, decide_eq_false ha]
        by_cases hz : p.name.val = ascii "#size-cells"
        · rw [if_pos hz, decide_eq_true hz]
          rfl
        · rw [if_neg hz, decide_eq_false hz]

/-- The counts of a node with these properties.
Source: `device_tree.c` `dtb_recursive_property_rewrite`
Kind: L -/
theorem foldl_after_governing (props : List FdtProp) (above : List (List FdtProp)) :
    props.foldl DtCells.after (governing above) = governing (props :: above) := by
  rw [foldl_after, governing_cons]

end counts

/-! ## Places -/

/-- **Nodes with their places**: a list of nodes as in `FdtForest`, with the pointers to its nodes and, in
the order of the lists in memory, to its properties.
Source: `device_tree.c` `struct dtNode`, `struct dtProperty`
Kind: D -/
inductive PlacedForest
  | nil
  | node (ptr : ArrayPtr) (name : CStr) (props : List (ArrayPtr × FdtProp))
      (children rest : PlacedForest)

/-- The nodes without their places.
Source: none: infrastructure
Kind: D -/
def PlacedForest.forest : PlacedForest → FdtForest
  | .nil => .nil
  | .node _ name props children rest =>
      .node name (props.map Prod.snd).reverse children.forest rest.forest

/-- Source: none: infrastructure. Kind: D -/
def PlacedForest.nodes : PlacedForest → List ArrayPtr
  | .nil => []
  | .node ptr _ _ children rest => ptr :: (children.nodes ++ rest.nodes)

/-- Source: none: infrastructure. Kind: D -/
def PlacedForest.properties : PlacedForest → List ArrayPtr
  | .nil => []
  | .node _ _ props children rest =>
      props.map Prod.fst ++ (children.properties ++ rest.properties)

/-- **A node and its surroundings**: its properties, and those of the nodes above it, the nearest first.
Source: none: infrastructure
Kind: D -/
structure ScopedNode where
  ptr : ArrayPtr
  props : List (ArrayPtr × FdtProp)
  above : List (List FdtProp)

/-- The counts that govern the node.
Source: none: infrastructure
Kind: D -/
def ScopedNode.cells (n : ScopedNode) : DtCells := governing n.above

/-- The counts of the node, which govern its subnodes.
Source: none: infrastructure
Kind: D -/
def ScopedNode.own (n : ScopedNode) : DtCells := governing (n.props.map Prod.snd :: n.above)

/-- The nodes, each before its subnodes.
Source: none: infrastructure
Kind: D -/
def PlacedForest.scoped : List (List FdtProp) → PlacedForest → List ScopedNode
  | _, .nil => []
  | above, .node ptr _ props children rest =>
      ⟨ptr, props, above⟩ :: (children.scoped (props.map Prod.snd :: above) ++ rest.scoped above)

/-- The list of properties at `head` is at these places.
Source: `device_tree.c` `struct dtProperty`
Kind: D -/
def PropsAt (h : DtHeap) : Option ArrayPtr → List (ArrayPtr × FdtProp) → Prop
  | head, [] => head = none
  | head, (q, p) :: props => head = some q ∧ PropRep h p q ∧ PropsAt h (h.properties q).next props

/-- **The nodes from `head` on are at these places**.
Source: `device_tree.c` `struct dtNode`
Kind: D -/
def PlacedForest.At (h : DtHeap) : Option ArrayPtr → PlacedForest → Prop
  | head, .nil => head = none
  | head, .node ptr _ props children rest =>
      head = some ptr ∧ PropsAt h (h.nodes ptr).properties props ∧
        children.At h (h.nodes ptr).children ∧ rest.At h (h.nodes ptr).sibling

/-- What does not change: the links of the nodes, the properties at `ps`, and what has been copied.
Source: none: infrastructure
Kind: D -/
structure PlaceFrame (h h' : DtHeap) (ps : List ArrayPtr) : Prop where
  links : ∀ p, (h'.nodes p).properties = (h.nodes p).properties ∧
    (h'.nodes p).children = (h.nodes p).children ∧ (h'.nodes p).sibling = (h.nodes p).sibling
  properties : ∀ q ∈ ps, h'.properties q = h.properties q
  bump : BumpFrame h.bump h'.bump

section places

variable {h h' : DtHeap} {ns ps ps' : List ArrayPtr} {head : Option ArrayPtr}

/-- Source: none: infrastructure. Kind: L -/
theorem PlaceFrame.mono (hf : PlaceFrame h h' ps) (hps : ps' ⊆ ps) : PlaceFrame h h' ps' :=
  ⟨hf.links, fun q hq => hf.properties q (hps hq), hf.bump⟩

/-- Source: none: infrastructure. Kind: L -/
theorem PropRep.frame {p : FdtProp} {q : ArrayPtr} (hp : PropRep h p q)
    (hsame : h'.properties q = h.properties q) (hbump : BumpFrame h.bump h'.bump) : PropRep h' p q := by
  obtain ⟨hname, htype, len, value, hdata, hlen, hvalue⟩ := hp
  unfold PropRep
  rw [hsame]
  exact ⟨hname.frame hbump, htype, len, value, hdata, hlen, fun hne => (hvalue hne).frame hbump⟩

/-- Source: none: infrastructure. Kind: L -/
theorem PropsAt.frame {props : List (ArrayPtr × FdtProp)} (hp : PropsAt h head props)
    (hprops : ∀ q ∈ props.map Prod.fst, h'.properties q = h.properties q)
    (hbump : BumpFrame h.bump h'.bump) : PropsAt h' head props := by
  induction props generalizing head with
  | nil => exact hp
  | cons x props ih =>
      obtain ⟨hhead, hrep, hnext⟩ := hp
      obtain ⟨hsame, htail⟩ := List.forall_mem_cons.mp hprops
      refine ⟨hhead, hrep.frame hsame hbump, ?_⟩
      rw [hsame]
      exact ih hnext htail

/-- **Changes elsewhere**.
Source: none: infrastructure
Kind: L -/
theorem PlacedForest.At.frame {f : PlacedForest} (hf : f.At h head)
    (hframe : PlaceFrame h h' f.properties) : f.At h' head := by
  induction f generalizing head with
  | nil => exact hf
  | node ptr name props children rest ihChildren ihRest =>
      obtain ⟨hhead, hprops, hchildren, hrest⟩ := hf
      obtain ⟨hlinkProps, hlinkChildren, hlinkSibling⟩ := hframe.links ptr
      unfold PlacedForest.At
      rw [hlinkProps, hlinkChildren, hlinkSibling]
      refine ⟨hhead, hprops.frame (fun q hq => hframe.properties q (List.mem_append_left _ hq))
        hframe.bump, ihChildren hchildren (hframe.mono fun q hq => ?_),
        ihRest hrest (hframe.mono fun q hq => ?_)⟩
      · exact List.mem_append_right _ (List.mem_append_left _ hq)
      · exact List.mem_append_right _ (List.mem_append_right _ hq)

/-- The places of the properties of a node.
Source: none: infrastructure
Kind: L -/
theorem PropsRep.exists_placed {props : List FdtProp} (hp : PropsRep h ps head props) :
    ∃ placed : List (ArrayPtr × FdtProp), placed.map Prod.snd = props ∧ PropsAt h head placed ∧
      placed.map Prod.fst ⊆ ps := by
  induction props generalizing head with
  | nil => exact ⟨[], rfl, hp, List.nil_subset _⟩
  | cons p props ih =>
      obtain ⟨q, hhead, hq, hrep, hnext⟩ := hp
      obtain ⟨placed, hplaced, hat, hsub⟩ := ih hnext
      refine ⟨(q, p) :: placed, congrArg (p :: ·) hplaced, ⟨hhead, hrep, hat⟩, ?_⟩
      exact List.cons_subset.mpr ⟨hq, hsub⟩

/-- **The places of the nodes**.
Source: none: infrastructure
Kind: L -/
theorem ForestRep.exists_placed {f : FdtForest} (hf : ForestRep h ns ps head f) :
    ∃ placed : PlacedForest, placed.forest = f ∧ placed.At h head ∧ placed.nodes ⊆ ns ∧
      placed.properties ⊆ ps := by
  induction f generalizing head with
  | nil => exact ⟨.nil, rfl, hf, List.nil_subset _, List.nil_subset _⟩
  | node name props children rest ihChildren ihRest =>
      obtain ⟨q, hhead, hq, -, hprops, hchildren, hrest⟩ := hf
      obtain ⟨placed, hplaced, hat, hsub⟩ := hprops.exists_placed
      obtain ⟨children', rfl, hatChildren, hnodes, hproperties⟩ := ihChildren hchildren
      obtain ⟨rest', rfl, hatRest, hnodes', hproperties'⟩ := ihRest hrest
      refine ⟨.node q name placed children' rest', ?_, ⟨hhead, hat, hatChildren, hatRest⟩, ?_, ?_⟩
      · show FdtForest.node name (placed.map Prod.snd).reverse _ _ = _
        rw [hplaced, List.reverse_reverse]
      · exact List.cons_subset.mpr ⟨hq, List.append_subset.mpr ⟨hnodes, hnodes'⟩⟩
      · exact List.append_subset.mpr ⟨hsub, List.append_subset.mpr ⟨hproperties, hproperties'⟩⟩

end places

end Octiron.Kernel
