import Octiron.Kernel.DeviceFlatten
import Octiron.Kernel.DevicePlaces
import Octiron.Kernel.DeviceVerdict

/-!
# From the blob to the decoded tree

Both passes of `dt_initialize` over a structure block that encodes a tree: the code is a decoder, and
`FdtForest.decode` says of what.

* `ValuesAt`, `DecodedForest.At` — the nodes of the kernel have this meaning.
* `DtbGiven` — what the passes are given.
* `rangesDecode_exact` — when a `ranges` is decoded with the right counts.
* **Main result** (`dtbDecodes`): after the two passes the kernel has the meaning of the tree, or the pass
  has stopped at the first value that has none.
-/

namespace Octiron.Kernel

open Octiron.Found
open Octiron.Found.Mem
open Octiron.Kzadhbat

/-! ## Nodes of the kernel -/

/-- The properties from `head` on have these names and meanings.
Source: `device_tree.c` `struct dtProperty`
Kind: D -/
def ValuesAt (s : DtState) (cells : DtCells) : Option ArrayPtr → List (CStr × FdtValue) → Prop
  | head, [] => head = none
  | head, (name, v) :: values => ∃ q, head = some q ∧
      CStringAt s.bump.mem (s.properties.cells q).name name.val ∧
      ValueAt s.bump.mem cells (s.properties.cells q).type (s.properties.cells q).data v ∧
      ValuesAt s cells (s.properties.cells q).next values

/-- **The nodes from `head` on have this meaning**; a root without a name has the name `"/"`.
Source: `device_tree.c` `struct dtNode`
Kind: D -/
def DecodedForest.At (s : DtState) : Bool → Option ArrayPtr → DecodedForest → Prop
  | _, head, .nil => head = none
  | root, head, .node name cells values children rest => ∃ p, head = some p ∧
      NameRep s.heap root name (s.nodes.cells p).name ∧ (s.nodes.cells p).cells = cells ∧
      ValuesAt s cells (s.nodes.cells p).properties values ∧
      children.At s false (s.nodes.cells p).children ∧ rest.At s root (s.nodes.cells p).sibling

/-- The nodes have their names.
Source: `device_tree.c` `struct dtNode`
Kind: D -/
def PlacedForest.Named (h : DtHeap) : Bool → PlacedForest → Prop
  | _, .nil => True
  | root, .node ptr name _ children rest =>
      NameRep h root name (h.nodes ptr).name ∧ children.Named h false ∧ rest.Named h root

section nodes

variable {assertions : Bool} {s s' : DtState} {root : ArrayPtr} {head : Option ArrayPtr}
  {above : List (List FdtProp)} {f : PlacedForest} {d : DecodedForest}

/-- Source: none: infrastructure. Kind: L -/
theorem ForestRep.named {h : DtHeap} {ns ps : List ArrayPtr} (hrep : ForestRep h ns ps head f.forest)
    (hat : f.At h head) : f.Named h false := by
  induction f generalizing head with
  | nil => trivial
  | node ptr name props children rest ihChildren ihRest =>
      obtain ⟨rfl, -, hatChildren, hatRest⟩ := hat
      obtain ⟨q, hq, -, hname, -, hchildren, hrest⟩ := hrep
      cases hq
      exact ⟨hname, ihChildren hchildren hatChildren, ihRest hrest hatRest⟩

/-- **What the pass leaves alone**.
Source: `device_tree.c` `dt_initialize`
Kind: L -/
theorem DtPlaced.frame (h : DtPlaced s root f) (hrewrite : dtbRewrite assertions s root = .ok s') :
    PassFrame s s' f.nodes f.properties := by
  obtain ⟨heq, hchecked⟩ := dtbRewrite_eq assertions h
  rw [heq] at hrewrite
  obtain ⟨htouched, htouched'⟩ := f.filterMap_steps []
  have hframe := runSteps_frame (h.steps_ready (hchecked s' hrewrite))
    (by rw [htouched']; exact h.properties) h.bump h.size hrewrite
  rw [htouched, htouched'] at hframe
  exact hframe

/-- The properties of a node after the pass.
Source: `device_tree.c` `dtb_recursive_property_rewrite`
Kind: L -/
theorem valuesAt_of_rounds {cells : DtCells} {props : List (ArrayPtr × FdtProp)}
    {values : List (CStr × FdtValue)} (hat : PropsAt s.heap head props) (hlinks : SameLinks s s')
    (hbump : BumpFrame s.bump s'.bump) (hbig : s.bump.size.toNat ≤ 2 ^ 63) (hcells : cells.Bounded)
    (hshaped : ∀ p ∈ props.map Prod.snd, p.Shaped cells)
    (hrounds : ∀ x ∈ props, DtRound assertions s s' cells x.1)
    (hdecode : (props.map Prod.snd).mapM (FdtProp.decodeNamed cells) = .ok values) :
    ValuesAt s' cells head values := by
  induction props generalizing head values with
  | nil =>
      cases hdecode
      exact hat
  | cons x props ih =>
      obtain ⟨q, p⟩ := x
      obtain ⟨rfl, hheld, hnext⟩ := hat
      obtain ⟨hround, hrounds'⟩ := List.forall_mem_cons.mp hrounds
      obtain ⟨hshape, hshaped'⟩ := List.forall_mem_cons.mp hshaped
      obtain ⟨y, vs, hone, hrest, rfl⟩ := List.forall₂_cons_left_iff.mp (mapM_ok_iff.mp hdecode)
      obtain ⟨v, hv, rfl⟩ := except_map_ok hone
      obtain ⟨t, d, hsame⟩ := hlinks.property q
      have hlink : (s'.properties.cells q).next = (s.properties.cells q).next := by rw [hsame]
      have hname : (s'.properties.cells q).name = (s.properties.cells q).name := by rw [hsame]
      obtain ⟨b, b', t', d', hok, hbefore, hrun, hafter, hcell⟩ := hround
      refine ⟨q, rfl, ?_, ?_, ?_⟩
      · rw [hname]
        exact (hheld.1.frame hbump).1
      · rw [hcell]
        exact valueAt_of_rewrite hok (by rw [hbefore.size]; exact hbig) hcells
          (PropHeld.frame hheld hbefore) hshape hv hrun hafter
      · rw [hlink]
        exact ih hnext hshaped' hrounds' (mapM_ok_iff.mpr hrest)

/-- **The nodes after the pass**: by induction on the nodes.
Source: `device_tree.c` `dtb_recursive_property_rewrite`
Kind: L -/
theorem PlacedForest.decoded_at {isRoot : Bool} (hat : f.At s.heap head) (hnamed : f.Named s.heap isRoot)
    (hlinks : SameLinks s s') (hbump : BumpFrame s.bump s'.bump) (hbig : s.bump.size.toNat ≤ 2 ^ 63)
    (hshaped : f.forest.Shaped above)
    (hrounds : ∀ n ∈ f.scoped above, n.cells.Bounded ∧ (s'.nodes.cells n.ptr).cells = n.cells ∧
      ∀ x ∈ n.props, DtRound assertions s s' n.cells x.1)
    (hdecode : f.forest.decode above = .ok d) : d.At s' isRoot head := by
  induction f generalizing head above d isRoot with
  | nil =>
      cases hdecode
      exact hat
  | node ptr name props children rest ihChildren ihRest =>
      obtain ⟨rfl, hprops, hchildren, hrest⟩ := hat
      obtain ⟨hname, hnamedChildren, hnamedRest⟩ := hnamed
      rw [PlacedForest.forest, FdtForest.Shaped, List.reverse_reverse] at hshaped
      obtain ⟨hshapedProps, hshapedChildren, hshapedRest⟩ := hshaped
      rw [PlacedForest.scoped, List.forall_mem_cons, List.forall_mem_append] at hrounds
      obtain ⟨⟨hbounded, hcells, hroundsProps⟩, hroundsChildren, hroundsRest⟩ := hrounds
      obtain ⟨values, decoded, decodedRest, hvalues, hdecoded, hdecodedRest, rfl⟩ :=
        FdtForest.decode_node_ok.mp hdecode
      rw [List.reverse_reverse] at hvalues hdecoded
      obtain ⟨a, z, hsame⟩ := hlinks.node ptr
      refine ⟨ptr, rfl, ?_, hcells, ?_, ?_, ?_⟩
      · rw [hsame]
        exact hname.frame hbump
      · rw [hsame]
        exact valuesAt_of_rounds hprops hlinks hbump hbig hbounded hshapedProps hroundsProps hvalues
      · rw [hsame]
        exact ihChildren hchildren hnamedChildren hshapedChildren hroundsChildren hdecoded
      · rw [hsame]
        exact ihRest hrest hnamedRest hshapedRest hroundsRest hdecodedRest

/-- **A parsed tree after the pass**, with or without assertions.
Source: `device_tree.c` `dt_initialize`
Kind: P -/
theorem DtPlaced.decoded (h : DtPlaced s root f) (hnamed : f.Named s.heap true)
    (hshaped : f.forest.Shaped []) (hrewrite : dtbRewrite assertions s root = .ok s')
    (hdecode : f.forest.decode [] = .ok d) : d.At s' true (some root) := by
  have hframe := h.frame hrewrite
  exact PlacedForest.decoded_at h.places hnamed hframe.links hframe.bump h.size hshaped
    (h.rounds hrewrite) hdecode

end nodes

/-! ## Both passes -/

/-- **What the passes need**: a block that encodes the tree, allocations that succeed, and room for the
copies and the numbers; the values have the shapes that are read.
Source: `device_tree.c` `dt_initialize`
Kind: D -/
structure DtbGiven (env : DtEnv) (bump : BumpAllocator) (t : FdtTree) : Prop where
  block : EncodesTree env t
  grants : ∀ k, env.grants k = true
  ok : BumpOk bump
  size : bump.size.toNat + env.structs.length < 2 ^ 64
  big : bump.size.toNat ≤ 2 ^ 63
  shaped : t.forest.Shaped []
  room : t.need + t.forest.space [] ≤ bump.room

section passes

variable {env : DtEnv} {bump : BumpAllocator} {t : FdtTree} {s : DtState} {f : PlacedForest}
  {root : ArrayPtr} {above : List (List FdtProp)}

/-- Source: none: infrastructure. Kind: L -/
theorem FdtForest.Shaped.hasWord {f : FdtForest} (h : f.Shaped above) :
    ∀ p ∈ f.properties, p.HasWord := by
  induction f generalizing above with
  | nil => exact fun p hp => absurd hp List.not_mem_nil
  | node name props children rest ihChildren ihRest =>
      obtain ⟨hprops, hchildren, hrest⟩ := h
      rw [FdtForest.properties]
      refine List.forall_mem_append.mpr ⟨fun p hp => ?_, List.forall_mem_append.mpr
        ⟨ihChildren hchildren, ihRest hrest⟩⟩
      exact fun hkind => (hprops p (List.mem_reverse.mpr hp)).word (Or.inr hkind)

/-- A parsed tree has its names.
Source: `device_tree.c` `dt_initialize`
Kind: L -/
theorem TreeRep.named {h : DtHeap} {ns ps : List ArrayPtr} (hrep : TreeRep h ns ps root t)
    (hforest : f.forest = t.forest) (hat : f.At h (some root)) : f.Named h true := by
  obtain ⟨hname, -, hchildren, -⟩ := hrep
  cases f with
  | nil => cases hforest
  | node ptr name props children rest =>
      obtain ⟨hhead, -, hatChildren, -⟩ := hat
      cases hhead
      obtain ⟨rfl, -, hforestChildren, hforestRest⟩ := FdtForest.node.inj hforest
      rw [← hforestChildren] at hchildren
      cases rest with
      | nil => exact ⟨hname, hchildren.named hatChildren, trivial⟩
      | node _ _ _ _ _ => cases hforestRest

/-- **What the first pass takes** is no more than the tree needs.
Source: `device_tree.c` `dt_initialize`
Kind: L -/
theorem room_of_reach (hblock : EncodesTree env t) (hbump : BumpOk bump)
    (hsize : bump.size.toNat + env.structs.length < 2 ^ 64) (hroom : t.need ≤ bump.room)
    (hs : DtReach env (dtbInit bump) s) : bump.room ≤ s.bump.room + t.need := by
  obtain ⟨ts, rest, live, stack, htokens, hrec⟩ := (dtRecording_init hblock hbump hsize).reach
    (fun s s' ts rest live stack hs _ _ _ tok off' hat =>
      Or.inl (fits_of_room hblock hbump hsize hroom hs hat)) hs
  have htotal := tokensNeed_tree t
  rw [← htokens, tokensNeed_append] at htotal
  have hleft := hrec.room
  omega

/-- **The first pass**: the tree is at its places, with its names and with the room that it has left.
Source: `device_tree.c` `dt_initialize`
Kind: P -/
theorem named_of_parse (hblock : EncodesTree env t) (hgrants : ∀ k, env.grants k = true)
    (hbump : BumpOk bump) (hroom : t.need ≤ bump.room)
    (hsize : bump.size.toNat + env.structs.length < 2 ^ 64) (hbig : bump.size.toNat ≤ 2 ^ 63)
    (hwords : ∀ p ∈ t.forest.properties, p.HasWord) :
    ∃ s root f, dtbParse env bump = .rewrite s root ∧ f.forest = t.forest ∧ DtPlaced s root f ∧
      f.Named s.heap true ∧ bump.room ≤ s.bump.room + t.need := by
  obtain ⟨s, root, f, hparse, hforest, hplaced⟩ :=
    dtPlaced_of_parse hblock hgrants hbump hroom hsize hbig hwords
  obtain ⟨s₁, root₁, added, plive, hparse₁, hreach, -, -, -, -, htree⟩ :=
    dtbParse_ready env bump t hblock hgrants hbump hroom
  rw [hparse] at hparse₁
  cases hparse₁
  exact ⟨s, root, f, hparse, hforest, hplaced, htree.named hforest hplaced.places,
    room_of_reach hblock hbump hsize hroom hreach⟩

/-- **Both passes**: the second ends as the meaning of the tree does, with the same stop, or with nodes
that have it.
Source: `device_tree.c` `dt_initialize`
Kind: P -/
theorem DtbGiven.passes (h : DtbGiven env bump t) :
    ∃ s root f, dtbParse env bump = .rewrite s root ∧ f.forest = t.forest ∧ DtPlaced s root f ∧
      EndsAs (fun d s' => d.At s' true (some root)) (t.forest.decode []) (dtbRewrite true s root) := by
  have hroom := h.room
  have hshaped := h.shaped
  obtain ⟨s, root, f, hparse, hforest, hplaced, hnamed, hleft⟩ :=
    named_of_parse h.block h.grants h.ok (by omega) h.size h.big hshaped.hasWord
  rw [← hforest] at hshaped hroom ⊢
  refine ⟨s, root, f, hparse, rfl, hplaced, (dtbRewrite_of_decode hplaced hshaped (by omega)).mono ?_⟩
  exact fun d s' hdecode hrewrite _ => hplaced.decoded hnamed hshaped hrewrite hdecode

/-- **The device tree is decoded**: both passes of `dt_initialize` over a block that encodes a tree, with
assertions and with room. When every value has a meaning, the second pass ends well and the nodes of the
kernel have the meaning of the tree, each with the counts of the nearest node above it that has them;
otherwise the pass stops as the first value that has none makes it stop.
Source: `device_tree.c` `dt_initialize`, `dtb_parse_node`, `dtb_parse_property`,
`dtb_recursive_property_rewrite`
Kind: P
Hyps: `DtbGiven`: the block encodes the tree, every page is granted, the buffer has the room, and the values
have the shapes that are read (words of four bytes, a terminated `status`, no number under three address
cells) -/
theorem dtbDecodes (env : DtEnv) (bump : BumpAllocator) (t : FdtTree) (h : DtbGiven env bump t) :
    ∃ s root, dtbParse env bump = .rewrite s root ∧
      (∀ d, t.forest.decode [] = .ok d →
        ∃ s', dtbRewrite true s root = .ok s' ∧ d.At s' true (some root)) ∧
      ∀ stop, t.forest.decode [] = .error stop → dtbRewrite true s root = .error stop := by
  obtain ⟨s, root, -, hparse, -, -, hends⟩ := h.passes
  exact ⟨s, root, hparse, fun d hdecode => hends.of_spec_ok hdecode,
    fun stop hdecode => hends.of_spec_error hdecode⟩

/-- A tree with memory, a bus and a processor, whose number has one word.
Source: none: infrastructure
Kind: D -/
def boardTree : FdtTree where
  name := ⟨[], nul_not_mem_nil⟩
  props := [⟨⟨ascii "#address-cells", by decide⟩, beU32 2⟩, ⟨⟨ascii "#size-cells", by decide⟩, beU32 1⟩,
    ⟨⟨ascii "compatible", by decide⟩, ascii "ab" ++ 0 :: (ascii "c" ++ [0])⟩]
  children := .node ⟨ascii "memory", by decide⟩
    [⟨⟨ascii "reg", by decide⟩, beU32 0 ++ (beU32 0x80000000 ++ beU32 0x8000000)⟩,
      ⟨⟨ascii "status", by decide⟩, ascii "fail-x" ++ [0]⟩] .nil
    (.node ⟨ascii "soc", by decide⟩
      [⟨⟨ascii "ranges", by decide⟩, beU32 0 ++ (beU32 0 ++ (beU32 0 ++ (beU32 0x10 ++ beU32 0x1000)))⟩] .nil
      (.node ⟨ascii "cpus", by decide⟩ [⟨⟨ascii "#address-cells", by decide⟩, beU32 1⟩]
        (.node ⟨ascii "cpu", by decide⟩
          [⟨⟨ascii "reg", by decide⟩, beU32 3 ++ beU32 1⟩, ⟨⟨ascii "phandle", by decide⟩, beU32 7⟩]
          .nil .nil) .nil))

/-- Source: none: infrastructure. Kind: L -/
theorem dtbGiven_boardTree : DtbGiven (flattened boardTree 0x82000000) twoPageBump boardTree where
  block := encodesTree_flattened 0x82000000 (by decide) (by decide +kernel)
  grants := fun _ => rfl
  ok := bumpOk_twoPageBump
  size := by decide +kernel
  big := by decide
  shaped := by decide
  room := by decide

/-- Source: none: infrastructure. Kind: C -/
theorem dtbDecodes_boardTree :
    ∃ s root, dtbParse (flattened boardTree 0x82000000) twoPageBump = .rewrite s root ∧
      (∀ d, boardTree.forest.decode [] = .ok d →
        ∃ s', dtbRewrite true s root = .ok s' ∧ d.At s' true (some root)) ∧
      ∀ stop, boardTree.forest.decode [] = .error stop → dtbRewrite true s root = .error stop :=
  dtbDecodes _ _ _ dtbGiven_boardTree

/-- Below `cpus` an address has one word. -/
example : boardTree.forest.decode [] = .ok (.node ⟨[], nul_not_mem_nil⟩ ⟨2, 1⟩
    [(⟨ascii "compatible", by decide⟩, .compatible [ascii "ab", ascii "c"]),
      (⟨ascii "#size-cells", by decide⟩, .sizeCells 1), (⟨ascii "#address-cells", by decide⟩, .addressCells 2)]
    (.node ⟨ascii "memory", by decide⟩ ⟨2, 1⟩
      [(⟨ascii "status", by decide⟩, .status .failSss (ascii "x")),
        (⟨ascii "reg", by decide⟩, .reg [(0x80000000, 0x8000000)])] .nil
      (.node ⟨ascii "soc", by decide⟩ ⟨2, 1⟩ [(⟨ascii "ranges", by decide⟩, .ranges [(0, 0x10, 0x1000)])] .nil
        (.node ⟨ascii "cpus", by decide⟩ ⟨2, 1⟩ [(⟨ascii "#address-cells", by decide⟩, .addressCells 1)]
          (.node ⟨ascii "cpu", by decide⟩ ⟨1, 1⟩
            [(⟨ascii "phandle", by decide⟩, .phandle 7), (⟨ascii "reg", by decide⟩, .reg [(3, 1)])]
            .nil .nil) .nil))) .nil) := by rfl

/-- **When a `ranges` is decoded**, in a tree that the pass accepts without a store behind its buffer: without
a triplet under three address cells, exactly if the value is cut alike with the counts from above; with one,
at most if its first address on the bus is the number of the cells behind its first.
Source: `device_tree.c` `dtb_recursive_property_rewrite`, `dtb_rewrite_property_ranges`
Kind: P
Hyps: a parsed tree, which the pass accepts with all its stores in the buffer -/
theorem rangesDecode_exact (assertions : Bool) (s s' : DtState) (root : ArrayPtr) (f : PlacedForest)
    (h : DtPlaced s root f) (hrewrite : dtbRewrite assertions s root = .ok s') :
    ∀ n x k, RangesOf f n x k →
      ((n.cells.address = 3 → x.2.groups n.cells = 0) →
        (RangesDecoded s' n x k ↔ CutAlike n.own n.cells x.2.value k)) ∧
      (n.cells.address = 3 → x.2.groups n.cells ≠ 0 → RangesDecoded s' n x k →
        beNat (slice x.2.value 0 (4 * n.own.address.toNat)) % 2 ^ 96 = beNat (slice x.2.value 4 12)) := by
  intro n x k hr
  obtain ⟨b, b', d, len, value, -, -, -, -, -, -, -, -, htype⟩ := hr.round h hrewrite
  refine ⟨fun h3 => ?_, fun h3 hcount hdecoded => hr.three h hrewrite h3 hcount hdecoded.2⟩
  have hexact := hr.exact_iff h hrewrite h3
  exact ⟨fun hdecoded => hexact.mp hdecoded.2, fun hcut => ⟨htype, hexact.mpr hcut⟩⟩

/-- Source: none: infrastructure. Kind: C -/
theorem rangesDecode_exact_boardTree :
    ∃ s s' root f, f.forest = boardTree.forest ∧ DtPlaced s root f ∧ dtbRewrite true s root = .ok s' ∧
      ∀ n x k, RangesOf f n x k →
        ((n.cells.address = 3 → x.2.groups n.cells = 0) →
          (RangesDecoded s' n x k ↔ CutAlike n.own n.cells x.2.value k)) ∧
        (n.cells.address = 3 → x.2.groups n.cells ≠ 0 → RangesDecoded s' n x k →
          beNat (slice x.2.value 0 (4 * n.own.address.toNat)) % 2 ^ 96 = beNat (slice x.2.value 4 12)) := by
  obtain ⟨s, root, f, -, hforest, hplaced, hends⟩ := dtbGiven_boardTree.passes
  obtain ⟨s', hrewrite, -⟩ := hends.of_spec_ok rfl
  exact ⟨s, s', root, f, hforest, hplaced, hrewrite,
    rangesDecode_exact true s s' root f hplaced hrewrite⟩

/-- The triplet of the bus: an address of one cell on it, one of two cells above it, and a length of one.
Source: none: infrastructure
Kind: D -/
def busRanges : FdtProp :=
  ⟨⟨ascii "ranges", by decide⟩, beU32 0x1000 ++ (beU32 0 ++ (beU32 0x2000 ++ beU32 0x100))⟩

/-- A tree with a bus that has counts of its own.
Source: none: infrastructure
Kind: D -/
def busTree : FdtTree where
  name := ⟨[], nul_not_mem_nil⟩
  props := []
  children := .node ⟨ascii "bus", by decide⟩ [⟨⟨ascii "#address-cells", by decide⟩, beU32 1⟩,
    ⟨⟨ascii "#size-cells", by decide⟩, beU32 1⟩, busRanges] .nil .nil

/-- The bus in its place.
Source: none: infrastructure
Kind: L -/
theorem exists_bus {f : PlacedForest} (h : f.forest = busTree.forest) :
    ∃ n x, n ∈ f.scoped [] ∧ x ∈ n.props ∧ x.2 = busRanges ∧ n.cells = ⟨2, 1⟩ ∧ n.own = ⟨1, 1⟩ := by
  cases f with
  | nil => cases h
  | node ptr name props children rest =>
      obtain ⟨-, hprops, hchildren, -⟩ := FdtForest.node.inj h
      cases children with
      | nil => cases hchildren
      | node ptr' name' props' children' rest' =>
          obtain ⟨-, hprops', -, -⟩ := FdtForest.node.inj hchildren
          rw [List.reverse_eq_iff] at hprops hprops'
          obtain ⟨x, tail, rfl, hx, -⟩ := List.map_eq_cons_iff.mp hprops'
          refine ⟨⟨ptr', x :: tail, [props.map Prod.snd]⟩, x, ?_, List.mem_cons_self, hx, ?_, ?_⟩
          · exact List.mem_cons_of_mem _ (List.mem_append_left _ List.mem_cons_self)
          · show governing [props.map Prod.snd] = _
            rw [hprops]
            decide
          · show governing [(x :: tail).map Prod.snd, props.map Prod.snd] = _
            rw [hprops, hprops']
            decide

/-- **A bus with counts of its own**: the pass accepts its `ranges` of one triplet, and finds none in it.
Source: `device_tree.c` `dtb_rewrite_property_ranges`
Kind: C -/
theorem not_rangesDecoded_busTree :
    ∃ s s' root f n x, dtbParse (flattened busTree 0x82000000) twoPageBump = .rewrite s root ∧
      DtPlaced s root f ∧ f.forest = busTree.forest ∧ dtbRewrite true s root = .ok s' ∧
      RangesOf f n x 1 ∧ ¬ RangesDecoded s' n x 1 := by
  have hgiven : DtbGiven (flattened busTree 0x82000000) twoPageBump busTree :=
    { block := encodesTree_flattened 0x82000000 (by decide) (by decide +kernel)
      grants := fun _ => rfl
      ok := bumpOk_twoPageBump
      size := by decide +kernel
      big := by decide
      shaped := by decide
      room := by decide }
  obtain ⟨s, root, f, hparse, hforest, hplaced, hends⟩ := hgiven.passes
  obtain ⟨s', hrewrite, -⟩ := hends.of_spec_ok rfl
  obtain ⟨n, x, hnode, hprop, hx, hcells, hown⟩ := exists_bus hforest
  have hr : RangesOf f n x 1 := by
    refine ⟨hnode, hprop, ?_, ?_, ?_⟩
    · rw [hx]
      exact Or.inl (by decide)
    · rw [hcells, hown]
      decide
    · rw [hx, hcells, hown]
      decide
  refine ⟨s, s', root, f, n, x, hparse, hplaced, hforest, hrewrite, hr, fun hdecoded => ?_⟩
  have hcut := (hr.exact_iff hplaced hrewrite (by rw [hcells]; exact fun h3 => absurd h3 (by decide))).mp
    hdecoded.2
  have hnone := hcut.1
  rw [hx, hcells] at hnone
  exact absurd hnone (by decide)

end passes

end Octiron.Kernel
