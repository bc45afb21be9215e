import Octiron.Kernel.DeviceHeap

/-!
# Parsing inverts flattening

The loop of `dt_initialize` on a structure block that encodes a tree.

* `DtReach env s s'` — `s'` is the state at the beginning of some later round.
* `DtReady s live plive stack` — the state between two tokens: `DtInv`, the properties that have been
  pushed, and the bump allocator in order.
* `RootCopy s r` — the copy of the root in the newest buffer is as good as the root at `r`.
* `dtReach_props`, `dtReach_forest` — the loop on the properties of a node, and on the nodes inside it,
  by induction on these.
* **Main result** (`dtbParse_of_encodesTree`): the loop ends at `FDT_END` with the tree at the root.
-/

namespace Octiron.Kernel

open Octiron.Found
open Octiron.Kzadhbat

/-! ## Runs -/

/-- **The states of a run**.
Source: `device_tree.c` `dt_initialize`
Kind: D -/
def DtReach (env : DtEnv) : DtState → DtState → Prop :=
  Relation.ReflTransGen fun s s' => dtbStep env s = .ok s'

/-- Between two tokens.
Source: none: infrastructure
Kind: D -/
structure DtReady (s : DtState) (live plive stack : List ArrayPtr) : Prop where
  inv : DtInv s live stack
  props : ArrayLive s.properties plive
  bump : BumpOk s.bump
  aligned : s.off % 4 = 0

/-- What a run over tokens that need `need` bytes leaves alone: the properties at `plive` and what has
been copied.
Source: none: infrastructure
Kind: D -/
structure DtGrows (env : DtEnv) (s s' : DtState) (plive plive' : List ArrayPtr) (need : ℕ) :
    Prop where
  reach : DtReach env s s'
  properties : ∀ q ∈ plive, s'.properties.cells q = s.properties.cells q
  sub : plive ⊆ plive'
  bump : BumpFrame s.bump s'.bump
  room : s'.bump.room + need = s.bump.room

section runs

variable {env : DtEnv} {s s₁ s' : DtState} {live plive plive₁ plive' stack : List ArrayPtr}
  {off' : ℕ}

/-- Source: none: infrastructure. Kind: L -/
theorem DtGrows.trans {m n : ℕ} (h : DtGrows env s s₁ plive plive₁ m)
    (h' : DtGrows env s₁ s' plive₁ plive' n) : DtGrows env s s' plive plive' (m + n) := by
  refine ⟨h.reach.trans h'.reach, fun q hq => ?_, List.Subset.trans h.sub h'.sub, h.bump.trans h'.bump, ?_⟩
  · rw [h'.properties q (h.sub hq), h.properties q hq]
  · have := h.room
    have := h'.room
    omega

/-- Source: none: infrastructure. Kind: L -/
theorem DtGrows.refl (env : DtEnv) (s : DtState) (plive : List ArrayPtr) :
    DtGrows env s s plive plive 0 :=
  ⟨.refl, fun _ _ => rfl, fun _ hq => hq, BumpFrame.refl _, rfl⟩

/-- Source: none: infrastructure. Kind: L -/
theorem DtInv.setOff (h : DtInv s live stack) (off : ℕ) : DtInv { s with off := off } live stack :=
  ⟨h.array, h.curr, h.depth, h.parents, h.stack_live, h.children, h.sibling⟩

/-- `FDT_NOP` only moves the offset.
Source: `device_tree.c` `dt_initialize`
Kind: L -/
theorem dtReach_nops {off : ℕ} (hreads : Reads env off [] off') (h : DtReady s live plive stack)
    (hoff : s.off = off) :
    DtGrows env s { s with off := off' } plive plive 0 ∧
      DtReady { s with off := off' } live plive stack := by
  generalize hts : ([] : List FdtToken) = ts at hreads
  induction hreads generalizing s with
  | nil off =>
      subst hoff
      exact ⟨DtGrows.refl env s plive, h⟩
  | @nop off off₁ off' ts hlex _ ih =>
      subst hoff
      have hstep := dtbStep_nop h.aligned hlex
      have hready : DtReady { s with off := off₁ } live plive stack :=
        ⟨h.inv.setOff off₁, h.props, h.bump, (dtLex_tok_off hlex).2.2 h.aligned⟩
      obtain ⟨hgrows, hready'⟩ := ih hready rfl hts
      exact ⟨⟨.head hstep hgrows.reach, hgrows.properties, hgrows.sub, hgrows.bump, hgrows.room⟩, hready'⟩
  | tok _ _ _ => cases hts

/-- A name in the strings block.
Source: `impl.c` `strlen`
Kind: L -/
theorem cstring_of_cstringAt {m : Mem} {p : Addr} {name : List (BitVec 8)} (h : CStringAt m p name)
    (hname : 0 ∉ name) (hlen : name.length < 2 ^ 64) : cstring m p = name := by
  unfold cstring
  rw [strlen_of_cstringAt h hname hlen]
  refine List.ext_getElem? fun i => ?_
  rw [List.getElem?_map]
  by_cases hi : i < name.length
  · rw [List.getElem?_range hi, List.getElem?_eq_getElem hi]
    refine congrArg some (h i _ ?_)
    rw [List.getElem?_append_left hi, List.getElem?_eq_getElem hi]
  · have hle : name.length ≤ i := Nat.not_lt.mp hi
    rw [List.getElem?_eq_none (by rw [List.length_range]; exact hle), List.getElem?_eq_none hle]
    rfl

/-- Source: none: infrastructure. Kind: L -/
theorem arrayReserve_granted {α : Type} (sizeofElem : ℕ) (a : KArray α) :
    ∃ a', arrayReserve sizeofElem true a = some a' := by
  unfold arrayReserve
  by_cases hfull : arrayFull a = true
  · rw [if_pos hfull]
    exact ⟨_, rfl⟩
  · rw [if_neg hfull]
    exact ⟨a, rfl⟩

/-- The allocations of a node, with room for its name.
Source: `device_tree.c` `dtb_parse_node`
Kind: L -/
theorem dtbAllocNode_of_room (hgrants : ∀ k, env.grants k = true) (hbump : BumpOk s.bump)
    {name : List (BitVec 8)} (hroom : name.length + 1 ≤ s.bump.room) :
    ∃ bump nameBuf nodes, dtbAllocNode env s.bump s.nodes s.allocs name = .ok (bump, nameBuf, nodes) ∧
      arrayReserve sizeofDtNode true s.nodes = some nodes ∧ BumpOk bump ∧
      bump.room = s.bump.room - (name.length + 1) ∧ BumpHolds bump nameBuf (name ++ [0]) ∧
      BumpFrame s.bump bump := by
  obtain ⟨bump, hcopy, hne, hok, hroom', hholds, hframe⟩ := bumpCopyString_of_room hbump hroom
  obtain ⟨nodes, hnodes⟩ := arrayReserve_granted sizeofDtNode s.nodes
  refine ⟨bump, s.bump.memory + s.bump.index, nodes, ?_, hnodes, hok, hroom', hholds, hframe⟩
  unfold dtbAllocNode
  rw [hcopy, hgrants]
  dsimp only
  rw [if_neg hne, hnodes]

/-- The allocations of a property, with room for its name and its value.
Source: `device_tree.c` `dtb_parse_property`
Kind: L -/
theorem dtbAllocProperty_of_room (hgrants : ∀ k, env.grants k = true) (hbump : BumpOk s.bump)
    {p : FdtProp} {propLen nameOffset : BitVec 32} (hlen : propLen.toNat = p.value.length)
    (hname : CStringAt env.mem (env.strings + nameOffset.setWidth 64) p.name.val)
    (hroom : p.need ≤ s.bump.room) :
    ∃ bump propName propValue properties,
      dtbAllocProperty env s.bump s.properties s.allocs propLen nameOffset p.value =
        .ok (bump, propName, propValue, properties) ∧
      arrayReserve sizeofDtProperty true s.properties = some properties ∧ BumpOk bump ∧
      bump.room = s.bump.room - p.need ∧ BumpHolds bump propName (p.name.val ++ [0]) ∧
      (p.value ≠ [] → BumpHolds bump propValue p.value) ∧ BumpFrame s.bump bump := by
  unfold FdtProp.need at hroom ⊢
  have hlt := s.bump.size.isLt
  have hroomLt : s.bump.room < 2 ^ 64 := lt_of_le_of_lt (Nat.sub_le _ _) hlt
  have hcstring := cstring_of_cstringAt hname p.name.property (by omega)
  have hroomName : p.name.val.length + 1 ≤ s.bump.room := by omega
  obtain ⟨b₁, hcopy, -, hok, hroom₁, hholds, hframe⟩ := bumpCopyString_of_room hbump hroomName
  have hsrc : ∀ i c, p.value[i]? = some c → (fun i => p.value.getD i 0) i = c := by
    intro i c hc
    show p.value.getD i 0 = c
    rw [List.getD_eq_getElem?_getD, hc]
    rfl
  obtain ⟨b₂, propValue, hcopy₂, hok₂, hroom₂, hholds₂, hframe₂⟩ :=
    bumpCopy_of_room hok (l := p.value) (by omega) hsrc
  have hwidth : propLen.setWidth 64 = BitVec.ofNat 64 p.value.length := by
    rw [← hlen]
    apply BitVec.eq_of_toNat_eq
    rw [BitVec.toNat_setWidth, BitVec.toNat_ofNat]
  obtain ⟨properties, hproperties⟩ := arrayReserve_granted sizeofDtProperty s.properties
  refine ⟨b₂, s.bump.memory + s.bump.index, propValue, properties, ?_, hproperties, hok₂, by omega,
    hholds.frame hframe₂, hholds₂, hframe.trans hframe₂⟩
  unfold dtbAllocProperty
  rw [hcstring, hcopy, hgrants, hwidth]
  dsimp only
  rw [if_neg (by omega), hcopy₂, hproperties]

/-- **`FDT_BEGIN_NODE`** between two tokens.
Source: `device_tree.c` `dtb_parse_node`, `dt_initialize`
Kind: P -/
theorem DtReady.beginNode (h : DtReady s live plive stack) (hgrants : ∀ k, env.grants k = true)
    {name : CStr} (hat : FdtToken.At env s.off off' (.beginNode name))
    (hroom : name.val.length + 1 ≤ s.bump.room) {cs : List ArrayPtr}
    (hcs : ∀ c, s.curr = some c → SibChain s.nodes.cells (s.nodes.cells c).children cs)
    (hcsLive : ∀ p ∈ cs, p ∈ live) (hcsLen : cs.length ≤ s.nodes.size) :
    ∃ s' new name' nodes, DtReady s' (live ++ [new]) plive (new :: stack) ∧ s'.off = off' ∧
      DtGrows env s s' plive plive (name.val.length + 1) ∧
      DtPushed s s' live (dtSlot s.curr cs) new name' ∧
      NameRep s'.heap (decide (stack = [])) name name' ∧
      arrayReserve sizeofDtNode true s.nodes = some nodes ∧
      s'.nodes.forget = (arrayAppend nodes.forget ()).1 := by
  have hlt := s.bump.size.isLt
  have hroomLt : s.bump.room < 2 ^ 64 := lt_of_le_of_lt (Nat.sub_le _ _) hlt
  obtain ⟨bump, nameBuf, nodes, halloc, hnodes, hok, hroom', hholds, hframe⟩ :=
    dtbAllocNode_of_room hgrants h.bump hroom
  obtain ⟨s', new, hstep, hpushed, hoff', hbump', -, hforget⟩ := dtbStep_beginNode h.inv h.aligned hat
    halloc hholds.1 (by omega) hcs hcsLive hcsLen
  refine ⟨s', new, _, nodes, ⟨hpushed.inv h.inv, ?_, ?_, ?_⟩, hoff', ⟨.single hstep, ?_, ?_, ?_, ?_⟩,
    hpushed, ?_, hnodes, hforget⟩
  · rw [hpushed.properties]
    exact h.props
  · rw [hbump']
    exact hok
  · rw [hoff']
    exact (dtLex_tok_off hat).2.2 h.aligned
  · rw [hpushed.properties]
    exact fun _ _ => rfl
  · exact fun _ hq => hq
  · rw [hbump']
    exact hframe
  · rw [hbump', hroom']
    omega
  · unfold NameRep
    simp only [decide_eq_true_eq]
    by_cases hroot : stack = [] ∧ name.val = []
    · rw [if_pos hroot, if_pos hroot]
    · rw [if_neg hroot, if_neg hroot]
      refine ⟨nameBuf, rfl, ?_⟩
      show BumpHolds s'.bump _ _
      rw [hbump']
      exact hholds

/-- **`FDT_END_NODE`** between two tokens.
Source: `device_tree.c` `dt_initialize`
Kind: P -/
theorem DtReady.endNode {c : ArrayPtr} {rest : List ArrayPtr} (h : DtReady s live plive (c :: rest))
    (hat : FdtToken.At env s.off off' .endNode) :
    ∃ s', DtReady s' live plive rest ∧ s'.off = off' ∧ s'.curr = rest.head? ∧
      DtGrows env s s' plive plive 0 ∧ s'.nodes = s.nodes ∧ s'.heap = s.heap := by
  rcases dtbStep_endNode h.inv h.aligned hat with ⟨hnil, -⟩ | ⟨c', rest', hcons, hstep, hinv⟩
  · cases hnil
  · cases hcons
    refine ⟨_, ⟨hinv, h.props, h.bump, (dtLex_tok_off hat).2.2 h.aligned⟩, rfl, rfl,
      ⟨.single hstep, fun _ _ => rfl, fun _ hq => hq, BumpFrame.refl _, rfl⟩, rfl, rfl⟩

/-- **`FDT_PROP`** between two tokens: one more property of the open node, before the others.
Source: `device_tree.c` `dtb_parse_property`
Kind: P -/
theorem DtReady.prop {c : ArrayPtr} {rest : List ArrayPtr} (h : DtReady s live plive (c :: rest))
    (hgrants : ∀ k, env.grants k = true) {p : FdtProp} (hat : FdtToken.At env s.off off' (.prop p))
    (hroom : p.need ≤ s.bump.room) {props : List FdtProp}
    (hprops : PropsRep s.heap plive (s.nodes.cells c).properties props) :
    ∃ s' plive' head, DtReady s' live plive' (c :: rest) ∧ s'.off = off' ∧
      DtGrows env s s' plive plive' p.need ∧
      s'.nodes = s.nodes.modify c (fun n => { n with properties := head }) ∧
      PropsRep s'.heap plive' head (p :: props) := by
  obtain ⟨propLen, nameOffset, hlex, hlen, hname⟩ := hat
  obtain ⟨bump, propName, propValue, properties, halloc, hproperties, hok, hroom', hholds, hvalue,
    hframe⟩ := dtbAllocProperty_of_room hgrants h.bump hlen hname hroom
  obtain ⟨harray, hsize, hcells, -, d, hd, -⟩ := h.props.reserve hproperties
  rcases dtbStep_prop h.inv h.aligned hlex with ⟨stop, herror, -⟩ | ⟨b, pn, pv, ps, halloc', hstep⟩
  · rw [halloc] at herror
    cases herror
  · rw [halloc] at halloc'
    cases halloc'
    rcases hstep with ⟨hnil, -⟩ | ⟨c', rest', s', hcons, hstep, hs', hinv⟩
    · cases hnil
    · cases hcons
      set value : DtProperty := ⟨propName, (s.nodes.cells c).properties, .raw, .raw propLen propValue⟩
      obtain ⟨hnew, hfresh, hlive, hcell, hother⟩ := harray.append hd value
      have hkeep : ∀ q ∈ plive, s'.properties.cells q = s.properties.cells q := by
        intro q hq
        rw [hs']
        show (arrayAppend properties value).1.cells q = _
        rw [hother q fun hqn => hfresh (hqn ▸ hq), hcells q hq]
      have hframe' : BumpFrame s.heap.bump s'.heap.bump := by
        rw [hs']
        exact hframe
      have hcell' : s'.heap.properties (d, properties.size) = value := by
        rw [hs']
        exact hcell
      refine ⟨s', plive ++ [(d, properties.size)], some (d, properties.size), ⟨hinv, ?_, ?_, ?_⟩, ?_,
        ⟨.single hstep, hkeep, List.subset_append_left _ _, hframe', ?_⟩, ?_,
        (d, properties.size), rfl, List.mem_append_right _ List.mem_cons_self, ?_, ?_⟩
      · rw [hs']
        exact hlive
      · rw [hs']
        exact hok
      · rw [hs']
        exact (dtLex_tok_off hlex).2.2 h.aligned
      · rw [hs']
      · rw [hs']
        show bump.room + p.need = s.bump.room
        omega
      · rw [hs', hnew]
      · unfold PropRep
        rw [hcell', hs']
        exact ⟨hholds, rfl, propLen, propValue, rfl, hlen, hvalue⟩
      · rw [hcell']
        exact hprops.frame hkeep hframe' (List.subset_append_left _ _)

/-- **The properties of a node**: they come before those that are there, the last one first.
Source: `device_tree.c` `dtb_parse_property`
Kind: P -/
theorem dtReach_props (hgrants : ∀ k, env.grants k = true) {c : ArrayPtr} {rest : List ArrayPtr}
    {props acc : List FdtProp} (h : DtReady s live plive (c :: rest))
    (hreads : Reads env s.off (props.map .prop) off') (hroom : propsNeed props ≤ s.bump.room)
    (hacc : PropsRep s.heap plive (s.nodes.cells c).properties acc) :
    ∃ s' plive' head, DtReady s' live plive' (c :: rest) ∧ s'.off = off' ∧
      DtGrows env s s' plive plive' (propsNeed props) ∧ s'.nodes.forget = s.nodes.forget ∧
      (∀ q, q ≠ c → s'.nodes.cells q = s.nodes.cells q) ∧
      s'.nodes.cells c = { s.nodes.cells c with properties := head } ∧
      PropsRep s'.heap plive' head (props.reverse ++ acc) := by
  induction props generalizing s plive acc with
  | nil =>
      obtain ⟨hgrows, hready⟩ := dtReach_nops hreads h rfl
      exact ⟨{ s with off := off' }, plive, (s.nodes.cells c).properties, hready, rfl, hgrows, rfl,
        fun _ _ => rfl, rfl, hacc⟩
  | cons p props ih =>
      obtain ⟨off₁, off₂, hnops, hat, hrest⟩ := hreads.cons
      have hneed : propsNeed (p :: props) = p.need + propsNeed props := by
        simp only [propsNeed, List.map_cons, List.sum_cons]
      rw [hneed] at hroom ⊢
      obtain ⟨hgrows₁, hready₁⟩ := dtReach_nops hnops h rfl
      have hroom₁ : p.need ≤ s.bump.room := le_trans (Nat.le_add_right _ _) hroom
      obtain ⟨s₂, plive₂, head₂, hready₂, hoff₂, hgrows₂, hnodes₂, hprops₂⟩ :=
        hready₁.prop hgrants hat hroom₁ hacc
      have hcell₂ : s₂.nodes.cells c = { s.nodes.cells c with properties := head₂ } := by
        rw [hnodes₂]
        exact KArray.modify_cells_self _ _ _
      have hroom₂ : propsNeed props ≤ s₂.bump.room := by
        have hleft : s₂.bump.room + p.need = s.bump.room := hgrows₂.room
        omega
      have hacc₂ : PropsRep s₂.heap plive₂ (s₂.nodes.cells c).properties (p :: acc) := by
        rw [hcell₂]
        exact hprops₂
      obtain ⟨s₃, plive₃, head₃, hready₃, hoff₃, hgrows₃, hforget₃, hother₃, hcell₃, hprops₃⟩ :=
        ih hready₂ (hoff₂ ▸ hrest) hroom₂ hacc₂
      refine ⟨s₃, plive₃, head₃, hready₃, hoff₃, ?_, ?_, fun q hq => ?_, ?_, ?_⟩
      · have hall := (hgrows₁.trans hgrows₂).trans hgrows₃
        rw [Nat.zero_add] at hall
        exact hall
      · rw [hforget₃, hnodes₂]
        rfl
      · rw [hother₃ q hq, hnodes₂]
        exact KArray.modify_cells_of_ne _ _ hq
      · rw [hcell₃, hcell₂]
      · rw [List.reverse_cons, List.append_assoc]
        exact hprops₃

end runs

/-! ## The root in the newest buffer -/

/-- **The copy of the root in the newest buffer** holds what the root at `r` does.
Source: `device_tree.c` `dt_initialize` (`state.root`)
Kind: D -/
def RootCopy (s : DtState) (r : ArrayPtr) : Prop :=
  ∃ d, s.nodes.data = some d ∧ s.nodes.cells (d, 0) = s.nodes.cells r

section root

variable {s s' : DtState} {live : List ArrayPtr} {r : ArrayPtr}

/-- The first node is the only one at index 0.
Source: none: infrastructure
Kind: L -/
theorem ArrayLive.eq_head {α : Type} {a : KArray α} (h : ArrayLive a live)
    (hr : live.head? = some r) {p : ArrayPtr} (hp : p ∈ live) (h0 : p.2 = 0) : p = r := by
  obtain ⟨k, hk⟩ := List.mem_iff_getElem?.mp hp
  have hk0 : k = 0 := (h.index k p hk).symm.trans h0
  rw [hk0, ← List.head?_eq_getElem?, hr] at hk
  exact (Option.some.inj hk).symm

/-- Source: none: infrastructure. Kind: L -/
theorem ArrayLive.head_index {α : Type} {a : KArray α} (h : ArrayLive a live)
    (hr : live.head? = some r) : r.2 = 0 := by
  rw [List.head?_eq_getElem?] at hr
  exact h.index 0 r hr

/-- Source: none: infrastructure. Kind: L -/
theorem ArrayLive.nodup {α : Type} {a : KArray α} (h : ArrayLive a live) : live.Nodup := by
  rw [List.nodup_iff_getElem?_ne_getElem?]
  intro i j hij hj heq
  rw [List.getElem?_eq_getElem hj] at heq
  have hi := h.index i _ heq
  have hj' := h.index j _ (List.getElem?_eq_getElem hj)
  omega

/-- **Pushing a node keeps the copy**: it goes along when the array grows, and the root itself is
changed only while it is in the newest buffer.
Source: `array.h` `ARRAY_PUSH`
Kind: L -/
theorem RootCopy.pushed {slot : DtSlot} {new : ArrayPtr} {name : DtName}
    (hp : DtPushed s s' live slot new name) (hlive : ArrayLive s.nodes live)
    (hr : live.head? = some r) (hslot : ∀ p, slot.ptr = some p → p ∈ live)
    (hroot : slot.ptr = some r → s.nodes.data = some r.1 ∧ s.nodes.size < s.nodes.capacity)
    (h : RootCopy s r) : RootCopy s' r := by
  have hr0 : r.2 = 0 := hlive.head_index hr
  have hrlive : r ∈ live := List.mem_of_head? hr
  refine ⟨new.1, hp.data, ?_⟩
  by_cases hptr : slot.ptr = some r
  · obtain ⟨hdata, hroom⟩ := hroot hptr
    have hsame := hp.same hroom
    rw [hdata] at hsame
    have hbuffer : r.1 = new.1 := Option.some.inj hsame
    have hrnew : (new.1, 0) = r := Prod.ext hbuffer.symm hr0.symm
    rw [hrnew]
  · obtain ⟨d, hd, hcopy⟩ := h
    have hpos : 0 < s.nodes.size := by
      have := hlive.index_lt hrlive
      omega
    have hnot : slot.ptr ≠ some (new.1, 0) := by
      intro hptr'
      have heq := hlive.eq_head hr (hslot _ hptr') rfl
      exact hptr (heq ▸ hptr')
    rw [hp.copies d hd 0 hpos hnot, hcopy, hp.filled r hrlive, DtSlot.fill_cells,
      DtSlot.link_of_ne _ hptr]

/-- Changing another node keeps the copy.
Source: none: infrastructure
Kind: L -/
theorem RootCopy.of_cells {c : ArrayPtr} (hr0 : r.2 = 0) (hc : c.2 ≠ 0)
    (hforget : s'.nodes.forget = s.nodes.forget)
    (hcells : ∀ q, q ≠ c → s'.nodes.cells q = s.nodes.cells q) (h : RootCopy s r) :
    RootCopy s' r := by
  obtain ⟨d, hd, hcopy⟩ := h
  have hdata : s'.nodes.data = s.nodes.data := congrArg (fun a : KArray Unit => a.data) hforget
  refine ⟨d, hdata.trans hd, ?_⟩
  rw [hcells (d, 0) fun heq => hc (congrArg Prod.snd heq).symm,
    hcells r fun heq => hc (heq ▸ hr0), hcopy]

end root


/-! ## The nodes inside a node -/

section forest

variable {env : DtEnv} {s : DtState} {live plive rest cs : List ArrayPtr} {c r : ArrayPtr} {off' : ℕ}

/-- Siblings are not more than nodes.
Source: none: infrastructure
Kind: L -/
theorem DtInv.sibChain_length {stack : List ArrayPtr} {head : Option ArrayPtr}
    (h : DtInv s live stack) (hcs : SibChain s.nodes.cells head cs) (hlive : ∀ p ∈ cs, p ∈ live) :
    cs.length ≤ s.nodes.size := by
  have hnodup : cs.Nodup := by
    refine (hcs.sorted hlive h.sibling).imp fun hlt heq => ?_
    rw [heq] at hlt
    exact absurd hlt (lt_irrefl _)
  rw [← h.array.length]
  exact (hnodup.subperm hlive).length_le

/-- Source: none: infrastructure. Kind: L -/
theorem dtSlot_snoc (c q : ArrayPtr) (cs : List ArrayPtr) :
    dtSlot (some c) (cs ++ [q]) = .after q := by
  unfold dtSlot
  rw [List.getLast?_concat]

/-- **The loop on the nodes `f` inside the open node `c`**, behind the subnodes `cs` that it has: they are
new cells, they are linked in behind `cs`, and nothing else that was there changes.
Source: `device_tree.c` `dt_initialize`
Kind: D -/
def ForestParses (env : DtEnv) (f : FdtForest) : Prop :=
  ∀ {s : DtState} {live plive rest cs : List ArrayPtr} {c r : ArrayPtr} {off' : ℕ},
    DtReady s live plive (c :: rest) →
    SibChain s.nodes.cells (s.nodes.cells c).children cs → (∀ p ∈ cs, p ∈ live) →
    Reads env s.off f.tokens off' → f.need ≤ s.bump.room →
    live.head? = some r → RootCopy s r →
    ((dtSlot (some c) cs).ptr = some r →
      s.nodes.data = some r.1 ∧ s.nodes.size < s.nodes.capacity) →
    ∃ s' added plive' head, DtReady s' (live ++ added) plive' (c :: rest) ∧ s'.off = off' ∧
      DtGrows env s s' plive plive' f.need ∧
      (∀ p ∈ live, s'.nodes.cells p = (dtSlot (some c) cs).link s.nodes.cells head p) ∧
      ForestRep s'.heap added plive' head f ∧ RootCopy s' r

/-- **The rest of a node that has been pushed**: its properties, its subnodes and `FDT_END_NODE`.
Source: `device_tree.c` `dt_initialize`
Kind: P -/
theorem dtReach_body (hgrants : ∀ k, env.grants k = true) {props : List FdtProp}
    {children : FdtForest} (hchildren : ForestParses env children) {ts : List FdtToken}
    {stack : List ArrayPtr} {q : ArrayPtr} (h : DtReady s live plive (q :: stack))
    (hnoProps : (s.nodes.cells q).properties = none) (hnoChild : (s.nodes.cells q).children = none)
    (hreads : Reads env s.off (props.map .prop ++ (children.tokens ++ .endNode :: ts)) off')
    (hroom : propsNeed props + children.need ≤ s.bump.room)
    (hr : live.head? = some r) (hcopy : RootCopy s r)
    (hroot : q = r → s.nodes.data = some r.1 ∧ s.nodes.size < s.nodes.capacity) :
    ∃ s' added plive' hp hc, DtReady s' (live ++ added) plive' stack ∧ Reads env s'.off ts off' ∧
      DtGrows env s s' plive plive' (propsNeed props + children.need) ∧
      (∀ p ∈ live, p ≠ q → s'.nodes.cells p = s.nodes.cells p) ∧
      s'.nodes.cells q = { s.nodes.cells q with properties := hp, children := hc } ∧
      PropsRep s'.heap plive' hp props.reverse ∧ ForestRep s'.heap added plive' hc children ∧
      RootCopy s' r := by
  obtain ⟨off₁, hpropTokens, hreads⟩ := hreads.split
  obtain ⟨off₂, hchildTokens, hreads⟩ := hreads.split
  obtain ⟨off₃, off₄, hnops, hend, hrest⟩ := hreads.cons
  have hq : q ∈ live := h.inv.stack_live q List.mem_cons_self
  have hr0 : r.2 = 0 := h.inv.array.head_index hr
  -- the properties
  have hnone : PropsRep s.heap plive (s.nodes.cells q).properties [] := hnoProps
  obtain ⟨s₁, plive₁, hp, hready₁, hoff₁, hgrows₁, hforget₁, hother₁, hcell₁, hprops₁⟩ :=
    dtReach_props hgrants h hpropTokens (le_trans (Nat.le_add_right _ _) hroom) hnone
  rw [List.append_nil] at hprops₁
  have hdata₁ : s₁.nodes.data = s.nodes.data := congrArg (fun a : KArray Unit => a.data) hforget₁
  have hsize₁ : s₁.nodes.size = s.nodes.size := congrArg (fun a : KArray Unit => a.size) hforget₁
  have hcap₁ : s₁.nodes.capacity = s.nodes.capacity :=
    congrArg (fun a : KArray Unit => a.capacity) hforget₁
  have hcopy₁ : RootCopy s₁ r := by
    by_cases hqr : q = r
    · refine ⟨r.1, hdata₁.trans (hroot hqr).1, ?_⟩
      rw [← hr0]
    · exact hcopy.of_cells hr0 (fun hq0 => hqr (h.inv.array.eq_head hr hq hq0)) hforget₁ hother₁
  -- the subnodes
  have hchild₁ : SibChain s₁.nodes.cells (s₁.nodes.cells q).children [] := by
    rw [hcell₁]
    exact hnoChild
  have hroom₁ : children.need ≤ s₁.bump.room := by
    have := hgrows₁.room
    omega
  obtain ⟨s₂, added, plive₂, hc, hready₂, hoff₂, hgrows₂, hcells₂, hforest₂, hcopy₂⟩ :=
    hchildren hready₁ hchild₁ (fun p hp => absurd hp List.not_mem_nil) (hoff₁ ▸ hchildTokens) hroom₁
      hr hcopy₁ (fun hptr => by
        rw [hdata₁, hsize₁, hcap₁]
        exact hroot (Option.some.inj hptr))
  -- the end of the node
  obtain ⟨hgrows₃, hready₃⟩ := dtReach_nops hnops hready₂ hoff₂
  obtain ⟨s₄, hready₄, hoff₄, -, hgrows₄, hnodes₄, hheap₄⟩ := hready₃.endNode hend
  have hheap : s₄.heap = s₂.heap := hheap₄
  have hnodes : s₄.nodes = s₂.nodes := hnodes₄
  refine ⟨s₄, added, plive₂, hp, hc, hready₄, hoff₄ ▸ hrest, ?_, fun p hpl hpq => ?_, ?_, ?_, ?_, ?_⟩
  · have hall := ((hgrows₁.trans hgrows₂).trans hgrows₃).trans hgrows₄
    exact hall
  · have hptr : (dtSlot (some q) []).ptr ≠ some p := fun hptr => hpq (Option.some.inj hptr).symm
    rw [hnodes, hcells₂ p hpl, DtSlot.link_of_ne hc hptr, hother₁ p hpq]
  · rw [hnodes, hcells₂ q hq]
    show Function.update s₁.nodes.cells q { s₁.nodes.cells q with children := hc } q = _
    rw [Function.update_self, hcell₁]
  · rw [hheap]
    exact hprops₁.frame hgrows₂.properties hgrows₂.bump hgrows₂.sub
  · rw [hheap]
    exact hforest₂
  · unfold RootCopy
    rw [hnodes]
    exact hcopy₂

/-- Source: none: infrastructure. Kind: L -/
theorem forestParses_nil (env : DtEnv) : ForestParses env .nil := by
  intro s live plive rest cs c r off' h hcs _ hreads _ _ hcopy _
  obtain ⟨hgrows, hready⟩ := dtReach_nops hreads h rfl
  refine ⟨{ s with off := off' }, [], plive, none, ?_, rfl, hgrows, fun p _ => ?_, rfl, hcopy⟩
  · rw [List.append_nil]
    exact hready
  · exact (hcs.link_none p).symm

/-- **One more node inside `c`**.
Source: `device_tree.c` `dt_initialize`
Kind: P -/
theorem forestParses_node (hgrants : ∀ k, env.grants k = true) {name : CStr} {props : List FdtProp}
    {children next : FdtForest} (hchildren : ForestParses env children)
    (hnext : ForestParses env next) : ForestParses env (.node name props children next) := by
  intro s live plive rest cs c r off' h hcs hcsLive hreads hroom hr hcopy hroot
  unfold FdtForest.need at hroom ⊢
  rw [FdtForest.tokens] at hreads
  obtain ⟨off₁, off₂, hnops, hbegin, hreads⟩ := hreads.cons
  have hrlive : r ∈ live := List.mem_of_head? hr
  have hr0 : r.2 = 0 := h.inv.array.head_index hr
  -- the node itself
  obtain ⟨hgrows₀, hready₀⟩ := dtReach_nops hnops h rfl
  have hcurr : s.curr = some c := h.inv.curr
  have hcs₀ : ∀ c', s.curr = some c' → SibChain s.nodes.cells (s.nodes.cells c').children cs := by
    intro c' hc'
    rw [hcurr] at hc'
    cases hc'
    exact hcs
  have hroom₀ : name.val.length + 1 ≤ s.bump.room := by omega
  obtain ⟨s₁, q, name', -, hready₁, hoff₁, hgrows₁, hpushed, hname, -, -⟩ :=
    hready₀.beginNode hgrants hbegin hroom₀ hcs₀ hcsLive (h.inv.sibChain_length hcs hcsLive)
  have hqlive : q ∉ live := hpushed.fresh
  have hqr : q ≠ r := fun hqr => hqlive (hqr ▸ hrlive)
  have hnode : s₁.nodes.cells q = ⟨name', 0, 0, none, s.curr, none, none⟩ := hpushed.node
  have hslotCurr : dtSlot s.curr cs = dtSlot (some c) cs := by rw [hcurr]
  have hcells₁ : ∀ p ∈ live, s₁.nodes.cells p =
      (dtSlot (some c) cs).link s.nodes.cells (some q) p := by
    intro p hp
    rw [hpushed.filled p hp, DtSlot.fill_cells, ← hslotCurr]
  have hcopy₁ : RootCopy s₁ r := by
    refine RootCopy.pushed hpushed h.inv.array hr (fun p hp => ?_) (fun hptr => ?_) hcopy
    · exact dtSlot_ptr_mem h.inv.curr h.inv.stack_live hcsLive hp
    · exact hroot (hslotCurr ▸ hptr)
  have hr₁ : (live ++ [q]).head? = some r := by
    rw [List.head?_append, hr]
    rfl
  -- what is inside
  have hroom₁ : propsNeed props + children.need ≤ s₁.bump.room := by
    have hleft : s₁.bump.room + (name.val.length + 1) = s.bump.room := hgrows₁.room
    omega
  obtain ⟨s₂, added₁, plive₂, hp, hc, hready₂, hreads₂, hgrows₂, hother₂, hcell₂, hprops₂, hforest₂,
      hcopy₂⟩ :=
    dtReach_body hgrants hchildren hready₁ (by rw [hnode]) (by rw [hnode]) (hoff₁ ▸ hreads) hroom₁ hr₁
      hcopy₁ fun heq => absurd heq hqr
  rw [hnode] at hcell₂
  have hcells₂ : ∀ p ∈ live, s₂.nodes.cells p =
      (dtSlot (some c) cs).link s.nodes.cells (some q) p := by
    intro p hp
    rw [hother₂ p (List.mem_append_left _ hp) fun hpq => hqlive (hpq ▸ hp), hcells₁ p hp]
  -- the nodes behind it
  have hchain₂ : SibChain s₂.nodes.cells (s₂.nodes.cells c).children (cs ++ [q]) := by
    refine hcs.link (hcs.sorted hcsLive h.inv.sibling) (fun p hp => ?_) (by rw [hcell₂])
    rcases List.mem_cons.mp hp with rfl | hp
    · exact hcells₂ p (h.inv.stack_live p List.mem_cons_self)
    · exact hcells₂ p (hcsLive p hp)
  have hroom₂ : next.need ≤ s₂.bump.room := by
    have hleft : s₁.bump.room + (name.val.length + 1) = s.bump.room := hgrows₁.room
    have := hgrows₂.room
    omega
  have hcsLive₂ : ∀ p ∈ cs ++ [q], p ∈ live ++ [q] ++ added₁ := by
    intro p hp
    refine List.mem_append_left _ ?_
    rcases List.mem_append.mp hp with hp | hp
    · exact List.mem_append_left _ (hcsLive p hp)
    · exact List.mem_append_right _ hp
  have hr₂ : (live ++ [q] ++ added₁).head? = some r := by
    rw [List.head?_append, hr₁]
    rfl
  obtain ⟨s₃, added₂, plive₃, hn, hready₃, hoff₃, hgrows₃, hcells₃, hforest₃, hcopy₃⟩ :=
    hnext hready₂ hchain₂ hcsLive₂ hreads₂ hroom₂ hr₂ hcopy₂ fun hptr => by
      rw [dtSlot_snoc] at hptr
      exact absurd (Option.some.inj hptr) hqr
  rw [dtSlot_snoc] at hcells₃
  have hkeep₃ : ∀ p ∈ live ++ [q] ++ added₁, p ≠ q → s₃.nodes.cells p = s₂.nodes.cells p := by
    intro p hp hpq
    rw [hcells₃ p hp]
    exact Function.update_of_ne hpq _ _
  have hqmem : q ∈ live ++ [q] ++ added₁ :=
    List.mem_append_left _ (List.mem_append_right _ (List.mem_singleton_self q))
  have hcell₃ : s₃.nodes.cells q = ⟨name', 0, 0, hp, s.curr, hc, hn⟩ := by
    rw [hcells₃ q hqmem]
    show Function.update s₂.nodes.cells q { s₂.nodes.cells q with sibling := hn } q = _
    rw [Function.update_self, hcell₂]
  have hqadded : q ∉ added₁ := by
    have hnodup := hready₂.inv.array.nodup
    have hdisj := List.disjoint_of_nodup_append hnodup
    exact hdisj (List.mem_append_right _ (List.mem_singleton_self q))
  have happend : live ++ [q] ++ added₁ ++ added₂ = live ++ q :: (added₁ ++ added₂) := by simp
  refine ⟨s₃, q :: (added₁ ++ added₂), plive₃, some q, ?_, hoff₃, ?_, fun p hp => ?_, ?_, hcopy₃⟩
  · rw [← happend]
    exact hready₃
  · have hall := ((hgrows₀.trans hgrows₁).trans hgrows₂).trans hgrows₃
    have hneed : 0 + (name.val.length + 1) + (propsNeed props + children.need) + next.need =
        name.val.length + 1 + propsNeed props + children.need + next.need := by omega
    rw [hneed] at hall
    exact hall
  · rw [hkeep₃ p (List.mem_append_left _ (List.mem_append_left _ hp)) fun hpq => hqlive (hpq ▸ hp),
      hcells₂ p hp]
  · have hgrows₁₃ := hgrows₂.trans hgrows₃
    have hheap₃ : s₃.heap.nodes q = ⟨name', 0, 0, hp, s.curr, hc, hn⟩ := hcell₃
    refine ⟨q, rfl, List.mem_cons_self, ?_⟩
    rw [hheap₃]
    refine ⟨hname.frame hgrows₁₃.bump, hprops₂.frame hgrows₃.properties hgrows₃.bump hgrows₃.sub, ?_, ?_⟩
    · refine hforest₂.frame ⟨fun p hp => ?_, hgrows₃.properties, hgrows₃.bump⟩ ?_ hgrows₃.sub
      · exact hkeep₃ p (List.mem_append_right _ hp) fun hpq => hqadded (hpq ▸ hp)
      · intro p hp
        exact List.mem_cons_of_mem _ (List.mem_append_left _ hp)
    · refine hforest₃.frame ⟨fun _ _ => rfl, fun _ _ => rfl, BumpFrame.refl _⟩ ?_ fun _ hq => hq
      intro p hp
      exact List.mem_cons_of_mem _ (List.mem_append_right _ hp)

/-- Source: none: infrastructure. Kind: L -/
theorem forestParses (hgrants : ∀ k, env.grants k = true) (f : FdtForest) : ForestParses env f := by
  induction f with
  | nil => exact forestParses_nil env
  | node name props children next ihchildren ihnext =>
      exact forestParses_node hgrants ihchildren ihnext

end forest

/-! ## The whole block -/

section block

variable {env : DtEnv} {s s' : DtState}

/-- Source: `device_tree.c` `dtb_parse_node`. Kind: L -/
theorem dtbParseNode_off (h : dtbParseNode env s = .ok s') : ∃ n, s'.off = s.off + alignUpU32 n := by
  unfold dtbParseNode at h
  split at h
  · cases h
  · split at h
    · cases h
    · dsimp only at h
      split at h
      · cases h
      · cases h
        exact ⟨_, rfl⟩

/-- Source: `device_tree.c` `dtb_parse_property`. Kind: L -/
theorem dtbParseProperty_off (h : dtbParseProperty env s = .ok s') :
    ∃ n, s'.off = s.off + 8 + alignUpU32 n := by
  unfold dtbParseProperty at h
  split at h
  · dsimp only at h
    split at h
    · cases h
    · split at h
      · cases h
      · cases h
        exact ⟨_, rfl⟩
  · cases h

/-- Source: `device_tree.c` `dt_initialize`. Kind: L -/
theorem dtbBeginNode_off (s : DtState) : (dtbBeginNode s).off = s.off := by
  unfold dtbBeginNode
  split
  · rfl
  · split_ifs <;> rfl

/-- A round that goes on has read a token in the block, and the next one is behind it.
Source: `device_tree.c` `dt_initialize`
Kind: L -/
theorem dtbStep_off (h : dtbStep env s = .ok s') :
    s.off + 4 ≤ env.structs.length ∧ s.off + 4 ≤ s'.off ∧ (s.off % 4 = 0 → s'.off % 4 = 0) := by
  have hdvd : ∀ n, alignUpU32 n % 4 = 0 := fun n => Nat.mul_mod_left _ _
  -- a round moves the offset by the token and a multiple of 4
  suffices hmoves : (∃ token, readU32 env.structs s.off = some token) ∧
      ∃ n, s'.off = s.off + 4 + n ∧ n % 4 = 0 by
    obtain ⟨⟨token, hread⟩, n, hoff, hn⟩ := hmoves
    exact ⟨le_length_of_readU32 hread, by omega, by omega⟩
  unfold dtbStep at h
  split_ifs at h
  cases hread : readU32 env.structs s.off with
  | none =>
      rw [hread] at h
      cases h
  | some token =>
      rw [hread] at h
      refine ⟨⟨token, rfl⟩, ?_⟩
      dsimp only at h
      by_cases hbegin : token = fdtBeginNode
      · rw [if_pos hbegin] at h
        cases hparse : dtbParseNode env { s with off := s.off + 4 } with
        | error stop =>
            rw [hparse] at h
            cases h
        | ok s₁ =>
            rw [hparse] at h
            cases h
            obtain ⟨n, hn⟩ := dtbParseNode_off hparse
            exact ⟨alignUpU32 n, (dtbBeginNode_off s₁).trans hn, hdvd n⟩
      · rw [if_neg hbegin] at h
        by_cases hend : token = fdtEndNode
        · rw [if_pos hend] at h
          split at h
          · cases h
          · split_ifs at h
            cases h
            exact ⟨0, rfl, rfl⟩
        · rw [if_neg hend] at h
          by_cases hprop : token = fdtProp
          · rw [if_pos hprop] at h
            obtain ⟨n, hn⟩ := dtbParseProperty_off h
            refine ⟨8 + alignUpU32 n, hn.trans (Nat.add_assoc _ _ _), ?_⟩
            rw [Nat.add_mod, hdvd n]
          · rw [if_neg hprop] at h
            split_ifs at h
            cases h
            exact ⟨0, rfl, rfl⟩

/-- The loop ends where a run ends.
Source: `device_tree.c` `dt_initialize`
Kind: L -/
theorem dtbLoop_of_reach {f : DtState} {stop : DtStop} {n : ℕ} (h : DtReach env s f)
    (hstop : dtbStep env f = .error stop) (hn : 0 < n)
    (hrounds : env.structs.length < s.off + 4 * n) : dtbLoop env n s = (stop, f) := by
  induction h using Relation.ReflTransGen.head_induction_on generalizing n with
  | refl =>
      obtain ⟨n, rfl⟩ := Nat.exists_eq_succ_of_ne_zero (Nat.ne_of_gt hn)
      rw [dtbLoop, hstop]
  | head hstep _ ih =>
      obtain ⟨n, rfl⟩ := Nat.exists_eq_succ_of_ne_zero (Nat.ne_of_gt hn)
      obtain ⟨hin, hnext, -⟩ := dtbStep_off hstep
      rw [dtbLoop, hstep]
      exact ih (by omega) (by omega)

/-- **Every token of a run that ends is read in the block**, at a multiple of 4.
Source: `device_tree.c` `dt_initialize`
Kind: L -/
theorem DtReach.off {f : DtState} {stop : DtStop} {token : BitVec 32} (h : DtReach env s f)
    (hstop : dtbStep env f = .error stop) (hread : readU32 env.structs f.off = some token)
    (haligned : s.off % 4 = 0) (hs' : DtReach env s s') :
    s'.off % 4 = 0 ∧ s'.off + 4 ≤ env.structs.length := by
  have hunique : Relator.RightUnique fun a b : DtState => dtbStep env a = .ok b := by
    intro a b c hb hc
    rw [hb] at hc
    exact Except.ok.inj hc
  constructor
  · clear h
    induction hs' with
    | refl => exact haligned
    | tail _ hstep ih => exact (dtbStep_off hstep).2.2 ih
  · -- the state is on the way to the last one, so it is that one or has a next round
    rcases Relation.ReflTransGen.total_of_right_unique hunique h hs' with hto | hto
    · rcases hto.cases_head with rfl | ⟨b, hstep, -⟩
      · exact le_length_of_readU32 hread
      · rw [hstop] at hstep
        cases hstep
    · rcases hto.cases_head with rfl | ⟨b, hstep, -⟩
      · exact le_length_of_readU32 hread
      · exact (dtbStep_off hstep).1

/-- The state in which the loop starts.
Source: none: infrastructure
Kind: L -/
theorem dtReady_init {bump : BumpAllocator} (h : BumpOk bump) : DtReady (dtbInit bump) [] [] [] :=
  ⟨dtInv_init bump, arrayLive_init _, h, rfl⟩

/-- **The root**: the first node is in the newest buffer, with room for more.
Source: `device_tree.c` `dt_initialize`, `array.h` `ARRAY_PUSH`
Kind: L -/
theorem dtReach_root (hgrants : ∀ k, env.grants k = true) {bump : BumpAllocator} (hbump : BumpOk bump)
    {name : CStr} {ts : List FdtToken} {off' : ℕ} (hroom : name.val.length + 1 ≤ bump.room)
    (hreads : Reads env 0 (.beginNode name :: ts) off') :
    ∃ s name', DtReady s [(0, 0)] [] [(0, 0)] ∧ Reads env s.off ts off' ∧
      DtGrows env (dtbInit bump) s [] [] (name.val.length + 1) ∧
      s.nodes.cells (0, 0) = ⟨name', 0, 0, none, none, none, none⟩ ∧ NameRep s.heap true name name' ∧
      s.nodes.data = some 0 ∧ s.nodes.size < s.nodes.capacity := by
  obtain ⟨off₁, off₂, hnops, hbegin, hreads⟩ := hreads.cons
  obtain ⟨hgrows₀, hready₀⟩ := dtReach_nops hnops (dtReady_init hbump) rfl
  have hnone : ∀ c, (dtbInit bump).curr = some c →
      SibChain (dtbInit bump).nodes.cells ((dtbInit bump).nodes.cells c).children [] := nofun
  obtain ⟨s, r, name', nodes, hready, hoff, hgrows, hpushed, hname, hnodes, hforget⟩ :=
    hready₀.beginNode hgrants hbegin hroom hnone nofun (Nat.zero_le _)
  have hfirst : s.nodes.data = some 0 := by
    have hdata : s.nodes.data = s.nodes.forget.data := rfl
    rw [hdata, hforget]
    cases hnodes
    rfl
  obtain rfl : r = (0, 0) := by
    have hdata := hpushed.data
    rw [hfirst] at hdata
    exact Prod.ext (Option.some.inj hdata).symm hpushed.index
  refine ⟨s, name', hready, hoff ▸ hreads, ?_, hpushed.node, hname, hfirst, ?_⟩
  · have hall := hgrows₀.trans hgrows
    rw [Nat.zero_add] at hall
    exact hall
  · -- a page has room for 85 nodes
    have hsize : s.nodes.size = s.nodes.forget.size := rfl
    have hcapacity : s.nodes.capacity = s.nodes.forget.capacity := rfl
    rw [hsize, hcapacity, hforget]
    cases hnodes
    show 1 < 85
    omega

/-- **The end of the loop** on a block that encodes a tree. The root of the rewrite pass is a copy of the
first node, which the other nodes are behind.
Source: `device_tree.c` `dt_initialize`, `array.h` `ARRAY_PUSH`
Kind: P -/
theorem dtbParse_ready (env : DtEnv) (bump : BumpAllocator) (t : FdtTree) (hblock : EncodesTree env t)
    (hgrants : ∀ k, env.grants k = true) (hbump : BumpOk bump) (hroom : t.need ≤ bump.room) :
    ∃ s root added plive, dtbParse env bump = .rewrite s root ∧ DtReach env (dtbInit bump) s ∧
      readU32 env.structs s.off = some fdtEnd ∧ DtReady s ((0, 0) :: added) plive [] ∧
      BumpFrame bump s.bump ∧ s.nodes.cells root = s.nodes.cells (0, 0) ∧
      TreeRep s.heap added plive root t := by
  obtain ⟨l, rest, hencodes, hstructs⟩ := hblock
  have hdrop : env.structs.drop 0 = l ++ (beU32 fdtEnd ++ rest) := hstructs
  obtain ⟨hreads, hend⟩ := hencodes.reads hdrop
  unfold FdtTree.need at hroom
  -- the root, what is inside it, and the last `FDT_NOP`
  obtain ⟨s₁, name', hready₁, hreads₁, hgrows₁, hnode₁, hname₁, hdata₁, hcap₁⟩ :=
    dtReach_root hgrants hbump (by omega) hreads
  have hcopy₁ : RootCopy s₁ (0, 0) := ⟨0, hdata₁, rfl⟩
  have hroom₁ : propsNeed t.props + t.children.need ≤ s₁.bump.room := by
    have hleft : s₁.bump.room + (t.name.val.length + 1) = bump.room := hgrows₁.room
    omega
  obtain ⟨s₂, added, plive, hp, hc, hready₂, hreads₂, hgrows₂, -, hcell₂, hprops₂, hforest₂, hcopy₂⟩ :=
    dtReach_body hgrants (forestParses hgrants t.children) hready₁ (by rw [hnode₁]) (by rw [hnode₁])
      hreads₁ hroom₁ rfl hcopy₁ fun _ => ⟨hdata₁, hcap₁⟩
  obtain ⟨hgrows₃, hready₃⟩ := dtReach_nops hreads₂ hready₂ rfl
  set s : DtState := { s₂ with off := 0 + l.length } with hs
  have hgrows := (hgrows₁.trans hgrows₂).trans hgrows₃
  have hread : readU32 env.structs s.off = some fdtEnd := readU32_beU32 hend
  -- the last round
  have hstop : dtbStep env s = .error .rewritePass := by
    rw [dtbStep_of_token hready₃.aligned hread, show s.curr = none from hready₂.inv.curr]
    rfl
  have hloop : dtbLoop env (env.structs.length + 1) (dtbInit bump) = (.rewritePass, s) := by
    refine dtbLoop_of_reach hgrows.reach hstop (Nat.succ_pos _) ?_
    omega
  obtain ⟨d, hd, hcopy⟩ := hcopy₂
  have hsize : ¬ s.nodes.size = 0 := by
    have hlen := hready₂.inv.array.length
    rw [List.length_append] at hlen
    show ¬ s₂.nodes.size = 0
    rw [← hlen]
    simp
  refine ⟨s, (d, 0), added, plive, ?_, hgrows.reach, hread, hready₃, hgrows.bump, hcopy, ?_⟩
  · unfold dtbParse
    rw [hloop]
    dsimp only
    rw [if_neg hsize, show s.nodes.data = some d from hd]
    rfl
  · have hroot : s.heap.nodes (d, 0) = ⟨name', 0, 0, hp, none, hc, none⟩ := by
      show s₂.nodes.cells (d, 0) = _
      rw [hcopy, hcell₂, hnode₁]
    unfold TreeRep
    rw [hroot]
    exact ⟨hname₁.frame hgrows₂.bump, hprops₂, hforest₂, rfl⟩

/-- **Parsing inverts flattening**: on a block that encodes a tree the loop ends at `FDT_END` with no open
node, every token is read in the block at a multiple of 4, and the tree is at the root that the rewrite
pass starts from, through the pointers `live` and `plive` as they were when the nodes and the properties
were pushed.
Source: `device_tree.c` `dt_initialize`, `dtb_parse_node`, `dtb_parse_property`, `array.h` `ARRAY_PUSH`
Kind: P
Hyps: the allocations succeed: `pmm_alloc_aligned` in `ARRAY_PUSH`, and the bump allocator has room for
the names and the values -/
theorem dtbParse_of_encodesTree (env : DtEnv) (bump : BumpAllocator) (t : FdtTree)
    (hblock : EncodesTree env t) (hgrants : ∀ k, env.grants k = true) (hbump : BumpOk bump)
    (hroom : t.need ≤ bump.room) :
    ∃ s root live plive, dtbParse env bump = .rewrite s root ∧
      DtReach env (dtbInit bump) s ∧ s.curr = none ∧ readU32 env.structs s.off = some fdtEnd ∧
      (∀ s', DtReach env (dtbInit bump) s' → s'.off % 4 = 0 ∧ s'.off + 4 ≤ env.structs.length) ∧
      ArrayLive s.nodes live ∧ ArrayLive s.properties plive ∧ TreeRep s.heap live plive root t := by
  obtain ⟨s, root, added, plive, hparse, hreach, hread, hready, -, -, hname, hprops, hchildren,
    hsibling⟩ := dtbParse_ready env bump t hblock hgrants hbump hroom
  have hcurr : s.curr = none := hready.inv.curr
  have hstop : dtbStep env s = .error .rewritePass := by
    rw [dtbStep_of_token hready.aligned hread, hcurr]
    rfl
  refine ⟨s, root, (0, 0) :: added, plive, hparse, hreach, hcurr, hread,
    fun s' hs' => hreach.off hstop hread rfl hs', hready.inv.array, hready.props, hname, hprops, ?_,
    hsibling⟩
  refine hchildren.frame ⟨fun _ _ => rfl, fun _ _ => rfl, BumpFrame.refl _⟩ ?_ fun _ hq => hq
  exact fun p hp => List.mem_cons_of_mem _ hp

end block

/-- A root without a name that has the property `x` with the value `1 2`, and the node `a` inside.
Source: none: infrastructure
Kind: D -/
def propTree : FdtTree :=
  ⟨⟨[], List.not_mem_nil⟩, [⟨⟨[120], by decide⟩, [1, 2]⟩], .node ⟨[97], by decide⟩ [] .nil .nil⟩

/-- A block that encodes it, with `FDT_NOP` in two places, and `x` in the strings block.
Source: none: infrastructure
Kind: D -/
def propEnv : DtEnv where
  structs := [0, 0, 0, 1, 0, 0, 0, 0, 0, 0, 0, 3, 0, 0, 0, 2, 0, 0, 0, 0, 1, 2, 0, 0, 0, 0, 0, 4, 0, 0, 0, 1,
    97, 0, 0, 0, 0, 0, 0, 2, 0, 0, 0, 2, 0, 0, 0, 4, 0, 0, 0, 9]
  mem := fun a => if a = 0x82000000 then 120 else 0
  strings := 0x82000000
  assertions := true
  grants := fun _ => true

/-- Source: none: infrastructure. Kind: L -/
theorem cstringAt_propEnv :
    CStringAt propEnv.mem (propEnv.strings + (0 : BitVec 32).setWidth 64) [120] := by
  intro i b hb
  match i with
  | 0 =>
      cases hb
      rfl
  | 1 =>
      cases hb
      rfl
  | i + 2 => cases hb

/-- Source: none: infrastructure. Kind: L -/
theorem encodesTree_propEnv : EncodesTree propEnv propTree := by
  refine ⟨propEnv.structs.take 48, [], ?_, rfl⟩
  have hend : Encodes propEnv [.endNode, .endNode]
      (beU32 fdtEndNode ++ (beU32 fdtEndNode ++ (beU32 fdtNop ++ []))) := .endNode (.endNode (.nop .nil))
  have hnode : Encodes propEnv [.beginNode ⟨[97], by decide⟩, .endNode, .endNode]
      (beU32 fdtBeginNode ++ ([97] ++ 0 :: ([0, 0] ++ _))) := .beginNode rfl hend
  have hprop : Encodes propEnv
      [.prop ⟨⟨[120], by decide⟩, [1, 2]⟩, .beginNode ⟨[97], by decide⟩, .endNode, .endNode]
      (beU32 fdtProp ++ (beU32 2 ++ (beU32 0 ++ ([1, 2] ++ ([0, 0] ++ (beU32 fdtNop ++ _)))))) :=
    .prop rfl cstringAt_propEnv rfl (.nop hnode)
  have hroot : Encodes propEnv propTree.tokens (beU32 fdtBeginNode ++ ([] ++ 0 :: ([0, 0, 0] ++ _))) :=
    .beginNode rfl hprop
  exact hroot

/-- Source: none: infrastructure. Kind: C -/
theorem dtbParse_propEnv :
    ∃ s root live plive, dtbParse propEnv twoPageBump = .rewrite s root ∧
      DtReach propEnv (dtbInit twoPageBump) s ∧ s.curr = none ∧
      readU32 propEnv.structs s.off = some fdtEnd ∧
      (∀ s', DtReach propEnv (dtbInit twoPageBump) s' →
        s'.off % 4 = 0 ∧ s'.off + 4 ≤ propEnv.structs.length) ∧
      ArrayLive s.nodes live ∧ ArrayLive s.properties plive ∧
      TreeRep s.heap live plive root propTree :=
  dtbParse_of_encodesTree propEnv twoPageBump propTree encodesTree_propEnv (fun _ => rfl)
    bumpOk_twoPageBump (by decide)

end Octiron.Kernel
