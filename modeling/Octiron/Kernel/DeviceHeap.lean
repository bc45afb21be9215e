import Octiron.Kernel.DeviceBlob

/-!
# Device trees in memory

How the nodes and properties in the arrays stand for a device tree.

* `DtHeap` — what the pointers of the loop lead to: cells of nodes and of properties, and the strings
  and values in the bump allocator's buffer.
* `PropsRep`, `ForestRep`, `TreeRep` — a list of properties, the nodes from a pointer on, and a tree.
  `ns` and `ps` are the pointers that the nodes and the properties may be at.
* `DtFrame` — a change that leaves these pointers and the buffer alone keeps what is there
  (`PropsRep.frame`, `ForestRep.frame`).
* `DtSlot.link` — the cells when a slot leads to a node.
* **Main result** (`SibChain.link`): linking in a node makes it the last of the siblings.
-/

namespace Octiron.Kernel

open Octiron.Found
open Octiron.Kzadhbat

/-! ## Representation -/

/-- What the pointers lead to.
Source: none: infrastructure
Kind: D -/
structure DtHeap where
  nodes : ArrayPtr → DtNode
  properties : ArrayPtr → DtProperty
  bump : BumpAllocator

/-- Source: none: infrastructure. Kind: D -/
def DtState.heap (s : DtState) : DtHeap := ⟨s.nodes.cells, s.properties.cells, s.bump⟩

/-- The name of a node; a root without a name has the name `"/"`.
Source: `device_tree.c` `dt_initialize`
Kind: D -/
def NameRep (h : DtHeap) (root : Bool) (name : CStr) (n : DtName) : Prop :=
  if root = true ∧ name.val = [] then n = .slash
  else ∃ p, n = .copied p ∧ BumpHolds h.bump p (name.val ++ [0])

/-- The property at `q` is `p`: its name, its length and the bytes of its value.
Source: `device_tree.c` `struct dtProperty`
Kind: D -/
def PropRep (h : DtHeap) (p : FdtProp) (q : ArrayPtr) : Prop :=
  BumpHolds h.bump (h.properties q).name (p.name.val ++ [0]) ∧ (h.properties q).type = .raw ∧
    ∃ len value, (h.properties q).data = .raw len value ∧ len.toNat = p.value.length ∧
      (p.value ≠ [] → BumpHolds h.bump value p.value)

/-- The properties from `head` on.
Source: `device_tree.c` `struct dtProperty`
Kind: D -/
def PropsRep (h : DtHeap) (ps : List ArrayPtr) : Option ArrayPtr → List FdtProp → Prop
  | head, [] => head = none
  | head, p :: props => ∃ q, head = some q ∧ q ∈ ps ∧ PropRep h p q ∧
      PropsRep h ps (h.properties q).next props

/-- **The nodes from `head` on**: each has its properties in reverse order, its subnodes from `children`
on and the following nodes from `sibling` on.
Source: `device_tree.c` `struct dtNode`
Kind: D -/
def ForestRep (h : DtHeap) (ns ps : List ArrayPtr) : Option ArrayPtr → FdtForest → Prop
  | head, .nil => head = none
  | head, .node name props children rest => ∃ q, head = some q ∧ q ∈ ns ∧
      NameRep h false name (h.nodes q).name ∧ PropsRep h ps (h.nodes q).properties props.reverse ∧
      ForestRep h ns ps (h.nodes q).children children ∧ ForestRep h ns ps (h.nodes q).sibling rest

/-- **The tree at `root`**.
Source: `device_tree.c` `struct dtNode`
Kind: D -/
def TreeRep (h : DtHeap) (ns ps : List ArrayPtr) (root : ArrayPtr) (t : FdtTree) : Prop :=
  NameRep h true t.name (h.nodes root).name ∧
    PropsRep h ps (h.nodes root).properties t.props.reverse ∧
    ForestRep h ns ps (h.nodes root).children t.children ∧ (h.nodes root).sibling = none

/-- What stays as it is: the nodes at `ns`, the properties at `ps`, and what has been copied.
Source: none: infrastructure
Kind: D -/
structure DtFrame (h h' : DtHeap) (ns ps : List ArrayPtr) : Prop where
  nodes : ∀ q ∈ ns, h'.nodes q = h.nodes q
  properties : ∀ q ∈ ps, h'.properties q = h.properties q
  bump : BumpFrame h.bump h'.bump

section frame

variable {h h' : DtHeap} {ns ns' ps ps' : List ArrayPtr}

/-- Source: none: infrastructure. Kind: L -/
theorem NameRep.frame {root : Bool} {name : CStr} {n : DtName} (hn : NameRep h root name n)
    (hf : BumpFrame h.bump h'.bump) : NameRep h' root name n := by
  unfold NameRep at hn ⊢
  by_cases hroot : root = true ∧ name.val = []
  · rw [if_pos hroot] at hn ⊢
    exact hn
  · rw [if_neg hroot] at hn ⊢
    obtain ⟨p, hp, hholds⟩ := hn
    exact ⟨p, hp, hholds.frame hf⟩

/-- Source: none: infrastructure. Kind: L -/
theorem PropsRep.frame {head : Option ArrayPtr} {props : List FdtProp}
    (hp : PropsRep h ps head props) (hprops : ∀ q ∈ ps, h'.properties q = h.properties q)
    (hbump : BumpFrame h.bump h'.bump) (hps : ps ⊆ ps') : PropsRep h' ps' head props := by
  induction props generalizing head with
  | nil => exact hp
  | cons p props ih =>
      obtain ⟨q, hq, hmem, ⟨hname, htype, len, value, hdata, hlen, hvalue⟩, hnext⟩ := hp
      refine ⟨q, hq, hps hmem, ?_, ?_⟩
      · unfold PropRep
        rw [hprops q hmem]
        exact ⟨hname.frame hbump, htype, len, value, hdata, hlen, fun hne => (hvalue hne).frame hbump⟩
      · rw [hprops q hmem]
        exact ih hnext

/-- **What is not touched stays**.
Source: none: infrastructure
Kind: L -/
theorem ForestRep.frame {head : Option ArrayPtr} {f : FdtForest} (hr : ForestRep h ns ps head f)
    (hf : DtFrame h h' ns ps) (hns : ns ⊆ ns') (hps : ps ⊆ ps') : ForestRep h' ns' ps' head f := by
  induction f generalizing head with
  | nil => exact hr
  | node name props children rest ihchildren ihrest =>
      obtain ⟨q, hq, hmem, hname, hprops, hchildren, hrest⟩ := hr
      refine ⟨q, hq, hns hmem, ?_⟩
      rw [hf.nodes q hmem]
      exact ⟨hname.frame hf.bump, hprops.frame hf.properties hf.bump hps, ihchildren hchildren,
        ihrest hrest⟩

end frame

/-! ## Links -/

/-- The cells when the slot leads to `head`.
Source: `device_tree.c` `dtb_parse_node`
Kind: D -/
def DtSlot.link (cells : ArrayPtr → DtNode) (head : Option ArrayPtr) : DtSlot → ArrayPtr → DtNode
  | .top => cells
  | .child c => Function.update cells c { cells c with children := head }
  | .after l => Function.update cells l { cells l with sibling := head }

section links

variable {cells cells' : ArrayPtr → DtNode} {cs : List ArrayPtr} {c : ArrayPtr}

/-- Source: none: infrastructure. Kind: L -/
theorem DtSlot.fill_cells (nodes : KArray DtNode) (new : ArrayPtr) (slot : DtSlot) :
    (slot.fill nodes new).cells = slot.link nodes.cells (some new) := by
  cases slot <;> rfl

/-- Source: none: infrastructure. Kind: L -/
theorem DtSlot.link_of_ne {slot : DtSlot} {p : ArrayPtr} (head : Option ArrayPtr)
    (h : slot.ptr ≠ some p) : slot.link cells head p = cells p := by
  cases slot with
  | top => rfl
  | child c => exact Function.update_of_ne (fun hp => h (congrArg some hp.symm)) _ _
  | after l => exact Function.update_of_ne (fun hp => h (congrArg some hp.symm)) _ _

/-- The last of the siblings has none.
Source: none: infrastructure
Kind: L -/
theorem SibChain.last {head : Option ArrayPtr} {l : ArrayPtr} (h : SibChain cells head cs)
    (hl : cs.getLast? = some l) : (cells l).sibling = none := by
  induction cs generalizing head with
  | nil => cases hl
  | cons p cs ih =>
      cases cs with
      | nil =>
          cases hl
          exact h.2
      | cons q cs =>
          rw [List.getLast?_cons_cons] at hl
          exact ih h.2 hl

/-- A slot leads nowhere before it is filled.
Source: none: infrastructure
Kind: L -/
theorem SibChain.link_none (h : SibChain cells (cells c).children cs) (p : ArrayPtr) :
    (dtSlot (some c) cs).link cells none p = cells p := by
  unfold dtSlot
  dsimp only
  cases hl : cs.getLast? with
  | none =>
      rw [List.getLast?_eq_none_iff] at hl
      subst hl
      have hnone : (cells c).children = none := h
      unfold DtSlot.link
      dsimp only
      rw [← hnone, Function.update_eq_self]
  | some l =>
      have hnone := h.last hl
      unfold DtSlot.link
      dsimp only
      rw [← hnone, Function.update_eq_self]

/-- Siblings that were pushed one after the other are different.
Source: none: infrastructure
Kind: L -/
theorem SibChain.sorted {live : List ArrayPtr} {head : Option ArrayPtr} (h : SibChain cells head cs)
    (hlive : ∀ p ∈ cs, p ∈ live)
    (hsib : ∀ p ∈ live, ∀ q, (cells p).sibling = some q → q ∈ live ∧ p.2 < q.2) :
    cs.Pairwise fun p q => p.2 < q.2 := by
  induction cs generalizing head with
  | nil => exact .nil
  | cons p cs ih =>
      have htail := ih h.2 fun q hq => hlive q (List.mem_cons_of_mem _ hq)
      refine List.pairwise_cons.mpr ⟨fun r hr => ?_, htail⟩
      cases cs with
      | nil => exact absurd hr List.not_mem_nil
      | cons q cs =>
          have hpq := (hsib p (hlive p List.mem_cons_self) q h.2.1).2
          rcases List.mem_cons.mp hr with rfl | hr
          · exact hpq
          · exact hpq.trans (List.rel_of_pairwise_cons htail hr)

/-- One more sibling.
Source: none: infrastructure
Kind: L -/
theorem SibChain.snoc {head : Option ArrayPtr} {l new : ArrayPtr} (h : SibChain cells head cs)
    (hl : cs.getLast? = some l) (hsorted : cs.Pairwise fun p q => p.2 < q.2)
    (hkeep : ∀ p ∈ cs, p ≠ l → (cells' p).sibling = (cells p).sibling)
    (hlink : (cells' l).sibling = some new) (hnew : (cells' new).sibling = none) :
    SibChain cells' head (cs ++ [new]) := by
  induction cs generalizing head with
  | nil => cases hl
  | cons p cs ih =>
      refine ⟨h.1, ?_⟩
      cases cs with
      | nil =>
          cases hl
          exact ⟨hlink, hnew⟩
      | cons q cs =>
          rw [List.getLast?_cons_cons] at hl
          have hpl : p ≠ l := by
            intro hpl
            have hlt := List.rel_of_pairwise_cons hsorted (List.mem_of_getLast? hl)
            rw [hpl] at hlt
            exact absurd hlt (lt_irrefl _)
          rw [hkeep p List.mem_cons_self hpl]
          exact ih h.2 hl hsorted.of_cons fun r hr => hkeep r (List.mem_cons_of_mem _ hr)

/-- **A node that has been linked in is the last of the siblings**.
Source: `device_tree.c` `dtb_parse_node`
Kind: L -/
theorem SibChain.link {new : ArrayPtr} (h : SibChain cells (cells c).children cs)
    (hsorted : cs.Pairwise fun p q => p.2 < q.2)
    (hcells : ∀ p ∈ c :: cs, cells' p = (dtSlot (some c) cs).link cells (some new) p)
    (hnew : (cells' new).sibling = none) : SibChain cells' (cells' c).children (cs ++ [new]) := by
  have hc := hcells c List.mem_cons_self
  have hcs := fun p hp => hcells p (List.mem_cons_of_mem _ hp)
  unfold dtSlot at hc hcs
  dsimp only at hc hcs
  cases hl : cs.getLast? with
  | none =>
      rw [List.getLast?_eq_none_iff] at hl
      subst hl
      refine ⟨?_, hnew⟩
      rw [hc]
      simp [DtSlot.link]
  | some l =>
      rw [hl] at hc hcs
      unfold DtSlot.link at hc hcs
      dsimp only at hc hcs
      have hchildren : (cells' c).children = (cells c).children := by
        rw [hc]
        by_cases hcl : c = l
        · rw [← hcl, Function.update_self]
        · rw [Function.update_of_ne hcl]
      rw [hchildren]
      refine h.snoc hl hsorted (fun p hp hpl => ?_) ?_ hnew
      · rw [hcs p hp, Function.update_of_ne hpl]
      · rw [hcs l (List.mem_of_getLast? hl), Function.update_self]

end links

end Octiron.Kernel
