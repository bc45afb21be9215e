import Octiron.Kernel.DeviceTree
import Mathlib.Data.List.TakeWhile

/-!
# The tokens of a structure block

What one round of the loop of `dt_initialize` does, token by token.

* `DtToken`, `DtEnding`, `dtLex`, `dtTokens` — the tokens of a block with their payloads, and what the
  reading ends at: `FDT_END`, a word that is no token, or the end of the block.
* `DtInv s live stack` — what the arrays and the pointers of the loop are like: `live` are the nodes
  that have been pushed and `stack` those that are open, the innermost first.
* `DtSlot`, `DtSlot.fill` — where `dtb_parse_node` links in the new node.
* **Main results** (`dtbStep_nop`, `dtbStep_endNode`, `dtbStep_prop`, `dtbStep_beginNode`,
  `dtbStep_of_ending`): one round for each kind of token, and `DtInv` after it.
-/

namespace Octiron.Kernel

open Octiron.Found
open Octiron.Kzadhbat

/-! ## Tokens -/

/-- A token with its payload. The value of a property is cut off where the block ends.
Source: `device_tree.c` `enum dtb_StructureToken`
Kind: D -/
inductive DtToken
  | beginNode (name : List (BitVec 8))
  | endNode
  | prop (propLen nameOffset : BitVec 32) (value : List (BitVec 8))
  | nop
  deriving DecidableEq

/-- Where the tokens end.
Source: `device_tree.c` `dt_initialize`
Kind: D -/
inductive DtEnding
  | fdtEnd
  | unknown (token : BitVec 32)
  | pastEnd
  deriving DecidableEq

/-- What is at an offset: a token and the offset behind it, or none.
Source: none: infrastructure
Kind: D -/
inductive DtLex
  | tok (t : DtToken) (off : ℕ)
  | ending (e : DtEnding)

/-- The token at `off`.
Source: `device_tree.c` `dt_initialize`, `dtb_parse_node`, `dtb_parse_property`
Kind: D -/
def dtLex (structs : List (BitVec 8)) (off : ℕ) : DtLex :=
  match readU32 structs off with
  | none => .ending .pastEnd
  | some token =>
    if token = fdtBeginNode then
      match cstrAt structs (off + 4) with
      | none => .ending .pastEnd
      | some name => .tok (.beginNode name) (off + 4 + alignUpU32 (name.length + 1))
    else if token = fdtEndNode then .tok .endNode (off + 4)
    else if token = fdtProp then
      match readU32 structs (off + 4), readU32 structs (off + 4 + 4) with
      | some propLen, some nameOffset =>
        .tok (.prop propLen nameOffset ((structs.drop (off + 4 + 8)).take propLen.toNat))
          (off + 4 + 8 + alignUpU32 propLen.toNat)
      | _, _ => .ending .pastEnd
    else if token = fdtNop then .tok .nop (off + 4)
    else if token = fdtEnd then .ending .fdtEnd
    else .ending (.unknown token)

/-- The tokens from `off` on, at most `n` of them.
Source: none: infrastructure
Kind: D -/
def dtTokensFrom (structs : List (BitVec 8)) : ℕ → ℕ → List DtToken × DtEnding
  | 0, _ => ([], .pastEnd)
  | n + 1, off =>
      match dtLex structs off with
      | .tok t off' => (t :: (dtTokensFrom structs n off').1, (dtTokensFrom structs n off').2)
      | .ending e => ([], e)

/-- **The tokens of a structure block**, and what they end at.
Source: none: infrastructure
Kind: D -/
def dtTokens (structs : List (BitVec 8)) : List DtToken × DtEnding :=
  dtTokensFrom structs (structs.length + 1) 0

section lex

variable {structs : List (BitVec 8)} {off off' : ℕ} {t : DtToken}

/-- Source: none: infrastructure. Kind: L -/
theorem readU32_some_iff {w : BitVec 32} : readU32 structs off = some w ↔
    ∃ b₀ b₁ b₂ b₃ rest, structs.drop off = b₀ :: b₁ :: b₂ :: b₃ :: rest ∧
      w = b₀ ++ b₁ ++ b₂ ++ b₃ := by
  unfold readU32
  constructor
  · intro h
    split at h
    · rename_i b₀ b₁ b₂ b₃ rest heq
      cases h
      exact ⟨b₀, b₁, b₂, b₃, rest, heq, readBigEndianU32_eq b₀ b₁ b₂ b₃⟩
    · cases h
  · rintro ⟨b₀, b₁, b₂, b₃, rest, heq, rfl⟩
    rw [heq]
    dsimp only
    rw [readBigEndianU32_eq]

/-- Source: none: infrastructure. Kind: L -/
theorem le_length_of_readU32 {w : BitVec 32} (h : readU32 structs off = some w) :
    off + 4 ≤ structs.length := by
  obtain ⟨b₀, b₁, b₂, b₃, rest, heq, -⟩ := readU32_some_iff.mp h
  have hlen := congrArg List.length heq
  simp only [List.length_drop, List.length_cons] at hlen
  omega

/-- Source: none: infrastructure. Kind: L -/
theorem cstrAt_some {name : List (BitVec 8)} (h : cstrAt structs off = some name) :
    0 ∉ name ∧ off + name.length < structs.length := by
  unfold cstrAt at h
  dsimp only at h
  split_ifs at h with hlt
  cases h
  refine ⟨fun hmem => ?_, hlt⟩
  have := List.mem_takeWhile_imp hmem
  simp at this

/-- The cases of `dtLex` that give a token.
Source: none: infrastructure
Kind: L -/
theorem dtLex_tok_cases (h : dtLex structs off = .tok t off') :
    (readU32 structs off = some fdtBeginNode ∧ ∃ name, t = .beginNode name ∧
      cstrAt structs (off + 4) = some name ∧ off' = off + 4 + alignUpU32 (name.length + 1)) ∨
    (readU32 structs off = some fdtEndNode ∧ t = .endNode ∧ off' = off + 4) ∨
    (readU32 structs off = some fdtProp ∧ ∃ propLen nameOffset,
      readU32 structs (off + 4) = some propLen ∧ readU32 structs (off + 4 + 4) = some nameOffset ∧
      t = .prop propLen nameOffset ((structs.drop (off + 4 + 8)).take propLen.toNat) ∧
      off' = off + 4 + 8 + alignUpU32 propLen.toNat) ∨
    (readU32 structs off = some fdtNop ∧ t = .nop ∧ off' = off + 4) := by
  unfold dtLex at h
  cases htoken : readU32 structs off with
  | none =>
      rw [htoken] at h
      cases h
  | some token =>
      rw [htoken] at h
      dsimp only at h
      split_ifs at h with hbegin hend hprop hnop
      · subst hbegin
        cases hname : cstrAt structs (off + 4) with
        | none =>
            rw [hname] at h
            cases h
        | some name =>
            rw [hname] at h
            cases h
            exact Or.inl ⟨rfl, name, rfl, rfl, rfl⟩
      · cases h
        exact Or.inr (Or.inl ⟨by rw [hend], rfl, rfl⟩)
      · subst hprop
        cases hlen : readU32 structs (off + 4) with
        | none =>
            rw [hlen] at h
            cases h
        | some propLen =>
            cases hname : readU32 structs (off + 4 + 4) with
            | none =>
                rw [hlen, hname] at h
                cases h
            | some nameOffset =>
                rw [hlen, hname] at h
                cases h
                exact Or.inr (Or.inr (Or.inl ⟨rfl, propLen, nameOffset, rfl, rfl, rfl, rfl⟩))
      · cases h
        exact Or.inr (Or.inr (Or.inr ⟨by rw [hnop], rfl, rfl⟩))

/-- A token lies in the block, and the next one starts at a multiple of 4 if it does.
Source: none: infrastructure
Kind: L -/
theorem dtLex_tok_off (h : dtLex structs off = .tok t off') :
    off + 4 ≤ structs.length ∧ off + 4 ≤ off' ∧ (off % 4 = 0 → off' % 4 = 0) := by
  have hdvd : ∀ n, alignUpU32 n % 4 = 0 := fun n => Nat.mul_mod_left _ _
  rcases dtLex_tok_cases h with ⟨hread, name, -, -, rfl⟩ | ⟨hread, -, rfl⟩ |
    ⟨hread, propLen, nameOffset, -, -, -, rfl⟩ | ⟨hread, -, rfl⟩
  · have := hdvd (name.length + 1)
    exact ⟨le_length_of_readU32 hread, by omega, by omega⟩
  · exact ⟨le_length_of_readU32 hread, le_refl _, by omega⟩
  · have := hdvd propLen.toNat
    exact ⟨le_length_of_readU32 hread, by omega, by omega⟩
  · exact ⟨le_length_of_readU32 hread, le_refl _, by omega⟩

/-- Source: none: infrastructure. Kind: L -/
theorem dtLex_beginNode {name : List (BitVec 8)}
    (h : dtLex structs off = .tok (.beginNode name) off') :
    readU32 structs off = some fdtBeginNode ∧ cstrAt structs (off + 4) = some name ∧
      off' = off + 4 + alignUpU32 (name.length + 1) := by
  rcases dtLex_tok_cases h with ⟨hread, name', ht, hcstr, hoff'⟩ | ⟨-, ht, -⟩ |
    ⟨-, propLen, nameOffset, -, -, ht, -⟩ | ⟨-, ht, -⟩
  · cases ht
    exact ⟨hread, hcstr, hoff'⟩
  · cases ht
  · cases ht
  · cases ht

/-- A name is shorter than the block.
Source: none: infrastructure
Kind: L -/
theorem dtLex_beginNode_length {name : List (BitVec 8)}
    (h : dtLex structs off = .tok (.beginNode name) off') : name.length + 1 ≤ structs.length := by
  have := (cstrAt_some (dtLex_beginNode h).2.1).2
  omega

end lex

/-! ## The pointers of the loop -/

/-- The siblings from `head` on are `cs`.
Source: none: infrastructure
Kind: D -/
def SibChain (cells : ArrayPtr → DtNode) : Option ArrayPtr → List ArrayPtr → Prop
  | head, [] => head = none
  | head, p :: cs => head = some p ∧ SibChain cells (cells p).sibling cs

/-- Each node of the stack has the next one as its parent, and the last has none.
Source: none: infrastructure
Kind: D -/
def ParentStack (cells : ArrayPtr → DtNode) : List ArrayPtr → Prop
  | [] => True
  | p :: stack => (cells p).parent = stack.head? ∧ ParentStack cells stack

/-- **The state of the loop**: `live` are the nodes in the order in which they were pushed, `stack` those
that are open. Links lead to pushed nodes, and to a sibling that was pushed later.
Source: none: infrastructure
Kind: D -/
structure DtInv (s : DtState) (live stack : List ArrayPtr) : Prop where
  array : ArrayLive s.nodes live
  curr : s.curr = stack.head?
  depth : s.depth = stack.length
  parents : ParentStack s.nodes.cells stack
  stack_live : ∀ p ∈ stack, p ∈ live
  children : ∀ p ∈ live, ∀ q, (s.nodes.cells p).children = some q → q ∈ live
  sibling : ∀ p ∈ live, ∀ q, (s.nodes.cells p).sibling = some q → q ∈ live ∧ p.2 < q.2

section pointers

variable {cells cells' : ArrayPtr → DtNode} {live stack : List ArrayPtr}

/-- Source: none: infrastructure. Kind: L -/
theorem SibChain.congr {head : Option ArrayPtr} {cs : List ArrayPtr} (h : SibChain cells head cs)
    (heq : ∀ p ∈ cs, (cells' p).sibling = (cells p).sibling) : SibChain cells' head cs := by
  induction cs generalizing head with
  | nil => exact h
  | cons p cs ih =>
      refine ⟨h.1, ?_⟩
      rw [heq p List.mem_cons_self]
      exact ih h.2 fun q hq => heq q (List.mem_cons_of_mem _ hq)

/-- Source: none: infrastructure. Kind: L -/
theorem ParentStack.congr (h : ParentStack cells stack)
    (heq : ∀ p ∈ stack, (cells' p).parent = (cells p).parent) : ParentStack cells' stack := by
  induction stack with
  | nil => trivial
  | cons p stack ih =>
      refine ⟨?_, ih h.2 fun q hq => heq q (List.mem_cons_of_mem _ hq)⟩
      rw [heq p List.mem_cons_self]
      exact h.1

/-- **Siblings that were pushed one after the other** are a finite chain.
Source: none: infrastructure
Kind: L -/
theorem exists_sibChain {size : ℕ} (hlt : ∀ p ∈ live, p.2 < size)
    (hsib : ∀ p ∈ live, ∀ q, (cells p).sibling = some q → q ∈ live ∧ p.2 < q.2)
    (head : Option ArrayPtr) (hhead : ∀ p, head = some p → p ∈ live) :
    ∃ cs, SibChain cells head cs ∧ (∀ p ∈ cs, p ∈ live) ∧ cs.length ≤ size := by
  -- the indices grow along the chain, so at most `size - p.2` nodes come from `p` on
  have hfrom : ∀ (n : ℕ) (p : ArrayPtr), p ∈ live → size ≤ n + p.2 →
      ∃ cs, SibChain cells (some p) cs ∧ (∀ q ∈ cs, q ∈ live) ∧ cs.length ≤ n := by
    intro n
    induction n with
    | zero =>
        intro p hp hle
        have := hlt p hp
        omega
    | succ n ih =>
        intro p hp hle
        cases hnext : (cells p).sibling with
        | none =>
            refine ⟨[p], ⟨rfl, hnext⟩, fun q hq => ?_, Nat.succ_pos n⟩
            rw [List.mem_singleton.mp hq]
            exact hp
        | some q =>
            obtain ⟨hq, hpq⟩ := hsib p hp q hnext
            obtain ⟨cs, hcs, hmem, hlen⟩ := ih q hq (by omega)
            refine ⟨p :: cs, ⟨rfl, hnext ▸ hcs⟩, fun r hr => ?_, Nat.succ_le_succ hlen⟩
            rcases List.mem_cons.mp hr with rfl | hr
            · exact hp
            · exact hmem r hr
  cases head with
  | none => exact ⟨[], rfl, fun p hp => absurd hp List.not_mem_nil, Nat.zero_le _⟩
  | some p => exact hfrom size p (hhead p rfl) (Nat.le_add_right _ _)

/-- The loop over the siblings ends at the last of them.
Source: `device_tree.c` `dtb_parse_node`
Kind: L -/
theorem dtbLastChild_of_sibChain {nodes : KArray DtNode} {p : ArrayPtr} {cs : List ArrayPtr} {n : ℕ}
    (h : SibChain nodes.cells (some p) cs) (hn : cs.length ≤ n) :
    dtbLastChild nodes n p = cs.getLast? := by
  induction cs generalizing p n with
  | nil => cases h
  | cons q cs ih =>
      obtain ⟨hq, hrest⟩ := h
      have hqp : q = p := (Option.some.inj hq).symm
      subst hqp
      cases n with
      | zero => exact absurd hn (Nat.not_succ_le_zero _)
      | succ n =>
          rw [dtbLastChild]
          cases hsib : (nodes.cells q).sibling with
          | none =>
              rw [hsib] at hrest
              cases cs with
              | nil => rfl
              | cons r cs => cases hrest.1
          | some r =>
              rw [hsib] at hrest
              dsimp only
              rw [ih hrest (Nat.le_of_succ_le_succ hn)]
              cases cs with
              | nil => cases hrest
              | cons r' cs => rw [List.getLast?_cons_cons]

end pointers

/-! ## Linking in a node -/

/-- The place where a new node is linked in: nowhere, as the first child of a node, or after a sibling.
Source: `device_tree.c` `dtb_parse_node`
Kind: D -/
inductive DtSlot
  | top
  | child (c : ArrayPtr)
  | after (l : ArrayPtr)

/-- The array with `new` in that place.
Source: `device_tree.c` `dtb_parse_node`
Kind: D -/
def DtSlot.fill (nodes : KArray DtNode) (new : ArrayPtr) : DtSlot → KArray DtNode
  | .top => nodes
  | .child c => nodes.modify c fun n => { n with children := some new }
  | .after l => nodes.modify l fun n => { n with sibling := some new }

/-- The place under `curr`, whose children are `cs`.
Source: `device_tree.c` `dtb_parse_node`
Kind: D -/
def dtSlot (curr : Option ArrayPtr) (cs : List ArrayPtr) : DtSlot :=
  match curr with
  | none => .top
  | some c =>
    match cs.getLast? with
    | none => .child c
    | some l => .after l

/-- Linking in a node fills its slot.
Source: `device_tree.c` `dtb_parse_node`
Kind: L -/
theorem dtbLinkChild_eq_fill {nodes : KArray DtNode} {c new : ArrayPtr} {cs : List ArrayPtr}
    (h : SibChain nodes.cells (nodes.cells c).children cs) (hlen : cs.length ≤ nodes.size) :
    dtbLinkChild nodes c new = some ((dtSlot (some c) cs).fill nodes new) := by
  unfold dtbLinkChild dtSlot
  cases hchild : (nodes.cells c).children with
  | none =>
      rw [hchild] at h
      cases cs with
      | nil => rfl
      | cons p cs => cases h.1
  | some p =>
      rw [hchild] at h
      dsimp only
      rw [dtbLastChild_of_sibChain h hlen]
      cases hlast : cs.getLast? with
      | none =>
          rw [List.getLast?_eq_none_iff] at hlast
          subst hlast
          cases h
      | some l => rfl

/-- The node that a slot changes.
Source: none: infrastructure
Kind: D -/
def DtSlot.ptr : DtSlot → Option ArrayPtr
  | .top => none
  | .child c => some c
  | .after l => some l

section fill

variable (nodes : KArray DtNode) (new : ArrayPtr)

/-- Source: none: infrastructure. Kind: L -/
theorem DtSlot.fill_cells_of_ne {slot : DtSlot} {p : ArrayPtr} (h : slot.ptr ≠ some p) :
    (slot.fill nodes new).cells p = nodes.cells p := by
  cases slot with
  | top => rfl
  | child c =>
      unfold DtSlot.fill
      exact nodes.modify_cells_of_ne _ fun hp => h (congrArg some hp.symm)
  | after l =>
      unfold DtSlot.fill
      exact nodes.modify_cells_of_ne _ fun hp => h (congrArg some hp.symm)

/-- A slot is filled alike where the nodes are alike.
Source: none: infrastructure
Kind: L -/
theorem DtSlot.fill_cells_congr {nodes nodes' : KArray DtNode} (new : ArrayPtr) (slot : DtSlot)
    {p : ArrayPtr} (h : nodes.cells p = nodes'.cells p) :
    (slot.fill nodes new).cells p = (slot.fill nodes' new).cells p := by
  cases slot with
  | top => exact h
  | child c =>
      unfold DtSlot.fill
      by_cases hpc : p = c
      · rw [hpc, KArray.modify_cells_self, KArray.modify_cells_self, ← hpc, h]
      · rw [KArray.modify_cells_of_ne _ _ hpc, KArray.modify_cells_of_ne _ _ hpc, h]
  | after l =>
      unfold DtSlot.fill
      by_cases hpl : p = l
      · rw [hpl, KArray.modify_cells_self, KArray.modify_cells_self, ← hpl, h]
      · rw [KArray.modify_cells_of_ne _ _ hpl, KArray.modify_cells_of_ne _ _ hpl, h]

/-- Filling a slot changes no parent.
Source: none: infrastructure
Kind: L -/
theorem DtSlot.fill_parent (slot : DtSlot) (p : ArrayPtr) :
    ((slot.fill nodes new).cells p).parent = (nodes.cells p).parent := by
  by_cases h : slot.ptr = some p
  · cases slot with
    | top => rfl
    | child c =>
        cases h
        simp only [DtSlot.fill, KArray.modify_cells_self]
    | after l =>
        cases h
        simp only [DtSlot.fill, KArray.modify_cells_self]
  · rw [DtSlot.fill_cells_of_ne nodes new h]

/-- A link after a slot has been filled is the new node, or was there before.
Source: none: infrastructure
Kind: L -/
theorem DtSlot.fill_links (slot : DtSlot) (p : ArrayPtr) :
    (((slot.fill nodes new).cells p).children = some new ∨
      ((slot.fill nodes new).cells p).children = (nodes.cells p).children) ∧
    ((slot.ptr = some p ∧ ((slot.fill nodes new).cells p).sibling = some new) ∨
      ((slot.fill nodes new).cells p).sibling = (nodes.cells p).sibling) := by
  by_cases h : slot.ptr = some p
  · cases slot with
    | top => exact ⟨Or.inr rfl, Or.inr rfl⟩
    | child c =>
        cases h
        simp [DtSlot.fill, DtSlot.ptr]
    | after l =>
        cases h
        simp [DtSlot.fill, DtSlot.ptr]
  · rw [DtSlot.fill_cells_of_ne nodes new h]
    exact ⟨Or.inr rfl, Or.inr rfl⟩

theorem DtSlot.fill_live {live : List ArrayPtr} {nodes : KArray DtNode} (slot : DtSlot)
    (h : ArrayLive nodes live) : ArrayLive (slot.fill nodes new) live := by
  cases slot with
  | top => exact h
  | child c =>
      unfold DtSlot.fill
      exact h.modify c _
  | after l =>
      unfold DtSlot.fill
      exact h.modify l _

theorem DtSlot.fill_forget (slot : DtSlot) : (slot.fill nodes new).forget = nodes.forget := by
  cases slot <;> rfl

end fill

/-- Source: none: infrastructure. Kind: L -/
theorem dtSlot_ptr_mem {live stack cs : List ArrayPtr} {curr : Option ArrayPtr}
    (hcurr : curr = stack.head?) (hstack : ∀ p ∈ stack, p ∈ live) (hcs : ∀ p ∈ cs, p ∈ live)
    {p : ArrayPtr} (h : (dtSlot curr cs).ptr = some p) : p ∈ live := by
  unfold dtSlot at h
  cases hc : curr with
  | none =>
      rw [hc] at h
      cases h
  | some c =>
      rw [hc] at h hcurr
      cases hlast : cs.getLast? with
      | none =>
          rw [hlast] at h
          have hcp : c = p := Option.some.inj h
          rw [← hcp]
          exact hstack c (List.mem_of_head? hcurr.symm)
      | some l =>
          rw [hlast] at h
          have hlp : l = p := Option.some.inj h
          rw [← hlp]
          exact hcs l (List.mem_of_getLast? hlast)

/-! ## One round -/

section step

variable {env : DtEnv} {s : DtState} {live stack : List ArrayPtr} {off' : ℕ}

/-- The round starts with its token.
Source: `device_tree.c` `dt_initialize`
Kind: L -/
theorem dtbStep_of_token {token : BitVec 32} (hoff : s.off % 4 = 0)
    (hread : readU32 env.structs s.off = some token) :
    dtbStep env s =
      if token = fdtBeginNode then (dtbParseNode env { s with off := s.off + 4 }).map dtbBeginNode
      else if token = fdtEndNode then
        match s.curr with
        | none => .error .nullCurr
        | some curr =>
          if s.depth = 0 then .error .depthUnderflow
          else .ok { s with
            curr := (s.nodes.cells curr).parent, depth := s.depth - 1, off := s.off + 4 }
      else if token = fdtProp then dtbParseProperty env { s with off := s.off + 4 }
      else if token = fdtNop then .ok { s with off := s.off + 4 }
      else if token = fdtEnd then
        if s.curr ≠ none then .error (.panic (.notRootNode s.depth)) else .error .rewritePass
      else .error (.panic (.unknownStructureType token)) := by
  unfold dtbStep
  simp only [hread]
  exact if_neg fun hh => hh.2 hoff

/-- `FDT_NOP`.
Source: `device_tree.c` `dt_initialize`
Kind: P -/
theorem dtbStep_nop (hoff : s.off % 4 = 0) (hlex : dtLex env.structs s.off = .tok .nop off') :
    dtbStep env s = .ok { s with off := off' } := by
  rcases dtLex_tok_cases hlex with ⟨-, name, ht, -⟩ | ⟨-, ht, -⟩ | ⟨-, propLen, nameOffset, -, -, ht, -⟩ |
    ⟨hread, -, rfl⟩
  · cases ht
  · cases ht
  · cases ht
  · rw [dtbStep_of_token hoff hread]
    rfl

/-- `FDT_END_NODE`: the parent of the open node is open, or there was none.
Source: `device_tree.c` `dt_initialize`
Kind: P -/
theorem dtbStep_endNode (h : DtInv s live stack) (hoff : s.off % 4 = 0)
    (hlex : dtLex env.structs s.off = .tok .endNode off') :
    (stack = [] ∧ dtbStep env s = .error .nullCurr) ∨
      ∃ c rest, stack = c :: rest ∧
        dtbStep env s = .ok { s with curr := rest.head?, depth := s.depth - 1, off := off' } ∧
        DtInv { s with curr := rest.head?, depth := s.depth - 1, off := off' } live rest := by
  rcases dtLex_tok_cases hlex with ⟨-, name, ht, -⟩ | ⟨hread, -, rfl⟩ |
    ⟨-, propLen, nameOffset, -, -, ht, -⟩ | ⟨-, ht, -⟩
  · cases ht
  · rw [dtbStep_of_token hoff hread, if_neg (by decide), if_pos rfl]
    cases stack with
    | nil =>
        have hcurr : s.curr = none := h.curr
        rw [hcurr]
        exact Or.inl ⟨rfl, rfl⟩
    | cons c rest =>
        have hcurr : s.curr = some c := h.curr
        have hdepth : ¬ s.depth = 0 := by
          rw [h.depth]
          exact Nat.succ_ne_zero _
        refine Or.inr ⟨c, rest, rfl, ?_, h.array, rfl, ?_, h.parents.2, ?_, h.children, h.sibling⟩
        · rw [hcurr]
          dsimp only
          rw [if_neg hdepth, h.parents.1]
        · show s.depth - 1 = rest.length
          rw [h.depth]
          rfl
        · exact fun p hp => h.stack_live p (List.mem_cons_of_mem _ hp)
  · cases ht
  · cases ht

/-- **The end of the tokens**.
Source: `device_tree.c` `dt_initialize`
Kind: P -/
theorem dtbStep_of_ending {e : DtEnding} (hoff : s.off % 4 = 0)
    (hlex : dtLex env.structs s.off = .ending e) :
    (e = .fdtEnd ∧ dtbStep env s =
      .error (if s.curr = none then .rewritePass else .panic (.notRootNode s.depth))) ∨
    (∃ token, e = .unknown token ∧ dtbStep env s = .error (.panic (.unknownStructureType token))) ∨
    (e = .pastEnd ∧ dtbStep env s = .error .pastEnd) := by
  unfold dtLex at hlex
  cases hread : readU32 env.structs s.off with
  | none =>
      rw [hread] at hlex
      cases hlex
      refine Or.inr (Or.inr ⟨rfl, ?_⟩)
      unfold dtbStep
      rw [if_neg fun hh => hh.2 hoff, hread]
  | some token =>
      rw [hread] at hlex
      dsimp only at hlex
      rw [dtbStep_of_token hoff hread]
      split_ifs at hlex with hbegin hend hprop hnop hfdtEnd
      · rw [if_pos hbegin]
        cases hname : cstrAt env.structs (s.off + 4) with
        | none =>
            rw [hname] at hlex
            cases hlex
            refine Or.inr (Or.inr ⟨rfl, ?_⟩)
            unfold dtbParseNode
            dsimp only
            rw [hname]
            rfl
        | some name =>
            rw [hname] at hlex
            cases hlex
      · rw [if_neg hbegin, if_neg hend, if_pos hprop]
        have hstop : dtbParseProperty env { s with off := s.off + 4 } = .error .pastEnd ∧
            e = .pastEnd := by
          unfold dtbParseProperty
          dsimp only
          cases hlen : readU32 env.structs (s.off + 4) with
          | none =>
              rw [hlen] at hlex
              cases hlex
              exact ⟨rfl, rfl⟩
          | some propLen =>
              cases hname : readU32 env.structs (s.off + 4 + 4) with
              | none =>
                  rw [hlen, hname] at hlex
                  cases hlex
                  exact ⟨rfl, rfl⟩
              | some nameOffset =>
                  rw [hlen, hname] at hlex
                  cases hlex
        exact Or.inr (Or.inr ⟨hstop.2, hstop.1⟩)
      · cases hlex
        rw [if_neg hbegin, if_neg hend, if_neg hprop, if_neg hnop, if_pos hfdtEnd]
        refine Or.inl ⟨rfl, ?_⟩
        by_cases hcurr : s.curr = none
        · rw [if_neg (not_not.mpr hcurr), if_pos hcurr]
        · rw [if_pos hcurr, if_neg hcurr]
      · cases hlex
        rw [if_neg hbegin, if_neg hend, if_neg hprop, if_neg hnop, if_neg hfdtEnd]
        exact Or.inr (Or.inl ⟨token, rfl, rfl⟩)

/-- Changing what is not a link of a node.
Source: none: infrastructure
Kind: L -/
theorem DtInv.modify (h : DtInv s live stack) {s' : DtState} {c : ArrayPtr} {f : DtNode → DtNode}
    (hf : ∀ n, (f n).parent = n.parent ∧ (f n).children = n.children ∧ (f n).sibling = n.sibling)
    (hnodes : s'.nodes = s.nodes.modify c f) (hcurr : s'.curr = s.curr)
    (hdepth : s'.depth = s.depth) : DtInv s' live stack := by
  have hlinks : ∀ p, (s'.nodes.cells p).parent = (s.nodes.cells p).parent ∧
      (s'.nodes.cells p).children = (s.nodes.cells p).children ∧
      (s'.nodes.cells p).sibling = (s.nodes.cells p).sibling := by
    intro p
    rw [hnodes]
    by_cases hp : p = c
    · rw [hp, KArray.modify_cells_self]
      exact hf _
    · rw [KArray.modify_cells_of_ne _ _ hp]
      exact ⟨rfl, rfl, rfl⟩
  refine ⟨?_, hcurr.trans h.curr, hdepth.trans h.depth, ?_, h.stack_live, ?_, ?_⟩
  · rw [hnodes]
    exact h.array.modify c f
  · exact h.parents.congr fun p _ => (hlinks p).1
  · intro p hp q hq
    rw [(hlinks p).2.1] at hq
    exact h.children p hp q hq
  · intro p hp q hq
    rw [(hlinks p).2.2] at hq
    exact h.sibling p hp q hq

/-- `FDT_PROP`: the property is the first of the open node, or the code goes through `NULL`.
Source: `device_tree.c` `dtb_parse_property`
Kind: P -/
theorem dtbStep_prop (h : DtInv s live stack) (hoff : s.off % 4 = 0) {propLen nameOffset : BitVec 32}
    {value : List (BitVec 8)}
    (hlex : dtLex env.structs s.off = .tok (.prop propLen nameOffset value) off') :
    (∃ stop, dtbAllocProperty env s.bump s.properties s.allocs propLen nameOffset value =
      .error stop ∧ dtbStep env s = .error stop) ∨
    ∃ bump propName propValue properties,
      dtbAllocProperty env s.bump s.properties s.allocs propLen nameOffset value =
        .ok (bump, propName, propValue, properties) ∧
      ((stack = [] ∧ dtbStep env s = .error .nullCurr) ∨
        ∃ c rest s', stack = c :: rest ∧ dtbStep env s = .ok s' ∧ s' = { s with
          properties := (arrayAppend properties
            ⟨propName, (s.nodes.cells c).properties, .raw, .raw propLen propValue⟩).1
          nodes := s.nodes.modify c fun n => { n with
            properties := some (arrayAppend properties
              ⟨propName, (s.nodes.cells c).properties, .raw, .raw propLen propValue⟩).2 }
          bump := bump
          allocs := allocsAfter s.allocs s.properties
          off := off' } ∧ DtInv s' live stack) := by
  rcases dtLex_tok_cases hlex with ⟨-, name, ht, -⟩ | ⟨-, ht, -⟩ |
    ⟨hread, propLen', nameOffset', hlen, hname, ht, rfl⟩ | ⟨-, ht, -⟩
  · cases ht
  · cases ht
  · cases ht
    have hstep : dtbStep env s = dtbParseProperty env { s with off := s.off + 4 } := by
      rw [dtbStep_of_token hoff hread, if_neg (by decide), if_neg (by decide), if_pos rfl]
    rw [hstep]
    unfold dtbParseProperty
    dsimp only
    rw [hlen, hname]
    dsimp only
    set value := (env.structs.drop (s.off + 4 + 8)).take propLen.toNat with hvalue
    cases halloc : dtbAllocProperty env s.bump s.properties s.allocs propLen nameOffset value with
    | error stop => exact Or.inl ⟨stop, rfl, rfl⟩
    | ok r =>
        obtain ⟨bump, propName, propValue, properties⟩ := r
        refine Or.inr ⟨bump, propName, propValue, properties, rfl, ?_⟩
        cases stack with
        | nil =>
            have hcurr : s.curr = none := h.curr
            rw [hcurr]
            exact Or.inl ⟨rfl, rfl⟩
        | cons c rest =>
            have hcurr : s.curr = some c := h.curr
            rw [hcurr]
            refine Or.inr ⟨c, rest, _, rfl, rfl, rfl, ?_⟩
            exact h.modify (c := c) (f := fun n => { n with properties := some _ })
              (fun n => ⟨rfl, rfl, rfl⟩) rfl hcurr.symm rfl
  · cases ht

/-- `FDT_BEGIN_NODE`, when the name cannot be copied or there is no room for the node.
Source: `device_tree.c` `dtb_parse_node`
Kind: P -/
theorem dtbStep_beginNode_error (hoff : s.off % 4 = 0) {name : List (BitVec 8)}
    (hlex : dtLex env.structs s.off = .tok (.beginNode name) off') {stop : DtStop}
    (halloc : dtbAllocNode env s.bump s.nodes s.allocs name = .error stop) :
    dtbStep env s = .error stop := by
  obtain ⟨hread, hcstr, -⟩ := dtLex_beginNode hlex
  rw [dtbStep_of_token hoff hread, if_pos rfl]
  unfold dtbParseNode
  dsimp only
  rw [hcstr]
  dsimp only
  rw [halloc]
  rfl

/-- What a round with `FDT_BEGIN_NODE` leaves: the node `new`, linked in at `slot`, is open.
Source: `device_tree.c` `dtb_parse_node`, `dt_initialize`
Kind: D -/
structure DtPushed (s s' : DtState) (live : List ArrayPtr) (slot : DtSlot) (new : ArrayPtr)
    (name : DtName) : Prop where
  curr : s'.curr = some new
  depth : s'.depth = s.depth + 1
  properties : s'.properties = s.properties
  array : ArrayLive s'.nodes (live ++ [new])
  fresh : new ∉ live
  index : new.2 = s.nodes.size
  node : s'.nodes.cells new = ⟨name, 0, 0, none, s.curr, none, none⟩
  filled : ∀ p ∈ live, s'.nodes.cells p = (slot.fill s.nodes new).cells p
  data : s'.nodes.data = some new.1
  copies : ∀ d, s.nodes.data = some d → ∀ k < s.nodes.size, slot.ptr ≠ some (new.1, k) →
    s'.nodes.cells (new.1, k) = s.nodes.cells (d, k)
  same : s.nodes.size < s.nodes.capacity → s.nodes.data = some new.1

/-- The first byte of a name tells whether it is empty.
Source: none: infrastructure
Kind: L -/
theorem dtNameEmpty_iff {m : Mem} {p : Addr} {name : List (BitVec 8)} (h : CStringAt m p name)
    (hname : 0 ∉ name) : dtNameEmpty m (.copied p) = true ↔ name = [] := by
  unfold dtNameEmpty
  rw [decide_eq_true_eq]
  cases name with
  | nil => exact iff_of_true (bytesAt_cons.mp h).1 rfl
  | cons b name =>
      refine iff_of_false ?_ (List.cons_ne_nil _ _)
      rw [(bytesAt_cons.mp h).1]
      exact fun hb => hname (hb ▸ List.mem_cons_self)

/-- The place for a node.
Source: `device_tree.c` `dtb_parse_node`
Kind: L -/
theorem dtbAllocNode_reserve {α : Type} {bump bump' : BumpAllocator} {nodes nodes' : KArray α}
    {allocs : ℕ} {name : List (BitVec 8)} {nameBuf : Addr}
    (h : dtbAllocNode env bump nodes allocs name = .ok (bump', nameBuf, nodes')) :
    arrayReserve sizeofDtNode (env.grants allocs) nodes = some nodes' := by
  unfold dtbAllocNode at h
  dsimp only at h
  split_ifs at h
  cases hres : arrayReserve sizeofDtNode (env.grants allocs) nodes with
  | none =>
      rw [hres] at h
      cases h
  | some nodes₁ =>
      rw [hres] at h
      cases h
      rfl

/-- The place for a property.
Source: `device_tree.c` `dtb_parse_property`
Kind: L -/
theorem dtbAllocProperty_reserve {α : Type} {bump bump' : BumpAllocator}
    {properties properties' : KArray α} {allocs : ℕ} {propLen nameOffset : BitVec 32}
    {value : List (BitVec 8)} {propName propValue : Addr}
    (h : dtbAllocProperty env bump properties allocs propLen nameOffset value =
      .ok (bump', propName, propValue, properties')) :
    arrayReserve sizeofDtProperty (env.grants allocs) properties = some properties' := by
  unfold dtbAllocProperty at h
  dsimp only at h
  split_ifs at h
  cases hres : arrayReserve sizeofDtProperty (env.grants allocs) properties with
  | none =>
      rw [hres] at h
      cases h
  | some properties₁ =>
      rw [hres] at h
      cases h
      rfl

/-- The link goes where the slot is.
Source: `device_tree.c` `dtb_parse_node`
Kind: L -/
theorem DtInv.linkNode_eq (h : DtInv s live stack) {nodes : KArray DtNode}
    (hcells : ∀ p ∈ live, nodes.cells p = s.nodes.cells p) (hsize : s.nodes.size ≤ nodes.size)
    {cs : List ArrayPtr}
    (hcs : ∀ c, s.curr = some c → SibChain s.nodes.cells (s.nodes.cells c).children cs)
    (hcsLive : ∀ p ∈ cs, p ∈ live) (hcsLen : cs.length ≤ s.nodes.size)
    (new : ArrayPtr) : dtbLinkNode nodes s.curr new = some ((dtSlot s.curr cs).fill nodes new) := by
  unfold dtbLinkNode
  cases hcurr : s.curr with
  | none => rfl
  | some c =>
      have hc : c ∈ live := by
        rw [h.curr] at hcurr
        exact h.stack_live c (List.mem_of_head? hcurr)
      refine dtbLinkChild_eq_fill ?_ (hcsLen.trans hsize)
      rw [hcells c hc]
      exact (hcs c hcurr).congr fun p hp => by rw [hcells p (hcsLive p hp)]

/-- `dtb_parse_node`, when the name has been copied and there is room for the node.
Source: `device_tree.c` `dtb_parse_node`
Kind: L -/
theorem dtbParseNode_eq {name : List (BitVec 8)} {bump : BumpAllocator} {nameBuf : Addr}
    {nodes linked : KArray DtNode} {off : ℕ} {new : ArrayPtr}
    (hcstr : cstrAt env.structs off = some name)
    (halloc : dtbAllocNode env s.bump s.nodes s.allocs name = .ok (bump, nameBuf, nodes))
    (hstrlen : strlen bump.mem nameBuf = name.length)
    (hnew : (arrayAppend nodes ⟨.copied nameBuf, 0, 0, none, s.curr, none, none⟩).2 = new)
    (hlink : dtbLinkNode (arrayAppend nodes ⟨.copied nameBuf, 0, 0, none, s.curr, none, none⟩).1
      s.curr new = some linked) :
    dtbParseNode env { s with off := off } = .ok { s with
      nodes := linked
      bump := bump
      allocs := allocsAfter s.allocs s.nodes
      curr := some new
      off := off + alignUpU32 (name.length + 1) } := by
  unfold dtbParseNode
  dsimp only
  rw [hcstr]
  dsimp only
  rw [halloc]
  dsimp only
  rw [hnew, hlink, hstrlen]

/-- Naming a root that has no name changes this node only.
Source: `device_tree.c` `dt_initialize`
Kind: L -/
theorem dtbBeginNode_eq {new : ArrayPtr} {root : Prop} [Decidable root] (hcurr : s.curr = some new)
    (hroot : (s.depth = 0 ∧ dtNameEmpty s.bump.mem (s.nodes.cells new).name = true) ↔ root) :
    ∃ nodes, dtbBeginNode s = { s with nodes := nodes, depth := s.depth + 1 } ∧
      nodes.forget = s.nodes.forget ∧ (∀ p, p ≠ new → nodes.cells p = s.nodes.cells p) ∧
      nodes.cells new = { s.nodes.cells new with
        name := if root then .slash else (s.nodes.cells new).name } ∧
      ∀ l, ArrayLive s.nodes l → ArrayLive nodes l := by
  unfold dtbBeginNode
  rw [hcurr]
  dsimp only
  by_cases h : root
  · rw [if_pos (hroot.mpr h), if_pos h]
    refine ⟨s.nodes.modify new fun n => { n with name := .slash }, rfl, rfl, fun p hp => ?_, ?_,
      fun l hl => hl.modify _ _⟩
    · exact KArray.modify_cells_of_ne _ _ hp
    · rw [KArray.modify_cells_self]
  · rw [if_neg fun hh => h (hroot.mp hh), if_neg h]
    exact ⟨s.nodes, rfl, rfl, fun _ _ => rfl, rfl, fun _ hl => hl⟩

/-- **`FDT_BEGIN_NODE`**, when the name has been copied and there is room for the node.
Source: `device_tree.c` `dtb_parse_node`, `dt_initialize`
Kind: P -/
theorem dtbStep_beginNode (h : DtInv s live stack) (hoff : s.off % 4 = 0)
    {name : List (BitVec 8)} (hlex : dtLex env.structs s.off = .tok (.beginNode name) off')
    {bump : BumpAllocator} {nameBuf : Addr} {nodes : KArray DtNode}
    (halloc : dtbAllocNode env s.bump s.nodes s.allocs name = .ok (bump, nameBuf, nodes))
    (hname : CStringAt bump.mem nameBuf name) (hsmall : name.length < 2 ^ 64) {cs : List ArrayPtr}
    (hcs : ∀ c, s.curr = some c → SibChain s.nodes.cells (s.nodes.cells c).children cs)
    (hcsLive : ∀ p ∈ cs, p ∈ live) (hcsLen : cs.length ≤ s.nodes.size) :
    ∃ s' new, dtbStep env s = .ok s' ∧
      DtPushed s s' live (dtSlot s.curr cs) new
        (if stack = [] ∧ name = [] then .slash else .copied nameBuf) ∧
      s'.off = off' ∧ s'.bump = bump ∧ s'.allocs = allocsAfter s.allocs s.nodes ∧
      s'.nodes.forget = (arrayAppend nodes.forget ()).1 := by
  obtain ⟨hread, hcstr, rfl⟩ := dtLex_beginNode hlex
  have hnul := (cstrAt_some hcstr).1
  obtain ⟨harray, hsize, hcells, hsame, d, hd, hcopy⟩ := h.array.reserve (dtbAllocNode_reserve halloc)
  obtain ⟨hnew, hfresh, harray', hnode, hother⟩ :=
    harray.append hd ⟨.copied nameBuf, 0, 0, none, s.curr, none, none⟩
  set new : ArrayPtr := (d, nodes.size) with hnewdef
  set slot := dtSlot s.curr cs with hslot
  have hpushedLive : ∀ p ∈ live, (arrayAppend nodes ⟨.copied nameBuf, 0, 0, none, s.curr, none,
      none⟩).1.cells p = s.nodes.cells p := by
    intro p hp
    rw [hother p fun hpn => hfresh (hpn ▸ hp), hcells p hp]
  have hslotNew : slot.ptr ≠ some new := fun hp =>
    hfresh (dtSlot_ptr_mem h.curr h.stack_live hcsLive hp)
  have hlink := h.linkNode_eq hpushedLive (hsize ▸ Nat.le_succ _) hcs hcsLive hcsLen new
  have hparse := dtbParseNode_eq hcstr halloc (strlen_of_cstringAt hname hnul hsmall) hnew hlink
  set pushed := (arrayAppend nodes ⟨.copied nameBuf, 0, 0, none, s.curr, none, none⟩).1 with hpushed
  set s₁ : DtState := { s with
    nodes := slot.fill pushed new
    bump := bump
    allocs := allocsAfter s.allocs s.nodes
    curr := some new
    off := s.off + 4 + alignUpU32 (name.length + 1) } with hs₁
  have hstep : dtbStep env s = .ok (dtbBeginNode s₁) := by
    rw [dtbStep_of_token hoff hread, if_pos rfl, hparse]
    rfl
  have hfillNode : s₁.nodes.cells new = ⟨.copied nameBuf, 0, 0, none, s.curr, none, none⟩ := by
    show (slot.fill pushed new).cells new = _
    rw [DtSlot.fill_cells_of_ne pushed new hslotNew, hnode]
  have hempty : (s₁.depth = 0 ∧ dtNameEmpty s₁.bump.mem (s₁.nodes.cells new).name = true) ↔
      stack = [] ∧ name = [] := by
    rw [hfillNode, show s₁.depth = stack.length from h.depth, List.length_eq_zero_iff]
    exact and_congr_right fun _ => dtNameEmpty_iff hname hnul
  obtain ⟨nodes', hbegin, hforget, hkeep, hnode', hkeepLive⟩ := dtbBeginNode_eq (s := s₁) rfl hempty
  rw [hfillNode] at hnode'
  have hforget' : nodes'.forget = (arrayAppend nodes.forget ()).1 := by
    rw [hforget]
    show (slot.fill pushed new).forget = _
    rw [DtSlot.fill_forget, hpushed, KArray.forget_append]
  have hdata : nodes'.data = some d := by
    have hforgotten : nodes'.forget.data = some d := by
      rw [hforget']
      exact hd
    exact hforgotten
  refine ⟨dtbBeginNode s₁, new, hstep, ?_, by rw [hbegin], by rw [hbegin], by rw [hbegin],
    by rw [hbegin]; exact hforget'⟩
  rw [hbegin]
  refine ⟨rfl, rfl, rfl, hkeepLive _ (slot.fill_live new harray'), hfresh, hsize, hnode', ?_, hdata,
    ?_, fun hlt => by rw [← hsame hlt]; exact hd⟩
  · intro p hp
    show nodes'.cells p = _
    rw [hkeep p fun hpn => hfresh (hpn ▸ hp)]
    exact DtSlot.fill_cells_congr new slot (hpushedLive p hp)
  · intro e he k hk hslotk
    have hkn : ((d, k) : ArrayPtr) ≠ new := by
      intro heq
      have hindex : k = nodes.size := congrArg Prod.snd heq
      omega
    show nodes'.cells (d, k) = _
    rw [hkeep _ hkn]
    show (slot.fill pushed new).cells (d, k) = _
    rw [DtSlot.fill_cells_of_ne pushed new hslotk, hother _ hkn]
    exact hcopy e he k hk

/-- The children of the open node, if there is one.
Source: none: infrastructure
Kind: L -/
theorem DtInv.exists_children (h : DtInv s live stack) :
    ∃ cs, (∀ c, s.curr = some c → SibChain s.nodes.cells (s.nodes.cells c).children cs) ∧
      (∀ p ∈ cs, p ∈ live) ∧ cs.length ≤ s.nodes.size := by
  cases hcurr : s.curr with
  | none =>
      refine ⟨[], ?_, fun p hp => absurd hp List.not_mem_nil, Nat.zero_le _⟩
      rintro c ⟨⟩
  | some c =>
      have hc : c ∈ live := by
        rw [h.curr] at hcurr
        exact h.stack_live c (List.mem_of_head? hcurr)
      obtain ⟨cs, hcs, hcsLive, hcsLen⟩ := exists_sibChain (fun p hp => h.array.index_lt hp)
        h.sibling (s.nodes.cells c).children (fun p hp => h.children c hc p hp)
      refine ⟨cs, ?_, hcsLive, hcsLen⟩
      rintro c' ⟨⟩
      exact hcs

/-- **The pointers after a node has been pushed**: it is the innermost open node.
Source: none: infrastructure
Kind: L -/
theorem DtPushed.inv {s' : DtState} {slot : DtSlot} {new : ArrayPtr} {name : DtName}
    (hp : DtPushed s s' live slot new name) (h : DtInv s live stack) :
    DtInv s' (live ++ [new]) (new :: stack) := by
  have hmem : ∀ p ∈ live, p ∈ live ++ [new] := fun p hq => List.mem_append_left _ hq
  have hnew : new ∈ live ++ [new] := List.mem_append_right _ (List.mem_singleton_self _)
  refine ⟨hp.array, hp.curr, ?_, ⟨?_, ?_⟩, ?_, ?_, ?_⟩
  · rw [hp.depth, h.depth]
    rfl
  · rw [hp.node]
    exact h.curr
  · refine h.parents.congr fun p hq => ?_
    rw [hp.filled p (h.stack_live p hq)]
    exact slot.fill_parent s.nodes new p
  · intro p hq
    rcases List.mem_cons.mp hq with rfl | hq
    · exact hnew
    · exact hmem p (h.stack_live p hq)
  · intro p hq q hchild
    rcases List.mem_append.mp hq with hq | hq
    · rw [hp.filled p hq] at hchild
      rcases (slot.fill_links s.nodes new p).1 with hlink | hlink
      · rw [hlink] at hchild
        cases hchild
        exact hnew
      · rw [hlink] at hchild
        exact hmem q (h.children p hq q hchild)
    · rw [List.mem_singleton.mp hq, hp.node] at hchild
      cases hchild
  · intro p hq q hsib
    rcases List.mem_append.mp hq with hq | hq
    · rw [hp.filled p hq] at hsib
      rcases (slot.fill_links s.nodes new p).2 with ⟨-, hlink⟩ | hlink
      · rw [hlink] at hsib
        have hqn : new = q := Option.some.inj hsib
        rw [← hqn]
        refine ⟨hnew, ?_⟩
        rw [hp.index]
        exact h.array.index_lt hq
      · rw [hlink] at hsib
        obtain ⟨hqlive, hlt⟩ := h.sibling p hq q hsib
        exact ⟨hmem q hqlive, hlt⟩
    · rw [List.mem_singleton.mp hq, hp.node] at hsib
      cases hsib

/-- The state in which the loop starts.
Source: none: infrastructure
Kind: L -/
theorem dtInv_init (bump : BumpAllocator) : DtInv (dtbInit bump) [] [] :=
  ⟨arrayLive_init _, rfl, rfl, trivial, fun _ hp => absurd hp List.not_mem_nil,
    fun _ hp => absurd hp List.not_mem_nil, fun _ hp => absurd hp List.not_mem_nil⟩

end step

end Octiron.Kernel
