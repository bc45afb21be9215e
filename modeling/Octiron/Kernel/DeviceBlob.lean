import Octiron.Kernel.DeviceTokens

/-!
# Flattened device trees

What a structure block stands for: trees, the tokens of a tree, and the blocks that encode them.

* `CStr`, `FdtProp`, `FdtForest`, `FdtTree` — device trees. A name is a string without a zero byte.
* `FdtForest.tokens`, `FdtTree.tokens` — a tree from left to right, with the properties of a node before
  its subnodes.
* `Encodes env ts l` — the bytes `l` encode the tokens `ts`, with any number of `FDT_NOP` in front of
  each token and at the end, and any bytes as padding. `EncodesTree` is a whole structure block.
* `Reads env off ts off'` — from `off` to `off'` the loop reads the tokens `ts`.
* **Main result** (`Encodes.reads`): the loop reads what the block encodes.
-/

namespace Octiron.Kernel

open Octiron.Found
open Octiron.Kzadhbat

/-! ## Trees -/

/-- The characters of a string that ends with a zero byte.
Source: none: infrastructure
Kind: D -/
abbrev CStr := { l : List (BitVec 8) // 0 ∉ l }

/-- A property: its name and the bytes of its value.
Source: none: infrastructure
Kind: D -/
structure FdtProp where
  name : CStr
  value : List (BitVec 8)

/-- Nodes that follow each other: the first one, with what is inside, and the rest.
Source: none: infrastructure
Kind: D -/
inductive FdtForest
  | nil
  | node (name : CStr) (props : List FdtProp) (children rest : FdtForest)

/-- **A device tree**: its root.
Source: none: infrastructure
Kind: D -/
structure FdtTree where
  name : CStr
  props : List FdtProp
  children : FdtForest

/-- The tokens of a tree.
Source: `device_tree.c` `enum dtb_StructureToken`
Kind: D -/
inductive FdtToken
  | beginNode (name : CStr)
  | endNode
  | prop (p : FdtProp)

/-- Source: none: infrastructure. Kind: D -/
def FdtForest.tokens : FdtForest → List FdtToken
  | .nil => []
  | .node name props children rest =>
      .beginNode name :: (props.map .prop ++ (children.tokens ++ .endNode :: rest.tokens))

/-- Source: none: infrastructure. Kind: D -/
def FdtTree.tokens (t : FdtTree) : List FdtToken :=
  .beginNode t.name :: (t.props.map .prop ++ (t.children.tokens ++ [.endNode]))

/-- The bytes of the bump allocator that the copies of a property take.
Source: `device_tree.c` `dtb_parse_property`
Kind: D -/
def FdtProp.need (p : FdtProp) : ℕ := p.name.val.length + 1 + p.value.length

/-- Source: none: infrastructure. Kind: D -/
def propsNeed (props : List FdtProp) : ℕ := (props.map FdtProp.need).sum

/-- The bytes that the copies of the nodes take.
Source: `device_tree.c` `dtb_parse_node`
Kind: D -/
def FdtForest.need : FdtForest → ℕ
  | .nil => 0
  | .node name props children rest =>
      name.val.length + 1 + propsNeed props + children.need + rest.need

/-- Source: none: infrastructure. Kind: D -/
def FdtTree.need (t : FdtTree) : ℕ := t.name.val.length + 1 + propsNeed t.props + t.children.need

/-! ## Structure blocks -/

/-- The four bytes of a word, the most significant one first.
Source: none: infrastructure
Kind: D -/
def beU32 (w : BitVec 32) : List (BitVec 8) :=
  [w.extractLsb' 24 8, w.extractLsb' 16 8, w.extractLsb' 8 8, w.extractLsb' 0 8]

/-- **The bytes `l` encode the tokens**. The name of a property is in the strings block.
Source: `device_tree.c` `enum dtb_StructureToken`
Kind: D -/
inductive Encodes (env : DtEnv) : List FdtToken → List (BitVec 8) → Prop
  | nil : Encodes env [] []
  | nop {ts : List FdtToken} {l : List (BitVec 8)} :
      Encodes env ts l → Encodes env ts (beU32 fdtNop ++ l)
  | beginNode {name : CStr} {pad l : List (BitVec 8)} {ts : List FdtToken} :
      name.val.length + 1 + pad.length = alignUpU32 (name.val.length + 1) →
      Encodes env ts l →
      Encodes env (.beginNode name :: ts)
        (beU32 fdtBeginNode ++ (name.val ++ 0 :: (pad ++ l)))
  | endNode {l : List (BitVec 8)} {ts : List FdtToken} :
      Encodes env ts l → Encodes env (.endNode :: ts) (beU32 fdtEndNode ++ l)
  | prop {p : FdtProp} {propLen nameOffset : BitVec 32} {pad l : List (BitVec 8)}
      {ts : List FdtToken} :
      propLen.toNat = p.value.length →
      CStringAt env.mem (env.strings + nameOffset.setWidth 64) p.name.val →
      p.value.length + pad.length = alignUpU32 p.value.length →
      Encodes env ts l →
      Encodes env (.prop p :: ts)
        (beU32 fdtProp ++ (beU32 propLen ++ (beU32 nameOffset ++ (p.value ++ (pad ++ l)))))

/-- **A structure block that encodes a tree**: its tokens, `FDT_END`, and whatever is behind that.
Source: none: infrastructure
Kind: D -/
def EncodesTree (env : DtEnv) (t : FdtTree) : Prop :=
  ∃ l rest, Encodes env t.tokens l ∧ env.structs = l ++ (beU32 fdtEnd ++ rest)

/-! ## What the loop reads -/

/-- The token is at `off` and the next one at `off'`.
Source: none: infrastructure
Kind: D -/
def FdtToken.At (env : DtEnv) (off off' : ℕ) : FdtToken → Prop
  | .beginNode name => dtLex env.structs off = .tok (.beginNode name.val) off'
  | .endNode => dtLex env.structs off = .tok .endNode off'
  | .prop p => ∃ propLen nameOffset,
      dtLex env.structs off = .tok (.prop propLen nameOffset p.value) off' ∧
      propLen.toNat = p.value.length ∧
      CStringAt env.mem (env.strings + nameOffset.setWidth 64) p.name.val

/-- **From `off` to `off'` the loop reads the tokens**, and any number of `FDT_NOP`.
Source: none: infrastructure
Kind: D -/
inductive Reads (env : DtEnv) : ℕ → List FdtToken → ℕ → Prop
  | nil (off : ℕ) : Reads env off [] off
  | nop {off off₁ off' : ℕ} {ts : List FdtToken} : dtLex env.structs off = .tok .nop off₁ →
      Reads env off₁ ts off' → Reads env off ts off'
  | tok {off off₁ off' : ℕ} {t : FdtToken} {ts : List FdtToken} : t.At env off off₁ →
      Reads env off₁ ts off' → Reads env off (t :: ts) off'

section reads

variable {env : DtEnv} {structs : List (BitVec 8)} {off off' : ℕ}

/-- Source: none: infrastructure. Kind: L -/
theorem readU32_beU32 {w : BitVec 32} {l : List (BitVec 8)}
    (h : structs.drop off = beU32 w ++ l) : readU32 structs off = some w := by
  refine readU32_some_iff.mpr ⟨_, _, _, _, l, h, ?_⟩
  apply BitVec.eq_of_getLsbD_eq
  intro i hi
  simp only [BitVec.getLsbD_append, BitVec.getLsbD_extractLsb']
  interval_cases i <;> simp

/-- Source: none: infrastructure. Kind: L -/
theorem drop_add_of_drop {l l' : List (BitVec 8)} (h : structs.drop off = l ++ l') {n : ℕ}
    (hn : l.length = n) : structs.drop (off + n) = l' := by
  rw [← List.drop_drop, h, ← hn, List.drop_left]

/-- The string that is at an offset of the block.
Source: none: infrastructure
Kind: L -/
theorem cstrAt_of_drop {name : CStr} {l : List (BitVec 8)}
    (h : structs.drop off = name.val ++ 0 :: l) : cstrAt structs off = some name.val := by
  have htake : (structs.drop off).takeWhile (· ≠ 0) = name.val := by
    rw [h, List.takeWhile_append_of_pos]
    · simp
    · intro b hb
      exact decide_eq_true fun hb0 => name.property (hb0 ▸ hb)
  have hlen := congrArg List.length h
  simp only [List.length_drop, List.length_append, List.length_cons] at hlen
  unfold cstrAt
  dsimp only
  rw [htake, if_pos (by omega)]

/-- Source: none: infrastructure. Kind: L -/
theorem dtLex_nop {l : List (BitVec 8)} (h : structs.drop off = beU32 fdtNop ++ l) :
    dtLex structs off = .tok .nop (off + 4) := by
  unfold dtLex
  rw [readU32_beU32 h]
  rfl

/-- Source: none: infrastructure. Kind: L -/
theorem dtLex_endNode {l : List (BitVec 8)} (h : structs.drop off = beU32 fdtEndNode ++ l) :
    dtLex structs off = .tok .endNode (off + 4) := by
  unfold dtLex
  rw [readU32_beU32 h]
  rfl

/-- Source: none: infrastructure. Kind: L -/
theorem dtLex_fdtEnd {l : List (BitVec 8)} (h : structs.drop off = beU32 fdtEnd ++ l) :
    dtLex structs off = .ending .fdtEnd := by
  unfold dtLex
  rw [readU32_beU32 h]
  rfl

/-- Source: none: infrastructure. Kind: L -/
theorem dtLex_beginNode_of_drop {name : CStr} {l : List (BitVec 8)}
    (h : structs.drop off = beU32 fdtBeginNode ++ (name.val ++ 0 :: l)) :
    dtLex structs off =
      .tok (.beginNode name.val) (off + 4 + alignUpU32 (name.val.length + 1)) := by
  unfold dtLex
  rw [readU32_beU32 h]
  dsimp only
  rw [if_pos rfl, cstrAt_of_drop (drop_add_of_drop h (n := 4) rfl)]

/-- Source: none: infrastructure. Kind: L -/
theorem dtLex_prop {propLen nameOffset : BitVec 32} {value l : List (BitVec 8)}
    (hlen : propLen.toNat = value.length)
    (h : structs.drop off =
      beU32 fdtProp ++ (beU32 propLen ++ (beU32 nameOffset ++ (value ++ l)))) :
    dtLex structs off =
      .tok (.prop propLen nameOffset value) (off + 4 + 8 + alignUpU32 value.length) := by
  have hpropLen := drop_add_of_drop h (n := 4) rfl
  have hnameOffset := drop_add_of_drop hpropLen (n := 4) rfl
  have hvalue : structs.drop (off + 4 + 8) = value ++ l :=
    drop_add_of_drop hnameOffset (n := 4) rfl
  unfold dtLex
  rw [readU32_beU32 h]
  dsimp only
  rw [if_neg (by decide), if_neg (by decide), if_pos rfl, readU32_beU32 hpropLen,
    readU32_beU32 hnameOffset]
  dsimp only
  rw [hvalue, hlen, List.take_left]

/-- **The loop reads what a block encodes**.
Source: none: infrastructure
Kind: P -/
theorem Encodes.reads {ts : List FdtToken} {l rest : List (BitVec 8)} (h : Encodes env ts l)
    (hdrop : env.structs.drop off = l ++ rest) :
    Reads env off ts (off + l.length) ∧ env.structs.drop (off + l.length) = rest := by
  refine ⟨?_, drop_add_of_drop hdrop rfl⟩
  induction h generalizing off with
  | nil => exact .nil off
  | nop _ ih =>
      rw [List.append_assoc] at hdrop
      have hnext := ih (drop_add_of_drop hdrop (n := 4) rfl)
      refine .nop (dtLex_nop hdrop) ?_
      rw [List.length_append, ← Nat.add_assoc]
      exact hnext
  | endNode _ ih =>
      rw [List.append_assoc] at hdrop
      have hnext := ih (drop_add_of_drop hdrop (n := 4) rfl)
      refine .tok (dtLex_endNode hdrop) ?_
      rw [List.length_append, ← Nat.add_assoc]
      exact hnext
  | @beginNode name pad l ts hpad _ ih =>
      have hdrop' : env.structs.drop off =
          beU32 fdtBeginNode ++ (name.val ++ 0 :: (pad ++ (l ++ rest))) := by
        rw [hdrop]
        simp only [List.append_assoc, List.cons_append]
      have hbody : env.structs.drop (off + 4) = (name.val ++ 0 :: pad) ++ (l ++ rest) := by
        rw [drop_add_of_drop hdrop' (n := 4) rfl]
        simp only [List.append_assoc, List.cons_append]
      have hlen : (name.val ++ 0 :: pad).length = alignUpU32 (name.val.length + 1) := by
        rw [← hpad, List.length_append, List.length_cons]
        omega
      have hnext := ih (drop_add_of_drop hbody hlen)
      refine .tok (dtLex_beginNode_of_drop hdrop') ?_
      have hoff : off + (beU32 fdtBeginNode ++ (name.val ++ 0 :: (pad ++ l))).length =
          off + 4 + alignUpU32 (name.val.length + 1) + l.length := by
        rw [← hlen]
        simp only [List.length_append, List.length_cons, beU32, List.length_nil]
        omega
      rw [hoff]
      exact hnext
  | @prop p propLen nameOffset pad l ts hlen hname hpad _ ih =>
      have hdrop' : env.structs.drop off = beU32 fdtProp ++
          (beU32 propLen ++ (beU32 nameOffset ++ (p.value ++ (pad ++ (l ++ rest))))) := by
        rw [hdrop]
        simp only [List.append_assoc]
      have hbody : env.structs.drop (off + 4 + 8) = (p.value ++ pad) ++ (l ++ rest) := by
        rw [List.append_assoc]
        exact drop_add_of_drop (drop_add_of_drop (drop_add_of_drop hdrop' (n := 4) rfl) (n := 4) rfl)
          (n := 4) rfl
      have hlen' : (p.value ++ pad).length = alignUpU32 p.value.length := by
        rw [← hpad, List.length_append]
      have hnext := ih (drop_add_of_drop hbody hlen')
      refine .tok ⟨propLen, nameOffset, dtLex_prop hlen hdrop', hlen, hname⟩ ?_
      have hoff : off + (beU32 fdtProp ++
          (beU32 propLen ++ (beU32 nameOffset ++ (p.value ++ (pad ++ l))))).length =
          off + 4 + 8 + alignUpU32 p.value.length + l.length := by
        rw [← hlen']
        simp only [List.length_append, List.length_cons, beU32, List.length_nil]
        omega
      rw [hoff]
      exact hnext

/-- Source: none: infrastructure. Kind: L -/
theorem Reads.split {ts ts' : List FdtToken} (h : Reads env off (ts ++ ts') off') :
    ∃ off₁, Reads env off ts off₁ ∧ Reads env off₁ ts' off' := by
  generalize hall : ts ++ ts' = all at h
  induction h generalizing ts with
  | nil off =>
      obtain ⟨rfl, rfl⟩ := List.append_eq_nil_iff.mp hall
      exact ⟨off, .nil off, .nil off⟩
  | nop hlex _ ih =>
      obtain ⟨off₁, hfirst, hrest⟩ := ih hall
      exact ⟨off₁, .nop hlex hfirst, hrest⟩
  | @tok off off₁ off' t us hat hreads ih =>
      cases ts with
      | nil =>
          subst hall
          exact ⟨off, .nil off, .tok hat hreads⟩
      | cons u ts =>
          obtain ⟨rfl, htail⟩ := List.cons.inj hall
          obtain ⟨off₂, hfirst, hrest⟩ := ih htail
          exact ⟨off₂, .tok hat hfirst, hrest⟩

/-- The first token, behind any number of `FDT_NOP`.
Source: none: infrastructure
Kind: L -/
theorem Reads.cons {t : FdtToken} {ts : List FdtToken} (h : Reads env off (t :: ts) off') :
    ∃ off₁ off₂, Reads env off [] off₁ ∧ t.At env off₁ off₂ ∧ Reads env off₂ ts off' := by
  generalize hall : t :: ts = all at h
  induction h with
  | nil off => cases hall
  | nop hlex _ ih =>
      obtain ⟨off₁, off₂, hnops, hat, hrest⟩ := ih hall
      exact ⟨off₁, off₂, .nop hlex hnops, hat, hrest⟩
  | @tok off off₂ off' u us hat hreads _ =>
      obtain ⟨rfl, rfl⟩ := List.cons.inj hall
      exact ⟨off, off₂, .nil off, hat, hreads⟩

end reads

end Octiron.Kernel
