import Octiron.Kernel.DeviceTokens
import Octiron.Found.Nesting

/-!
# Which structure blocks are accepted

The loop of `dt_initialize` as a machine that reads tokens: how it ends is a function of the tokens, of
what they end at, and of the memory that is left.

* `DtResources`, `dtReserveFor`, `dtGranted` — what the allocations of the loop depend on, and the
  tokens for which they succeed.
* `dtVerdict` — how the loop ends, by the depth of the tokens (`dtbLoop_verdict`).
* `InGrammar` — one root node and `FDT_END`, up to `FDT_NOP`.
* **Main result** (`dtGrammarExact_iff`): the blocks for which the loop accepts exactly the grammar
  and refuses everything else, and what goes wrong on the others.
-/

namespace Octiron.Kernel

open Octiron.Found
open Octiron.Kzadhbat

/-! ## The allocations -/

/-- What the allocations of the loop depend on.
Source: none: infrastructure
Kind: D -/
structure DtResources where
  bump : BumpAllocator
  nodes : KArray Unit
  properties : KArray Unit
  allocs : ℕ

/-- Source: none: infrastructure. Kind: D -/
def DtState.resources (s : DtState) : DtResources :=
  ⟨s.bump, s.nodes.forget, s.properties.forget, s.allocs⟩

/-- The allocations for one token: what is left, or how they end the loop.
Source: `device_tree.c` `dtb_parse_node`, `dtb_parse_property`
Kind: D -/
def dtReserveFor (env : DtEnv) (r : DtResources) : DtToken → Except DtStop DtResources
  | .beginNode name =>
      match dtbAllocNode env r.bump r.nodes r.allocs name with
      | .error stop => .error stop
      | .ok (bump, _, nodes) => .ok { r with
          bump := bump
          nodes := (arrayAppend nodes ()).1
          allocs := allocsAfter r.allocs r.nodes }
  | .prop propLen nameOffset value =>
      match dtbAllocProperty env r.bump r.properties r.allocs propLen nameOffset value with
      | .error stop => .error stop
      | .ok (bump, _, _, properties) => .ok { r with
          bump := bump
          properties := (arrayAppend properties ()).1
          allocs := allocsAfter r.allocs r.properties }
  | .endNode => .ok r
  | .nop => .ok r

/-- The tokens up to the first whose allocations fail, and how that one ends the loop.
Source: none: infrastructure
Kind: D -/
def dtGranted (env : DtEnv) : DtResources → List DtToken → List DtToken × Option DtStop
  | _, [] => ([], none)
  | r, t :: ts =>
      match dtReserveFor env r t with
      | .error stop => ([], some stop)
      | .ok r' => (t :: (dtGranted env r' ts).1, (dtGranted env r' ts).2)

/-- Source: none: infrastructure. Kind: D -/
def dtKind : DtToken → Nest
  | .beginNode _ => .opening
  | .endNode => .closing
  | .prop _ _ _ => .item
  | .nop => .blank

/-- **How the loop ends**, from depth `d`: a token without an open node comes first, then a failed
allocation, and then what the tokens end at.
Source: `device_tree.c` `dt_initialize`
Kind: D -/
def dtVerdict (env : DtEnv) (r : DtResources) (d : ℕ) (tokens : List DtToken × DtEnding) : DtStop :=
  match depthAfter dtKind d (dtGranted env r tokens.1).1, (dtGranted env r tokens.1).2 with
  | none, _ => .nullCurr
  | some _, some stop => stop
  | some d', none =>
    match tokens.2 with
    | .fdtEnd => if d' = 0 then .rewritePass else .panic (.notRootNode d')
    | .unknown token => .panic (.unknownStructureType token)
    | .pastEnd => .pastEnd

/-- The allocations of a node do not depend on the nodes.
Source: none: infrastructure
Kind: L -/
theorem dtbAllocNode_forget {α : Type} (env : DtEnv) (bump : BumpAllocator) (nodes : KArray α)
    (allocs : ℕ) (name : List (BitVec 8)) :
    dtbAllocNode env bump nodes.forget allocs name =
      (dtbAllocNode env bump nodes allocs name).map fun r => (r.1, r.2.1, r.2.2.forget) := by
  unfold dtbAllocNode
  rw [KArray.forget_reserve]
  dsimp only
  by_cases hbuf : (bumpCopyString bump (some name)).2 = 0
  · rw [if_pos hbuf, if_pos hbuf]
    rfl
  · rw [if_neg hbuf, if_neg hbuf]
    cases arrayReserve sizeofDtNode (env.grants allocs) nodes with
    | none => rfl
    | some nodes' => rfl

/-- Nor do those of a property.
Source: none: infrastructure
Kind: L -/
theorem dtbAllocProperty_forget {α : Type} (env : DtEnv) (bump : BumpAllocator)
    (properties : KArray α) (allocs : ℕ) (propLen nameOffset : BitVec 32) (value : List (BitVec 8)) :
    dtbAllocProperty env bump properties.forget allocs propLen nameOffset value =
      (dtbAllocProperty env bump properties allocs propLen nameOffset value).map fun r =>
        (r.1, r.2.1, r.2.2.1, r.2.2.2.forget) := by
  unfold dtbAllocProperty
  rw [KArray.forget_reserve]
  dsimp only
  split_ifs with hpast
  · rfl
  · cases arrayReserve sizeofDtProperty (env.grants allocs) properties with
    | none => rfl
    | some properties' => rfl

/-- The buffer stays in order, and its size what it is.
Source: none: infrastructure
Kind: L -/
theorem dtbAllocProperty_bump {α : Type} {env : DtEnv} {bump bump' : BumpAllocator}
    {properties properties' : KArray α} {allocs : ℕ} {propLen nameOffset : BitVec 32}
    {value : List (BitVec 8)} {propName propValue : Addr} (h : BumpOk bump)
    (hrun : dtbAllocProperty env bump properties allocs propLen nameOffset value =
      .ok (bump', propName, propValue, properties')) :
    BumpOk bump' ∧ bump'.size = bump.size := by
  unfold dtbAllocProperty at hrun
  dsimp only at hrun
  split_ifs at hrun with hpast
  cases hres : arrayReserve sizeofDtProperty (env.grants allocs) properties with
  | none =>
      rw [hres] at hrun
      cases hrun
  | some properties'' =>
      rw [hres] at hrun
      cases hrun
      obtain ⟨hok, hsize⟩ := h.bumpCopyString
        (some (cstring env.mem (env.strings + nameOffset.setWidth 64)))
      obtain ⟨hok', hsize'⟩ := hok.bumpCopy (some fun i => value.getD i 0) (propLen.setWidth 64)
      exact ⟨hok', hsize'.trans hsize⟩

/-- A node whose allocations succeed: its name has been copied.
Source: `device_tree.c` `dtb_parse_node`
Kind: L -/
theorem dtbAllocNode_ok {α : Type} {env : DtEnv} {bump bump' : BumpAllocator} {nodes nodes' : KArray α}
    {allocs : ℕ} {name : List (BitVec 8)} {nameBuf : Addr} (h : BumpOk bump)
    (hlen : bump.size.toNat + (name.length + 1) < 2 ^ 64)
    (hrun : dtbAllocNode env bump nodes allocs name = .ok (bump', nameBuf, nodes')) :
    CStringAt bump'.mem nameBuf name ∧ BumpOk bump' ∧ bump'.size = bump.size := by
  unfold dtbAllocNode at hrun
  dsimp only at hrun
  split_ifs at hrun with hbuf
  cases hres : arrayReserve sizeofDtNode (env.grants allocs) nodes with
  | none =>
      rw [hres] at hrun
      cases hrun
  | some nodes'' =>
      rw [hres] at hrun
      have hroom := room_of_bumpCopyString_ne_zero h hlen hbuf
      obtain ⟨b, hcopy, -, hok, -, hholds, hframe⟩ := bumpCopyString_of_room h hroom
      rw [hcopy] at hrun
      cases hrun
      exact ⟨hholds.1, hok, hframe.size⟩

/-! ## The loop reads the tokens -/

section loop

variable {env : DtEnv} {s : DtState} {live stack : List ArrayPtr}

/-- **One round with a token**: its allocations fail, or it needs an open node and there is none, or the
next round starts behind it.
Source: `device_tree.c` `dt_initialize`
Kind: P -/
theorem dtbStep_tok (h : DtInv s live stack) (hoff : s.off % 4 = 0) (hbump : BumpOk s.bump)
    (hsize : s.bump.size.toNat + env.structs.length < 2 ^ 64) {t : DtToken} {off' : ℕ}
    (hlex : dtLex env.structs s.off = .tok t off') :
    (∃ stop, dtReserveFor env s.resources t = .error stop ∧ dtbStep env s = .error stop) ∨
    (∃ r, dtReserveFor env s.resources t = .ok r ∧ depthAfter dtKind stack.length [t] = none ∧
      dtbStep env s = .error .nullCurr) ∨
    ∃ s' live' stack', dtReserveFor env s.resources t = .ok s'.resources ∧
      depthAfter dtKind stack.length [t] = some stack'.length ∧ dtbStep env s = .ok s' ∧
      DtInv s' live' stack' ∧ s'.off = off' ∧ BumpOk s'.bump ∧ s'.bump.size = s.bump.size ∧
      s'.nodes.size = s.nodes.size + if dtKind t = .opening then 1 else 0 := by
  cases t with
  | nop =>
      refine Or.inr (Or.inr ⟨{ s with off := off' }, live, stack, rfl, rfl, dtbStep_nop hoff hlex, ?_,
        rfl, hbump, rfl, rfl⟩)
      exact ⟨h.array, h.curr, h.depth, h.parents, h.stack_live, h.children, h.sibling⟩
  | endNode =>
      rcases dtbStep_endNode h hoff hlex with ⟨rfl, hstep⟩ | ⟨c, rest, rfl, hstep, hinv⟩
      · exact Or.inr (Or.inl ⟨s.resources, rfl, rfl, hstep⟩)
      · exact Or.inr (Or.inr ⟨{ s with curr := rest.head?, depth := s.depth - 1, off := off' }, live,
          rest, rfl, rfl, hstep, hinv, rfl, hbump, rfl, rfl⟩)
  | prop propLen nameOffset value =>
      have hforget := dtbAllocProperty_forget env s.bump s.properties s.allocs propLen nameOffset value
      rcases dtbStep_prop h hoff hlex with ⟨stop, halloc, hstep⟩ |
        ⟨bump, propName, propValue, properties, halloc, hstep⟩
      · refine Or.inl ⟨stop, ?_, hstep⟩
        rw [halloc] at hforget
        unfold dtReserveFor DtState.resources
        dsimp only
        rw [hforget]
        rfl
      · have hreserve : dtReserveFor env s.resources (.prop propLen nameOffset value) = .ok
            { s.resources with
              bump := bump
              properties := (arrayAppend properties.forget ()).1
              allocs := allocsAfter s.allocs s.properties } := by
          rw [halloc] at hforget
          unfold dtReserveFor DtState.resources
          dsimp only
          rw [hforget]
          rfl
        rcases hstep with ⟨rfl, hstep⟩ | ⟨c, rest, s', rfl, hstep, rfl, hinv⟩
        · exact Or.inr (Or.inl ⟨_, hreserve, rfl, hstep⟩)
        · obtain ⟨hok, hbsize⟩ := dtbAllocProperty_bump hbump halloc
          refine Or.inr (Or.inr ⟨_, live, c :: rest, ?_, rfl, hstep, hinv, rfl, hok, hbsize, rfl⟩)
          rw [hreserve]
          rfl
  | beginNode name =>
      have hforget := dtbAllocNode_forget env s.bump s.nodes s.allocs name
      cases halloc : dtbAllocNode env s.bump s.nodes s.allocs name with
      | error stop =>
          refine Or.inl ⟨stop, ?_, ?_⟩
          · rw [halloc] at hforget
            unfold dtReserveFor DtState.resources
            dsimp only
            rw [hforget]
            rfl
          · exact dtbStep_beginNode_error hoff hlex halloc
      | ok r =>
          obtain ⟨bump, nameBuf, nodes⟩ := r
          have hnameLen := dtLex_beginNode_length hlex
          obtain ⟨hname, hok, hbsize⟩ := dtbAllocNode_ok hbump (by omega) halloc
          obtain ⟨cs, hcs, hcsLive, hcsLen⟩ := h.exists_children
          obtain ⟨s', new, hstep, hpushed, hoff', hbump', hallocs', hnodes'⟩ := dtbStep_beginNode h hoff
            hlex halloc hname (by omega) hcs hcsLive hcsLen
          refine Or.inr (Or.inr ⟨s', live ++ [new], new :: stack, ?_, rfl, hstep, hpushed.inv h, hoff',
            hbump' ▸ hok, hbump' ▸ hbsize, ?_⟩)
          · rw [halloc] at hforget
            unfold dtReserveFor DtState.resources
            dsimp only
            rw [hforget, hbump', hallocs', hnodes', hpushed.properties]
            rfl
          · rw [← hpushed.array.length, ← h.array.length, List.length_append]
            rfl

/-- How allocations end the loop.
Source: `device_tree.c` `dtb_parse_node`, `dtb_parse_property`, `array.h` `ARRAY_PUSH`
Kind: L -/
theorem dtReserveFor_error {r : DtResources} {t : DtToken} {stop : DtStop}
    (h : dtReserveFor env r t = .error stop) : stop ≠ .rewritePass := by
  cases t with
  | nop => cases h
  | endNode => cases h
  | beginNode name =>
      unfold dtReserveFor dtbAllocNode at h
      dsimp only at h
      by_cases hbuf : (bumpCopyString r.bump (some name)).2 = 0
      · rw [if_pos hbuf] at h
        cases h
        split_ifs <;> exact nofun
      · rw [if_neg hbuf] at h
        cases hres : arrayReserve sizeofDtNode (env.grants r.allocs) r.nodes with
        | none =>
            rw [hres] at h
            cases h
            exact nofun
        | some nodes =>
            rw [hres] at h
            cases h
  | prop propLen nameOffset value =>
      unfold dtReserveFor dtbAllocProperty at h
      dsimp only at h
      split at h
      · rename_i stop' hstop
        cases h
        split_ifs at hstop
        · cases hstop
          exact nofun
        · cases hres : arrayReserve sizeofDtProperty (env.grants r.allocs) r.properties with
          | none =>
              rw [hres] at hstop
              cases hstop
              exact nofun
          | some properties =>
              rw [hres] at hstop
              cases hstop
      · cases h

/-- **The loop ends as the tokens say**, and then has pushed a node for each `FDT_BEGIN_NODE`.
Source: `device_tree.c` `dt_initialize`
Kind: P -/
theorem dtbLoop_verdict {n : ℕ} (h : DtInv s live stack) (hoff : s.off % 4 = 0)
    (hbump : BumpOk s.bump) (hsize : s.bump.size.toNat + env.structs.length < 2 ^ 64) (hn : 0 < n)
    (hrounds : env.structs.length < s.off + 4 * n) :
    (dtbLoop env n s).1 =
      dtVerdict env s.resources stack.length (dtTokensFrom env.structs n s.off) ∧
    ((dtbLoop env n s).1 = .rewritePass → (dtbLoop env n s).2.nodes.size =
      s.nodes.size + (dtTokensFrom env.structs n s.off).1.countP (dtKind · = .opening)) := by
  induction n generalizing s live stack with
  | zero => exact absurd hn (lt_irrefl _)
  | succ n ih =>
      rw [dtbLoop, dtTokensFrom]
      cases hlex : dtLex env.structs s.off with
      | ending e =>
          have hcurr : s.curr = none ↔ stack.length = 0 := by
            rw [h.curr, List.head?_eq_none_iff, List.length_eq_zero_iff]
          rcases dtbStep_of_ending hoff hlex with ⟨rfl, hstep⟩ | ⟨token, rfl, hstep⟩ | ⟨rfl, hstep⟩
          · rw [hstep]
            refine ⟨?_, fun _ => rfl⟩
            show (if s.curr = none then DtStop.rewritePass else .panic (.notRootNode s.depth)) =
              if stack.length = 0 then .rewritePass else .panic (.notRootNode stack.length)
            rw [h.depth, if_congr hcurr rfl rfl]
          · rw [hstep]
            exact ⟨rfl, fun _ => rfl⟩
          · rw [hstep]
            exact ⟨rfl, fun _ => rfl⟩
      | tok t off' =>
          dsimp only
          obtain ⟨hin, hnext, haligned⟩ := dtLex_tok_off hlex
          rcases dtbStep_tok h hoff hbump hsize hlex with ⟨stop, hreserve, hstep⟩ |
            ⟨r, hreserve, hdepth, hstep⟩ |
            ⟨s', live', stack', hreserve, hdepth, hstep, hinv, rfl, hbump', hbsize, hnodes⟩
          · rw [hstep]
            refine ⟨?_, fun hpass => absurd hpass (dtReserveFor_error hreserve)⟩
            unfold dtVerdict dtGranted
            rw [hreserve]
            rfl
          · rw [hstep]
            refine ⟨?_, nofun⟩
            unfold dtVerdict dtGranted
            rw [hreserve]
            dsimp only
            rw [depthAfter_cons, hdepth]
            rfl
          · rw [hstep]
            obtain ⟨hstop, hcount⟩ := ih hinv (haligned hoff) hbump' (by rw [hbsize]; exact hsize)
              (by omega) (by omega)
            refine ⟨?_, fun hpass => ?_⟩
            · show (dtbLoop env n s').1 = _
              rw [hstop]
              unfold dtVerdict
              rw [dtGranted, hreserve]
              dsimp only
              rw [depthAfter_cons, hdepth]
              rfl
            · show (dtbLoop env n s').2.nodes.size = _
              rw [hcount hpass, hnodes, List.countP_cons]
              by_cases hk : dtKind t = .opening
              · simp only [hk, if_true, decide_true]
                omega
              · simp only [hk, if_false, decide_false, Bool.false_eq_true]
                omega

end loop

/-! ## The grammar -/

/-- **The grammar**: up to `FDT_NOP`, one root node with properties and nodes inside, and then `FDT_END`.
Source: `device_tree.c` `enum dtb_StructureToken`
Kind: D -/
def InGrammar (structs : List (BitVec 8)) : Prop :=
  (dtTokens structs).2 = .fdtEnd ∧
    IsNode dtKind ((dtTokens structs).1.filter fun t => dtKind t ≠ .blank)

/-- The rewrite pass is reached with at least one node.
Source: `device_tree.c` `dt_initialize`
Kind: D -/
def DtAccepts (env : DtEnv) (bump : BumpAllocator) : Prop :=
  ∃ s root, dtbParse env bump = .rewrite s root

/-- The block ends in a panic, a failed `ASSERT` or an error.
Source: `device_tree.c` `dt_initialize`
Kind: D -/
def DtRefuses (env : DtEnv) (bump : BumpAllocator) : Prop :=
  dtbParse env bump = .noNodes ∨ dtbParse env bump = .stopped .assertion ∨
    ∃ p, dtbParse env bump = .stopped (.panic p)

/-- **The loop accepts exactly the grammar, and refuses everything else**.
Source: `device_tree.c` `dt_initialize`
Kind: D -/
def DtGrammarExact (env : DtEnv) (bump : BumpAllocator) : Prop :=
  (DtAccepts env bump ↔ InGrammar env.structs) ∧ (¬ InGrammar env.structs → DtRefuses env bump)

/-- When it does. Every property and every `FDT_END_NODE` that is reached has an open node; with memory
for every token, the tokens do not run out of the block and are not several root nodes with `FDT_END`
behind them; and without it, the block is none to accept and the failure is not an access to `NULL` or
behind the block.
Source: none: infrastructure
Kind: D -/
def DtTells (env : DtEnv) (bump : BumpAllocator) : Prop :=
  depthAfter dtKind 0 (dtGranted env (dtbInit bump).resources (dtTokens env.structs).1).1 ≠ none ∧
    match (dtGranted env (dtbInit bump).resources (dtTokens env.structs).1).2 with
    | none => (dtTokens env.structs).2 ≠ .pastEnd ∧ ¬ ((dtTokens env.structs).2 = .fdtEnd ∧
        depthAfter dtKind 0 (dtTokens env.structs).1 = some 0 ∧
        2 ≤ tops dtKind 0 (dtTokens env.structs).1)
    | some stop => ¬ InGrammar env.structs ∧ (stop = .assertion ∨ ∃ p, stop = .panic p)

section grammar

variable {env : DtEnv} {bump : BumpAllocator}

/-- Source: none: infrastructure. Kind: L -/
theorem inGrammar_iff (structs : List (BitVec 8)) : InGrammar structs ↔
    (dtTokens structs).2 = .fdtEnd ∧ depthAfter dtKind 0 (dtTokens structs).1 = some 0 ∧
      tops dtKind 0 (dtTokens structs).1 = 1 := by
  unfold InGrammar
  rw [isNode_iff]

/-- With memory for every token, all are granted.
Source: none: infrastructure
Kind: L -/
theorem dtGranted_fst {r : DtResources} {ts : List DtToken} (h : (dtGranted env r ts).2 = none) :
    (dtGranted env r ts).1 = ts := by
  induction ts generalizing r with
  | nil => rfl
  | cons t ts ih =>
      rw [dtGranted] at h ⊢
      cases hreserve : dtReserveFor env r t with
      | error stop =>
          rw [hreserve] at h
          cases h
      | ok r' =>
          rw [hreserve] at h
          exact congrArg (t :: ·) (ih h)

/-- A failed allocation is not the way to the rewrite pass.
Source: none: infrastructure
Kind: L -/
theorem dtGranted_stop {r : DtResources} {ts : List DtToken} {stop : DtStop}
    (h : (dtGranted env r ts).2 = some stop) : stop ≠ .rewritePass := by
  induction ts generalizing r with
  | nil => cases h
  | cons t ts ih =>
      rw [dtGranted] at h
      cases hreserve : dtReserveFor env r t with
      | error stop' =>
          rw [hreserve] at h
          cases h
          exact dtReserveFor_error hreserve
      | ok r' =>
          rw [hreserve] at h
          exact ih h

/-- **What the parsing comes to**, by the verdict on the tokens.
Source: `device_tree.c` `dt_initialize`
Kind: P -/
theorem dtbParse_cases (hbump : BumpOk bump)
    (hsize : bump.size.toNat + env.structs.length < 2 ^ 64) :
    (dtVerdict env (dtbInit bump).resources 0 (dtTokens env.structs) = .rewritePass ∧
      (dtTokens env.structs).1.countP (dtKind · = .opening) = 0 ∧ dtbParse env bump = .noNodes) ∨
    (dtVerdict env (dtbInit bump).resources 0 (dtTokens env.structs) = .rewritePass ∧
      0 < (dtTokens env.structs).1.countP (dtKind · = .opening) ∧ DtAccepts env bump) ∨
    (dtVerdict env (dtbInit bump).resources 0 (dtTokens env.structs) ≠ .rewritePass ∧
      dtbParse env bump =
        .stopped (dtVerdict env (dtbInit bump).resources 0 (dtTokens env.structs))) := by
  obtain ⟨hstop, hcount⟩ := dtbLoop_verdict (n := env.structs.length + 1) (dtInv_init bump) rfl hbump
    hsize (Nat.succ_pos _) (by omega)
  change _ = dtVerdict env (dtbInit bump).resources 0 (dtTokens env.structs) at hstop
  change _ → _ = 0 + (dtTokens env.structs).1.countP (dtKind · = .opening) at hcount
  rw [← hstop]
  unfold DtAccepts dtbParse
  generalize dtbLoop env (env.structs.length + 1) (dtbInit bump) = run at hcount ⊢
  obtain ⟨stop, s⟩ := run
  by_cases hpass : stop = .rewritePass
  · subst hpass
    have hnodes := hcount rfl
    rw [Nat.zero_add] at hnodes
    dsimp only at hnodes ⊢
    by_cases hzero : s.nodes.size = 0
    · rw [if_pos hzero]
      exact Or.inl ⟨rfl, hnodes ▸ hzero, rfl⟩
    · rw [if_neg hzero]
      exact Or.inr (Or.inl ⟨rfl, Nat.pos_of_ne_zero (hnodes ▸ hzero), _, _, rfl⟩)
  · refine Or.inr (Or.inr ⟨hpass, ?_⟩)
    cases stop <;> first | rfl | exact absurd rfl hpass

/-- A block that is stopped.
Source: none: infrastructure
Kind: L -/
theorem dtGrammarExact_of_stopped {stop : DtStop} (h : dtbParse env bump = .stopped stop) :
    DtGrammarExact env bump ↔
      ¬ InGrammar env.structs ∧ (stop = .assertion ∨ ∃ p, stop = .panic p) := by
  have haccepts : ¬ DtAccepts env bump := by
    rintro ⟨s, root, hrewrite⟩
    rw [h] at hrewrite
    cases hrewrite
  have hrefuses : DtRefuses env bump ↔ stop = .assertion ∨ ∃ p, stop = .panic p := by
    unfold DtRefuses
    rw [h]
    simp
  unfold DtGrammarExact
  rw [hrefuses]
  constructor
  · rintro ⟨hiff, hstop⟩
    have hout : ¬ InGrammar env.structs := fun hin => haccepts (hiff.mpr hin)
    exact ⟨hout, hstop hout⟩
  · rintro ⟨hout, hstop⟩
    exact ⟨iff_of_false haccepts hout, fun _ => hstop⟩

/-- A block without nodes.
Source: none: infrastructure
Kind: L -/
theorem dtGrammarExact_of_noNodes (h : dtbParse env bump = .noNodes) :
    DtGrammarExact env bump ↔ ¬ InGrammar env.structs := by
  have haccepts : ¬ DtAccepts env bump := by
    rintro ⟨s, root, hrewrite⟩
    rw [h] at hrewrite
    cases hrewrite
  constructor
  · rintro ⟨hiff, -⟩ hin
    exact haccepts (hiff.mpr hin)
  · intro hout
    exact ⟨iff_of_false haccepts hout, fun _ => Or.inl h⟩

/-- A block that is accepted.
Source: none: infrastructure
Kind: L -/
theorem dtGrammarExact_of_accepts (h : DtAccepts env bump) :
    DtGrammarExact env bump ↔ InGrammar env.structs := by
  constructor
  · rintro ⟨hiff, -⟩
    exact hiff.mp h
  · intro hin
    exact ⟨iff_of_true h hin, fun hout => absurd hin hout⟩

/-- **A stop that is the verdict** is what the parsing comes to.
Source: none: infrastructure
Kind: L -/
theorem dtbParse_of_verdict (hbump : BumpOk bump)
    (hsize : bump.size.toNat + env.structs.length < 2 ^ 64) {stop : DtStop}
    (h : dtVerdict env (dtbInit bump).resources 0 (dtTokens env.structs) = stop)
    (hne : stop ≠ .rewritePass) : dtbParse env bump = .stopped stop := by
  rcases dtbParse_cases hbump hsize with ⟨hpass, -⟩ | ⟨hpass, -⟩ | ⟨-, hparse⟩
  · exact absurd (h.symm.trans hpass) hne
  · exact absurd (h.symm.trans hpass) hne
  · rw [hparse, h]

/-- A balanced block with `FDT_END`: no node, one or several at the top.
Source: `device_tree.c` `dt_initialize`
Kind: L -/
theorem dtGrammarExact_of_balanced (hbump : BumpOk bump)
    (hsize : bump.size.toNat + env.structs.length < 2 ^ 64)
    (hverdict : dtVerdict env (dtbInit bump).resources 0 (dtTokens env.structs) = .rewritePass)
    (hend : (dtTokens env.structs).2 = .fdtEnd)
    (hdepth : depthAfter dtKind 0 (dtTokens env.structs).1 = some 0) :
    DtGrammarExact env bump ↔ ¬ 2 ≤ tops dtKind 0 (dtTokens env.structs).1 := by
  have hin : InGrammar env.structs ↔ tops dtKind 0 (dtTokens env.structs).1 = 1 := by
    rw [inGrammar_iff]
    exact ⟨fun h => h.2.2, fun h => ⟨hend, hdepth, h⟩⟩
  have htops : 0 < (dtTokens env.structs).1.countP (dtKind · = .opening) ↔
      0 < tops dtKind 0 (dtTokens env.structs).1 := by
    rw [List.countP_pos_iff]
    constructor
    · rintro ⟨t, ht, hopen⟩
      exact tops_pos_of_opening hdepth ⟨t, ht, of_decide_eq_true hopen⟩
    · intro hpos
      obtain ⟨t, ht, hopen⟩ := exists_opening_of_tops_ne_zero (Nat.ne_of_gt hpos)
      exact ⟨t, ht, decide_eq_true hopen⟩
  rcases dtbParse_cases hbump hsize with ⟨-, hcount, hparse⟩ | ⟨-, hcount, haccepts⟩ | ⟨hne, -⟩
  · rw [dtGrammarExact_of_noNodes hparse, hin]
    omega
  · rw [dtGrammarExact_of_accepts haccepts, hin]
    have := htops.mp hcount
    omega
  · exact absurd hverdict hne

/-- **When the loop accepts exactly the grammar**.
Source: `device_tree.c` `dt_initialize`
Kind: P
Hyps: the bump allocator's buffer lies in the address space and `bump_init` has been called; its size
and that of the block do not come to `2^64` -/
theorem dtGrammarExact_iff (env : DtEnv) (bump : BumpAllocator) (hbump : BumpOk bump)
    (hsize : bump.size.toNat + env.structs.length < 2 ^ 64) :
    DtGrammarExact env bump ↔ DtTells env bump := by
  have hgrammar := inGrammar_iff env.structs
  have hparse := fun stop : DtStop => @dtbParse_of_verdict env bump hbump hsize stop
  have hbalanced := dtGrammarExact_of_balanced hbump hsize
  unfold dtVerdict at hparse hbalanced
  unfold DtTells
  cases hgranted : (dtGranted env (dtbInit bump).resources (dtTokens env.structs).1).2 with
  | some stop =>
      -- the memory runs out: an access to `NULL` before that, or the failed allocation
      rw [hgranted] at hparse
      have hstop := dtGranted_stop hgranted
      cases hdepth : depthAfter dtKind 0
          (dtGranted env (dtbInit bump).resources (dtTokens env.structs).1).1 with
      | none =>
          rw [hdepth] at hparse
          rw [dtGrammarExact_of_stopped (hparse _ rfl nofun)]
          simp
      | some d =>
          rw [hdepth] at hparse
          rw [dtGrammarExact_of_stopped (hparse _ rfl hstop)]
          simp
  | none =>
      rw [hgranted, dtGranted_fst hgranted] at hparse hbalanced
      rw [dtGranted_fst hgranted]
      cases hdepth : depthAfter dtKind 0 (dtTokens env.structs).1 with
      | none =>
          rw [hdepth] at hparse
          rw [dtGrammarExact_of_stopped (hparse _ rfl nofun)]
          simp
      | some d =>
          rw [hdepth] at hparse hbalanced hgrammar
          cases hend : (dtTokens env.structs).2 with
          | pastEnd =>
              rw [hend] at hparse
              rw [dtGrammarExact_of_stopped (hparse _ rfl nofun)]
              simp
          | unknown token =>
              rw [hend] at hparse hgrammar
              rw [dtGrammarExact_of_stopped (hparse _ rfl nofun), hgrammar]
              simp
          | fdtEnd =>
              rw [hend] at hparse hbalanced hgrammar
              by_cases hd : d = 0
              · subst hd
                rw [hbalanced rfl rfl rfl]
                simp
              · dsimp only at hparse
                rw [if_neg hd] at hparse
                rw [dtGrammarExact_of_stopped (hparse _ rfl nofun), hgrammar]
                simp [hd]

end grammar

/-- A block on a machine where every allocation succeeds, in a build with assertions.
Source: none: infrastructure
Kind: D -/
def blockEnv (structs : List (BitVec 8)) : DtEnv := ⟨structs, fun _ => 0, 0, true, fun _ => true⟩

/-- A root node without a name, with a node `a` inside.
Source: none: infrastructure
Kind: D -/
def nodeBlock : List (BitVec 8) :=
  [0, 0, 0, 1, 0, 0, 0, 0, 0, 0, 0, 4, 0, 0, 0, 1, 97, 0, 0, 0, 0, 0, 0, 2, 0, 0, 0, 2, 0, 0, 0, 9]

/-- Source: none: infrastructure. Kind: C -/
theorem dtGrammarExact_nodeBlock : DtGrammarExact (blockEnv nodeBlock) twoPageBump :=
  (dtGrammarExact_iff (blockEnv nodeBlock) twoPageBump bumpOk_twoPageBump (by decide)).mpr
    ⟨by decide, by decide, by decide⟩

/-- `FDT_END_NODE` with no open node is an access to `NULL`.
Source: `device_tree.c` `dt_initialize`
Kind: C -/
theorem not_dtGrammarExact_endNode :
    ¬ DtGrammarExact (blockEnv [0, 0, 0, 2, 0, 0, 0, 9]) twoPageBump := by
  have hparse : dtbParse (blockEnv [0, 0, 0, 2, 0, 0, 0, 9]) twoPageBump = .stopped .nullCurr := rfl
  rw [dtGrammarExact_of_stopped hparse]
  rintro ⟨-, hstop | ⟨p, hstop⟩⟩
  · cases hstop
  · cases hstop

end Octiron.Kernel
