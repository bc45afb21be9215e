import Octiron.Found.Bytes
import Octiron.Kernel.DeviceParse
import Octiron.Kernel.DeviceRewrite
import Octiron.Kernel.PageTables
import Octiron.Kernel.Reservations

/-!
# Reading the blocks of a blob

`device_tree.c`: `dt_initialize` from the buffer of the bump allocator to the end of the rewrite pass, on
the mapped pages of the blob and with the calls that the loop makes of the manager.

* `sv39Loads` — a load does not end in a page fault. `loadsBytes`, `loadsCString` — nor do those of a run
  of bytes and of a string, and `readableBytes` is the structure block as far as it can be read.
* `DtRun`, `dtbLoopOn` — the loop over the tokens, where an array that is full gets its pages from
  `pmm_alloc_aligned`.
* `dtbBlocks` — the reservation block, the structure block and the rewrite pass.
* `DtRun.written` — memory afterwards: what has been handed out holds anything.
* `dtbLoopOn_eq` — where no call fails and every name can be read, the loop is `dtbLoop`.
* `dtbBlocks_calls` — what each call of the manager keeps, the blocks keep.
* **Main result** (`TablesRep.blocks`): when every call leaves the page tables alone, so do the two passes.
-/

namespace Octiron.Kernel

open Octiron.Found
open Octiron.Found.Mem
open Octiron.Kzadhbat

variable {σ : Type}

/-! ## Loads -/

/-- Source: `paging.h` `SV39_FLAGS_READ`. Kind: D -/
def sv39FlagsRead : BitVec 64 := 2

/-- Source: `paging.h` `SV39_FLAGS_USER`. Kind: D -/
def sv39FlagsUser : BitVec 64 := 0x10

/-- **A load from `va` does not end in a page fault**: the address is canonical, and the walk comes to a leaf
that the supervisor may read.
Source: none: the Sv39 scheme
Kind: D -/
def sv39Loads (m : Mem) (root va : Addr) : Bool :=
  decide (Canonical va) && (sv39Walk m va 2 root).any fun leaf =>
    sv39PteReadable leaf.2 && leaf.2 &&& sv39FlagsUser == 0

/-- The `n` bytes at `p` can be loaded.
Source: none: infrastructure
Kind: D -/
def loadsBytes (loads : Addr → Bool) (p : Addr) (n : ℕ) : Bool :=
  (List.range n).all fun i => loads (p + BitVec.ofNat 64 i)

/-- The string at `p` can be loaded, with its zero byte.
Source: `impl.c` `strlen`
Kind: D -/
def loadsCString (loads : Addr → Bool) (m : Mem) (p : Addr) : Bool := loadsBytes loads p (strlen m p + 1)

/-- The bytes from `p` to the end of its page.
Source: none: infrastructure
Kind: D -/
def pageRest (p : Addr) : ℕ := 4096 - p.toNat % 4096

/-- The bytes from `p` on, up to a page that cannot be read, of at most `n` pages. (All bytes of a page
can be loaded or none.)
Source: none: infrastructure
Kind: D -/
def readableBytes (loads : Addr → Bool) (m : Mem) : ℕ → Addr → List (BitVec 8)
  | 0, _ => []
  | n + 1, p =>
      if loads p then
        bytes m p (pageRest p) ++ readableBytes loads m n (p + BitVec.ofNat 64 (pageRest p))
      else []

/-- The pages of the canonical addresses.
Source: none: the Sv39 scheme
Kind: D -/
def canonicalPages : ℕ := 2 ^ 27

/-! ## The header -/

/-- What `dt_initialize` depends on besides the blob, memory and the manager.
Source: none: infrastructure
Kind: D -/
structure DtMachine where
  /-- The build has `ENABLE_ASSERTIONS`. -/
  assertions : Bool
  /-- What the buffer of the bump allocator and those of the arrays hold in the end. -/
  contents : Mem

/-- `ENDIANNESS_FLIP_U32` of the field of the header at `off`.
Source: `device_tree.c` `struct dtb_header`
Kind: D -/
def dtbHeaderField (blob : Mem) (base : Addr) (off : BitVec 64) : BitVec 64 :=
  (readU32At blob (base + off)).setWidth 64

/-- The blocks of the blob, as the loop over the tokens sees them.
Source: `device_tree.c` `dt_initialize` (`structures`, `strings`)
Kind: D -/
def dtbEnv (machine : DtMachine) (loads : Addr → Bool) (blob : Mem) (base : Addr) : DtEnv where
  structs := readableBytes loads blob canonicalPages (base + dtbHeaderField blob base 8)
  mem := blob
  strings := base + dtbHeaderField blob base 12
  assertions := machine.assertions
  grants := fun _ => true

/-! ## The loop on the manager -/

/-- The state of the loop: memory and the manager, the variables of the loop, and the calls of the manager
so far, each with the state that it was made in and the size.
Source: `device_tree.c` `dt_initialize`
Kind: D -/
structure DtRun (σ : Type) where
  world : World σ
  state : DtState
  calls : List (World σ × BitVec 64)

/-- A call of the manager.
Source: `pmm.c` `pmm_alloc`, `pmm_alloc_aligned`
Kind: D -/
def DtRun.call (run : DtRun σ) (pmmAlloc : PmmAlloc σ) (size : BitVec 64) : DtRun σ :=
  let r := pmmAlloc run.world.pmm run.world.mem size
  { run with world := ⟨r.mem, r.pmm⟩, calls := (run.world, size) :: run.calls }

/-- The call of `pmm_alloc_aligned` in `ARRAY_PUSH`, if a round has made one: the size of the new buffer.
Source: `array.h` `ARRAY_PUSH`
Kind: D -/
def dtbArrayRequest (s s' : DtState) : Option (BitVec 64) :=
  if s'.nodes.buffers ≠ s.nodes.buffers then
    some (BitVec.ofNat 64 (s'.nodes.capacity * sizeofDtNode))
  else if s'.properties.buffers ≠ s.properties.buffers then
    some (BitVec.ofNat 64 (s'.properties.capacity * sizeofDtProperty))
  else none

/-- The name that the round copies can be loaded, if it comes to one.
Source: `device_tree.c` `dtb_parse_property` (`bump_str_copy`)
Kind: D -/
def dtbNameLoads (loads : Addr → Bool) (env : DtEnv) (off : ℕ) : Bool :=
  match readU32 env.structs off, readU32 env.structs (off + 8) with
  | some token, some nameOffset =>
    token ≠ fdtProp || loadsCString loads env.mem (env.strings + nameOffset.setWidth 64)
  | _, _ => true

/-- The loop over the tokens on the manager, for at most `n` rounds. A round is `dtbStep` with its
allocation granted, which is then asked for. (Of a round that does not come back nothing is kept.)
Source: `device_tree.c` `dt_initialize`
Kind: D -/
def dtbLoopOn (pmmAlloc : PmmAlloc σ) (loads : Addr → Bool) (env : DtEnv) :
    ℕ → DtRun σ → DtStop × DtRun σ
  | 0, run => (.endless, run)
  | n + 1, run =>
      -- a page fault
      if !dtbNameLoads loads env run.state.off then (.pastEnd, run)
      else
        match dtbStep env run.state with
        | .error stop => (stop, run)
        | .ok s' =>
          match dtbArrayRequest run.state s' with
          | none => dtbLoopOn pmmAlloc loads env n { run with state := s' }
          | some size =>
            if errIsFail (pmmAlloc run.world.pmm run.world.mem size).err then
              (.panic .arrayAllocation, run.call pmmAlloc size)
            else dtbLoopOn pmmAlloc loads env n { run.call pmmAlloc size with state := s' }

/-- The ranges that the calls have handed out.
Source: none: infrastructure
Kind: D -/
def grantedRanges (pmmAlloc : PmmAlloc σ) (calls : List (World σ × BitVec 64)) : List (Addr × ℕ) :=
  calls.filterMap fun c =>
    let r := pmmAlloc c.1.pmm c.1.mem c.2
    if errIsFail r.err then none else some (r.ret, c.2.toNat)

/-- **Memory after the two passes**: what the loop has been handed out has been written to.
Source: `device_tree.c` `dt_initialize`
Kind: D -/
def DtRun.written (run : DtRun σ) (machine : DtMachine) (pmmAlloc : PmmAlloc σ) : World σ :=
  { run.world with
    mem := overlay run.world.mem machine.contents (grantedRanges pmmAlloc run.calls) }

/-! ## The blocks -/

/-- What the blocks of the blob come to.
Source: `device_tree.c` `dt_initialize`
Kind: D -/
inductive DtBlocksEnd
  | parsed
  | failed (err : Errval)
  /-- A panic, a failed assertion, a loop without end, a page fault or behaviour that is not defined. -/
  | stuck
  /-- The rewrite pass has stored behind its buffer. -/
  | overrun
  deriving DecidableEq

/-- How the rewrite pass ends.
Source: `device_tree.c` `dt_initialize`
Kind: D -/
def DtBlocksEnd.ofRewrite {α : Type} : Except DtRewriteStop α → DtBlocksEnd
  | .ok _ => .parsed
  | .error (.err err) => .failed (errPush err .dtbRewriteFailed)
  | .error .outsideBuffer => .overrun
  | .error _ => .stuck

/-- From the end of the loop on.
Source: `device_tree.c` `dt_initialize`
Kind: D -/
def dtbRewritePass (machine : DtMachine) (s : DtState) : DtBlocksEnd :=
  if s.nodes.size = 0 then .failed GrouperError.dtbNoNodes.errval
  else .ofRewrite (dtbRewrite machine.assertions s (s.nodes.data.getD 0, 0))

/-- The words of the reservation block that are tested, and the three fields of the header, can be loaded.
Source: `device_tree.c` `dt_initialize`
Kind: D -/
def dtbFieldsLoad (loads : Addr → Bool) (blob : Mem) (base : Addr) : Bool :=
  let memRsvmap := base + dtbHeaderField blob base 16
  loadsBytes loads (base + 16) 4 && loadsBytes loads memRsvmap 8 &&
    (load64 blob memRsvmap == 0 || loadsBytes loads (memRsvmap + 8) 8) &&
      loadsBytes loads (base + 8) 4 && loadsBytes loads (base + 12) 4

/-- The state in which the loop starts, with the buffer of the bump allocator.
Source: `device_tree.c` `dt_initialize`
Kind: D -/
def dtbStart (pmmAlloc : PmmAlloc σ) (w : World σ) : DtRun σ :=
  let r := pmmAlloc w.pmm w.mem (2 * basePageSize)
  let bump := (bumpInit ⟨0, 0, 0, r.mem⟩ r.ret (2 * basePageSize)).1
  (DtRun.mk w (dtbInit bump) []).call pmmAlloc (2 * basePageSize)

/-- The loop over the structure block.
Source: `device_tree.c` `dt_initialize`
Kind: D -/
def dtbStructures (machine : DtMachine) (pmmAlloc : PmmAlloc σ) (root : Addr) (blob : Mem) (base : Addr)
    (start : DtRun σ) : DtStop × DtRun σ :=
  let loads := sv39Loads start.world.mem root
  let env := dtbEnv machine loads blob base
  dtbLoopOn pmmAlloc loads env (env.structs.length + 1) start

/-- Reading the memory reservation block and the structure block, and the rewrite pass, from the call for
the buffer on. The loop over the reservation block does not go on to the next entry, so that one round
tells whether it ends.
Source: `device_tree.c` `dt_initialize`
Kind: D -/
def dtbBlocks (machine : DtMachine) (pmmAlloc : PmmAlloc σ) (root : Addr) (blob : Mem) (base : Addr)
    (w : World σ) : DtRun σ × DtBlocksEnd :=
  let start := dtbStart pmmAlloc w
  if !dtbFieldsLoad (sv39Loads start.world.mem root) blob base then (start, .stuck)
  else
    let memRsvmap := base + dtbHeaderField blob base 16
    match (reservationLoop blob memRsvmap (fun _ => true) 1 0 reservationInit).2 with
    | .finished =>
      match dtbStructures machine pmmAlloc root blob base start with
      | (.rewritePass, run) => (run, dtbRewritePass machine run.state)
      | (_, run) => (run, .stuck)
    | _ => (start, .stuck)

/-! ## What the calls do -/

section calls

variable {pmmAlloc : PmmAlloc σ} {loads : Addr → Bool} {env : DtEnv} {run : DtRun σ} {n : ℕ}

/-- The calls are added in front.
Source: none: infrastructure
Kind: L -/
theorem calls_suffix_dtbLoopOn (pmmAlloc : PmmAlloc σ) (loads : Addr → Bool) (env : DtEnv) (n : ℕ)
    (run : DtRun σ) : run.calls <:+ (dtbLoopOn pmmAlloc loads env n run).2.calls := by
  induction n generalizing run with
  | zero => exact List.suffix_rfl
  | succ n ih =>
      unfold dtbLoopOn
      split_ifs
      · exact List.suffix_rfl
      · cases dtbStep env run.state with
        | error stop => exact List.suffix_rfl
        | ok s' =>
            cases hrequest : dtbArrayRequest run.state s' with
            | none =>
                dsimp only
                rw [hrequest]
                exact ih { run with state := s' }
            | some size =>
                have hcall : run.calls <:+ (run.call pmmAlloc size).calls := List.suffix_cons _ _
                dsimp only
                rw [hrequest]
                dsimp only
                split_ifs
                · exact hcall
                · exact hcall.trans (ih { run.call pmmAlloc size with state := s' })

/-- **What each call keeps, the loop keeps**. `C` is what is known of the calls that are made.
Source: `device_tree.c` `dt_initialize`, `array.h` `ARRAY_PUSH`
Kind: P -/
theorem dtbLoopOn_calls {P : World σ → List (World σ × BitVec 64) → Prop}
    {C : World σ × BitVec 64 → Prop}
    (hcall : ∀ (run : DtRun σ) size, P run.world run.calls → C (run.world, size) →
      P (run.call pmmAlloc size).world (run.call pmmAlloc size).calls)
    (h : P run.world run.calls) (hC : ∀ c ∈ (dtbLoopOn pmmAlloc loads env n run).2.calls, C c) :
    P (dtbLoopOn pmmAlloc loads env n run).2.world (dtbLoopOn pmmAlloc loads env n run).2.calls := by
  induction n generalizing run with
  | zero => exact h
  | succ n ih =>
      unfold dtbLoopOn at hC ⊢
      split_ifs at hC ⊢ with hname
      · exact h
      · cases hstep : dtbStep env run.state with
        | error stop => exact h
        | ok s' =>
            rw [hstep] at hC
            dsimp only at hC ⊢
            cases hrequest : dtbArrayRequest run.state s' with
            | none =>
                rw [hrequest] at hC
                exact @ih { run with state := s' } h hC
            | some size =>
                rw [hrequest] at hC
                dsimp only at hC ⊢
                split_ifs at hC ⊢ with hfail
                · exact hcall run size h (hC _ List.mem_cons_self)
                · have hmem := (calls_suffix_dtbLoopOn pmmAlloc loads env n
                    { run.call pmmAlloc size with state := s' }).subset List.mem_cons_self
                  exact ih (hcall run size h (hC _ hmem)) hC

/-- **The loop on a manager that grants every call**, with names that can be read.
Source: `device_tree.c` `dt_initialize`
Kind: P -/
theorem dtbLoopOn_eq
    (hnames : ∀ s, DtReach env run.state s → dtbNameLoads loads env s.off = true)
    (hgranted : ∀ c ∈ (dtbLoopOn pmmAlloc loads env n run).2.calls,
      errIsFail (pmmAlloc c.1.pmm c.1.mem c.2).err = false) :
    (dtbLoopOn pmmAlloc loads env n run).1 = (dtbLoop env n run.state).1 ∧
      (dtbLoopOn pmmAlloc loads env n run).2.state = (dtbLoop env n run.state).2 := by
  induction n generalizing run with
  | zero => exact ⟨rfl, rfl⟩
  | succ n ih =>
      unfold dtbLoopOn at hgranted ⊢
      unfold dtbLoop
      rw [hnames run.state .refl, Bool.not_true, if_neg Bool.false_ne_true] at hgranted ⊢
      cases hstep : dtbStep env run.state with
      | error stop => exact ⟨rfl, rfl⟩
      | ok s' =>
          rw [hstep] at hgranted
          dsimp only at hgranted ⊢
          have hnames' : ∀ s, DtReach env s' s → dtbNameLoads loads env s.off = true :=
            fun s hs => hnames s (.head hstep hs)
          cases hrequest : dtbArrayRequest run.state s' with
          | none =>
              rw [hrequest] at hgranted
              exact @ih { run with state := s' } hnames' hgranted
          | some size =>
              rw [hrequest] at hgranted
              dsimp only at hgranted ⊢
              by_cases hfail : errIsFail (pmmAlloc run.world.pmm run.world.mem size).err = true
              · rw [if_pos hfail] at hgranted
                have hok := hgranted _ List.mem_cons_self
                rw [hfail] at hok
                cases hok
              · rw [if_neg hfail] at hgranted ⊢
                exact @ih { run.call pmmAlloc size with state := s' } hnames' hgranted

end calls

/-! ## The tables -/

section tables

variable {pmmAlloc : PmmAlloc σ} {root : Addr} {machine : DtMachine} {blob : Mem} {base : Addr}
  {w : World σ}

/-- **A call that keeps the tables**: it leaves them as they are, and what it hands out is apart from them.
Source: none: what `dt_initialize` relies on
Kind: D -/
def KeepsTables (pmmAlloc : PmmAlloc σ) (root : Addr) (c : World σ × BitVec 64) : Prop :=
  let r := pmmAlloc c.1.pmm c.1.mem c.2
  ∀ level t, TableAt c.1.mem root level t →
    PageEq r.mem c.1.mem t ∧ (errIsFail r.err = false → Apart r.ret c.2.toNat t 4096)

/-- The blocks end with the call for the buffer or with the loop.
Source: `device_tree.c` `dt_initialize`
Kind: L -/
theorem dtbBlocks_run (machine : DtMachine) (pmmAlloc : PmmAlloc σ) (root : Addr) (blob : Mem)
    (base : Addr) (w : World σ) :
    (dtbBlocks machine pmmAlloc root blob base w).1 = dtbStart pmmAlloc w ∨
      (dtbBlocks machine pmmAlloc root blob base w).1 =
        (dtbStructures machine pmmAlloc root blob base (dtbStart pmmAlloc w)).2 := by
  unfold dtbBlocks
  dsimp only
  split_ifs
  · exact Or.inl rfl
  · cases (reservationLoop blob (base + dtbHeaderField blob base 16) (fun _ => true) 1 0
        reservationInit).2 with
    | finished =>
        rcases dtbStructures machine pmmAlloc root blob base (dtbStart pmmAlloc w) with ⟨stop, run⟩
        cases stop <;> exact Or.inr rfl
    | left e => exact Or.inl rfl
    | endless => exact Or.inl rfl

/-- Blocks whose fields can be loaded and whose reservation block has an end are the loop, and the rewrite
pass when the loop comes to it.
Source: `device_tree.c` `dt_initialize`
Kind: L -/
theorem dtbBlocks_eq {stop : DtStop} {run : DtRun σ}
    (hfields : dtbFieldsLoad (sv39Loads (dtbStart pmmAlloc w).world.mem root) blob base = true)
    (hreservations : (reservationLoop blob (base + dtbHeaderField blob base 16) (fun _ => true) 1 0
      reservationInit).2 = .finished)
    (hstructs : dtbStructures machine pmmAlloc root blob base (dtbStart pmmAlloc w) = (stop, run)) :
    dtbBlocks machine pmmAlloc root blob base w =
      (run, if stop = .rewritePass then dtbRewritePass machine run.state else .stuck) := by
  unfold dtbBlocks
  dsimp only
  rw [hfields, Bool.not_true, if_neg Bool.false_ne_true, hreservations]
  dsimp only
  rw [hstructs]
  by_cases hstop : stop = .rewritePass
  · rw [if_pos hstop, hstop]
  · rw [if_neg hstop]
    cases stop with
    | rewritePass => exact absurd rfl hstop
    | _ => rfl

/-- **What each call keeps**, that for the buffer and those of the loop, the blocks keep.
Source: `device_tree.c` `dt_initialize`
Kind: L -/
theorem dtbBlocks_calls {P : World σ → List (World σ × BitVec 64) → Prop}
    {C : World σ × BitVec 64 → Prop}
    (hcall : ∀ (run : DtRun σ) size, P run.world run.calls → C (run.world, size) →
      P (run.call pmmAlloc size).world (run.call pmmAlloc size).calls)
    (h : P w []) (hC : ∀ c ∈ (dtbBlocks machine pmmAlloc root blob base w).1.calls, C c) :
    P (dtbBlocks machine pmmAlloc root blob base w).1.world
      (dtbBlocks machine pmmAlloc root blob base w).1.calls := by
  have hstart : C (w, 2 * basePageSize) →
      P (dtbStart pmmAlloc w).world (dtbStart pmmAlloc w).calls :=
    hcall ⟨w, dtbInit _, []⟩ (2 * basePageSize) h
  rcases dtbBlocks_run machine pmmAlloc root blob base w with hrun | hrun
  · rw [hrun] at hC ⊢
    exact hstart (hC _ List.mem_cons_self)
  · rw [hrun] at hC ⊢
    have hsuffix : (dtbStart pmmAlloc w).calls <:+
        (dtbStructures machine pmmAlloc root blob base (dtbStart pmmAlloc w)).2.calls :=
      calls_suffix_dtbLoopOn _ _ _ _ _
    exact dtbLoopOn_calls hcall (hstart (hC _ (hsuffix.subset List.mem_cons_self))) hC

/-- The tables after calls that keep them, and what has been handed out is apart from them.
Source: none: infrastructure
Kind: D -/
def TablesKept (pmmAlloc : PmmAlloc σ) (root : Addr) (T : TableNode → Option Addr)
    (A : PageIndex → Option Mapping) (w : World σ) (calls : List (World σ × BitVec 64)) : Prop :=
  TablesRep w.mem root T A ∧
    ∀ r ∈ grantedRanges pmmAlloc calls, ∀ n t, T n = some t → Apart r.1 r.2 t 4096

/-- A call that keeps the tables, after others.
Source: none: infrastructure
Kind: L -/
theorem TablesKept.call {T : TableNode → Option Addr} {A : PageIndex → Option Mapping}
    (run : DtRun σ) (size : BitVec 64) (h : TablesKept pmmAlloc root T A run.world run.calls)
    (hkeeps : KeepsTables pmmAlloc root (run.world, size)) :
    TablesKept pmmAlloc root T A (run.call pmmAlloc size).world (run.call pmmAlloc size).calls := by
  obtain ⟨hrep, happart⟩ := h
  refine ⟨hrep.congr fun n t hn => (hkeeps _ t (hrep.tableAt hn)).1, ?_⟩
  show ∀ r ∈ grantedRanges pmmAlloc ((run.world, size) :: run.calls), _
  unfold grantedRanges
  rw [List.filterMap_cons]
  dsimp only
  by_cases hfail : errIsFail (pmmAlloc run.world.pmm run.world.mem size).err = true
  · rw [if_pos hfail]
    exact happart
  · rw [if_neg hfail]
    refine List.forall_mem_cons.mpr ⟨fun n t hn => ?_, happart⟩
    exact (hkeeps _ t (hrep.tableAt hn)).2 (Bool.eq_false_iff.mpr hfail)

/-- **The two passes leave the tables as they are**, when every call does.
Source: `device_tree.c` `dt_initialize`
Kind: P -/
theorem TablesRep.blocks {T : TableNode → Option Addr} {A : PageIndex → Option Mapping}
    (h : TablesRep w.mem root T A)
    (hcalls : ∀ c ∈ (dtbBlocks machine pmmAlloc root blob base w).1.calls, KeepsTables pmmAlloc root c) :
    TablesRep ((dtbBlocks machine pmmAlloc root blob base w).1.written machine pmmAlloc).mem root T A := by
  obtain ⟨hrep, happart⟩ := dtbBlocks_calls (P := TablesKept pmmAlloc root T A)
    TablesKept.call ⟨h, fun r hr => absurd hr List.not_mem_nil⟩ hcalls
  refine hrep.congr fun n t hn i hi => ?_
  exact overlay_apply_of_apart (fun r hr => happart r hr n t hn) hi

end tables

end Octiron.Kernel
