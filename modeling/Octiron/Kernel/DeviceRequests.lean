import Octiron.Kernel.DeviceReading
import Octiron.Kernel.DeviceSpace

/-!
# What the arrays ask for

The calls of `pmm_alloc_aligned` that the loop of `dt_initialize` makes depend on the numbers of nodes and
properties only.

* `arrayGrown` — an array after one more push; `arrayPushed` — after so many.
* `arrayRequests`, `arrayPages` — the sizes of the buffers that it has asked for, and their pages.
* `dtbStep_arrays` — a round pushes a node or a property, or neither.
* `ArraysAsk` — the two arrays and the calls made for them.
* **Main results** (`ArraysAsk.loop`, `dtbBlocks_small`): what the loop has asked for, by the numbers of
  nodes and properties; and no call comes near the end of the 64-bit numbers.
-/

namespace Octiron.Kernel

open Octiron.Found
open Octiron.Kzadhbat

variable {σ : Type}

/-! ## An array -/

/-- The number of elements of the next buffer.
Source: `array.h` `ARRAY_PUSH` (`new_capacity`)
Kind: D -/
def nextCapacity (sizeofElem : ℕ) (a : KArray Unit) : ℕ :=
  if a.capacity ≠ 0 then a.capacity * 2 else 4096 / sizeofElem

/-- The array with room for one more element.
Source: `array.h` `ARRAY_PUSH`
Kind: D -/
def arrayRoom (sizeofElem : ℕ) (a : KArray Unit) : KArray Unit :=
  if arrayFull a then ⟨fun _ => (), a.buffers + 1, some a.buffers, a.size, nextCapacity sizeofElem a⟩
  else a

/-- The array after one more push.
Source: `array.h` `ARRAY_PUSH`
Kind: D -/
def arrayGrown (sizeofElem : ℕ) (a : KArray Unit) : KArray Unit :=
  (arrayAppend (arrayRoom sizeofElem a) ()).1

/-- The array after `n` pushes, all of them granted.
Source: `array.h` `ARRAY_PUSH`
Kind: D -/
def arrayPushed (sizeofElem : ℕ) : ℕ → KArray Unit
  | 0 => arrayInit ()
  | n + 1 => arrayGrown sizeofElem (arrayPushed sizeofElem n)

/-- The sizes of the buffers for `n` elements, the last one first.
Source: `array.h` `ARRAY_PUSH`
Kind: D -/
def arrayRequests (sizeofElem : ℕ) : ℕ → List ℕ
  | 0 => []
  | n + 1 =>
      let a := arrayPushed sizeofElem n
      if arrayFull a then nextCapacity sizeofElem a * sizeofElem :: arrayRequests sizeofElem n
      else arrayRequests sizeofElem n

/-- The pages for `size` bytes.
Source: `pmm.c` `pmm_alloc_aligned` (`ALIGN_UP(size, BASE_PAGE_SIZE)`)
Kind: D -/
def pagesFor (size : ℕ) : ℕ := (size + 4095) / 4096

/-- **The pages for `n` elements**, with those of the buffers that are no longer used.
Source: `array.h` `ARRAY_PUSH`
Kind: D -/
def arrayPages (sizeofElem n : ℕ) : ℕ := ((arrayRequests sizeofElem n).map pagesFor).sum

section array

variable {α : Type} {sizeofElem n : ℕ}

/-- The first half of a push that is granted.
Source: `array.h` `ARRAY_PUSH`
Kind: L -/
theorem forget_of_arrayReserve {a b : KArray α} (h : arrayReserve sizeofElem true a = some b) :
    b.forget = arrayRoom sizeofElem a.forget := by
  have hforget := KArray.forget_reserve sizeofElem true a
  rw [h, Option.map_some] at hforget
  unfold arrayReserve at hforget
  unfold arrayRoom
  by_cases hfull : arrayFull a.forget = true
  · rw [if_pos hfull, if_pos rfl] at hforget
    rw [if_pos hfull]
    exact (Option.some.inj hforget).symm
  · rw [if_neg hfull] at hforget ⊢
    exact (Option.some.inj hforget).symm

/-- A push, with what is stored.
Source: `array.h` `ARRAY_PUSH`
Kind: L -/
theorem forget_of_push {a b : KArray α} (h : arrayReserve sizeofElem true a = some b) (value : α) :
    (arrayAppend b value).1.forget = arrayGrown sizeofElem a.forget := by
  rw [KArray.forget_append, forget_of_arrayReserve h]
  rfl

/-- A buffer is asked for when the array is full.
Source: `array.h` `ARRAY_PUSH`
Kind: L -/
theorem arrayGrown_buffers (sizeofElem : ℕ) (a : KArray Unit) : (arrayGrown sizeofElem a).buffers =
    if arrayFull a then a.buffers + 1 else a.buffers := by
  unfold arrayGrown arrayRoom
  split_ifs <;> rfl

/-- The new capacity, when the array is full.
Source: `array.h` `ARRAY_PUSH`
Kind: L -/
theorem arrayGrown_capacity {a : KArray Unit} (h : arrayFull a = true) :
    (arrayGrown sizeofElem a).capacity = nextCapacity sizeofElem a := by
  unfold arrayGrown arrayRoom
  rw [if_pos h]
  rfl

/-- Source: none: infrastructure. Kind: L -/
theorem arrayPushed_size (sizeofElem n : ℕ) : (arrayPushed sizeofElem n).size = n := by
  induction n with
  | zero => rfl
  | succ n ih =>
      unfold arrayPushed arrayGrown arrayRoom
      split_ifs
      · exact congrArg (· + 1) ih
      · exact congrArg (· + 1) ih

/-- The next buffer has room for at most twice the elements, or it is the first one.
Source: `array.h` `ARRAY_PUSH`
Kind: L -/
theorem nextCapacity_le (hfull : arrayFull (arrayPushed sizeofElem n) = true) :
    nextCapacity sizeofElem (arrayPushed sizeofElem n) ≤ 2 * n + 4096 / sizeofElem := by
  have hle : (arrayPushed sizeofElem n).capacity ≤ (arrayPushed sizeofElem n).size :=
    of_decide_eq_true hfull
  rw [arrayPushed_size] at hle
  unfold nextCapacity
  split_ifs
  · exact (by omega : _ ≤ 2 * n).trans (Nat.le_add_right _ _)
  · exact Nat.le_add_left _ _

/-- More elements need no fewer pages.
Source: `array.h` `ARRAY_PUSH`
Kind: L -/
theorem arrayPages_mono (sizeofElem : ℕ) : Monotone (arrayPages sizeofElem) := by
  refine monotone_nat_of_le_succ fun n => ?_
  unfold arrayPages
  rw [arrayRequests]
  split_ifs
  · rw [List.map_cons, List.sum_cons]
    exact Nat.le_add_left _ _
  · exact le_rfl

/-- The pages after one more push.
Source: `array.h` `ARRAY_PUSH`
Kind: L -/
theorem arrayPages_succ (sizeofElem n : ℕ) : arrayPages sizeofElem (n + 1) =
    (if arrayFull (arrayPushed sizeofElem n) then
      pagesFor (nextCapacity sizeofElem (arrayPushed sizeofElem n) * sizeofElem) else 0) +
      arrayPages sizeofElem n := by
  unfold arrayPages
  rw [arrayRequests]
  split_ifs
  · rw [List.map_cons, List.sum_cons]
  · exact (Nat.zero_add _).symm

end array

/-! ## One round -/

/-- **What a round does to the arrays**: it pushes a node, or a property, or neither.
Source: `device_tree.c` `dt_initialize`
Kind: D -/
inductive ArraysStep (s s' : DtState) : Prop
  | same (nodes : s'.nodes.forget = s.nodes.forget) (properties : s'.properties.forget = s.properties.forget)
  | node (nodes : s'.nodes.forget = arrayGrown sizeofDtNode s.nodes.forget)
      (properties : s'.properties.forget = s.properties.forget)
  | property (nodes : s'.nodes.forget = s.nodes.forget)
      (properties : s'.properties.forget = arrayGrown sizeofDtProperty s.properties.forget)

section round

variable {env : DtEnv} {s s' : DtState}

/-- `dtb_parse_node`.
Source: `device_tree.c` `dtb_parse_node`
Kind: L -/
theorem dtbParseNode_arrays (hgrants : ∀ i, env.grants i = true) (h : dtbParseNode env s = .ok s') :
    s'.nodes.forget = arrayGrown sizeofDtNode s.nodes.forget ∧
      s'.properties.forget = s.properties.forget := by
  unfold dtbParseNode at h
  cases hname : cstrAt env.structs s.off with
  | none =>
      rw [hname] at h
      cases h
  | some name =>
      rw [hname] at h
      dsimp only at h
      cases halloc : dtbAllocNode env s.bump s.nodes s.allocs name with
      | error stop =>
          rw [halloc] at h
          cases h
      | ok r =>
          obtain ⟨bump, nameBuf, nodes⟩ := r
          rw [halloc] at h
          dsimp only at h
          have hreserve := dtbAllocNode_reserve halloc
          rw [hgrants] at hreserve
          set node : DtNode := ⟨.copied nameBuf, 0, 0, none, s.curr, none, none⟩
          cases hlink : dtbLinkNode (arrayAppend nodes node).1 s.curr (arrayAppend nodes node).2 with
          | none =>
              rw [hlink] at h
              cases h
          | some nodes' =>
              rw [hlink] at h
              cases h
              obtain ⟨p, f, rfl, -⟩ := dtbLinkNode_eq hlink
              exact ⟨forget_of_push hreserve node, rfl⟩

/-- The rest of a round with `FDT_BEGIN_NODE` pushes nothing.
Source: `device_tree.c` `dt_initialize`
Kind: L -/
theorem dtbBeginNode_arrays (s : DtState) : (dtbBeginNode s).nodes.forget = s.nodes.forget ∧
    (dtbBeginNode s).properties.forget = s.properties.forget := by
  unfold dtbBeginNode
  cases s.curr with
  | none => exact ⟨rfl, rfl⟩
  | some curr =>
      dsimp only
      split_ifs
      · exact ⟨rfl, rfl⟩
      · exact ⟨rfl, rfl⟩

/-- `dtb_parse_property`.
Source: `device_tree.c` `dtb_parse_property`
Kind: L -/
theorem dtbParseProperty_arrays (hgrants : ∀ i, env.grants i = true)
    (h : dtbParseProperty env s = .ok s') : s'.nodes.forget = s.nodes.forget ∧
      s'.properties.forget = arrayGrown sizeofDtProperty s.properties.forget := by
  unfold dtbParseProperty at h
  split at h
  · dsimp only at h
    split at h
    · cases h
    · rename_i bump propName propValue properties halloc
      have hreserve := dtbAllocProperty_reserve halloc
      rw [hgrants] at hreserve
      cases hcurr : s.curr with
      | none =>
          rw [hcurr] at h
          cases h
      | some curr =>
          rw [hcurr] at h
          cases h
          exact ⟨rfl, forget_of_push hreserve _⟩
  · cases h

/-- **One round**.
Source: `device_tree.c` `dt_initialize`
Kind: P -/
theorem dtbStep_arrays (hgrants : ∀ i, env.grants i = true) (h : dtbStep env s = .ok s') :
    ArraysStep s s' := by
  unfold dtbStep at h
  split_ifs at h
  cases hread : readU32 env.structs s.off with
  | none =>
      rw [hread] at h
      cases h
  | some token =>
      rw [hread] at h
      dsimp only at h
      by_cases hbegin : token = fdtBeginNode
      · rw [if_pos hbegin] at h
        cases hparse : dtbParseNode env { s with off := s.off + 4 } with
        | error stop =>
            rw [hparse] at h
            cases h
        | ok s₁ =>
            rw [hparse] at h
            cases h
            obtain ⟨hnodes, hproperties⟩ := dtbParseNode_arrays hgrants hparse
            obtain ⟨hnodes', hproperties'⟩ := dtbBeginNode_arrays s₁
            exact .node (hnodes'.trans hnodes) (hproperties'.trans hproperties)
      rw [if_neg hbegin] at h
      by_cases hend : token = fdtEndNode
      · rw [if_pos hend] at h
        cases hcurr : s.curr with
        | none =>
            rw [hcurr] at h
            cases h
        | some curr =>
            rw [hcurr] at h
            dsimp only at h
            split_ifs at h
            cases h
            exact .same rfl rfl
      rw [if_neg hend] at h
      by_cases hprop : token = fdtProp
      · rw [if_pos hprop] at h
        obtain ⟨hnodes, hproperties⟩ := dtbParseProperty_arrays hgrants h
        exact .property hnodes hproperties
      rw [if_neg hprop] at h
      by_cases hnop : token = fdtNop
      · rw [if_pos hnop] at h
        cases h
        exact .same rfl rfl
      rw [if_neg hnop] at h
      split_ifs at h

/-- What one array asks for.
Source: `array.h` `ARRAY_PUSH`
Kind: D -/
def arrayRequest (sizeofElem : ℕ) (a a' : KArray Unit) : Option (BitVec 64) :=
  if a'.buffers ≠ a.buffers then some (BitVec.ofNat 64 (a'.capacity * sizeofElem)) else none

/-- Source: none: infrastructure. Kind: L -/
theorem arrayRequest_self (sizeofElem : ℕ) (a : KArray Unit) : arrayRequest sizeofElem a a = none :=
  if_neg fun h => h rfl

/-- A push asks for a buffer when the array is full.
Source: `array.h` `ARRAY_PUSH`
Kind: L -/
theorem arrayRequest_grown (sizeofElem : ℕ) (a : KArray Unit) :
    arrayRequest sizeofElem a (arrayGrown sizeofElem a) =
      if arrayFull a then some (BitVec.ofNat 64 (nextCapacity sizeofElem a * sizeofElem)) else none := by
  unfold arrayRequest
  rw [arrayGrown_buffers]
  by_cases hfull : arrayFull a = true
  · rw [if_pos hfull, if_pos hfull, if_pos (Nat.succ_ne_self _), arrayGrown_capacity hfull]
  · rw [if_neg hfull, if_neg hfull, if_neg fun h => h rfl]

/-- The call of a round is that of the nodes or that of the properties.
Source: `array.h` `ARRAY_PUSH`
Kind: L -/
theorem dtbArrayRequest_eq (s s' : DtState) : dtbArrayRequest s s' =
    (arrayRequest sizeofDtNode s.nodes.forget s'.nodes.forget).or
      (arrayRequest sizeofDtProperty s.properties.forget s'.properties.forget) := by
  unfold dtbArrayRequest arrayRequest
  show _ = Option.or (if s'.nodes.buffers ≠ s.nodes.buffers then _ else _)
    (if s'.properties.buffers ≠ s.properties.buffers then _ else _)
  split_ifs <;> rfl

end round

/-! ## The calls -/

/-- The pages that the calls ask for.
Source: none: infrastructure
Kind: D -/
def pagesAsked (calls : List (World σ × BitVec 64)) : ℕ := (calls.map fun c => pagesFor c.2.toNat).sum

/-- Every call asks for something, and none is near the end of the 64-bit numbers.
Source: none: infrastructure
Kind: D -/
def SmallCalls (calls : List (World σ × BitVec 64)) : Prop :=
  ∀ c ∈ calls, 0 < c.2.toNat ∧ c.2.toNat ≤ 2 ^ 50

/-- The pages that the loop has asked for in state `s`, with the two of the bump allocator.
Source: `device_tree.c` `dt_initialize`
Kind: D -/
def pagesNeeded (s : DtState) : ℕ :=
  2 + arrayPages sizeofDtNode s.nodes.size + arrayPages sizeofDtProperty s.properties.size

/-- **The arrays and the calls made for them**.
Source: `device_tree.c` `dt_initialize`
Kind: D -/
structure ArraysAsk (s : DtState) (calls : List (World σ × BitVec 64)) : Prop where
  nodes : s.nodes.forget = arrayPushed sizeofDtNode s.nodes.size
  properties : s.properties.forget = arrayPushed sizeofDtProperty s.properties.size
  pages : pagesAsked calls = pagesNeeded s
  small : SmallCalls calls

/-- A call of `pmm_alloc_aligned`, if there is one.
Source: `array.h` `ARRAY_PUSH`
Kind: D -/
def withRequest (w : World σ) (request : Option (BitVec 64)) (calls : List (World σ × BitVec 64)) :
    List (World σ × BitVec 64) :=
  match request with
  | none => calls
  | some size => (w, size) :: calls

section asks

variable {env : DtEnv} {s s' : DtState} {w : World σ} {calls : List (World σ × BitVec 64)}

/-- Source: none: infrastructure. Kind: L -/
theorem pagesAsked_cons (c : World σ × BitVec 64) (calls : List (World σ × BitVec 64)) :
    pagesAsked (c :: calls) = pagesFor c.2.toNat + pagesAsked calls :=
  List.sum_cons

/-- **The call for one more element** of an array of `n` elements.
Source: `array.h` `ARRAY_PUSH`
Kind: L -/
theorem withRequest_grown {sizeofElem n : ℕ} (hpos : 0 < sizeofElem) (hsize : sizeofElem ≤ 64) (hn : n ≤ 2 ^ 40)
    (hsmall : SmallCalls calls) :
    SmallCalls (withRequest w (arrayRequest sizeofElem (arrayPushed sizeofElem n)
        (arrayPushed sizeofElem (n + 1))) calls) ∧
      pagesAsked (withRequest w (arrayRequest sizeofElem (arrayPushed sizeofElem n)
        (arrayPushed sizeofElem (n + 1))) calls) + arrayPages sizeofElem n =
        pagesAsked calls + arrayPages sizeofElem (n + 1) := by
  rw [arrayPushed, arrayRequest_grown, arrayPages_succ]
  by_cases hfull : arrayFull (arrayPushed sizeofElem n) = true
  · rw [if_pos hfull, if_pos hfull]
    have hcapacity := nextCapacity_le hfull
    have hdiv : 4096 / sizeofElem ≤ 4096 := Nat.div_le_self _ _
    have hnext : 0 < nextCapacity sizeofElem (arrayPushed sizeofElem n) * sizeofElem := by
      refine Nat.mul_pos ?_ hpos
      unfold nextCapacity
      split_ifs with hzero
      · omega
      · exact Nat.div_pos (hsize.trans (by norm_num)) hpos
    have hbytes : nextCapacity sizeofElem (arrayPushed sizeofElem n) * sizeofElem ≤ 2 ^ 50 :=
      (Nat.mul_le_mul (hcapacity.trans (by omega : _ ≤ 2 ^ 42)) hsize).trans (by norm_num)
    have htoNat : (BitVec.ofNat 64
        (nextCapacity sizeofElem (arrayPushed sizeofElem n) * sizeofElem)).toNat =
          nextCapacity sizeofElem (arrayPushed sizeofElem n) * sizeofElem := by
      rw [BitVec.toNat_ofNat, Nat.mod_eq_of_lt (hbytes.trans_lt (by norm_num))]
    refine ⟨List.forall_mem_cons.mpr ⟨⟨hnext.trans_eq htoNat.symm, htoNat.trans_le hbytes⟩, hsmall⟩, ?_⟩
    show pagesAsked ((w, _) :: calls) + _ = _
    rw [pagesAsked_cons, htoNat]
    omega
  · rw [if_neg hfull, if_neg hfull, Nat.zero_add]
    exact ⟨hsmall, rfl⟩

/-- **One round**: what it asks for goes with what it pushes.
Source: `device_tree.c` `dt_initialize`
Kind: P -/
theorem ArraysAsk.step (h : ArraysAsk s calls) (hgrants : ∀ i, env.grants i = true)
    (hnodes : s.nodes.size ≤ 2 ^ 40) (hproperties : s.properties.size ≤ 2 ^ 40)
    (hstep : dtbStep env s = .ok s') :
    ArraysAsk s' (withRequest w (dtbArrayRequest s s') calls) ∧
      s'.nodes.size + s'.properties.size ≤ s.nodes.size + s.properties.size + 1 ∧
      s.nodes.size ≤ s'.nodes.size ∧ s.properties.size ≤ s'.properties.size := by
  have hsize : ∀ {α : Type} {a : KArray α} {b : KArray Unit}, a.forget = b → a.size = b.size :=
    fun hab => congrArg KArray.size hab
  rw [dtbArrayRequest_eq]
  rcases dtbStep_arrays hgrants hstep with ⟨hn, hp⟩ | ⟨hn, hp⟩ | ⟨hn, hp⟩
  · have hns : s'.nodes.size = s.nodes.size := hsize hn
    have hps : s'.properties.size = s.properties.size := hsize hp
    rw [hn, hp, arrayRequest_self, arrayRequest_self]
    refine ⟨⟨?_, ?_, ?_, h.small⟩, by omega, by omega, by omega⟩
    · rw [hn, hns, h.nodes]
    · rw [hp, hps, h.properties]
    · rw [pagesNeeded, hns, hps]
      exact h.pages
  · rw [h.nodes] at hn
    have hns : s'.nodes.size = s.nodes.size + 1 :=
      (hsize hn).trans (arrayPushed_size sizeofDtNode (s.nodes.size + 1))
    have hps : s'.properties.size = s.properties.size := hsize hp
    obtain ⟨hsmall, hpages⟩ := withRequest_grown (w := w) (show 0 < sizeofDtNode by decide) (by decide)
      hnodes h.small
    rw [hn, hp, arrayRequest_self, Option.or_none, h.nodes]
    refine ⟨⟨?_, ?_, ?_, hsmall⟩, by omega, by omega, by omega⟩
    · rw [hn, hns]
      rfl
    · rw [hp, hps, h.properties]
    · have hold := h.pages
      rw [pagesNeeded] at hold ⊢
      rw [hns, hps]
      rw [arrayPushed] at hpages
      omega
  · rw [h.properties] at hp
    have hns : s'.nodes.size = s.nodes.size := hsize hn
    have hps : s'.properties.size = s.properties.size + 1 :=
      (hsize hp).trans (arrayPushed_size sizeofDtProperty (s.properties.size + 1))
    obtain ⟨hsmall, hpages⟩ :=
      withRequest_grown (w := w) (show 0 < sizeofDtProperty by decide) (by decide) hproperties h.small
    rw [hn, hp, arrayRequest_self, Option.none_or, h.properties]
    refine ⟨⟨?_, ?_, ?_, hsmall⟩, by omega, by omega, by omega⟩
    · rw [hn, hns, h.nodes]
    · rw [hp, hps]
      rfl
    · have hold := h.pages
      rw [pagesNeeded] at hold ⊢
      rw [hns, hps]
      rw [arrayPushed] at hpages
      omega

/-- Later states have asked for no fewer pages.
Source: `device_tree.c` `dt_initialize`
Kind: L -/
theorem pagesNeeded_le (hgrants : ∀ i, env.grants i = true) (h : DtReach env s s') :
    pagesNeeded s ≤ pagesNeeded s' := by
  have hgrown : ∀ {sizeofElem : ℕ} (a : KArray Unit), a.size ≤ (arrayGrown sizeofElem a).size := by
    intro sizeofElem a
    unfold arrayGrown arrayRoom
    split_ifs <;> exact Nat.le_succ _
  induction h using Relation.ReflTransGen.head_induction_on with
  | refl => exact le_rfl
  | head hstep _ ih =>
      refine le_trans ?_ ih
      rename_i s₀ s₁ _
      have hsizes : s₀.nodes.size ≤ s₁.nodes.size ∧ s₀.properties.size ≤ s₁.properties.size := by
        have hsize : ∀ {α : Type} {a : KArray α} {b : KArray Unit}, a.forget = b → b.size = a.size :=
          fun hab => congrArg KArray.size hab.symm
        rcases dtbStep_arrays hgrants hstep with ⟨hn, hp⟩ | ⟨hn, hp⟩ | ⟨hn, hp⟩
        · exact ⟨(hsize hn).le, (hsize hp).le⟩
        · exact ⟨(hgrown _).trans (hsize hn).le, (hsize hp).le⟩
        · exact ⟨(hsize hn).le, (hgrown _).trans (hsize hp).le⟩
      unfold pagesNeeded
      have hnodes := arrayPages_mono sizeofDtNode hsizes.1
      have hproperties := arrayPages_mono sizeofDtProperty hsizes.2
      omega

end asks

/-! ## The loop -/

section loop

variable {pmmAlloc : PmmAlloc σ} {loads : Addr → Bool} {env : DtEnv} {run : DtRun σ} {n : ℕ}

/-- **What the loop asks for**: as many pages as a state that it comes to needs, and that is the last one
unless a call has failed.
Source: `device_tree.c` `dt_initialize`
Kind: P -/
theorem ArraysAsk.loop (h : ArraysAsk run.state run.calls) (hgrants : ∀ i, env.grants i = true)
    (hrounds : run.state.nodes.size + run.state.properties.size + n ≤ 2 ^ 40) :
    ∃ s, DtReach env run.state s ∧ ArraysAsk s (dtbLoopOn pmmAlloc loads env n run).2.calls ∧
      ((dtbLoopOn pmmAlloc loads env n run).1 ≠ .panic .arrayAllocation →
        s = (dtbLoopOn pmmAlloc loads env n run).2.state) := by
  induction n generalizing run with
  | zero => exact ⟨_, .refl, h, fun _ => rfl⟩
  | succ n ih =>
      unfold dtbLoopOn
      split_ifs with hname
      · exact ⟨_, .refl, h, fun _ => rfl⟩
      · cases hstep : dtbStep env run.state with
        | error stop => exact ⟨_, .refl, h, fun _ => rfl⟩
        | ok s' =>
            obtain ⟨hasks, hsum, -, -⟩ :=
              h.step (w := run.world) hgrants (by omega) (by omega) hstep
            dsimp only
            cases hrequest : dtbArrayRequest run.state s' with
            | none =>
                rw [hrequest] at hasks
                obtain ⟨s, hreach, hs, hlast⟩ :=
                  @ih { run with state := s' } hasks
                    (show s'.nodes.size + s'.properties.size + n ≤ _ by omega)
                exact ⟨s, .head hstep hreach, hs, hlast⟩
            | some size =>
                rw [hrequest] at hasks
                dsimp only
                split_ifs with hfail
                · exact ⟨s', .single hstep, hasks, fun hne => absurd rfl hne⟩
                · obtain ⟨s, hreach, hs, hlast⟩ := @ih { run.call pmmAlloc size with state := s' } hasks
                    (show s'.nodes.size + s'.properties.size + n ≤ _ by omega)
                  exact ⟨s, .head hstep hreach, hs, hlast⟩

/-- **Every call of the loop is granted, or it ends with the panic.**
Source: `array.h` `ARRAY_PUSH`
Kind: L -/
theorem dtbLoopOn_granted
    (hcalls : ∀ c ∈ run.calls, errIsFail (pmmAlloc c.1.pmm c.1.mem c.2).err = false) :
    (∀ c ∈ (dtbLoopOn pmmAlloc loads env n run).2.calls,
        errIsFail (pmmAlloc c.1.pmm c.1.mem c.2).err = false) ∨
      (dtbLoopOn pmmAlloc loads env n run).1 = .panic .arrayAllocation := by
  induction n generalizing run with
  | zero => exact Or.inl hcalls
  | succ n ih =>
      unfold dtbLoopOn
      split_ifs with hname
      · exact Or.inl hcalls
      · cases dtbStep env run.state with
        | error stop => exact Or.inl hcalls
        | ok s' =>
            dsimp only
            cases dtbArrayRequest run.state s' with
            | none => exact @ih { run with state := s' } hcalls
            | some size =>
                dsimp only
                split_ifs with hfail
                · exact Or.inr rfl
                · exact @ih { run.call pmmAlloc size with state := s' }
                    (List.forall_mem_cons.mpr ⟨Bool.eq_false_iff.mpr hfail, hcalls⟩)

end loop

section blocks

variable {pmmAlloc : PmmAlloc σ} {machine : DtMachine} {root : Addr} {blob : Mem} {base : Addr}
  {w : World σ}

/-- The block is no longer than all pages.
Source: none: infrastructure
Kind: L -/
theorem length_readableBytes_le (loads : Addr → Bool) (m : Mem) (n : ℕ) (p : Addr) :
    (readableBytes loads m n p).length ≤ 4096 * n := by
  induction n generalizing p with
  | zero => exact Nat.zero_le _
  | succ n ih =>
      unfold readableBytes
      split_ifs
      · rw [List.length_append, Mem.length_bytes]
        have hrest : pageRest p ≤ 4096 := Nat.sub_le _ _
        have := ih (p + BitVec.ofNat 64 (pageRest p))
        omega
      · exact Nat.zero_le _

/-- The loop starts with the two pages of the bump allocator.
Source: `device_tree.c` `dt_initialize`
Kind: L -/
theorem arraysAsk_start (pmmAlloc : PmmAlloc σ) (w : World σ) :
    ArraysAsk (dtbStart pmmAlloc w).state (dtbStart pmmAlloc w).calls where
  nodes := rfl
  properties := rfl
  pages := show pagesFor (2 * basePageSize).toNat + 0 = 2 by decide
  small := List.forall_mem_singleton.mpr
    (show 0 < (2 * basePageSize).toNat ∧ (2 * basePageSize).toNat ≤ 2 ^ 50 by decide)

/-- The loop of `dt_initialize`.
Source: `device_tree.c` `dt_initialize`
Kind: L -/
theorem dtbStructures_asks (machine : DtMachine) (pmmAlloc : PmmAlloc σ) (root : Addr) (blob : Mem)
    (base : Addr) (w : World σ) :
    let r := dtbStructures machine pmmAlloc root blob base (dtbStart pmmAlloc w)
    let env := dtbEnv machine (sv39Loads (dtbStart pmmAlloc w).world.mem root) blob base
    ∃ s, DtReach env (dtbStart pmmAlloc w).state s ∧ ArraysAsk s r.2.calls ∧
      (r.1 ≠ .panic .arrayAllocation → s = r.2.state) := by
  refine (arraysAsk_start pmmAlloc w).loop (fun _ => rfl) ?_
  have hlength := length_readableBytes_le (sv39Loads (dtbStart pmmAlloc w).world.mem root) blob
    canonicalPages (base + dtbHeaderField blob base 8)
  refine (show 0 + 0 + (_ + 1) ≤ 2 ^ 40 from ?_)
  unfold canonicalPages at hlength
  unfold dtbEnv canonicalPages
  dsimp only
  omega

/-- **No call of the blocks is near the end of the 64-bit numbers.**
Source: `device_tree.c` `dt_initialize`
Kind: P -/
theorem dtbBlocks_small (machine : DtMachine) (pmmAlloc : PmmAlloc σ) (root : Addr) (blob : Mem)
    (base : Addr) (w : World σ) : SmallCalls (dtbBlocks machine pmmAlloc root blob base w).1.calls := by
  rcases dtbBlocks_run machine pmmAlloc root blob base w with hrun | hrun
  · rw [hrun]
    exact (arraysAsk_start pmmAlloc w).small
  · rw [hrun]
    obtain ⟨s, -, hasks, -⟩ := dtbStructures_asks machine pmmAlloc root blob base w
    exact hasks.small

end blocks

end Octiron.Kernel
