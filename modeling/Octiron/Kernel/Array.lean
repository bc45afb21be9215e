import Mathlib.Tactic

/-!
# Arrays that grow

`octiron/collections/array.h`: `ARRAY_PUSH` moves the elements to a larger buffer when the array is
full. The old buffer is not freed, and pointers into it are not changed.

* `KArray` — the structure, with what every cell of every buffer holds. A buffer is never allocated
  twice, so buffers are numbered in the order in which they are allocated.
* `arrayInit`, `arrayReserve`, `arrayAppend` — `ARRAY_INIT` and the two halves of `ARRAY_PUSH`: the
  check of the capacity, and the store, whose value is evaluated in between.
* `ArrayLive a live` — `live` are the pointers to the elements as they were when each was pushed.
* **Main results** (`ArrayLive.reserve`, `ArrayLive.append`): through these pointers an array that
  grows is a memory in which every push is a fresh cell.
* `KArray.contents`, and `arrayPush_contents`: seen through `data` a push appends.
-/

namespace Octiron.Kernel

/-- A pointer to an element: the buffer and the index in it.
Source: none: infrastructure
Kind: D -/
abbrev ArrayPtr := ℕ × ℕ

/-- Source: `array.h` `DEFINE_ARRAY`. Kind: D -/
structure KArray (α : Type) where
  /-- What the cells of the buffers hold. -/
  cells : ArrayPtr → α
  /-- The number of buffers allocated so far. -/
  buffers : ℕ
  /-- The buffer in use, if there is one. -/
  data : Option ℕ
  size : ℕ
  capacity : ℕ

section array

variable {α : Type}

/-- An array of capacity 0; `zero` is what a zeroed cell holds.
Source: `array.h` `ARRAY_INIT`
Kind: D -/
def arrayInit (zero : α) : KArray α := ⟨fun _ => zero, 0, none, 0, 0⟩

/-- Whether the next `ARRAY_PUSH` asks for a new buffer.
Source: `array.h` `ARRAY_PUSH`
Kind: D -/
def arrayFull (a : KArray α) : Bool := a.capacity ≤ a.size

/-- The cells after the elements of `data` have been copied into buffer `new`.
Source: `array.h` `ARRAY_PUSH` (`memcpy`)
Kind: D -/
def arrayCopy (a : KArray α) (new : ℕ) : ArrayPtr → α := fun p =>
  match a.data with
  | none => a.cells p
  | some data => if p.1 = new ∧ p.2 < a.size then a.cells (data, p.2) else a.cells p

/-- The first half of `ARRAY_PUSH`: room for one more element. `granted` is whether
`pmm_alloc_aligned` succeeds if it is called, and `none` is the panic when it does not.
Source: `array.h` `ARRAY_PUSH`
Kind: D
Fidelity: exact -/
def arrayReserve (sizeofElem : ℕ) (granted : Bool) (a : KArray α) : Option (KArray α) :=
  if arrayFull a then
    let newCapacity := if a.capacity ≠ 0 then a.capacity * 2 else 4096 / sizeofElem
    if granted then
      some ⟨arrayCopy a a.buffers, a.buffers + 1, some a.buffers, a.size, newCapacity⟩
    else none
  else some a

/-- The second half of `ARRAY_PUSH`, `data[size++] = value`, and the address of the new element. (There
is a buffer after `arrayReserve`.)
Source: `array.h` `ARRAY_PUSH`
Kind: D
Fidelity: exact -/
def arrayAppend (a : KArray α) (value : α) : KArray α × ArrayPtr :=
  let new := (a.data.getD 0, a.size)
  ({ a with cells := Function.update a.cells new value, size := a.size + 1 }, new)

/-- A store through a pointer.
Source: none: infrastructure
Kind: D -/
def KArray.modify (a : KArray α) (p : ArrayPtr) (f : α → α) : KArray α :=
  { a with cells := Function.update a.cells p (f (a.cells p)) }

@[simp] theorem KArray.modify_cells_self (a : KArray α) (p : ArrayPtr) (f : α → α) :
    (a.modify p f).cells p = f (a.cells p) := by
  simp [KArray.modify]

theorem KArray.modify_cells_of_ne (a : KArray α) {p q : ArrayPtr} (f : α → α) (h : q ≠ p) :
    (a.modify p f).cells q = a.cells q := by
  simp [KArray.modify, Function.update_of_ne h]

/-- The array without its elements.
Source: none: infrastructure
Kind: D -/
def KArray.forget (a : KArray α) : KArray Unit :=
  ⟨fun _ => (), a.buffers, a.data, a.size, a.capacity⟩

@[simp] theorem KArray.forget_modify (a : KArray α) (p : ArrayPtr) (f : α → α) :
    (a.modify p f).forget = a.forget := rfl

theorem KArray.forget_append (a : KArray α) (value : α) :
    (arrayAppend a value).1.forget = (arrayAppend a.forget ()).1 := rfl

/-- Whether there is room does not depend on the elements.
Source: none: infrastructure
Kind: L -/
theorem KArray.forget_reserve (sizeofElem : ℕ) (granted : Bool) (a : KArray α) :
    arrayReserve sizeofElem granted a.forget =
      (arrayReserve sizeofElem granted a).map KArray.forget := by
  have hfull : arrayFull a.forget = arrayFull a := rfl
  unfold arrayReserve
  rw [hfull]
  by_cases h : arrayFull a = true
  · rw [if_pos h, if_pos h]
    cases granted with
    | true => rfl
    | false => rfl
  · rw [if_neg h, if_neg h]
    rfl

/-! ## The pointers that have been given out -/

/-- **`live` are the pointers to the elements**, in the order in which they were pushed: element `k` is
at index `k`, in the buffer that was in use then.
Source: none: infrastructure
Kind: D -/
structure ArrayLive (a : KArray α) (live : List ArrayPtr) : Prop where
  length : live.length = a.size
  index : ∀ (k : ℕ) (p : ArrayPtr), live[k]? = some p → p.2 = k
  buffer : ∀ p ∈ live, p.1 < a.buffers
  data : ∀ d, a.data = some d → d < a.buffers
  capacity : a.data = none → a.capacity = 0

variable {a a' : KArray α} {live : List ArrayPtr} {sizeofElem : ℕ}

/-- Source: none: infrastructure. Kind: L -/
theorem arrayLive_init (zero : α) : ArrayLive (arrayInit zero) [] := by
  refine ⟨rfl, fun k p hp => ?_, fun p hp => absurd hp List.not_mem_nil, fun d hd => ?_, ?_⟩
  · rw [List.getElem?_nil] at hp
    cases hp
  · cases hd
  · exact fun _ => rfl

/-- Source: none: infrastructure. Kind: L -/
theorem ArrayLive.index_lt (h : ArrayLive a live) {p : ArrayPtr} (hp : p ∈ live) : p.2 < a.size := by
  obtain ⟨k, hk⟩ := List.mem_iff_getElem?.mp hp
  rw [h.index k p hk, ← h.length]
  by_contra hge
  rw [List.getElem?_eq_none (Nat.not_lt.mp hge)] at hk
  cases hk

/-- Source: none: infrastructure. Kind: L -/
theorem ArrayLive.modify (h : ArrayLive a live) (p : ArrayPtr) (f : α → α) :
    ArrayLive (a.modify p f) live := ⟨h.length, h.index, h.buffer, h.data, h.capacity⟩

/-- **Growing keeps every element that is pointed to**, and its copies are in the new buffer.
Source: `array.h` `ARRAY_PUSH`
Kind: L -/
theorem ArrayLive.reserve (h : ArrayLive a live) {granted : Bool}
    (hrun : arrayReserve sizeofElem granted a = some a') :
    ArrayLive a' live ∧ a'.size = a.size ∧ (∀ p ∈ live, a'.cells p = a.cells p) ∧
      (a.size < a.capacity → a' = a) ∧
      ∃ d', a'.data = some d' ∧
        ∀ d, a.data = some d → ∀ k < a.size, a'.cells (d', k) = a.cells (d, k) := by
  unfold arrayReserve at hrun
  by_cases hfull : arrayFull a = true
  · rw [if_pos hfull] at hrun
    dsimp only at hrun
    have hgranted : granted = true := by
      by_contra hno
      rw [if_neg hno] at hrun
      cases hrun
    rw [if_pos hgranted, Option.some.injEq] at hrun
    subst hrun
    have hroom : ¬ a.size < a.capacity := Nat.not_lt.mpr (of_decide_eq_true hfull)
    refine ⟨⟨h.length, h.index, fun p hp => Nat.lt_succ_of_lt (h.buffer p hp), ?_, ?_⟩, rfl, ?_,
      fun hlt => absurd hlt hroom, a.buffers, rfl, ?_⟩
    · intro d hd
      cases hd
      exact Nat.lt_succ_self _
    · intro hd
      cases hd
    · intro p hp
      have hne : ¬ (p.1 = a.buffers ∧ p.2 < a.size) := by
        have := h.buffer p hp
        omega
      show arrayCopy a a.buffers p = a.cells p
      unfold arrayCopy
      cases a.data with
      | none => rfl
      | some data =>
          dsimp only
          rw [if_neg hne]
    · intro d hd k hk
      show arrayCopy a a.buffers (a.buffers, k) = _
      unfold arrayCopy
      rw [hd]
      dsimp only
      rw [if_pos ⟨rfl, hk⟩]
  · rw [if_neg hfull] at hrun
    cases hrun
    cases hdata : a.data with
    | none =>
        exfalso
        apply hfull
        unfold arrayFull
        rw [h.capacity hdata]
        rfl
    | some d =>
        refine ⟨h, rfl, fun _ _ => rfl, fun _ => rfl, d, rfl, fun d' hd' k _ => ?_⟩
        cases hd'
        rfl

/-- **A push is a fresh cell**.
Source: `array.h` `ARRAY_PUSH`
Kind: L -/
theorem ArrayLive.append (h : ArrayLive a live) {d : ℕ} (hd : a.data = some d) (value : α) :
    (arrayAppend a value).2 = (d, a.size) ∧ (d, a.size) ∉ live ∧
      ArrayLive (arrayAppend a value).1 (live ++ [(d, a.size)]) ∧
      (arrayAppend a value).1.cells (d, a.size) = value ∧
      ∀ p, p ≠ (d, a.size) → (arrayAppend a value).1.cells p = a.cells p := by
  have hnew : (arrayAppend a value).2 = (d, a.size) := by
    unfold arrayAppend
    rw [hd]
    rfl
  have hcells : (arrayAppend a value).1.cells = Function.update a.cells (d, a.size) value := by
    unfold arrayAppend
    rw [hd]
    rfl
  have hfresh : (d, a.size) ∉ live := by
    intro hmem
    have hlt := h.index_lt hmem
    exact absurd hlt (lt_irrefl _)
  refine ⟨hnew, hfresh, ⟨?_, ?_, ?_, h.data, h.capacity⟩, ?_, ?_⟩
  · rw [List.length_append, h.length]
    rfl
  · intro k p hp
    rw [List.getElem?_append] at hp
    split_ifs at hp with hk
    · exact h.index k p hp
    · rw [List.getElem?_singleton] at hp
      split_ifs at hp with hk'
      cases hp
      have := h.length
      show a.size = k
      omega
  · intro p hp
    rcases List.mem_append.mp hp with hp | hp
    · exact h.buffer p hp
    · rw [List.mem_singleton.mp hp]
      exact h.data d hd
  · rw [hcells, Function.update_self]
  · intro p hp
    rw [hcells, Function.update_of_ne hp]

/-! ## The first buffer -/

/-- The pointer to an element, as `data` gives it.
Source: none: infrastructure
Kind: D -/
def KArray.Elem (a : KArray α) (p : ArrayPtr) : Prop := a.data = some p.1 ∧ p.2 < a.size

/-- **What growing has come to**, when the first buffer has room for `room` elements: there is no buffer
yet, the first one is in use, or a later one is because the first was too small. The first `room`
elements were pushed into the first buffer.
Source: `array.h` `ARRAY_PUSH`
Kind: D -/
structure ArrayGrowth (room : ℕ) (a : KArray α) (live : List ArrayPtr) : Prop where
  first : ∀ p ∈ live, p.2 < room → p.1 = 0
  stage : (a.data = none ∧ a.size = 0 ∧ a.capacity = 0 ∧ a.buffers = 0) ∨
    (a.data = some 0 ∧ a.size ≤ room ∧ a.capacity = room ∧ a.buffers = 1) ∨
    ∃ d, a.data = some d ∧ 0 < d ∧ d < a.buffers ∧ room < a.size

/-- Source: none: infrastructure. Kind: L -/
theorem arrayGrowth_init (room : ℕ) (zero : α) : ArrayGrowth room (arrayInit zero) [] :=
  ⟨fun _ hp => absurd hp List.not_mem_nil, Or.inl ⟨rfl, rfl, rfl, rfl⟩⟩

/-- Only the pointers of the array count.
Source: none: infrastructure
Kind: L -/
theorem ArrayGrowth.of_forget {room : ℕ} (h : ArrayGrowth room a live)
    (hforget : a'.forget = a.forget) : ArrayGrowth room a' live := by
  have hdata : a'.data = a.data := congrArg (fun x : KArray Unit => x.data) hforget
  have hsize : a'.size = a.size := congrArg (fun x : KArray Unit => x.size) hforget
  have hcapacity : a'.capacity = a.capacity := congrArg (fun x : KArray Unit => x.capacity) hforget
  have hbuffers : a'.buffers = a.buffers := congrArg (fun x : KArray Unit => x.buffers) hforget
  refine ⟨h.first, ?_⟩
  rw [hdata, hsize, hcapacity, hbuffers]
  exact h.stage

/-- **One push**: the first buffer is left with the element that does not fit in it.
Source: `array.h` `ARRAY_PUSH`
Kind: L -/
theorem ArrayGrowth.push {room : ℕ} (h : ArrayGrowth room a live) (hroom : 0 < room)
    (hfit : 4096 / sizeofElem = room) {granted : Bool}
    (hrun : arrayReserve sizeofElem granted a = some a') {b : KArray α} {d : ℕ}
    (hb : b.forget = (arrayAppend a'.forget ()).1) (hd : a'.data = some d) :
    ArrayGrowth room b (live ++ [(d, a.size)]) := by
  have hdata : b.data = a'.data := congrArg (fun x : KArray Unit => x.data) hb
  have hsize : b.size = a'.size + 1 := congrArg (fun x : KArray Unit => x.size) hb
  have hcapacity : b.capacity = a'.capacity := congrArg (fun x : KArray Unit => x.capacity) hb
  have hbuffers : b.buffers = a'.buffers := congrArg (fun x : KArray Unit => x.buffers) hb
  -- the stage after the push, and where the new element is
  suffices hnew : (a.size < room → d = 0) ∧ ((b.data = some 0 ∧ b.size ≤ room ∧ b.capacity = room ∧
      b.buffers = 1) ∨ ∃ d, b.data = some d ∧ 0 < d ∧ d < b.buffers ∧ room < b.size) by
    refine ⟨fun p hp hlt => ?_, Or.inr hnew.2⟩
    rcases List.mem_append.mp hp with hp | hp
    · exact h.first p hp hlt
    · rw [List.mem_singleton.mp hp] at hlt ⊢
      exact hnew.1 hlt
  rw [hdata, hsize, hcapacity, hbuffers, hd]
  unfold arrayReserve arrayFull at hrun
  simp only [decide_eq_true_eq, hfit] at hrun
  by_cases hfull : a.capacity ≤ a.size
  · rw [if_pos hfull] at hrun
    cases granted with
    | false => cases hrun
    | true =>
        rw [if_pos rfl, Option.some.injEq] at hrun
        subst hrun
        cases hd
        dsimp only
        rcases h.stage with ⟨-, h0, hc, hn⟩ | ⟨-, hle, hc, hn⟩ | ⟨e, -, hpos, hlt, hgt⟩
        · rw [hn, h0, if_neg (not_not.mpr hc)]
          exact ⟨fun _ => rfl, Or.inl ⟨rfl, hroom, rfl, rfl⟩⟩
        · refine ⟨fun hlt => ?_, Or.inr ⟨a.buffers, rfl, ?_, Nat.lt_succ_self _, ?_⟩⟩
          · omega
          · omega
          · omega
        · refine ⟨fun hlt => ?_, Or.inr ⟨a.buffers, rfl, ?_, Nat.lt_succ_self _, ?_⟩⟩
          · omega
          · omega
          · omega
  · rw [if_neg hfull] at hrun
    cases hrun
    rcases h.stage with ⟨-, h0, hc, -⟩ | ⟨hdata', hle, hc, hn⟩ | ⟨e, hdata', hpos, hlt, hgt⟩
    · omega
    · rw [hd] at hdata'
      cases hdata'
      exact ⟨fun _ => rfl, Or.inl ⟨rfl, by omega, hc, hn⟩⟩
    · rw [hd] at hdata'
      cases hdata'
      exact ⟨fun hlt' => by omega, Or.inr ⟨d, rfl, hpos, hlt, by omega⟩⟩

/-- Source: none: infrastructure. Kind: L -/
theorem ArrayGrowth.exists_data {room : ℕ} (h : ArrayGrowth room a live) (hsize : 0 < a.size) :
    ∃ d, a.data = some d := by
  rcases h.stage with ⟨-, h0, -⟩ | ⟨hzero, -⟩ | ⟨d, hd, -⟩
  · omega
  · exact ⟨0, hzero⟩
  · exact ⟨d, hd⟩

/-- As long as the first buffer is large enough, the pointers to the elements are those that `data`
gives.
Source: `array.h` `ARRAY_PUSH`
Kind: L -/
theorem ArrayGrowth.elem_iff {room : ℕ} (h : ArrayGrowth room a live) (hlive : ArrayLive a live)
    (hsize : a.size ≤ room) (p : ArrayPtr) : a.Elem p ↔ p ∈ live := by
  constructor
  · rintro ⟨hdata, hlt⟩
    have hk : p.2 < live.length := by
      rw [hlive.length]
      exact hlt
    have hmem : live[p.2] ∈ live := List.getElem_mem hk
    have hindex := hlive.index _ _ (List.getElem?_eq_getElem hk)
    have hfirst := h.first _ hmem (by rw [hindex]; omega)
    have hp : p = live[p.2] := by
      refine Prod.ext ?_ hindex.symm
      rw [hfirst]
      rcases h.stage with ⟨hnone, -⟩ | ⟨hzero, -⟩ | ⟨d, -, -, -, hgt⟩
      · rw [hnone] at hdata
        cases hdata
      · rw [hzero] at hdata
        exact (Option.some.inj hdata).symm
      · omega
    rw [hp]
    exact hmem
  · intro hp
    have hlt := hlive.index_lt hp
    refine ⟨?_, hlt⟩
    rw [h.first p hp (by omega)]
    rcases h.stage with ⟨-, h0, -⟩ | ⟨hzero, -⟩ | ⟨d, -, -, -, hgt⟩
    · omega
    · exact hzero
    · omega

/-- **Once it is too small**, no element as `data` gives it is one of the first that were pushed.
Source: `array.h` `ARRAY_PUSH`
Kind: L -/
theorem ArrayGrowth.not_mem_of_elem {room : ℕ} (h : ArrayGrowth room a live) (hsize : room < a.size)
    {p : ArrayPtr} (hp : a.Elem p) (hlt : p.2 < room) : p ∉ live := by
  intro hmem
  have hfirst := h.first p hmem hlt
  rcases h.stage with ⟨-, h0, -⟩ | ⟨-, hle, -⟩ | ⟨d, hdata, hpos, -⟩
  · omega
  · omega
  · rw [hp.1, hfirst] at hdata
    cases hdata
    omega

/-! ## The elements as a list -/

/-- What `data[0]`, …, `data[size - 1]` hold.
Source: none: infrastructure
Kind: D -/
def KArray.contents (a : KArray α) : List α :=
  (List.range a.size).map fun k => a.cells (a.data.getD 0, k)

/-- The whole `ARRAY_PUSH`, of a value that does not depend on the array.
Source: `array.h` `ARRAY_PUSH`
Kind: D
Fidelity: exact -/
def arrayPush (sizeofElem : ℕ) (granted : Bool) (a : KArray α) (value : α) : Option (KArray α) :=
  (arrayReserve sizeofElem granted a).map fun a => (arrayAppend a value).1

/-- The buffer in use is allocated; without one there is no element and no room.
Source: none: infrastructure
Kind: D -/
structure ArrayOk (a : KArray α) : Prop where
  allocated : ∀ d, a.data = some d → d < a.buffers
  empty : a.data = none → a.size = 0 ∧ a.capacity = 0

/-- Source: none: infrastructure. Kind: L -/
theorem arrayOk_init (zero : α) : ArrayOk (arrayInit zero) :=
  ⟨fun _ hd => (nomatch hd), fun _ => ⟨rfl, rfl⟩⟩

@[simp] theorem arrayInit_contents (zero : α) : (arrayInit zero).contents = [] := rfl

/-- Growing keeps the elements.
Source: `array.h` `ARRAY_PUSH`
Kind: L -/
theorem arrayReserve_contents (h : ArrayOk a) {granted : Bool}
    (hrun : arrayReserve sizeofElem granted a = some a') :
    ArrayOk a' ∧ a'.contents = a.contents ∧ a'.data ≠ none := by
  unfold arrayReserve at hrun
  by_cases hfull : arrayFull a = true
  · rw [if_pos hfull] at hrun
    dsimp only at hrun
    cases granted with
    | false => cases hrun
    | true =>
        rw [if_pos rfl, Option.some.injEq] at hrun
        subst hrun
        refine ⟨⟨?_, fun hd => (nomatch hd)⟩, ?_, Option.some_ne_none _⟩
        · intro d hd
          cases hd
          exact Nat.lt_succ_self _
        · refine List.map_congr_left fun k hk => ?_
          have hk : k < a.size := List.mem_range.mp hk
          show arrayCopy a a.buffers (a.buffers, k) = _
          unfold arrayCopy
          cases hdata : a.data with
          | none =>
              have := (h.empty hdata).1
              omega
          | some d =>
              dsimp only
              rw [if_pos ⟨rfl, hk⟩]
              rfl
  · rw [if_neg hfull] at hrun
    cases hrun
    refine ⟨h, rfl, fun hdata => hfull ?_⟩
    unfold arrayFull
    rw [(h.empty hdata).2]
    simp

/-- Source: `array.h` `ARRAY_PUSH`. Kind: L -/
theorem arrayAppend_contents (a : KArray α) (value : α) :
    (arrayAppend a value).1.contents = a.contents ++ [value] := by
  unfold KArray.contents arrayAppend
  dsimp only
  rw [List.range_succ, List.map_append, List.map_singleton, Function.update_self]
  refine congrArg (· ++ [value]) (List.map_congr_left fun k hk => Function.update_of_ne ?_ _ _)
  intro heq
  have hk := List.mem_range.mp hk
  have : k = a.size := congrArg Prod.snd heq
  omega

/-- **A push appends**, whether or not the array grows.
Source: `array.h` `ARRAY_PUSH`
Kind: L -/
theorem arrayPush_contents (h : ArrayOk a) {granted : Bool} {value : α}
    (hrun : arrayPush sizeofElem granted a value = some a') :
    ArrayOk a' ∧ a'.contents = a.contents ++ [value] := by
  obtain ⟨b, hb, rfl⟩ := Option.map_eq_some_iff.mp hrun
  obtain ⟨hok, hcontents, hdata⟩ := arrayReserve_contents h hb
  refine ⟨⟨hok.allocated, fun hd => absurd hd hdata⟩, ?_⟩
  rw [← hcontents]
  exact arrayAppend_contents b value

end array

end Octiron.Kernel
