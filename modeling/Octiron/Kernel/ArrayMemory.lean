import Octiron.Found.Bytes
import Octiron.Kernel.Array
import Octiron.Kzadhbat.Bitmacros

/-!
# Arrays in memory

`octiron/collections/array.h`: `ARRAY_PUSH` on the bytes of the elements, in the buffers that
`pmm_alloc_aligned` gives.

* `ArrayAt` — the structure and the memory, with the buffers that have been given and the ranges that the
  last push has written.
* `arrayGrow`, `arrayStore`, `arrayPushAt` — the two halves of `ARRAY_PUSH`, and the whole of it, for what
  `pmm_alloc_aligned` does when it is called.
* `AllocFresh` — what a call gives: a buffer that does not meet those given before, which are kept.
* `ArrayHolds sizeofElem s values` — the elements are `values`, in order, in the buffer given last.
* `arrayPushAt_refines` — a push in memory is a push of the array of `Array`, which is a list append.
* **Main result** (`arrayPushes_holds`): after any pushes the elements are the values that were pushed.
-/

namespace Octiron.Kernel

open Octiron.Found
open Octiron.Found.Mem
open Octiron.Kzadhbat

/-! ## `ARRAY_PUSH` -/

/-- What one call of `pmm_alloc_aligned` does, by the memory, the size and the alignment: the memory after
it and the buffer, or an error.
Source: `array.h` `ARRAY_PUSH`
Kind: D -/
abbrev PmmAllocAligned := Mem → BitVec 64 → BitVec 64 → Option (Mem × Addr)

/-- Source: `array.h` `DEFINE_ARRAY`. Kind: D -/
structure ArrayAt where
  mem : Mem
  data : Addr
  size : BitVec 64
  capacity : BitVec 64
  /-- The buffers that have been given, the last one first, with their lengths in bytes. -/
  given : List (Addr × ℕ)
  /-- The ranges that the last push has written. -/
  written : List (Addr × ℕ)

/-- Source: `array.h` `ARRAY_INIT`. Kind: D -/
def arrayInitAt (m : Mem) : ArrayAt := ⟨m, 0, 0, 0, [], []⟩

/-- Source: `array.h` `ARRAY_PUSH`. Kind: D -/
def arrayNewCapacity (sizeofElem capacity : BitVec 64) : BitVec 64 :=
  if capacity ≠ 0 then capacity * 2 else basePageSize / sizeofElem

/-- The first half: room for one more element, or the panic.
Source: `array.h` `ARRAY_PUSH`
Kind: D
Fidelity: exact -/
def arrayGrow (sizeofElem : BitVec 64) (alloc : PmmAllocAligned) (s : ArrayAt) : Option ArrayAt :=
  if s.capacity ≤ s.size then
    let newCapacity := arrayNewCapacity sizeofElem s.capacity
    match alloc s.mem (newCapacity * sizeofElem) basePageSize with
    | none => none
    | some (m, newData) =>
      let given := (newData, (newCapacity * sizeofElem).toNat) :: s.given
      let count := s.size * sizeofElem
      if s.data ≠ 0 then
        let m := memcpy m newData (fun i => m (s.data + BitVec.ofNat 64 i)) count
        some ⟨m, newData, s.size, newCapacity, given, [(newData, count.toNat)]⟩
      else some ⟨m, newData, s.size, newCapacity, given, []⟩
  else some { s with written := [] }

/-- The second half: `data[size++] = value`.
Source: `array.h` `ARRAY_PUSH`
Kind: D
Fidelity: exact -/
def arrayStore (sizeofElem : BitVec 64) (s : ArrayAt) (value : List (BitVec 8)) : ArrayAt :=
  let p := s.data + s.size * sizeofElem
  { s with
    mem := s.mem.put p value
    size := s.size + 1
    written := s.written ++ [(p, value.length)] }

/-- `ARRAY_PUSH`.
Source: `array.h` `ARRAY_PUSH`
Kind: D
Fidelity: exact -/
def arrayPushAt (sizeofElem : BitVec 64) (alloc : PmmAllocAligned) (s : ArrayAt)
    (value : List (BitVec 8)) : Option ArrayAt :=
  (arrayGrow sizeofElem alloc s).map fun s => arrayStore sizeofElem s value

/-- Pushes in a row, with what `pmm_alloc_aligned` does in each of them.
Source: none: infrastructure
Kind: D -/
def arrayPushes (sizeofElem : BitVec 64) :
    List (List (BitVec 8) × PmmAllocAligned) → ArrayAt → Option ArrayAt
  | [], s => some s
  | (value, alloc) :: pushes, s =>
    match arrayPushAt sizeofElem alloc s value with
    | none => none
    | some s => arrayPushes sizeofElem pushes s

/-! ## What is given -/

/-- **A fresh buffer**: not `NULL`, in the address space, and apart from the buffers given before, which
are kept.
Source: `pmm.c` `pmm_alloc_aligned`
Kind: D -/
structure AllocFresh (s : ArrayAt) (m : Mem) (p : Addr) (n : ℕ) : Prop where
  ne_null : p ≠ 0
  fits : p.toNat + n ≤ 2 ^ 64
  apart : ∀ x ∈ s.given, Disjoint (span p n) (span x.1 x.2)
  kept : ∀ x ∈ s.given, ∀ a ∈ span x.1 x.2, m a = s.mem a

/-- **A push that finds what it needs**: when it asks for a buffer, the bytes can be counted in 64 bits
and the buffer is fresh.
Source: `array.h` `ARRAY_PUSH`
Kind: D -/
def GrowsFresh (sizeofElem : BitVec 64) (alloc : PmmAllocAligned) (s : ArrayAt) : Prop :=
  s.capacity ≤ s.size → s.capacity.toNat * 2 * sizeofElem.toNat < 2 ^ 64 ∧
    ∃ m p, alloc s.mem (arrayNewCapacity sizeofElem s.capacity * sizeofElem) basePageSize =
      some (m, p) ∧ AllocFresh s m p (arrayNewCapacity sizeofElem s.capacity * sizeofElem).toNat

/-- Every push of a row finds what it needs.
Source: `array.h` `ARRAY_PUSH`
Kind: D -/
def PushesFresh (sizeofElem : BitVec 64) : List (List (BitVec 8) × PmmAllocAligned) → ArrayAt → Prop
  | [], _ => True
  | (value, alloc) :: pushes, s => GrowsFresh sizeofElem alloc s ∧
      ∀ s', arrayPushAt sizeofElem alloc s value = some s' → PushesFresh sizeofElem pushes s'

/-! ## The elements -/

/-- **The array holds the values**, in the buffer that was given last, and the last push has written only
inside it.
Source: `array.h` `ARRAY_PUSH`
Kind: D -/
structure ArrayHolds (sizeofElem : BitVec 64) (s : ArrayAt) (values : List (List (BitVec 8))) :
    Prop where
  size : s.size.toNat = values.length
  le : s.size.toNat ≤ s.capacity.toNat
  elem : ∀ k (hk : k < values.length),
    bytes s.mem (s.data + BitVec.ofNat 64 (sizeofElem.toNat * k)) sizeofElem.toNat = values[k]
  buffer : s.capacity ≠ 0 → s.data ≠ 0 ∧
    ∃ n, s.given.head? = some (s.data, n) ∧ s.capacity.toNat * sizeofElem.toNat ≤ n
  null : s.capacity = 0 → s.data = 0
  bytes_lt : s.capacity.toNat * sizeofElem.toNat < 2 ^ 64
  written : ∀ w ∈ s.written, span w.1 w.2 ⊆ span s.data (s.capacity.toNat * sizeofElem.toNat)

section holds

variable {sizeofElem : BitVec 64} {alloc : PmmAllocAligned} {s s' : ArrayAt}
  {values : List (List (BitVec 8))} {value : List (BitVec 8)}

/-- A copy is a `put` of the bytes.
Source: `impl.c` `memcpy`
Kind: L -/
theorem memcpy_eq_put (m : Mem) (dest src : Addr) (count : BitVec 64) :
    memcpy m dest (fun i => m (src + BitVec.ofNat 64 i)) count = m.put dest (bytes m src count.toNat) := by
  funext x
  rw [memcpy_apply, Mem.put]
  by_cases hx : (x - dest).toNat < count.toNat
  · rw [if_pos hx, List.getD_eq_getElem?_getD, getElem?_bytes hx]
    rfl
  · have hle : (bytes m src count.toNat).length ≤ (x - dest).toNat := by
      rw [length_bytes]
      exact Nat.not_lt.mp hx
    rw [if_neg hx, List.getD_eq_getElem?_getD, List.getElem?_eq_none hle]
    rfl

/-- The capacity that is asked for is exact.
Source: `array.h` `ARRAY_PUSH`
Kind: L -/
theorem arrayNewCapacity_toNat (h1 : 1 ≤ sizeofElem.toNat) {capacity : BitVec 64}
    (hbytes : capacity.toNat * 2 * sizeofElem.toNat < 2 ^ 64) :
    (arrayNewCapacity sizeofElem capacity).toNat =
      if capacity ≠ 0 then capacity.toNat * 2 else 4096 / sizeofElem.toNat := by
  unfold arrayNewCapacity
  split_ifs with h0
  · have hle : capacity.toNat * 2 ≤ capacity.toNat * 2 * sizeofElem.toNat := Nat.le_mul_of_pos_right _ h1
    rw [BitVec.toNat_mul]
    show capacity.toNat * 2 % 2 ^ 64 = _
    exact Nat.mod_eq_of_lt (lt_of_le_of_lt hle hbytes)
  · rw [BitVec.toNat_udiv]
    rfl

/-- **The new buffer** has room for more than the elements, and its bytes are counted exactly.
Source: `array.h` `ARRAY_PUSH`
Kind: L -/
theorem arrayNewCapacity_spec (h1 : 1 ≤ sizeofElem.toNat) (h2 : sizeofElem.toNat ≤ 4096)
    (h : ArrayHolds sizeofElem s values)
    (hbytes : s.capacity.toNat * 2 * sizeofElem.toNat < 2 ^ 64) :
    s.size.toNat < (arrayNewCapacity sizeofElem s.capacity).toNat ∧
      (arrayNewCapacity sizeofElem s.capacity * sizeofElem).toNat =
        (arrayNewCapacity sizeofElem s.capacity).toNat * sizeofElem.toNat ∧
      (arrayNewCapacity sizeofElem s.capacity).toNat * sizeofElem.toNat < 2 ^ 64 ∧
      arrayNewCapacity sizeofElem s.capacity ≠ 0 := by
  have hcap := arrayNewCapacity_toNat h1 hbytes
  have hle := h.le
  have hpos : 0 < 4096 / sizeofElem.toNat := Nat.div_pos h2 h1
  have hprod : (arrayNewCapacity sizeofElem s.capacity).toNat * sizeofElem.toNat < 2 ^ 64 := by
    rw [hcap]
    split_ifs with h0
    · exact hbytes
    · calc 4096 / sizeofElem.toNat * sizeofElem.toNat ≤ 4096 := Nat.div_mul_le_self _ _
        _ < 2 ^ 64 := by omega
  have hlt : s.size.toNat < (arrayNewCapacity sizeofElem s.capacity).toNat := by
    rw [hcap]
    split_ifs with h0
    · have : s.capacity.toNat ≠ 0 := fun h => h0 (BitVec.eq_of_toNat_eq h)
      omega
    · have hzero : s.capacity.toNat = 0 := by
        rw [not_not.mp h0]
        rfl
      omega
  refine ⟨hlt, ?_, hprod, ?_⟩
  · rw [BitVec.toNat_mul, Nat.mod_eq_of_lt hprod]
  · intro h0
    rw [h0] at hlt
    exact absurd hlt (Nat.not_lt_zero _)

/-- **Growing keeps the elements**.
Source: `array.h` `ARRAY_PUSH`
Kind: L -/
theorem arrayGrow_holds (h1 : 1 ≤ sizeofElem.toNat) (h2 : sizeofElem.toNat ≤ 4096)
    (h : ArrayHolds sizeofElem s values) (hfresh : GrowsFresh sizeofElem alloc s) :
    ∃ s', arrayGrow sizeofElem alloc s = some s' ∧ ArrayHolds sizeofElem s' values ∧
      s'.size.toNat < s'.capacity.toNat ∧ s'.capacity =
        if s.capacity ≤ s.size then arrayNewCapacity sizeofElem s.capacity else s.capacity := by
  unfold arrayGrow
  by_cases hfull : s.capacity ≤ s.size
  · obtain ⟨hbytes, m, p, halloc, hgiven⟩ := hfresh hfull
    obtain ⟨hlt, hrequest, hprod, hne⟩ := arrayNewCapacity_spec h1 h2 h hbytes
    rw [if_pos hfull, if_pos hfull]
    dsimp only
    rw [halloc]
    dsimp only
    set newCapacity := arrayNewCapacity sizeofElem s.capacity
    rw [hrequest] at hgiven ⊢
    have hcount : (s.size * sizeofElem).toNat = sizeofElem.toNat * s.size.toNat := by
      rw [BitVec.toNat_mul, Nat.mul_comm, Nat.mod_eq_of_lt]
      calc sizeofElem.toNat * s.size.toNat ≤ sizeofElem.toNat * newCapacity.toNat :=
            Nat.mul_le_mul_left _ hlt.le
        _ < 2 ^ 64 := by rw [Nat.mul_comm]; exact hprod
    have hcount_le : sizeofElem.toNat * s.size.toNat ≤ newCapacity.toNat * sizeofElem.toNat := by
      rw [Nat.mul_comm]
      exact Nat.mul_le_mul_right _ hlt.le
    by_cases hdata : s.data ≠ 0
    · rw [if_pos hdata, memcpy_eq_put]
      have hcap0 : s.capacity ≠ 0 := fun h0 => hdata (h.null h0)
      obtain ⟨-, n, hhead, hn⟩ := (h.buffer hcap0)
      have hmem := List.mem_of_head? hhead
      -- the elements are in the buffer that was given before, which is kept
      have hold : bytes m s.data (s.size * sizeofElem).toNat =
          bytes s.mem s.data (s.size * sizeofElem).toNat := by
        refine bytes_congr (s.size * sizeofElem).isLt.le fun a ha => hgiven.kept _ hmem a ?_
        refine lt_of_lt_of_le (show (a - s.data).toNat < _ from ha) ?_
        rw [hcount, Nat.mul_comm]
        exact le_trans (Nat.mul_le_mul_right _ h.le) hn
      set l := bytes s.mem s.data (s.size * sizeofElem).toNat with hl
      have hlen : l.length = sizeofElem.toNat * s.size.toNat := by rw [hl, length_bytes, hcount]
      have hcopy : bytes (m.put p l) p l.length = l := bytes_put_same m p (by
        rw [hl, length_bytes]
        exact (s.size * sizeofElem).isLt.le)
      rw [hold]
      refine ⟨_, rfl, ⟨h.size, hlt.le, fun k hk => ?_, fun _ => ⟨hgiven.ne_null, _, rfl, le_refl _⟩,
        fun h0 => absurd h0 hne, hprod, fun w hw => ?_⟩, hlt, rfl⟩
      · have hk' : sizeofElem.toNat * k + sizeofElem.toNat ≤ l.length := by
          rw [hlen, h.size]
          calc sizeofElem.toNat * k + sizeofElem.toNat = sizeofElem.toNat * (k + 1) := by ring
            _ ≤ sizeofElem.toNat * values.length := Nat.mul_le_mul_left _ hk
        have hself : bytes s.mem s.data l.length = l := by rw [hl, length_bytes]
        rw [← h.elem k hk, bytes_sub hcopy hk', bytes_sub hself hk']
      · rw [List.mem_singleton.mp hw]
        intro a ha
        refine lt_of_lt_of_le (show (a - p).toNat < _ from ha) ?_
        rw [hcount]
        exact hcount_le
    · -- there is no element yet
      have hcap0 : s.capacity = 0 := by
        by_contra h0
        exact hdata (h.buffer h0).1
      have hsize : values.length = 0 := by
        have hle := h.le
        rw [hcap0, h.size] at hle
        exact Nat.le_zero.mp hle
      rw [if_neg hdata]
      refine ⟨_, rfl, ⟨h.size, hlt.le, fun k hk => ?_, fun _ => ⟨hgiven.ne_null, _, rfl, le_refl _⟩,
        fun h0 => absurd h0 hne, hprod, fun w hw => absurd hw List.not_mem_nil⟩, hlt, rfl⟩
      omega
  · rw [if_neg hfull, if_neg hfull]
    exact ⟨_, rfl, ⟨h.size, h.le, h.elem, h.buffer, h.null, h.bytes_lt,
      fun w hw => absurd hw List.not_mem_nil⟩, Nat.lt_of_not_le hfull, rfl⟩

/-- **The store appends**.
Source: `array.h` `ARRAY_PUSH`
Kind: L -/
theorem arrayStore_holds (h : ArrayHolds sizeofElem s values) (hroom : s.size.toNat < s.capacity.toNat)
    (hvalue : value.length = sizeofElem.toNat) :
    ArrayHolds sizeofElem (arrayStore sizeofElem s value) (values ++ [value]) := by
  have hprod := h.bytes_lt
  have hstep : ∀ {k : ℕ}, k < s.capacity.toNat →
      sizeofElem.toNat * k + sizeofElem.toNat ≤ s.capacity.toNat * sizeofElem.toNat := by
    intro k hk
    calc sizeofElem.toNat * k + sizeofElem.toNat = (k + 1) * sizeofElem.toNat := by ring
      _ ≤ s.capacity.toNat * sizeofElem.toNat := Nat.mul_le_mul_right _ hk
  have hoffset : s.size * sizeofElem = BitVec.ofNat 64 (sizeofElem.toNat * s.size.toNat) := by
    apply BitVec.eq_of_toNat_eq
    rw [BitVec.toNat_mul, BitVec.toNat_ofNat, Nat.mul_comm]
  have hsize : (s.size + 1).toNat = s.size.toNat + 1 := by
    have := s.capacity.isLt
    rw [BitVec.toNat_add, Nat.mod_eq_of_lt]
    · rfl
    · show s.size.toNat + 1 < _
      omega
  unfold arrayStore
  dsimp only
  rw [hoffset]
  refine ⟨?_, ?_, fun k hk => ?_, h.buffer, h.null, hprod, fun w hw => ?_⟩
  · rw [List.length_append, List.length_singleton, ← h.size]
    exact hsize
  · show (s.size + 1).toNat ≤ s.capacity.toNat
    omega
  · rw [List.length_append, List.length_singleton, ← h.size] at hk
    have hend := hstep (show k < s.capacity.toNat by omega)
    have hlast := hstep hroom
    by_cases hks : k = s.size.toNat
    · subst hks
      have hsame := bytes_put_same s.mem (s.data + BitVec.ofNat 64 (sizeofElem.toNat * s.size.toNat))
        (l := value) (by rw [hvalue]; exact sizeofElem.isLt.le)
      rw [hvalue] at hsame
      refine hsame.trans ?_
      rw [List.getElem_append_right h.size.ge]
      simp [h.size]
    · have hlt : k < s.size.toNat := by omega
      have hbefore : sizeofElem.toNat * k + sizeofElem.toNat ≤ sizeofElem.toNat * s.size.toNat := by
        calc sizeofElem.toNat * k + sizeofElem.toNat = sizeofElem.toNat * (k + 1) := by ring
          _ ≤ sizeofElem.toNat * s.size.toNat := Nat.mul_le_mul_left _ hlt
      rw [List.getElem_append_left (by rw [← h.size]; exact hlt), ← h.elem k (by rw [← h.size]; exact hlt)]
      refine bytes_put_of_disjoint sizeofElem.isLt.le ?_
      rw [hvalue]
      exact disjoint_span_offsets _ (by omega) (by omega) (Or.inr (Or.inl hbefore))
  · rcases List.mem_append.mp hw with hw | hw
    · exact h.written w hw
    · rw [List.mem_singleton.mp hw, hvalue]
      exact span_sub _ (hstep hroom) hprod.le

/-- **A push in memory is a push of the array**, and both append the value.
Source: `array.h` `ARRAY_PUSH`
Kind: P -/
theorem arrayPushAt_refines (h1 : 1 ≤ sizeofElem.toNat) (h2 : sizeofElem.toNat ≤ 4096)
    {a : KArray (List (BitVec 8))} (h : ArrayHolds sizeofElem s a.contents) (hok : ArrayOk a)
    (hcap : a.capacity = s.capacity.toNat) (hfresh : GrowsFresh sizeofElem alloc s)
    (hvalue : value.length = sizeofElem.toNat) :
    ∃ s' a', arrayPushAt sizeofElem alloc s value = some s' ∧
      arrayPush sizeofElem.toNat true a value = some a' ∧ a'.contents = a.contents ++ [value] ∧
      ArrayHolds sizeofElem s' a'.contents ∧ ArrayOk a' ∧ a'.capacity = s'.capacity.toNat := by
  obtain ⟨g, hgrow, hholds, hroom, hgcap⟩ := arrayGrow_holds h1 h2 h hfresh
  have hsize : a.size = s.size.toNat := by
    rw [h.size]
    simp [KArray.contents]
  have hfull : arrayFull a = true ↔ s.capacity ≤ s.size := by
    rw [arrayFull, decide_eq_true_eq, hcap, hsize, BitVec.le_def]
  obtain ⟨b, hreserve, hbcap⟩ : ∃ b, arrayReserve sizeofElem.toNat true a = some b ∧
      b.capacity = g.capacity.toNat := by
    unfold arrayReserve
    by_cases hf : s.capacity ≤ s.size
    · rw [if_pos (hfull.mpr hf)]
      refine ⟨_, rfl, ?_⟩
      rw [hgcap, if_pos hf, arrayNewCapacity_toNat h1 (hfresh hf).1, hcap]
      refine if_congr (not_congr ?_) rfl rfl
      exact ⟨fun h0 => BitVec.eq_of_toNat_eq h0, fun h0 => by rw [h0]; rfl⟩
    · rw [if_neg (mt hfull.mp hf)]
      exact ⟨a, rfl, by rw [hgcap, if_neg hf, hcap]⟩
  have hpush : arrayPush sizeofElem.toNat true a value = some (arrayAppend b value).1 := by
    rw [arrayPush, hreserve]
    rfl
  obtain ⟨hok', hcontents⟩ := arrayPush_contents hok hpush
  refine ⟨arrayStore sizeofElem g value, _, by rw [arrayPushAt, hgrow]; rfl, hpush, hcontents, ?_,
    hok', hbcap⟩
  rw [hcontents]
  exact arrayStore_holds hholds hroom hvalue

/-- Source: none: infrastructure. Kind: L -/
theorem arrayHolds_init (sizeofElem : BitVec 64) (m : Mem) :
    ArrayHolds sizeofElem (arrayInitAt m) [] :=
  ⟨rfl, le_refl _, fun _ hk => absurd hk (Nat.not_lt_zero _), fun h => absurd rfl h, fun _ => rfl,
    by rw [show (arrayInitAt m).capacity.toNat = 0 from rfl, Nat.zero_mul]; decide,
    fun _ hw => absurd hw List.not_mem_nil⟩

/-- Source: none: infrastructure. Kind: L -/
theorem arrayPushes_holds_from (h1 : 1 ≤ sizeofElem.toNat) (h2 : sizeofElem.toNat ≤ 4096)
    {pushes : List (List (BitVec 8) × PmmAllocAligned)} :
    ∀ {s : ArrayAt} {a : KArray (List (BitVec 8))}, ArrayHolds sizeofElem s a.contents → ArrayOk a →
      a.capacity = s.capacity.toNat → (∀ push ∈ pushes, push.1.length = sizeofElem.toNat) →
      PushesFresh sizeofElem pushes s →
      ∃ s', arrayPushes sizeofElem pushes s = some s' ∧
        ArrayHolds sizeofElem s' (a.contents ++ pushes.map Prod.fst) := by
  induction pushes with
  | nil =>
      intro s a h _ _ _ _
      refine ⟨s, rfl, ?_⟩
      rw [List.map_nil, List.append_nil]
      exact h
  | cons push pushes ih =>
      intro s a h hok hcap hvalues hfresh
      obtain ⟨s₁, a₁, hrun, -, hcontents, hholds, hok₁, hcap₁⟩ := arrayPushAt_refines h1 h2 h hok hcap
        hfresh.1 (hvalues push List.mem_cons_self)
      obtain ⟨s', hrest, hfinal⟩ := ih hholds hok₁ hcap₁
        (fun p hp => hvalues p (List.mem_cons_of_mem _ hp)) (hfresh.2 s₁ hrun)
      refine ⟨s', ?_, ?_⟩
      · rw [arrayPushes, hrun]
        exact hrest
      · rw [hcontents, List.append_assoc] at hfinal
        exact hfinal

/-- **Pushes append**: after any pushes from an empty array it holds the values that were pushed, in
order, in the buffer that was given last.
Source: `array.h` `ARRAY_PUSH`
Kind: P
Hyps: the element size is at most a page, and every buffer that is asked for is fresh -/
theorem arrayPushes_holds (sizeofElem : BitVec 64) (m : Mem)
    (pushes : List (List (BitVec 8) × PmmAllocAligned)) (h1 : 1 ≤ sizeofElem.toNat)
    (h2 : sizeofElem.toNat ≤ 4096) (hvalues : ∀ push ∈ pushes, push.1.length = sizeofElem.toNat)
    (hfresh : PushesFresh sizeofElem pushes (arrayInitAt m)) :
    ∃ s, arrayPushes sizeofElem pushes (arrayInitAt m) = some s ∧
      ArrayHolds sizeofElem s (pushes.map Prod.fst) := by
  obtain ⟨s, hrun, hholds⟩ := arrayPushes_holds_from h1 h2 (a := arrayInit [])
    (arrayHolds_init sizeofElem m) (arrayOk_init _) rfl hvalues hfresh
  exact ⟨s, hrun, hholds⟩

end holds

/-- A call that gives the buffer at `p`.
Source: none: infrastructure
Kind: D -/
def givesAt (p : Addr) : PmmAllocAligned := fun m _ _ => some (m, p)

/-- Two pages, the second of which needs a second buffer.
Source: none: infrastructure
Kind: C -/
theorem arrayPushes_holds_twoPages :
    ∃ s, arrayPushes 4096 [(List.replicate 4096 1, givesAt 0x10000),
        (List.replicate 4096 2, givesAt 0x20000)] (arrayInitAt fun _ => 0) = some s ∧
      ArrayHolds 4096 s [List.replicate 4096 1, List.replicate 4096 2] := by
  refine arrayPushes_holds 4096 (fun _ => 0) _ (by decide) (by decide) ?_ ⟨?_, fun s hs => ⟨?_, ?_⟩⟩
  · intro push hpush
    rcases List.mem_cons.mp hpush with rfl | hpush
    · exact List.length_replicate
    · rw [List.mem_singleton.mp hpush]
      exact List.length_replicate
  · exact fun _ => ⟨by decide, _, _, rfl, by decide, by decide, fun _ hx => absurd hx List.not_mem_nil,
      fun _ hx => absurd hx List.not_mem_nil⟩
  · cases hs
    refine fun _ => ⟨by decide, _, _, rfl, by decide, by decide, fun x hx => ?_, fun _ _ _ _ => rfl⟩
    rw [List.mem_singleton.mp hx]
    exact disjoint_span_offsets 0x10000 (x := 0x10000) (y := 0) (by decide) (by decide)
      (Or.inr (Or.inl (by decide)))
  · exact fun _ _ => trivial

end Octiron.Kernel
