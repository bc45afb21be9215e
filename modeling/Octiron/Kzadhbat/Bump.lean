import Octiron.Kzadhbat.Error
import Octiron.Kzadhbat.Bitmacros

/-!
# The bump allocator

`bump_allocator.h` and `bump_allocator.c`: a buffer and an index into it that only grows.

* `BumpAllocator` — the structure, with the memory that its buffer is in; the function pointers that
  `bump_init` sets are always those of this file.
* `bumpInit`, `bumpAlloc`, `bumpAllocAligned` — the functions that copy nothing.
* `bumpCopyFrom`, `bumpCopyStringFrom` — the ones that copy, with the address of the source; a zero is
  `NULL`. `bumpCopy`, `bumpCopyString` — the same with a source that is given by its bytes, which the
  copy does not write to, and `none` for `NULL`.
* `BumpFrame b b'` — what later calls leave alone: the bytes below the index.
* `BumpHolds b p l` — the bytes `l` are at `p`, below the index; this stays (`BumpHolds.frame`).
* **Main results** (`bumpCopyString_of_room`, `bumpCopy_of_room`): a copy for which there is room.
-/

namespace Octiron.Kzadhbat

open Octiron.Found

/-! ## The functions -/

/-- Source: `bump_allocator.h` `struct bumpAllocator`. Kind: D -/
structure BumpAllocator where
  /-- The base address of the buffer. -/
  memory : Addr
  /-- The size of the buffer. -/
  size : BitVec 64
  /-- The current index. -/
  index : BitVec 64
  /-- The memory the buffer is in. -/
  mem : Mem

/-- Source: `bump_allocator.c` `bump_init`. Kind: D -/
def bumpInit (b : BumpAllocator) (memory : Addr) (size : BitVec 64) : BumpAllocator × Errval :=
  if memory = 0 ∨ size = 0 then (b, GrouperError.nullArgument.errval)
  else ({ b with memory := memory, size := size, index := 0 }, GrouperError.ok.errval)

/-- The test with which `bump_alloc` and `bump_copy` refuse a size.
Source: `bump_allocator.c` `bump_alloc`, `bump_copy`
Kind: D -/
def bumpRefuses (b : BumpAllocator) (size : BitVec 64) : Prop := size = 0 ∨ b.size < b.index + size

instance (b : BumpAllocator) (size : BitVec 64) : Decidable (bumpRefuses b size) :=
  inferInstanceAs (Decidable (_ ∨ _))

/-- Source: `bump_allocator.c` `bump_alloc`. Kind: D -/
def bumpAlloc (b : BumpAllocator) (size : BitVec 64) : BumpAllocator × Addr :=
  if bumpRefuses b size then (b, 0)
  else ({ b with index := b.index + size }, b.memory + b.index)

/-- `bump_copy` from a source that it does not write to.
Source: `bump_allocator.c` `bump_copy`
Kind: D -/
def bumpCopy (b : BumpAllocator) (src : Option (ℕ → BitVec 8)) (size : BitVec 64) :
    BumpAllocator × Addr :=
  match src with
  | none => (b, 0)
  | some bytes =>
    if bumpRefuses b size then (b, 0)
    else
      let (b, dest) := bumpAlloc b size
      if dest = 0 then (b, 0)
      else ({ b with mem := memcpy b.mem dest bytes size }, dest)

/-- `bump_copy_string` from a source that it does not write to.
Source: `bump_allocator.c` `bump_copy_string`
Kind: D -/
def bumpCopyString (b : BumpAllocator) (src : Option (List (BitVec 8))) : BumpAllocator × Addr :=
  match src with
  | none => (b, 0)
  | some str =>
    let len := BitVec.ofNat 64 (str.length + 1)
    if b.size < b.index + len then (b, 0)
    else
      let dest := b.memory + b.index
      ({ b with
          mem := memcpy b.mem dest (fun i => (str ++ [0]).getD i 0) len
          index := b.index + len }, dest)

/-- `bump_copy` with its source at `src`, in the same memory as the buffer.
Source: `bump_allocator.c` `bump_copy`
Kind: D -/
def bumpCopyFrom (b : BumpAllocator) (src : Addr) (size : BitVec 64) : BumpAllocator × Addr :=
  if src = 0 ∨ bumpRefuses b size then (b, 0)
  else
    let (b, dest) := bumpAlloc b size
    if dest = 0 then (b, 0)
    else ({ b with mem := memcpyFrom b.mem dest src size }, dest)

/-- `bump_copy_string` with its source at `src`, in the same memory as the buffer.
Source: `bump_allocator.c` `bump_copy_string`
Kind: D -/
def bumpCopyStringFrom (b : BumpAllocator) (src : Addr) : BumpAllocator × Addr :=
  if src = 0 then (b, 0)
  else
    let len := BitVec.ofNat 64 (strlen b.mem src + 1)
    if b.size < b.index + len then (b, 0)
    else
      let dest := b.memory + b.index
      ({ b with mem := memcpyFrom b.mem dest src len, index := b.index + len }, dest)

/-- Source: `bump_allocator.c` `bump_alloc_aligned`. Kind: D -/
def bumpAllocAligned (b : BumpAllocator) (size alignment : BitVec 64) : BumpAllocator × Addr :=
  if size = 0 ∨ alignment = 0 ∨ b.size < alignUp b.index alignment + size then (b, 0)
  else
    let index := alignUp b.index alignment
    ({ b with index := index + size }, b.memory + index)

/-! ## Frames -/

/-- **What a later call leaves alone**: where the buffer is, and what is below the index.
Source: none: infrastructure
Kind: D -/
structure BumpFrame (b b' : BumpAllocator) : Prop where
  memory : b'.memory = b.memory
  size : b'.size = b.size
  index : b.index.toNat ≤ b'.index.toNat
  mem : ∀ x, (x - b.memory).toNat < b.index.toNat → b'.mem x = b.mem x

/-- The bytes `l` are at `p`, in the part of the buffer that has been handed out.
Source: none: infrastructure
Kind: D -/
def BumpHolds (b : BumpAllocator) (p : Addr) (l : List (BitVec 8)) : Prop :=
  BytesAt b.mem p l ∧ ∃ o, p = b.memory + BitVec.ofNat 64 o ∧ o + l.length ≤ b.index.toNat

/-- A buffer in the address space, not at `NULL`, with the index in it.
Source: none: infrastructure
Kind: D -/
structure BumpOk (b : BumpAllocator) : Prop where
  pos : 0 < b.memory.toNat
  fits : b.memory.toNat + b.size.toNat ≤ 2 ^ 64
  index : b.index.toNat ≤ b.size.toNat

/-- The bytes that are left.
Source: none: infrastructure
Kind: D -/
def BumpAllocator.room (b : BumpAllocator) : ℕ := b.size.toNat - b.index.toNat

section frame

variable {b b' b'' : BumpAllocator}

/-- Source: none: infrastructure. Kind: L -/
theorem BumpFrame.refl (b : BumpAllocator) : BumpFrame b b :=
  ⟨rfl, rfl, le_refl _, fun _ _ => rfl⟩

/-- Source: none: infrastructure. Kind: L -/
theorem BumpFrame.trans (h : BumpFrame b b') (h' : BumpFrame b' b'') : BumpFrame b b'' := by
  refine ⟨h'.memory.trans h.memory, h'.size.trans h.size, h.index.trans h'.index, fun x hx => ?_⟩
  rw [h'.mem x, h.mem x hx]
  rw [h.memory]
  exact lt_of_lt_of_le hx h.index

/-- **What is in the buffer stays there**.
Source: none: infrastructure
Kind: L -/
theorem BumpHolds.frame {p : Addr} {l : List (BitVec 8)} (h : BumpHolds b p l)
    (hf : BumpFrame b b') : BumpHolds b' p l := by
  obtain ⟨hbytes, o, rfl, ho⟩ := h
  refine ⟨fun i c hc => ?_, o, by rw [hf.memory], ho.trans hf.index⟩
  have hi : i < l.length := by
    by_contra hge
    rw [List.getElem?_eq_none (Nat.not_lt.mp hge)] at hc
    cases hc
  have hlt := b.index.isLt
  rw [hf.mem, hbytes i c hc]
  rw [BitVec.add_assoc, ← BitVec.ofNat_add, Mem.add_ofNat_sub_toNat b.memory (by omega)]
  omega

/-- Source: none: infrastructure. Kind: L -/
theorem BumpOk.dest_toNat (h : BumpOk b) (hlt : b.index.toNat < b.size.toNat) :
    (b.memory + b.index).toNat = b.memory.toNat + b.index.toNat := by
  have hfits := h.fits
  rw [BitVec.toNat_add, Nat.mod_eq_of_lt (by omega)]

/-- Source: none: infrastructure. Kind: L -/
theorem BumpOk.dest_ne_zero (h : BumpOk b) (hlt : b.index.toNat < b.size.toNat) :
    b.memory + b.index ≠ 0 := by
  intro h0
  have hval := h.dest_toNat hlt
  have hpos := h.pos
  rw [h0] at hval
  change 0 = _ at hval
  omega

/-- **Copying `len` bytes to the index**, where there is room for them.
Source: none: infrastructure
Kind: L -/
theorem bump_copied (h : BumpOk b) (l : List (BitVec 8)) (hroom : l.length ≤ b.room)
    {src : ℕ → BitVec 8} (hsrc : ∀ i c, l[i]? = some c → src i = c)
    (hb' : b' = { b with
      mem := memcpy b.mem (b.memory + b.index) src (BitVec.ofNat 64 l.length)
      index := b.index + BitVec.ofNat 64 l.length }) :
    BumpOk b' ∧ b'.room = b.room - l.length ∧ BumpHolds b' (b.memory + b.index) l ∧
      BumpFrame b b' := by
  subst hb'
  have hfits := h.fits
  have hindex := h.index
  unfold BumpAllocator.room at hroom
  have hpos := h.pos
  have hlen : (BitVec.ofNat 64 l.length).toNat = l.length := by
    rw [BitVec.toNat_ofNat, Nat.mod_eq_of_lt (by omega)]
  have hindex' : (b.index + BitVec.ofNat 64 l.length).toNat = b.index.toNat + l.length := by
    rw [BitVec.toNat_add, hlen, Nat.mod_eq_of_lt (by omega)]
  refine ⟨⟨h.pos, h.fits, ?_⟩, ?_, ⟨fun i c hc => ?_, b.index.toNat, ?_, ?_⟩,
    ⟨rfl, rfl, ?_, fun x hx => ?_⟩⟩
  · show (b.index + BitVec.ofNat 64 l.length).toNat ≤ b.size.toNat
    omega
  · show b.size.toNat - (b.index + BitVec.ofNat 64 l.length).toNat = _
    unfold BumpAllocator.room
    omega
  · have hi : i < l.length := by
      by_contra hge
      rw [List.getElem?_eq_none (Nat.not_lt.mp hge)] at hc
      cases hc
    show memcpy _ _ _ _ _ = c
    rw [memcpy_apply, Mem.add_ofNat_sub_toNat _ (by omega), hlen, if_pos hi]
    exact hsrc i c hc
  · rw [BitVec.ofNat_toNat, BitVec.setWidth_eq]
  · exact hindex'.ge
  · show b.index.toNat ≤ (b.index + BitVec.ofNat 64 l.length).toNat
    omega
  · -- an address below the index is not in the range that is written
    show memcpy _ _ _ _ x = _
    rw [memcpy_apply, if_neg]
    have hm := b.memory.isLt
    have hxlt := x.isLt
    rw [hlen, BitVec.toNat_sub, BitVec.toNat_add]
    rw [BitVec.toNat_sub] at hx
    omega

/-- **`bump_copy_string`** with room for the string.
Source: `bump_allocator.c` `bump_copy_string`
Kind: P -/
theorem bumpCopyString_of_room (h : BumpOk b) {str : List (BitVec 8)}
    (hroom : str.length + 1 ≤ b.room) :
    ∃ b', bumpCopyString b (some str) = (b', b.memory + b.index) ∧ b.memory + b.index ≠ 0 ∧
      BumpOk b' ∧ b'.room = b.room - (str.length + 1) ∧
      BumpHolds b' (b.memory + b.index) (str ++ [0]) ∧ BumpFrame b b' := by
  have hlen : (str ++ [0]).length = str.length + 1 := by
    rw [List.length_append, List.length_singleton]
  have hsrc : ∀ i c, (str ++ [0])[i]? = some c → (str ++ [0]).getD i 0 = c := by
    intro i c hc
    rw [List.getD_eq_getElem?_getD, hc]
    rfl
  obtain ⟨hok, hroom', hholds, hframe⟩ := bump_copied h (str ++ [0]) (by rw [hlen]; exact hroom)
    hsrc rfl
  rw [hlen] at hok hroom' hholds hframe
  refine ⟨_, ?_, ?_, hok, hroom', hholds, hframe⟩
  · unfold bumpCopyString
    dsimp only
    rw [if_neg]
    rw [BitVec.not_lt]
    exact BitVec.le_def.mpr hok.index
  · refine h.dest_ne_zero ?_
    unfold BumpAllocator.room at hroom
    omega

/-- A copy that is not refused.
Source: `bump_allocator.c` `bump_copy`
Kind: L -/
theorem bumpCopy_eq {src : ℕ → BitVec 8} {size : BitVec 64} (haccepts : ¬ bumpRefuses b size)
    (hdest : b.memory + b.index ≠ 0) :
    bumpCopy b (some src) size =
      ({ b with
          mem := memcpy b.mem (b.memory + b.index) src size
          index := b.index + size }, b.memory + b.index) := by
  unfold bumpCopy bumpAlloc
  simp only [haccepts, if_false, hdest]

/-- Source: `bump_allocator.c` `bump_copy`. Kind: L -/
theorem bumpCopyFrom_eq {src : Addr} {size : BitVec 64} (hsrc : src ≠ 0)
    (haccepts : ¬ bumpRefuses b size) (hdest : b.memory + b.index ≠ 0) :
    bumpCopyFrom b src size =
      ({ b with
          mem := memcpyFrom b.mem (b.memory + b.index) src size
          index := b.index + size }, b.memory + b.index) := by
  unfold bumpCopyFrom bumpAlloc
  simp only [hsrc, haccepts, or_self, if_false, hdest]

/-- **`bump_copy`** with room for the bytes; nothing is copied when there are none.
Source: `bump_allocator.c` `bump_copy`
Kind: P -/
theorem bumpCopy_of_room (h : BumpOk b) {l : List (BitVec 8)} (hroom : l.length ≤ b.room)
    {src : ℕ → BitVec 8} (hsrc : ∀ i c, l[i]? = some c → src i = c) :
    ∃ b' p, bumpCopy b (some src) (BitVec.ofNat 64 l.length) = (b', p) ∧ BumpOk b' ∧
      b'.room = b.room - l.length ∧ (l ≠ [] → BumpHolds b' p l) ∧ BumpFrame b b' := by
  have hlen : (BitVec.ofNat 64 l.length).toNat = l.length := by
    have hlt := b.size.isLt
    unfold BumpAllocator.room at hroom
    rw [BitVec.toNat_ofNat, Nat.mod_eq_of_lt (by omega)]
  by_cases hnil : l = []
  · subst hnil
    refine ⟨b, 0, ?_, h, (Nat.sub_zero _).symm, fun hne => absurd rfl hne, BumpFrame.refl b⟩
    have hrefuses : bumpRefuses b (BitVec.ofNat 64 ([] : List (BitVec 8)).length) := Or.inl rfl
    unfold bumpCopy
    dsimp only
    rw [if_pos hrefuses]
  · have hpos : 0 < l.length := List.length_pos_of_ne_nil hnil
    obtain ⟨hok, hroom', hholds, hframe⟩ := bump_copied h l hroom hsrc rfl
    have haccepts : ¬ bumpRefuses b (BitVec.ofNat 64 l.length) := by
      rintro (hzero | hlt)
      · rw [hzero] at hlen
        change 0 = _ at hlen
        omega
      · exact BitVec.not_lt.mpr (BitVec.le_def.mpr hok.index) hlt
    have hdest : b.memory + b.index ≠ 0 := by
      refine h.dest_ne_zero ?_
      unfold BumpAllocator.room at hroom
      omega
    exact ⟨_, b.memory + b.index, bumpCopy_eq haccepts hdest, hok, hroom', fun _ => hholds, hframe⟩

/-- A copy of a string keeps the index in the buffer, whatever its length.
Source: `bump_allocator.c` `bump_copy_string`
Kind: L -/
theorem BumpOk.bumpCopyString (h : BumpOk b) (src : Option (List (BitVec 8))) :
    BumpOk (bumpCopyString b src).1 ∧ (bumpCopyString b src).1.size = b.size := by
  unfold Kzadhbat.bumpCopyString
  cases src with
  | none => exact ⟨h, rfl⟩
  | some str =>
      dsimp only
      by_cases hlt : b.size < b.index + BitVec.ofNat 64 (str.length + 1)
      · rw [if_pos hlt]
        exact ⟨h, rfl⟩
      · rw [if_neg hlt]
        exact ⟨⟨h.pos, h.fits, BitVec.le_def.mp (BitVec.not_lt.mp hlt)⟩, rfl⟩

/-- Source: `bump_allocator.c` `bump_copy`. Kind: L -/
theorem BumpOk.bumpCopy (h : BumpOk b) (src : Option (ℕ → BitVec 8)) (size : BitVec 64) :
    BumpOk (bumpCopy b src size).1 ∧ (bumpCopy b src size).1.size = b.size := by
  unfold Kzadhbat.bumpCopy
  cases src with
  | none => exact ⟨h, rfl⟩
  | some bytes =>
      dsimp only
      by_cases hrefuses : bumpRefuses b size
      · rw [if_pos hrefuses]
        exact ⟨h, rfl⟩
      · have hle : (b.index + size).toNat ≤ b.size.toNat := by
          refine BitVec.le_def.mp (BitVec.not_lt.mp fun hlt => ?_)
          exact hrefuses (Or.inr hlt)
        have hok : BumpOk (bumpAlloc b size).1 ∧ (bumpAlloc b size).1.size = b.size := by
          unfold bumpAlloc
          rw [if_neg hrefuses]
          exact ⟨⟨h.pos, h.fits, hle⟩, rfl⟩
        rw [if_neg hrefuses]
        by_cases hdest : (bumpAlloc b size).2 = 0
        · rw [if_pos hdest]
          exact hok
        · rw [if_neg hdest]
          exact ⟨⟨hok.1.pos, hok.1.fits, hok.1.index⟩, hok.2⟩

/-- A string that has been copied had room.
Source: `bump_allocator.c` `bump_copy_string`
Kind: L -/
theorem room_of_bumpCopyString_ne_zero {str : List (BitVec 8)} (h : BumpOk b)
    (hlen : b.size.toNat + (str.length + 1) < 2 ^ 64)
    (hne : (Kzadhbat.bumpCopyString b (some str)).2 ≠ 0) : str.length + 1 ≤ b.room := by
  unfold Kzadhbat.bumpCopyString at hne
  dsimp only at hne
  split_ifs at hne with hlt
  · exact absurd rfl hne
  · have hindex := h.index
    rw [BitVec.lt_def, BitVec.toNat_add, BitVec.toNat_ofNat, Nat.mod_eq_of_lt (by omega),
      Nat.mod_eq_of_lt (by omega)] at hlt
    unfold BumpAllocator.room
    omega

end frame

end Octiron.Kzadhbat
