import Octiron.Found.Bytes
import Octiron.Kzadhbat.Bump

/-!
# Aligned requests

`bump_alloc_aligned`, with any alignment: `ALIGN_UP` is only an alignment for powers of two, but it never
goes back.

* `alignUp_le`, `le_alignUp` — `ALIGN_UP(x, align)` is between `x` and `x + align - 1`.
* `BumpGives b b' p size` — a range of `size` bytes behind the index was handed out.
* `BumpBuffer b b' p n` — a request that was not refused; `BumpHas b p n` — a range that has been handed
  out, which does not meet those that are handed out later (`BumpHas.disjoint`).
* `BumpBuffers b l b'` — requests in a row, whose ranges do not meet (`BumpBuffers.apart`).
* **Main result** (`bumpAllocAligned_cases`): a request is refused, or gives a range.
-/

namespace Octiron.Kzadhbat

open Octiron.Found
open Octiron.Found.Mem

/-! ## `ALIGN_UP` -/

/-- Source: none: infrastructure. Kind: L -/
theorem toNat_and_not_add (y c : BitVec 64) :
    (y &&& ~~~c).toNat + (y &&& c).toNat = y.toNat := by
  have hdisj : (y &&& ~~~c) &&& (y &&& c) = 0#64 := by
    apply BitVec.eq_of_getLsbD_eq
    intro i hi
    simp only [BitVec.getLsbD_and, BitVec.getLsbD_not, BitVec.getLsbD_zero, hi, decide_true,
      Bool.true_and]
    cases y.getLsbD i <;> cases c.getLsbD i <;> rfl
  have hor : (y &&& ~~~c) + (y &&& c) = y := by
    rw [BitVec.add_eq_or_of_and_eq_zero _ _ hdisj]
    apply BitVec.eq_of_getLsbD_eq
    intro i hi
    simp only [BitVec.getLsbD_or, BitVec.getLsbD_and, BitVec.getLsbD_not, hi, decide_true,
      Bool.true_and]
    cases y.getLsbD i <;> cases c.getLsbD i <;> rfl
  have hsum := congrArg BitVec.toNat hor
  have hleft : (y &&& ~~~c).toNat ≤ y.toNat := by
    rw [BitVec.toNat_and]
    exact Nat.and_le_left
  have hright : (y &&& c).toNat ≤ y.toNat := by
    rw [BitVec.toNat_and]
    exact Nat.and_le_left
  have hy := y.isLt
  rw [BitVec.toNat_add] at hsum
  omega

/-- **`ALIGN_UP` does not go back**, and goes less than `align` further.
Source: `bitmacros.h` `ALIGN_UP`
Kind: L -/
theorem alignUp_bounds {x align : BitVec 64} (halign : align ≠ 0)
    (h : x.toNat + align.toNat ≤ 2 ^ 64) :
    x.toNat ≤ (alignUp x align).toNat ∧ (alignUp x align).toNat ≤ x.toNat + (align.toNat - 1) := by
  have hpos : 0 < align.toNat := Nat.pos_of_ne_zero fun h0 => halign (BitVec.eq_of_toNat_eq h0)
  have hpred : (align - 1).toNat = align.toNat - 1 := by
    rw [BitVec.toNat_sub]
    have := align.isLt
    show (2 ^ 64 - 1 + align.toNat) % 2 ^ 64 = _
    omega
  have hsum : (x + (align - 1)).toNat = x.toNat + (align.toNat - 1) := by
    rw [BitVec.toNat_add, hpred, Nat.mod_eq_of_lt (by omega)]
  have hsplit := toNat_and_not_add (x + (align - 1)) (align - 1)
  have hlow : ((x + (align - 1)) &&& (align - 1)).toNat ≤ align.toNat - 1 := by
    rw [BitVec.toNat_and, hpred]
    exact Nat.and_le_right
  unfold alignUp
  omega

/-! ## Requests -/

/-- **A range of `size` bytes was handed out**, behind the index.
Source: `bump_allocator.c` `bump_alloc_aligned`
Kind: D -/
structure BumpGives (b b' : BumpAllocator) (p : Addr) (o size : ℕ) : Prop where
  ptr : p = b.memory + BitVec.ofNat 64 o
  after : b' = { b with index := BitVec.ofNat 64 (o + size) }
  pos : 0 < size
  behind : b.index.toNat ≤ o
  fits : o + size ≤ b.size.toNat

/-- **What a request comes to that is not refused**: a range, or nothing when none was asked for.
Source: `bump_allocator.c` `bump_alloc_aligned`
Kind: D -/
inductive BumpBuffer (b : BumpAllocator) : BumpAllocator → Addr → ℕ → Prop
  | none : BumpBuffer b b 0 0
  | range {b' : BumpAllocator} {p : Addr} {o n : ℕ} : BumpGives b b' p o n → BumpBuffer b b' p n

/-- The `n` bytes at `p` have been handed out.
Source: none: infrastructure
Kind: D -/
def BumpHas (b : BumpAllocator) (p : Addr) (n : ℕ) : Prop :=
  n = 0 ∨ ∃ o, p = b.memory + BitVec.ofNat 64 o ∧ o + n ≤ b.index.toNat

section requests

variable {b b' b'' : BumpAllocator} {p : Addr} {o n : ℕ} {l : List (BitVec 8)}

/-- **`bump_alloc_aligned`**: refused, or a range at the first offset that `ALIGN_UP` gives.
Source: `bump_allocator.c` `bump_alloc_aligned`
Kind: P -/
theorem bumpAllocAligned_cases (hbig : b.size.toNat ≤ 2 ^ 63) (hok : BumpOk b)
    (size alignment : BitVec 64) (hsize : size.toNat ≤ 2 ^ 40) (halign : alignment.toNat ≤ 2 ^ 40) :
    (bumpAllocAligned b size alignment = (b, 0) ∧ (size = 0 ∨ alignment = 0 ∨
      b.size.toNat < b.index.toNat + (alignment.toNat - 1) + size.toNat)) ∨
    ∃ b' p o, bumpAllocAligned b size alignment = (b', p) ∧ BumpGives b b' p o size.toNat ∧
      o ≤ b.index.toNat + (alignment.toNat - 1) ∧ ∀ k, alignment.toNat = 2 ^ k → 2 ^ k ∣ o := by
  have hindex := hok.index
  unfold bumpAllocAligned
  by_cases h0 : size = 0 ∨ alignment = 0
  · rw [if_pos (h0.imp_right Or.inl)]
    exact Or.inl ⟨rfl, h0.imp_right Or.inl⟩
  · rw [not_or] at h0
    obtain ⟨hlow, hhigh⟩ := alignUp_bounds (x := b.index) h0.2 (by omega)
    have hpos : 0 < size.toNat := Nat.pos_of_ne_zero fun h => h0.1 (BitVec.eq_of_toNat_eq h)
    have hsum : (alignUp b.index alignment + size).toNat =
        (alignUp b.index alignment).toNat + size.toNat := by
      rw [BitVec.toNat_add, Nat.mod_eq_of_lt (by omega)]
    by_cases hlt : b.size < alignUp b.index alignment + size
    · rw [if_pos (Or.inr (Or.inr hlt))]
      rw [BitVec.lt_def, hsum] at hlt
      exact Or.inl ⟨rfl, Or.inr (Or.inr (by omega))⟩
    · have hrefuses : ¬ (size = 0 ∨ alignment = 0 ∨ b.size < alignUp b.index alignment + size) :=
        fun h => h.elim h0.1 fun h => h.elim h0.2 hlt
      rw [if_neg hrefuses]
      rw [BitVec.lt_def, hsum] at hlt
      refine Or.inr ⟨_, _, (alignUp b.index alignment).toNat, rfl, ⟨?_, ?_, hpos, hlow, by omega⟩,
        hhigh, fun k hk => ?_⟩
      · rw [BitVec.ofNat_toNat, BitVec.setWidth_eq]
      · rw [← hsum, BitVec.ofNat_toNat, BitVec.setWidth_eq]
      · rw [alignUp_toNat hk (by omega)]
        exact Nat.dvd_mul_left _ _

/-- Source: none: infrastructure. Kind: L -/
theorem BumpGives.index_toNat (h : BumpGives b b' p o n) : b'.index.toNat = o + n := by
  have hfits := h.fits
  have hlt := b.size.isLt
  rw [h.after]
  show (BitVec.ofNat 64 (o + n)).toNat = _
  rw [BitVec.toNat_ofNat, Nat.mod_eq_of_lt (by omega)]

/-- Source: none: infrastructure. Kind: L -/
theorem BumpGives.ok (h : BumpGives b b' p o n) (hok : BumpOk b) : BumpOk b' := by
  have hfits := h.fits
  have hindex := h.index_toNat
  rw [h.after] at hindex ⊢
  exact ⟨hok.pos, hok.fits, by rw [hindex]; exact hfits⟩

/-- Source: none: infrastructure. Kind: L -/
theorem BumpGives.frame (h : BumpGives b b' p o n) : BumpFrame b b' := by
  have hbehind := h.behind
  have hindex := h.index_toNat
  have hpos := h.pos
  rw [h.after] at hindex ⊢
  exact ⟨rfl, rfl, by rw [hindex]; omega, fun _ _ => rfl⟩

/-- Source: none: infrastructure. Kind: L -/
theorem BumpGives.toNat (h : BumpGives b b' p o n) (hok : BumpOk b) :
    p.toNat = b.memory.toNat + o := by
  have hfits := h.fits
  have hbuffer := hok.fits
  have hpos := h.pos
  rw [h.ptr, BitVec.toNat_add, BitVec.toNat_ofNat, Nat.mod_eq_of_lt (by omega : o < 2 ^ 64),
    Nat.mod_eq_of_lt (by omega)]

/-- Source: none: infrastructure. Kind: L -/
theorem BumpGives.ne_zero (h : BumpGives b b' p o n) (hok : BumpOk b) : p ≠ 0 := by
  intro h0
  have htoNat := h.toNat hok
  have hpos := hok.pos
  rw [h0] at htoNat
  change 0 = _ at htoNat
  omega

/-- Source: none: infrastructure. Kind: L -/
theorem BumpBuffer.ok (h : BumpBuffer b b' p n) (hok : BumpOk b) : BumpOk b' := by
  cases h with
  | none => exact hok
  | range h => exact h.ok hok

/-- Source: none: infrastructure. Kind: L -/
theorem BumpBuffer.frame (h : BumpBuffer b b' p n) : BumpFrame b b' := by
  cases h with
  | none => exact BumpFrame.refl b
  | range h => exact h.frame

/-- Source: none: infrastructure. Kind: L -/
theorem BumpBuffer.mem (h : BumpBuffer b b' p n) : b'.mem = b.mem := by
  cases h with
  | none => rfl
  | range h => rw [h.after]

/-- Source: none: infrastructure. Kind: L -/
theorem BumpBuffer.has (h : BumpBuffer b b' p n) : BumpHas b' p n := by
  cases h with
  | none => exact Or.inl rfl
  | range h => exact Or.inr ⟨_, by rw [h.frame.memory]; exact h.ptr, h.index_toNat.ge⟩

/-- Source: none: infrastructure. Kind: L -/
theorem BumpBuffer.ne_zero (h : BumpBuffer b b' p n) (hok : BumpOk b) (hn : n ≠ 0) : p ≠ 0 := by
  cases h with
  | none => exact absurd rfl hn
  | range h => exact h.ne_zero hok

/-- Source: none: infrastructure. Kind: L -/
theorem BumpHas.frame (h : BumpHas b p n) (hf : BumpFrame b b') : BumpHas b' p n := by
  rcases h with h0 | ⟨o, hp, ho⟩
  · exact Or.inl h0
  · exact Or.inr ⟨o, by rw [hf.memory]; exact hp, ho.trans hf.index⟩

/-- Source: none: infrastructure. Kind: L -/
theorem BumpHas.of_holds (h : BumpHolds b p l) : BumpHas b p l.length := Or.inr h.2

/-- Source: none: infrastructure. Kind: L -/
theorem BumpHas.le (h : BumpHas b p n) : n ≤ 2 ^ 64 := by
  rcases h with h0 | ⟨o, -, ho⟩
  · omega
  · have := b.index.isLt
    omega

/-- Source: none: infrastructure. Kind: L -/
theorem BumpHas.ne_zero (h : BumpHas b p n) (hok : BumpOk b) (hn : n ≠ 0) : p ≠ 0 := by
  rcases h with h0 | ⟨o, rfl, ho⟩
  · exact absurd h0 hn
  · intro h0
    have htoNat := congrArg BitVec.toNat h0
    have hpos := hok.pos
    have hfits := hok.fits
    have hindex := hok.index
    rw [BitVec.toNat_add, BitVec.toNat_ofNat, Nat.mod_eq_of_lt (by omega : o < 2 ^ 64),
      Nat.mod_eq_of_lt (by omega)] at htoNat
    change _ = 0 at htoNat
    omega

/-- **What has been handed out does not meet what is handed out later**.
Source: none: infrastructure
Kind: L -/
theorem BumpHas.disjoint (h : BumpHas b p n) {q : Addr} {k : ℕ} (hq : BumpBuffer b b' q k) :
    Disjoint (span p n) (span q k) := by
  rcases h with rfl | ⟨x, rfl, hx⟩
  · exact Set.disjoint_left.mpr fun y hy => absurd hy (Nat.not_lt_zero _)
  · cases hq with
    | none => exact Set.disjoint_left.mpr fun y _ hy => absurd hy (Nat.not_lt_zero _)
    | range hq =>
        have hbehind := hq.behind
        have hfits := hq.fits
        have hlt := b.size.isLt
        rw [hq.ptr]
        exact disjoint_span_offsets _ (by omega) (by omega) (Or.inl (by omega))

/-- Source: none: infrastructure. Kind: L -/
theorem BytesAt.bytes {m : Mem} (h : BytesAt m p l) : Mem.bytes m p l.length = l := by
  refine List.ext_getElem? fun i => ?_
  by_cases hi : i < l.length
  · rw [getElem?_bytes hi, List.getElem?_eq_getElem hi]
    exact congrArg some (h i _ (List.getElem?_eq_getElem hi))
  · have hle : l.length ≤ i := Nat.not_lt.mp hi
    rw [List.getElem?_eq_none (by rw [length_bytes]; exact hle), List.getElem?_eq_none hle]

/-- The bytes of a string that is in the buffer.
Source: none: infrastructure
Kind: L -/
theorem BumpHolds.bytes (h : BumpHolds b p l) : Mem.bytes b.mem p l.length = l := BytesAt.bytes h.1

/-- Source: none: infrastructure. Kind: L -/
theorem BytesAt.of_bytes {m : Mem} (h : Mem.bytes m p l.length = l) : BytesAt m p l := by
  intro i c hi
  have hlt : i < l.length := (List.getElem?_eq_some_iff.mp hi).1
  have hget := getElem?_bytes (m := m) (a := p) hlt
  rw [h, hi] at hget
  exact (Option.some.inj hget).symm

/-- An address below the index is not in a range that is handed out.
Source: none: infrastructure
Kind: L -/
theorem BumpGives.notMem_of_below (h : BumpGives b b' p o n) {k j : ℕ}
    (hk : o + j + k ≤ 2 ^ 64) {x : Addr} (hx : (x - b.memory).toNat < b.index.toNat) :
    x ∉ span (p + BitVec.ofNat 64 j) k := by
  intro hmem
  have hdisj : Disjoint (span (b.memory + BitVec.ofNat 64 0) b.index.toNat)
      (span (b.memory + BitVec.ofNat 64 (o + j)) k) := by
    have hbehind := h.behind
    have hlt := b.index.isLt
    exact disjoint_span_offsets _ (by omega) (by omega) (Or.inl (by omega))
  rw [h.ptr, BitVec.add_assoc, ← BitVec.ofNat_add] at hmem
  refine Set.disjoint_left.mp hdisj ?_ hmem
  show (x - (b.memory + BitVec.ofNat 64 0)).toNat < b.index.toNat
  rw [show b.memory + BitVec.ofNat 64 0 = b.memory from BitVec.add_zero _]
  exact hx

/-- A change behind the index keeps the frame.
Source: none: infrastructure
Kind: L -/
theorem BumpFrame.of_mem (h : BumpFrame b b') {m : Mem}
    (hm : ∀ x, (x - b.memory).toNat < b.index.toNat → m x = b'.mem x) :
    BumpFrame b { b' with mem := m } :=
  ⟨h.memory, h.size, h.index, fun x hx => (hm x hx).trans (h.mem x hx)⟩

end requests

/-! ## Requests in a row -/

/-- **Requests one after the other**, none of which was refused, with their addresses and sizes.
Source: none: infrastructure
Kind: D -/
inductive BumpBuffers : BumpAllocator → List (Addr × ℕ) → BumpAllocator → Prop
  | nil {b : BumpAllocator} : BumpBuffers b [] b
  | cons {b b' b'' : BumpAllocator} {p : Addr} {n : ℕ} {l : List (Addr × ℕ)} :
      BumpBuffer b b' p n → BumpBuffers b' l b'' → BumpBuffers b ((p, n) :: l) b''

section buffers

variable {b b' : BumpAllocator} {l : List (Addr × ℕ)} {p : Addr} {n : ℕ}

/-- Source: none: infrastructure. Kind: L -/
theorem BumpBuffers.ok (h : BumpBuffers b l b') (hok : BumpOk b) : BumpOk b' := by
  induction h with
  | nil => exact hok
  | cons hbuffer _ ih => exact ih (hbuffer.ok hok)

/-- Source: none: infrastructure. Kind: L -/
theorem BumpBuffers.frame (h : BumpBuffers b l b') : BumpFrame b b' := by
  induction h with
  | nil => exact BumpFrame.refl _
  | cons hbuffer _ ih => exact hbuffer.frame.trans ih

/-- Source: none: infrastructure. Kind: L -/
theorem BumpBuffers.mem (h : BumpBuffers b l b') : b'.mem = b.mem := by
  induction h with
  | nil => rfl
  | cons hbuffer _ ih => rw [ih, hbuffer.mem]

/-- What had been handed out before does not meet any of the buffers.
Source: none: infrastructure
Kind: L -/
theorem BumpBuffers.disjoint (h : BumpBuffers b l b') (hp : BumpHas b p n) {x : Addr × ℕ}
    (hx : x ∈ l) : Disjoint (span p n) (span x.1 x.2) := by
  induction h with
  | nil => exact absurd hx List.not_mem_nil
  | cons hbuffer _ ih =>
      rcases List.mem_cons.mp hx with rfl | hx
      · exact hp.disjoint hbuffer
      · exact ih (hp.frame hbuffer.frame) hx

/-- **The buffers do not meet**.
Source: none: infrastructure
Kind: L -/
theorem BumpBuffers.apart (h : BumpBuffers b l b') :
    l.Pairwise fun x y => Disjoint (span x.1 x.2) (span y.1 y.2) := by
  induction h with
  | nil => exact List.Pairwise.nil
  | cons hbuffer htail ih =>
      exact List.pairwise_cons.mpr ⟨fun x hx => htail.disjoint hbuffer.has hx, ih⟩

/-- Source: none: infrastructure. Kind: L -/
theorem BumpBuffers.has (h : BumpBuffers b l b') {x : Addr × ℕ} (hx : x ∈ l) : BumpHas b' x.1 x.2 := by
  induction h with
  | nil => exact absurd hx List.not_mem_nil
  | cons hbuffer htail ih =>
      rcases List.mem_cons.mp hx with rfl | hx
      · exact hbuffer.has.frame htail.frame
      · exact ih hx

end buffers

end Octiron.Kzadhbat
