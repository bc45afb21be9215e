import Octiron.Found.Bytes
import Octiron.Kzadhbat.Bitmacros

/-!
# Flipping reverses bytes

`bitmacros.h`: `ENDIANNESS_FLIP_U32`, `ENDIANNESS_FLIP_U64` and `endianness_flip_u128` of a word that was
loaded have the loaded bytes in the reverse order, so that a big-endian number comes out as the number of
the machine. `ENDIANNESS_FLIP_U16` shifts an `int`, and nothing cuts off what is shifted out at the top.

* `wordBytes_readBigEndianU32`, `wordBytes_flipU64`, `wordBytes_flipU128` — the three wide ones.
* `FlipWidth`, `endiannessFlip`, `readBigEndian` — the macros at each of their four widths.
* `FlipExact` — the law: the bytes are reversed, and flipping twice gives the word back.
* **Main result** (`flipExact_iff_and_readBigEndian_iff`): the law and the big-endian read are exact at
  every width but 16, and for which words and bytes they are at 16.
-/

namespace Octiron.Kzadhbat

open Octiron.Found
open Octiron.Found.Mem

/-- Source: `bitmacros.h` `READ_BIG_ENDIAN_U32`. Kind: L -/
theorem wordBytes_readBigEndianU32 (m : Mem) (p : Addr) :
    wordBytes (readBigEndianU32 (m p) (m (p + 1)) (m (p + 2)) (m (p + 3))) 4 =
      (bytes m p 4).reverse := by
  rw [readBigEndianU32_eq]
  have hbytes : wordBytes (m p ++ m (p + 1) ++ m (p + 2) ++ m (p + 3)) 4 =
      [m (p + 3), m (p + 2), m (p + 1), m p] := by
    rw [wordBytes_append_byte, wordBytes_append_byte, wordBytes_append_byte]
    simp [wordBytes]
  rw [hbytes]
  simp [bytes, List.range_succ]

/-- Source: `bitmacros.h` `READ_BIG_ENDIAN_U64`. Kind: L -/
theorem wordBytes_flipU64 (m : Mem) (p : Addr) :
    wordBytes (endiannessFlipU64 (load64 m p)) 8 = (bytes m p 8).reverse := by
  unfold load64
  rw [endiannessFlipU64_append]
  have hbytes : wordBytes (m (p + 0#64) ++ m (p + 1#64) ++ m (p + 2#64) ++ m (p + 3#64) ++
      m (p + 4#64) ++ m (p + 5#64) ++ m (p + 6#64) ++ m (p + 7#64)) 8 =
      [m (p + 7#64), m (p + 6#64), m (p + 5#64), m (p + 4#64), m (p + 3#64), m (p + 2#64),
        m (p + 1#64), m (p + 0#64)] := by
    rw [wordBytes_append_byte, wordBytes_append_byte, wordBytes_append_byte, wordBytes_append_byte,
      wordBytes_append_byte, wordBytes_append_byte, wordBytes_append_byte]
    simp [wordBytes]
  rw [hbytes]
  simp [bytes, List.range_succ]

/-- Source: none: infrastructure. Kind: L -/
theorem getLsbD_foldl_or {α : Type} {w : ℕ} (f : α → BitVec w) (l : List α) (acc : BitVec w) (b : ℕ) :
    (l.foldl (fun dst i => dst ||| f i) acc).getLsbD b =
      (acc.getLsbD b || l.any fun i => (f i).getLsbD b) := by
  induction l generalizing acc with
  | nil => simp
  | cons i l ih => rw [List.foldl_cons, ih, BitVec.getLsbD_or, List.any_cons, Bool.or_assoc]

/-- Bit `b` is in byte `b / 8`, which comes from byte `15 - b / 8`.
Source: `bitmacros.h` `endianness_flip_u128`
Kind: L -/
theorem getLsbD_endiannessFlipU128 (x : BitVec 128) {b : ℕ} (hb : b < 128) :
    (endiannessFlipU128 x).getLsbD b = x.getLsbD (8 * (15 - b / 8) + b % 8) := by
  unfold endiannessFlipU128
  rw [getLsbD_foldl_or]
  have hff : ∀ t < 128, (0xFF : BitVec 128).getLsbD t = decide (t < 8) := by
    intro t ht
    show (BitVec.ofNat 128 (2 ^ 8 - 1)).getLsbD t = _
    rw [BitVec.getLsbD_ofNat, Nat.testBit_two_pow_sub_one, decide_eq_true ht, Bool.true_and]
  have hbit : ∀ i < 16, (((x >>> (8 * (15 - i))) &&& 0xFF) <<< (8 * i)).getLsbD b =
      (decide (i = b / 8) && x.getLsbD (8 * (15 - b / 8) + b % 8)) := by
    intro i hi
    rw [BitVec.getLsbD_shiftLeft, BitVec.getLsbD_and, BitVec.getLsbD_ushiftRight,
      hff _ (by omega), decide_eq_true hb, Bool.true_and]
    by_cases hib : i = b / 8
    · rw [decide_eq_true hib, decide_eq_true (by omega : b - 8 * i < 8),
        decide_eq_false (by omega : ¬ b < 8 * i), Bool.and_true, Bool.true_and, Bool.not_false,
        Bool.true_and]
      congr 1
      omega
    · rw [decide_eq_false hib, Bool.false_and]
      by_cases hlt : b < 8 * i
      · rw [decide_eq_true hlt]
        rfl
      · rw [decide_eq_false (by omega : ¬ b - 8 * i < 8), Bool.and_false, Bool.and_false]
  have hzero : (0 : BitVec 128).getLsbD b = false := BitVec.getLsbD_zero
  rw [hzero, Bool.false_or, Bool.eq_iff_iff, List.any_eq_true]
  constructor
  · rintro ⟨i, hi, hi'⟩
    rw [hbit i (List.mem_range.mp hi), Bool.and_eq_true] at hi'
    exact hi'.2
  · intro hx
    refine ⟨b / 8, List.mem_range.mpr (by omega), ?_⟩
    rw [hbit _ (by omega), hx]
    simp

/-- Source: `bitmacros.h` `READ_BIG_ENDIAN_U128`. Kind: L -/
theorem wordBytes_flipU128 (m : Mem) (p : Addr) :
    wordBytes (endiannessFlipU128 (load128 m p)) 16 = (bytes m p 16).reverse := by
  rw [← wordBytes_load128]
  refine List.ext_getElem (by simp) fun k hk hk' => ?_
  rw [length_wordBytes] at hk
  simp only [wordBytes, List.getElem_reverse, List.getElem_map, List.getElem_range,
    List.length_map, List.length_range]
  apply BitVec.eq_of_getLsbD_eq
  intro i hi
  rw [BitVec.getLsbD_extractLsb', BitVec.getLsbD_extractLsb',
    getLsbD_endiannessFlipU128 _ (by omega)]
  congr 2
  omega

/-! ## The four widths -/

/-- `ENDIANNESS_FLIP_U16(x)`: the operand is promoted to `int`, and so is the result.
Source: `bitmacros.h` `ENDIANNESS_FLIP_U16`
Kind: D
Fidelity: exact -/
def endiannessFlipU16 (x : BitVec 16) : BitVec 32 := (x.setWidth 32 >>> 8) ||| (x.setWidth 32 <<< 8)

/-- The widths of the macros.
Source: `bitmacros.h` `ENDIANNESS_FLIP_U16`, `ENDIANNESS_FLIP_U32`, `ENDIANNESS_FLIP_U64`,
`ENDIANNESS_FLIP_U128`
Kind: D -/
inductive FlipWidth
  | u16
  | u32
  | u64
  | u128
  deriving DecidableEq

/-- Source: none: infrastructure. Kind: D -/
def FlipWidth.bytes : FlipWidth → ℕ
  | .u16 => 2
  | .u32 => 4
  | .u64 => 8
  | .u128 => 16

/-- The value of the macro of each width.
Source: `bitmacros.h` `ENDIANNESS_FLIP_U16`, `ENDIANNESS_FLIP_U32`, `ENDIANNESS_FLIP_U64`,
`ENDIANNESS_FLIP_U128`
Kind: D -/
def endiannessFlip : (w : FlipWidth) → BitVec (8 * w.bytes) → ℕ
  | .u16, x => (endiannessFlipU16 x).toNat
  | .u32, x => (endiannessFlipU32 x).toNat
  | .u64, x => (endiannessFlipU64 x).toNat
  | .u128, x => (endiannessFlipU128 x).toNat

/-- The load `*(u16 *)ptr`, and so on, of the little-endian machine.
Source: `bitmacros.h` `READ_BIG_ENDIAN_U16`, `READ_BIG_ENDIAN_U32`, `READ_BIG_ENDIAN_U64`,
`READ_BIG_ENDIAN_U128`
Kind: D -/
def loadWidth : (w : FlipWidth) → Mem → Addr → BitVec (8 * w.bytes)
  | .u16, m, p => m (p + 1#64) ++ m (p + 0#64)
  | .u32, m, p => m (p + 3#64) ++ m (p + 2#64) ++ m (p + 1#64) ++ m (p + 0#64)
  | .u64, m, p => load64 m p
  | .u128, m, p => load128 m p

/-- Source: `bitmacros.h` `READ_BIG_ENDIAN_U16`, `READ_BIG_ENDIAN_U32`, `READ_BIG_ENDIAN_U64`,
`READ_BIG_ENDIAN_U128`. Kind: D -/
def readBigEndian (w : FlipWidth) (m : Mem) (ptr : Addr) : ℕ := endiannessFlip w (loadWidth w m ptr)

/-- The flipped word is the word with the bytes of `x` in the reverse order.
Source: `bitmacros.h` `ENDIANNESS_FLIP_U16` ("Flip the endianness")
Kind: D -/
def FlipReverses (w : FlipWidth) (x : BitVec (8 * w.bytes)) : Prop :=
  endiannessFlip w x = leNat (wordBytes x w.bytes).reverse

/-- **The law of the macros**: reversed bytes, in the same width, and back again.
Source: `bitmacros.h` `ENDIANNESS_FLIP_U16` ("Flip the endianness")
Kind: D -/
structure FlipExact (w : FlipWidth) (x : BitVec (8 * w.bytes)) : Prop where
  reverses : FlipReverses w x
  fits : endiannessFlip w x < 2 ^ (8 * w.bytes)
  twice : endiannessFlip w (BitVec.ofNat _ (endiannessFlip w x)) = x.toNat

section widths

variable {w : FlipWidth}

/-- Source: none: infrastructure. Kind: L -/
theorem wordBytes_loadWidth (w : FlipWidth) (m : Mem) (p : Addr) :
    wordBytes (loadWidth w m p) w.bytes = bytes m p w.bytes := by
  cases w with
  | u16 =>
      show wordBytes (m (p + 1#64) ++ m (p + 0#64)) 2 = bytes m p 2
      rw [wordBytes_append_byte]
      simp [wordBytes, bytes, List.range_succ]
  | u32 =>
      show wordBytes (m (p + 3#64) ++ m (p + 2#64) ++ m (p + 1#64) ++ m (p + 0#64)) 4 = bytes m p 4
      rw [wordBytes_append_byte, wordBytes_append_byte, wordBytes_append_byte]
      simp [wordBytes, bytes, List.range_succ]
  | u64 => exact wordBytes_load64 m p
  | u128 => exact wordBytes_load128 m p

/-- Every word can be loaded from somewhere.
Source: none: infrastructure
Kind: L -/
theorem exists_loadWidth (w : FlipWidth) (x : BitVec (8 * w.bytes)) :
    ∃ m p, loadWidth w m p = x ∧ bytes m p w.bytes = wordBytes x w.bytes := by
  refine ⟨put (fun _ => 0) 0 (wordBytes x w.bytes), 0, ?_⟩
  have hbytes : bytes (put (fun _ => 0) 0 (wordBytes x w.bytes)) 0 w.bytes = wordBytes x w.bytes := by
    have hsmall : (wordBytes x w.bytes).length ≤ 2 ^ 64 := by
      rw [length_wordBytes]
      cases w <;> decide
    have hsame := bytes_put_same (fun _ => 0) 0 hsmall
    rw [length_wordBytes] at hsame
    exact hsame
  refine ⟨BitVec.eq_of_toNat_eq ?_, hbytes⟩
  rw [toNat_eq_leNat, toNat_eq_leNat x, wordBytes_loadWidth, hbytes]

/-- **A wide big-endian read** is the big-endian number of the bytes.
Source: `bitmacros.h` `READ_BIG_ENDIAN_U32`, `READ_BIG_ENDIAN_U64`, `READ_BIG_ENDIAN_U128`
Kind: L -/
theorem readBigEndian_eq_beNat (hw : w ≠ .u16) (m : Mem) (p : Addr) :
    readBigEndian w m p = beNat (bytes m p w.bytes) := by
  unfold readBigEndian beNat
  cases w with
  | u16 => exact absurd rfl hw
  | u32 =>
      have h := wordBytes_readBigEndianU32 m p
      rw [show m p = m (p + 0#64) by rw [BitVec.add_zero]] at h
      exact (toNat_eq_leNat (k := 4) _).trans (congrArg leNat h)
  | u64 => exact (toNat_eq_leNat (k := 8) _).trans (congrArg leNat (wordBytes_flipU64 m p))
  | u128 => exact (toNat_eq_leNat (k := 16) _).trans (congrArg leNat (wordBytes_flipU128 m p))

/-- Source: none: infrastructure. Kind: L -/
theorem beNat_bytes (m : Mem) (p : Addr) (k : ℕ) :
    beNat (bytes m p k) =
      ∑ i ∈ Finset.range k, (m (p + BitVec.ofNat 64 i)).toNat * 256 ^ (k - 1 - i) := by
  rw [beNat_eq_sum, length_bytes]
  refine Finset.sum_congr rfl fun i hi => ?_
  rw [List.getD_eq_getElem?_getD, getElem?_bytes (Finset.mem_range.mp hi)]
  rfl

/-- Source: `bitmacros.h` `ENDIANNESS_FLIP_U32`, `ENDIANNESS_FLIP_U64`, `ENDIANNESS_FLIP_U128`. Kind: L -/
theorem flipReverses_of_wide (hw : w ≠ .u16) (x : BitVec (8 * w.bytes)) : FlipReverses w x := by
  obtain ⟨m, p, hload, hbytes⟩ := exists_loadWidth w x
  have h := readBigEndian_eq_beNat hw m p
  unfold readBigEndian at h
  rw [hload, hbytes] at h
  exact h

/-- **The wide macros keep the law**.
Source: `bitmacros.h` `ENDIANNESS_FLIP_U32`, `ENDIANNESS_FLIP_U64`, `ENDIANNESS_FLIP_U128`
Kind: P -/
theorem flipExact_of_wide (hw : w ≠ .u16) (x : BitVec (8 * w.bytes)) : FlipExact w x := by
  have hrev : endiannessFlip w x = leNat (wordBytes x w.bytes).reverse := flipReverses_of_wide hw x
  -- the word that is flipped again is the one with the reversed bytes
  obtain ⟨y, hy⟩ : ∃ y : BitVec (8 * w.bytes), wordBytes y w.bytes = (wordBytes x w.bytes).reverse := by
    refine ⟨loadWidth w (put (fun _ => 0) 0 (wordBytes x w.bytes).reverse) 0, ?_⟩
    have hsame := bytes_put_same (fun _ => 0) 0 (l := (wordBytes x w.bytes).reverse)
      (by rw [List.length_reverse, length_wordBytes]; cases w <;> decide)
    rw [List.length_reverse, length_wordBytes] at hsame
    rw [wordBytes_loadWidth, hsame]
  have hval : endiannessFlip w x = y.toNat := by rw [hrev, toNat_eq_leNat y, hy]
  refine ⟨hrev, by rw [hval]; exact y.isLt, ?_⟩
  rw [hval, BitVec.ofNat_toNat, BitVec.setWidth_eq, flipReverses_of_wide hw y, hy,
    List.reverse_reverse, ← toNat_eq_leNat]

end widths

/-! ## Sixteen bits -/

section sixteen

variable (x : BitVec 16)

/-- What the `int` comes to: the low byte stays where it is, too.
Source: `bitmacros.h` `ENDIANNESS_FLIP_U16`
Kind: L -/
theorem endiannessFlipU16_toNat : (endiannessFlipU16 x).toNat = x.toNat / 256 + 256 * x.toNat := by
  have hx := x.isLt
  have hwide : (x.setWidth 32).toNat = x.toNat := by
    rw [BitVec.toNat_setWidth, Nat.mod_eq_of_lt (by omega)]
  have hlow : (x.setWidth 32 >>> 8).toNat = x.toNat / 256 := by
    rw [BitVec.toNat_ushiftRight, hwide, Nat.shiftRight_eq_div_pow]
  have hhigh : (x.setWidth 32 <<< 8).toNat = x.toNat * 256 := by
    rw [BitVec.toNat_shiftLeft, hwide, Nat.shiftLeft_eq, Nat.mod_eq_of_lt (by omega)]
  rw [endiannessFlipU16, BitVec.toNat_or, hlow, hhigh, Nat.or_comm,
    show x.toNat * 256 = x.toNat <<< 8 by rw [Nat.shiftLeft_eq],
    Nat.shiftLeft_add_eq_or_of_lt (by omega) x.toNat |>.symm, Nat.shiftLeft_eq]
  omega

/-- Source: none: infrastructure. Kind: L -/
theorem reversed_two_bytes :
    leNat (wordBytes x 2).reverse = x.toNat / 256 + 256 * (x.toNat % 256) := by
  have hx := x.isLt
  have hbytes : wordBytes x 2 = [x.extractLsb' 0 8, x.extractLsb' 8 8] := by
    simp [wordBytes, List.range_succ]
  have hlow : (x.extractLsb' 0 8).toNat = x.toNat % 256 := by simp [BitVec.extractLsb']
  have hhigh : (x.extractLsb' 8 8).toNat = x.toNat / 256 := by
    rw [BitVec.extractLsb'_toNat, Nat.shiftRight_eq_div_pow]
    omega
  rw [hbytes, List.reverse_cons, List.reverse_singleton, List.singleton_append, leNat_cons, leNat_cons,
    hlow, hhigh]
  simp [leNat]

/-- Source: `bitmacros.h` `ENDIANNESS_FLIP_U16`. Kind: L -/
theorem flipReverses_u16_iff : FlipReverses .u16 x ↔ x.toNat < 256 := by
  show (endiannessFlipU16 x).toNat = leNat (wordBytes (w := 16) x 2).reverse ↔ _
  rw [endiannessFlipU16_toNat, reversed_two_bytes]
  omega

/-- Source: `bitmacros.h` `ENDIANNESS_FLIP_U16`. Kind: L -/
theorem flipExact_u16_iff : FlipExact .u16 x ↔ x = 0 := by
  constructor
  · intro h
    have hlt := (flipReverses_u16_iff x).mp h.reverses
    have htwice : (endiannessFlipU16 (BitVec.ofNat 16 (endiannessFlipU16 x).toNat)).toNat = x.toNat :=
      h.twice
    rw [endiannessFlipU16_toNat, endiannessFlipU16_toNat, BitVec.toNat_ofNat, Nat.div_eq_of_lt hlt,
      Nat.mod_eq_of_lt (by omega : 0 + 256 * x.toNat < 2 ^ 16)] at htwice
    exact BitVec.eq_of_toNat_eq (show x.toNat = 0 by omega)
  · rintro rfl
    exact ⟨(flipReverses_u16_iff 0).mpr (by decide), by decide, by decide⟩

/-- Source: `bitmacros.h` `READ_BIG_ENDIAN_U16`. Kind: L -/
theorem readBigEndian_u16_iff (m : Mem) (ptr : Addr) :
    readBigEndian .u16 m ptr = beNat (bytes m ptr 2) ↔ m (ptr + 1) = 0 := by
  have hbytes : bytes m ptr 2 = [m ptr, m (ptr + 1)] := by simp [bytes, List.range_succ]
  have hword : wordBytes (w := 16) (m (ptr + 1#64) ++ m (ptr + 0#64)) 2 = bytes m ptr 2 :=
    wordBytes_loadWidth .u16 m ptr
  have hload : (m (ptr + 1#64) ++ m (ptr + 0#64) : BitVec 16).toNat =
      (m ptr).toNat + 256 * (m (ptr + 1)).toNat := by
    have h := toNat_eq_leNat (k := 2) (m (ptr + 1#64) ++ m (ptr + 0#64))
    rw [hword, hbytes, leNat_cons, leNat_cons] at h
    simpa [leNat] using h
  have hread := flipReverses_u16_iff (m (ptr + 1#64) ++ m (ptr + 0#64))
  have hb := (m ptr).isLt
  rw [hload] at hread
  refine Iff.trans ?_ (hread.trans ⟨fun h => BitVec.eq_of_toNat_eq (y := 0#8) ?_, fun h => ?_⟩)
  · unfold beNat
    rw [← hword]
    rfl
  · show (m (ptr + 1)).toNat = 0
    omega
  · rw [h]
    show (m ptr).toNat + 256 * 0 < 256
    omega

end sixteen

/-- **Every width but 16 is exact**. At 16 bits the bytes are reversed only for a word below 256, the law
holds only for 0, and a big-endian read is right only when the second byte is 0.
Source: `bitmacros.h` `ENDIANNESS_FLIP_U16`, `READ_BIG_ENDIAN_U16`
Kind: P -/
theorem flipExact_iff_and_readBigEndian_iff (w : FlipWidth) :
    (∀ x, FlipReverses w x ↔ (w = .u16 → x.toNat < 256)) ∧
    (∀ x, FlipExact w x ↔ (w = .u16 → x.toNat = 0)) ∧
    ∀ (m : Mem) (ptr : Addr), readBigEndian w m ptr =
        (∑ i ∈ Finset.range w.bytes, (m (ptr + BitVec.ofNat 64 i)).toNat * 256 ^ (w.bytes - 1 - i)) ↔
      (w = .u16 → m (ptr + 1) = 0) := by
  by_cases hw : w = .u16
  · subst hw
    refine ⟨fun x => ?_, fun x => ?_, fun m ptr => ?_⟩
    · rw [flipReverses_u16_iff x]
      exact ⟨fun h _ => h, fun h => h rfl⟩
    · rw [flipExact_u16_iff x]
      exact ⟨fun h _ => by rw [h]; rfl, fun h => BitVec.eq_of_toNat_eq (h rfl)⟩
    · rw [← beNat_bytes]
      exact (readBigEndian_u16_iff m ptr).trans ⟨fun h _ => h, fun h => h rfl⟩
  · refine ⟨fun x => ?_, fun x => ?_, fun m ptr => ?_⟩
    · exact iff_of_true (flipReverses_of_wide hw x) fun h => absurd h hw
    · exact iff_of_true (flipExact_of_wide hw x) fun h => absurd h hw
    · rw [← beNat_bytes]
      exact iff_of_true (readBigEndian_eq_beNat hw m ptr) fun h => absurd h hw

/-- **`0x1234`** comes out as `0x123412`, which does not fit in 16 bits.
Source: `bitmacros.h` `ENDIANNESS_FLIP_U16`
Kind: C -/
theorem not_flipExact_u16 :
    endiannessFlip .u16 (0x1234 : BitVec 16) = 0x123412 ∧ ¬ FlipExact .u16 (0x1234 : BitVec 16) := by
  refine ⟨by decide, fun h => ?_⟩
  have hzero := (flipExact_u16_iff 0x1234).mp h
  exact absurd hzero (by decide)

end Octiron.Kzadhbat
