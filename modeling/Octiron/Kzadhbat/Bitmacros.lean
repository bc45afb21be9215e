import Octiron.Found.Memory

/-!
# Alignment macros and the byte loops of the freestanding libc

* `alignDown`, `alignUp` — `ALIGN_DOWN` and `ALIGN_UP`, in wrapping 64-bit arithmetic, with their
  exact-integer values at a power-of-two alignment (`alignDown_toNat`, `alignUp_toNat`).
* `basePageSize` — `BASE_PAGE_SIZE`.
* `memset`, `memcpy`, `strlen` — the loops of `impl.c`, and what they compute (`memset_eq_fill`,
  `memcpy_apply`, `strlen_of_cstringAt`); `memcpyFrom` is the loop with its source in the same memory,
  a copy exactly when the source repeats up to the destination (`memcpyFrom_copies_iff`).
* `endiannessFlipU32`, `readBigEndianU32` — the big-endian 32-bit read (`readBigEndianU32_eq`);
  `endiannessFlipU64` — 64-bit words (`endiannessFlipU64_append`).
-/

namespace Octiron.Kzadhbat

open Octiron.Found

/-! ## Alignment -/

/-- Source: `bitmacros.h` `ALIGN_DOWN`. Kind: D -/
def alignDown (x align : BitVec 64) : BitVec 64 := x &&& ~~~(align - 1)

/-- Source: `bitmacros.h` `ALIGN_UP`. Kind: D -/
def alignUp (x align : BitVec 64) : BitVec 64 := (x + (align - 1)) &&& ~~~(align - 1)

/-- Source: `riscv.h` `BASE_PAGE_SIZE`. Kind: D -/
def basePageSize : BitVec 64 := 4096

/-- Clearing the low bits is dividing and multiplying back.
Source: none: infrastructure
Kind: L -/
theorem alignDown_toNat (x : BitVec 64) {align : BitVec 64} {k : ℕ} (hk : align.toNat = 2 ^ k) :
    (alignDown x align).toNat = x.toNat / 2 ^ k * 2 ^ k := by
  have hk64 : k < 64 := by
    by_contra h
    have := align.isLt
    have hpow : 2 ^ 64 ≤ 2 ^ k := Nat.pow_le_pow_right (by norm_num) (by omega)
    omega
  have hpos : 1 ≤ 2 ^ k := Nat.one_le_two_pow
  have hmask : (align - 1).toNat = 2 ^ k - 1 := by
    have hone : (1 : BitVec 64) ≤ align := by
      rw [BitVec.le_def, hk]
      exact hpos
    rw [BitVec.toNat_sub_of_le hone, hk]
    rfl
  have hshift : alignDown x align = (x >>> k) <<< k := by
    apply BitVec.eq_of_getLsbD_eq
    intro i hi
    have hbit : (align - 1).getLsbD i = decide (i < k) := by
      rw [← BitVec.testBit_toNat, hmask, Nat.testBit_two_pow_sub_one]
    rw [alignDown, BitVec.getLsbD_and, BitVec.getLsbD_not, hbit, BitVec.getLsbD_shiftLeft,
      BitVec.getLsbD_ushiftRight]
    by_cases hik : i < k
    · simp [hik]
    · have : k + (i - k) = i := by omega
      simp [hi, hik, this]
  rw [hshift, BitVec.toNat_shiftLeft, BitVec.toNat_ushiftRight, Nat.shiftRight_eq_div_pow,
    Nat.shiftLeft_eq]
  have := Nat.div_mul_le_self x.toNat (2 ^ k)
  exact Nat.mod_eq_of_lt (by omega)

/-- Source: none: infrastructure. Kind: L -/
theorem alignUp_toNat {x align : BitVec 64} {k : ℕ} (hk : align.toNat = 2 ^ k)
    (hx : x.toNat + (2 ^ k - 1) < 2 ^ 64) :
    (alignUp x align).toNat = (x.toNat + (2 ^ k - 1)) / 2 ^ k * 2 ^ k := by
  have hpos : 1 ≤ 2 ^ k := Nat.one_le_two_pow
  have hone : (1 : BitVec 64) ≤ align := by
    rw [BitVec.le_def, hk]
    exact hpos
  have hsum : (x + (align - 1)).toNat = x.toNat + (2 ^ k - 1) := by
    have hone' : (1 : BitVec 64).toNat = 1 := rfl
    rw [BitVec.toNat_add, BitVec.toNat_sub_of_le hone, hk, hone', Nat.mod_eq_of_lt hx]
  have := alignDown_toNat (x + (align - 1)) hk
  rwa [hsum] at this

theorem basePageSize_toNat : basePageSize.toNat = 2 ^ 12 := rfl

/-- `ALIGN_DOWN` to a page, as an integer.
Source: none: infrastructure
Kind: L -/
theorem alignDown_page_toNat (x : BitVec 64) :
    (alignDown x basePageSize).toNat = x.toNat / 4096 * 4096 :=
  alignDown_toNat x basePageSize_toNat

/-- `ALIGN_UP` to a page, as an integer, when it does not wrap.
Source: none: infrastructure
Kind: L -/
theorem alignUp_page_toNat {x : BitVec 64} (hx : x.toNat + 4095 < 2 ^ 64) :
    (alignUp x basePageSize).toNat = (x.toNat + 4095) / 4096 * 4096 :=
  alignUp_toNat basePageSize_toNat hx

/-- A multiple of the page size is its own `ALIGN_DOWN`.
Source: none: infrastructure
Kind: L -/
theorem alignDown_page_of_dvd {x : BitVec 64} (hx : 4096 ∣ x.toNat) : alignDown x basePageSize = x := by
  apply BitVec.eq_of_toNat_eq
  rw [alignDown_page_toNat, Nat.div_mul_cancel hx]

/-- A multiple of the page size is its own `ALIGN_UP`.
Source: none: infrastructure
Kind: L -/
theorem alignUp_page_of_dvd {x : BitVec 64} (hx : 4096 ∣ x.toNat) : alignUp x basePageSize = x := by
  have hlt := x.isLt
  apply BitVec.eq_of_toNat_eq
  rw [alignUp_page_toNat (by omega)]
  omega

/-! ## `memset` and `memcpy` -/

/-- The loop `for (i = 0; i < count; i++) dst[i] = ch`, started at index `i` with `n` rounds left.
Source: `impl.c` `memset`
Kind: D -/
def memsetLoop (m : Mem) (dest : Addr) (ch : BitVec 8) (i : ℕ) : ℕ → Mem
  | 0 => m
  | n + 1 => memsetLoop (Function.update m (dest + BitVec.ofNat 64 i) ch) dest ch (i + 1) n

/-- Source: `impl.c` `memset`. Kind: D -/
def memset (m : Mem) (dest : Addr) (ch : BitVec 8) (count : BitVec 64) : Mem :=
  memsetLoop m dest ch 0 count.toNat

/-- The loop `for (i = 0; i < count; i++) d[i] = s[i]`, started at index `i` with `n` rounds left, from
a source whose bytes are given: one that the loop does not write to (`memcpyFrom_eq_memcpy`).
Source: `impl.c` `memcpy`
Kind: D -/
def memcpyLoop (m : Mem) (dest : Addr) (src : ℕ → BitVec 8) (i : ℕ) : ℕ → Mem
  | 0 => m
  | n + 1 => memcpyLoop (Function.update m (dest + BitVec.ofNat 64 i) (src i)) dest src (i + 1) n

/-- Source: `impl.c` `memcpy`. Kind: D -/
def memcpy (m : Mem) (dest : Addr) (src : ℕ → BitVec 8) (count : BitVec 64) : Mem :=
  memcpyLoop m dest src 0 count.toNat

/-- Source: none: infrastructure. Kind: L -/
theorem memcpyLoop_apply (m : Mem) (dest : Addr) (src : ℕ → BitVec 8) (i n : ℕ)
    (h : i + n ≤ 2 ^ 64) (x : Addr) :
    memcpyLoop m dest src i n x =
      if i ≤ (x - dest).toNat ∧ (x - dest).toNat < i + n then src (x - dest).toNat else m x := by
  induction n generalizing m i with
  | zero =>
      have hempty : ¬ (i ≤ (x - dest).toNat ∧ (x - dest).toNat < i + 0) := by omega
      rw [memcpyLoop, if_neg hempty]
  | succ n ih =>
      rw [memcpyLoop, ih _ _ (by omega)]
      by_cases hx : x = dest + BitVec.ofNat 64 i
      · have hoff : (x - dest).toNat = i := by
          rw [hx, Mem.add_ofNat_sub_toNat dest (by omega)]
        have hin : i ≤ (x - dest).toNat ∧ (x - dest).toNat < i + (n + 1) := by omega
        have hout : ¬ (i + 1 ≤ (x - dest).toNat ∧ (x - dest).toNat < i + 1 + n) := by omega
        rw [if_pos hin, if_neg hout, hoff, hx, Function.update_self]
      · have hoff : (x - dest).toNat ≠ i := by
          intro heq
          apply hx
          rw [← heq, BitVec.ofNat_toNat, BitVec.setWidth_eq, BitVec.add_comm, BitVec.sub_add_cancel]
        rw [Function.update_of_ne hx]
        have hiff : (i + 1 ≤ (x - dest).toNat ∧ (x - dest).toNat < i + 1 + n) ↔
            (i ≤ (x - dest).toNat ∧ (x - dest).toNat < i + (n + 1)) := by omega
        simp only [hiff]

/-- What `memcpy` leaves at each address.
Source: none: infrastructure
Kind: L -/
theorem memcpy_apply (m : Mem) (dest : Addr) (src : ℕ → BitVec 8) (count : BitVec 64) (x : Addr) :
    memcpy m dest src count x =
      if (x - dest).toNat < count.toNat then src (x - dest).toNat else m x := by
  have hlt := count.isLt
  rw [memcpy, memcpyLoop_apply _ _ _ _ _ (by omega)]
  simp only [Nat.zero_le, true_and, Nat.zero_add]

/-- `memset` is a copy of a constant.
Source: none: infrastructure
Kind: L -/
theorem memset_eq_memcpy (m : Mem) (dest : Addr) (ch : BitVec 8) (count : BitVec 64) :
    memset m dest ch count = memcpy m dest (fun _ => ch) count := by
  have hloop : ∀ (n i : ℕ) (m : Mem),
      memsetLoop m dest ch i n = memcpyLoop m dest (fun _ => ch) i n := by
    intro n
    induction n with
    | zero => exact fun _ _ => rfl
    | succ n ih => exact fun i m => ih (i + 1) _
  exact hloop _ _ _

/-- `memset` is the constant fill.
Source: none: infrastructure
Kind: L -/
theorem memset_eq_fill (m : Mem) (dest : Addr) (ch : BitVec 8) (count : BitVec 64) :
    memset m dest ch count = Mem.fill m dest count.toNat ch := by
  funext x
  rw [memset_eq_memcpy, memcpy_apply]
  rfl

/-! ## `memcpy` by address -/

/-- The loop of `memcpy` with the source in the memory that it writes, so that a round reads what the
rounds before it have stored.
Source: `impl.c` `memcpy`
Kind: D -/
def memcpyFromLoop (m : Mem) (dest src : Addr) (i : ℕ) : ℕ → Mem
  | 0 => m
  | n + 1 => memcpyFromLoop
      (Function.update m (dest + BitVec.ofNat 64 i) (m (src + BitVec.ofNat 64 i))) dest src (i + 1) n

/-- Source: `impl.c` `memcpy`. Kind: D -/
def memcpyFrom (m : Mem) (dest src : Addr) (count : BitVec 64) : Mem :=
  memcpyFromLoop m dest src 0 count.toNat

/-- The byte that round `i` of the loop reads: where `dest` lies `d` bytes behind `src`, the first `d`
bytes of the source come again and again.
Source: none: infrastructure
Kind: D -/
def forwardByte (m : Mem) (dest src : Addr) (i : ℕ) : BitVec 8 :=
  m (src + BitVec.ofNat 64 (i % (dest - src).toNat))

/-- **The first `n` bytes at `src` repeat** with the distance from `src` to `dest`, as far as they go: there
is nothing to repeat when `dest` is at least `n` bytes behind `src`, or at or before it.
Source: none: infrastructure
Kind: D -/
def RepeatsTo (m : Mem) (dest src : Addr) (n : ℕ) : Prop :=
  ∀ i, i + (dest - src).toNat < n →
    m (src + BitVec.ofNat 64 (i + (dest - src).toNat)) = m (src + BitVec.ofNat 64 i)

section memcpyFrom

variable {m : Mem} {dest src : Addr}

/-- Source: none: infrastructure. Kind: L -/
theorem forwardByte_of_lt {i : ℕ} (hi : i < (dest - src).toNat) :
    forwardByte m dest src i = m (src + BitVec.ofNat 64 i) := by
  rw [forwardByte, Nat.mod_eq_of_lt hi]

/-- Source: none: infrastructure. Kind: L -/
theorem forwardByte_add (i : ℕ) :
    forwardByte m dest src (i + (dest - src).toNat) = forwardByte m dest src i := by
  rw [forwardByte, forwardByte, Nat.add_mod_right]

/-- Source: none: infrastructure. Kind: L -/
theorem forwardByte_self (h : (dest - src).toNat = 0) (i : ℕ) :
    forwardByte m dest src i = m (src + BitVec.ofNat 64 i) := by
  rw [forwardByte, h, Nat.mod_zero]

/-- How far a byte of the source is from `dest`.
Source: none: infrastructure
Kind: L -/
theorem src_add_sub_toNat {i : ℕ} (hi : i < 2 ^ 64) :
    (src + BitVec.ofNat 64 i - dest).toNat =
      if i < (dest - src).toNat then i + 2 ^ 64 - (dest - src).toNat
      else i - (dest - src).toNat := by
  have hlt := (dest - src).isLt
  have hsub : src + BitVec.ofNat 64 i - dest = BitVec.ofNat 64 i - (dest - src) := by
    generalize BitVec.ofNat 64 i = k
    bv_omega
  rw [hsub, BitVec.toNat_sub, BitVec.toNat_ofNat, Nat.mod_eq_of_lt hi]
  split_ifs <;> omega

/-- **One round**: behind `i` rounds, the byte `i` of the source is `forwardByte`.
Source: none: infrastructure
Kind: L -/
theorem memcpyLoop_forwardByte {i : ℕ} (hi : i < 2 ^ 64) :
    memcpyLoop m dest (forwardByte m dest src) 0 i (src + BitVec.ofNat 64 i) =
      forwardByte m dest src i := by
  rw [memcpyLoop_apply _ _ _ _ _ (by omega), src_add_sub_toNat hi]
  by_cases hlt : i < (dest - src).toNat
  · rw [if_pos hlt, if_neg (by omega), forwardByte_of_lt hlt]
  · rw [if_neg hlt]
    by_cases h0 : (dest - src).toNat = 0
    · rw [h0, Nat.sub_zero, if_neg (by omega), forwardByte_self h0]
    · -- the byte has been written `dest - src` rounds ago
      rw [if_pos (by omega), ← forwardByte_add, Nat.sub_add_cancel (Nat.not_lt.mp hlt)]

/-- Source: none: infrastructure. Kind: L -/
theorem memcpyLoop_succ_right (m : Mem) (dest : Addr) (bytes : ℕ → BitVec 8) (i n : ℕ) :
    memcpyLoop m dest bytes i (n + 1) =
      Function.update (memcpyLoop m dest bytes i n) (dest + BitVec.ofNat 64 (i + n)) (bytes (i + n)) := by
  induction n generalizing m i with
  | zero => rfl
  | succ n ih =>
      rw [memcpyLoop, ih, ← memcpyLoop, Nat.add_right_comm, Nat.add_assoc]

/-- **The loop by address**, as a copy of the bytes that its rounds read.
Source: `impl.c` `memcpy`
Kind: L -/
theorem memcpyFrom_eq_forwardByte (m : Mem) (dest src : Addr) (count : BitVec 64) :
    memcpyFrom m dest src count = memcpy m dest (forwardByte m dest src) count := by
  have hloop : ∀ n i, i + n ≤ 2 ^ 64 →
      memcpyFromLoop (memcpyLoop m dest (forwardByte m dest src) 0 i) dest src i n =
        memcpyLoop m dest (forwardByte m dest src) 0 (i + n) := by
    intro n
    induction n with
    | zero => exact fun i _ => rfl
    | succ n ih =>
        intro i hi
        rw [memcpyFromLoop, memcpyLoop_forwardByte (by omega)]
        have hround := memcpyLoop_succ_right m dest (forwardByte m dest src) 0 i
        rw [Nat.zero_add] at hround
        rw [← hround, ih _ (by omega), Nat.add_right_comm, Nat.add_assoc]
  have hlt := count.isLt
  have hall := hloop count.toNat 0 (by omega)
  rw [Nat.zero_add] at hall
  exact hall

/-- **The copy is the source's bytes exactly when they repeat** up to `dest`.
Source: none: infrastructure
Kind: L -/
theorem forwardByte_eq_iff {n : ℕ} :
    (∀ i < n, forwardByte m dest src i = m (src + BitVec.ofNat 64 i)) ↔ RepeatsTo m dest src n := by
  constructor
  · intro h i hi
    rw [← h _ hi, ← h i (by omega), forwardByte_add]
  · intro h i
    induction i using Nat.strong_induction_on with
    | _ i ih =>
        intro hi
        by_cases h0 : (dest - src).toNat = 0
        · exact forwardByte_self h0 i
        · by_cases hlt : i < (dest - src).toNat
          · exact forwardByte_of_lt hlt
          · have hback : i - (dest - src).toNat + (dest - src).toNat = i :=
              Nat.sub_add_cancel (Nat.not_lt.mp hlt)
            have hprev := ih (i - (dest - src).toNat) (by omega) (by omega)
            have hrep := h (i - (dest - src).toNat) (by omega)
            rw [hback] at hrep
            rw [hrep, ← hprev, ← forwardByte_add (i - (dest - src).toNat), hback]

/-- **`memcpy` of a source that it does not overtake** copies the bytes that were there.
Source: `impl.c` `memcpy`
Kind: L -/
theorem memcpyFrom_eq_memcpy {count : BitVec 64} (h : RepeatsTo m dest src count.toNat) :
    memcpyFrom m dest src count = memcpy m dest (fun i => m (src + BitVec.ofNat 64 i)) count := by
  funext x
  rw [memcpyFrom_eq_forwardByte, memcpy_apply, memcpy_apply]
  by_cases hx : (x - dest).toNat < count.toNat
  · rw [if_pos hx, if_pos hx]
    exact forwardByte_eq_iff.mpr h _ hx
  · rw [if_neg hx, if_neg hx]

/-- **What a copy is for** holds exactly when the source repeats up to `dest`.
Source: `impl.c` `memcpy`
Kind: P -/
theorem memcpyFrom_copies_iff {count : BitVec 64} :
    (∀ i < count.toNat,
        memcpyFrom m dest src count (dest + BitVec.ofNat 64 i) = m (src + BitVec.ofNat 64 i)) ↔
      RepeatsTo m dest src count.toNat := by
  have hlt := count.isLt
  rw [← forwardByte_eq_iff]
  refine forall₂_congr fun i hi => ?_
  rw [memcpyFrom_eq_forwardByte, memcpy_apply, Mem.add_ofNat_sub_toNat _ (by omega), if_pos hi]

end memcpyFrom

/-! ## `strlen` -/

/-- The loop `while (*end != 0) ++end`, at most once round the address space: how far it goes.
Source: `impl.c` `strlen`
Kind: D -/
def strlenLoop (m : Mem) : ℕ → Addr → ℕ
  | 0, _ => 0
  | n + 1, p => if m p = 0 then 0 else strlenLoop m n (p + 1) + 1

/-- Source: `impl.c` `strlen`. Kind: D -/
def strlen (m : Mem) (str : Addr) : ℕ := strlenLoop m (2 ^ 64) str

/-- The bytes of `l` are at `p`.
Source: none: infrastructure
Kind: D -/
def BytesAt (m : Mem) (p : Addr) (l : List (BitVec 8)) : Prop :=
  ∀ i b, l[i]? = some b → m (p + BitVec.ofNat 64 i) = b

/-- The string `l` is at `p`, with a zero behind it.
Source: none: infrastructure
Kind: D -/
def CStringAt (m : Mem) (p : Addr) (l : List (BitVec 8)) : Prop := BytesAt m p (l ++ [0])

/-- Source: none: infrastructure. Kind: L -/
theorem bytesAt_cons {m : Mem} {p : Addr} {b : BitVec 8} {l : List (BitVec 8)} :
    BytesAt m p (b :: l) ↔ m p = b ∧ BytesAt m (p + 1) l := by
  have hshift : ∀ i, p + BitVec.ofNat 64 (i + 1) = p + 1 + BitVec.ofNat 64 i := by
    intro i
    rw [BitVec.add_assoc, Nat.add_comm, BitVec.ofNat_add]
    rfl
  constructor
  · intro h
    refine ⟨?_, fun i c hc => ?_⟩
    · simpa using h 0 b rfl
    · rw [← hshift]
      exact h (i + 1) c hc
  · rintro ⟨hb, hl⟩ i c hc
    cases i with
    | zero =>
        cases hc
        simpa using hb
    | succ i =>
        rw [hshift]
        exact hl i c hc

/-- **`strlen`** of a string without zero bytes.
Source: `impl.c` `strlen`
Kind: L -/
theorem strlen_of_cstringAt {m : Mem} {p : Addr} {l : List (BitVec 8)} (h : CStringAt m p l)
    (hl : 0 ∉ l) (hlen : l.length < 2 ^ 64) : strlen m p = l.length := by
  have hloop : ∀ (l : List (BitVec 8)) (p : Addr) (n : ℕ), CStringAt m p l → 0 ∉ l →
      l.length < n → strlenLoop m n p = l.length := by
    intro l
    induction l with
    | nil =>
        intro p n h _ hn
        obtain ⟨n, rfl⟩ := Nat.exists_eq_add_of_lt hn
        rw [strlenLoop, if_pos (bytesAt_cons.mp h).1]
        rfl
    | cons b l ih =>
        intro p n h hl hn
        obtain ⟨n, rfl⟩ := Nat.exists_eq_add_of_lt hn
        obtain ⟨hb, htail⟩ := bytesAt_cons.mp h
        rw [List.mem_cons, not_or] at hl
        have hne : ¬ m p = 0 := by
          rw [hb]
          exact fun hb0 => hl.1 hb0.symm
        rw [strlenLoop, if_neg hne, ih _ _ htail hl.2 (by rw [List.length_cons]; omega),
          List.length_cons]
  exact hloop l p _ h hl hlen

/-- Two strings at one place are equal.
Source: none: infrastructure
Kind: L -/
theorem cstringAt_inj {m : Mem} {q : Addr} {s s' : List (BitVec 8)} (h : CStringAt m q s) (h' : CStringAt m q s')
    (hs : 0 ∉ s) (hs' : 0 ∉ s') : s = s' := by
  unfold CStringAt at h h'
  induction s generalizing q s' with
  | nil =>
      cases s' with
      | nil => rfl
      | cons b s' =>
          have hb : b = 0 := (bytesAt_cons.mp h').1.symm.trans (bytesAt_cons.mp h).1
          rw [hb] at hs'
          exact absurd List.mem_cons_self hs'
  | cons b s ih =>
      obtain ⟨hb, htail⟩ := bytesAt_cons.mp h
      cases s' with
      | nil =>
          have hb : b = 0 := hb.symm.trans (bytesAt_cons.mp h').1
          rw [hb] at hs
          exact absurd List.mem_cons_self hs
      | cons b' s' =>
          obtain ⟨hb', htail'⟩ := bytesAt_cons.mp h'
          rw [← hb, ← hb', ih htail htail' (fun hmem => hs (List.mem_cons_of_mem _ hmem))
            fun hmem => hs' (List.mem_cons_of_mem _ hmem)]

/-! ## Endianness -/

/-- Source: `bitmacros.h` `ENDIANNESS_FLIP_U32`. Kind: D -/
def endiannessFlipU32 (x : BitVec 32) : BitVec 32 :=
  ((x >>> 24) &&& 0x000000FF) ||| ((x >>> 8) &&& 0x0000FF00) ||| ((x <<< 8) &&& 0x00FF0000) |||
    ((x <<< 24) &&& 0xFF000000)

/-- The four bytes at `ptr` as `*(u32 *)ptr` reads them, flipped.
Source: `bitmacros.h` `READ_BIG_ENDIAN_U32`
Kind: D -/
def readBigEndianU32 (b₀ b₁ b₂ b₃ : BitVec 8) : BitVec 32 :=
  endiannessFlipU32 (b₃ ++ b₂ ++ b₁ ++ b₀)

/-- The first byte is the most significant one.
Source: none: infrastructure
Kind: L -/
theorem readBigEndianU32_eq (b₀ b₁ b₂ b₃ : BitVec 8) :
    readBigEndianU32 b₀ b₁ b₂ b₃ = b₀ ++ b₁ ++ b₂ ++ b₃ := by
  apply BitVec.eq_of_getLsbD_eq
  intro i hi
  unfold readBigEndianU32 endiannessFlipU32
  simp only [BitVec.getLsbD_or, BitVec.getLsbD_and, BitVec.getLsbD_ushiftRight,
    BitVec.getLsbD_shiftLeft, BitVec.getLsbD_append]
  interval_cases i <;> simp

/-- Source: `bitmacros.h` `ENDIANNESS_FLIP_U64`. Kind: D -/
def endiannessFlipU64 (x : BitVec 64) : BitVec 64 :=
  ((x >>> 56) &&& 0x00000000000000FF) ||| ((x >>> 40) &&& 0x000000000000FF00) |||
    ((x >>> 24) &&& 0x0000000000FF0000) ||| ((x >>> 8) &&& 0x00000000FF000000) |||
    ((x <<< 8) &&& 0x000000FF00000000) ||| ((x <<< 24) &&& 0x0000FF0000000000) |||
    ((x <<< 40) &&& 0x00FF000000000000) ||| ((x <<< 56) &&& 0xFF00000000000000)

/-- Flipping reverses the bytes.
Source: none: infrastructure
Kind: L -/
theorem endiannessFlipU64_append (b₀ b₁ b₂ b₃ b₄ b₅ b₆ b₇ : BitVec 8) :
    endiannessFlipU64 (b₇ ++ b₆ ++ b₅ ++ b₄ ++ b₃ ++ b₂ ++ b₁ ++ b₀) =
      b₀ ++ b₁ ++ b₂ ++ b₃ ++ b₄ ++ b₅ ++ b₆ ++ b₇ := by
  apply BitVec.eq_of_getLsbD_eq
  intro i hi
  unfold endiannessFlipU64
  simp only [BitVec.getLsbD_or, BitVec.getLsbD_and, BitVec.getLsbD_ushiftRight,
    BitVec.getLsbD_shiftLeft, BitVec.getLsbD_append]
  interval_cases i <;> simp

/-- `endianness_flip_u128`: byte `i` of the result is byte `15 - i` of `x`.
Source: `bitmacros.h` `endianness_flip_u128`
Kind: D -/
def endiannessFlipU128 (x : BitVec 128) : BitVec 128 :=
  (List.range 16).foldl (fun dst i => dst ||| (((x >>> (8 * (15 - i))) &&& 0xFF) <<< (8 * i))) 0

/-! ## Comparing strings -/

/-- `strcmp(p, str) == 0`, for a literal `str` without a zero byte.
Source: `impl.c` `strcmp`
Kind: D -/
def strcmpEq (m : Mem) (p : Addr) (str : List (BitVec 8)) : Bool :=
  (List.range (str.length + 1)).all fun i => m (p + BitVec.ofNat 64 i) = (str ++ [0]).getD i 0

/-- `strncmp(p, str, strlen(str)) == 0`, for a literal `str` without a zero byte.
Source: `impl.c` `strncmp`
Kind: D -/
def strncmpEq (m : Mem) (p : Addr) (str : List (BitVec 8)) : Bool :=
  (List.range str.length).all fun i => m (p + BitVec.ofNat 64 i) = str.getD i 0

end Octiron.Kzadhbat
