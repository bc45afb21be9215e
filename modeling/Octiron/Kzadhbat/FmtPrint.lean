import Octiron.Kzadhbat.Bitmacros

/-!
# Printing integers

`fmtprint.c`: `strlib_print_int` writes the digits of a number from the end of a static buffer of 67 bytes
forward, then the prefix of the base, and prints what is there. The buffer is not cleared between calls.

* `PrintState` — the buffer, the characters that have been printed, and the indices of the buffer that
  have been written and read.
* `strlibPrintInt` — the function. An index that is not in the buffer stops it with `outOfBounds`.
* `intText` — what a number is to be printed as: `basePrefix`, then `intDigits`, which `readDigits` reads
  back (`readDigits_intDigits`).
* `Filled buf j t` — the buffer from index `j` on: the text `t`, then the terminator. One store moves it
  one index down (`bufStore_filled`).
* **Main result** (`printInts_exact`): any calls in a row print the texts of their numbers, inside the
  buffer.
-/

namespace Octiron.Kzadhbat

open Octiron.Found

/-! ## The buffer -/

/-- A character.
Source: none: infrastructure
Kind: D -/
def charCode (c : Char) : BitVec 8 := BitVec.ofNat 8 c.toNat

/-- How printing can fail.
Source: `fmtprint.c` `strlib_print_int`, `strlib_formatted_print`
Kind: D -/
inductive PrintStop
  /-- An index that is not in `buf`, or not in the string of the digits. -/
  | outOfBounds
  | divisionByZero
  /-- `va_arg` when no argument is left. -/
  | noArgument
  deriving DecidableEq

/-- Source: `fmtprint.c` `MAX_INT_BUF_SIZE`. Kind: D -/
def maxIntBufSize : ℕ := 67

/-- Source: `fmtprint.c` `strlib_print_int`. Kind: D -/
structure PrintState where
  /-- The static `buf` of `strlib_print_int`. -/
  buf : List (BitVec 8)
  /-- The characters that `putchar_func` has been called with. -/
  out : List (BitVec 8)
  /-- The indices of `buf` that have been written, and those that have been read. -/
  writes : List (BitVec 64)
  reads : List (BitVec 64)
  deriving DecidableEq

/-- Before the first call.
Source: `fmtprint.c` `strlib_print_int`
Kind: D -/
def PrintState.init : PrintState := ⟨List.replicate maxIntBufSize 0, [], [], []⟩

/-- `putchar_func(c)`.
Source: `fmtprint.c` `putchar_func`
Kind: D -/
def PrintState.putchar (st : PrintState) (c : BitVec 8) : PrintState := { st with out := st.out ++ [c] }

/-- `buf[i] = c`.
Source: `fmtprint.c` `strlib_print_int`
Kind: D -/
def bufStore (st : PrintState) (i : BitVec 64) (c : BitVec 8) : Except PrintStop PrintState :=
  if i.toNat < maxIntBufSize then
    .ok { st with buf := st.buf.set i.toNat c, writes := st.writes ++ [i] }
  else .error .outOfBounds

/-- The loop of `strlib_print_str(&buf[i])`, where the bytes from `i` to the end of `buf` are given.
Source: `fmtprint.c` `strlib_print_str`
Kind: D -/
def bufPrint : BitVec 64 → List (BitVec 8) → PrintState → Except PrintStop PrintState
  | _, [], _ => .error .outOfBounds
  | i, c :: rest, st =>
      let st := { st with reads := st.reads ++ [i] }
      if c = 0 then .ok st else bufPrint (i + 1) rest (st.putchar c)

/-! ## `strlib_print_int` -/

/-- Source: `fmtprint.c` `strlib_print_int`. Kind: D -/
def digitChars : List (BitVec 8) := "0123456789ABCDEFGHIJKLMNOPQRSTUVWXYZ".toList.map charCode

/-- The loop `while (val && i)`, which gives `i`.
Source: `fmtprint.c` `strlib_print_int`
Kind: D
Fidelity: exact -/
def printDigits (base : BitVec 64) : ℕ → BitVec 64 → PrintState → Except PrintStop (ℕ × PrintState)
  | 0, _, st => .ok (0, st)
  | i + 1, val, st =>
      if val = 0 then .ok (i + 1, st)
      else if base = 0 then .error .divisionByZero
      else
        match (digitChars ++ [0])[(val % base).toNat]? with
        | none => .error .outOfBounds
        | some c =>
          match bufStore st (BitVec.ofNat 64 (i + 1)) c with
          | .error stop => .error stop
          | .ok st => printDigits base i (val / base) st

/-- The letter of the prefix.
Source: `fmtprint.c` `strlib_print_int`
Kind: D -/
def baseLetter (base : BitVec 64) : Option (BitVec 8) :=
  if base = 16 then some (charCode 'x')
  else if base = 8 then some (charCode 'o')
  else if base = 2 then some (charCode 'b')
  else none

/-- The `switch` at `base_compute`, which gives `i`.
Source: `fmtprint.c` `strlib_print_int`
Kind: D
Fidelity: exact -/
def printPrefix (base i : BitVec 64) (st : PrintState) : Except PrintStop (BitVec 64 × PrintState) :=
  match baseLetter base with
  | none => .ok (i, st)
  | some letter =>
    match bufStore st i letter with
    | .error stop => .error stop
    | .ok st =>
      match bufStore st (i - 1) (charCode '0') with
      | .error stop => .error stop
      | .ok st => .ok (i - 1 - 1, st)

/-- The part before `base_compute`.
Source: `fmtprint.c` `strlib_print_int`
Kind: D
Fidelity: exact -/
def printNumber (st : PrintState) (val base : BitVec 64) : Except PrintStop (ℕ × PrintState) :=
  if val = 0 then (bufStore st (BitVec.ofNat 64 (maxIntBufSize - 2)) (charCode '0')).map fun st =>
    (maxIntBufSize - 3, st)
  else printDigits base (maxIntBufSize - 2) val st

/-- `strlib_print_int`.
Source: `fmtprint.c` `strlib_print_int`
Kind: D
Fidelity: exact -/
def strlibPrintInt (st : PrintState) (val base : BitVec 64) : Except PrintStop PrintState :=
  match printNumber st val base with
  | .error stop => .error stop
  | .ok (i, st) =>
    match printPrefix base (BitVec.ofNat 64 i) st with
    | .error stop => .error stop
    | .ok (i, st) => bufPrint (i + 1) (st.buf.drop (i + 1).toNat) st

/-- The letters that `base_buffer` has a base for.
Source: `fmtprint.c` `base_buffer`
Kind: D -/
inductive IntBase
  | d
  | x
  | o
  | b
  deriving DecidableEq

/-- Source: `fmtprint.c` `base_buffer`. Kind: D -/
def baseBuffer : IntBase → BitVec 64
  | .d => 10
  | .x => 16
  | .o => 8
  | .b => 2

/-- Calls of `strlib_print_int` one after the other.
Source: none: infrastructure
Kind: D -/
def printInts : List (BitVec 64 × IntBase) → PrintState → Except PrintStop PrintState
  | [], st => .ok st
  | (val, base) :: calls, st =>
    match strlibPrintInt st val (baseBuffer base) with
    | .error stop => .error stop
    | .ok st => printInts calls st

/-! ## The text of a number -/

/-- Source: none: infrastructure. Kind: D -/
def digitChar (d : ℕ) : BitVec 8 := digitChars.getD d 0

/-- The digits of a number, the most significant one first, and a single `0` for zero.
Source: none: infrastructure
Kind: D -/
def intDigits (base val : ℕ) : List (BitVec 8) :=
  if val = 0 then [charCode '0'] else (Nat.digits base val).reverse.map digitChar

/-- `0x`, `0o`, `0b`, or nothing.
Source: none: infrastructure
Kind: D -/
def basePrefix : IntBase → List (BitVec 8)
  | .d => []
  | .x => [charCode '0', charCode 'x']
  | .o => [charCode '0', charCode 'o']
  | .b => [charCode '0', charCode 'b']

/-- **The text of a number** in a base.
Source: none: infrastructure
Kind: D -/
def intText (val : BitVec 64) (base : IntBase) : List (BitVec 8) :=
  basePrefix base ++ intDigits (baseBuffer base).toNat val.toNat

/-- Reading digits.
Source: none: infrastructure
Kind: D -/
def readDigits (base : ℕ) (l : List (BitVec 8)) : ℕ :=
  l.foldl (fun acc c => acc * base + digitChars.idxOf c) 0

section text

variable {base val : ℕ}

/-- Source: none: infrastructure. Kind: L -/
theorem idxOf_digitChar {d : ℕ} (hd : d < 16) : digitChars.idxOf (digitChar d) = d := by
  interval_cases d <;> decide

/-- Source: none: infrastructure. Kind: L -/
theorem digitChar_ne_zero {d : ℕ} (hd : d < 16) : digitChar d ≠ 0 := by
  interval_cases d <;> decide

/-- Source: none: infrastructure. Kind: L -/
theorem baseBuffer_bounds (base : IntBase) :
    2 ≤ (baseBuffer base).toNat ∧ (baseBuffer base).toNat ≤ 16 := by
  cases base <;> decide

/-- **The digits give the number back**.
Source: none: infrastructure
Kind: L -/
theorem readDigits_intDigits (h2 : 2 ≤ base) (h16 : base ≤ 16) : readDigits base (intDigits base val) = val := by
  unfold readDigits intDigits
  by_cases h0 : val = 0
  · rw [if_pos h0, h0]
    have hzero : digitChars.idxOf (charCode '0') = 0 := by decide
    rw [List.foldl_cons, List.foldl_nil, hzero]
    simp
  · rw [if_neg h0, List.map_reverse, List.foldl_reverse, List.foldr_map]
    have hfold : (Nat.digits base val).foldr (fun d acc => acc * base + digitChars.idxOf (digitChar d)) 0
        = (Nat.digits base val).foldr (fun d acc => d + base * acc) 0 := by
      refine List.foldr_ext _ _ _ fun d hd acc => ?_
      rw [idxOf_digitChar (lt_of_lt_of_le (Nat.digits_lt_base (by omega) hd) h16)]
      ring
    rw [hfold]
    have hdigits := Nat.ofDigits_digits base val
    rw [Nat.ofDigits_eq_foldr] at hdigits
    exact hdigits

/-- **No leading zeros**.
Source: none: infrastructure
Kind: L -/
theorem head?_intDigits (h2 : 2 ≤ base) (h16 : base ≤ 16) (h0 : val ≠ 0) :
    (intDigits base val).head? ≠ some (charCode '0') := by
  unfold intDigits
  rw [if_neg h0, List.map_reverse, List.head?_reverse, List.getLast?_map]
  have hne : Nat.digits base val ≠ [] := Nat.digits_ne_nil_iff_ne_zero.mpr h0
  rw [List.getLast?_eq_getLast_of_ne_nil hne]
  have hlast := Nat.getLast_digit_ne_zero base h0
  have hlt : (Nat.digits base val).getLast hne < 16 :=
    lt_of_lt_of_le (Nat.digits_lt_base (by omega) (List.getLast_mem hne)) h16
  intro heq
  rw [Option.map_some, Option.some.injEq] at heq
  have hidx := congrArg digitChars.idxOf heq
  rw [idxOf_digitChar hlt] at hidx
  exact hlast (hidx.trans (by decide))

/-- Source: none: infrastructure. Kind: L -/
theorem zero_notMem_intDigits (h2 : 2 ≤ base) (h16 : base ≤ 16) : 0 ∉ intDigits base val := by
  unfold intDigits
  by_cases h0 : val = 0
  · rw [if_pos h0]
    decide
  · rw [if_neg h0]
    intro hmem
    obtain ⟨d, hd, heq⟩ := List.mem_map.mp hmem
    have hlt := Nat.digits_lt_base (by omega) (List.mem_reverse.mp hd)
    exact digitChar_ne_zero (by omega) heq

/-- Source: none: infrastructure. Kind: L -/
theorem zero_notMem_intText (val : BitVec 64) (base : IntBase) : 0 ∉ intText val base := by
  obtain ⟨h2, h16⟩ := baseBuffer_bounds base
  unfold intText
  rw [List.mem_append, not_or]
  refine ⟨?_, zero_notMem_intDigits h2 h16⟩
  cases base <;> decide

end text

/-! ## The buffer while a number is written -/

/-- **The buffer from index `j` on** is the text `t` and the terminator.
Source: none: infrastructure
Kind: D -/
structure Filled (buf : List (BitVec 8)) (j : ℕ) (t : List (BitVec 8)) : Prop where
  length : buf.length = maxIntBufSize
  text : buf.drop j = t ++ [0]

/-- **What writing changes**: the buffer, at indices before the terminator, and nothing is printed.
Source: none: infrastructure
Kind: D -/
structure Writes (st st' : PrintState) : Prop where
  out : st'.out = st.out
  reads : st'.reads = st.reads
  writes : ∀ i ∈ st'.writes, i ∈ st.writes ∨ i.toNat < maxIntBufSize - 1

section filled

variable {st st' st'' : PrintState} {j : ℕ} {t : List (BitVec 8)}

/-- Source: none: infrastructure. Kind: L -/
theorem Writes.refl (st : PrintState) : Writes st st := ⟨rfl, rfl, fun _ hi => Or.inl hi⟩

/-- Source: none: infrastructure. Kind: L -/
theorem Writes.trans (h : Writes st st') (h' : Writes st' st'') : Writes st st'' := by
  refine ⟨h'.out.trans h.out, h'.reads.trans h.reads, fun i hi => ?_⟩
  rcases h'.writes i hi with hi | hi
  · exact h.writes i hi
  · exact Or.inr hi

/-- Source: none: infrastructure. Kind: L -/
theorem Filled.index {buf : List (BitVec 8)} (h : Filled buf j t) : j + t.length = maxIntBufSize - 1 := by
  have hlen := congrArg List.length h.text
  rw [List.length_drop, h.length, List.length_append, List.length_singleton] at hlen
  unfold maxIntBufSize at hlen ⊢
  omega

/-- The terminator is still there.
Source: none: infrastructure
Kind: L -/
theorem Filled.last {buf : List (BitVec 8)} (h : Filled buf j t) : Filled buf (maxIntBufSize - 1) [] := by
  refine ⟨h.length, ?_⟩
  rw [← h.index, ← List.drop_drop, h.text, List.drop_left]
  rfl

/-- **One store** at the index before the text.
Source: `fmtprint.c` `strlib_print_int`
Kind: L -/
theorem bufStore_filled (h : Filled st.buf (j + 1) t) (c : BitVec 8) :
    ∃ st', bufStore st (BitVec.ofNat 64 j) c = .ok st' ∧ Filled st'.buf j (c :: t) ∧ Writes st st' := by
  have hindex := h.index
  have hlength := h.length
  unfold maxIntBufSize at hindex hlength
  have htoNat : (BitVec.ofNat 64 j).toNat = j := by
    rw [BitVec.toNat_ofNat, Nat.mod_eq_of_lt (by omega)]
  unfold bufStore
  rw [htoNat, if_pos (by unfold maxIntBufSize; omega)]
  refine ⟨_, rfl, ⟨?_, ?_⟩, rfl, rfl, fun i hi => ?_⟩
  · exact (List.length_set ..).trans h.length
  · show (st.buf.set j c).drop j = c :: t ++ [0]
    rw [List.drop_eq_getElem_cons (by rw [List.length_set]; omega), List.getElem_set_self,
      List.drop_set_of_lt (by omega), h.text]
    rfl
  · rcases List.mem_append.mp hi with hi | hi
    · exact Or.inl hi
    · rw [List.mem_singleton.mp hi, htoNat]
      refine Or.inr ?_
      unfold maxIntBufSize
      omega

/-- **The loop over the digits**, from index `i` down, does not run out of indices.
Source: `fmtprint.c` `strlib_print_int`
Kind: L -/
theorem printDigits_filled {base : BitVec 64} (h2 : 2 ≤ base.toNat) (h16 : base.toNat ≤ 16) {i : ℕ} :
    ∀ (val : BitVec 64) {st : PrintState} {t : List (BitVec 8)}, Filled st.buf (i + 1) t →
      (Nat.digits base.toNat val.toNat).length ≤ i →
      ∃ st', printDigits base i val st = .ok (i - (Nat.digits base.toNat val.toNat).length, st') ∧
        Filled st'.buf (i - (Nat.digits base.toNat val.toNat).length + 1)
          ((Nat.digits base.toNat val.toNat).reverse.map digitChar ++ t) ∧ Writes st st' := by
  induction i with
  | zero =>
      intro val st t hfilled hlen
      have hnil := List.length_eq_zero_iff.mp (Nat.le_zero.mp hlen)
      rw [hnil]
      exact ⟨st, rfl, hfilled, Writes.refl st⟩
  | succ i ih =>
      intro val st t hfilled hlen
      by_cases h0 : val = 0
      · subst h0
        have hnil : Nat.digits base.toNat (0 : BitVec 64).toNat = [] := Nat.digits_zero _
        rw [hnil]
        refine ⟨st, ?_, hfilled, Writes.refl st⟩
        rw [printDigits, if_pos rfl]
        rfl
      · have hne : val.toNat ≠ 0 := fun h => h0 (BitVec.eq_of_toNat_eq h)
        have hbase : base ≠ 0 := by
          rintro rfl
          exact absurd h2 (by decide)
        have hmod : (val % base).toNat = val.toNat % base.toNat := BitVec.toNat_umod
        have hdiv : (val / base).toNat = val.toNat / base.toNat := BitVec.toNat_udiv
        have hdigits : Nat.digits base.toNat val.toNat =
            val.toNat % base.toNat :: Nat.digits base.toNat (val.toNat / base.toNat) :=
          Nat.digits_eq_cons_digits_div (by omega) hne
        have hlt : val.toNat % base.toNat < 16 := lt_of_lt_of_le (Nat.mod_lt _ (by omega)) h16
        have hget : (digitChars ++ [0])[(val % base).toNat]? = some (digitChar (val.toNat % base.toNat)) := by
          rw [hmod]
          generalize val.toNat % base.toNat = d at hlt
          interval_cases d <;> decide
        obtain ⟨st₁, hstore, hfilled₁, hwrites₁⟩ :=
          bufStore_filled hfilled (digitChar (val.toNat % base.toNat))
        rw [hdigits, List.length_cons] at hlen
        obtain ⟨st₂, hloop, hfilled₂, hwrites₂⟩ := ih (val / base) hfilled₁
          (by rw [hdiv]; omega)
        rw [hdiv] at hloop hfilled₂
        refine ⟨st₂, ?_, ?_, hwrites₁.trans hwrites₂⟩
        · rw [printDigits, if_neg h0, if_neg hbase, hget]
          dsimp only
          rw [hstore]
          dsimp only
          rw [hloop, hdigits, List.length_cons, Nat.add_sub_add_right]
        · rw [hdigits, List.length_cons, Nat.add_sub_add_right, List.reverse_cons, List.map_append,
            List.append_assoc]
          exact hfilled₂

/-- **The number is in the buffer**, with two bytes before it.
Source: `fmtprint.c` `strlib_print_int`
Kind: L -/
theorem printNumber_filled {base : BitVec 64} (h2 : 2 ≤ base.toNat) (h16 : base.toNat ≤ 16)
    (hready : Filled st.buf (maxIntBufSize - 1) []) (val : BitVec 64) :
    ∃ i st', printNumber st val base = .ok (i, st') ∧ 1 ≤ i ∧
      Filled st'.buf (i + 1) (intDigits base.toNat val.toNat) ∧ Writes st st' := by
  unfold printNumber intDigits
  by_cases h0 : val = 0
  · subst h0
    obtain ⟨st₁, hstore, hfilled, hwrites⟩ := bufStore_filled (j := 65) hready (charCode '0')
    refine ⟨64, st₁, ?_, by decide, ?_, hwrites⟩
    · rw [if_pos rfl]
      show (bufStore st (BitVec.ofNat 64 65) (charCode '0')).map _ = _
      rw [hstore]
      rfl
    · rw [if_pos (show (0 : BitVec 64).toNat = 0 from rfl)]
      exact hfilled
  · have hne : val.toNat ≠ 0 := fun h => h0 (BitVec.eq_of_toNat_eq h)
    -- 64 digits are enough even in base 2
    have hlen : (Nat.digits base.toNat val.toNat).length ≤ 64 := by
      rw [Nat.digits_length_le_iff (by omega)]
      calc val.toNat < 2 ^ 64 := val.isLt
        _ ≤ base.toNat ^ 64 := Nat.pow_le_pow_left h2 64
    obtain ⟨st₁, hloop, hfilled, hwrites⟩ := printDigits_filled h2 h16 (i := 65) val hready
      (hlen.trans (by decide))
    refine ⟨65 - (Nat.digits base.toNat val.toNat).length, st₁, ?_, by omega, ?_, hwrites⟩
    · rw [if_neg h0]
      exact hloop
    · rw [if_neg hne]
      rw [List.append_nil] at hfilled
      exact hfilled

/-- **The prefix** fits in the two bytes, after which `i` may have wrapped, but `i + 1` has not.
Source: `fmtprint.c` `strlib_print_int`
Kind: L -/
theorem printPrefix_filled (base : IntBase) {i : ℕ} (hi : 1 ≤ i) (h : Filled st.buf (i + 1) t) :
    ∃ i' j st', printPrefix (baseBuffer base) (BitVec.ofNat 64 i) st = .ok (i', st') ∧
      i' + 1 = BitVec.ofNat 64 j ∧ Filled st'.buf j (basePrefix base ++ t) ∧ Writes st st' := by
  have hadd : ∀ k : ℕ, BitVec.ofNat 64 k + 1 = BitVec.ofNat 64 (k + 1) := fun k =>
    (BitVec.ofNat_add k 1).symm
  have hpred : BitVec.ofNat 64 i - 1 = BitVec.ofNat 64 (i - 1) := by
    rw [BitVec.sub_eq_iff_eq_add, hadd, Nat.sub_add_cancel hi]
  -- the three prefixes differ in their letter only
  have hletter : ∀ letter, ∃ st', (∀ base, baseLetter base = some letter →
      printPrefix base (BitVec.ofNat 64 i) st = .ok (BitVec.ofNat 64 i - 1 - 1, st')) ∧
      Filled st'.buf (i - 1) (charCode '0' :: letter :: t) ∧ Writes st st' := by
    intro letter
    obtain ⟨st₁, hstore₁, hfilled₁, hwrites₁⟩ := bufStore_filled h letter
    rw [← Nat.sub_add_cancel hi] at hfilled₁
    obtain ⟨st₂, hstore₂, hfilled₂, hwrites₂⟩ := bufStore_filled hfilled₁ (charCode '0')
    refine ⟨st₂, fun base hbase => ?_, hfilled₂, hwrites₁.trans hwrites₂⟩
    unfold printPrefix
    rw [hbase]
    dsimp only
    rw [hstore₁]
    dsimp only
    rw [hpred, hstore₂]
  have hback : BitVec.ofNat 64 i - 1 - 1 + 1 = BitVec.ofNat 64 (i - 1) := by
    rw [BitVec.sub_add_cancel, hpred]
  cases base with
  | d => exact ⟨BitVec.ofNat 64 i, i + 1, st, rfl, hadd i, h, Writes.refl st⟩
  | x =>
      obtain ⟨st', hrun, hfilled, hwrites⟩ := hletter (charCode 'x')
      exact ⟨_, i - 1, st', hrun _ rfl, hback, hfilled, hwrites⟩
  | o =>
      obtain ⟨st', hrun, hfilled, hwrites⟩ := hletter (charCode 'o')
      exact ⟨_, i - 1, st', hrun _ rfl, hback, hfilled, hwrites⟩
  | b =>
      obtain ⟨st', hrun, hfilled, hwrites⟩ := hletter (charCode 'b')
      exact ⟨_, i - 1, st', hrun _ rfl, hback, hfilled, hwrites⟩

/-- **Printing the buffer** prints the text, and reads up to the terminator.
Source: `fmtprint.c` `strlib_print_str`
Kind: L -/
theorem bufPrint_text {t : List (BitVec 8)} (ht : 0 ∉ t) :
    ∀ (j : ℕ) (st : PrintState), j + t.length < maxIntBufSize →
      ∃ st', bufPrint (BitVec.ofNat 64 j) (t ++ [0]) st = .ok st' ∧ st'.buf = st.buf ∧
        st'.out = st.out ++ t ∧ st'.writes = st.writes ∧
        ∀ i ∈ st'.reads, i ∈ st.reads ∨ i.toNat < maxIntBufSize := by
  have hread : ∀ {j : ℕ} {st : PrintState}, j < maxIntBufSize →
      ∀ i ∈ st.reads ++ [BitVec.ofNat 64 j], i ∈ st.reads ∨ i.toNat < maxIntBufSize := by
    intro j st hj i hi
    rcases List.mem_append.mp hi with hi | hi
    · exact Or.inl hi
    · rw [List.mem_singleton.mp hi, BitVec.toNat_ofNat]
      exact Or.inr (lt_of_le_of_lt (Nat.mod_le _ _) hj)
  induction t with
  | nil =>
      intro j st hj
      exact ⟨{ st with reads := st.reads ++ [BitVec.ofNat 64 j] }, rfl, rfl,
        (List.append_nil _).symm, rfl, hread hj⟩
  | cons c t ih =>
      intro j st hj
      rw [List.mem_cons, not_or] at ht
      rw [List.length_cons] at hj
      obtain ⟨st', hrun, hbuf, hout, hwrites, hreads⟩ := ih ht.2 (j + 1)
        ({ st with reads := st.reads ++ [BitVec.ofNat 64 j] }.putchar c) (by omega)
      refine ⟨st', ?_, hbuf, ?_, hwrites, fun i hi => ?_⟩
      · rw [BitVec.ofNat_add] at hrun
        rw [List.cons_append, bufPrint, if_neg (Ne.symm ht.1)]
        exact hrun
      · rw [hout]
        exact List.append_assoc ..
      · rcases hreads i hi with hi | hi
        · exact hread (by omega) i hi
        · exact Or.inr hi

/-- What holds of the buffer between calls: its size, and the terminator.
Source: `fmtprint.c` `strlib_print_int`
Kind: D -/
def PrintState.Ready (st : PrintState) : Prop := Filled st.buf (maxIntBufSize - 1) []

/-- **What a call does**: it prints `text` and touches the buffer only inside, and not the terminator.
Source: `fmtprint.c` `strlib_print_int`
Kind: D -/
structure Prints (st st' : PrintState) (text : List (BitVec 8)) : Prop where
  ready : st'.Ready
  out : st'.out = st.out ++ text
  writes : ∀ i ∈ st'.writes, i ∈ st.writes ∨ i.toNat < maxIntBufSize - 1
  reads : ∀ i ∈ st'.reads, i ∈ st.reads ∨ i.toNat < maxIntBufSize

/-- Source: none: infrastructure. Kind: L -/
theorem Prints.trans {text text' : List (BitVec 8)} (h : Prints st st' text)
    (h' : Prints st' st'' text') : Prints st st'' (text ++ text') := by
  refine ⟨h'.ready, ?_, fun i hi => ?_, fun i hi => ?_⟩
  · rw [h'.out, h.out, List.append_assoc]
  · exact (h'.writes i hi).elim (h.writes i) Or.inr
  · exact (h'.reads i hi).elim (h.reads i) Or.inr

/-- **One call prints the text of its number**.
Source: `fmtprint.c` `strlib_print_int`
Kind: P -/
theorem strlibPrintInt_prints (hready : st.Ready) (val : BitVec 64) (base : IntBase) :
    ∃ st', strlibPrintInt st val (baseBuffer base) = .ok st' ∧ Prints st st' (intText val base) := by
  obtain ⟨h2, h16⟩ := baseBuffer_bounds base
  obtain ⟨i, st₁, hnumber, hi, hfilled₁, hwrites₁⟩ := printNumber_filled h2 h16 hready val
  obtain ⟨i', j, st₂, hpre, hj, hfilled₂, hwrites₂⟩ := printPrefix_filled base hi hfilled₁
  have hindex := hfilled₂.index
  obtain ⟨st₃, hprint, hbuf, hout, hwrites₃, hreads⟩ :=
    bufPrint_text (zero_notMem_intText val base) j st₂
      (by unfold maxIntBufSize at hindex ⊢; unfold intText; omega)
  have hwrites := hwrites₁.trans hwrites₂
  refine ⟨st₃, ?_, ?_, ?_, ?_, ?_⟩
  · have htoNat : (BitVec.ofNat 64 j).toNat = j := by
      unfold maxIntBufSize at hindex
      rw [BitVec.toNat_ofNat, Nat.mod_eq_of_lt (by omega)]
    unfold strlibPrintInt
    rw [hnumber]
    dsimp only
    rw [hpre]
    dsimp only
    rw [hj, htoNat, hfilled₂.text]
    exact hprint
  · show Filled st₃.buf (maxIntBufSize - 1) []
    rw [hbuf]
    exact hfilled₂.last
  · rw [hout, hwrites.out]
  · intro k hk
    rw [hwrites₃] at hk
    exact hwrites.writes k hk
  · intro k hk
    rw [← hwrites.reads]
    exact hreads k hk

end filled

/-! ## Calls in a row -/

/-- The number that was printed can be read back, without leading zeros.
Source: none: infrastructure
Kind: D -/
structure TextExact (val : BitVec 64) (base : IntBase) (digits : List (BitVec 8)) : Prop where
  text : intText val base = basePrefix base ++ digits
  value : readDigits (baseBuffer base).toNat digits = val.toNat
  zero : val = 0 → digits = [charCode '0']
  leading : val ≠ 0 → digits.head? ≠ some (charCode '0')

/-- Source: none: infrastructure. Kind: L -/
theorem textExact_intDigits (val : BitVec 64) (base : IntBase) :
    TextExact val base (intDigits (baseBuffer base).toNat val.toNat) := by
  obtain ⟨h2, h16⟩ := baseBuffer_bounds base
  refine ⟨rfl, readDigits_intDigits h2 h16, ?_, fun h0 => ?_⟩
  · rintro rfl
    exact if_pos rfl
  · exact head?_intDigits h2 h16 fun h => h0 (BitVec.eq_of_toNat_eq h)

/-- Source: none: infrastructure. Kind: L -/
theorem printInts_prints (calls : List (BitVec 64 × IntBase)) :
    ∀ {st : PrintState}, st.Ready → ∃ st', printInts calls st = .ok st' ∧
      Prints st st' (calls.flatMap fun call => intText call.1 call.2) := by
  induction calls with
  | nil =>
      intro st hready
      exact ⟨st, rfl, hready, (List.append_nil _).symm, fun _ hi => Or.inl hi, fun _ hi => Or.inl hi⟩
  | cons call calls ih =>
      intro st hready
      obtain ⟨st₁, hcall, hprints⟩ := strlibPrintInt_prints hready call.1 call.2
      obtain ⟨st₂, hcalls, hprints'⟩ := ih hprints.ready
      refine ⟨st₂, ?_, ?_⟩
      · rw [printInts, hcall]
        exact hcalls
      · rw [List.flatMap_cons]
        exact hprints.trans hprints'

/-- **Calls in a row print exactly the texts of their numbers**: no index is outside the buffer, the
terminator is not written, and every text is a prefix and digits that read back as the number.
Source: `fmtprint.c` `strlib_print_int`
Kind: P -/
theorem printInts_exact (calls : List (BitVec 64 × IntBase)) :
    (∃ st, printInts calls PrintState.init = .ok st ∧
      st.out = (calls.flatMap fun call => intText call.1 call.2) ∧
      (∀ i ∈ st.writes, i.toNat < 66) ∧ (∀ i ∈ st.reads, i.toNat < 67) ∧ st.buf[66]? = some 0) ∧
    ∀ call ∈ calls, ∃ digits, TextExact call.1 call.2 digits := by
  have hready : PrintState.init.Ready := ⟨rfl, rfl⟩
  refine ⟨?_, fun call _ => ⟨_, textExact_intDigits call.1 call.2⟩⟩
  obtain ⟨st, hrun, hprints⟩ := printInts_prints calls hready
  refine ⟨st, hrun, hprints.out, fun i hi => ?_, fun i hi => ?_, ?_⟩
  · exact (hprints.writes i hi).resolve_left List.not_mem_nil
  · exact (hprints.reads i hi).resolve_left List.not_mem_nil
  · have hlast : st.buf.drop 66 = [0] := hprints.ready.text
    rw [← List.head?_drop, hlast]
    rfl

/-- The greatest binary number takes all 66 bytes, and its prefix ends at index 0.
Source: none: infrastructure
Kind: C -/
example : (strlibPrintInt PrintState.init (2 ^ 64 - 1) 2).map (fun st => st.out.length) = .ok 66 := by
  decide +kernel

end Octiron.Kzadhbat
