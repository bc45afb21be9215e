import Octiron.Found.Bytes
import Octiron.Kzadhbat.FmtPrint

/-!
# Formatted printing

`fmtprint.c`: `strlib_formatted_print` goes over the format with one flag, `fmt_spec`, which says that the
last character was a percent sign. Every `case` of its `switch` clears the flag but the `default` one.

* `FmtConv`, `FmtChar` — the conversions, and the cases of the `switch`.
* `strlibFormattedPrint` — the function, over the arguments as words.
* `FmtItem`, `fmtItems`, `itemsText` — the reference: a percent sign takes exactly the next character.
* `Quiet` — a format that the flag has no effect on although it is wrong: only other characters and pairs
  of percent signs. `FmtClear` — behind every percent sign with an unsupported character the format is
  quiet.
* `loop_agrees_of_clear`, `loop_differs_of_not_clear` — the two directions.
* **Main result** (`formatsExactly_iff`): the function prints the reference for all arguments iff the format
  is clear.
-/

namespace Octiron.Kzadhbat

open Octiron.Found
open Octiron.Found.Mem

/-! ## The scanner -/

/-- The conversions.
Source: `fmtprint.c` `strlib_formatted_print`
Kind: D -/
inductive FmtConv
  | str
  | chr
  | int (base : IntBase)
  deriving DecidableEq

/-- The cases of the `switch`.
Source: `fmtprint.c` `strlib_formatted_print`
Kind: D -/
inductive FmtChar
  | percent
  | conv (k : FmtConv)
  | other
  deriving DecidableEq

/-- Source: `fmtprint.c` `strlib_formatted_print`. Kind: D -/
def fmtChar (cur : BitVec 8) : FmtChar :=
  if cur = charCode '%' then .percent
  else if cur = charCode 's' then .conv .str
  else if cur = charCode 'c' then .conv .chr
  else if cur = charCode 'd' then .conv (.int .d)
  else if cur = charCode 'x' then .conv (.int .x)
  else if cur = charCode 'o' then .conv (.int .o)
  else if cur = charCode 'b' then .conv (.int .b)
  else .other

/-- The loop of `strlib_print_str`, at most once round the address space.
Source: `fmtprint.c` `strlib_print_str`
Kind: D -/
def strlibPrintStrLoop (m : Mem) : ℕ → Addr → PrintState → PrintState
  | 0, _, st => st
  | n + 1, str, st =>
      if m str = 0 then st else strlibPrintStrLoop m n (str + 1) (st.putchar (m str))

/-- `strlib_print_str`.
Source: `fmtprint.c` `strlib_print_str`
Kind: D
Fidelity: exact -/
def strlibPrintStr (m : Mem) (str : Addr) (st : PrintState) : PrintState :=
  if str = 0 then st else strlibPrintStrLoop m (2 ^ 64) str st

/-- One conversion, with its argument.
Source: `fmtprint.c` `strlib_formatted_print`
Kind: D
Fidelity: exact -/
def printArg (m : Mem) (arg : BitVec 64) (st : PrintState) : FmtConv → Except PrintStop PrintState
  | .str => .ok (strlibPrintStr m arg st)
  | .chr => .ok (st.putchar (arg.setWidth 8))
  | .int base => strlibPrintInt st arg (baseBuffer base)

/-- How a format ends: what has been printed, the arguments that are left, and why it stopped early.
Source: none: infrastructure
Kind: D -/
structure FmtEnd where
  state : PrintState
  args : List (BitVec 64)
  stop : Option PrintStop

/-- The loop over the characters of the format, with `fmt_spec`.
Source: `fmtprint.c` `strlib_formatted_print`
Kind: D
Fidelity: exact -/
def formattedPrintLoop (m : Mem) : List (BitVec 8) → Bool → List (BitVec 64) → PrintState → FmtEnd
  | [], _, args, st => ⟨st, args, none⟩
  | cur :: fmt, fmtSpec, args, st =>
      if cur = 0 then ⟨st, args, none⟩
      else
        match fmtChar cur with
        | .percent =>
          if fmtSpec then formattedPrintLoop m fmt false args (st.putchar cur)
          else formattedPrintLoop m fmt true args st
        | .conv k =>
          if fmtSpec then
            match args with
            | [] => ⟨st, [], some .noArgument⟩
            | arg :: args =>
              match printArg m arg st k with
              | .error stop => ⟨st, args, some stop⟩
              | .ok st => formattedPrintLoop m fmt false args st
          else formattedPrintLoop m fmt fmtSpec args (st.putchar cur)
        -- `fmt_spec` stays as it is
        | .other => formattedPrintLoop m fmt fmtSpec args (st.putchar cur)

/-- `strlib_formatted_print`.
Source: `fmtprint.c` `strlib_formatted_print`
Kind: D
Fidelity: exact -/
def strlibFormattedPrint (m : Mem) (fmt : List (BitVec 8)) (args : List (BitVec 64))
    (st : PrintState) : FmtEnd :=
  formattedPrintLoop m fmt false args st

/-! ## The reference -/

/-- What a format consists of.
Source: none: infrastructure
Kind: D -/
inductive FmtItem
  | lit (c : BitVec 8)
  | conv (k : FmtConv)
  deriving DecidableEq

/-- What a percent sign and the character `next` are.
Source: none: infrastructure
Kind: D -/
def percentItem (next : BitVec 8) : FmtItem :=
  match fmtChar next with
  | .conv k => .conv k
  | _ => .lit next

/-- **The reference scan**: a percent sign takes exactly the next character, and every other character is
itself.
Source: none: infrastructure
Kind: D -/
def fmtItems : List (BitVec 8) → List FmtItem
  | [] => []
  | [cur] => if cur = 0 ∨ fmtChar cur = .percent then [] else [.lit cur]
  | cur :: next :: fmt =>
      if cur = 0 then []
      else if fmtChar cur = .percent then
        if next = 0 then [] else percentItem next :: fmtItems fmt
      else .lit cur :: fmtItems (next :: fmt)

/-- What the items come to: the text, the arguments that are left, and whether one was missing.
Source: none: infrastructure
Kind: D -/
structure FmtText where
  text : List (BitVec 8)
  args : List (BitVec 64)
  stop : Option PrintStop

/-- The text of an argument: a string up to its terminator, a character, or a number.
Source: none: infrastructure
Kind: D -/
def argText (m : Mem) (arg : BitVec 64) : FmtConv → List (BitVec 8)
  | .str => if arg = 0 then [] else bytes m arg (strlen m arg)
  | .chr => [arg.setWidth 8]
  | .int base => intText arg base

/-- With more text before it.
Source: none: infrastructure
Kind: D -/
def FmtText.after (t : FmtText) (text : List (BitVec 8)) : FmtText := { t with text := text ++ t.text }

/-- **The reference text**: a literal is itself, and a conversion takes one argument.
Source: none: infrastructure
Kind: D -/
def itemsText (m : Mem) : List FmtItem → List (BitVec 64) → FmtText
  | [], args => ⟨[], args, none⟩
  | .lit c :: items, args => (itemsText m items args).after [c]
  | .conv _ :: _, [] => ⟨[], [], some .noArgument⟩
  | .conv k :: items, arg :: args => (itemsText m items args).after (argText m arg k)

/-- The supported conversions that directly follow a percent sign.
Source: none: infrastructure
Kind: D -/
def conversions (fmt : List (BitVec 8)) : ℕ :=
  (fmtItems fmt).countP fun item => item matches .conv _

/-! ## Where the flag does no harm -/

/-- The format when the flag is set and should not be: only other characters and pairs of percent signs.
Source: none: infrastructure
Kind: D -/
def Quiet : List (BitVec 8) → Bool
  | [] => true
  | [cur] => cur = 0 || fmtChar cur = .other
  | cur :: next :: fmt =>
      if cur = 0 then true
      else
        match fmtChar cur with
        | .other => Quiet (next :: fmt)
        | .conv _ => false
        | .percent => fmtChar next = .percent && Quiet fmt

/-- **Behind every percent sign with an unsupported character the format is quiet**.
Source: none: infrastructure
Kind: D -/
def FmtClear : List (BitVec 8) → Bool
  | [] => true
  | [_] => true
  | cur :: next :: fmt =>
      if cur = 0 then true
      else if fmtChar cur = .percent then
        if next = 0 then true
        else
          match fmtChar next with
          | .other => Quiet fmt
          | _ => FmtClear fmt
      else FmtClear (next :: fmt)

section chars

variable {c : BitVec 8}

/-- Source: none: infrastructure. Kind: L -/
theorem fmtChar_eq_percent_iff : fmtChar c = .percent ↔ c = charCode '%' := by
  unfold fmtChar
  constructor
  · intro h
    by_contra hne
    rw [if_neg hne] at h
    split_ifs at h
  · intro h
    rw [if_pos h]

/-- Source: none: infrastructure. Kind: L -/
theorem ne_zero_of_percent (h : fmtChar c = .percent) : c ≠ 0 := by
  rw [fmtChar_eq_percent_iff.mp h]
  decide

end chars

/-! ## One character -/

section loop

variable {m : Mem} {cur : BitVec 8} {fmt : List (BitVec 8)} {args : List (BitVec 64)} {st : PrintState}

/-- Source: `fmtprint.c` `strlib_formatted_print`. Kind: L -/
theorem loop_zero (flag : Bool) : formattedPrintLoop m (0 :: fmt) flag args st = ⟨st, args, none⟩ :=
  if_pos rfl

/-- Source: `fmtprint.c` `strlib_formatted_print`. Kind: L -/
theorem loop_other (h0 : cur ≠ 0) (h : fmtChar cur = .other) (flag : Bool) :
    formattedPrintLoop m (cur :: fmt) flag args st =
      formattedPrintLoop m fmt flag args (st.putchar cur) := by
  refine (if_neg h0).trans ?_
  rw [h]

/-- Source: `fmtprint.c` `strlib_formatted_print`. Kind: L -/
theorem loop_percent (h : fmtChar cur = .percent) :
    formattedPrintLoop m (cur :: fmt) false args st = formattedPrintLoop m fmt true args st := by
  refine (if_neg (ne_zero_of_percent h)).trans ?_
  rw [h]
  rfl

/-- Source: `fmtprint.c` `strlib_formatted_print`. Kind: L -/
theorem loop_percent_flag (h : fmtChar cur = .percent) :
    formattedPrintLoop m (cur :: fmt) true args st =
      formattedPrintLoop m fmt false args (st.putchar cur) := by
  refine (if_neg (ne_zero_of_percent h)).trans ?_
  rw [h]
  rfl

/-- Source: `fmtprint.c` `strlib_formatted_print`. Kind: L -/
theorem loop_literal (h0 : cur ≠ 0) (h : fmtChar cur ≠ .percent) :
    formattedPrintLoop m (cur :: fmt) false args st =
      formattedPrintLoop m fmt false args (st.putchar cur) := by
  refine (if_neg h0).trans ?_
  cases hc : fmtChar cur with
  | percent => exact absurd hc h
  | conv k => rfl
  | other => rfl

/-- Source: `fmtprint.c` `strlib_formatted_print`. Kind: L -/
theorem loop_conv_missing {k : FmtConv} (h0 : cur ≠ 0) (h : fmtChar cur = .conv k) :
    formattedPrintLoop m (cur :: fmt) true [] st = ⟨st, [], some .noArgument⟩ := by
  refine (if_neg h0).trans ?_
  rw [h]
  rfl

/-- Source: `fmtprint.c` `strlib_formatted_print`. Kind: L -/
theorem loop_conv {k : FmtConv} {arg : BitVec 64} {st' : PrintState} (h0 : cur ≠ 0)
    (h : fmtChar cur = .conv k) (harg : printArg m arg st k = .ok st') :
    formattedPrintLoop m (cur :: fmt) true (arg :: args) st = formattedPrintLoop m fmt false args st' := by
  refine (if_neg h0).trans ?_
  rw [h]
  dsimp only
  rw [if_pos rfl, harg]

/-- Source: `fmtprint.c` `strlib_print_str`. Kind: L -/
theorem strlibPrintStrLoop_eq (m : Mem) (n : ℕ) :
    ∀ (p : Addr) (st : PrintState), strlibPrintStrLoop m n p st =
      { st with out := st.out ++ bytes m p (strlenLoop m n p) } := by
  induction n with
  | zero =>
      intro p st
      show st = { st with out := st.out ++ [] }
      rw [List.append_nil]
  | succ n ih =>
      intro p st
      rw [strlibPrintStrLoop, strlenLoop]
      by_cases h : m p = 0
      · rw [if_pos h, if_pos h]
        show st = { st with out := st.out ++ [] }
        rw [List.append_nil]
      · have hbytes : bytes m p (1 + strlenLoop m n (p + 1)) =
            m p :: bytes m (p + 1) (strlenLoop m n (p + 1)) := by
          rw [bytes_add]
          simp [bytes]
        rw [if_neg h, if_neg h, ih, Nat.add_comm, hbytes, PrintState.putchar]
        dsimp only
        rw [List.append_assoc, List.singleton_append]

/-- **A conversion prints the text of its argument**.
Source: `fmtprint.c` `strlib_formatted_print`
Kind: L -/
theorem printArg_prints (hready : st.Ready) (m : Mem) (arg : BitVec 64) (k : FmtConv) :
    ∃ st', printArg m arg st k = .ok st' ∧ st'.Ready ∧ st'.out = st.out ++ argText m arg k := by
  cases k with
  | str =>
      refine ⟨_, rfl, ?_, ?_⟩
      · unfold strlibPrintStr
        split_ifs
        · exact hready
        · rw [strlibPrintStrLoop_eq]
          exact hready
      · unfold strlibPrintStr argText
        by_cases h : arg = 0
        · rw [if_pos h]
          dsimp only
          rw [if_pos h, List.append_nil]
        · rw [if_neg h, strlibPrintStrLoop_eq]
          dsimp only
          rw [if_neg h]
          rfl
  | chr => exact ⟨_, rfl, hready, rfl⟩
  | int base =>
      obtain ⟨st', hrun, hprints⟩ := strlibPrintInt_prints hready arg base
      exact ⟨st', hrun, hprints.ready, hprints.out⟩

end loop

/-! ## The cases of a format -/

/-- **Induction over a format**, as the reference scans it.
Source: none: infrastructure
Kind: L -/
@[elab_as_elim]
theorem formatInduction {motive : List (BitVec 8) → Prop} (nil : motive [])
    (zero : ∀ fmt, motive (0 :: fmt))
    (literal : ∀ cur fmt, cur ≠ 0 → fmtChar cur ≠ .percent → motive fmt → motive (cur :: fmt))
    (lone : ∀ cur, fmtChar cur = .percent → motive [cur])
    (cut : ∀ cur fmt, fmtChar cur = .percent → motive (cur :: 0 :: fmt))
    (percent : ∀ cur next fmt, fmtChar cur = .percent → next ≠ 0 → motive fmt →
      motive (cur :: next :: fmt)) : ∀ fmt, motive fmt
  | [] => nil
  | [cur] => by
      by_cases h0 : cur = 0
      · rw [h0]
        exact zero []
      · by_cases h : fmtChar cur = .percent
        · exact lone cur h
        · exact literal cur [] h0 h nil
  | cur :: next :: fmt => by
      by_cases h0 : cur = 0
      · rw [h0]
        exact zero _
      · by_cases h : fmtChar cur = .percent
        · by_cases hnext : next = 0
          · rw [hnext]
            exact cut cur fmt h
          · exact percent cur next fmt h hnext
              (formatInduction nil zero literal lone cut percent fmt)
        · exact literal cur _ h0 h
            (formatInduction nil zero literal lone cut percent (next :: fmt))

section cases

variable {cur next : BitVec 8} {fmt : List (BitVec 8)}

@[simp] theorem fmtItems_zero : fmtItems (0 :: fmt) = [] := by
  cases fmt with
  | nil => rfl
  | cons next fmt => rfl

theorem fmtItems_literal (h0 : cur ≠ 0) (h : fmtChar cur ≠ .percent) :
    fmtItems (cur :: fmt) = .lit cur :: fmtItems fmt := by
  cases fmt with
  | nil => exact if_neg (not_or.mpr ⟨h0, h⟩)
  | cons next fmt => exact (if_neg h0).trans (if_neg h)

theorem fmtItems_lone (h : fmtChar cur = .percent) : fmtItems [cur] = [] :=
  if_pos (Or.inr h)

theorem fmtItems_cut (h : fmtChar cur = .percent) : fmtItems (cur :: 0 :: fmt) = [] := by
  refine (if_neg (ne_zero_of_percent h)).trans ?_
  rw [if_pos h, if_pos rfl]

theorem fmtItems_percent (h : fmtChar cur = .percent) (hnext : next ≠ 0) :
    fmtItems (cur :: next :: fmt) = percentItem next :: fmtItems fmt := by
  refine (if_neg (ne_zero_of_percent h)).trans ?_
  rw [if_pos h, if_neg hnext]

@[simp] theorem quiet_zero : Quiet (0 :: fmt) = true := by
  cases fmt with
  | nil => rfl
  | cons next fmt => rfl

theorem quiet_literal (h0 : cur ≠ 0) (h : fmtChar cur ≠ .percent) :
    Quiet (cur :: fmt) = (decide (fmtChar cur = .other) && Quiet fmt) := by
  cases fmt with
  | nil =>
      show (decide (cur = 0) || decide (fmtChar cur = .other)) = _
      rw [decide_eq_false h0, Bool.false_or]
      exact (Bool.and_true _).symm
  | cons next fmt =>
      refine (if_neg h0).trans ?_
      cases hc : fmtChar cur with
      | percent => exact absurd hc h
      | conv k => rfl
      | other => rfl

theorem quiet_lone (h : fmtChar cur = .percent) : Quiet [cur] = false := by
  show (decide (cur = 0) || decide (fmtChar cur = .other)) = _
  rw [decide_eq_false (ne_zero_of_percent h), h]
  rfl

theorem quiet_percent (h : fmtChar cur = .percent) :
    Quiet (cur :: next :: fmt) = (decide (fmtChar next = .percent) && Quiet fmt) := by
  refine (if_neg (ne_zero_of_percent h)).trans ?_
  rw [h]

@[simp] theorem fmtClear_zero : FmtClear (0 :: fmt) = true := by
  cases fmt with
  | nil => rfl
  | cons next fmt => rfl

theorem fmtClear_literal (h0 : cur ≠ 0) (h : fmtChar cur ≠ .percent) :
    FmtClear (cur :: fmt) = FmtClear fmt := by
  cases fmt with
  | nil => rfl
  | cons next fmt => exact (if_neg h0).trans (if_neg h)

theorem fmtClear_cut (h : fmtChar cur = .percent) : FmtClear (cur :: 0 :: fmt) = true := by
  refine (if_neg (ne_zero_of_percent h)).trans ?_
  rw [if_pos h, if_pos rfl]

theorem fmtClear_other (h : fmtChar cur = .percent) (hnext : next ≠ 0)
    (hother : fmtChar next = .other) : FmtClear (cur :: next :: fmt) = Quiet fmt := by
  refine (if_neg (ne_zero_of_percent h)).trans ?_
  rw [if_pos h, if_neg hnext, hother]

theorem fmtClear_taken (h : fmtChar cur = .percent) (hnext : next ≠ 0)
    (hother : fmtChar next ≠ .other) : FmtClear (cur :: next :: fmt) = FmtClear fmt := by
  refine (if_neg (ne_zero_of_percent h)).trans ?_
  rw [if_pos h, if_neg hnext]
  cases hc : fmtChar next with
  | percent => rfl
  | conv k => rfl
  | other => exact absurd hc hother

end cases

/-! ## Clear formats -/

/-- **The loop and the reference agree**: the same text has been printed, the same arguments are left, and
they stop for the same reason.
Source: none: infrastructure
Kind: D -/
structure Agrees (r : FmtEnd) (st : PrintState) (t : FmtText) : Prop where
  out : r.state.out = st.out ++ t.text
  args : r.args = t.args
  stop : r.stop = t.stop

section agrees

variable {m : Mem} {fmt : List (BitVec 8)} {args : List (BitVec 64)} {st st' : PrintState} {t : FmtText}
  {r : FmtEnd}

/-- Source: none: infrastructure. Kind: L -/
theorem Agrees.nil (st : PrintState) (args : List (BitVec 64)) :
    Agrees ⟨st, args, none⟩ st ⟨[], args, none⟩ :=
  ⟨(List.append_nil _).symm, rfl, rfl⟩

/-- Source: none: infrastructure. Kind: L -/
theorem Agrees.after {text : List (BitVec 8)} (h : Agrees r st' t) (hout : st'.out = st.out ++ text) :
    Agrees r st (t.after text) := by
  refine ⟨?_, h.args, h.stop⟩
  rw [h.out, hout, List.append_assoc]
  rfl

/-- **With the flag set wrongly**, a quiet format is printed as the reference prints it.
Source: `fmtprint.c` `strlib_formatted_print`
Kind: L -/
theorem loop_agrees_of_quiet (fmt : List (BitVec 8)) :
    ∀ (st : PrintState), Quiet fmt = true →
      Agrees (formattedPrintLoop m fmt true args st) st (itemsText m (fmtItems fmt) args) := by
  induction fmt using formatInduction with
  | nil => exact fun _ _ => Agrees.nil _ _
  | zero fmt =>
      intro st _
      rw [loop_zero, fmtItems_zero]
      exact Agrees.nil _ _
  | literal cur fmt h0 h ih =>
      intro st hquiet
      rw [quiet_literal h0 h, Bool.and_eq_true, decide_eq_true_eq] at hquiet
      rw [loop_other h0 hquiet.1, fmtItems_literal h0 h, itemsText]
      exact (ih _ hquiet.2).after rfl
  | lone cur h =>
      intro st hquiet
      rw [quiet_lone h] at hquiet
      cases hquiet
  | cut cur fmt h =>
      intro st hquiet
      rw [quiet_percent h, Bool.and_eq_true, decide_eq_true_eq] at hquiet
      exact absurd hquiet.1 (by decide)
  | percent cur next fmt h hnext ih =>
      -- the two signs change places: the flag is cleared by the first and set by the second
      intro st hquiet
      rw [quiet_percent h, Bool.and_eq_true, decide_eq_true_eq] at hquiet
      have hitem : percentItem next = .lit cur := by
        rw [fmtChar_eq_percent_iff.mp h, percentItem, hquiet.1, fmtChar_eq_percent_iff.mp hquiet.1]
      rw [loop_percent_flag h, loop_percent hquiet.1, fmtItems_percent h hnext, hitem, itemsText]
      exact (ih _ hquiet.2).after rfl

/-- **A clear format is printed as the reference prints it**.
Source: `fmtprint.c` `strlib_formatted_print`
Kind: P -/
theorem loop_agrees_of_clear (fmt : List (BitVec 8)) :
    ∀ (args : List (BitVec 64)) (st : PrintState), st.Ready → FmtClear fmt = true →
      Agrees (formattedPrintLoop m fmt false args st) st (itemsText m (fmtItems fmt) args) := by
  induction fmt using formatInduction with
  | nil => exact fun _ _ _ _ => Agrees.nil _ _
  | zero fmt =>
      intro args st _ _
      rw [loop_zero, fmtItems_zero]
      exact Agrees.nil _ _
  | literal cur fmt h0 h ih =>
      intro args st hready hclear
      rw [fmtClear_literal h0 h] at hclear
      rw [loop_literal h0 h, fmtItems_literal h0 h, itemsText]
      exact (ih args (st.putchar cur) hready hclear).after rfl
  | lone cur h =>
      intro args st _ _
      rw [loop_percent h, fmtItems_lone h]
      exact Agrees.nil _ _
  | cut cur fmt h =>
      intro args st _ _
      rw [loop_percent h, loop_zero, fmtItems_cut h]
      exact Agrees.nil _ _
  | percent cur next fmt h hnext ih =>
      intro args st hready hclear
      rw [loop_percent h, fmtItems_percent h hnext, percentItem]
      cases hc : fmtChar next with
      | percent =>
          rw [fmtClear_taken h hnext (by rw [hc]; exact nofun)] at hclear
          rw [loop_percent_flag hc]
          exact (ih args (st.putchar next) hready hclear).after rfl
      | other =>
          rw [fmtClear_other h hnext hc] at hclear
          rw [loop_other hnext hc]
          exact (loop_agrees_of_quiet fmt _ hclear).after rfl
      | conv k =>
          rw [fmtClear_taken h hnext (by rw [hc]; exact nofun)] at hclear
          cases args with
          | nil =>
              rw [loop_conv_missing hnext hc]
              exact ⟨(List.append_nil _).symm, rfl, rfl⟩
          | cons arg args =>
              obtain ⟨st', hrun, hready', hout⟩ := printArg_prints hready m arg k
              rw [loop_conv hnext hc hrun]
              exact (ih args st' hready' hclear).after hout

/-- With enough arguments the reference takes one for each conversion.
Source: none: infrastructure
Kind: L -/
theorem itemsText_args (items : List FmtItem) :
    ∀ (args : List (BitVec 64)), (items.countP fun item => item matches .conv _) ≤ args.length →
      (itemsText m items args).stop = none ∧
        args.length = (itemsText m items args).args.length +
          items.countP fun item => item matches .conv _ := by
  induction items with
  | nil => exact fun _ _ => ⟨rfl, rfl⟩
  | cons item items ih =>
      intro args hle
      cases item with
      | lit c => exact ih args hle
      | conv k =>
          rw [List.countP_cons_of_pos rfl] at hle ⊢
          cases args with
          | nil =>
              rw [List.length_nil] at hle
              omega
          | cons arg args =>
              rw [List.length_cons] at hle ⊢
              obtain ⟨hstop, hlen⟩ := ih args (by omega)
              refine ⟨hstop, ?_⟩
              show args.length + 1 = (itemsText m items args).args.length + _
              omega

end agrees

/-! ## Formats that are not clear -/

/-- A memory with the string `"!"` at address 3.
Source: none: infrastructure
Kind: D -/
def probeMem : Mem := fun a => if a = 3 then charCode '!' else 0

/-- Source: none: infrastructure. Kind: D -/
def probeArg : BitVec 64 := 3

section differs

variable {m : Mem} {cur : BitVec 8} {fmt : List (BitVec 8)} {args : List (BitVec 64)} {st : PrintState}

/-- As a string, a character or a number: the probe starts with a character that the scanner does not
know.
Source: none: infrastructure
Kind: L -/
theorem argText_probe (k : FmtConv) :
    ∃ c text, argText probeMem probeArg k = c :: text ∧ fmtChar c = .other := by
  cases k with
  | str =>
      have hstring : CStringAt probeMem probeArg [charCode '!'] :=
        bytesAt_cons.mpr ⟨rfl, bytesAt_cons.mpr ⟨rfl, fun i b hb => by cases hb⟩⟩
      have hlen : strlen probeMem probeArg = 1 :=
        strlen_of_cstringAt hstring (by decide) (by decide)
      refine ⟨charCode '!', [], ?_, by decide⟩
      unfold argText
      rw [if_neg (by decide), hlen]
      rfl
  | chr => exact ⟨3, [], rfl, by decide⟩
  | int base =>
      cases base with
      | d =>
          refine ⟨digitChar 3, [], ?_, by decide⟩
          show intDigits 10 3 = [digitChar 3]
          rw [intDigits, if_neg (by decide), Nat.digits_of_lt 10 3 (by decide) (by decide)]
          rfl
      | x => exact ⟨charCode '0', _, rfl, by decide⟩
      | o => exact ⟨charCode '0', _, rfl, by decide⟩
      | b => exact ⟨charCode '0', _, rfl, by decide⟩

/-- What has been printed stays printed.
Source: `fmtprint.c` `strlib_formatted_print`
Kind: L -/
theorem prefix_loop_out (fmt : List (BitVec 8)) :
    ∀ (flag : Bool) (args : List (BitVec 64)) (st : PrintState), st.Ready →
      st.out <+: (formattedPrintLoop m fmt flag args st).state.out := by
  induction fmt with
  | nil => exact fun _ _ _ _ => List.prefix_rfl
  | cons cur fmt ih =>
      intro flag args st hready
      have hput : st.out <+: (st.putchar cur).out := List.prefix_append ..
      have hput' : ∀ flag, st.out <+: (formattedPrintLoop m fmt flag args (st.putchar cur)).state.out :=
        fun flag => hput.trans (ih flag args (st.putchar cur) hready)
      by_cases h0 : cur = 0
      · rw [h0, loop_zero]
      · cases hc : fmtChar cur with
        | percent =>
            cases flag with
            | true =>
                rw [loop_percent_flag hc]
                exact hput' false
            | false =>
                rw [loop_percent hc]
                exact ih true args st hready
        | other =>
            rw [loop_other h0 hc]
            exact hput' flag
        | conv k =>
            cases flag with
            | false =>
                rw [loop_literal h0 (by rw [hc]; exact nofun)]
                exact hput' false
            | true =>
                cases args with
                | nil =>
                    rw [loop_conv_missing h0 hc]
                | cons arg args =>
                    obtain ⟨st', hrun, hready', hout⟩ := printArg_prints hready m arg k
                    rw [loop_conv h0 hc hrun]
                    refine List.IsPrefix.trans ?_ (ih false args st' hready')
                    rw [hout]
                    exact List.prefix_append ..

/-- Two continuations of one text that start with different characters.
Source: none: infrastructure
Kind: L -/
theorem ne_of_prefix_of_head {out out' text rest : List (BitVec 8)} {c c' : BitVec 8}
    (h : out ++ c :: text <+: out') (hne : c ≠ c') : out' ≠ out ++ c' :: rest := by
  rintro rfl
  rw [List.prefix_append_right_inj, List.cons_prefix_cons] at h
  exact hne h.1

/-- Source: none: infrastructure. Kind: L -/
theorem ne_of_prefix_of_end {out out' text : List (BitVec 8)} {c : BitVec 8}
    (h : out ++ c :: text <+: out') : out' ≠ out ++ [] := by
  rintro rfl
  rw [List.prefix_append_right_inj] at h
  exact absurd (List.prefix_nil.mp h) (List.cons_ne_nil _ _)

/-- **With the flag set wrongly**, a format that is not quiet is printed differently.
Source: `fmtprint.c` `strlib_formatted_print`
Kind: L -/
theorem loop_differs_of_not_quiet (n : ℕ) (fmt : List (BitVec 8)) :
    ∀ (st : PrintState), st.Ready → Quiet fmt = false →
      (formattedPrintLoop probeMem fmt true (List.replicate (n + 1) probeArg) st).state.out ≠
        st.out ++ (itemsText probeMem (fmtItems fmt) (List.replicate (n + 1) probeArg)).text := by
  induction fmt using formatInduction with
  | nil => exact fun _ _ hquiet => by cases hquiet
  | zero fmt =>
      intro st _ hquiet
      rw [quiet_zero] at hquiet
      cases hquiet
  | literal cur fmt h0 h ih =>
      intro st hready hquiet
      rw [quiet_literal h0 h] at hquiet
      rw [fmtItems_literal h0 h]
      cases hc : fmtChar cur with
      | percent => exact absurd hc h
      | other =>
          rw [hc] at hquiet
          rw [loop_other h0 hc]
          have hne := ih (st.putchar cur) hready hquiet
          show _ ≠ st.out ++ ([cur] ++ _)
          rw [← List.append_assoc]
          exact hne
      | conv k =>
          -- the argument is printed where the letter should be
          obtain ⟨st', hrun, hready', hout⟩ := printArg_prints hready probeMem probeArg k
          obtain ⟨c, text, htext, hother⟩ := argText_probe k
          have hpre := prefix_loop_out (m := probeMem) fmt false
            (List.replicate n probeArg) st' hready'
          rw [hout, htext] at hpre
          rw [List.replicate_succ, loop_conv h0 hc hrun]
          refine ne_of_prefix_of_head hpre fun heq => ?_
          rw [heq, hc] at hother
          cases hother
  | lone cur h =>
      intro st hready _
      rw [loop_percent_flag h, fmtItems_lone h]
      exact ne_of_prefix_of_end List.prefix_rfl
  | cut cur fmt h =>
      intro st hready _
      rw [loop_percent_flag h, loop_zero, fmtItems_cut h]
      exact ne_of_prefix_of_end List.prefix_rfl
  | percent cur next fmt h hnext ih =>
      intro st hready hquiet
      rw [quiet_percent h] at hquiet
      rw [loop_percent_flag h, fmtItems_percent h hnext, percentItem]
      have hpre : st.out ++ [cur] <+: (formattedPrintLoop probeMem (next :: fmt) false
          (List.replicate (n + 1) probeArg) (st.putchar cur)).state.out :=
        prefix_loop_out (next :: fmt) false _ (st.putchar cur) hready
      cases hc : fmtChar next with
      | percent =>
          rw [hc] at hquiet
          rw [loop_percent hc]
          have hsame : next = cur := by
            rw [fmtChar_eq_percent_iff.mp h, fmtChar_eq_percent_iff.mp hc]
          have hne := ih (st.putchar cur) hready hquiet
          rw [hsame]
          show _ ≠ st.out ++ ([cur] ++ _)
          rw [← List.append_assoc]
          exact hne
      | other =>
          refine ne_of_prefix_of_head hpre fun heq => ?_
          rw [← heq, h] at hc
          cases hc
      | conv k =>
          obtain ⟨c, text, htext, hother⟩ := argText_probe k
          rw [List.replicate_succ] at hpre ⊢
          show _ ≠ st.out ++ (argText probeMem probeArg k ++ _)
          rw [htext]
          refine ne_of_prefix_of_head hpre fun heq => ?_
          rw [← heq, h] at hother
          cases hother

/-- **A format that is not clear is printed differently**, for some arguments.
Source: `fmtprint.c` `strlib_formatted_print`
Kind: P -/
theorem loop_differs_of_not_clear (fmt : List (BitVec 8)) :
    ∀ (n : ℕ) (st : PrintState), st.Ready → fmt.length ≤ n → FmtClear fmt = false →
      (formattedPrintLoop probeMem fmt false (List.replicate n probeArg) st).state.out ≠
        st.out ++ (itemsText probeMem (fmtItems fmt) (List.replicate n probeArg)).text := by
  induction fmt using formatInduction with
  | nil => exact fun _ _ _ _ hclear => by cases hclear
  | zero fmt =>
      intro n st _ _ hclear
      rw [fmtClear_zero] at hclear
      cases hclear
  | literal cur fmt h0 h ih =>
      intro n st hready hn hclear
      rw [fmtClear_literal h0 h] at hclear
      rw [List.length_cons] at hn
      rw [loop_literal h0 h, fmtItems_literal h0 h]
      have hne := ih n (st.putchar cur) hready (by omega) hclear
      show _ ≠ st.out ++ ([cur] ++ _)
      rw [← List.append_assoc]
      exact hne
  | lone cur h => exact fun _ _ _ _ hclear => by cases hclear
  | cut cur fmt h =>
      intro n st _ _ hclear
      rw [fmtClear_cut h] at hclear
      cases hclear
  | percent cur next fmt h hnext ih =>
      intro n st hready hn hclear
      rw [List.length_cons, List.length_cons] at hn
      rw [loop_percent h, fmtItems_percent h hnext, percentItem]
      cases hc : fmtChar next with
      | percent =>
          rw [fmtClear_taken h hnext (by rw [hc]; exact nofun)] at hclear
          rw [loop_percent_flag hc]
          have hne := ih n (st.putchar next) hready (by omega) hclear
          show _ ≠ st.out ++ ([next] ++ _)
          rw [← List.append_assoc]
          exact hne
      | other =>
          rw [fmtClear_other h hnext hc] at hclear
          obtain ⟨n, rfl⟩ : ∃ k, n = k + 1 := ⟨n - 1, by omega⟩
          rw [loop_other hnext hc]
          have hne := loop_differs_of_not_quiet n fmt (st.putchar next) hready hclear
          show _ ≠ st.out ++ ([next] ++ _)
          rw [← List.append_assoc]
          exact hne
      | conv k =>
          rw [fmtClear_taken h hnext (by rw [hc]; exact nofun)] at hclear
          obtain ⟨n, rfl⟩ : ∃ k, n = k + 1 := ⟨n - 1, by omega⟩
          obtain ⟨st', hrun, hready', hout⟩ := printArg_prints hready probeMem probeArg k
          rw [List.replicate_succ, loop_conv hnext hc hrun]
          have hne := ih n st' hready' (by omega) hclear
          show _ ≠ st.out ++ (argText probeMem probeArg k ++ _)
          rw [← List.append_assoc, ← hout]
          exact hne

end differs

/-! ## All arguments -/

/-- **The function prints the reference**, for every memory and every argument list that is long enough:
the same text, with one argument for each conversion.
Source: `fmtprint.c` `strlib_formatted_print`
Kind: D -/
def FormatsExactly (fmt : List (BitVec 8)) : Prop :=
  ∀ (m : Mem) (args : List (BitVec 64)) (st : PrintState), st.Ready → conversions fmt ≤ args.length →
    let r := strlibFormattedPrint m fmt args st
    let t := itemsText m (fmtItems fmt) args
    r.stop = none ∧ r.state.out = st.out ++ t.text ∧ r.args = t.args ∧
      args.length = r.args.length + conversions fmt

/-- **A format is printed as the reference prints it iff it is clear**.
Source: `fmtprint.c` `strlib_formatted_print`
Kind: P -/
theorem formatsExactly_iff (fmt : List (BitVec 8)) : FormatsExactly fmt ↔ FmtClear fmt = true := by
  constructor
  · intro hexact
    by_contra hclear
    rw [Bool.not_eq_true] at hclear
    have hready : PrintState.init.Ready := ⟨rfl, rfl⟩
    -- enough arguments for every character of the format
    have hlength : conversions fmt ≤
        (List.replicate (fmt.length + conversions fmt) probeArg).length := by
      rw [List.length_replicate]
      exact Nat.le_add_left _ _
    obtain ⟨-, hout, -⟩ := hexact probeMem _ PrintState.init hready hlength
    exact loop_differs_of_not_clear fmt _ _ hready (Nat.le_add_right _ _) hclear hout
  · intro hclear m args st hready hargs
    have hagrees := loop_agrees_of_clear (m := m) fmt args st hready hclear
    obtain ⟨hstop, hlen⟩ := itemsText_args (m := m) (fmtItems fmt) args hargs
    refine ⟨hagrees.stop.trans hstop, hagrees.out, hagrees.args, ?_⟩
    rw [show (strlibFormattedPrint m fmt args st).args = _ from hagrees.args]
    exact hlen

/-- **`100% done`**: the `d` behind the space takes an argument.
Source: `fmtprint.c` `strlib_formatted_print`
Kind: C -/
theorem not_formatsExactly_done : ¬ FormatsExactly ("100% done".toList.map charCode) := by
  intro hexact
  have hready : PrintState.init.Ready := ⟨rfl, rfl⟩
  obtain ⟨-, -, -, hlen⟩ := hexact probeMem [probeArg] PrintState.init hready (by decide)
  exact absurd hlen (by decide +kernel)

end Octiron.Kzadhbat
