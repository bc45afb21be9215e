import Mathlib.Tactic

/-!
# Error values: the register-sized error stack

`kzadhbat/types/error.h` packs a stack of cascading errors into one 64-bit word.

* `GrouperError` — `enum grouperError`, one constructor per enumerator; `GrouperError.code` is the
  enumerator's value (the enum is packed into one byte).
* `errNew`, `errPush`, `errPop`, `errTop`, `errIsOk`, `errIsFail`, `errStr`, `errPrintStack` — the
  functions of `error.c`, as they compute: `errPush` and `errPop` shift by
  `sizeof(enum grouperError)`, which is a number of *bytes*, used as a number of bits.
* `errChain es` — the word obtained by pushing the codes `es` on `err_new()`.
* `ErrStackLaw es` — what a stack of error codes has to satisfy for the sequence `es`.
* **Main result** (`errStackLaw_iff_halving`): the law holds for `es` exactly when the first code
  is `1`, every later code halves to the one before it, and none of them is one of the three codes
  that `grouper_error_str` leaves without a message.
-/

namespace Octiron.Kzadhbat

/-! ## Codes and messages -/

/-- The error codes, in the order of the enumerators.
Source: `error.h` `enum grouperError`
Kind: D -/
inductive GrouperError
  | ok
  | notImplemented
  | nullArgument
  | slabRegionTooSmall
  | slabForeignBlock
  | pmmInit
  | pmmSlabAllocFailed
  | pmmAddRegionTooSmall
  | pmmAddManagedRegion
  | pmmBadAlignment
  | pmmOutOfMemory
  | pmmRegionListEmpty
  | pmmRegionListFull
  | pmmRegionAllocatedFrom
  | pmmRegionNotManaged
  | pagingUnalignedAddress
  | pagingInvalidAddress
  | pagingInvalidFlags
  | pagingInvalidType
  | pagingSetupTable
  | pagingMappingExists
  | pagingMappingDoesntExist
  | dtbMagicNumber
  | dtbMappingFailed
  | dtbUnmappingFailed
  | dtbUnclosedRootNode
  | dtbNoNodes
  | dtbAddressCellsTooLarge
  | dtbSizeCellsTooLarge
  | dtbRewriteFailed
  deriving DecidableEq, Repr

/-- The number of codes.
Source: `error.h` `GROUPER_ERROR_GUARD_VALUE`
Kind: D -/
def grouperErrorGuardValue : ℕ := 30

/-- `sizeof(enum grouperError)`: the enum is packed into one byte.
Source: `error.c` the `SASSERT` on `sizeof(enum grouperError)`
Kind: D -/
def sizeofGrouperError : ℕ := 1

/-- The value of an enumerator.
Source: `error.h` `enum grouperError`
Kind: D -/
def GrouperError.code (e : GrouperError) : BitVec 8 := BitVec.ofNat 8 e.ctorIdx

/-- The message table. Three enumerators have no designated initialiser, so their entries are
`NULL` pointers.
Source: `error.c` `grouper_error_str`
Kind: D
Fidelity: exact -/
def GrouperError.message : GrouperError → Option String
  | ok => "No error."
  | notImplemented => "Not implemented."
  | nullArgument => "Pointer argument to function was NULL."
  | slabRegionTooSmall => "Slab region is too small to allocate a block from."
  | slabForeignBlock => "Slab block being returned is not managed by this allocator."
  | pmmInit => "Physical memory manager initialization failed."
  | pmmSlabAllocFailed => "Physical memory manager slab allocator failed to allocate a block."
  | pmmAddRegionTooSmall =>
      "Attempted to add a region to the physical memory manager that was smaller than BASE_PAGE_SIZE."
  | pmmAddManagedRegion =>
      "Attempted to add a region to the physical memory manager that was already being managed by it."
  | pmmBadAlignment =>
      "Attempted to allocate memory with an invalid alignment. Alignment must be a power of two and at least BASE_PAGE_SIZE."
  | pmmOutOfMemory =>
      "Physical memory manager does not have enough free memory to satisfy the allocation request."
  | pmmRegionListEmpty => "Physical memory manager region list is empty. No regions are managed."
  | pmmRegionListFull => "Physical memory manager region list is full. No more regions can be added."
  | pmmRegionAllocatedFrom => none
  | pmmRegionNotManaged => none
  | pagingUnalignedAddress =>
      "Attempted to map a page with an unaligned address. Address must be aligned to the page size."
  | pagingInvalidAddress =>
      "Attempted to map a page with an invalid address. Address must be within the managed physical memory range."
  | pagingInvalidFlags =>
      "Attempted to map a page with invalid flags. Flags must be a combination of valid paging flags."
  | pagingInvalidType =>
      "Attempted to map a page with an invalid leaf type. Type must be one of the defined page types (Page, MegaPage, GigaPage)."
  | pagingSetupTable => "Failed to set up an intermediate page table."
  | pagingMappingExists =>
      "Attempted to map a page that already exists in the page table. Use a different address or unmap the existing mapping first."
  | pagingMappingDoesntExist => none
  | dtbMagicNumber =>
      "Device Tree Blob magic number is invalid. The magic number must be 0xD00DFEED to be valid."
  | dtbMappingFailed => "Failed to map the Device Tree Blob into the kernel's page table."
  | dtbUnmappingFailed => "Failed to unmap the Device Tree Blob from the kernel's page table."
  | dtbUnclosedRootNode =>
      "Device Tree Blob parsing failed because the root node was not closed properly. Ensure that the DTB is well-formed."
  | dtbNoNodes =>
      "Device Tree Blob parsing failed because no nodes were found in the DTB. Ensure that the DTB is well-formed and contains nodes."
  | dtbAddressCellsTooLarge =>
      "Device Tree Blob parsing failed because an #address-cells property was encountered with a value larger than 3."
  | dtbSizeCellsTooLarge =>
      "Device Tree Blob parsing failed because a #size-cells property was encountered with a value larger than 2."
  | dtbRewriteFailed =>
      "Device Tree Blob property rewriting failed. This may be due to an unsupported property type or a malformed DTB."

/-- The enumerator with a given value, if there is one.
Source: none: infrastructure
Kind: D -/
def GrouperError.ofCode (c : BitVec 8) : Option GrouperError :=
  [ok, notImplemented, nullArgument, slabRegionTooSmall, slabForeignBlock, pmmInit,
    pmmSlabAllocFailed, pmmAddRegionTooSmall, pmmAddManagedRegion, pmmBadAlignment, pmmOutOfMemory,
    pmmRegionListEmpty, pmmRegionListFull, pmmRegionAllocatedFrom, pmmRegionNotManaged,
    pagingUnalignedAddress, pagingInvalidAddress, pagingInvalidFlags, pagingInvalidType,
    pagingSetupTable, pagingMappingExists, pagingMappingDoesntExist, dtbMagicNumber,
    dtbMappingFailed, dtbUnmappingFailed, dtbUnclosedRootNode, dtbNoNodes,
    dtbAddressCellsTooLarge, dtbSizeCellsTooLarge, dtbRewriteFailed][c.toNat]?

/-! ## The operations of `error.c` -/

/-- `errval_t`: a 64-bit word.
Source: `error.h` `errval_t`
Kind: D -/
abbrev Errval := BitVec 64

/-- A bare code returned where an `errval_t` is expected.
Source: C's conversion from the enum to `u64`
Kind: D -/
def GrouperError.errval (e : GrouperError) : Errval := e.code.setWidth 64

/-- Source: `error.c` `err_new`. Kind: D -/
def errNew : Errval := 0

/-- Source: `error.c` `err_push`. Kind: D -/
def errPush (errval : Errval) (err : GrouperError) : Errval :=
  (errval <<< sizeofGrouperError) ||| err.code.setWidth 64

/-- Source: `error.c` `err_pop`. Kind: D -/
def errPop (errval : Errval) : Errval := errval >>> sizeofGrouperError

/-- The top code. The cast to the enum does not check that the byte is an enumerator.
Source: `error.c` `err_top`
Kind: D -/
def errTop (errval : Errval) : BitVec 8 := (errval &&& 0xFF).setWidth 8

/-- Source: `error.c` `err_is_ok`. Kind: D -/
def errIsOk (errval : Errval) : Bool := errTop errval == GrouperError.ok.code

/-- Source: `error.c` `err_is_fail`. Kind: D -/
def errIsFail (errval : Errval) : Bool := errTop errval != GrouperError.ok.code

/-- The table lookup: `none` when the index is outside `grouper_error_str`, `some none` when the
entry is `NULL`.
Source: `error.c` `err_str`
Kind: D -/
def errStr (errval : Errval) : Option (Option String) :=
  (GrouperError.ofCode (errTop errval)).map GrouperError.message

/-- Source: none: infrastructure. Kind: L -/
theorem errPop_toNat (errval : Errval) : (errPop errval).toNat = errval.toNat / 2 := by
  rw [errPop, sizeofGrouperError, BitVec.toNat_ushiftRight, Nat.shiftRight_eq_div_pow, pow_one]

/-- A failing value is not zero, so popping makes it smaller.
Source: none: infrastructure
Kind: L -/
theorem errPop_toNat_lt {errval : Errval} (h : errIsFail errval = true) :
    (errPop errval).toNat < errval.toNat := by
  have hne : errval ≠ 0 := by
    rintro rfl
    exact absurd h (by decide)
  have hpos : errval.toNat ≠ 0 := fun h0 => hne (BitVec.eq_of_toNat_eq (by simpa using h0))
  rw [errPop_toNat]
  omega

/-- The printing loop: the printed lines, or `none` when it reads outside the table or prints
through a `NULL` message.
Source: `error.c` the loop of `err_print_stack`
Kind: D -/
def errPrintLoop (errval : Errval) : Option (List String) :=
  if _h : errIsFail errval = true then
    match errStr errval with
    | some (some msg) => (errPrintLoop (errPop errval)).map (msg :: ·)
    | _ => none
  else some []
termination_by errval.toNat
decreasing_by exact errPop_toNat_lt _h

/-- The header line of `err_print_stack`.
Source: `error.c` `err_print_stack`
Kind: D -/
def errPrintHeader : String := "errval_t error stack: "

/-- Source: `error.c` `err_print_stack`. Kind: D -/
def errPrintStack (errval : Errval) : Option (List String) :=
  (errPrintLoop errval).map (errPrintHeader :: ·)

/-! ## The stack law -/

/-- The codes `es` pushed, in order, on the word `errval`.
Source: none: the callers' nested `err_push`
Kind: D -/
def errChainFrom (errval : Errval) (es : List GrouperError) : Errval := es.foldl errPush errval

/-- The codes `es` pushed, in order, on `err_new()`.
Source: none: the callers' nested `err_push`
Kind: D -/
def errChain (es : List GrouperError) : Errval := errChainFrom errNew es

/-- The codes read by `n` rounds of `err_top` and `err_pop`.
Source: none: infrastructure
Kind: D -/
def errUnwind : ℕ → Errval → List (BitVec 8)
  | 0, _ => []
  | n + 1, errval => errTop errval :: errUnwind n (errPop errval)

/-- **The stack law for one sequence of pushes**: the last push is what `err_top` returns and
`err_pop` undoes it; unwinding returns the pushed codes, last first, and then `ERR_OK`; every code
met on the way is inside the message table; and `err_print_stack` prints the messages of the pushed
codes, last first, and stops.
Source: `error.h` ("a stack of cascading errors of depth 8")
Kind: D -/
structure ErrStackLaw (es : List GrouperError) : Prop where
  top_pop : ∀ es' e, es = es' ++ [e] →
    errTop (errChain es) = e.code ∧ errPop (errChain es) = errChain es'
  unwind : errUnwind (es.length + 1) (errChain es) =
    (es.map GrouperError.code).reverse ++ [GrouperError.ok.code]
  in_table : ∀ c ∈ errUnwind (es.length + 1) (errChain es), c.toNat < grouperErrorGuardValue
  print : ∃ msgs, es.reverse.mapM GrouperError.message = some msgs ∧
    errPrintStack (errChain es) = some (errPrintHeader :: msgs)

/-- The codes a one-bit shift can carry: starting below zero, every code halves to the one before
it.
Source: none: infrastructure
Kind: D -/
def Halving (es : List GrouperError) : Prop :=
  List.IsChain (fun a b : ℕ => b / 2 = a) (0 :: es.map GrouperError.ctorIdx)

/-- Source: none: infrastructure. Kind: L -/
theorem GrouperError.ctorIdx_lt (e : GrouperError) : e.ctorIdx < grouperErrorGuardValue := by
  cases e <;> decide

/-- Source: none: infrastructure. Kind: L -/
@[simp] theorem GrouperError.code_toNat (e : GrouperError) : e.code.toNat = e.ctorIdx := by
  cases e <;> rfl

/-- Source: none: infrastructure. Kind: L -/
theorem GrouperError.ofCode_code (e : GrouperError) : GrouperError.ofCode e.code = some e := by
  cases e <;> rfl

/-- Source: none: infrastructure. Kind: L -/
theorem GrouperError.errval_toNat (e : GrouperError) : e.errval.toNat = e.ctorIdx := by
  cases e <;> rfl

/-- Pushing on the empty stack gives the bare code.
Source: none: infrastructure
Kind: L -/
theorem errPush_errNew (e : GrouperError) : errPush errNew e = e.errval := by
  cases e <;> rfl

/-- The empty stack, and the stack of a sequence that starts from a bare code.
Source: none: infrastructure
Kind: L -/
theorem errChainFrom_errval (e : GrouperError) (es : List GrouperError) :
    errChainFrom e.errval es = errChain (e :: es) := by
  rw [errChain, errChainFrom, errChainFrom, List.foldl_cons, errPush_errNew]

/-- Source: none: infrastructure. Kind: L -/
theorem errChain_append (es : List GrouperError) (e : GrouperError) :
    errChain (es ++ [e]) = errPush (errChain es) e := by
  simp [errChain, errChainFrom]

/-- Source: none: infrastructure. Kind: L -/
theorem errTop_toNat (errval : Errval) : (errTop errval).toNat = errval.toNat % 256 := by
  have hand : errval.toNat &&& 255 = errval.toNat % 256 :=
    Nat.and_two_pow_sub_one_eq_mod errval.toNat 8
  have hmask : (0xFF : Errval).toNat = 255 := rfl
  rw [errTop, BitVec.toNat_setWidth, BitVec.toNat_and, hmask, hand]
  omega

/-- Popping shifts the next byte's low seven bits into place.
Source: none: infrastructure
Kind: L -/
theorem errTop_div_two (errval : Errval) :
    (errTop errval).toNat / 2 = (errTop (errPop errval)).toNat % 128 := by
  rw [errTop_toNat, errTop_toNat, errPop_toNat]
  omega

/-- Codes that unwind from one word, all below 128, halve along the way.
Source: none: infrastructure
Kind: L -/
theorem errUnwind_isChain (n : ℕ) (errval : Errval)
    (h : ∀ c ∈ errUnwind n errval, c.toNat < 128) :
    List.IsChain (fun a b : BitVec 8 => a.toNat / 2 = b.toNat) (errUnwind n errval) := by
  induction n generalizing errval with
  | zero => exact List.isChain_nil
  | succ n ih =>
      cases n with
      | zero => exact List.isChain_singleton _
      | succ n =>
          have htail := ih (errPop errval) fun c hc => h c (List.mem_cons_of_mem _ hc)
          have hnext : (errTop (errPop errval)).toNat < 128 :=
            h _ (List.mem_cons_of_mem _ List.mem_cons_self)
          refine List.isChain_cons_cons.mpr ⟨?_, htail⟩
          rw [errTop_div_two, Nat.mod_eq_of_lt hnext]

/-- A halving sequence is a word in its own right: pushing it leaves just its last code.
Source: none: infrastructure
Kind: L -/
theorem errPush_of_half {errval : Errval} {e : GrouperError} (h : e.ctorIdx / 2 = errval.toNat) :
    errPush errval e = e.errval := by
  have hv : errval = BitVec.ofNat 64 (e.ctorIdx / 2) := by
    rw [h, BitVec.ofNat_toNat, BitVec.setWidth_eq]
  rw [hv]
  cases e <;> rfl

/-- Splitting a halving sequence at its last code.
Source: none: infrastructure
Kind: L -/
theorem halving_append_iff (es : List GrouperError) (e : GrouperError) :
    Halving (es ++ [e]) ↔
      Halving es ∧ e.ctorIdx / 2 = (es.map GrouperError.ctorIdx).getLastD 0 := by
  rw [Halving, Halving, List.map_append, List.map_singleton, ← List.cons_append,
    List.isChain_append]
  simp [List.getLast?_cons, List.getLastD_eq_getLast?]

/-- Source: none: infrastructure. Kind: L -/
theorem errChain_toNat_of_halving {es : List GrouperError} (h : Halving es) :
    (errChain es).toNat = (es.map GrouperError.ctorIdx).getLastD 0 := by
  induction es using List.reverseRecOn with
  | nil => rfl
  | append_singleton es e ih =>
      obtain ⟨hes, he⟩ := (halving_append_iff es e).mp h
      rw [errChain_append, errPush_of_half (he.trans (ih hes).symm), e.errval_toNat]
      simp

/-- On a halving sequence `err_top` returns the last code and `err_pop` undoes its push.
Source: none: infrastructure
Kind: L -/
theorem top_pop_of_halving {es : List GrouperError} {e : GrouperError} (h : Halving (es ++ [e])) :
    errTop (errChain (es ++ [e])) = e.code ∧ errPop (errChain (es ++ [e])) = errChain es := by
  obtain ⟨hes, he⟩ := (halving_append_iff es e).mp h
  have hprev := errChain_toNat_of_halving hes
  have hword : errChain (es ++ [e]) = e.errval := by
    rw [errChain_append, errPush_of_half (he.trans hprev.symm)]
  have hlt := e.ctorIdx_lt
  rw [grouperErrorGuardValue] at hlt
  rw [hword]
  constructor
  · apply BitVec.eq_of_toNat_eq
    rw [errTop_toNat, e.errval_toNat, e.code_toNat]
    omega
  · apply BitVec.eq_of_toNat_eq
    rw [errPop_toNat, e.errval_toNat, hprev, he]

/-- Source: none: infrastructure. Kind: L -/
theorem errUnwind_of_halving {es : List GrouperError} (h : Halving es) :
    errUnwind (es.length + 1) (errChain es) =
      (es.map GrouperError.code).reverse ++ [GrouperError.ok.code] := by
  induction es using List.reverseRecOn with
  | nil => rfl
  | append_singleton es e ih =>
      obtain ⟨htop, hpop⟩ := top_pop_of_halving h
      have hlen : (es ++ [e]).length + 1 = (es.length + 1) + 1 := by simp
      rw [hlen, errUnwind, htop, hpop, ih ((halving_append_iff es e).mp h).1]
      simp

/-- Source: none: infrastructure. Kind: L -/
theorem errPrintLoop_of_halving {es : List GrouperError} (h : Halving es)
    (hok : ∀ e ∈ es, e ≠ GrouperError.ok) :
    errPrintLoop (errChain es) = es.reverse.mapM GrouperError.message := by
  induction es using List.reverseRecOn with
  | nil =>
      have hnew : ¬ errIsFail (errChain []) = true := by decide
      rw [errPrintLoop, dif_neg hnew]
      rfl
  | append_singleton es e ih =>
      obtain ⟨htop, hpop⟩ := top_pop_of_halving h
      have hne : e ≠ GrouperError.ok := hok e (by simp)
      have hfail : errIsFail (errChain (es ++ [e])) = true := by
        rw [errIsFail, htop]
        revert hne
        cases e <;> decide
      have hstr : errStr (errChain (es ++ [e])) = some e.message := by
        rw [errStr, htop, e.ofCode_code, Option.map_some]
      rw [errPrintLoop, dif_pos hfail, hstr, hpop,
        ih ((halving_append_iff es e).mp h).1 fun e' he' => hok e' (by simp [he'])]
      cases hmsg : e.message with
      | none => simp [hmsg]
      | some msg =>
          cases hrest : es.reverse.mapM GrouperError.message <;> simp [hmsg, hrest]

/-- Unwinding the pushed codes and then `ERR_OK` forces the codes to halve.
Source: none: infrastructure
Kind: L -/
theorem halving_of_errUnwind {es : List GrouperError}
    (h : errUnwind (es.length + 1) (errChain es) =
      (es.map GrouperError.code).reverse ++ [GrouperError.ok.code]) : Halving es := by
  have hsmall : ∀ c ∈ errUnwind (es.length + 1) (errChain es), c.toNat < 128 := by
    intro c hc
    rw [h] at hc
    simp only [List.mem_append, List.mem_reverse, List.mem_map, List.mem_singleton] at hc
    rcases hc with ⟨e, -, rfl⟩ | rfl
    · have := e.ctorIdx_lt
      rw [grouperErrorGuardValue] at this
      rw [e.code_toNat]
      omega
    · decide
  have hchain := errUnwind_isChain _ _ hsmall
  have hrev : (es.map GrouperError.code).reverse ++ [GrouperError.ok.code] =
      (GrouperError.ok.code :: es.map GrouperError.code).reverse := by simp
  rw [h, hrev, List.isChain_reverse] at hchain
  have hmap : List.IsChain (fun a b : ℕ => b / 2 = a)
      ((GrouperError.ok.code :: es.map GrouperError.code).map BitVec.toNat) :=
    (List.isChain_map BitVec.toNat).mpr hchain
  have hidx : (GrouperError.ok.code :: es.map GrouperError.code).map BitVec.toNat =
      0 :: es.map GrouperError.ctorIdx := by
    simp [GrouperError.ctorIdx, Function.comp_def]
  rwa [hidx] at hmap

/-- Looking messages up along a list succeeds when every entry has one.
Source: none: infrastructure
Kind: L -/
theorem exists_mapM_message_iff (es : List GrouperError) :
    (∃ msgs, es.mapM GrouperError.message = some msgs) ↔
      ∀ e ∈ es, e.message.isSome = true := by
  induction es with
  | nil => simp
  | cons e es ih =>
      rw [List.forall_mem_cons, ← ih]
      cases hmsg : e.message <;> cases hrest : es.mapM GrouperError.message <;>
        simp [hmsg, hrest]

/-! ## When the error stack is a stack -/

/-- **The error word is a stack exactly on halving sequences.** For every sequence of codes other
than `ERR_OK`, pushed on `err_new()` — or on its own first code returned bare, which is the same
word — the stack law holds if and only if the first code is `1` and every later code halves to the
one before it (at most five codes), and each of them has a message.
Source: `error.c` `err_push`, `err_pop` (the shift is by `sizeof`, one bit); `error.c`
`grouper_error_str` (the three missing entries)
Kind: P
Fidelity: exact
Hyps: no code is `ERR_OK` -/
theorem errStackLaw_iff_halving (es : List GrouperError) (hok : ∀ e ∈ es, e ≠ GrouperError.ok) :
    (ErrStackLaw es ↔ Halving es ∧ ∀ e ∈ es, e.message.isSome = true) ∧
      ∀ e rest, es = e :: rest → errChainFrom e.errval rest = errChain es := by
  refine ⟨⟨fun law => ?_, fun ⟨hhalf, hmsg⟩ => ?_⟩, ?_⟩
  · obtain ⟨msgs, hmsgs, -⟩ := law.print
    have hsome := (exists_mapM_message_iff es.reverse).mp ⟨msgs, hmsgs⟩
    exact ⟨halving_of_errUnwind law.unwind, fun e he => hsome e (List.mem_reverse.mpr he)⟩
  · refine ⟨fun es' e hes => ?_, errUnwind_of_halving hhalf, fun c hc => ?_, ?_⟩
    · subst hes
      exact top_pop_of_halving hhalf
    · rw [errUnwind_of_halving hhalf] at hc
      simp only [List.mem_append, List.mem_reverse, List.mem_map, List.mem_singleton] at hc
      rcases hc with ⟨e, -, rfl⟩ | rfl
      · rw [e.code_toNat]
        exact e.ctorIdx_lt
      · decide
    · obtain ⟨msgs, hmsgs⟩ := (exists_mapM_message_iff es.reverse).mpr
        fun e he => hmsg e (List.mem_reverse.mp he)
      refine ⟨msgs, hmsgs, ?_⟩
      rw [errPrintStack, errPrintLoop_of_halving hhalf hok, hmsgs, Option.map_some]
  · rintro e rest rfl
    exact errChainFrom_errval e rest

/-- The law at a sequence of the kernel's own codes: `ERR_NOT_IMPLEMENTED` with
`ERR_NULL_ARGUMENT` pushed on it.
Source: none: an instance of `errStackLaw_iff_halving`
Kind: C -/
theorem errStackLaw_notImplemented_nullArgument :
    ErrStackLaw [.notImplemented, .nullArgument] :=
  (errStackLaw_iff_halving [.notImplemented, .nullArgument] (by decide)).1.mpr
    ⟨by unfold Halving; decide, by decide⟩

/-- `dt_initialize` pushes `ERR_DTB_MAPPING_FAILED` on the `ERR_PAGING_MAPPING_EXISTS` of a failed
`sv39_map`: the word is `63`, whose top is neither of the two codes and lies outside the message
table.
Source: `device_tree.c` `dt_initialize` (the first `sv39_map`)
Kind: C -/
theorem not_errStackLaw_mappingExists_dtbMappingFailed :
    errTop (errChain [.pagingMappingExists, .dtbMappingFailed]) = 63 ∧
      errStr (errChain [.pagingMappingExists, .dtbMappingFailed]) = none ∧
      ¬ ErrStackLaw [.pagingMappingExists, .dtbMappingFailed] := by
  refine ⟨by decide, by decide, fun law => ?_⟩
  have htop := (law.top_pop [.pagingMappingExists] .dtbMappingFailed rfl).1
  exact absurd htop (by decide)

end Octiron.Kzadhbat
