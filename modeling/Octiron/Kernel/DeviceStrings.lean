import Octiron.Kernel.DeviceCells

/-!
# Splitting `compatible`

`device_tree.c`: `dtb_rewrite_property_compatible` counts the zero bytes of a value, asks for one slot more
than that, and then puts a pointer to each string of the value in a slot and `NULL` in the last one. The
second loop goes on by `strlen`, which does not know where the value ends.

* `joinStrings`, `CutInto l strs tail` — a value is strings, each with its terminator, and a tail without
  one. Every value is, in one way (`exists_cutInto`, `CutInto.unique`).
* `compatStrings` — the strings of a list that ends with `NULL`.
* `dtbCompatLoop_eq` — the second loop writes the slots of the strings, and one more when there is a tail.
* **Main result** (`compatible_exact`): nothing is written but the slots, and the list has exactly the
  strings that have a terminator in the value.
-/

namespace Octiron.Kernel

open Octiron.Found
open Octiron.Found.Mem
open Octiron.Kzadhbat

/-! ## Strings in a value -/

/-- The strings, each with its terminator.
Source: none: infrastructure
Kind: D -/
def joinStrings (strs : List (List (BitVec 8))) : List (BitVec 8) := strs.flatMap (· ++ [0])

/-- **How a value is cut**: strings with their terminators, and a tail.
Source: none: infrastructure
Kind: D -/
structure CutInto (l : List (BitVec 8)) (strs : List (List (BitVec 8))) (tail : List (BitVec 8)) :
    Prop where
  value : l = joinStrings strs ++ tail
  strings : ∀ s ∈ strs, 0 ∉ s
  tail : 0 ∉ tail

section strings

variable {l tail : List (BitVec 8)} {strs : List (List (BitVec 8))}

@[simp] theorem joinStrings_nil : joinStrings [] = [] := rfl

@[simp] theorem joinStrings_cons (s : List (BitVec 8)) (strs : List (List (BitVec 8))) :
    joinStrings (s :: strs) = s ++ [0] ++ joinStrings strs := rfl

/-- Source: none: infrastructure. Kind: L -/
theorem exists_cutInto (l : List (BitVec 8)) : ∃ strs tail, CutInto l strs tail := by
  induction l with
  | nil => exact ⟨[], [], rfl, fun _ hs => absurd hs List.not_mem_nil, List.not_mem_nil⟩
  | cons b l ih =>
      obtain ⟨strs, tail, rfl, hstrs, htail⟩ := ih
      by_cases hb : b = 0
      · refine ⟨[] :: strs, tail, by rw [hb]; rfl, fun s hs => ?_, htail⟩
        rcases List.mem_cons.mp hs with rfl | hs
        · exact List.not_mem_nil
        · exact hstrs s hs
      · cases strs with
        | nil =>
            refine ⟨[], b :: tail, rfl, fun _ hs => absurd hs List.not_mem_nil, ?_⟩
            rw [List.mem_cons, not_or]
            exact ⟨Ne.symm hb, htail⟩
        | cons s strs =>
            refine ⟨(b :: s) :: strs, tail, rfl, fun s' hs => ?_, htail⟩
            rcases List.mem_cons.mp hs with rfl | hs
            · rw [List.mem_cons, not_or]
              exact ⟨Ne.symm hb, hstrs s List.mem_cons_self⟩
            · exact hstrs s' (List.mem_cons_of_mem _ hs)

/-- There are as many strings as zero bytes.
Source: none: infrastructure
Kind: L -/
theorem CutInto.count (h : CutInto l strs tail) : l.count 0 = strs.length := by
  obtain ⟨rfl, hstrs, htail⟩ := h
  rw [List.count_append, List.count_eq_zero_of_not_mem htail, Nat.add_zero]
  induction strs with
  | nil => rfl
  | cons s strs ih =>
      rw [joinStrings_cons, List.count_append, List.count_append,
        List.count_eq_zero_of_not_mem (hstrs s List.mem_cons_self),
        ih fun s hs => hstrs s (List.mem_cons_of_mem _ hs), List.length_cons]
      simp [Nat.add_comm]

/-- Source: none: infrastructure. Kind: L -/
theorem append_zero_inj {s s' t t' : List (BitVec 8)} (hs : 0 ∉ s) (hs' : 0 ∉ s')
    (h : s ++ 0 :: t = s' ++ 0 :: t') : s = s' ∧ t = t' := by
  induction s generalizing s' with
  | nil =>
      cases s' with
      | nil => exact ⟨rfl, (List.cons.inj h).2⟩
      | cons b s' =>
          have hb := (List.cons.inj h).1
          rw [hb] at hs'
          exact absurd List.mem_cons_self hs'
  | cons b s ih =>
      cases s' with
      | nil =>
          have hb := (List.cons.inj h).1
          rw [hb] at hs
          exact absurd List.mem_cons_self hs
      | cons b' s' =>
          obtain ⟨hb, htail⟩ := List.cons.inj h
          obtain ⟨hss, htt⟩ := ih (fun hmem => hs (List.mem_cons_of_mem _ hmem))
            (fun hmem => hs' (List.mem_cons_of_mem _ hmem)) htail
          exact ⟨by rw [hb, hss], htt⟩

/-- **A value is cut in one way**.
Source: none: infrastructure
Kind: L -/
theorem CutInto.unique {strs' : List (List (BitVec 8))} {tail' : List (BitVec 8)}
    (h : CutInto l strs tail) (h' : CutInto l strs' tail') : strs = strs' ∧ tail = tail' := by
  have hlen : strs.length = strs'.length := h.count.symm.trans h'.count
  obtain ⟨hl, hstrs, htail⟩ := h
  obtain ⟨hl', hstrs', htail'⟩ := h'
  have heq := hl.symm.trans hl'
  clear hl hl'
  induction strs generalizing strs' with
  | nil =>
      have hnil := List.length_eq_zero_iff.mp hlen.symm
      subst hnil
      exact ⟨rfl, heq⟩
  | cons s strs ih =>
      cases strs' with
      | nil => cases hlen
      | cons s' strs' =>
          simp only [joinStrings_cons, List.append_assoc, List.singleton_append] at heq
          obtain ⟨rfl, hrest⟩ := append_zero_inj (hstrs s List.mem_cons_self)
            (hstrs' s' List.mem_cons_self) heq
          obtain ⟨rfl, rfl⟩ := ih (Nat.succ.inj hlen)
            (fun s hs => hstrs s (List.mem_cons_of_mem _ hs))
            (fun s hs => hstrs' s (List.mem_cons_of_mem _ hs)) hrest
          exact ⟨rfl, rfl⟩

end strings

/-! ## The second loop -/

/-- The slots: pointers to the strings at these offsets.
Source: `device_tree.c` `dtb_rewrite_property_compatible`
Kind: D -/
def compatColumn (value compat : Addr) (offset : ℕ → ℕ) : Column where
  base := compat
  width := 8
  elem := fun i => wordBytes (value + BitVec.ofNat 64 (offset i)) 8
  length_elem := fun _ => length_wordBytes _ _

/-- Where string `i` starts.
Source: none: infrastructure
Kind: D -/
def stringOffset (strs : List (List (BitVec 8))) (i : ℕ) : ℕ := (joinStrings (strs.take i)).length

section loop

variable {m : Mem} {value compat : Addr} {l : List (BitVec 8)} {offset : ℕ → ℕ} {n : ℕ}

/-- `strlen` goes at least as far as there are no zeros.
Source: `impl.c` `strlen`
Kind: L -/
theorem le_strlen {p : Addr} {tail : List (BitVec 8)} (h : BytesAt m p tail) (h0 : 0 ∉ tail)
    (hlen : tail.length ≤ 2 ^ 64) : tail.length ≤ strlen m p := by
  have hloop : ∀ (tail : List (BitVec 8)) (p : Addr) (n : ℕ), BytesAt m p tail → 0 ∉ tail →
      tail.length ≤ n → tail.length ≤ strlenLoop m n p := by
    intro tail
    induction tail with
    | nil => exact fun _ _ _ _ _ => Nat.zero_le _
    | cons b tail ih =>
        intro p n h h0 hn
        rw [List.length_cons] at hn
        obtain ⟨n, rfl⟩ : ∃ k, n = k + 1 := ⟨n - 1, by omega⟩
        obtain ⟨hb, hrest⟩ := bytesAt_cons.mp h
        rw [List.mem_cons, not_or] at h0
        have hne : ¬ m p = 0 := by
          rw [hb]
          exact fun hzero => h0.1 hzero.symm
        rw [strlenLoop, if_neg hne, List.length_cons]
        exact Nat.succ_le_succ (ih _ _ hrest h0.2 (by omega))
  exact hloop tail p _ h h0 hlen

/-- Source: none: infrastructure. Kind: L -/
theorem bytesAt_part {pre part : List (BitVec 8)} (post : List (BitVec 8))
    (h : bytes m value l.length = l) (hl : l = pre ++ part ++ post) : BytesAt m (value + BitVec.ofNat 64 pre.length) part := by
  intro i b hi
  have hlt : i < part.length := (List.getElem?_eq_some_iff.mp hi).1
  have hlen := congrArg List.length hl
  rw [List.length_append, List.length_append] at hlen
  have hget := getElem?_bytes (m := m) (a := value) (show pre.length + i < l.length by omega)
  rw [h, hl, List.append_assoc, List.getElem?_append_right (Nat.le_add_right _ _),
    Nat.add_sub_cancel_left, List.getElem?_append_left hlt, hi, Option.some.injEq] at hget
  rw [BitVec.add_assoc, ← BitVec.ofNat_add]
  exact hget.symm

/-- Source: `device_tree.c` `dtb_rewrite_property_compatible`. Kind: L -/
theorem dtbCompatLoop_end {valueLen i j : ℕ} (hj : valueLen ≤ j) :
    dtbCompatLoop compat value valueLen n i j m = m := by
  cases n with
  | zero => rfl
  | succ n => rw [dtbCompatLoop, if_neg (Nat.not_lt.mpr hj)]

/-- One round of the loop.
Source: `device_tree.c` `dtb_rewrite_property_compatible`
Kind: L -/
theorem dtbCompatLoop_succ {valueLen i j : ℕ} (hj : j < valueLen) (hoffset : offset i = j) :
    let m' := (compatColumn value compat offset).put i m
    dtbCompatLoop compat value valueLen (n + 1) i j m =
      dtbCompatLoop compat value valueLen n (i + 1)
        (j + (strlen m' (value + BitVec.ofNat 64 j) + 1)) m' := by
  have hstore : store64 m (compat + BitVec.ofNat 64 (8 * i)) (value + BitVec.ofNat 64 j) =
      (compatColumn value compat offset).put i m := by
    rw [store64_eq_put, ← hoffset]
    rfl
  rw [dtbCompatLoop, if_pos hj]
  dsimp only
  rw [hstore]

/-- **The second loop** writes the slots of the strings that are left, and one more when there is a tail:
each `strlen` ends at the terminator, and the one of the tail goes behind the value.
Source: `device_tree.c` `dtb_rewrite_property_compatible`
Kind: P -/
theorem dtbCompatLoop_eq {slots : ℕ}
    (hapart : ValueApart value l [compatColumn value compat offset] slots) {tail : List (BitVec 8)}
    (htail : 0 ∉ tail) {strs : List (List (BitVec 8))} :
    ∀ (pre : List (BitVec 8)) (i r : ℕ) {m : Mem}, l = pre ++ joinStrings strs ++ tail →
      (∀ s ∈ strs, 0 ∉ s) → bytes m value l.length = l →
      (∀ k ≤ strs.length, offset (i + k) = pre.length + stringOffset strs k) →
      r = strs.length + (if tail = [] then 0 else 1) → i + r ≤ slots → r ≤ n →
      dtbCompatLoop compat value l.length n i pre.length m =
        putRows [compatColumn value compat offset] i r m := by
  have hlen64 := hapart.length
  induction strs generalizing n with
  | nil =>
      intro pre i r m hl _ hbytes hoffset hr hslots hn
      rw [joinStrings_nil, List.append_nil] at hl
      have hlen := congrArg List.length hl
      rw [List.length_append] at hlen
      by_cases hnil : tail = []
      · rw [if_pos hnil] at hr
        rw [hnil, List.length_nil] at hlen
        rw [dtbCompatLoop_end (by omega), hr]
        rfl
      · rw [if_neg hnil] at hr
        have hpos := List.length_pos_of_ne_nil hnil
        obtain ⟨n, rfl⟩ : ∃ k, n = k + 1 := ⟨n - 1, by omega⟩
        have hi : offset i = pre.length := hoffset 0 (Nat.zero_le _)
        have hbytes' := hapart.put (List.mem_singleton_self _) hbytes (show i < slots by omega)
        have hat := bytesAt_part [] hbytes' (by rw [List.append_nil]; exact hl)
        have hfar := le_strlen hat htail (by omega)
        rw [dtbCompatLoop_succ (by omega) hi, dtbCompatLoop_end (by omega), hr]
        rfl
  | cons s strs ih =>
      intro pre i r m hl hstrs hbytes hoffset hr hslots hn
      rw [List.length_cons] at hr
      obtain ⟨n, rfl⟩ : ∃ k, n = k + 1 := ⟨n - 1, by omega⟩
      obtain ⟨r, rfl⟩ : ∃ k, r = k + 1 := ⟨r - 1, by omega⟩
      have hs : 0 ∉ s := hstrs s List.mem_cons_self
      have hl' : l = (pre ++ (s ++ [0])) ++ joinStrings strs ++ tail := by
        rw [hl, joinStrings_cons]
        simp
      have hlen := congrArg List.length hl'
      simp only [List.length_append, List.length_singleton] at hlen
      have hi : offset i = pre.length := hoffset 0 (Nat.zero_le _)
      have hbytes' := hapart.put (List.mem_singleton_self _) hbytes (show i < slots by omega)
      have hat : CStringAt ((compatColumn value compat offset).put i m)
          (value + BitVec.ofNat 64 pre.length) s := by
        refine bytesAt_part (joinStrings strs ++ tail) hbytes' ?_
        rw [hl', List.append_assoc]
      have hstrlen := strlen_of_cstringAt hat hs (by omega)
      have hnext := ih (n := n) (pre ++ (s ++ [0])) (i + 1) r hl'
        (fun s hs => hstrs s (List.mem_cons_of_mem _ hs)) hbytes' (fun k hk => ?_) (by omega)
        (by omega) (by omega)
      · rw [dtbCompatLoop_succ (by omega) hi, hstrlen, putRows]
        rw [List.length_append, List.length_append, List.length_singleton] at hnext
        exact hnext
      · have h := hoffset (k + 1) (by rw [List.length_cons]; omega)
        rw [show i + 1 + k = i + (k + 1) by omega, h]
        unfold stringOffset
        rw [List.take_succ_cons, joinStrings_cons]
        simp only [List.length_append, List.length_singleton]
        omega

end loop

/-! ## The list -/

/-- The strings of a list of pointers that ends with `NULL`, for at most `n` rounds.
Source: none: infrastructure
Kind: D -/
def compatStrings (m : Mem) : ℕ → Addr → List (List (BitVec 8))
  | 0, _ => []
  | n + 1, p =>
      let s := load64 m p
      if s = 0 then [] else bytes m s (strlen m s) :: compatStrings m n (p + 8)

/-- **A value split exactly**, between `b` and `b'`.
Source: `device_tree.c` `dtb_rewrite_property_compatible`
Kind: D -/
structure CompatExact (b b' : BumpAllocator) (value compat : Addr) (l : List (BitVec 8)) : Prop where
  /-- There is one slot more than zero bytes. -/
  slots : BumpBuffer b { b' with mem := b.mem } compat (8 * (l.count 0 + 1))
  /-- The second loop writes slots `0`, …, `r - 1` of them, -/
  loop : ∃ offset, ∃ r ≤ l.count 0 + 1, dtbCompatLoop compat value l.length l.length 0 0 b.mem =
    putRows [compatColumn value compat offset] 0 r b.mem
  /-- and nothing but the slots is written. -/
  frame : ∀ x ∉ span compat (8 * (l.count 0 + 1)), b'.mem x = b.mem x
  /-- The list has the strings of the value that have a terminator in it. -/
  list : ∀ strs tail, CutInto l strs tail → ∀ n, strs.length < n → compatStrings b'.mem n compat = strs

section compat

variable {assertions : Bool} {b b' : BumpAllocator} {p : DtProperty} {len : BitVec 32}
  {value compat : Addr} {l tail : List (BitVec 8)} {strs : List (List (BitVec 8))} {m : Mem}

/-- The first loop counts the zero bytes.
Source: `device_tree.c` `dtb_rewrite_property_compatible`
Kind: L -/
theorem countP_zero_bytes (h : bytes m value l.length = l) :
    ((List.range l.length).countP fun i => m (value + BitVec.ofNat 64 i) = 0) = l.count 0 := by
  conv_rhs => rw [← h]
  rw [List.count, bytes, List.countP_map]
  refine List.countP_congr fun i _ => ?_
  simp

/-- Reading the word that was put.
Source: none: infrastructure
Kind: L -/
theorem load64_of_bytes {q : Addr} {v : BitVec 64} (h : bytes m q 8 = wordBytes v 8) :
    load64 m q = v := by
  apply BitVec.eq_of_toNat_eq
  have hload := toNat_eq_leNat (k := 8) (load64 m q)
  rw [wordBytes_load64, h] at hload
  exact hload.trans (toNat_eq_leNat (k := 8) v).symm

/-- **The strings behind the pointers**, from a slot on.
Source: `device_tree.c` `dtb_rewrite_property_compatible`
Kind: L -/
theorem compatStrings_eq (hbytes : bytes m value l.length = l) (hcut : CutInto l strs tail)
    (hlen : l.length < 2 ^ 64)
    (hnull : ∀ off < l.length, value + BitVec.ofNat 64 off ≠ 0)
    (hslot : ∀ i < strs.length, load64 m (compat + BitVec.ofNat 64 (8 * i)) =
      value + BitVec.ofNat 64 (stringOffset strs i))
    (hend : load64 m (compat + BitVec.ofNat 64 (8 * strs.length)) = 0)
    {rest : List (List (BitVec 8))} :
    ∀ (start : List (List (BitVec 8))) (n : ℕ), strs = start ++ rest → rest.length < n →
      compatStrings m n (compat + BitVec.ofNat 64 (8 * start.length)) = rest := by
  induction rest with
  | nil =>
      intro start n hstrs hn
      rw [List.append_nil] at hstrs
      obtain ⟨n, rfl⟩ : ∃ k, n = k + 1 := ⟨n - 1, by omega⟩
      rw [compatStrings, ← hstrs, hend]
      rfl
  | cons s rest ih =>
      intro start n hstrs hn
      rw [List.length_cons] at hn
      obtain ⟨n, rfl⟩ : ∃ k, n = k + 1 := ⟨n - 1, by omega⟩
      have hoffset : stringOffset strs start.length = (joinStrings start).length := by
        rw [stringOffset, hstrs, List.take_left]
      have hvalue : l = joinStrings start ++ (s ++ [0]) ++ (joinStrings rest ++ tail) := by
        rw [hcut.value, hstrs]
        simp [joinStrings]
      have hlength := congrArg List.length hvalue
      simp only [List.length_append, List.length_singleton] at hlength
      have hlt : start.length < strs.length := by
        rw [hstrs, List.length_append, List.length_cons]
        omega
      have hs : 0 ∉ s := hcut.strings s (by rw [hstrs]; exact List.mem_append_right _ List.mem_cons_self)
      have hat : CStringAt m (value + BitVec.ofNat 64 (joinStrings start).length) s :=
        bytesAt_part _ hbytes hvalue
      have hpart : BytesAt m (value + BitVec.ofNat 64 (joinStrings start).length) s := by
        refine bytesAt_part ([0] ++ (joinStrings rest ++ tail)) hbytes ?_
        rw [hvalue]
        simp
      have hload := hslot start.length hlt
      rw [hoffset] at hload
      rw [compatStrings, hload, if_neg (hnull _ (by omega)), strlen_of_cstringAt hat hs (by omega), hpart.bytes]
      have hnext := ih (start ++ [s]) n (by rw [hstrs]; simp) (by omega)
      rw [List.length_append, List.length_singleton, Nat.mul_add, BitVec.ofNat_add,
        ← BitVec.add_assoc] at hnext
      exact congrArg (s :: ·) hnext

/-- **The slots behind the loops**: pointers to the strings, and `NULL`.
Source: `device_tree.c` `dtb_rewrite_property_compatible`
Kind: L -/
theorem compatExact_putRows (hok : BumpOk b) (hbytes : bytes b.mem value l.length = l)
    (hhas : BumpHas b value l.length) (hlen : l.length < 2 ^ 64)
    (hbuffer : BumpBuffer b b' compat (8 * (l.count 0 + 1))) (hcut : CutInto l strs tail) :
    let m := dtbCompatLoop compat value l.length l.length 0 0 b.mem
    CompatExact b { b' with mem := store64 m (compat + BitVec.ofNat 64 (8 * l.count 0)) 0 }
      value compat l := by
  intro m
  have hcount := hcut.count
  set column := compatColumn value compat (stringOffset strs) with hcolumn
  have hbuffers : BumpBuffers b ([column].map fun c => (c.base, c.width * (l.count 0 + 1))) b' :=
    .cons hbuffer .nil
  have hapart := columnsApart_of_buffers hbuffers
  have hvalue := valueApart_of_buffers hbuffers hhas
  have hfits : 8 * (l.count 0 + 1) ≤ 2 ^ 64 := hapart.fits column (List.mem_singleton_self _)
  set r := strs.length + (if tail = [] then 0 else 1) with hr
  have hrle : r ≤ l.count 0 + 1 := by
    rw [hr, hcount]
    split_ifs <;> omega
  have hrounds : r ≤ l.length := by
    have hl := congrArg List.length hcut.value
    have hjoin : strs.length ≤ (joinStrings strs).length := by
      rw [joinStrings, List.length_flatMap]
      refine le_trans (le_of_eq ?_) (List.card_nsmul_le_sum _ 1 fun x hx => ?_)
      · simp
      · obtain ⟨s, -, rfl⟩ := List.mem_map.mp hx
        rw [List.length_append]
        exact Nat.le_add_left _ _
    rw [List.length_append] at hl
    by_cases hnil : tail = []
    · rw [hr, if_pos hnil]
      omega
    · have := List.length_pos_of_ne_nil hnil
      rw [hr, if_neg hnil]
      omega
  have hloop : dtbCompatLoop compat value l.length l.length 0 0 b.mem = putRows [column] 0 r b.mem :=
    dtbCompatLoop_eq hvalue hcut.tail [] 0 r hcut.value hcut.strings hbytes
      (fun k _ => by rw [Nat.zero_add, List.length_nil, Nat.zero_add]) hr (by omega) hrounds
  rw [show m = putRows [column] 0 r b.mem from hloop]
  set m' := store64 (putRows [column] 0 r b.mem) (compat + BitVec.ofNat 64 (8 * l.count 0)) 0 with hm'
  have hput : m' = Mem.put (putRows [column] 0 r b.mem) (compat + BitVec.ofNat 64 (8 * l.count 0))
      (wordBytes (0 : BitVec 64) 8) := by rw [hm', store64_eq_put]
  have hframe : ∀ x ∉ span compat (8 * (l.count 0 + 1)), m' x = b.mem x := by
    intro x hx
    have hin : ∀ k < l.count 0 + 1, x ∉ column.at k := fun k hk hxk =>
      hx (column.at_subset hk hfits hxk)
    rw [hput, put_apply_of_notMem (by rw [length_wordBytes]; exact hin (l.count 0) (by omega))]
    refine putRows_apply fun c hc k _ hk => ?_
    rw [List.mem_singleton.mp hc]
    exact hin k (by omega)
  refine ⟨?_, ⟨_, r, hrle, hloop⟩, hframe, fun strs' tail' hcut' n hn => ?_⟩
  · have hmem := hbuffer.mem
    rw [← hmem]
    exact hbuffer
  · obtain ⟨rfl, rfl⟩ := hcut.unique hcut'
    have hbytes' : bytes m' value l.length = l := by
      refine (bytes_congr hlen.le fun x hx => hframe x fun hxc => ?_).trans hbytes
      exact Set.disjoint_left.mp (hhas.disjoint hbuffer) hx hxc
    have hnull : ∀ off < l.length, value + BitVec.ofNat 64 off ≠ 0 := by
      intro off hoff
      refine BumpHas.ne_zero (n := 1) ?_ hok (by decide)
      rcases hhas with h0 | ⟨o, rfl, ho⟩
      · omega
      · exact Or.inr ⟨o + off, by rw [BitVec.ofNat_add, BitVec.add_assoc], by omega⟩
    have hslot : ∀ i < strs.length, load64 m' (compat + BitVec.ofNat 64 (8 * i)) =
        value + BitVec.ofNat 64 (stringOffset strs i) := by
      intro i hi
      refine load64_of_bytes ?_
      have hrow := bytes_putRows (m := b.mem) hapart (by omega : 0 + r ≤ l.count 0 + 1)
        (Nat.zero_le i) (by omega) (List.mem_singleton_self column)
      rw [hput, bytes_put_of_disjoint (by decide)]
      · exact hrow
      · rw [length_wordBytes]
        exact column.disjoint_at (by omega) (by omega) (by omega) hfits
    have hend : load64 m' (compat + BitVec.ofNat 64 (8 * strs.length)) = 0 := by
      refine load64_of_bytes ?_
      have hsame := bytes_put_same (putRows [column] 0 r b.mem)
        (compat + BitVec.ofNat 64 (8 * l.count 0)) (l := wordBytes (0 : BitVec 64) 8) (by decide)
      rw [length_wordBytes] at hsame
      rw [← hcount, hput]
      exact hsame
    have hstrings := compatStrings_eq hbytes' hcut hlen hnull hslot hend [] n rfl hn
    rw [List.length_nil, Nat.mul_zero, BitVec.add_zero] at hstrings
    exact hstrings

/-- **`compatible` values are split exactly**.
Source: `device_tree.c` `dtb_rewrite_property_compatible`
Kind: P
Hyps: the value is in the buffer, and there is memory for the slots -/
theorem compatible_exact (assertions : Bool) (b : BumpAllocator) (p : DtProperty) (len : BitVec 32)
    (value : Addr) (l : List (BitVec 8)) (hok : BumpOk b) (hbig : b.size.toNat ≤ 2 ^ 63)
    (htype : p.type = .raw) (hdata : p.data = .raw len value) (hlen : len.toNat = l.length)
    (hholds : l ≠ [] → BumpHolds b value l)
    (hroom : (bumpAllocAligned b (BitVec.ofNat 64 (8 * (l.count 0 + 1))) 8).2 ≠ 0) :
    ∃ b' compat, dtbRewritePropertyCompatible assertions b p = .ok (b', .compatible, .compat compat) ∧
      CompatExact b b' value compat l ∧ (∃ strs tail, CutInto l strs tail) ∧
      ∀ strs, (∀ s ∈ strs, 0 ∉ s) → l = joinStrings strs → ∀ n, strs.length < n →
        compatStrings b'.mem n compat = strs ∧ joinStrings (compatStrings b'.mem n compat) = l := by
  have hlen32 := len.isLt
  have hcount32 : l.count 0 ≤ l.length := List.count_le_length
  have hbytes : bytes b.mem value l.length = l := by
    by_cases hnil : l = []
    · rw [hnil]
      rfl
    · exact (hholds hnil).bytes
  have hhas : BumpHas b value l.length := by
    by_cases hnil : l = []
    · exact Or.inl (by rw [hnil]; rfl)
    · exact BumpHas.of_holds (hholds hnil)
  have hvalue : ¬ (value = 0 ∧ len ≠ 0) := by
    rintro ⟨hzero, hne⟩
    exact hhas.ne_zero hok (fun h0 => hne (BitVec.eq_of_toNat_eq (hlen.trans h0))) hzero
  have hsize : (BitVec.ofNat 64 (8 * (l.count 0 + 1))).toNat = 8 * (l.count 0 + 1) := by
    rw [BitVec.toNat_ofNat, Nat.mod_eq_of_lt (by omega)]
  obtain ⟨strs, tail, hcut⟩ := exists_cutInto l
  rcases bumpAllocAligned_cases hbig hok (BitVec.ofNat 64 (8 * (l.count 0 + 1))) 8
    (by rw [hsize]; omega) (by decide) with ⟨hnone, -⟩ | ⟨b₁, compat, o, halloc, hgives, -, -⟩
  · rw [hnone] at hroom
    exact absurd rfl hroom
  · rw [hsize] at hgives
    have hexact := compatExact_putRows hok hbytes hhas (by omega) (.range hgives) hcut
    refine ⟨_, compat, ?_, hexact, ⟨strs, tail, hcut⟩, fun strs' hstrs' hl n hn => ?_⟩
    · unfold dtbRewritePropertyCompatible
      rw [if_neg (fun h => h.2 htype), hdata]
      dsimp only
      rw [if_neg hvalue, hlen, countP_zero_bytes hbytes, halloc]
      dsimp only
      rw [if_neg (hgives.ne_zero hok), hgives.after]
    · have hcut' : CutInto l strs' [] := ⟨by rw [hl, List.append_nil], hstrs', List.not_mem_nil⟩
      rw [hexact.list strs' [] hcut' n hn]
      exact ⟨rfl, hl.symm⟩

end compat

/-- The value of a UART's `compatible`.
Source: none: infrastructure
Kind: D -/
def uartCompatible : List (BitVec 8) := ascii "ns16550a" ++ 0 :: ascii "ns16550" ++ [0]

/-- Source: none: infrastructure. Kind: C -/
theorem compatible_exact_uart :
    ∃ b' compat, dtbRewritePropertyCompatible true (bytesBump uartCompatible)
        (bytesProperty uartCompatible) = .ok (b', .compatible, .compat compat) ∧
      compatStrings b'.mem 3 compat = [ascii "ns16550a", ascii "ns16550"] := by
  obtain ⟨b', compat, hrun, -, -, hlist⟩ := compatible_exact true (bytesBump uartCompatible)
    (bytesProperty uartCompatible) 17 0x1000 uartCompatible ⟨by decide, by decide, by decide⟩
    (by decide) rfl rfl rfl (fun _ => bumpHolds_bytesBump (by decide)) (by decide)
  exact ⟨b', compat, hrun, (hlist [ascii "ns16550a", ascii "ns16550"] (by decide) (by decide) 3
    (by decide)).1⟩

end Octiron.Kernel
