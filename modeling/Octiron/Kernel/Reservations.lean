import Octiron.Found.Loops
import Octiron.Kernel.Array
import Octiron.Kernel.DeviceTree

/-!
# The memory reservation block

`device_tree.c`: the loop of `dt_initialize` over the memory reservation block of the blob.

* `DtReservedRegion` — an entry, `reservationBlock` — the bytes of a list of entries with the entry of
  zeros behind them.
* `reservationLoop` — the loop. It tests and reads the words at `mem_rsvmap` and never changes
  `mem_rsvmap`.
* `reservationLoop_repeats` — while the first entry has no zero in it, round after round pushes the first
  entry.
* **Main result** (`reservationsRead_iff`): the loop reads a block if and only if the block has no
  entries.
-/

namespace Octiron.Kernel

open Octiron.Found
open Octiron.Found.Mem
open Octiron.Kzadhbat

/-! ## The code -/

/-- Source: `device_tree.c` `struct dtReservedRegion`. Kind: D -/
structure DtReservedRegion where
  /-- The physical address of the reserved region. -/
  address : BitVec 64
  /-- The size of the reserved region in bytes. -/
  size : BitVec 64
  deriving DecidableEq

/-- Source: `device_tree.c` `sizeof(struct dtReservedRegion)`. Kind: D -/
def sizeofDtReservedRegion : ℕ := 16

/-- The loop `while (mem_rsvmap[0] != 0 && mem_rsvmap[1] != 0)`, for at most `n` rounds. `grants` says
which calls of `pmm_alloc_aligned` succeed, `allocs` counts them.
Source: `device_tree.c` `dt_initialize`
Kind: D
Fidelity: exact -/
def reservationLoop (m : Mem) (memRsvmap : Addr) (grants : ℕ → Bool) :
    ℕ → ℕ → KArray DtReservedRegion → KArray DtReservedRegion × LoopEnd DtPanic
  | 0, _, reservedMemory => (reservedMemory, .endless)
  | n + 1, allocs, reservedMemory =>
      if load64 m memRsvmap ≠ 0 ∧ load64 m (memRsvmap + 8) ≠ 0 then
        let rr : DtReservedRegion :=
          ⟨endiannessFlipU64 (load64 m memRsvmap), endiannessFlipU64 (load64 m (memRsvmap + 8))⟩
        match arrayPush sizeofDtReservedRegion (grants allocs) reservedMemory rr with
        | none => (reservedMemory, .left .arrayAllocation)
        | some reservedMemory' =>
          reservationLoop m memRsvmap grants n (allocsAfter allocs reservedMemory) reservedMemory'
      else (reservedMemory, .finished)

/-- `ARRAY_INIT`.
Source: `device_tree.c` `dt_initialize`
Kind: D -/
def reservationInit : KArray DtReservedRegion := arrayInit ⟨0, 0⟩

/-! ## Blocks -/

/-- The eight bytes of a word, the most significant one first.
Source: none: infrastructure
Kind: D -/
def beU64 (v : BitVec 64) : List (BitVec 8) :=
  [byteOf v 7, byteOf v 6, byteOf v 5, byteOf v 4, byteOf v 3, byteOf v 2, byteOf v 1, byteOf v 0]

/-- **A memory reservation block**: the entries, and an entry of zeros.
Source: none: the device tree format
Kind: D -/
def reservationBlock (l : List DtReservedRegion) : List (BitVec 8) :=
  l.flatMap (fun rr => beU64 rr.address ++ beU64 rr.size) ++ List.replicate 16 0

/-- **The loop reads the entries `l`**: it ends, and the array has them in order.
Source: none: what the loop is for
Kind: D -/
def ReservationsRead (m : Mem) (memRsvmap : Addr) (grants : ℕ → Bool) (l : List DtReservedRegion) :
    Prop :=
  ∃ n a, reservationLoop m memRsvmap grants n 0 reservationInit = (a, .finished) ∧ a.contents = l

section block

variable {m : Mem} {p : Addr} {l : List DtReservedRegion} {grants : ℕ → Bool}

/-- A big-endian word of a block.
Source: none: infrastructure
Kind: L -/
theorem flip_load64_of_bytesAt {v : BitVec 64} {rest : List (BitVec 8)}
    (h : BytesAt m p (beU64 v ++ rest)) : endiannessFlipU64 (load64 m p) = v := by
  have hbyte : ∀ i < 8, m (p + BitVec.ofNat 64 i) = byteOf v (7 - i) := by
    intro i hi
    apply h i
    interval_cases i <;> rfl
  rw [load64, endiannessFlipU64_append]
  have h0 := hbyte 0 (by omega)
  have h1 := hbyte 1 (by omega)
  have h2 := hbyte 2 (by omega)
  have h3 := hbyte 3 (by omega)
  have h4 := hbyte 4 (by omega)
  have h5 := hbyte 5 (by omega)
  have h6 := hbyte 6 (by omega)
  have h7 := hbyte 7 (by omega)
  rw [h0, h1, h2, h3, h4, h5, h6, h7]
  exact byteOf_append v

/-- Source: none: infrastructure. Kind: L -/
theorem bytesAt_append_left {l₁ l₂ : List (BitVec 8)} (h : BytesAt m p (l₁ ++ l₂)) : BytesAt m p l₁ := by
  intro i b hb
  have hi := (List.getElem?_eq_some_iff.mp hb).1
  exact h i b ((List.getElem?_append_left hi).trans hb)

/-- Source: none: infrastructure. Kind: L -/
theorem bytesAt_append {l₁ l₂ : List (BitVec 8)} (h : BytesAt m p (l₁ ++ l₂)) :
    BytesAt m (p + BitVec.ofNat 64 l₁.length) l₂ := by
  intro i b hb
  have hi := h (l₁.length + i) b (by rw [List.getElem?_append_right (by omega)]; simpa using hb)
  rw [BitVec.add_assoc, ← BitVec.ofNat_add]
  exact hi

/-- A word is zero if and only if its flip is.
Source: none: infrastructure
Kind: L -/
theorem load64_ne_zero_iff {v : BitVec 64} {rest : List (BitVec 8)}
    (h : BytesAt m p (beU64 v ++ rest)) : load64 m p ≠ 0 ↔ v ≠ 0 := by
  have hflip := flip_load64_of_bytesAt h
  constructor
  · intro hne hv
    apply hne
    subst hv
    refine load64_of_zero fun i hi => h i 0 ?_
    interval_cases i <;> rfl
  · intro hne hzero
    rw [hzero] at hflip
    exact hne (hflip ▸ by decide)

/-- The first entry of a block, as the loop reads it.
Source: none: infrastructure
Kind: L -/
theorem first_of_block {rr : DtReservedRegion} (h : BytesAt m p (reservationBlock (rr :: l))) :
    (load64 m p ≠ 0 ↔ rr.address ≠ 0) ∧ (load64 m (p + 8) ≠ 0 ↔ rr.size ≠ 0) ∧
      endiannessFlipU64 (load64 m p) = rr.address ∧
      endiannessFlipU64 (load64 m (p + 8)) = rr.size := by
  rw [reservationBlock, List.flatMap_cons, List.append_assoc, List.append_assoc] at h
  have hsize := bytesAt_append h
  exact ⟨load64_ne_zero_iff h, load64_ne_zero_iff hsize, flip_load64_of_bytesAt h,
    flip_load64_of_bytesAt hsize⟩

/-- A block without entries starts with a zero word.
Source: none: infrastructure
Kind: L -/
theorem load64_of_empty_block (h : BytesAt m p (reservationBlock [])) : load64 m p = 0 := by
  refine load64_of_zero fun i hi => h i 0 ?_
  interval_cases i <;> rfl

end block

/-! ## What the loop does -/

section loop

variable {m : Mem} {p : Addr} {l : List DtReservedRegion} {grants : ℕ → Bool}

/-- The loop ends at once at a word of zeros.
Source: `device_tree.c` `dt_initialize`
Kind: L -/
theorem reservationLoop_of_zero (h : ¬ (load64 m p ≠ 0 ∧ load64 m (p + 8) ≠ 0)) (n allocs : ℕ)
    (a : KArray DtReservedRegion) :
    reservationLoop m p grants (n + 1) allocs a = (a, .finished) := by
  rw [reservationLoop, if_neg h]

/-- **The loop does not move on**: when the first entry has no zero, every round pushes it once more.
Source: `device_tree.c` `dt_initialize`
Kind: P -/
theorem reservationLoop_repeats (hgrants : ∀ k, grants k = true)
    (h : load64 m p ≠ 0 ∧ load64 m (p + 8) ≠ 0) {n : ℕ} :
    ∀ {allocs : ℕ} {a : KArray DtReservedRegion}, ArrayOk a →
      ∃ a', reservationLoop m p grants n allocs a = (a', .endless) ∧
        a'.contents = a.contents ++ List.replicate n
          ⟨endiannessFlipU64 (load64 m p), endiannessFlipU64 (load64 m (p + 8))⟩ := by
  induction n with
  | zero =>
      intro allocs a _
      exact ⟨a, rfl, by simp⟩
  | succ n ih =>
      intro allocs a hok
      obtain ⟨b, hb⟩ : ∃ b, arrayPush sizeofDtReservedRegion (grants allocs) a
          ⟨endiannessFlipU64 (load64 m p), endiannessFlipU64 (load64 m (p + 8))⟩ = some b := by
        rw [hgrants]
        unfold arrayPush arrayReserve
        by_cases hfull : arrayFull a = true
        · simp [hfull]
        · simp [hfull]
      obtain ⟨hok', hcontents⟩ := arrayPush_contents hok hb
      obtain ⟨a', hrun, hcontents'⟩ := ih hok'
      refine ⟨a', ?_, ?_⟩
      · rw [reservationLoop, if_pos h]
        simp only [hb]
        exact hrun
      · rw [hcontents', hcontents, List.append_assoc, List.singleton_append, List.replicate_succ]

/-- **Exactly when a block is read**: when it has no entries. At an entry with a zero in it the loop stops
without it, and at any other it stays for ever.
Source: `device_tree.c` `dt_initialize` ("Parse the Memory Reservation Block")
Kind: P
Fidelity: exact
Hyps: the allocations for the array succeed -/
theorem reservationsRead_iff (hblock : BytesAt m p (reservationBlock l))
    (hentries : ∀ rr ∈ l, ¬ (rr.address = 0 ∧ rr.size = 0)) (hgrants : ∀ k, grants k = true) :
    ReservationsRead m p grants l ↔ l = [] := by
  constructor
  · rintro ⟨n, a, hrun, hcontents⟩
    cases l with
    | nil => rfl
    | cons rr l =>
        exfalso
        obtain ⟨haddress, hsize, -⟩ := first_of_block hblock
        by_cases hfirst : load64 m p ≠ 0 ∧ load64 m (p + 8) ≠ 0
        · obtain ⟨a', hrun', -⟩ := reservationLoop_repeats hgrants hfirst (n := n)
            (arrayOk_init (⟨0, 0⟩ : DtReservedRegion))
          rw [reservationInit, hrun'] at hrun
          cases hrun
        · cases n with
          | zero => cases hrun
          | succ n =>
              rw [reservationLoop_of_zero hfirst] at hrun
              cases hrun
              cases hcontents
  · rintro rfl
    refine ⟨1, reservationInit, ?_, rfl⟩
    exact reservationLoop_of_zero (fun hh => hh.1 (load64_of_empty_block hblock)) 0 0 _

end loop

/-! ## Two blocks -/

/-- The memory with the bytes `l` at `p` and zeros elsewhere.
Source: none: infrastructure
Kind: D -/
def memOf (p : Addr) (l : List (BitVec 8)) : Mem := fun a => l.getD (a - p).toNat 0

/-- Source: none: infrastructure. Kind: L -/
theorem bytesAt_memOf (p : Addr) {l : List (BitVec 8)} (hl : l.length ≤ 2 ^ 64) :
    BytesAt (memOf p l) p l := by
  intro i b hb
  have hi : i < l.length := by
    by_contra hge
    rw [List.getElem?_eq_none (Nat.not_lt.mp hge)] at hb
    cases hb
  rw [memOf, add_ofNat_sub_toNat p (by omega), List.getD_eq_getElem?_getD, hb]
  rfl

/-- A block without entries.
Source: none: infrastructure
Kind: C -/
theorem reservationsRead_empty :
    ReservationsRead (memOf 0x88000028 (reservationBlock [])) 0x88000028 (fun _ => true) [] := by
  refine (reservationsRead_iff (bytesAt_memOf _ ?_) ?_ fun _ => rfl).mpr rfl
  · simp [reservationBlock]
  · exact fun rr hrr => absurd hrr List.not_mem_nil

/-- A block with one entry: the loop does not end.
Source: `device_tree.c` `dt_initialize`
Kind: C -/
theorem not_reservationsRead_oneEntry :
    ¬ ∀ m p (grants : ℕ → Bool) l, BytesAt m p (reservationBlock l) →
      (∀ rr ∈ l, ¬ (rr.address = 0 ∧ rr.size = 0)) → (∀ k, grants k = true) →
      ReservationsRead m p grants l := by
  intro hall
  have hblock : BytesAt (memOf 0x88000028 (reservationBlock [⟨0x80000000, 0x40000⟩])) 0x88000028
      (reservationBlock [⟨0x80000000, 0x40000⟩]) := bytesAt_memOf _ (by decide)
  obtain ⟨haddress, hsize, -⟩ := first_of_block hblock
  obtain ⟨n, a, hrun, -⟩ := hall _ _ (fun _ => true) _ hblock (by simp) fun _ => rfl
  obtain ⟨a', hrun', -⟩ := reservationLoop_repeats (fun _ => rfl : ∀ k : ℕ, (fun _ => true) k = true)
    ⟨haddress.mpr (by decide), hsize.mpr (by decide)⟩ (n := n)
    (arrayOk_init (⟨0, 0⟩ : DtReservedRegion))
  rw [reservationInit, hrun'] at hrun
  cases hrun

end Octiron.Kernel
