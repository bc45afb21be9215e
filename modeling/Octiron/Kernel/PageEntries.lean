import Octiron.Kernel.Paging

/-!
# Packing and unpacking page table entries

What the shifts and masks of `paging.c` do to single bits, and from it that what
`sv39_map_small_page` packs is what `sv39_unmap` and the walk unpack.

* `sv39TableEntry p` — the entry that links the table at `p`; `sv39LeafEntry` is the leaf entry.
* `sv39PtePpnToPaddr_tableEntry`, `sv39PtePpnToPaddr_leafEntry` — both unpack to the address packed.
* `vpn_injective` — canonical pages with the same three indices are the same page.
-/

namespace Octiron.Kernel

open Octiron.Found
open Octiron.Kzadhbat

/-! ## Bits of the macros -/

/-- Testing one bit with a mask.
Source: none: infrastructure
Kind: L -/
theorem and_twoPow_bne_zero (x : BitVec 64) {i : ℕ} (hi : i < 64) :
    ((x &&& BitVec.twoPow 64 i) != 0) = x.getLsbD i := by
  rw [BitVec.and_twoPow]
  by_cases h : x.getLsbD i
  · have hne : BitVec.twoPow 64 i ≠ 0 := by
      intro h0
      have hbit : (BitVec.twoPow 64 i).getLsbD i = (0 : BitVec 64).getLsbD i := by rw [h0]
      simp [hi] at hbit
    rw [if_pos h, h]
    exact bne_iff_ne.mpr hne
  · simp [h]

/-- Source: none: infrastructure. Kind: L -/
theorem sv39PteValid_eq (pte : BitVec 64) : sv39PteValid pte = pte.getLsbD 0 :=
  and_twoPow_bne_zero pte (i := 0) (by norm_num)

/-- Source: none: infrastructure. Kind: L -/
theorem sv39PteLeaf_eq (pte : BitVec 64) :
    sv39PteLeaf pte = (pte.getLsbD 1 || pte.getLsbD 2 || pte.getLsbD 3) := by
  have h₁ : sv39PteReadable pte = pte.getLsbD 1 := and_twoPow_bne_zero pte (i := 1) (by norm_num)
  have h₂ : sv39PteWritable pte = pte.getLsbD 2 := and_twoPow_bne_zero pte (i := 2) (by norm_num)
  have h₃ : sv39PteExecutable pte = pte.getLsbD 3 := and_twoPow_bne_zero pte (i := 3) (by norm_num)
  rw [sv39PteLeaf, h₁, h₂, h₃]

/-- Source: none: infrastructure. Kind: L -/
theorem getLsbD_sv39PtePpn (pte : BitVec 64) (i : ℕ) :
    (sv39PtePpn pte).getLsbD i = (pte.getLsbD (10 + i) && decide (i < 44)) := by
  have hmask : (0xFFFFFFFFFFF : BitVec 64) = lowMask 64 44 := rfl
  rw [sv39PtePpn, hmask, BitVec.getLsbD_and, BitVec.getLsbD_ushiftRight, getLsbD_lowMask]
  by_cases h : i < 44
  · simp [h, show i < 64 by omega]
  · simp [h]

/-- The address field: bits 10 to 53 of the entry are bits 12 to 55 of the address.
Source: none: infrastructure
Kind: L -/
theorem getLsbD_sv39PtePpnToPaddr (pte : BitVec 64) (i : ℕ) :
    (sv39PtePpnToPaddr pte).getLsbD i = (pte.getLsbD (i - 2) && decide (12 ≤ i ∧ i < 56)) := by
  rw [sv39PtePpnToPaddr, BitVec.getLsbD_shiftLeft, getLsbD_sv39PtePpn]
  by_cases h : 12 ≤ i ∧ i < 56
  · have hidx : 10 + (i - 12) = i - 2 := by omega
    simp [hidx, h, show i < 64 by omega, show ¬ i < 12 by omega, show i - 12 < 44 by omega]
  · rw [decide_eq_false h, Bool.and_false]
    by_cases h12 : i < 12
    · simp [h12]
    · simp [show ¬ i - 12 < 44 by omega]

/-- Source: none: infrastructure. Kind: L -/
theorem getLsbD_vpn (va : Addr) {level : ℕ} (hl : level ≤ 2) (i : ℕ) :
    (vpn va level).getLsbD i = (va.getLsbD (12 + 9 * level + i) && decide (i < 9)) := by
  have hmask : (0x1FF : BitVec 64) = lowMask 64 9 := rfl
  have key : ∀ k, ((va >>> k) &&& (0x1FF : BitVec 64)).getLsbD i =
      (va.getLsbD (k + i) && decide (i < 9)) := by
    intro k
    rw [hmask, BitVec.getLsbD_and, BitVec.getLsbD_ushiftRight, getLsbD_lowMask]
    by_cases h : i < 9
    · simp [h, show i < 64 by omega]
    · simp [h]
  rcases level with _ | _ | _ | level
  · exact key 12
  · exact key 21
  · exact key 30
  · omega

/-- An index is below 512.
Source: none: infrastructure
Kind: L -/
theorem vpn_lt (va : Addr) (level : ℕ) (hl : level ≤ 2) : (vpn va level).toNat < 512 := by
  have h := (toNat_lt_two_pow_iff (vpn va level) 9).mpr ?_
  · exact h
  · intro i hi
    rw [getLsbD_vpn va hl, decide_eq_false (by omega), Bool.and_false]

/-- An index, as an integer.
Source: none: infrastructure
Kind: L -/
theorem vpn_toNat (va : Addr) {level : ℕ} (hl : level ≤ 2) :
    (vpn va level).toNat = va.toNat / 2 ^ (12 + 9 * level) % 2 ^ 9 := by
  have hmask : (0x1FF : BitVec 64) = lowMask 64 9 := rfl
  have key : ∀ k, ((va >>> k) &&& (0x1FF : BitVec 64)).toNat = va.toNat / 2 ^ k % 2 ^ 9 := by
    intro k
    rw [hmask, and_lowMask_toNat _ (by norm_num), BitVec.toNat_ushiftRight, Nat.shiftRight_eq_div_pow]
  rcases level with _ | _ | _ | level
  · exact key 12
  · exact key 21
  · exact key 30
  · omega

/-- **Canonical pages are determined by their indices.**
Source: none: the Sv39 scheme
Kind: L -/
theorem vpn_injective {va va' : Addr} (hc : Canonical va) (hc' : Canonical va')
    (ha : PageAligned va) (ha' : PageAligned va') (h : ∀ level ≤ 2, vpn va level = vpn va' level) :
    va = va' := by
  have hfield : ∀ level ≤ 2, ∀ i < 9,
      va.getLsbD (12 + 9 * level + i) = va'.getLsbD (12 + 9 * level + i) := by
    intro level hl i hi
    have hbit : (vpn va level).getLsbD i = (vpn va' level).getLsbD i := by rw [h level hl]
    rwa [getLsbD_vpn va hl, getLsbD_vpn va' hl, decide_eq_true hi, Bool.and_true,
      Bool.and_true] at hbit
  have hindex : ∀ i, 12 ≤ i → i < 39 → va.getLsbD i = va'.getLsbD i := by
    intro i h12 h39
    have := hfield ((i - 12) / 9) (by omega) ((i - 12) % 9) (by omega)
    have hsplit : 12 + 9 * ((i - 12) / 9) + (i - 12) % 9 = i := by omega
    rwa [hsplit] at this
  apply BitVec.eq_of_getLsbD_eq
  intro i hi
  by_cases h12 : i < 12
  · rw [(and_lowMask_eq_zero_iff va 12).mp ha i h12, (and_lowMask_eq_zero_iff va' 12).mp ha' i h12]
  · by_cases h39 : i < 39
    · exact hindex i (by omega) h39
    · rw [hc i (by omega) hi, hc' i (by omega) hi]
      exact hindex 38 (by norm_num) (by norm_num)

/-- Source: none: infrastructure. Kind: L -/
theorem isAligned_page_iff (a : Addr) : isAligned a (sv39PageSizes 0) = true ↔ PageAligned a := by
  have hmask : sv39PageSizes 0 - 1 = lowMask 64 12 := rfl
  rw [isAligned, hmask, PageAligned, beq_iff_eq]

/-! ## Table entries -/

/-- The entry that links a table.
Source: `paging.c` `sv39_map_small_page` (`(page >> 2) | SV39_FLAGS_VALID`)
Kind: D -/
def sv39TableEntry (page : Addr) : BitVec 64 := (page >>> 2) ||| sv39FlagsValid

/-- An address that the address field of an entry can hold.
Source: none: infrastructure
Kind: D -/
structure Sv39Page (p : Addr) : Prop where
  aligned : PageAligned p
  lt : p.toNat < 2 ^ 56

section entries

variable {p : Addr}

/-- Source: none: infrastructure. Kind: L -/
theorem getLsbD_sv39FlagsValid (i : ℕ) : sv39FlagsValid.getLsbD i = decide (i = 0) := by
  have h : sv39FlagsValid = lowMask 64 1 := rfl
  rw [h, getLsbD_lowMask]
  by_cases h0 : i = 0
  · simp [h0]
  · simp [h0]

/-- Source: none: infrastructure. Kind: L -/
theorem Sv39Page.getLsbD_eq_false (h : Sv39Page p) {i : ℕ} (hi : i < 12 ∨ 56 ≤ i) :
    p.getLsbD i = false := by
  rcases hi with hi | hi
  · exact (and_lowMask_eq_zero_iff p 12).mp h.aligned i hi
  · exact (toNat_lt_two_pow_iff p 56).mp h.lt i hi

/-- Source: none: infrastructure. Kind: L -/
theorem getLsbD_sv39TableEntry (i : ℕ) :
    (sv39TableEntry p).getLsbD i = (p.getLsbD (2 + i) || decide (i = 0)) := by
  rw [sv39TableEntry, BitVec.getLsbD_or, BitVec.getLsbD_ushiftRight, getLsbD_sv39FlagsValid]

/-- Source: none: infrastructure. Kind: L -/
@[simp] theorem sv39PteValid_tableEntry (p : Addr) : sv39PteValid (sv39TableEntry p) = true := by
  rw [sv39PteValid_eq, getLsbD_sv39TableEntry]
  simp

/-- A linked table is not a leaf.
Source: none: infrastructure
Kind: L -/
theorem sv39PteLeaf_tableEntry (h : Sv39Page p) : sv39PteLeaf (sv39TableEntry p) = false := by
  rw [sv39PteLeaf_eq]
  simp only [getLsbD_sv39TableEntry]
  rw [h.getLsbD_eq_false (i := 2 + 1) (by norm_num), h.getLsbD_eq_false (i := 2 + 2) (by norm_num),
    h.getLsbD_eq_false (i := 2 + 3) (by norm_num)]
  rfl

/-- **Linking is undone by the address field.**
Source: none: infrastructure
Kind: L -/
theorem sv39PtePpnToPaddr_tableEntry (h : Sv39Page p) :
    sv39PtePpnToPaddr (sv39TableEntry p) = p := by
  apply BitVec.eq_of_getLsbD_eq
  intro i _
  rw [getLsbD_sv39PtePpnToPaddr, getLsbD_sv39TableEntry]
  by_cases hi : 12 ≤ i ∧ i < 56
  · have hidx : 2 + (i - 2) = i := by omega
    rw [hidx, decide_eq_true hi, decide_eq_false (by omega), Bool.or_false, Bool.and_true]
  · rw [decide_eq_false hi, Bool.and_false, h.getLsbD_eq_false (by omega)]

/-- The level-0 table is found with shifts alone, without the mask.
Source: `paging.c` `sv39_map_small_page` (`(l1[vpn[1]] >> 10) << 12`)
Kind: L -/
theorem shift_tableEntry (h : Sv39Page p) : (sv39TableEntry p >>> 10) <<< 12 = p := by
  apply BitVec.eq_of_getLsbD_eq
  intro i hi
  rw [BitVec.getLsbD_shiftLeft, BitVec.getLsbD_ushiftRight, getLsbD_sv39TableEntry]
  by_cases h12 : i < 12
  · simp [h12, h.getLsbD_eq_false (i := i) (Or.inl h12)]
  · have hidx : 2 + (10 + (i - 12)) = i := by omega
    simp only [hidx, hi, h12, decide_true, decide_false, Bool.not_false, Bool.true_and]
    rw [decide_eq_false (by omega), Bool.or_false]

/-! ## Leaf entries -/

/-- Flags in the low eight bits, one of them a leaf permission.
Source: `paging.h` `enum sv39_tableEntryFlags`
Kind: D -/
structure LeafFlags (flags : BitVec 64) : Prop where
  lt : flags.toNat < 2 ^ 8
  leaf : sv39PteLeaf flags = true

/-- The packed leaf is the page address above the flags: the three fields of `ppn` are the address
shifted down by two.
Source: none: infrastructure
Kind: L -/
theorem sv39LeafEntry_eq (h : Sv39Page p) (flags : BitVec 64) :
    sv39LeafEntry p flags = (p >>> 2) ||| (flags ||| sv39FlagsValid) := by
  have hfields : ((((p >>> 12) &&& 0x1FF) <<< 10) ||| (((p >>> 21) &&& 0x1FF) <<< 19) |||
      (((p >>> 30) &&& 0x3FFFFFF) <<< 28)) = p >>> 2 := by
    have h9 : (0x1FF : BitVec 64) = lowMask 64 9 := rfl
    have h26 : (0x3FFFFFF : BitVec 64) = lowMask 64 26 := rfl
    rw [h9, h26]
    apply BitVec.eq_of_getLsbD_eq
    intro i hi
    simp only [BitVec.getLsbD_or, BitVec.getLsbD_shiftLeft, BitVec.getLsbD_and,
      BitVec.getLsbD_ushiftRight, getLsbD_lowMask, hi, decide_true, Bool.true_and]
    -- the field that bit `i` belongs to
    by_cases h10 : i < 10
    · rw [h.getLsbD_eq_false (i := 2 + i) (by omega)]
      simp [h10, show i < 19 by omega, show i < 28 by omega]
    · by_cases h19 : i < 19
      · have hidx : 12 + (i - 10) = 2 + i := by omega
        simp [h10, h19, hidx, show i < 28 by omega, show i - 10 < 9 by omega,
          show i - 10 < 64 by omega]
      · by_cases h28 : i < 28
        · have hidx : 21 + (i - 19) = 2 + i := by omega
          simp [h10, h19, h28, hidx, show ¬ i - 10 < 9 by omega, show i - 19 < 9 by omega,
            show i - 19 < 64 by omega]
        · have hidx : 30 + (i - 28) = 2 + i := by omega
          by_cases h54 : i < 54
          · simp [h10, h19, h28, hidx, show ¬ i - 10 < 9 by omega, show ¬ i - 19 < 9 by omega,
              show i - 28 < 26 by omega, show i - 28 < 64 by omega]
          · rw [h.getLsbD_eq_false (i := 2 + i) (by omega)]
            simp [show ¬ i - 10 < 9 by omega, show ¬ i - 19 < 9 by omega,
              show ¬ i - 28 < 26 by omega]
  unfold sv39LeafEntry
  simp only [hfields, BitVec.or_assoc]

/-- The address field of a leaf has 44 bits, so that the rest of a longer address is lost.
Source: `paging.c` `sv39_map_small_page`
Kind: L -/
theorem sv39LeafEntry_low (p : Addr) (flags : BitVec 64) :
    sv39LeafEntry (p &&& lowMask 64 56) flags = sv39LeafEntry p flags := by
  have h9 : (0x1FF : BitVec 64) = lowMask 64 9 := rfl
  have h26 : (0x3FFFFFF : BitVec 64) = lowMask 64 26 := rfl
  have hfield : ∀ k n, k + n ≤ 56 →
      ((p &&& lowMask 64 56) >>> k) &&& lowMask 64 n = (p >>> k) &&& lowMask 64 n := by
    intro k n hkn
    apply BitVec.eq_of_getLsbD_eq
    intro i hi
    simp only [BitVec.getLsbD_and, BitVec.getLsbD_ushiftRight, getLsbD_lowMask]
    by_cases hin : i < n
    · simp [hin, show k + i < 56 by omega, show k + i < 64 by omega]
    · simp [hin]
  unfold sv39LeafEntry
  simp only [h9, h26, hfield 12 9 (by norm_num), hfield 21 9 (by norm_num), hfield 30 26 (by norm_num)]

/-- Source: none: infrastructure. Kind: L -/
theorem getLsbD_sv39LeafEntry (h : Sv39Page p) (flags : BitVec 64) (i : ℕ) :
    (sv39LeafEntry p flags).getLsbD i =
      (p.getLsbD (2 + i) || (flags.getLsbD i || decide (i = 0))) := by
  rw [sv39LeafEntry_eq h, BitVec.getLsbD_or, BitVec.getLsbD_or, BitVec.getLsbD_ushiftRight,
    getLsbD_sv39FlagsValid]

/-- Source: none: infrastructure. Kind: L -/
theorem sv39PteValid_leafEntry (p : Addr) (flags : BitVec 64) :
    sv39PteValid (sv39LeafEntry p flags) = true := by
  rw [sv39PteValid_eq, sv39LeafEntry, BitVec.getLsbD_or, getLsbD_sv39FlagsValid]
  simp

/-- Source: none: infrastructure. Kind: L -/
theorem sv39PteLeaf_leafEntry (h : Sv39Page p) {flags : BitVec 64} (hf : LeafFlags flags) :
    sv39PteLeaf (sv39LeafEntry p flags) = true := by
  have hleaf := hf.leaf
  rw [sv39PteLeaf_eq] at hleaf ⊢
  simp only [getLsbD_sv39LeafEntry h]
  rw [h.getLsbD_eq_false (i := 2 + 1) (by norm_num), h.getLsbD_eq_false (i := 2 + 2) (by norm_num),
    h.getLsbD_eq_false (i := 2 + 3) (by norm_num)]
  simpa using hleaf

/-- **Packing an address is undone by the address field.**
Source: none: infrastructure
Kind: L -/
theorem sv39PtePpnToPaddr_leafEntry (h : Sv39Page p) {flags : BitVec 64} (hf : LeafFlags flags) :
    sv39PtePpnToPaddr (sv39LeafEntry p flags) = p := by
  apply BitVec.eq_of_getLsbD_eq
  intro i _
  rw [getLsbD_sv39PtePpnToPaddr, getLsbD_sv39LeafEntry h]
  by_cases hi : 12 ≤ i ∧ i < 56
  · have hidx : 2 + (i - 2) = i := by omega
    have hflag : flags.getLsbD (i - 2) = false :=
      (toNat_lt_two_pow_iff flags 8).mp hf.lt _ (by omega)
    rw [hidx, hflag, decide_eq_true hi, decide_eq_false (show ¬ i - 2 = 0 by omega), Bool.or_false,
      Bool.or_false, Bool.and_true]
  · rw [decide_eq_false hi, Bool.and_false, h.getLsbD_eq_false (by omega)]

/-- The flag bits of a leaf.
Source: none: infrastructure
Kind: L -/
theorem sv39LeafEntry_flags (h : Sv39Page p) {flags : BitVec 64} (hf : LeafFlags flags) :
    sv39LeafEntry p flags &&& lowMask 64 10 = flags ||| sv39FlagsValid := by
  apply BitVec.eq_of_getLsbD_eq
  intro i hi
  rw [BitVec.getLsbD_and, getLsbD_sv39LeafEntry h, getLsbD_lowMask, BitVec.getLsbD_or,
    getLsbD_sv39FlagsValid]
  by_cases h10 : i < 10
  · rw [h.getLsbD_eq_false (i := 2 + i) (by omega), Bool.false_or,
      decide_eq_true (show i < 10 ∧ i < 64 from ⟨h10, hi⟩), Bool.and_true]
  · have hflag : flags.getLsbD i = false := (toNat_lt_two_pow_iff flags 8).mp hf.lt _ (by omega)
    rw [decide_eq_false (fun hh : i < 10 ∧ i < 64 => h10 hh.1), Bool.and_false, hflag,
      decide_eq_false (show ¬ i = 0 by omega)]
    rfl

end entries

end Octiron.Kernel
