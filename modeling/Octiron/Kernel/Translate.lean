import Octiron.Kernel.PageRuns

/-!
# What `sv39_virt_to_phys` translates

`sv39_virt_to_phys` masks the page offset with the page *size* (`0x1000`) instead of the page size
minus one, and shifts the whole PPN of a superpage past its level. So it agrees with the Sv39
translation only where neither shows.

* `Sv39WellFormed` — walks end at an invalid entry or at a leaf whose PPN is aligned to its level.
* `sv39VirtToPhys_of_walk` — the loop follows the walk and puts the address together with
  `sv39LeafPhys`.
* `sv39LeafPhys_eq_iff` — when that is the translation: the page offset of `va` is zero, and at
  level 0 bit 12 of `va` is in the PPN, at a superpage the PPN is zero.
* **Main result** (`sv39VirtToPhys_exact`): when `sv39_virt_to_phys` computes the translation, for
  every well-formed table, and in particular after `sv39_map`.
-/

namespace Octiron.Kernel

open Octiron.Found
open Octiron.Found.Mem
open Octiron.Kzadhbat

variable {σ : Type}

/-! ## The loop and the walk -/

/-- Every walk that meets no invalid entry ends at a leaf, and the PPN of a superpage is a multiple
of its size.
Source: none: the Sv39 scheme
Kind: D -/
def Sv39WellFormed (m : Mem) (root : Addr) : Prop :=
  ∀ va level pte, sv39Walk m va 2 root = some (level, pte) →
    sv39PteLeaf pte = true ∧ sv39PtePpn pte &&& lowMask 64 (9 * level) = 0

/-- Source: none: infrastructure. Kind: L -/
theorem sv39VirtToPhysLoop_of_none {m : Mem} {va : Addr} :
    ∀ {level : ℕ} {table : Addr}, sv39Walk m va level table = none →
      sv39VirtToPhysLoop m va level table = some none
  | 0, table, h => by
      rw [sv39Walk] at h
      unfold sv39VirtToPhysLoop
      by_cases hv : sv39PteValid (load64 m (slot table (vpn va 0)))
      · simp [hv] at h
      · simp [hv]
  | level + 1, table, h => by
      rw [sv39Walk] at h
      unfold sv39VirtToPhysLoop
      by_cases hv : sv39PteValid (load64 m (slot table (vpn va (level + 1))))
      · by_cases hl : sv39PteLeaf (load64 m (slot table (vpn va (level + 1))))
        · simp [hv, hl] at h
        · simp only [hv, hl, if_true, Bool.false_eq_true, if_false, sv39PtePpnToPaddr] at h
          simpa [hv, hl] using sv39VirtToPhysLoop_of_none h
      · simp [hv]

/-- Source: none: infrastructure. Kind: L -/
theorem sv39VirtToPhysLoop_of_some {m : Mem} {va : Addr} {l : ℕ} {pte : BitVec 64}
    (hleaf : sv39PteLeaf pte = true) :
    ∀ {level : ℕ} {table : Addr}, sv39Walk m va level table = some (l, pte) →
      sv39VirtToPhysLoop m va level table = some (some (sv39LeafPhys va pte l))
  | 0, table, h => by
      rw [sv39Walk] at h
      unfold sv39VirtToPhysLoop
      by_cases hv : sv39PteValid (load64 m (slot table (vpn va 0)))
      · simp only [hv, if_true, Option.some.injEq, Prod.mk.injEq] at h
        obtain ⟨rfl, rfl⟩ := h
        simp [hv, hleaf]
      · simp [hv] at h
  | level + 1, table, h => by
      rw [sv39Walk] at h
      unfold sv39VirtToPhysLoop
      by_cases hv : sv39PteValid (load64 m (slot table (vpn va (level + 1))))
      · by_cases hl : sv39PteLeaf (load64 m (slot table (vpn va (level + 1))))
        · simp only [hv, hl, if_true, Option.some.injEq, Prod.mk.injEq] at h
          obtain ⟨rfl, rfl⟩ := h
          simp [hv, hl]
        · simp only [hv, hl, if_true, Bool.false_eq_true, if_false, sv39PtePpnToPaddr] at h
          simpa [hv, hl] using sv39VirtToPhysLoop_of_some hleaf h
      · simp [hv] at h

/-- The level of the leaf is at most the level the walk starts at.
Source: none: infrastructure
Kind: L -/
theorem sv39Walk_level_le {m : Mem} {va : Addr} {l : ℕ} {pte : BitVec 64} :
    ∀ {level : ℕ} {table : Addr}, sv39Walk m va level table = some (l, pte) → l ≤ level
  | 0, table, h => by
      rw [sv39Walk] at h
      by_cases hv : sv39PteValid (load64 m (slot table (vpn va 0)))
      · simp only [hv, if_true, Option.some.injEq, Prod.mk.injEq] at h
        exact le_of_eq h.1.symm
      · simp [hv] at h
  | level + 1, table, h => by
      rw [sv39Walk] at h
      by_cases hv : sv39PteValid (load64 m (slot table (vpn va (level + 1))))
      · by_cases hl : sv39PteLeaf (load64 m (slot table (vpn va (level + 1))))
        · simp only [hv, hl, if_true, Option.some.injEq, Prod.mk.injEq] at h
          exact le_of_eq h.1.symm
        · simp only [hv, hl, if_true, Bool.false_eq_true, if_false] at h
          exact (sv39Walk_level_le h).trans (Nat.le_succ level)
      · simp [hv] at h

/-! ## The address put together at a leaf -/

/-- The low bits of an address, in one bit.
Source: none: infrastructure
Kind: L -/
theorem getLsbD_sv39LeafTranslate (va pte : BitVec 64) {level i : ℕ} (hi : i < 64) :
    (sv39LeafTranslate va pte level).getLsbD i =
      if i < 12 + 9 * level then va.getLsbD i else (sv39PtePpnToPaddr pte).getLsbD i := by
  rw [sv39LeafTranslate, BitVec.getLsbD_or, BitVec.getLsbD_and, BitVec.getLsbD_and,
    BitVec.getLsbD_not, getLsbD_lowMask]
  by_cases h : i < 12 + 9 * level
  · simp [h, hi]
  · simp [h, hi]

/-- What `va & 0x1000` leaves of the page offset: nothing, but it adds bit 12.
Source: `paging.c` `sv39_virt_to_phys` (`page_offset`)
Kind: L -/
theorem getLsbD_pageOffset (va : BitVec 64) (i : ℕ) :
    (va &&& sv39PageSizes 0).getLsbD i = (va.getLsbD 12 && decide (i = 12)) := by
  have hsize : sv39PageSizes 0 = BitVec.twoPow 64 12 := rfl
  rw [hsize, BitVec.getLsbD_and, BitVec.getLsbD_twoPow]
  by_cases h : i = 12
  · simp [h]
  · simp [h, Ne.symm h]

/-- Bits of the code's address at level 0.
Source: none: infrastructure
Kind: L -/
theorem getLsbD_sv39LeafPhys_page (va pte : BitVec 64) (i : ℕ) :
    (sv39LeafPhys va pte 0).getLsbD i =
      ((sv39PtePpnToPaddr pte).getLsbD i || (va.getLsbD 12 && decide (i = 12))) := by
  have h : sv39LeafPhys va pte 0 = sv39PtePpnToPaddr pte ||| (va &&& sv39PageSizes 0) := rfl
  rw [h, BitVec.getLsbD_or, getLsbD_pageOffset]

/-- A shifted index, in one bit.
Source: none: infrastructure
Kind: L -/
theorem getLsbD_vpn_shift (va : Addr) (level : ℕ) {i : ℕ} (hl : level ≤ 2) (hi : i < 64) :
    (vpn va level <<< (12 + 9 * level)).getLsbD i =
      (va.getLsbD i && decide (12 + 9 * level ≤ i ∧ i < 21 + 9 * level)) := by
  rw [BitVec.getLsbD_shiftLeft, getLsbD_vpn va hl]
  by_cases h : 12 + 9 * level ≤ i
  · have hidx : 12 + 9 * level + (i - (12 + 9 * level)) = i := by omega
    by_cases h' : i < 21 + 9 * level
    · simp [hi, hidx, h, h', show i - (12 + 9 * level) < 9 by omega]
    · simp [h', show ¬ i - (12 + 9 * level) < 9 by omega]
  · simp [h, show i < 12 + 9 * level by omega]

/-- Bits of the code's address at a superpage: the PPN is shifted to the end of the index bits.
Source: none: infrastructure
Kind: L -/
theorem getLsbD_sv39LeafPhys_super (va pte : BitVec 64) {level i : ℕ} (h0 : level ≠ 0)
    (hl : level ≤ 2) (hi : i < 64) :
    (sv39LeafPhys va pte level).getLsbD i =
      if i < 12 then false else if i < 12 + 9 * level then va.getLsbD i
      else (sv39PtePpn pte).getLsbD (i - (12 + 9 * level)) := by
  have hv0 := getLsbD_vpn_shift va 0 (by norm_num) hi
  have hv1 := getLsbD_vpn_shift va 1 (by norm_num) hi
  simp only [Nat.mul_zero, Nat.add_zero, Nat.mul_one, Nat.reduceAdd] at hv0 hv1
  have hoff := getLsbD_pageOffset va i
  -- at bit 12 the offset repeats the lowest bit of the index
  have hmerge : ∀ b : Bool, ((b || va.getLsbD i && decide (12 ≤ i ∧ i < 21)) ||
      va.getLsbD 12 && decide (i = 12)) = (b || va.getLsbD i && decide (12 ≤ i ∧ i < 21)) := by
    intro b
    by_cases h12 : i = 12
    · simp [h12]
    · simp [h12]
  interval_cases level
  · exact absurd rfl h0
  · show ((sv39PtePpn pte <<< 21) ||| (vpn va 0 <<< 12) ||| (va &&& sv39PageSizes 0)).getLsbD i = _
    rw [BitVec.getLsbD_or, BitVec.getLsbD_or, hv0, hoff, hmerge, BitVec.getLsbD_shiftLeft]
    by_cases h12 : i < 12
    · simp [h12, show i < 21 by omega]
    · by_cases h21 : i < 21
      · simp [h12, h21, show 12 ≤ i by omega]
      · simp [h12, h21, hi]
  · show ((sv39PtePpn pte <<< 30) ||| (vpn va 1 <<< 21) ||| (vpn va 0 <<< 12) |||
      (va &&& sv39PageSizes 0)).getLsbD i = _
    rw [BitVec.getLsbD_or, BitVec.getLsbD_or, BitVec.getLsbD_or, hv0, hv1, hoff, hmerge,
      BitVec.getLsbD_shiftLeft]
    by_cases h12 : i < 12
    · simp [h12, show i < 30 by omega, show ¬ 21 ≤ i by omega]
    · by_cases h21 : i < 21
      · simp [h12, h21, show 12 ≤ i by omega, show i < 30 by omega, show ¬ 21 ≤ i by omega]
      · by_cases h30 : i < 30
        · simp [h12, h21, h30, show 21 ≤ i by omega]
        · simp [h12, h21, h30, hi]

/-- A PPN whose bits repeat with a period, the lowest period being zero, is zero.
Source: none: infrastructure
Kind: L -/
theorem sv39PtePpn_eq_zero_of_period {pte : BitVec 64} {k : ℕ} (hk : 0 < k)
    (hlow : ∀ j < k, (sv39PtePpn pte).getLsbD j = false)
    (hper : ∀ j, j + k < 44 → (sv39PtePpn pte).getLsbD j = (sv39PtePpn pte).getLsbD (j + k)) :
    sv39PtePpn pte = 0 := by
  have hall : ∀ j, (sv39PtePpn pte).getLsbD j = false := by
    intro j
    induction j using Nat.strong_induction_on with
    | _ j ih =>
        by_cases h44 : j < 44
        · by_cases hjk : j < k
          · exact hlow j hjk
          · have := hper (j - k) (by omega)
            rw [show j - k + k = j by omega, ih (j - k) (by omega)] at this
            exact this.symm
        · rw [getLsbD_sv39PtePpn, decide_eq_false h44, Bool.and_false]
  apply BitVec.eq_of_getLsbD_eq
  intro i _
  rw [hall i]
  exact BitVec.getLsbD_zero.symm

/-- **When the address put together is the translation.**
Source: `paging.c` `sv39_virt_to_phys`
Kind: P
Fidelity: exact -/
theorem sv39LeafPhys_eq_iff {va pte : BitVec 64} {level : ℕ} (hl : level ≤ 2)
    (halign : sv39PtePpn pte &&& lowMask 64 (9 * level) = 0) :
    sv39LeafPhys va pte level = sv39LeafTranslate va pte level ↔
      PageAligned va ∧
        if level = 0 then va.getLsbD 12 = true → (sv39PtePpn pte).getLsbD 0 = true
        else sv39PtePpn pte = 0 := by
  rw [and_lowMask_eq_zero_iff] at halign
  rw [PageAligned, and_lowMask_eq_zero_iff]
  have hfield : ∀ i, 12 ≤ i →
      (sv39PtePpnToPaddr pte).getLsbD i = (sv39PtePpn pte).getLsbD (i - 12) := by
    intro i h12
    rw [getLsbD_sv39PtePpnToPaddr, getLsbD_sv39PtePpn, show 10 + (i - 12) = i - 2 by omega]
    by_cases h : i < 56
    · simp [h12, h, show i - 12 < 44 by omega]
    · simp [h, show ¬ i - 12 < 44 by omega]
  have hlowfield : ∀ i, i < 12 → (sv39PtePpnToPaddr pte).getLsbD i = false := by
    intro i h12
    rw [getLsbD_sv39PtePpnToPaddr, decide_eq_false (by omega), Bool.and_false]
  by_cases h0 : level = 0
  · subst h0
    rw [if_pos rfl]
    constructor
    · intro heq
      have hbit : ∀ i < 64, ((sv39PtePpnToPaddr pte).getLsbD i ||
          (va.getLsbD 12 && decide (i = 12))) =
          if i < 12 + 9 * 0 then va.getLsbD i else (sv39PtePpnToPaddr pte).getLsbD i := by
        intro i hi
        rw [← getLsbD_sv39LeafPhys_page, heq, getLsbD_sv39LeafTranslate va pte hi]
      refine ⟨fun i hi => ?_, fun h12 => ?_⟩
      · have := hbit i (by omega)
        rw [if_pos (by omega), hlowfield i hi, decide_eq_false (by omega)] at this
        simpa using this.symm
      · have := hbit 12 (by norm_num)
        rw [if_neg (by norm_num), h12, hfield 12 le_rfl] at this
        simpa using this.symm
    · rintro ⟨hlow, h12⟩
      apply BitVec.eq_of_getLsbD_eq
      intro i hi
      rw [getLsbD_sv39LeafPhys_page, getLsbD_sv39LeafTranslate va pte hi]
      by_cases hi12 : i < 12
      · simp [hi12, hlow i hi12, hlowfield i hi12, show ¬ i = 12 by omega]
      · rw [if_neg (by omega), hfield i (by omega)]
        by_cases heq : i = 12
        · subst heq
          rcases hv : va.getLsbD 12 with _ | _
          · simp
          · simp [h12 hv]
        · simp [heq]
  · rw [if_neg h0]
    constructor
    · intro heq
      have hbit : ∀ i < 64, (if i < 12 then false else if i < 12 + 9 * level then va.getLsbD i
          else (sv39PtePpn pte).getLsbD (i - (12 + 9 * level))) =
          if i < 12 + 9 * level then va.getLsbD i else (sv39PtePpnToPaddr pte).getLsbD i := by
        intro i hi
        rw [← getLsbD_sv39LeafPhys_super va pte h0 hl hi, heq, getLsbD_sv39LeafTranslate va pte hi]
      refine ⟨fun i hi => ?_, ?_⟩
      · have := hbit i (by omega)
        rw [if_pos hi, if_pos (by omega)] at this
        exact this.symm
      · refine sv39PtePpn_eq_zero_of_period (k := 9 * level) (by omega) halign ?_
        intro j hj
        have := hbit (j + (12 + 9 * level)) (by omega)
        rw [if_neg (by omega), if_neg (by omega), if_neg (by omega), hfield _ (by omega)] at this
        rwa [Nat.add_sub_cancel, show j + (12 + 9 * level) - 12 = j + 9 * level by omega] at this
    · rintro ⟨hlow, hzero⟩
      have hz : ∀ j, (sv39PtePpn pte).getLsbD j = false := by
        intro j
        rw [hzero]
        exact BitVec.getLsbD_zero
      apply BitVec.eq_of_getLsbD_eq
      intro i hi
      rw [getLsbD_sv39LeafPhys_super va pte h0 hl hi, getLsbD_sv39LeafTranslate va pte hi]
      by_cases h12 : i < 12
      · rw [if_pos h12, if_pos (by omega), hlow i h12]
      · rw [if_neg h12]
        by_cases hlev : i < 12 + 9 * level
        · rw [if_pos hlev, if_pos hlev]
        · rw [if_neg hlev, if_neg hlev, hfield i (by omega), hz, hz]

/-! ## Translation -/

/-- **The inputs on which `sv39_virt_to_phys` is right**: the walk meets an invalid entry; or it ends
at a leaf, the page offset of `va` is zero, and the leaf is a page whose PPN has bit 0 set if `va`
has bit 12 set, or a superpage with PPN zero.
Source: `paging.c` `sv39_virt_to_phys`
Kind: D -/
def TranslatesAt (m : Mem) (root va : Addr) : Prop :=
  ∀ level pte, sv39Walk m va 2 root = some (level, pte) →
    PageAligned va ∧
      if level = 0 then va.getLsbD 12 = true → (sv39PtePpn pte).getLsbD 0 = true
      else sv39PtePpn pte = 0

/-- Source: none: infrastructure. Kind: L -/
theorem sv39VirtToPhys_eq_iff {m : Mem} {root : Addr} (hwf : Sv39WellFormed m root) (va : Addr) :
    sv39VirtToPhys m root va = some (sv39Translate m root va) ↔ TranslatesAt m root va := by
  unfold TranslatesAt sv39VirtToPhys sv39Translate
  rcases hw : sv39Walk m va 2 root with _ | ⟨level, pte⟩
  · rw [sv39VirtToPhysLoop_of_none hw]
    simp
  · obtain ⟨hleaf, halign⟩ := hwf va level pte hw
    rw [sv39VirtToPhysLoop_of_some hleaf hw, Option.map_some, Option.some.injEq, Option.some.injEq,
      sv39LeafPhys_eq_iff (sv39Walk_level_le hw) halign]
    constructor
    · rintro h level' pte' heq
      cases heq
      exact h
    · intro h
      exact h level pte rfl

/-- Offsets inside a page keep the bits above it.
Source: none: infrastructure
Kind: L -/
theorem getLsbD_add_offset {a off : BitVec 64} (ha : PageAligned a) (hoff : off.toNat < 4096)
    (i : ℕ) : (a + off).getLsbD i = if i < 12 then off.getLsbD i else a.getLsbD i := by
  rw [PageAligned, and_lowMask_eq_zero_iff] at ha
  have hhigh := (toNat_lt_two_pow_iff off 12).mp hoff
  have hdisj : a &&& off = 0 := by
    apply BitVec.eq_of_getLsbD_eq
    intro j _
    rw [BitVec.getLsbD_and]
    by_cases hj : j < 12
    · simp [ha j hj]
    · simp [hhigh j (by omega)]
  rw [BitVec.add_eq_or_of_and_eq_zero _ _ hdisj, BitVec.getLsbD_or]
  by_cases hi : i < 12
  · simp [hi, ha i hi]
  · simp [hi, hhigh i (by omega)]

/-- The indices do not depend on the page offset.
Source: none: infrastructure
Kind: L -/
theorem vpn_add_offset {va off : BitVec 64} (ha : PageAligned va) (hoff : off.toNat < 4096)
    {level : ℕ} (hl : level ≤ 2) : vpn (va + off) level = vpn va level := by
  apply BitVec.eq_of_getLsbD_eq
  intro i _
  rw [getLsbD_vpn _ hl, getLsbD_vpn _ hl, getLsbD_add_offset ha hoff, if_neg (by omega)]

/-- Source: none: infrastructure. Kind: L -/
theorem sv39Walk_congr {m : Mem} {va va' : Addr} (h : ∀ level ≤ 2, vpn va level = vpn va' level) :
    ∀ {level : ℕ} {table : Addr}, level ≤ 2 → sv39Walk m va level table = sv39Walk m va' level table
  | 0, table, _ => by
      rw [sv39Walk, sv39Walk, h 0 (by norm_num)]
  | level + 1, table, hl => by
      rw [sv39Walk, sv39Walk, h (level + 1) hl]
      simp only [sv39Walk_congr h (Nat.le_of_succ_le hl)]

section mapped

variable {pmmAlloc : PmmAlloc σ} {w : World σ} {root : Addr} {M : PageMap}

/-- Every tree of tables that `sv39_map` and `sv39_unmap` build is well-formed.
Source: none: infrastructure
Kind: L -/
theorem TablesRep.wellFormed {m : Mem} {T : TableNode → Option Addr}
    {A : PageIndex → Option Mapping} (h : TablesRep m root T A) : Sv39WellFormed m root := by
  intro va level pte hw
  rw [h.walk va] at hw
  rcases hA : A (pageIndex va) with _ | x
  · rw [hA] at hw
    cases hw
  · rw [hA] at hw
    cases hw
    refine ⟨sv39PteLeaf_leafEntry x.page x.leafFlags, ?_⟩
    rw [and_lowMask_eq_zero_iff]
    intro i hi
    omega

/-- **After `sv39_map`**, `sv39_virt_to_phys` is right at the page's own address, unless it has bit
12 set and the physical page has not; and wrong at every other address of the page.
Source: `paging.c` `sv39_virt_to_phys`
Kind: P
Fidelity: exact -/
theorem sv39VirtToPhys_mapped_iff (h : MapRep w.mem root M) {va : Addr} (hva : VirtualPage va)
    {x : Mapping} (hx : M va = some x) {off : BitVec 64} (hoff : off.toNat < 4096) :
    sv39VirtToPhys w.mem root (va + off) = some (some (x.pa + off)) ↔
      off = 0 ∧ (va.getLsbD 12 = true → x.pa.getLsbD 12 = true) := by
  have hwalk : sv39Walk w.mem (va + off) 2 root = some (0, x.entry) := by
    rw [sv39Walk_congr (fun level hl => vpn_add_offset hva.aligned hoff hl) le_rfl, h.walk hva, hx]
    rfl
  have hleaf : sv39PteLeaf x.entry = true := sv39PteLeaf_leafEntry x.page x.leafFlags
  have hpa : sv39PtePpnToPaddr x.entry = x.pa := sv39PtePpnToPaddr_leafEntry x.page x.leafFlags
  rw [sv39VirtToPhys, sv39VirtToPhysLoop_of_some hleaf hwalk, Option.some.injEq, Option.some.injEq]
  have hphys : ∀ i, (sv39LeafPhys (va + off) x.entry 0).getLsbD i =
      (x.pa.getLsbD i || (va.getLsbD 12 && decide (i = 12))) := by
    intro i
    rw [getLsbD_sv39LeafPhys_page, hpa, getLsbD_add_offset hva.aligned hoff, if_neg (by norm_num)]
  have hsum := getLsbD_add_offset x.page.aligned hoff
  constructor
  · intro heq
    have hbit : ∀ i, (x.pa.getLsbD i || (va.getLsbD 12 && decide (i = 12))) =
        if i < 12 then off.getLsbD i else x.pa.getLsbD i := by
      intro i
      rw [← hphys, heq, hsum]
    refine ⟨?_, fun h12 => ?_⟩
    · apply BitVec.eq_of_getLsbD_eq
      intro i _
      by_cases hi : i < 12
      · have := hbit i
        rw [if_pos hi, x.page.getLsbD_eq_false (Or.inl hi), decide_eq_false (by omega)] at this
        rw [← this]
        simp
      · rw [(toNat_lt_two_pow_iff off 12).mp hoff i (by omega)]
        exact BitVec.getLsbD_zero.symm
    · have := hbit 12
      rw [if_neg (by norm_num), h12] at this
      simpa using this.symm
  · rintro ⟨rfl, h12⟩
    apply BitVec.eq_of_getLsbD_eq
    intro i _
    have hzero : x.pa + 0 = x.pa := BitVec.add_zero _
    rw [hphys, hzero]
    by_cases hi : i = 12
    · subst hi
      rcases hv : va.getLsbD 12 with _ | _
      · simp
      · simp [h12 hv]
    · simp [hi]

end mapped

/-- **Exactly when `sv39_virt_to_phys` computes the Sv39 translation**: on every well-formed table,
and after every successful `sv39_map` of a run, for the addresses of the page mapped.
Source: `paging.h` `sv39_virt_to_phys`
Kind: P
Fidelity: exact -/
theorem sv39VirtToPhys_exact (root va : Addr) :
    (∀ m, Sv39WellFormed m root → Canonical va →
      (sv39VirtToPhys m root va = some (sv39Translate m root va) ↔ TranslatesAt m root va)) ∧
    (∀ {σ : Type} (pmmAlloc : PmmAlloc σ) (w : World σ) (M : PageMap) (x : Mapping),
      Sv39Run pmmAlloc root w M → VirtualPage va → PmmCallsOk pmmAlloc root w va →
      (sv39Map pmmAlloc w root va x.pa x.flags .page).2 = GrouperError.ok.errval →
      ∀ off : BitVec 64, off.toNat < 4096 →
        (sv39VirtToPhys (sv39Map pmmAlloc w root va x.pa x.flags .page).1.mem root (va + off) =
            some (some (x.pa + off)) ↔
          off = 0 ∧ (va.getLsbD 12 = true → x.pa.getLsbD 12 = true))) := by
  refine ⟨fun m hwf _ => sv39VirtToPhys_eq_iff hwf va, ?_⟩
  intro σ pmmAlloc w M x hrun hva hok hmap off hoff
  have hrep := mapRep_of_run hrun
  have hunmapped := (hrep.mapRefines hva x hok).ok_iff.mp hmap
  have hx : M.map va x (tablesAvailable pmmAlloc w root va) va = some x := by
    rw [hunmapped.2, PageMap.map_of_unmapped hunmapped.1, Function.update_self]
  exact sv39VirtToPhys_mapped_iff (hrep.map hva x hok).1 hva hx hoff

/-! ## The example run -/

/-- The memory after the first `sv39_map` of the example run.
Source: none: infrastructure
Kind: D -/
def mappedWorld : World Addr :=
  (sv39Map pageBump bootWorld 0x80000000 0x80200000 0x80200000 6 .page).1

/-- Source: none: infrastructure. Kind: L -/
theorem mapRep_mappedWorld :
    ∃ M, MapRep mappedWorld.mem 0x80000000 M ∧ M 0x80200000 = some identityMapping := by
  have hrep := (mapRep_of_run sv39Run_bootWorld).map virtualPage_0x80200000 identityMapping
    pmmCallsOk_bootWorld
  refine ⟨_, hrep.1, ?_⟩
  rw [tablesAvailable_bootWorld, PageMap.map_of_unmapped rfl, Function.update_self]

/-- Source: none: infrastructure. Kind: L -/
theorem wellFormed_mappedWorld : Sv39WellFormed mappedWorld.mem 0x80000000 := by
  obtain ⟨M, ⟨-, T, A, hrep, -⟩, -⟩ := mapRep_mappedWorld
  exact hrep.wellFormed

/-- One byte into the page, the walk ends at the page's leaf.
Source: none: infrastructure
Kind: L -/
theorem sv39Walk_mappedWorld :
    sv39Walk mappedWorld.mem 0x80200001 2 0x80000000 = some (0, identityMapping.entry) := by
  obtain ⟨M, hrep, hM⟩ := mapRep_mappedWorld
  have hindex : ∀ level ≤ 2, vpn 0x80200001 level = vpn 0x80200000 level :=
    fun level hl => vpn_add_offset virtualPage_0x80200000.aligned (show (1 : Addr).toNat < 4096 by
      decide) hl
  rw [sv39Walk_congr hindex le_rfl, hrep.walk virtualPage_0x80200000, hM]
  rfl

/-- Both parts on the example run: one byte into the page the translation is missed; at its start
it is found.
Source: none: infrastructure
Kind: C -/
theorem sv39VirtToPhys_exact_mappedWorld :
    sv39VirtToPhys mappedWorld.mem 0x80000000 0x80200001 ≠
        some (sv39Translate mappedWorld.mem 0x80000000 0x80200001) ∧
      sv39VirtToPhys mappedWorld.mem 0x80000000 (0x80200000 + 0) = some (some (0x80200000 + 0)) := by
  refine ⟨fun heq => ?_, ?_⟩
  · have hat := ((sv39VirtToPhys_exact _ _).1 _ wellFormed_mappedWorld (by decide)).mp heq
    exact absurd (hat _ _ sv39Walk_mappedWorld).1 (by decide)
  · have hok := (mapRep_of_run sv39Run_bootWorld).mapRefines virtualPage_0x80200000 identityMapping
      pmmCallsOk_bootWorld
    exact ((sv39VirtToPhys_exact 0x80000000 0x80200000).2 pageBump bootWorld _ identityMapping
      sv39Run_bootWorld virtualPage_0x80200000 pmmCallsOk_bootWorld
      (hok.ok_iff.mpr ⟨rfl, tablesAvailable_bootWorld⟩) 0 (by decide)).mpr ⟨rfl, by decide⟩

/-- `sv39_virt_to_phys` is not the Sv39 translation: `0x80200001` comes out as `0x80200000`.
Source: `paging.c` `sv39_virt_to_phys`
Kind: C -/
theorem not_sv39VirtToPhys_eq_translate :
    ¬ ∀ m root va, Sv39WellFormed m root → Canonical va →
      sv39VirtToPhys m root va = some (sv39Translate m root va) := by
  intro hall
  have heq := hall _ _ 0x80200001 wellFormed_mappedWorld (by decide)
  have hat := (sv39VirtToPhys_eq_iff wellFormed_mappedWorld _).mp heq
  exact absurd (hat _ _ sv39Walk_mappedWorld).1 (by decide)

end Octiron.Kernel
