import Octiron.Kernel.Translate

/-!
# Page tables built by any calls

`sv39_map` checks that its two addresses are aligned, and nothing else: a physical address that is
too long loses its upper bits, and the flags are written over the whole entry.

* `Sv39Calls` — runs of `sv39_map` and `sv39_unmap` with any arguments, next to the arguments of the
  mappings that are in the table.
* `PteExact` — an entry that says what the caller asked for, and nothing else.
* **Main result** (`sv39Map_encodes_exact`): after a successful `sv39_map` the entry says so exactly
  when the address and the flags fit their fields; and `sv39_virt_to_phys` comes to an end at every
  address exactly when every mapping in the table has a leaf permission.
-/

namespace Octiron.Kernel

open Octiron.Found
open Octiron.Found.Mem
open Octiron.Kzadhbat

variable {σ : Type}

/-! ## Runs of any calls -/

/-- The arguments of the mappings that are in a table: physical address and flags, by the indices of
the page.
Source: none: infrastructure
Kind: D -/
abbrev MapArgs := PageIndex → Option (Addr × BitVec 64)

/-- **Runs of any calls**: a zero root, then any sequence of `sv39_map` and `sv39_unmap` calls with
any arguments. In each `sv39_map`, `pmm_alloc` fails or returns a fresh zeroed page.
Source: none: the runs of `paging.c`
Kind: D -/
inductive Sv39Calls (pmmAlloc : PmmAlloc σ) (root : Addr) : World σ → MapArgs → Prop
  | init {w : World σ} : root ≠ 0 → PageAligned root → PageZero w.mem root →
      Sv39Calls pmmAlloc root w fun _ => none
  | map {w : World σ} {B : MapArgs} (va pa : Addr) (flags : BitVec 64) (type : Sv39PageType) :
      Sv39Calls pmmAlloc root w B → PmmCallsOk pmmAlloc root w va →
      Sv39Calls pmmAlloc root (sv39Map pmmAlloc w root va pa flags type).1
        (if (sv39Map pmmAlloc w root va pa flags type).2 = GrouperError.ok.errval then
          Function.update B (pageIndex va) (some (pa, flags)) else B)
  | unmap {w : World σ} {B : MapArgs} (va : Addr) : Sv39Calls pmmAlloc root w B →
      Sv39Calls pmmAlloc root (sv39Unmap w root va).1
        (if (sv39Unmap w root va).2.isOk then Function.update B (pageIndex va) none else B)

/-- The entries that `sv39_map` wrote for the arguments.
Source: `paging.c` `sv39_map_small_page`
Kind: D -/
def MapArgs.entries (B : MapArgs) : PageIndex → Option (BitVec 64) :=
  fun i => (B i).map fun x => sv39LeafEntry x.1 x.2

/-- Source: none: infrastructure. Kind: L -/
theorem MapArgs.entries_update (B : MapArgs) (i : PageIndex) (x : Option (Addr × BitVec 64)) :
    MapArgs.entries (Function.update B i x) =
      Function.update B.entries i (x.map fun x => sv39LeafEntry x.1 x.2) := by
  funext j
  by_cases hj : j = i
  · rw [hj, MapArgs.entries, Function.update_self, Function.update_self]
  · rw [MapArgs.entries, Function.update_of_ne hj, Function.update_of_ne hj, MapArgs.entries]

/-- Memory holds the entries of `B`, all of them for aligned physical addresses.
Source: none: infrastructure
Kind: D -/
structure CallsRep (m : Mem) (root : Addr) (B : MapArgs) : Prop where
  root_ne : root ≠ 0
  rep : ∃ T, EntriesRep m root T B.entries
  aligned : ∀ {i pa flags}, B i = some (pa, flags) → PageAligned pa

section runs

variable {pmmAlloc : PmmAlloc σ} {w : World σ} {root : Addr} {B : MapArgs}

/-- Calls that return before they read the table.
Source: `paging.c` `sv39_map`, `sv39_map_small_page`
Kind: L -/
theorem sv39Map_refused (hroot : root ≠ 0) {va pa : Addr} (flags : BitVec 64) {type : Sv39PageType}
    (h : type ≠ .page ∨ ¬ PageAligned va ∨ ¬ PageAligned pa) :
    (sv39Map pmmAlloc w root va pa flags type).1 = w ∧
      (sv39Map pmmAlloc w root va pa flags type).2 ≠ GrouperError.ok.errval := by
  unfold sv39Map
  simp only [if_neg hroot]
  cases type with
  | page =>
      have h := h.resolve_left (fun hne => hne rfl)
      have hcheck :
          (!isAligned va (sv39PageSizes 0) || !isAligned pa (sv39PageSizes 0)) = true := by
        rw [← isAligned_page_iff, ← isAligned_page_iff] at h
        simpa using h
      simp only [sv39MapSmallPage, hcheck, if_true]
      exact ⟨trivial, by decide⟩
  | megaPage => exact ⟨rfl, by simp only [sv39MapMegaPage]; decide⟩
  | gigaPage => exact ⟨rfl, by simp only [sv39MapGigaPage]; decide⟩
  | other value =>
      have hne : GrouperError.pagingInvalidType.errval ≠ GrouperError.ok.errval := by decide
      exact ⟨rfl, hne⟩

/-- **One `sv39_map`** with any arguments.
Source: `paging.c` `sv39_map`
Kind: L -/
theorem CallsRep.map (h : CallsRep w.mem root B) (va pa : Addr) (flags : BitVec 64)
    (type : Sv39PageType) (hok : PmmCallsOk pmmAlloc root w va) :
    CallsRep (sv39Map pmmAlloc w root va pa flags type).1.mem root
      (if (sv39Map pmmAlloc w root va pa flags type).2 = GrouperError.ok.errval then
        Function.update B (pageIndex va) (some (pa, flags)) else B) := by
  by_cases hcall : type = .page ∧ PageAligned va ∧ PageAligned pa
  · obtain ⟨rfl, hva, hpa⟩ := hcall
    obtain ⟨T, hrep⟩ := h.rep
    obtain ⟨w', e, T', hmap, hcases⟩ := sv39Map_entries hrep h.root_ne hva hpa flags hok
    rw [hmap]
    have hexists : GrouperError.pagingMappingExists.errval ≠ GrouperError.ok.errval := by decide
    rcases hcases with ⟨-, -, he, hrep'⟩ | ⟨-, he, hrep'⟩ | ⟨-, -, ⟨e', he⟩, hrep'⟩
    · rw [if_pos he]
      refine ⟨h.root_ne, ⟨T', ?_⟩, ?_⟩
      · rw [MapArgs.entries_update]
        exact hrep'
      · intro i pa' flags' hi
        by_cases hidx : i = pageIndex va
        · rw [hidx, Function.update_self] at hi
          cases hi
          exact hpa
        · rw [Function.update_of_ne hidx] at hi
          exact h.aligned hi
    · rw [he, if_neg hexists]
      exact ⟨h.root_ne, ⟨T', hrep'⟩, h.aligned⟩
    · rw [he, if_neg (errPush_setupTable_ne e').1]
      exact ⟨h.root_ne, ⟨T', hrep'⟩, h.aligned⟩
  · have hrefused : (sv39Map pmmAlloc w root va pa flags type).1 = w ∧ _ :=
      sv39Map_refused h.root_ne flags (by tauto)
    rw [hrefused.1, if_neg hrefused.2]
    exact h

/-- **One `sv39_unmap`** with any argument.
Source: `paging.c` `sv39_unmap`
Kind: L -/
theorem CallsRep.unmap (h : CallsRep w.mem root B) (va : Addr) :
    CallsRep (sv39Unmap w root va).1.mem root
      (if (sv39Unmap w root va).2.isOk then Function.update B (pageIndex va) none else B) := by
  by_cases hva : PageAligned va
  · obtain ⟨T, hrep⟩ := h.rep
    rcases sv39Unmap_entries hrep h.root_ne hva with ⟨-, hunmap⟩ | ⟨v, w', -, hunmap, hrep'⟩
    · rw [hunmap]
      exact h
    · rw [hunmap]
      refine ⟨h.root_ne, ⟨T, ?_⟩, ?_⟩
      · show EntriesRep w'.mem root T (MapArgs.entries (Function.update B (pageIndex va) none))
        rw [MapArgs.entries_update]
        exact hrep'
      · intro i pa flags hi
        by_cases hidx : i = pageIndex va
        · rw [hidx] at hi
          simp [Except.isOk, Except.toBool] at hi
        · have hB : B i = some (pa, flags) := by
            simpa [Except.isOk, Except.toBool, Function.update_of_ne hidx] using hi
          exact h.aligned hB
  · have hcheck : (!isAligned va (sv39PageSizes 0)) = true := by
      rw [← isAligned_page_iff] at hva
      simpa using hva
    have hunmap : sv39Unmap w root va =
        (w, .error GrouperError.pagingUnalignedAddress.errval) := by
      rw [sv39Unmap, if_neg h.root_ne, if_pos hcheck]
    rw [hunmap]
    exact h

/-- **Run lemma**: memory holds the entries of the mappings in every state of a run.
Source: none: infrastructure
Kind: L -/
theorem callsRep_of_calls (h : Sv39Calls pmmAlloc root w B) : CallsRep w.mem root B := by
  induction h with
  | init hroot haligned hzero =>
      exact ⟨hroot, ⟨_, entriesRep_zero haligned hzero⟩, fun hi => nomatch hi⟩
  | map va pa flags type _ hok ih => exact ih.map va pa flags type hok
  | unmap va _ ih => exact ih.unmap va

/-- Source: none: infrastructure. Kind: L -/
theorem CallsRep.walk (h : CallsRep w.mem root B) (va : Addr) :
    sv39Walk w.mem va 2 root = (B (pageIndex va)).map fun x => (0, sv39LeafEntry x.1 x.2) := by
  obtain ⟨T, hrep⟩ := h.rep
  rw [hrep.walk va, MapArgs.entries, Option.map_map]
  rfl

end runs

/-! ## What an entry says -/

/-- **An entry that says what the caller asked for**: a leaf whose address field decodes to `pa`,
whose low eight bits are the flags with `VALID`, and whose other bits are zero (bits 8 and 9, and 54
to 63).
Source: `paging.h` `enum sv39_tableEntryFlags`; `paging.c` `SV39_PTE_*`
Kind: D -/
structure PteExact (pte : BitVec 64) (pa : Addr) (flags : BitVec 64) : Prop where
  leaf : sv39PteLeaf pte = true
  address : sv39PtePpnToPaddr pte = pa
  low : pte &&& 0xFF = flags ||| sv39FlagsValid
  reserved : pte &&& 0xFFC0000000000300 = 0

section entries

variable {pa : Addr} {flags : BitVec 64}

/-- The bits of the entry that `sv39_map_small_page` writes, for any aligned address and any flags.
Source: `paging.c` `sv39_map_small_page`
Kind: L -/
theorem getLsbD_sv39LeafEntry_of_aligned (hpa : PageAligned pa) (flags : BitVec 64) (i : ℕ) :
    (sv39LeafEntry pa flags).getLsbD i =
      ((pa.getLsbD (2 + i) && decide (2 + i < 56)) || (flags.getLsbD i || decide (i = 0))) := by
  have hmask : ∀ j, (pa &&& lowMask 64 56).getLsbD j = (pa.getLsbD j && decide (j < 56)) := by
    intro j
    rw [BitVec.getLsbD_and, getLsbD_lowMask]
    by_cases hj : j < 56
    · simp [hj, show j < 64 by omega]
    · simp [hj]
  have hpage : Sv39Page (pa &&& lowMask 64 56) := by
    refine ⟨(and_lowMask_eq_zero_iff _ 12).mpr ?_, (toNat_lt_two_pow_iff _ 56).mpr ?_⟩
    · intro j hj
      rw [hmask, (and_lowMask_eq_zero_iff pa 12).mp hpa j hj, Bool.false_and]
    · intro j hj
      rw [hmask, decide_eq_false (by omega), Bool.and_false]
  rw [← sv39LeafEntry_low, getLsbD_sv39LeafEntry hpage, hmask]

/-- The entry is a leaf exactly when the flags have a leaf permission.
Source: `paging.c` `SV39_PTE_LEAF`
Kind: L -/
theorem sv39PteLeaf_leafEntry_eq (hpa : PageAligned pa) (flags : BitVec 64) :
    sv39PteLeaf (sv39LeafEntry pa flags) = sv39PteLeaf flags := by
  have hlow : ∀ i, 2 + i < 12 → pa.getLsbD (2 + i) = false :=
    fun i hi => (and_lowMask_eq_zero_iff pa 12).mp hpa (2 + i) hi
  rw [sv39PteLeaf_eq, sv39PteLeaf_eq]
  simp only [getLsbD_sv39LeafEntry_of_aligned hpa, hlow 1 (by norm_num), hlow 2 (by norm_num),
    hlow 3 (by norm_num)]
  simp

/-- The address field has 56 bits.
Source: `paging.c` `SV39_PTE_PPN_TO_PADDR`
Kind: L -/
theorem sv39PtePpnToPaddr_lt (pte : BitVec 64) : (sv39PtePpnToPaddr pte).toNat < 2 ^ 56 := by
  rw [toNat_lt_two_pow_iff]
  intro i hi
  rw [getLsbD_sv39PtePpnToPaddr, decide_eq_false (by omega), Bool.and_false]

/-- **The entry says what the caller asked for exactly when it fits**: a physical address of at most
56 bits, flags of at most eight bits, and among them a leaf permission.
Source: `paging.c` `sv39_map_small_page`
Kind: L -/
theorem pteExact_leafEntry_iff (hpa : PageAligned pa) :
    PteExact (sv39LeafEntry pa flags) pa flags ↔ pa.toNat < 2 ^ 56 ∧ LeafFlags flags := by
  have h8 : (0xFF : BitVec 64) = lowMask 64 8 := rfl
  constructor
  · rintro ⟨hleaf, haddress, hlow, -⟩
    refine ⟨?_, ?_, ?_⟩
    · rw [← haddress]
      exact sv39PtePpnToPaddr_lt _
    · -- a flag above the low eight bits is in `flags | VALID` and not in the masked entry
      rw [toNat_lt_two_pow_iff]
      intro i hi
      have hbit := congrArg (fun x => x.getLsbD i) hlow
      simp only [h8, BitVec.getLsbD_and, getLsbD_lowMask, BitVec.getLsbD_or] at hbit
      rw [decide_eq_false (by omega), Bool.and_false] at hbit
      exact (Bool.or_eq_false_iff.mp hbit.symm).1
    · rw [← sv39PteLeaf_leafEntry_eq hpa]
      exact hleaf
  · rintro ⟨hlt, hflags⟩
    have hpage : Sv39Page pa := ⟨hpa, hlt⟩
    have hhigh : ∀ i, 8 ≤ i → flags.getLsbD i = false :=
      (toNat_lt_two_pow_iff flags 8).mp hflags.lt
    refine ⟨sv39PteLeaf_leafEntry hpage hflags, sv39PtePpnToPaddr_leafEntry hpage hflags, ?_, ?_⟩
    · have hten := sv39LeafEntry_flags hpage hflags
      have hmask : (0xFF : BitVec 64) = lowMask 64 10 &&& lowMask 64 8 := rfl
      rw [hmask, ← BitVec.and_assoc, hten]
      apply BitVec.eq_of_getLsbD_eq
      intro i hi
      rw [BitVec.getLsbD_and, getLsbD_lowMask, BitVec.getLsbD_or, getLsbD_sv39FlagsValid]
      by_cases h8 : i < 8
      · rw [decide_eq_true (show i < 8 ∧ i < 64 from ⟨h8, hi⟩), Bool.and_true]
      · rw [hhigh i (by omega), decide_eq_false (show ¬ i = 0 by omega)]
        rfl
    · apply BitVec.eq_of_getLsbD_eq
      intro i hi
      have hmask : (0xFFC0000000000300 : BitVec 64) =
          ~~~lowMask 64 54 ||| (lowMask 64 10 &&& ~~~lowMask 64 8) := rfl
      rw [hmask, BitVec.getLsbD_and, getLsbD_sv39LeafEntry hpage]
      simp only [BitVec.getLsbD_or, BitVec.getLsbD_and, BitVec.getLsbD_not, getLsbD_lowMask, hi,
        and_true, decide_true, Bool.true_and]
      by_cases h54 : 54 ≤ i
      · rw [hpage.getLsbD_eq_false (i := 2 + i) (by omega), hhigh i (by omega)]
        simp [show ¬ i = 0 by omega]
      · by_cases h10 : 8 ≤ i ∧ i < 10
        · rw [hpage.getLsbD_eq_false (i := 2 + i) (by omega), hhigh i h10.1]
          simp [show ¬ i = 0 by omega]
        · by_cases h8 : i < 8
          · simp [h8, show i < 54 by omega]
          · simp [show ¬ i < 10 by omega, show i < 54 by omega]

end entries

/-! ## The walk of `sv39_virt_to_phys` -/

/-- At a level-0 entry that is not a leaf the loop has no further level to go to.
Source: `paging.c` `sv39_virt_to_phys` (`__builtin_unreachable()`)
Kind: L -/
theorem sv39VirtToPhysLoop_of_not_leaf {m : Mem} {va : Addr} {pte : BitVec 64}
    (hleaf : sv39PteLeaf pte = false) :
    ∀ {level : ℕ} {table : Addr}, sv39Walk m va level table = some (0, pte) →
      sv39VirtToPhysLoop m va level table = none
  | 0, table, h => by
      rw [sv39Walk] at h
      unfold sv39VirtToPhysLoop
      by_cases hv : sv39PteValid (load64 m (slot table (vpn va 0)))
      · simp only [hv, if_true, Option.some.injEq, Prod.mk.injEq, true_and] at h
        subst h
        simp [hv, hleaf]
      · simp [hv] at h
  | level + 1, table, h => by
      rw [sv39Walk] at h
      unfold sv39VirtToPhysLoop
      by_cases hv : sv39PteValid (load64 m (slot table (vpn va (level + 1))))
      · by_cases hl : sv39PteLeaf (load64 m (slot table (vpn va (level + 1))))
        · simp [hv, hl] at h
        · simp only [hv, hl, if_true, Bool.false_eq_true, if_false, sv39PtePpnToPaddr] at h
          simpa [hv, hl] using sv39VirtToPhysLoop_of_not_leaf hleaf h
      · simp [hv] at h

section exact

variable {pmmAlloc : PmmAlloc σ} {w : World σ} {root : Addr} {B : MapArgs}

/-- `sv39_virt_to_phys` falls out of its loop exactly at the pages that are mapped without a leaf
permission.
Source: `paging.c` `sv39_virt_to_phys`
Kind: L -/
theorem CallsRep.virtToPhys_eq_none_iff (h : CallsRep w.mem root B) (va : Addr) :
    sv39VirtToPhys w.mem root va = none ↔
      ∃ pa flags, B (pageIndex va) = some (pa, flags) ∧ sv39PteLeaf flags = false := by
  have hwalk := h.walk va
  rw [sv39VirtToPhys]
  rcases hB : B (pageIndex va) with _ | ⟨pa, flags⟩
  · rw [hB] at hwalk
    rw [sv39VirtToPhysLoop_of_none hwalk]
    simp
  · rw [hB] at hwalk
    have hleaf := sv39PteLeaf_leafEntry_eq (h.aligned hB) flags
    rcases hflags : sv39PteLeaf flags with _ | _
    · rw [sv39VirtToPhysLoop_of_not_leaf (hleaf.trans hflags) hwalk]
      exact ⟨fun _ => ⟨pa, flags, rfl, hflags⟩, fun _ => rfl⟩
    · rw [sv39VirtToPhysLoop_of_some (hleaf.trans hflags) hwalk]
      constructor
      · intro hnone
        cases hnone
      · rintro ⟨pa', flags', heq, hno⟩
        cases heq
        rw [hflags] at hno
        cases hno

/-- **`sv39_map` encodes exactly what fits.** In every state of every run, with any arguments in any
of its calls: after a successful `sv39_map` the level-0 entry of the page says what the caller asked
for exactly when the physical address has at most 56 bits and the flags have at most eight bits, one
of them a leaf permission; and `sv39_virt_to_phys` returns at every address exactly when every
mapping in the table was made with a leaf permission.
Source: `paging.c` `sv39_map_small_page`, `sv39_virt_to_phys`
Kind: P
Fidelity: exact
Hyps: `pmm_alloc` fails or returns a fresh zeroed page, in every call -/
theorem sv39Map_encodes_exact (h : Sv39Calls pmmAlloc root w B) :
    (∀ va pa flags, PmmCallsOk pmmAlloc root w va →
      (sv39Map pmmAlloc w root va pa flags .page).2 = GrouperError.ok.errval →
      ((∃ pte, sv39Walk (sv39Map pmmAlloc w root va pa flags .page).1.mem va 2 root =
          some (0, pte) ∧ PteExact pte pa flags) ↔ pa.toNat < 2 ^ 56 ∧ LeafFlags flags)) ∧
    ((∀ va, sv39VirtToPhys w.mem root va ≠ none) ↔
      ∀ va pa flags, B (pageIndex va) = some (pa, flags) → sv39PteLeaf flags = true) := by
  have hrep := callsRep_of_calls h
  constructor
  · intro va pa flags hok hmap
    have hrep' := hrep.map va pa flags .page hok
    rw [if_pos hmap] at hrep'
    have hpa : PageAligned pa := hrep'.aligned (Function.update_self ..)
    have hwalk := hrep'.walk va
    rw [Function.update_self] at hwalk
    rw [← pteExact_leafEntry_iff hpa]
    constructor
    · rintro ⟨pte, hpte, hexact⟩
      rw [hwalk] at hpte
      cases hpte
      exact hexact
    · intro hexact
      exact ⟨_, hwalk, hexact⟩
  · constructor
    · intro hreturns va pa flags hB
      by_contra hno
      apply hreturns va
      rw [hrep.virtToPhys_eq_none_iff]
      exact ⟨pa, flags, hB, by simpa using hno⟩
    · intro hleaf va hnone
      obtain ⟨pa, flags, hB, hno⟩ := (hrep.virtToPhys_eq_none_iff va).mp hnone
      rw [hleaf va pa flags hB] at hno
      cases hno

end exact

/-- After `sv39_map(va, pa, 6)` on an empty table the entry is exact, and `sv39_virt_to_phys` returns
everywhere.
Source: none: infrastructure
Kind: C -/
theorem sv39Map_encodes_exact_bootWorld :
    (sv39Map pageBump bootWorld 0x80000000 0x80200000 0x80200000 6 .page).2 =
        GrouperError.ok.errval ∧
      (∃ pte, sv39Walk (sv39Map pageBump bootWorld 0x80000000 0x80200000 0x80200000 6 .page).1.mem
        0x80200000 2 0x80000000 = some (0, pte) ∧ PteExact pte 0x80200000 6) ∧
      ∀ va, sv39VirtToPhys bootWorld.mem 0x80000000 va ≠ none := by
  have hcalls : Sv39Calls pageBump 0x80000000 bootWorld fun _ => none :=
    .init (by decide) (by decide) fun _ _ => rfl
  have hexact := sv39Map_encodes_exact hcalls
  have hok : (sv39Map pageBump bootWorld 0x80000000 0x80200000 0x80200000 6 .page).2 =
      GrouperError.ok.errval := by
    have hmap := (mapRep_of_run sv39Run_bootWorld).mapRefines virtualPage_0x80200000
      identityMapping pmmCallsOk_bootWorld
    exact hmap.ok_iff.mpr ⟨rfl, tablesAvailable_bootWorld⟩
  refine ⟨hok, ?_, ?_⟩
  · rw [hexact.1 0x80200000 0x80200000 6 pmmCallsOk_bootWorld hok]
    exact ⟨by decide, by decide, by decide⟩
  · rw [hexact.2]
    intro va pa flags hB
    cases hB

/-- **Flags without a leaf permission are accepted**: `sv39_map` returns `ERR_OK`, the entry is no
leaf, and `sv39_virt_to_phys` falls out of its loop at the page.
Source: `paging.c` `sv39_map_small_page`, `sv39_virt_to_phys`
Kind: C -/
theorem not_sv39Map_encodes_noPermission :
    ∃ B, Sv39Calls pageBump 0x80000000
        (sv39Map pageBump bootWorld 0x80000000 0x80200000 0x80200000 0 .page).1 B ∧
      (sv39Map pageBump bootWorld 0x80000000 0x80200000 0x80200000 0 .page).2 =
        GrouperError.ok.errval ∧
      (∀ pte, sv39Walk (sv39Map pageBump bootWorld 0x80000000 0x80200000 0x80200000 0 .page).1.mem
        0x80200000 2 0x80000000 = some (0, pte) → ¬ PteExact pte 0x80200000 0) ∧
      sv39VirtToPhys (sv39Map pageBump bootWorld 0x80000000 0x80200000 0x80200000 0 .page).1.mem
        0x80000000 0x80200000 = none := by
  have hcalls : Sv39Calls pageBump 0x80000000 bootWorld fun _ => none :=
    .init (by decide) (by decide) fun _ _ => rfl
  have hmapped := hcalls.map 0x80200000 0x80200000 0 .page pmmCallsOk_bootWorld
  obtain ⟨T, hrep⟩ := (callsRep_of_calls hcalls).rep
  have hpa : PageAligned 0x80200000 := by decide
  have hok : (sv39Map pageBump bootWorld 0x80000000 0x80200000 0x80200000 0 .page).2 =
      GrouperError.ok.errval := by
    obtain ⟨w', e, T', hmap, hcases⟩ :=
      sv39Map_entries hrep (by decide) hpa hpa 0 pmmCallsOk_bootWorld
    rw [hmap]
    rcases hcases with ⟨-, -, he, -⟩ | ⟨hsome, -⟩ | ⟨-, havail, -⟩
    · exact he
    · exact absurd rfl hsome
    · rw [tablesAvailable_bootWorld] at havail
      cases havail
  have hafter := callsRep_of_calls hmapped
  have hnone := hafter.virtToPhys_eq_none_iff 0x80200000
  have hwalk := hafter.walk 0x80200000
  rw [if_pos hok, Function.update_self] at hwalk hnone
  refine ⟨_, hmapped, hok, ?_, hnone.mpr ⟨_, _, rfl, by decide⟩⟩
  intro pte hpte hexact
  rw [hwalk] at hpte
  cases hpte
  exact absurd hexact.leaf (by decide)

end Octiron.Kernel
