import Octiron.Kernel.PageCalls

/-!
# Which virtual addresses are the same page

No function of `paging.c` looks at bits 39 to 63 of a virtual address, so that a page is its page
number modulo `2 ^ 27`: canonical pages are kept apart, and any other address is taken for the
canonical page it agrees with in bits 12 to 38.

* `SamePage` — page numbers that agree modulo `2 ^ 27`; `SamePage.calls`: no call tells them apart.
* `SameResults` — the calls at a page answer in one state as they do in another.
* **Main result** (`sameResults_iff`): in every state of every run, a successful `sv39_map` or
  `sv39_unmap` at one page leaves the answers at another exactly when they are not the same page.
  Verdict: the frame law holds for all canonical addresses, with the memory for new tables as the
  one thing that pages share; addresses that are not canonical are folded, not rejected.
-/

namespace Octiron.Kernel

open Octiron.Found
open Octiron.Found.Mem
open Octiron.Kzadhbat

variable {σ : Type}

/-! ## Folded addresses -/

/-- Page numbers that agree modulo `2 ^ 27`, which is in bits 12 to 38.
Source: `paging.c` (the array `vpn`)
Kind: D -/
def SamePage (va va' : Addr) : Prop := va.toNat / 4096 % 2 ^ 27 = va'.toNat / 4096 % 2 ^ 27

instance (va va' : Addr) : Decidable (SamePage va va') := inferInstanceAs (Decidable (_ = _))

/-- Source: none: infrastructure. Kind: L -/
theorem samePage_iff {va va' : Addr} : SamePage va va' ↔ pageIndex va = pageIndex va' :=
  pageIndex_eq_iff.symm

/-- Different virtual pages are not the same page.
Source: none: the Sv39 scheme
Kind: L -/
theorem VirtualPage.not_samePage {va va' : Addr} (h : VirtualPage va) (h' : VirtualPage va')
    (hne : va ≠ va') : ¬ SamePage va va' := by
  rw [samePage_iff]
  exact fun hidx => hne (pageIndex_injective h h' hidx)

/-- Source: none: infrastructure. Kind: L -/
theorem SamePage.vpn_eq {va va' : Addr} (h : SamePage va va') : ∀ level ≤ 2,
    vpn va level = vpn va' level := by
  have hidx := samePage_iff.mp h
  rw [pageIndex, pageIndex, PageIndex.mk.injEq] at hidx
  intro level hlevel
  interval_cases level
  · exact hidx.2.2
  · exact hidx.2.1
  · exact hidx.1

/-- The loop only reads the three indices: what it takes from `va` besides is bit 12.
Source: `paging.c` `sv39_virt_to_phys`
Kind: L -/
theorem SamePage.virtToPhysLoop {va va' : Addr} (h : SamePage va va') (m : Mem) :
    ∀ level ≤ 2, ∀ table : Addr,
      sv39VirtToPhysLoop m va level table = sv39VirtToPhysLoop m va' level table := by
  have hoffset : va &&& sv39PageSizes 0 = va' &&& sv39PageSizes 0 := by
    have hbit := getLsbD_vpn va (show 0 ≤ 2 by norm_num) 0
    rw [h.vpn_eq 0 (by norm_num), getLsbD_vpn va' (by norm_num)] at hbit
    have h12 : va'.getLsbD 12 = va.getLsbD 12 := by simpa using hbit
    apply BitVec.eq_of_getLsbD_eq
    intro i _
    rw [getLsbD_pageOffset, getLsbD_pageOffset, h12]
  have hleaf : ∀ pte level, sv39LeafPhys va pte level = sv39LeafPhys va' pte level := by
    intro pte level
    unfold sv39LeafPhys
    rw [hoffset, h.vpn_eq 0 (by norm_num), h.vpn_eq 1 (by norm_num)]
  intro level
  induction level with
  | zero =>
      intro hlevel table
      unfold sv39VirtToPhysLoop
      simp only [h.vpn_eq 0 hlevel, hleaf]
  | succ level ih =>
      intro hlevel table
      unfold sv39VirtToPhysLoop
      simp only [h.vpn_eq (level + 1) hlevel, hleaf, ih (by omega)]

/-- **No call tells folded addresses apart**, in any state.
Source: `paging.c` `sv39_map`, `sv39_unmap`, `sv39_virt_to_phys`
Kind: P -/
theorem SamePage.calls {va va' : Addr} (h : SamePage va va') (hva : PageAligned va)
    (hva' : PageAligned va') (pmmAlloc : PmmAlloc σ) (w : World σ) (root : Addr) :
    sv39VirtToPhys w.mem root va = sv39VirtToPhys w.mem root va' ∧
      sv39Unmap w root va = sv39Unmap w root va' ∧
      ∀ pa flags type, sv39Map pmmAlloc w root va pa flags type =
        sv39Map pmmAlloc w root va' pa flags type := by
  have halign : isAligned va (sv39PageSizes 0) = isAligned va' (sv39PageSizes 0) := by
    rw [(isAligned_page_iff va).mpr hva, (isAligned_page_iff va').mpr hva']
  have h0 := h.vpn_eq 0 (by norm_num)
  have h1 := h.vpn_eq 1 (by norm_num)
  have h2 := h.vpn_eq 2 le_rfl
  refine ⟨h.virtToPhysLoop w.mem 2 le_rfl root, ?_, ?_⟩
  · unfold sv39Unmap
    simp only [halign, h0, h1, h2]
  · intro pa flags type
    unfold sv39Map
    cases type with
    | page =>
        unfold sv39MapSmallPage
        simp only [halign, h0, h1, h2]
    | megaPage => rfl
    | gigaPage => rfl
    | other value => rfl

/-! ## Answers at a page -/

/-- `pmm_alloc` gives `sv39_map` the tables it needs for `va`.
Source: `paging.c` `sv39_map_small_page`
Kind: D -/
def TablesGranted (pmmAlloc : PmmAlloc σ) (root : Addr) (w : World σ) (va : Addr) : Prop :=
  PmmCallsOk pmmAlloc root w va ∧ tablesAvailable pmmAlloc w root va = true

/-- **The calls at `va` answer in `w'` as they do in `w`**: what is mapped there is the same to all
three of them, and so is the answer of `sv39_map` unless `pmm_alloc` fails in one of the two states.
Source: `paging.h` `sv39_map`, `sv39_unmap`, `sv39_virt_to_phys`
Kind: D -/
structure SameResults (pmmAlloc : PmmAlloc σ) (root : Addr) (w w' : World σ) (va : Addr) :
    Prop where
  virtToPhys : sv39VirtToPhys w'.mem root va = sv39VirtToPhys w.mem root va
  unmap : (sv39Unmap w' root va).2 = (sv39Unmap w root va).2
  mapExists : ∀ pa flags type, PmmCallsOk pmmAlloc root w va → PmmCallsOk pmmAlloc root w' va →
    ((sv39Map pmmAlloc w' root va pa flags type).2 = GrouperError.pagingMappingExists.errval ↔
      (sv39Map pmmAlloc w root va pa flags type).2 = GrouperError.pagingMappingExists.errval)
  map : ∀ pa flags type, TablesGranted pmmAlloc root w va → TablesGranted pmmAlloc root w' va →
    (sv39Map pmmAlloc w' root va pa flags type).2 = (sv39Map pmmAlloc w root va pa flags type).2

section answers

variable {pmmAlloc : PmmAlloc σ} {w w' : World σ} {root : Addr} {B B' : MapArgs} {va : Addr}

/-- What `sv39_unmap` answers, by the mapping at the page.
Source: `paging.c` `sv39_unmap`
Kind: L -/
theorem CallsRep.unmap_answer (h : CallsRep w.mem root B) (hva : PageAligned va) :
    (sv39Unmap w root va).2 = match B (pageIndex va) with
      | none => .error GrouperError.pagingMappingDoesntExist.errval
      | some x => .ok (sv39PtePpnToPaddr (sv39LeafEntry x.1 x.2)) := by
  obtain ⟨T, hrep⟩ := h.rep
  rcases sv39Unmap_entries hrep h.root_ne hva with ⟨hnone, hunmap⟩ | ⟨v, w', hsome, hunmap, -⟩
  · rw [MapArgs.entries, Option.map_eq_none_iff] at hnone
    rw [hunmap, hnone]
  · obtain ⟨x, hx, rfl⟩ := Option.map_eq_some_iff.mp hsome
    rw [hunmap, hx]

/-- Source: none: infrastructure. Kind: L -/
theorem CallsRep.unmap_isOk (h : CallsRep w.mem root B) (hva : PageAligned va) :
    (sv39Unmap w root va).2.isOk = (B (pageIndex va)).isSome := by
  rw [h.unmap_answer hva]
  rcases B (pageIndex va) with _ | x <;> rfl

/-- What `sv39_map` answers for aligned addresses, by the mapping at the page.
Source: `paging.c` `sv39_map`
Kind: L -/
theorem CallsRep.map_answer (h : CallsRep w.mem root B) (hva : PageAligned va) {pa : Addr}
    (hpa : PageAligned pa) (flags : BitVec 64) (hok : PmmCallsOk pmmAlloc root w va) :
    ((sv39Map pmmAlloc w root va pa flags .page).2 = GrouperError.pagingMappingExists.errval ↔
        B (pageIndex va) ≠ none) ∧
      (B (pageIndex va) = none → tablesAvailable pmmAlloc w root va = true →
        (sv39Map pmmAlloc w root va pa flags .page).2 = GrouperError.ok.errval) := by
  obtain ⟨T, hrep⟩ := h.rep
  have hexists : GrouperError.ok.errval ≠ GrouperError.pagingMappingExists.errval := by decide
  have hentry : MapArgs.entries B (pageIndex va) = none ↔ B (pageIndex va) = none := by
    rw [MapArgs.entries, Option.map_eq_none_iff]
  obtain ⟨w', e, T', hmap, hcases⟩ := sv39Map_entries hrep h.root_ne hva hpa flags hok
  rw [ne_eq, hentry] at hcases
  rw [hmap]
  rcases hcases with ⟨hnone, -, he, -⟩ | ⟨hsome, he, -⟩ | ⟨hnone, havail, ⟨e', he⟩, -⟩
  · exact ⟨⟨fun heq => absurd (he.symm.trans heq) hexists, fun hne => absurd hnone hne⟩,
      fun _ _ => he⟩
  · exact ⟨⟨fun _ => hsome, fun _ => he⟩, fun hnone => absurd hnone hsome⟩
  · refine ⟨⟨fun heq => ?_, fun hne => absurd hnone hne⟩, fun _ havail' => ?_⟩
    · exact absurd (he.symm.trans heq) (errPush_setupTable_ne e').2
    · rw [havail] at havail'
      cases havail'

/-- What `sv39_virt_to_phys` answers depends on the mapping at the page only.
Source: `paging.c` `sv39_virt_to_phys`
Kind: L -/
theorem CallsRep.virtToPhys_congr (h : CallsRep w.mem root B) (h' : CallsRep w'.mem root B')
    (hB : B' (pageIndex va) = B (pageIndex va)) :
    sv39VirtToPhys w'.mem root va = sv39VirtToPhys w.mem root va := by
  have hwalk := h.walk va
  have hwalk' := h'.walk va
  rw [hB] at hwalk'
  unfold sv39VirtToPhys
  rcases hx : B (pageIndex va) with _ | ⟨pa, flags⟩
  · rw [hx] at hwalk hwalk'
    rw [sv39VirtToPhysLoop_of_none hwalk, sv39VirtToPhysLoop_of_none hwalk']
  · rw [hx] at hwalk hwalk'
    rcases hleaf : sv39PteLeaf (sv39LeafEntry pa flags) with _ | _
    · rw [sv39VirtToPhysLoop_of_not_leaf hleaf hwalk, sv39VirtToPhysLoop_of_not_leaf hleaf hwalk']
    · rw [sv39VirtToPhysLoop_of_some hleaf hwalk, sv39VirtToPhysLoop_of_some hleaf hwalk']

/-- A call that is refused for its other arguments answers the same in every state.
Source: `paging.c` `sv39_map`, `sv39_map_small_page`
Kind: L -/
theorem sv39Map_refused_answer (w w' : World σ) (root va : Addr) {pa : Addr} (flags : BitVec 64)
    {type : Sv39PageType} (h : ¬ (type = .page ∧ PageAligned pa)) :
    (sv39Map pmmAlloc w' root va pa flags type).2 =
      (sv39Map pmmAlloc w root va pa flags type).2 := by
  unfold sv39Map
  by_cases hroot : root = 0
  · simp only [if_pos hroot]
  · simp only [if_neg hroot]
    cases type with
    | page =>
        have hpa : isAligned pa (sv39PageSizes 0) = false := by
          rw [Bool.eq_false_iff, ne_eq, isAligned_page_iff]
          exact fun hpa => h ⟨rfl, hpa⟩
        simp only [sv39MapSmallPage, hpa, Bool.not_false, Bool.or_true, if_true]
    | megaPage => rfl
    | gigaPage => rfl
    | other value => rfl

/-- Every call answers the same when the mapping at the page is the same.
Source: none: infrastructure
Kind: L -/
theorem CallsRep.sameResults (h : CallsRep w.mem root B) (h' : CallsRep w'.mem root B')
    (hva : PageAligned va) (hB : B' (pageIndex va) = B (pageIndex va)) :
    SameResults pmmAlloc root w w' va := by
  refine ⟨h.virtToPhys_congr h' hB, ?_, ?_, ?_⟩
  · rw [h'.unmap_answer hva, h.unmap_answer hva, hB]
  · intro pa flags type hok hok'
    by_cases hcall : type = .page ∧ PageAligned pa
    · obtain ⟨rfl, hpa⟩ := hcall
      rw [(h'.map_answer hva hpa flags hok').1, (h.map_answer hva hpa flags hok).1, hB]
    · rw [sv39Map_refused_answer w w' root va flags hcall]
  · intro pa flags type hgranted hgranted'
    by_cases hcall : type = .page ∧ PageAligned pa
    · obtain ⟨rfl, hpa⟩ := hcall
      obtain ⟨hexists, hnew⟩ := h.map_answer hva hpa flags hgranted.1
      obtain ⟨hexists', hnew'⟩ := h'.map_answer hva hpa flags hgranted'.1
      rw [hB] at hexists' hnew'
      by_cases hnone : B (pageIndex va) = none
      · rw [hnew hnone hgranted.2, hnew' hnone hgranted'.2]
      · rw [hexists.mpr hnone, hexists'.mpr hnone]
    · exact sv39Map_refused_answer w w' root va flags hcall

/-- A page that is mapped in one state and not in the other does not answer the same.
Source: none: infrastructure
Kind: L -/
theorem CallsRep.not_sameResults (h : CallsRep w.mem root B) (h' : CallsRep w'.mem root B')
    (hva : PageAligned va) (hB : (B' (pageIndex va)).isSome ≠ (B (pageIndex va)).isSome) :
    ¬ SameResults pmmAlloc root w w' va := by
  intro hsame
  apply hB
  rw [← h'.unmap_isOk hva, ← h.unmap_isOk hva, hsame.unmap]

end answers

/-! ## The frame law -/

section frame

variable {pmmAlloc : PmmAlloc σ} {w : World σ} {root : Addr} {B : MapArgs}

/-- A mapping is only added where there was none.
Source: `paging.c` `sv39_map_small_page`
Kind: L -/
theorem CallsRep.unmapped_of_ok (h : CallsRep w.mem root B) {va pa : Addr} {flags : BitVec 64}
    {type : Sv39PageType} (hok : PmmCallsOk pmmAlloc root w va)
    (hmap : (sv39Map pmmAlloc w root va pa flags type).2 = GrouperError.ok.errval) :
    B (pageIndex va) = none := by
  have hcall : type = .page ∧ PageAligned va ∧ PageAligned pa := by
    by_contra hno
    exact (sv39Map_refused h.root_ne flags (by tauto)).2 hmap
  obtain ⟨rfl, hva, hpa⟩ := hcall
  by_contra hsome
  have hexists := (h.map_answer hva hpa flags hok).1.mpr hsome
  rw [hmap] at hexists
  exact absurd hexists (by decide)

/-- **Pages are kept apart exactly when their numbers differ modulo `2 ^ 27`.** In every state of
every run, with any arguments in any of its calls, and for any two page-aligned addresses: a
successful `sv39_map` or `sv39_unmap` at the first leaves the answers of all calls at the second as
they are exactly when the two are not the same page. Two different canonical addresses never are;
and addresses that are the same page are told apart by no call, so that none is rejected for its
upper bits.
Source: `paging.c` `sv39_map_small_page`, `sv39_unmap`, `sv39_virt_to_phys`
Kind: P
Fidelity: exact
Hyps: `pmm_alloc` fails or returns a fresh zeroed page, in every call -/
theorem sameResults_iff (h : Sv39Calls pmmAlloc root w B) {va₁ va₂ : Addr} (h₁ : PageAligned va₁)
    (h₂ : PageAligned va₂) :
    (∀ pa flags type, PmmCallsOk pmmAlloc root w va₁ →
      (sv39Map pmmAlloc w root va₁ pa flags type).2 = GrouperError.ok.errval →
      (SameResults pmmAlloc root w (sv39Map pmmAlloc w root va₁ pa flags type).1 va₂ ↔
        ¬ SamePage va₁ va₂)) ∧
    (∀ pa, (sv39Unmap w root va₁).2 = .ok pa →
      (SameResults pmmAlloc root w (sv39Unmap w root va₁).1 va₂ ↔ ¬ SamePage va₁ va₂)) ∧
    (Canonical va₁ → Canonical va₂ → va₁ ≠ va₂ → ¬ SamePage va₁ va₂) ∧
    (SamePage va₁ va₂ → sv39VirtToPhys w.mem root va₁ = sv39VirtToPhys w.mem root va₂ ∧
      sv39Unmap w root va₁ = sv39Unmap w root va₂ ∧
      ∀ pa flags type, sv39Map pmmAlloc w root va₁ pa flags type =
        sv39Map pmmAlloc w root va₂ pa flags type) := by
  have hrep := callsRep_of_calls h
  refine ⟨?_, ?_, fun hc₁ hc₂ => VirtualPage.not_samePage ⟨hc₁, h₁⟩ ⟨hc₂, h₂⟩,
    fun hsame => hsame.calls h₁ h₂ pmmAlloc w root⟩
  · intro pa flags type hok hmap
    have hnone := hrep.unmapped_of_ok hok hmap
    have hrep' := hrep.map va₁ pa flags type hok
    rw [if_pos hmap] at hrep'
    rw [samePage_iff]
    constructor
    · intro hresults hsame
      refine hrep.not_sameResults hrep' h₂ ?_ hresults
      rw [← hsame, Function.update_self, hnone]
      simp
    · intro hne
      exact hrep.sameResults hrep' h₂ (Function.update_of_ne (Ne.symm hne) _ _)
  · intro pa hunmap
    have hisOk : (sv39Unmap w root va₁).2.isOk = true := by
      rw [hunmap]
      rfl
    have hsome : (B (pageIndex va₁)).isSome = true := by rw [← hrep.unmap_isOk h₁, hisOk]
    have hrep' := hrep.unmap va₁
    rw [if_pos hisOk] at hrep'
    rw [samePage_iff]
    constructor
    · intro hresults hsame
      refine hrep.not_sameResults hrep' h₂ ?_ hresults
      rw [← hsame, Function.update_self, hsome]
      simp
    · intro hne
      exact hrep.sameResults hrep' h₂ (Function.update_of_ne (Ne.symm hne) _ _)

end frame

/-- From zero memory, `sv39_map(0x80200000)` leaves the answers at the next page.
Source: none: infrastructure
Kind: C -/
theorem sameResults_iff_bootWorld :
    (sv39Map pageBump bootWorld 0x80000000 0x80200000 0x80200000 6 .page).2 =
        GrouperError.ok.errval ∧
      SameResults pageBump 0x80000000 bootWorld
        (sv39Map pageBump bootWorld 0x80000000 0x80200000 0x80200000 6 .page).1 0x80201000 := by
  have hcalls : Sv39Calls pageBump 0x80000000 bootWorld fun _ => none :=
    .init (by decide) (by decide) fun _ _ => rfl
  have hok : (sv39Map pageBump bootWorld 0x80000000 0x80200000 0x80200000 6 .page).2 =
      GrouperError.ok.errval := by decide +kernel
  have h₁ : PageAligned 0x80200000 := by decide
  have h₂ : PageAligned 0x80201000 := by decide
  have hframe := sameResults_iff hcalls h₁ h₂
  exact ⟨hok, (hframe.1 0x80200000 6 .page pmmCallsOk_bootWorld hok).mpr (by decide)⟩

/-- The bump allocator with its pages below `last`.
Source: none: a `pmm_alloc` for the example run
Kind: D -/
def pageBumpTo (last : Addr) : PmmAlloc Addr := fun next m size =>
  if next.toNat < last.toNat then pageBump next m size
  else ⟨GrouperError.pmmOutOfMemory.errval, 0, next, m⟩

/-- Source: none: infrastructure. Kind: L -/
theorem PmmAllocOk.pageBumpTo {w : World Addr} {root : Addr} (h : PmmAllocOk pageBump root w)
    (last : Addr) : PmmAllocOk (pageBumpTo last) root w := by
  by_cases hlast : w.pmm.toNat < last.toNat
  · have heq : Kernel.pageBumpTo last w.pmm w.mem sizeofSv39PageTable =
        pageBump w.pmm w.mem sizeofSv39PageTable := if_pos hlast
    exact ⟨heq ▸ h.tables, heq ▸ h.page⟩
  · have heq : Kernel.pageBumpTo last w.pmm w.mem sizeofSv39PageTable =
        ⟨GrouperError.pmmOutOfMemory.errval, 0, w.pmm, w.mem⟩ := if_neg hlast
    refine ⟨fun level t _ i _ => by rw [heq], fun hsucc => ?_⟩
    rw [heq] at hsucc
    have hfail : errIsFail GrouperError.pmmOutOfMemory.errval = true := by decide
    exact absurd (hfail.symm.trans hsucc) (by decide)

/-- **Folded pages and shared memory**: `sv39_map(0x80200000)`, in an address space with memory for
two more tables. The address `0x8080200000` is not canonical, and nothing was mapped there: but now
`sv39_unmap` of it succeeds, with the page of `0x80200000`. And the canonical page `0xC0000000`,
which could be mapped before, cannot be mapped any more: its tables cannot be had.
Source: `paging.c` `sv39_map_small_page`, `sv39_unmap`
Kind: C -/
theorem not_sameResults_foldedPage :
    ∃ w B, w = (sv39Map (pageBumpTo 0x80003000) bootWorld 0x80000000 0x80200000 0x80200000 6
        .page).1 ∧
      Sv39Calls (pageBumpTo 0x80003000) 0x80000000 w B ∧
      (sv39Map (pageBumpTo 0x80003000) bootWorld 0x80000000 0x80200000 0x80200000 6 .page).2 =
        GrouperError.ok.errval ∧
      PageAligned 0x8080200000 ∧ ¬ Canonical 0x8080200000 ∧
      (sv39Unmap bootWorld 0x80000000 0x8080200000).2 =
        .error GrouperError.pagingMappingDoesntExist.errval ∧
      (sv39Unmap w 0x80000000 0x8080200000).2 = .ok 0x80200000 ∧
      Canonical 0xC0000000 ∧
      (sv39Map (pageBumpTo 0x80003000) bootWorld 0x80000000 0xC0000000 0xC0000000 6 .page).2 =
        GrouperError.ok.errval ∧
      (sv39Map (pageBumpTo 0x80003000) w 0x80000000 0xC0000000 0xC0000000 6 .page).2 =
        errPush GrouperError.pmmOutOfMemory.errval .pagingSetupTable := by
  have hcalls : Sv39Calls (pageBumpTo 0x80003000) 0x80000000 bootWorld fun _ => none :=
    .init (by decide) (by decide) fun _ _ => rfl
  have hafter : afterL1 (pageBumpTo 0x80003000) bootWorld 0x80000000 0x80200000 =
      afterL1 pageBump bootWorld 0x80000000 0x80200000 := rfl
  have hok : PmmCallsOk (pageBumpTo 0x80003000) 0x80000000 bootWorld 0x80200000 := by
    refine ⟨pmmCallsOk_bootWorld.1.pageBumpTo _, ?_⟩
    rw [hafter]
    exact pmmCallsOk_bootWorld.2.pageBumpTo _
  refine ⟨_, _, rfl, hcalls.map 0x80200000 0x80200000 6 .page hok, ?_⟩
  refine ⟨?_, ?_, ?_, ?_, ?_, ?_, ?_, ?_⟩
  all_goals decide +kernel

end Octiron.Kernel
