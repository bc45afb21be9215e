import Octiron.Kernel.PageTables

/-!
# Page tables refine a partial map

* `PageMap` — the abstract address space: a partial map from virtual pages to mappings, with
  `PageMap.map` and `PageMap.unmap`.
* `Sv39Run` — runs of `sv39_map` and `sv39_unmap` from a zero root, next to the partial map they
  should implement.
* **Main result** (`sv39_refines`): in every state of a run the walk finds what the map has, and
  every call answers and acts as it should on the map.
-/

namespace Octiron.Kernel

open Octiron.Found
open Octiron.Found.Mem
open Octiron.Kzadhbat

variable {σ : Type}

/-! ## The abstract address space and the runs -/

/-- The address space as a partial map, by the addresses of the virtual pages.
Source: none: what the page table is for
Kind: D -/
abbrev PageMap := Addr → Option Mapping

/-- Mapping a page that is not mapped, when the tables for it can be had.
Source: none: what `sv39_map` is for
Kind: D -/
def PageMap.map (M : PageMap) (va : Addr) (x : Mapping) (available : Bool) : PageMap :=
  if (M va).isNone && available then Function.update M va (some x) else M

/-- Source: none: infrastructure. Kind: L -/
theorem PageMap.map_of_unmapped {M : PageMap} {va : Addr} (h : M va = none) (x : Mapping) :
    M.map va x true = Function.update M va (some x) := by
  simp [PageMap.map, h]

/-- Source: none: infrastructure. Kind: L -/
theorem PageMap.map_of_mapped {M : PageMap} {va : Addr} (h : M va ≠ none) (x : Mapping)
    (available : Bool) : M.map va x available = M := by
  simp [PageMap.map, h]

/-- Source: none: infrastructure. Kind: L -/
theorem PageMap.map_of_unavailable (M : PageMap) (va : Addr) (x : Mapping) :
    M.map va x false = M := by
  simp [PageMap.map]

/-- Source: none: infrastructure. Kind: L -/
theorem PageMap.map_of_ne (M : PageMap) {va va' : Addr} (h : va' ≠ va) (x : Mapping)
    (available : Bool) : M.map va x available va' = M va' := by
  unfold PageMap.map
  split_ifs
  · rw [Function.update_of_ne h]
  · rfl

/-- Unmapping a page.
Source: none: what `sv39_unmap` is for
Kind: D -/
def PageMap.unmap (M : PageMap) (va : Addr) : PageMap := Function.update M va none

/-- A canonical page-aligned address. Source: none: infrastructure. Kind: D -/
structure VirtualPage (va : Addr) : Prop where
  canonical : Canonical va
  aligned : PageAligned va

/-- **Runs**: a zero root, then any sequence of `sv39_map` and `sv39_unmap` calls on virtual pages.
In each `sv39_map`, `pmm_alloc` fails or returns a fresh zeroed page.
Source: none: the runs of `paging.c`
Kind: D -/
inductive Sv39Run (pmmAlloc : PmmAlloc σ) (root : Addr) : World σ → PageMap → Prop
  | init {w : World σ} : root ≠ 0 → PageAligned root → PageZero w.mem root →
      Sv39Run pmmAlloc root w fun _ => none
  | map {w : World σ} {M : PageMap} (va : Addr) (x : Mapping) : Sv39Run pmmAlloc root w M →
      VirtualPage va → PmmCallsOk pmmAlloc root w va →
      Sv39Run pmmAlloc root (sv39Map pmmAlloc w root va x.pa x.flags .page).1
        (M.map va x (tablesAvailable pmmAlloc w root va))
  | unmap {w : World σ} {M : PageMap} (va : Addr) : Sv39Run pmmAlloc root w M → VirtualPage va →
      Sv39Run pmmAlloc root (sv39Unmap w root va).1 (M.unmap va)

/-- Memory holds the partial map `M`.
Source: none: infrastructure
Kind: D -/
def MapRep (m : Mem) (root : Addr) (M : PageMap) : Prop :=
  root ≠ 0 ∧ ∃ T A, TablesRep m root T A ∧ ∀ va, VirtualPage va → A (pageIndex va) = M va

section runs

variable {pmmAlloc : PmmAlloc σ} {w : World σ} {root : Addr} {M : PageMap}

/-- Virtual pages have different index triples.
Source: none: infrastructure
Kind: L -/
theorem pageIndex_injective {va va' : Addr} (h : VirtualPage va) (h' : VirtualPage va')
    (heq : pageIndex va = pageIndex va') : va = va' := by
  rw [pageIndex, pageIndex, PageIndex.mk.injEq] at heq
  refine vpn_injective h.canonical h'.canonical h.aligned h'.aligned ?_
  intro level hlevel
  interval_cases level
  · exact heq.2.2
  · exact heq.2.1
  · exact heq.1

/-- Updating the index triple of a page updates the page.
Source: none: infrastructure
Kind: L -/
theorem update_pageIndex {A : PageIndex → Option Mapping} {va : Addr} (hva : VirtualPage va)
    (hA : ∀ va, VirtualPage va → A (pageIndex va) = M va) (x : Option Mapping) :
    ∀ va', VirtualPage va' →
      Function.update A (pageIndex va) x (pageIndex va') = Function.update M va x va' := by
  intro va' hva'
  by_cases heq : va' = va
  · rw [heq, Function.update_self, Function.update_self]
  · rw [Function.update_of_ne heq, Function.update_of_ne, hA va' hva']
    exact fun hidx => heq (pageIndex_injective hva' hva hidx)

/-- The walk finds what the map has.
Source: none: infrastructure
Kind: L -/
theorem MapRep.walk (h : MapRep w.mem root M) {va : Addr} (hva : VirtualPage va) :
    sv39Walk w.mem va 2 root = (M va).map fun x => (0, x.entry) := by
  obtain ⟨-, T, A, hrep, hA⟩ := h
  rw [hrep.walk va, hA va hva]

/-- **One `sv39_map`** on a represented map.
Source: `paging.c` `sv39_map`
Kind: L -/
theorem MapRep.map (h : MapRep w.mem root M) {va : Addr} (hva : VirtualPage va) (x : Mapping)
    (hok : PmmCallsOk pmmAlloc root w va) :
    let r := sv39Map pmmAlloc w root va x.pa x.flags .page
    MapRep r.1.mem root (M.map va x (tablesAvailable pmmAlloc w root va)) ∧
      ((M va = none ∧ tablesAvailable pmmAlloc w root va = true ∧ r.2 = GrouperError.ok.errval) ∨
        (M va ≠ none ∧ r.2 = GrouperError.pagingMappingExists.errval) ∨
        (M va = none ∧ tablesAvailable pmmAlloc w root va = false ∧
          ∃ e, r.2 = errPush e .pagingSetupTable)) := by
  obtain ⟨hroot, T, A, hrep, hA⟩ := h
  obtain ⟨w', e, T', hmap, hcases⟩ := sv39Map_spec hrep hroot hva.aligned x hok
  rw [hA va hva] at hcases
  intro r
  have hr : r = (w', e) := hmap
  rw [hr]
  rcases hcases with ⟨hnone, havail, he, hrep'⟩ | ⟨hsome, he, hrep'⟩ | ⟨hnone, havail, he, hrep'⟩
  · refine ⟨⟨hroot, T', _, hrep', ?_⟩, Or.inl ⟨hnone, havail, he⟩⟩
    rw [havail, PageMap.map_of_unmapped hnone]
    exact update_pageIndex hva hA (some x)
  · refine ⟨⟨hroot, T', A, hrep', ?_⟩, Or.inr (Or.inl ⟨hsome, he⟩)⟩
    rw [PageMap.map_of_mapped hsome]
    exact hA
  · refine ⟨⟨hroot, T', A, hrep', ?_⟩, Or.inr (Or.inr ⟨hnone, havail, he⟩)⟩
    rw [havail, PageMap.map_of_unavailable]
    exact hA

/-- **One `sv39_unmap`** on a represented map.
Source: `paging.c` `sv39_unmap`
Kind: L -/
theorem MapRep.unmap (h : MapRep w.mem root M) {va : Addr} (hva : VirtualPage va) :
    MapRep (sv39Unmap w root va).1.mem root (M.unmap va) ∧
      ((M va = none ∧
          sv39Unmap w root va = (w, .error GrouperError.pagingMappingDoesntExist.errval)) ∨
        ∃ x, M va = some x ∧ (sv39Unmap w root va).2 = .ok x.pa) := by
  obtain ⟨hroot, T, A, hrep, hA⟩ := h
  have hspec := sv39Unmap_spec hrep hroot hva.aligned
  rw [hA va hva] at hspec
  rcases hspec with ⟨hnone, hunmap⟩ | ⟨x, w', hsome, hunmap, hrep'⟩
  · refine ⟨⟨hroot, T, A, ?_, ?_⟩, Or.inl ⟨hnone, hunmap⟩⟩
    · rw [hunmap]
      exact hrep
    · rw [PageMap.unmap, ← hnone, Function.update_eq_self]
      exact hA
  · refine ⟨⟨hroot, T, _, ?_, update_pageIndex hva hA none⟩, Or.inr ⟨x, hsome, ?_⟩⟩
    · rw [hunmap]
      exact hrep'
    · rw [hunmap]

/-- **Run lemma**: memory holds the map in every state of a run.
Source: none: infrastructure
Kind: L -/
theorem mapRep_of_run (h : Sv39Run pmmAlloc root w M) : MapRep w.mem root M := by
  induction h with
  | init hroot haligned hzero => exact ⟨hroot, _, _, tablesRep_zero haligned hzero, fun _ _ => rfl⟩
  | map va x _ hva hok ih => exact (ih.map hva x hok).1
  | unmap va _ hva ih => exact (ih.unmap hva).1

/-! ## The refinement -/

/-- The three answers of `sv39_map` are different: a word with the `ERR_PAGING_SETUP_TABLE` bits is
odd.
Source: none: infrastructure
Kind: L -/
theorem errPush_setupTable_ne (e : Errval) :
    errPush e .pagingSetupTable ≠ GrouperError.ok.errval ∧
      errPush e .pagingSetupTable ≠ GrouperError.pagingMappingExists.errval := by
  have hbit : (errPush e .pagingSetupTable).getLsbD 0 = true := by
    rw [errPush, BitVec.getLsbD_or]
    have : (BitVec.setWidth 64 GrouperError.pagingSetupTable.code).getLsbD 0 = true := rfl
    rw [this, Bool.or_true]
  constructor <;> intro heq <;> rw [heq] at hbit <;> exact absurd hbit (by decide)

/-- What `sv39_map` does, against the map.
Source: none: infrastructure
Kind: D -/
structure MapRefines (pmmAlloc : PmmAlloc σ) (root : Addr) (w : World σ) (M : PageMap) (va : Addr)
    (x : Mapping) : Prop where
  ok_iff : (sv39Map pmmAlloc w root va x.pa x.flags .page).2 = GrouperError.ok.errval ↔
    M va = none ∧ tablesAvailable pmmAlloc w root va = true
  exists_iff : (sv39Map pmmAlloc w root va x.pa x.flags .page).2 =
      GrouperError.pagingMappingExists.errval ↔ M va ≠ none
  mapped : (sv39Map pmmAlloc w root va x.pa x.flags .page).2 = GrouperError.ok.errval →
    ∃ pte, sv39Walk (sv39Map pmmAlloc w root va x.pa x.flags .page).1.mem va 2 root =
        some (0, pte) ∧ sv39PteLeaf pte = true ∧ sv39PtePpnToPaddr pte = x.pa ∧
      pte = (x.pa >>> 2) ||| (x.flags ||| sv39FlagsValid)
  others : ∀ va', VirtualPage va' → va' ≠ va →
    sv39Walk (sv39Map pmmAlloc w root va x.pa x.flags .page).1.mem va' 2 root =
      sv39Walk w.mem va' 2 root
  failed : (sv39Map pmmAlloc w root va x.pa x.flags .page).2 ≠ GrouperError.ok.errval →
    ∀ va', VirtualPage va' →
      sv39Walk (sv39Map pmmAlloc w root va x.pa x.flags .page).1.mem va' 2 root =
        sv39Walk w.mem va' 2 root

/-- What `sv39_unmap` does, against the map.
Source: none: infrastructure
Kind: D -/
structure UnmapRefines (root : Addr) (w : World σ) (M : PageMap) (va : Addr) : Prop where
  ok_iff : ∀ pa, (sv39Unmap w root va).2 = .ok pa ↔ ∃ x, M va = some x ∧ x.pa = pa
  error_iff : (sv39Unmap w root va).2 = .error GrouperError.pagingMappingDoesntExist.errval ↔
    M va = none
  unmapped : sv39Walk (sv39Unmap w root va).1.mem va 2 root = none
  others : ∀ va', VirtualPage va' → va' ≠ va →
    sv39Walk (sv39Unmap w root va).1.mem va' 2 root = sv39Walk w.mem va' 2 root
  failed : (∀ pa, (sv39Unmap w root va).2 ≠ .ok pa) → (sv39Unmap w root va).1 = w

/-- Source: none: infrastructure. Kind: L -/
theorem MapRep.mapRefines (h : MapRep w.mem root M) {va : Addr} (hva : VirtualPage va) (x : Mapping)
    (hok : PmmCallsOk pmmAlloc root w va) : MapRefines pmmAlloc root w M va x := by
  obtain ⟨hrep', hcases⟩ := h.map hva x hok
  have hoks : GrouperError.ok.errval ≠ GrouperError.pagingMappingExists.errval := by decide
  have hwalk : ∀ va', VirtualPage va' →
      sv39Walk (sv39Map pmmAlloc w root va x.pa x.flags .page).1.mem va' 2 root =
        ((M.map va x (tablesAvailable pmmAlloc w root va)) va').map fun y => (0, y.entry) :=
    fun va' hva' => hrep'.walk hva'
  have hothers : ∀ va', VirtualPage va' → va' ≠ va →
      sv39Walk (sv39Map pmmAlloc w root va x.pa x.flags .page).1.mem va' 2 root =
        sv39Walk w.mem va' 2 root := by
    intro va' hva' hne
    rw [hwalk va' hva', M.map_of_ne hne, h.walk hva']
  have hsame : M.map va x (tablesAvailable pmmAlloc w root va) = M → ∀ va', VirtualPage va' →
      sv39Walk (sv39Map pmmAlloc w root va x.pa x.flags .page).1.mem va' 2 root =
        sv39Walk w.mem va' 2 root := by
    intro heq va' hva'
    rw [hwalk va' hva', h.walk hva', heq]
  rcases hcases with ⟨hnone, havail, he⟩ | ⟨hsome, he⟩ | ⟨hnone, havail, e, he⟩
  · refine ⟨?_, ?_, ?_, hothers, fun hne => absurd he hne⟩
    · exact ⟨fun _ => ⟨hnone, havail⟩, fun _ => he⟩
    · rw [he]
      exact ⟨fun heq => absurd heq hoks, fun hne => absurd hnone hne⟩
    · intro _
      refine ⟨x.entry, ?_, sv39PteLeaf_leafEntry x.page x.leafFlags,
        sv39PtePpnToPaddr_leafEntry x.page x.leafFlags, sv39LeafEntry_eq x.page x.flags⟩
      rw [hwalk va hva, havail, PageMap.map_of_unmapped hnone, Function.update_self]
      rfl
  · refine ⟨?_, ⟨fun _ => hsome, fun _ => he⟩, ?_, hothers,
      fun _ => hsame (PageMap.map_of_mapped hsome x _)⟩
    · rw [he]
      exact ⟨fun heq => absurd heq hoks.symm, fun hh => absurd hh.1 hsome⟩
    · intro hok'
      rw [he] at hok'
      exact absurd hok' hoks.symm
  · have hno : M.map va x (tablesAvailable pmmAlloc w root va) = M := by
      rw [havail, PageMap.map_of_unavailable]
    obtain ⟨hne₁, hne₂⟩ := errPush_setupTable_ne e
    rw [← he] at hne₁ hne₂
    refine ⟨?_, ?_, fun hok' => absurd hok' hne₁, hothers, fun _ => hsame hno⟩
    · refine ⟨fun heq => absurd heq hne₁, fun hh => ?_⟩
      rw [havail] at hh
      exact absurd hh.2 (by simp)
    · exact ⟨fun heq => absurd heq hne₂, fun hne => absurd hnone hne⟩

/-- Source: none: infrastructure. Kind: L -/
theorem MapRep.unmapRefines (h : MapRep w.mem root M) {va : Addr} (hva : VirtualPage va) :
    UnmapRefines root w M va := by
  obtain ⟨hrep', hcases⟩ := h.unmap hva
  have hunmapped : sv39Walk (sv39Unmap w root va).1.mem va 2 root = none := by
    rw [hrep'.walk hva, PageMap.unmap, Function.update_self]
    rfl
  have hothers : ∀ va', VirtualPage va' → va' ≠ va →
      sv39Walk (sv39Unmap w root va).1.mem va' 2 root = sv39Walk w.mem va' 2 root := by
    intro va' hva' hne
    rw [hrep'.walk hva', PageMap.unmap, Function.update_of_ne hne, h.walk hva']
  rcases hcases with ⟨hnone, hunmap⟩ | ⟨x, hsome, hunmap⟩
  · refine ⟨?_, ?_, hunmapped, hothers, fun _ => by rw [hunmap]⟩
    · intro pa
      rw [hunmap, hnone]
      simp
    · rw [hunmap, hnone]
      simp
  · refine ⟨?_, ?_, hunmapped, hothers, fun hne => absurd hunmap (hne _)⟩
    · intro pa
      rw [hunmap, hsome]
      simp
    · rw [hunmap, hsome]
      simp

/-- **The page table refines the partial map.** In every state of every run, the walk of a virtual
page finds the leaf of its mapping, or nothing; and the next `sv39_map` or `sv39_unmap` answers and
acts as the map says.
Source: `paging.h` `sv39_map`, `sv39_unmap`
Kind: P
Fidelity: exact
Hyps: `pmm_alloc` fails or returns a fresh zeroed page, in every call -/
theorem sv39_refines (h : Sv39Run pmmAlloc root w M) :
    (∀ va, VirtualPage va → sv39Walk w.mem va 2 root = (M va).map fun x => (0, x.entry)) ∧
    (∀ va x, VirtualPage va → PmmCallsOk pmmAlloc root w va → MapRefines pmmAlloc root w M va x) ∧
    (∀ va, VirtualPage va → UnmapRefines root w M va) := by
  have hrep := mapRep_of_run h
  exact ⟨fun va hva => hrep.walk hva, fun va x hva hok => hrep.mapRefines hva x hok,
    fun va hva => hrep.unmapRefines hva⟩

end runs

/-! ## An allocator that does not run out -/

/-- An allocator that hands out the next page each time.
Source: none: a `pmm_alloc` for the example run
Kind: D -/
def pageBump : PmmAlloc Addr := fun next m _ => ⟨errNew, next, next + 4096, fill m next 4096 0⟩

/-- As long as its next page is not a table, the bump allocator meets what paging needs.
Source: none: infrastructure
Kind: L -/
theorem pmmAllocOk_pageBump {w : World Addr} {root : Addr} {T : TableNode → Option Addr}
    {A : PageIndex → Option Mapping} (h : TablesRep w.mem root T A) (hp : Sv39Page w.pmm)
    (hne : ∀ n p, T n = some p → w.pmm ≠ p) : PmmAllocOk pageBump root w := by
  have hapart : ∀ level t, TableAt w.mem root level t → Apart w.pmm 4096 t 4096 := by
    intro level t ht
    obtain ⟨n, -, hn⟩ := h.exists_of_tableAt ht
    exact apart_pages hp.aligned (h.aligned hn) (hne n t hn)
  refine ⟨?_, fun _ => ⟨rfl, hp, ?_, hapart⟩⟩
  · intro level t ht i hi
    exact fill_apply_of_apart 0 (hapart level t ht) hi
  · intro i hi
    exact fill_apply_of_lt w.mem w.pmm 0 hi (by omega)

/-- Zero memory, with free pages from `0x80001000` on; the root is the page below.
Source: none: infrastructure
Kind: D -/
def bootWorld : World Addr := ⟨fun _ => 0, 0x80001000⟩

/-- An identity mapping with read and write permission.
Source: `entry.c` `kernel_id_map_range`
Kind: D -/
def identityMapping : Mapping where
  pa := 0x80200000
  flags := 6
  page := ⟨by decide, by decide⟩
  leafFlags := ⟨by decide, by decide⟩

/-- Source: none: infrastructure. Kind: L -/
theorem sv39Run_bootWorld : Sv39Run pageBump 0x80000000 bootWorld fun _ => none :=
  .init (by decide) (by decide) fun _ _ => rfl

/-- Source: none: infrastructure. Kind: L -/
theorem virtualPage_0x80200000 : VirtualPage 0x80200000 := ⟨by decide, by decide⟩

/-- The two `pmm_alloc` calls of the first `sv39_map`.
Source: none: infrastructure
Kind: L -/
theorem pmmCallsOk_bootWorld : PmmCallsOk pageBump 0x80000000 bootWorld 0x80200000 := by
  have hroot : PageAligned 0x80000000 := by decide
  have h := tablesRep_zero (m := bootWorld.mem) hroot fun _ _ => rfl
  have hpage : Sv39Page bootWorld.pmm := ⟨by decide, by decide⟩
  have hne : ∀ n p, (if n = TableNode.root then some (0x80000000 : Addr) else none) = some p →
      p = 0x80000000 := by
    intro n p hn
    split_ifs at hn
    exact (Option.some.inj hn).symm
  have hok : PmmAllocOk pageBump 0x80000000 bootWorld := by
    refine pmmAllocOk_pageBump h hpage fun n p hn => ?_
    rw [hne n p hn]
    decide
  have hsetup : afterL1 pageBump bootWorld 0x80000000 0x80200000 =
      ⟨store64 (fill bootWorld.mem 0x80001000 4096 0) (slot 0x80000000 (vpn 0x80200000 2))
        (sv39TableEntry 0x80001000), 0x80002000⟩ := by
    have hzero : load64 bootWorld.mem (slot 0x80000000 (vpn 0x80200000 2)) = 0 :=
      load64_of_zero fun _ _ => rfl
    rw [afterL1, sv39SetupTable, hzero]
    rfl
  have hrep : TablesRep (fill bootWorld.mem 0x80001000 4096 0) _ _ _ :=
    h.congr fun n p hn => hok.tables _ _ (h.tableAt (w := bootWorld) hn)
  have hlink := hrep.link (n := .l1 (vpn 0x80200000 2)) rfl (vpn_lt _ 2 le_rfl) h.root_eq
    (by simp) hpage (fun n q hq => by rw [hne n q hq]; decide)
    (fun i hi => fill_apply_of_lt _ _ 0 hi (by omega))
  refine ⟨hok, ?_⟩
  rw [hsetup]
  refine pmmAllocOk_pageBump hlink ⟨by decide, by decide⟩ fun n p hn => ?_
  by_cases heq : n = .l1 (vpn 0x80200000 2)
  · rw [heq, Function.update_self, Option.some.injEq] at hn
    rw [← hn]
    decide
  · rw [Function.update_of_ne heq] at hn
    rw [hne n p hn]
    decide

/-- Source: none: infrastructure. Kind: L -/
theorem tablesAvailable_bootWorld :
    tablesAvailable pageBump bootWorld 0x80000000 0x80200000 = true := by
  have hsucc : ∀ w, allocSucceeds pageBump w = true := by
    intro w
    show (!errIsFail errNew) = true
    decide
  simp [tablesAvailable, hsucc]

/-- From zero memory: the first `sv39_map` succeeds, and `sv39_unmap` then returns the page.
Source: none: infrastructure
Kind: C -/
theorem sv39_refines_bootWorld :
    (sv39Map pageBump bootWorld 0x80000000 0x80200000 0x80200000 6 .page).2 =
        GrouperError.ok.errval ∧
      (sv39Unmap (sv39Map pageBump bootWorld 0x80000000 0x80200000 0x80200000 6 .page).1 0x80000000
        0x80200000).2 = .ok 0x80200000 := by
  have hmap := (sv39_refines sv39Run_bootWorld).2.1 0x80200000 identityMapping
    virtualPage_0x80200000 pmmCallsOk_bootWorld
  have hrun := sv39Run_bootWorld.map 0x80200000 identityMapping virtualPage_0x80200000
    pmmCallsOk_bootWorld
  have hunmap := (sv39_refines hrun).2.2 0x80200000 virtualPage_0x80200000
  refine ⟨hmap.ok_iff.mpr ⟨rfl, tablesAvailable_bootWorld⟩,
    (hunmap.ok_iff _).mpr ⟨identityMapping, ?_, rfl⟩⟩
  rw [tablesAvailable_bootWorld, PageMap.map_of_unmapped rfl, Function.update_self]

end Octiron.Kernel
