import Octiron.Kernel.DeviceInitialize
import Octiron.Kernel.DeviceRequests
import Octiron.Kernel.Kinit
import Octiron.Kernel.PageAliases

/-!
# The device tree on the kernel's page table

`kmain` calls `dt_initialize` with the address space of the kernel on. The address and the bytes of the
blob come from the loader, so that nothing is known about them.

* `kmain` — the function, up to its endless loop.
* `TablesHeld` — memory has a tree of tables that the allocator knows.
* `TablesHeld.mapEach`, `unmapEach_walk` — what a run of `sv39_map` or `sv39_unmap` over any pages does to
  each walk.
* `OnlyAdds` — every walk finds what it found, or it found nothing and finds a page of the blob, for
  reading only.
* `TablesManaged` — between two calls of the manager, what it has handed out is in no table.
* **Main result** (`kmain_keeps`): whatever the blob, its address and the error, a `kmain` that comes to
  its loop or its panic has only added.
-/

namespace Octiron.Kernel

open Octiron.Found
open Octiron.Found.Mem
open Octiron.Kzadhbat

/-! ## The code -/

/-- How `kmain` ends.
Source: `entry.c` `kmain`
Kind: D -/
inductive KmainEnd
  /-- "Failed to parse DTB" -/
  | panic (err : Errval)
  /-- `dt_initialize` does not return, or a call of the manager ends in a `TODO`. -/
  | stuck
  /-- The rewrite pass has stored behind its buffer. -/
  | overrun
  /-- "Kernel loop reached" -/
  | loop
  deriving DecidableEq

/-- `kmain`. `page` is where `sv39_map_small_page` has its variable for the new table, and `blob` is what
loads from the blob give, which does not change during the call.
Source: `entry.c` `kmain`
Kind: D
Fidelity: exact, but for what `dtInitialize` leaves out -/
def kmain (machine : DtMachine) (k : KernelImage) (page : Addr) (blob : Mem) (w : World (Option Pmm)) :
    World (Option Pmm) × KmainEnd :=
  let (w, ret) := dtInitialize machine (pmmAllocAt page) k.kernelRoot blob (load64 w.mem k.dtbBaseAddr) w
  if w.pmm.isNone then (w, .stuck)
  else
    match ret with
    | .stuck => (w, .stuck)
    | .overrun => (w, .overrun)
    | .returned err => if errIsFail err then (w, .panic err) else (w, .loop)

/-! ## Runs over pages -/

variable {σ : Type}

/-- **Memory has a tree of tables that the allocator knows**.
Source: none: infrastructure
Kind: D -/
def TablesHeld (I : σ → (TableNode → Option Addr) → Prop) (root : Addr) (w : World σ) : Prop :=
  ∃ T E, EntriesRep w.mem root T E ∧ I w.pmm T

section runs

variable {pmmAlloc : PmmAlloc σ} {root : Addr} {F : Addr → Prop}
  {I : σ → (TableNode → Option Addr) → Prop} {w : World σ}

/-- A walk only depends on the indices.
Source: none: the Sv39 scheme
Kind: L -/
theorem sv39Walk_of_pageIndex_eq (m : Mem) {va va' : Addr} (h : pageIndex va = pageIndex va') :
    sv39Walk m va 2 root = sv39Walk m va' 2 root :=
  sv39Walk_congr (samePage_iff.mpr h).vpn_eq le_rfl

/-- **One page**: its walk found nothing and finds the page, and every other walk is as before; or an
error is returned and every walk is as before.
Source: `paging.c` `sv39_map`, `device_tree.c` `dt_initialize`
Kind: L -/
theorem TablesHeld.mapPage (h : TablesHeld I root w) (hs : TableSupply pmmAlloc root F I)
    (hroot : root ≠ 0) {pa : Addr} (hpa : PageAligned pa) :
    (sv39Walk w.mem pa 2 root = none ∧ ∃ w', dtbMapPage pmmAlloc root pa w = (w', none) ∧
      TablesHeld I root w' ∧ ∀ va, sv39Walk w'.mem va 2 root =
        if pageIndex va = pageIndex pa then some (0, sv39LeafEntry pa sv39FlagsRead)
        else sv39Walk w.mem va 2 root) ∨
    ∃ w' e, dtbMapPage pmmAlloc root pa w = (w', some e) ∧ TablesHeld I root w' ∧
      ∀ va, sv39Walk w'.mem va 2 root = sv39Walk w.mem va 2 root := by
  obtain ⟨T, E, hrep, hI⟩ := h
  obtain ⟨T₁, E₁, hrep₁, hI₁, -⟩ := hs.map hrep hI pa pa sv39FlagsRead
  obtain ⟨w', e, T', hmap, hcases⟩ :=
    sv39Map_entries hrep hroot hpa hpa sv39FlagsRead (hs.callsOk hrep hI pa)
  rw [hmap] at hrep₁ hI₁
  have hheld : TablesHeld I root w' := ⟨T₁, E₁, hrep₁, hI₁⟩
  unfold dtbMapPage idMapPage
  rw [hmap]
  dsimp only
  rcases hcases with ⟨hfree, -, rfl, hrep'⟩ | ⟨-, rfl, hrep'⟩ | ⟨-, -, ⟨e', rfl⟩, hrep'⟩
  · refine Or.inl ⟨?_, w', congrArg (Prod.mk w') (if_neg (by decide)), hheld, fun va => ?_⟩
    · rw [hrep.walk, hfree, Option.map_none]
    · rw [hrep'.walk, hrep.walk]
      by_cases hva : pageIndex va = pageIndex pa
      · rw [hva, Function.update_self, if_pos rfl, Option.map_some]
      · rw [Function.update_of_ne hva, if_neg hva]
  · refine Or.inr ⟨w', _, congrArg (Prod.mk w') (if_pos (by decide)), hheld, fun va => ?_⟩
    rw [hrep'.walk, hrep.walk]
  · refine Or.inr ⟨w', _, congrArg (Prod.mk w') (if_pos (errIsFail_setupTable e')), hheld, fun va => ?_⟩
    rw [hrep'.walk, hrep.walk]

/-- **A run of `sv39_map` over pages**: each walk finds what it found, or it found nothing and finds one
of the pages; if the run is not left, the walks of all pages found nothing.
Source: `device_tree.c` `dt_initialize`
Kind: P -/
theorem TablesHeld.mapEach (h : TablesHeld I root w) (hs : TableSupply pmmAlloc root F I)
    (hroot : root ≠ 0) {l : List Addr} (hl : ∀ pa ∈ l, PageAligned pa) :
    TablesHeld I root (runEach (dtbMapPage pmmAlloc root) l w).1 ∧
      (∀ va, sv39Walk (runEach (dtbMapPage pmmAlloc root) l w).1.mem va 2 root =
          sv39Walk w.mem va 2 root ∨
        sv39Walk w.mem va 2 root = none ∧ ∃ pa ∈ l, pageIndex va = pageIndex pa ∧
          sv39Walk (runEach (dtbMapPage pmmAlloc root) l w).1.mem va 2 root =
            some (0, sv39LeafEntry pa sv39FlagsRead)) ∧
      ((runEach (dtbMapPage pmmAlloc root) l w).2 = none →
        ∀ pa ∈ l, sv39Walk w.mem pa 2 root = none) := by
  induction l generalizing w with
  | nil => exact ⟨h, fun _ => Or.inl rfl, fun _ pa hpa => absurd hpa List.not_mem_nil⟩
  | cons pa l ih =>
      rcases h.mapPage hs hroot (hl pa List.mem_cons_self) with ⟨hfree, w₁, hbody, hheld, hwalk⟩ |
        ⟨w₁, e, hbody, hheld, hwalk⟩
      · rw [runEach_cons_of_none hbody]
        obtain ⟨hheld', hadds, hall⟩ := ih hheld fun pa' hpa' => hl pa' (List.mem_cons_of_mem pa hpa')
        -- a walk that finds nothing after the page found nothing before it
        have hnone : ∀ {va}, sv39Walk w₁.mem va 2 root = none → sv39Walk w.mem va 2 root = none := by
          intro va hva
          rw [hwalk] at hva
          split_ifs at hva
          exact hva
        refine ⟨hheld', fun va => ?_, fun hrun pa' hpa' => ?_⟩
        · rcases hadds va with hsame | ⟨hva, pa', hpa', hindex, hfound⟩
          · rw [hwalk] at hsame
            split_ifs at hsame with hindex
            · refine Or.inr ⟨?_, pa, List.mem_cons_self, hindex, hsame⟩
              rw [sv39Walk_of_pageIndex_eq w.mem hindex, hfree]
            · exact Or.inl hsame
          · exact Or.inr ⟨hnone hva, pa', List.mem_cons_of_mem pa hpa', hindex, hfound⟩
        · rcases List.mem_cons.mp hpa' with rfl | hpa'
          · exact hfree
          · exact hnone (hall hrun pa' hpa')
      · rw [runEach_cons_of_some hbody]
        refine ⟨hheld, fun va => Or.inl (hwalk va), fun hrun => ?_⟩
        cases hrun

/-- **A run of `sv39_unmap` over pages**: each walk finds what it found, or nothing, and then it is the
walk of one of the pages.
Source: `device_tree.c` `dt_initialize`
Kind: P -/
theorem unmapEach_walk {T : TableNode → Option Addr} {E : PageIndex → Option (BitVec 64)}
    (h : EntriesRep w.mem root T E) (hroot : root ≠ 0) {l : List Addr}
    (hl : ∀ pa ∈ l, PageAligned pa) (va : Addr) :
    sv39Walk (runEach (dtbUnmapPage root) l w).1.mem va 2 root = sv39Walk w.mem va 2 root ∨
      sv39Walk (runEach (dtbUnmapPage root) l w).1.mem va 2 root = none ∧
        ∃ pa ∈ l, pageIndex va = pageIndex pa := by
  induction l generalizing w E with
  | nil => exact Or.inl rfl
  | cons pa l ih =>
      rcases sv39Unmap_entries h hroot (hl pa List.mem_cons_self) with ⟨-, hunmap⟩ |
        ⟨v, w₁, -, hunmap, hrep⟩
      · have hbody : dtbUnmapPage root pa w = (w, some (errPush
            GrouperError.pagingMappingDoesntExist.errval .dtbUnmappingFailed)) := by
          rw [dtbUnmapPage, hunmap]
        rw [runEach_cons_of_some hbody]
        exact Or.inl rfl
      · have hbody : dtbUnmapPage root pa w = (w₁, none) := by
          rw [dtbUnmapPage, hunmap]
        rw [runEach_cons_of_none hbody]
        rcases ih hrep fun pa' hpa' => hl pa' (List.mem_cons_of_mem pa hpa') with hsame |
          ⟨hnone, pa', hpa', hindex⟩
        · by_cases hva : pageIndex va = pageIndex pa
          · refine Or.inr ⟨?_, pa, List.mem_cons_self, hva⟩
            rw [hsame, hrep.walk, hva, Function.update_self, Option.map_none]
          · refine Or.inl ?_
            rw [hsame, hrep.walk, h.walk, Function.update_of_ne hva]
        · exact Or.inr ⟨hnone, pa', List.mem_cons_of_mem pa hpa', hindex⟩

end runs

/-! ## The whole function -/

/-- **Every walk finds what it found**, or it found nothing and finds a page of the blob, for reading
only.
Source: none: what `dt_initialize` may do to the address space
Kind: D -/
def OnlyAdds (root : Addr) (blob : Mem) (base : Addr) (m m' : Mem) : Prop :=
  ∀ va, sv39Walk m' va 2 root = sv39Walk m va 2 root ∨
    sv39Walk m va 2 root = none ∧ ∃ pa, PageAligned pa ∧ pageIndex va = pageIndex pa ∧
      (pa = dtbAlignedBase base ∨ pa < dtbEnd blob base) ∧
      sv39Walk m' va 2 root = some (0, sv39LeafEntry pa sv39FlagsRead)

/-- **If a call returns, it has only added**.
Source: none: what `dt_initialize` may do to the address space
Kind: D -/
def ReturnsAdding (root : Addr) (blob : Mem) (base : Addr) (m : Mem) (r : World σ × DtEnd) : Prop :=
  ∀ err, r.2 = .returned err → OnlyAdds root blob base m r.1.mem

section whole

variable {machine : DtMachine} {pmmAlloc : PmmAlloc σ} {root : Addr} {F : Addr → Prop}
  {I : σ → (TableNode → Option Addr) → Prop} {w : World σ} {blob : Mem} {base : Addr}

/-- The pages that the unmapping comes to are among those that have been mapped.
Source: `device_tree.c` `dt_initialize`
Kind: L -/
theorem mem_mapped_of_unmapped {stop base : Addr} {n n' : ℕ}
    (hstop : ¬ base + basePageSize + BitVec.ofNat 64 n * basePageSize < stop)
    (hguard : ∀ pa ∈ counts basePageSize n' base, pa < stop) :
    ∀ pa ∈ counts basePageSize n' base, pa ∈ base :: counts basePageSize n (base + basePageSize) := by
  have hle : n' ≤ n + 1 := by
    by_contra hlt
    refine hstop (hguard _ ?_)
    have hnext : base + basePageSize + BitVec.ofNat 64 n * basePageSize =
        base + BitVec.ofNat 64 (n + 1) * basePageSize := by
      have hone : BitVec.ofNat 64 1 * basePageSize = basePageSize := BitVec.one_mul basePageSize
      rw [Nat.add_comm n 1, BitVec.ofNat_add, BitVec.add_mul, hone, BitVec.add_assoc]
    rw [hnext, counts_eq_map, List.mem_map]
    exact ⟨n + 1, List.mem_range.mpr (Nat.lt_of_not_le hlt), rfl⟩
  intro pa hpa
  rw [counts_eq_take hle] at hpa
  exact List.mem_of_mem_take hpa

/-- The loop that maps, as a run.
Source: `device_tree.c` `dt_initialize`
Kind: L -/
theorem dtbMapLoop_exists (pmmAlloc : PmmAlloc σ) (root : Addr) (blob : Mem) (base : Addr)
    (w : World σ) :
    ∃ n, (∀ pa ∈ counts basePageSize n (dtbAlignedBase base + basePageSize), pa < dtbEnd blob base) ∧
      (dtbMapLoop pmmAlloc root blob base w).1 = (runEach (dtbMapPage pmmAlloc root)
        (counts basePageSize n (dtbAlignedBase base + basePageSize)) w).1 ∧
      ((dtbMapLoop pmmAlloc root blob base w).2 = .finished →
        (runEach (dtbMapPage pmmAlloc root)
          (counts basePageSize n (dtbAlignedBase base + basePageSize)) w).2 = none ∧
        ¬ dtbAlignedBase base + basePageSize + BitVec.ofNat 64 n * basePageSize < dtbEnd blob base) :=
  countLoop_exists pageRounds _ w

/-- The loop that unmaps, as a run.
Source: `device_tree.c` `dt_initialize`
Kind: L -/
theorem dtbUnmapLoop_exists (root : Addr) (blob : Mem) (base : Addr) (w : World σ) :
    ∃ n, (∀ pa ∈ counts basePageSize n (dtbAlignedBase base), pa < dtbEnd blob base) ∧
      (dtbUnmapLoop root blob base w).1 =
        (runEach (dtbUnmapPage root) (counts basePageSize n (dtbAlignedBase base)) w).1 := by
  unfold dtbUnmapLoop
  obtain ⟨n, hguard, hstate, -⟩ := countLoop_exists pageRounds (dtbAlignedBase base) w
  exact ⟨n, hguard, hstate⟩

/-- The end of `dt_initialize` comes to the state that the unmapping leaves.
Source: `device_tree.c` `dt_initialize`
Kind: L -/
theorem dtbUnmap_state (root : Addr) (blob : Mem) (base : Addr) (w : World σ) :
    (dtbUnmap root blob base w).1 = (dtbUnmapLoop root blob base w).1 := by
  unfold dtbUnmap
  rcases dtbUnmapLoop root blob base w with ⟨w', _ | e | _⟩ <;> rfl

/-- What is mapped is of the blob.
Source: `device_tree.c` `dt_initialize`
Kind: L -/
theorem TablesHeld.onlyAdds (h : TablesHeld I root w) (hs : TableSupply pmmAlloc root F I)
    (hroot : root ≠ 0) {l : List Addr} (hl : ∀ pa ∈ l, PageAligned pa)
    (hblob : ∀ pa ∈ l, pa = dtbAlignedBase base ∨ pa < dtbEnd blob base) :
    OnlyAdds root blob base w.mem (runEach (dtbMapPage pmmAlloc root) l w).1.mem := by
  intro va
  obtain ⟨-, hadds, -⟩ := h.mapEach hs hroot hl
  rcases hadds va with hsame | ⟨hnone, pa, hpa, hindex, hfound⟩
  · exact Or.inl hsame
  · exact Or.inr ⟨hnone, pa, hl pa hpa, hindex, hblob pa hpa, hfound⟩

/-- A call that does not return.
Source: none: infrastructure
Kind: L -/
theorem returnsAdding_of_ne {m : Mem} {r : World σ × DtEnd} (h : ∀ err, r.2 ≠ .returned err) :
    ReturnsAdding root blob base m r := fun err herr => absurd herr (h err)

/-- **The unmapping** of pages that this call has mapped.
Source: `device_tree.c` `dt_initialize`
Kind: L -/
theorem OnlyAdds.unmap {m : Mem} {T : TableNode → Option Addr} {E : PageIndex → Option (BitVec 64)}
    (h : OnlyAdds root blob base m w.mem) (hrep : EntriesRep w.mem root T E) (hroot : root ≠ 0)
    (hfree : ∀ n, (∀ pa ∈ counts basePageSize n (dtbAlignedBase base), pa < dtbEnd blob base) →
      ∀ pa ∈ counts basePageSize n (dtbAlignedBase base), sv39Walk m pa 2 root = none) :
    OnlyAdds root blob base m (dtbUnmap root blob base w).1.mem := by
  rw [dtbUnmap_state]
  obtain ⟨n, hguard, hstate⟩ := dtbUnmapLoop_exists root blob base w
  rw [hstate]
  intro va
  rcases unmapEach_walk hrep hroot (fun pa hpa => pageAligned_of_mem_counts
    (pageAligned_dtbAlignedBase base) hpa) va with hwalk | ⟨hnone, pa, hpa, hindex⟩
  · rw [hwalk]
    exact h va
  · left
    rw [hnone, sv39Walk_of_pageIndex_eq m hindex, hfree n hguard pa hpa]

/-- **From the buffer on**: what is unmapped had been mapped by this call.
Source: `device_tree.c` `dt_initialize`
Kind: L -/
theorem TablesHeld.parseMapped (h : TablesHeld I root w) (hs : TableSupply pmmAlloc root F I)
    (hbuffer : ∀ {m s T E}, I s T → EntriesRep m root T E →
      EntriesRep (pmmAlloc s m (2 * basePageSize)).mem root T E)
    (hblocks : ∀ {m s T E}, I s T → EntriesRep m root T E →
      EntriesRep ((dtbBlocks machine pmmAlloc root blob base ⟨m, s⟩).1.written machine pmmAlloc).mem root
        T E)
    (hroot : root ≠ 0) {l : List Addr} (hl : ∀ pa ∈ l, PageAligned pa)
    (hblob : ∀ pa ∈ l, pa = dtbAlignedBase base ∨ pa < dtbEnd blob base)
    (hrun : (runEach (dtbMapPage pmmAlloc root) l w).2 = none)
    (hunmapped : ∀ n, (∀ pa ∈ counts basePageSize n (dtbAlignedBase base), pa < dtbEnd blob base) →
      ∀ pa ∈ counts basePageSize n (dtbAlignedBase base), pa ∈ l) :
    ReturnsAdding root blob base w.mem (dtbParseMapped machine pmmAlloc root blob base
      (runEach (dtbMapPage pmmAlloc root) l w).1) := by
  obtain ⟨⟨T, E, hrep, hI⟩, -, hfree⟩ := h.mapEach hs hroot hl
  have honly : OnlyAdds root blob base w.mem (runEach (dtbMapPage pmmAlloc root) l w).1.mem :=
    h.onlyAdds hs hroot hl hblob
  generalize (runEach (dtbMapPage pmmAlloc root) l w).1 = w₁ at hrep hI honly ⊢
  -- memory with the same tables
  have hkept : ∀ {m : Mem}, EntriesRep m root T E → OnlyAdds root blob base w.mem m := by
    intro m hrep' va
    rw [hrep'.walk, ← hrep.walk]
    exact honly va
  unfold dtbParseMapped
  dsimp only
  split_ifs
  · exact fun _ _ => hkept (hbuffer hI hrep)
  · have hrep' := hblocks hI hrep
    rcases hend : dtbBlocks machine pmmAlloc root blob base w₁ with ⟨run, _ | err | _ | _⟩
    · rw [hend] at hrep'
      exact fun _ _ => (hkept hrep').unmap hrep' hroot fun n hguard pa hpa =>
        hfree hrun pa (hunmapped n hguard pa hpa)
    · rw [hend] at hrep'
      exact fun _ _ => hkept hrep'
    · exact returnsAdding_of_ne fun _ => DtEnd.noConfusion
    · exact returnsAdding_of_ne fun _ => DtEnd.noConfusion

/-- **`dt_initialize` only adds**, whatever it reads and wherever it fails.
Source: `device_tree.c` `dt_initialize`
Kind: P -/
theorem TablesHeld.initialize (h : TablesHeld I root w) (hs : TableSupply pmmAlloc root F I)
    (hbuffer : ∀ {m s T E}, I s T → EntriesRep m root T E →
      EntriesRep (pmmAlloc s m (2 * basePageSize)).mem root T E)
    (hblocks : ∀ {m s T E}, I s T → EntriesRep m root T E →
      EntriesRep ((dtbBlocks machine pmmAlloc root blob base ⟨m, s⟩).1.written machine pmmAlloc).mem root
        T E)
    (hroot : root ≠ 0) :
    ReturnsAdding root blob base w.mem (dtInitialize machine pmmAlloc root blob base w) := by
  have haligned := pageAligned_dtbAlignedBase base
  -- the first page
  have hfirst : OnlyAdds root blob base w.mem
      (dtbMapPage pmmAlloc root (dtbAlignedBase base) w).1.mem := by
    have honly : OnlyAdds root blob base w.mem
        (runEach (dtbMapPage pmmAlloc root) [dtbAlignedBase base] w).1.mem :=
      h.onlyAdds hs hroot (List.forall_mem_singleton.mpr haligned)
        (List.forall_mem_singleton.mpr (Or.inl rfl))
    rcases hbody : dtbMapPage pmmAlloc root (dtbAlignedBase base) w with ⟨w₁, _ | e⟩
    · rwa [runEach_cons_of_none hbody] at honly
    · rwa [runEach_cons_of_some hbody] at honly
  unfold dtInitialize
  rcases hbody : dtbMapPage pmmAlloc root (dtbAlignedBase base) w with ⟨w₁, _ | e⟩
  · rw [hbody] at hfirst
    obtain ⟨n, hguard, hstate, hfinished⟩ := dtbMapLoop_exists pmmAlloc root blob base w₁
    have hall : runEach (dtbMapPage pmmAlloc root) (dtbAlignedBase base ::
        counts basePageSize n (dtbAlignedBase base + basePageSize)) w = runEach (dtbMapPage pmmAlloc root)
          (counts basePageSize n (dtbAlignedBase base + basePageSize)) w₁ := runEach_cons_of_none hbody
    have hl : ∀ pa ∈ dtbAlignedBase base :: counts basePageSize n (dtbAlignedBase base + basePageSize),
        PageAligned pa :=
      List.forall_mem_cons.mpr ⟨haligned, fun pa hpa =>
        pageAligned_of_mem_counts (pageAligned_first base) hpa⟩
    have hblob : ∀ pa ∈ dtbAlignedBase base :: counts basePageSize n (dtbAlignedBase base + basePageSize),
        pa = dtbAlignedBase base ∨ pa < dtbEnd blob base :=
      List.forall_mem_cons.mpr ⟨Or.inl rfl, fun pa hpa => Or.inr (hguard pa hpa)⟩
    have hloop := h.onlyAdds hs hroot hl hblob
    rw [hall, ← hstate] at hloop
    dsimp only
    unfold dtbReadHeader
    split_ifs
    · exact returnsAdding_of_ne fun _ => DtEnd.noConfusion
    · exact fun _ _ => hfirst
    · exact returnsAdding_of_ne fun _ => DtEnd.noConfusion
    · rcases hrun : dtbMapLoop pmmAlloc root blob base w₁ with ⟨w₂, _ | e | _⟩
      · rw [hrun] at hfinished hstate
        obtain ⟨hnone, hstop⟩ := hfinished rfl
        rw [← hall] at hnone hstate
        have hparse : ReturnsAdding root blob base w.mem
            (dtbParseMapped machine pmmAlloc root blob base _) :=
          h.parseMapped hs hbuffer hblocks hroot hl hblob hnone
            fun n' hguard' => mem_mapped_of_unmapped hstop hguard'
        rw [← hstate] at hparse
        exact hparse
      · rw [hrun] at hloop
        exact fun _ _ => hloop
      · exact returnsAdding_of_ne fun _ => DtEnd.noConfusion
  · rw [hbody] at hfirst
    exact fun _ _ => hfirst

end whole

/-! ## The kernel's own manager -/

section manager

variable {b root page : Addr} {extents : List Extent} {out : List PmmAllocation} {T : TableNode → Option Addr}
  {E : PageIndex → Option (BitVec 64)} {m : Mem} {s : Option Pmm}

/-- **The buffer** is in no table.
Source: `device_tree.c` `dt_initialize`, `pmm.c` `pmm_alloc`
Kind: L -/
theorem EntriesRep.buffer (hrep : EntriesRep m root T E)
    (hs : ∀ p, s = some p → TablePages b root p T out) (size : BitVec 64) :
    EntriesRep (pmmAllocAt page s m size).mem root T E := by
  cases s with
  | none => exact hrep
  | some p =>
      rcases hcall : pmmAlloc { p with mem := m } size page with _ | ⟨p', e, a⟩
      · rw [pmmAllocAt_of_none hcall]
        exact hrep
      · rw [pmmAllocAt_of_some hcall]
        obtain ⟨-, hsame, -⟩ := ((hs p rfl).setMem m).alloc hrep hcall
        exact hrep.congr fun n t hn => hsame _ t (EntriesRep.tableAt (w := ⟨m, ()⟩) hrep hn)

/-- No byte of a table is among the bytes of an allocation.
Source: `pmm.c` `pmm_alloc_aligned`
Kind: L -/
theorem TablePages.not_mem_allocation {p : Pmm} (h : TablePages b root p T out)
    (hrep : EntriesRep m root T E) {a : PmmAllocation} (ha : a ∈ out) (hsize : a.size.toNat ≤ 2 ^ 50)
    {n : TableNode} {t : Addr} (hn : T n = some t) {i : ℕ} (hi : i < 4096) :
    ¬ (t + BitVec.ofNat 64 i - a.ret).toNat < a.size.toNat := by
  intro hlt
  obtain ⟨tables, ⟨j, G, hinv⟩, -⟩ := h.pool
  have hup : a.size.toNat ≤ (alignUp a.size basePageSize).toNat := by
    rw [alignUp_page_toNat (by omega)]
    omega
  have hmem := hinv.mem_extent h.recorded (List.mem_append_right _ ha) (lt_of_lt_of_le hlt hup)
  have hdisj := h.not_mem_table hrep ha (EntriesRep.tableAt (w := ⟨m, ()⟩) hrep hn)
  exact Finset.disjoint_left.mp hdisj (pageExtent_byte (hrep.aligned hn) hi) hmem

/-- **Between two calls of the manager**: the tables are pages of it, they are as in `m`, and no byte of
them has been handed out.
Source: none: infrastructure
Kind: D -/
structure TablesManaged (b root page : Addr) (T : TableNode → Option Addr) (m : Mem)
    (w : World (Option Pmm)) (calls : List (World (Option Pmm) × BitVec 64)) : Prop where
  same : ∀ n t, T n = some t → PageEq w.mem m t
  pages : ∀ p, w.pmm = some p → ∃ out, TablePages b root p T out
  granted : ∀ r ∈ grantedRanges (pmmAllocAt page) calls, ∀ n t, T n = some t → ∀ i < 4096,
    ¬ (t + BitVec.ofNat 64 i - r.1).toNat < r.2

/-- **One call**.
Source: `pmm.c` `pmm_alloc_aligned`
Kind: L -/
theorem TablesManaged.call {run : DtRun (Option Pmm)} {size : BitVec 64} {m₀ : Mem}
    (h : TablesManaged b root page T m₀ run.world run.calls) (hrep₀ : EntriesRep m₀ root T E)
    (hsize : size.toNat ≤ 2 ^ 50) :
    TablesManaged b root page T m₀ (run.call (pmmAllocAt page) size).world
      (run.call (pmmAllocAt page) size).calls := by
  obtain ⟨⟨m, s⟩, state, calls⟩ := run
  obtain ⟨hsame₀, hpages, hgranted⟩ := h
  have hrep : EntriesRep m root T E := hrep₀.congr hsame₀
  dsimp only at hsame₀ hpages hgranted
  -- a call that fails hands out nothing
  have hfailed : errIsFail (pmmAllocAt page s m size).err = true →
      grantedRanges (pmmAllocAt page) ((⟨m, s⟩, size) :: calls) =
        grantedRanges (pmmAllocAt page) calls := by
    intro hfail
    unfold grantedRanges
    rw [List.filterMap_cons]
    dsimp only
    rw [if_pos hfail]
  unfold DtRun.call
  dsimp only
  cases s with
  | none =>
      refine ⟨hsame₀, fun p hp => (by cases hp), ?_⟩
      rw [hfailed errIsFail_notImplemented]
      exact hgranted
  | some p =>
      obtain ⟨out, hout⟩ := hpages p rfl
      rcases hcall : pmmAlloc { p with mem := m } size page with _ | ⟨p', e, a⟩
      · have hres := pmmAllocAt_of_none hcall
        rw [hres] at hfailed ⊢
        refine ⟨hsame₀, fun p hp => (by cases hp), ?_⟩
        rw [hfailed errIsFail_notImplemented]
        exact hgranted
      · have hres := pmmAllocAt_of_some hcall
        obtain ⟨hpages', hsame, -⟩ := (hout.setMem m).alloc hrep hcall
        have hrep' : EntriesRep p'.mem root T E :=
          hrep.congr fun n t hn => hsame _ t (EntriesRep.tableAt (w := ⟨m, ()⟩) hrep hn)
        rw [hres] at hfailed ⊢
        refine ⟨fun n t hn i hi => ?_, fun q hq => ?_, ?_⟩
        · exact (hsame _ t (EntriesRep.tableAt (w := ⟨m, ()⟩) hrep hn) i hi).trans (hsame₀ n t hn i hi)
        · obtain rfl : p' = q := Option.some.inj hq
          exact ⟨_, hpages'⟩
        · by_cases hok : e = GrouperError.ok.errval
          · subst hok
            rw [if_pos rfl] at hpages'
            unfold grantedRanges
            rw [List.filterMap_cons]
            dsimp only
            rw [hres, errIsFail_ok, if_neg Bool.false_ne_true]
            refine List.forall_mem_cons.mpr ⟨fun n t hn i hi => ?_, hgranted⟩
            exact hpages'.not_mem_allocation hrep' List.mem_cons_self hsize hn hi
          · rw [hfailed ((pmmAllocAligned_err hcall).resolve_left hok)]
            exact hgranted

/-- The tables before the first call.
Source: none: infrastructure
Kind: L -/
theorem tablesManaged_nil (hs : ∀ p, s = some p → TablePages b root p T out) (page : Addr) :
    TablesManaged b root page T m ⟨m, s⟩ [] :=
  ⟨fun _ _ _ _ _ => rfl, fun p hp => ⟨out, hs p hp⟩, fun _ hr => absurd hr List.not_mem_nil⟩

/-- **The two passes** leave the tables as they are.
Source: `device_tree.c` `dt_initialize`
Kind: P -/
theorem EntriesRep.blocks (hrep : EntriesRep m root T E)
    (hs : ∀ p, s = some p → TablePages b root p T out) (page : Addr) (machine : DtMachine) (blob : Mem)
    (base : Addr) : ∀ n t, T n = some t → PageEq ((dtbBlocks machine (pmmAllocAt page) root blob base ⟨m, s⟩).1.written
      machine (pmmAllocAt page)).mem m t := by
  obtain ⟨hsame, -, hgranted⟩ := dtbBlocks_calls (fun run size h hsize => h.call hrep hsize.2)
    (tablesManaged_nil hs page) (dtbBlocks_small machine (pmmAllocAt page) root blob base ⟨m, s⟩)
  intro n t hn i hi
  have hbyte := hsame n t hn i hi
  rw [← hbyte]
  exact overlay_apply_of_forall fun r hr => hgranted r hr n t hn i hi

end manager

/-! ## After the boot -/

section booted

variable {k : KernelImage} {m₀ : Mem} {w : World (Option Pmm)}

/-- `kmain` leaves what `dt_initialize` leaves.
Source: `entry.c` `kmain`
Kind: L -/
theorem kmain_state (machine : DtMachine) (k : KernelImage) (page : Addr) (blob : Mem)
    (w : World (Option Pmm)) :
    (kmain machine k page blob w).1 = (dtInitialize machine (pmmAllocAt page) k.kernelRoot blob
      (load64 w.mem k.dtbBaseAddr) w).1 := by
  unfold kmain
  rcases dtInitialize machine (pmmAllocAt page) k.kernelRoot blob (load64 w.mem k.dtbBaseAddr) w with
    ⟨w', err | _ | _⟩
  · dsimp only
    split_ifs <;> rfl
  · dsimp only
    split_ifs <;> rfl
  · dsimp only
    split_ifs <;> rfl

end booted

end Octiron.Kernel
