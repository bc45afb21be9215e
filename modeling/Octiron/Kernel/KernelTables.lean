import Octiron.Kernel.PageRuns
import Octiron.Kernel.PmmPartition

/-!
# Page tables from the physical memory manager

`sv39_map` takes its tables from `pmm_alloc`, and so does the rest of the kernel take its memory. Here the
two are put on one memory.

* `TableSupply` — an allocator that keeps an invariant between its state and the tables in use, and from
  it has what `sv39_map` relies on. `TableSupply.map` is one `sv39_map`.
* `pmmAllocAt` — the kernel's own `pmm_alloc`. `TablePages` — the pages that it has handed out are the
  tables in use and what the rest of the kernel has, and no two of them meet.
* **Main result** (`tableSupply_pmm`): the manager supplies the tables.
-/

namespace Octiron.Kernel

open Octiron.Found
open Octiron.Found.Mem
open Octiron.Kzadhbat

variable {σ : Type}

/-! ## Allocators for tables -/

/-- The bytes of a page.
Source: none: infrastructure
Kind: D -/
def pageExtent (t : Addr) : Extent := ⟨t.toNat, 4096⟩

/-- Source: none: infrastructure. Kind: L -/
theorem toNat_mem_pageExtent (t : Addr) : t.toNat ∈ (pageExtent t).bytes :=
  Extent.mem_bytes.mpr ⟨le_rfl, Nat.lt_add_of_pos_right (Nat.zero_lt_succ 4095)⟩

/-- A store to a slot stays in the page.
Source: none: infrastructure
Kind: L -/
theorem store64_slot_apply {m : Mem} {t x : Addr} {i v : BitVec 64} (ht : PageAligned t)
    (hi : i.toNat < 512) (hx : x.toNat ∉ (pageExtent t).bytes) :
    store64 m (slot t i) v x = m x := by
  refine if_neg fun hlt => hx ?_
  rw [pageAligned_iff] at ht
  have hslot : (slot t i).toNat = t.toNat + 8 * i.toNat := by
    have := t.isLt
    rw [slot_eq, BitVec.toNat_add, BitVec.toNat_ofNat]
    omega
  have := t.isLt
  have := x.isLt
  rw [BitVec.toNat_sub, hslot] at hlt
  rw [Extent.mem_bytes]
  show t.toNat ≤ x.toNat ∧ x.toNat < t.toNat + 4096
  omega

/-- **An allocator that knows the tables**: it keeps `I` between its state and the addresses of the
tables, whatever is in memory, and neither it nor the tables have the bytes of `F`.
Source: `paging.c` `sv39_map_small_page`
Kind: D -/
structure TableSupply (pmmAlloc : PmmAlloc σ) (root : Addr) (F : Addr → Prop)
    (I : σ → (TableNode → Option Addr) → Prop) : Prop where
  allocOk : ∀ {m s T E}, I s T → EntriesRep m root T E → PmmAllocOk pmmAlloc root ⟨m, s⟩
  frame : ∀ {m s T x}, I s T → F x → (pmmAlloc s m sizeofSv39PageTable).mem x = m x
  apart : ∀ {m s T E n t x}, I s T → EntriesRep m root T E → T n = some t → F x →
    x.toNat ∉ (pageExtent t).bytes
  fails : ∀ {m s T}, I s T → errIsFail (pmmAlloc s m sizeofSv39PageTable).err = true →
    I (pmmAlloc s m sizeofSv39PageTable).pmm T
  takes : ∀ {m s T n}, I s T → n ≠ .root → T n = none →
    errIsFail (pmmAlloc s m sizeofSv39PageTable).err = false →
    I (pmmAlloc s m sizeofSv39PageTable).pmm
      (Function.update T n (some (pmmAlloc s m sizeofSv39PageTable).ret))

section supply

variable {pmmAlloc : PmmAlloc σ} {root : Addr} {F : Addr → Prop}
  {I : σ → (TableNode → Option Addr) → Prop} {w : World σ} {T : TableNode → Option Addr} {E : PageIndex → Option (BitVec 64)}

/-- **Setting up a table**: it is the only one that may be new.
Source: `paging.c` `sv39_map_small_page`
Kind: L -/
theorem TableSupply.setup (hs : TableSupply pmmAlloc root F I) (h : EntriesRep w.mem root T E)
    (hI : I w.pmm T) {n u : TableNode} {i : BitVec 64} {t : Addr} (hpar : n.parent = some (u, i))
    (hi : i.toNat < 512) (ht : T u = some t) (err : Errval) :
    ∃ w' r T', sv39SetupTable pmmAlloc err w (slot t i) = (w', r) ∧ EntriesRep w'.mem root T' E ∧
      I w'.pmm T' ∧ (∀ n', T n' ≠ none ∨ n' ≠ n → T' n' = T n') ∧
      (∀ x, F x → w'.mem x = w.mem x) ∧ ∀ e, r = .ok e → ∃ p, T' n = some p := by
  have hroot : n ≠ .root := by
    rintro rfl
    cases hpar
  have hok := hs.allocOk hI h
  rcases hn : T n with _ | p
  · have hinv := h.link_none hpar hi ht hn
    rw [tableEntry] at hinv
    have hrep : EntriesRep (pmmAlloc w.pmm w.mem sizeofSv39PageTable).mem root T E :=
      h.congr fun _ _ hq => hok.tables _ _ (h.tableAt hq)
    rcases hfail : errIsFail (pmmAlloc w.pmm w.mem sizeofSv39PageTable).err with _ | _
    · -- the new table is linked
      obtain ⟨-, hpage, hzero, hapart⟩ := hok.page hfail
      refine ⟨⟨store64 (pmmAlloc w.pmm w.mem sizeofSv39PageTable).mem (slot t i)
        (sv39TableEntry (pmmAlloc w.pmm w.mem sizeofSv39PageTable).ret),
        (pmmAlloc w.pmm w.mem sizeofSv39PageTable).pmm⟩, .ok (pmmAlloc w.pmm w.mem
        sizeofSv39PageTable).err, _, ?_, hrep.link hpar hi ht hn hpage ?_ hzero,
        hs.takes hI hroot hn hfail, ?_, fun x hx => ?_, ?_⟩
      · rw [sv39SetupTable, hinv, if_neg (by simp), sv39TableEntry]
        simp only [hfail, Bool.false_eq_true, if_false]
      · intro n' q hq
        exact (hapart _ _ (h.tableAt hq)).ne.symm
      · intro n' hn'
        refine Function.update_of_ne (hn'.elim (fun hne => ?_) id) _ _
        rintro rfl
        exact hne hn
      · exact (store64_slot_apply (h.aligned ht) hi (hs.apart hI h ht hx)).trans (hs.frame hI hx)
      · intro e _
        exact ⟨_, Function.update_self ..⟩
    · refine ⟨⟨(pmmAlloc w.pmm w.mem sizeofSv39PageTable).mem,
        (pmmAlloc w.pmm w.mem sizeofSv39PageTable).pmm⟩, .error (errPush (pmmAlloc w.pmm w.mem
        sizeofSv39PageTable).err .pagingSetupTable), T, ?_, hrep, hs.fails hI hfail, fun _ _ => rfl,
        fun x hx => hs.frame hI hx, ?_⟩
      · rw [sv39SetupTable, hinv, if_neg (by simp)]
        simp only [hfail, if_true]
      · intro e he
        cases he
  · exact ⟨w, _, T, sv39SetupTable_of_some h hpar ht hn err, h, hI, fun _ _ => rfl, fun _ _ => rfl,
      fun _ _ => ⟨p, hn⟩⟩

/-- **What `sv39_map` relies on** in both of its calls.
Source: `paging.c` `sv39_map_small_page`
Kind: L -/
theorem TableSupply.callsOk (hs : TableSupply pmmAlloc root F I) (h : EntriesRep w.mem root T E)
    (hI : I w.pmm T) (va : Addr) : PmmCallsOk pmmAlloc root w va := by
  obtain ⟨w', r, T', hsetup, h', hI', -⟩ := hs.setup h hI (n := .l1 (vpn va 2)) rfl
    (vpn_lt va 2 le_rfl) h.root_eq errNew
  refine ⟨hs.allocOk hI h, ?_⟩
  rw [afterL1, hsetup]
  exact hs.allocOk hI' h'

/-- The tables on the way to a page, below the root.
Source: none: the Sv39 scheme
Kind: D -/
def tableNodes (va : Addr) : Finset TableNode := {.l1 (vpn va 2), .l0 (vpn va 2) (vpn va 1)}

/-- **One `sv39_map`**: the tables in use are still those that the allocator knows, only those on the way
to the page may be new, and the bytes of `F` are as before.
Source: `paging.c` `sv39_map`
Kind: L -/
theorem TableSupply.map (hs : TableSupply pmmAlloc root F I) (h : EntriesRep w.mem root T E)
    (hI : I w.pmm T) (va pa : Addr) (flags : BitVec 64) :
    ∃ T' E', EntriesRep (sv39Map pmmAlloc w root va pa flags .page).1.mem root T' E' ∧
      I (sv39Map pmmAlloc w root va pa flags .page).1.pmm T' ∧
      (∀ n, T n ≠ none ∨ n ∉ tableNodes va → T' n = T n) ∧
      ∀ x, F x → (sv39Map pmmAlloc w root va pa flags .page).1.mem x = w.mem x := by
  by_cases hroot : root = 0
  · rw [sv39Map, if_pos hroot]
    exact ⟨T, E, h, hI, fun _ _ => rfl, fun _ _ => rfl⟩
  rw [sv39Map, if_neg hroot]
  show ∃ T' E', EntriesRep (sv39MapSmallPage pmmAlloc w root va pa flags).1.mem root T' E' ∧ _
  unfold sv39MapSmallPage
  split_ifs
  · exact ⟨T, E, h, hI, fun _ _ => rfl, fun _ _ => rfl⟩
  obtain ⟨w₁, r₁, T₁, hsetup₁, h₁, hI₁, hsame₁, hframe₁, hl1⟩ := hs.setup h hI (n := .l1 (vpn va 2)) rfl
    (vpn_lt va 2 le_rfl) h.root_eq errNew
  have hkeep₁ : ∀ n, T n ≠ none ∨ n ∉ tableNodes va → T₁ n = T n := by
    refine fun n hn => hsame₁ n (hn.imp_right ?_)
    rintro hnot rfl
    exact hnot (Finset.mem_insert_self _ _)
  dsimp only
  rw [hsetup₁]
  cases r₁ with
  | error e => exact ⟨T₁, E, h₁, hI₁, hkeep₁, hframe₁⟩
  | ok e =>
      obtain ⟨p₁, hp₁⟩ := hl1 e rfl
      have hlink₁ := h₁.entry_link rfl h₁.root_eq hp₁
      dsimp only
      rw [hlink₁, sv39PtePpnToPaddr_tableEntry (h₁.page (by simp) hp₁)]
      obtain ⟨w₂, r₂, T₂, hsetup₂, h₂, hI₂, hsame₂, hframe₂, hl0⟩ := hs.setup h₁ hI₁
        (n := .l0 (vpn va 2) (vpn va 1)) rfl (vpn_lt va 1 (by norm_num)) hp₁ e
      have hp₁' : T₂ (.l1 (vpn va 2)) = some p₁ := (hsame₂ _ (Or.inr (by simp))).trans hp₁
      have hkeep₂ : ∀ n, T n ≠ none ∨ n ∉ tableNodes va → T₂ n = T n := by
        intro n hn
        rw [hsame₂ n, hkeep₁ n hn]
        rcases hn with hne | hnot
        · rw [hkeep₁ n (Or.inl hne)]
          exact Or.inl hne
        · refine Or.inr ?_
          rintro rfl
          exact hnot (Finset.mem_insert_of_mem (Finset.mem_singleton_self _))
      have hframe : ∀ x, F x → w₂.mem x = w.mem x := fun x hx => (hframe₂ x hx).trans (hframe₁ x hx)
      rw [hsetup₂]
      cases r₂ with
      | error e' => exact ⟨T₂, E, h₂, hI₂, hkeep₂, hframe⟩
      | ok e' =>
          obtain ⟨p₂, hp₂⟩ := hl0 e' rfl
          have hlink₂ := h₂.entry_link rfl hp₁' hp₂
          dsimp only
          rw [hlink₂, shift_tableEntry (h₂.page (by simp) hp₂)]
          split_ifs
          · exact ⟨T₂, E, h₂, hI₂, hkeep₂, hframe⟩
          · refine ⟨T₂, _, h₂.setLeaf hp₂ (vpn_lt va 0 (by norm_num)), hI₂, hkeep₂, fun x hx => ?_⟩
            exact (store64_slot_apply (h₂.aligned hp₂) (vpn_lt va 0 (by norm_num))
              (hs.apart hI₂ h₂ hp₂ hx)).trans (hframe x hx)

/-- **One `sv39_unmap`** writes to tables only.
Source: `paging.c` `sv39_unmap`
Kind: L -/
theorem EntriesRep.unmap_frame (h : EntriesRep w.mem root T E) (va : Addr) {x : Addr}
    (hx : ∀ n t, T n = some t → x.toNat ∉ (pageExtent t).bytes) :
    (sv39Unmap w root va).1.mem x = w.mem x := by
  -- a valid entry of a table above level 0 links a table
  have hlink : ∀ {n u : TableNode} {i : BitVec 64} {t : Addr}, n.parent = some (u, i) → n ≠ .root →
      i.toNat < 512 → T u = some t → sv39PteValid (load64 w.mem (slot t i)) = true →
      ∃ p, T n = some p ∧ sv39PtePpnToPaddr (load64 w.mem (slot t i)) = p := by
    intro n u i t hpar hn hi ht hvalid
    have hsome := h.valid_link hpar hi ht
    rw [tableEntry, hvalid] at hsome
    obtain ⟨p, hp⟩ := Option.isSome_iff_exists.mp hsome.symm
    have hentry := h.entry_link hpar ht hp
    exact ⟨p, hp, by rw [hentry, sv39PtePpnToPaddr_tableEntry (h.page hn hp)]⟩
  have hl1 := @hlink (.l1 (vpn va 2)) _ _ _ rfl (by simp) (vpn_lt va 2 le_rfl) h.root_eq
  unfold sv39Unmap
  dsimp only
  split_ifs with hroot halign h2 hleaf2 h1 hleaf1 h0
  · rfl
  · rfl
  · rfl
  · exact store64_slot_apply h.root_aligned (vpn_lt va 2 le_rfl) (hx _ _ h.root_eq)
  · rfl
  · rw [Bool.not_eq_true', Bool.not_eq_false] at h2
    obtain ⟨t, ht, hval⟩ := hl1 h2
    rw [hval]
    exact store64_slot_apply (h.aligned ht) (vpn_lt va 1 (by norm_num)) (hx _ _ ht)
  · rfl
  · rw [Bool.not_eq_true', Bool.not_eq_false] at h2 h1
    obtain ⟨t, ht, hval⟩ := hl1 h2
    rw [hval] at h1 ⊢
    obtain ⟨t₀, ht₀, hval₀⟩ := @hlink (.l0 (vpn va 2) (vpn va 1)) _ _ _ rfl (by simp)
      (vpn_lt va 1 (by norm_num)) ht h1
    rw [hval₀]
    exact store64_slot_apply (h.aligned ht₀) (vpn_lt va 0 (by norm_num)) (hx _ _ ht₀)

end supply

/-! ## What the manager hands out -/

section inv

variable {b : Addr} {p p' : Pmm} {j : ℕ} {G : List (List Addr)} {out out' : List PmmAllocation}

/-- The manager does not look at the pages.
Source: `pmm.c` `struct pmm`
Kind: L -/
theorem AllocInv.setMem (h : AllocInv b p j G out) (m : Mem) :
    AllocInv b { p with mem := m } j G out :=
  ⟨h.rep.congr rfl rfl fun _ _ => rfl, h.lists, h.free, h.covers, h.aligned⟩

/-- Source: none: infrastructure. Kind: L -/
theorem AllocInv.perm (h : AllocInv b p j G out) (hperm : out.Perm out') : AllocInv b p j G out' := by
  refine ⟨h.rep, h.lists, h.free, fun x => ?_, fun a ha => h.aligned a (hperm.mem_iff.mpr ha)⟩
  rw [← h.covers x]
  congr 1
  exact ((hperm.map PmmAllocation.extent).countP_eq _).symm

/-- **What is out does not meet**, and is in the regions.
Source: none: infrastructure
Kind: L -/
theorem AllocInv.separate (h : AllocInv b p j G out) (hrec : PmmRecorded p) :
    Separate (out.map PmmAllocation.extent) ∧ ∀ a ∈ out, ∀ x ∈ a.extent.bytes,
      ∃ e ∈ p.regions.map PmmRegion.extent, x ∈ e.bytes := by
  obtain ⟨G', -, -, -, hparts⟩ := (h.partitioned hrec).lists
  refine ⟨hparts.separate.sublist (List.sublist_append_right _ _), fun a ha x hx => ?_⟩
  exact (hparts.mem_iff x).mp ⟨a.extent, List.mem_append_right _ (List.mem_map_of_mem ha), hx⟩

/-- The bytes of what is out, as offsets: no range goes round the end of the address space.
Source: none: infrastructure
Kind: L -/
theorem AllocInv.mem_extent (h : AllocInv b p j G out) (hrec : PmmRecorded p) {a : PmmAllocation}
    (ha : a ∈ out) {x : Addr} (hlt : (x - a.ret).toNat < (alignUp a.size basePageSize).toNat) :
    x.toNat ∈ a.extent.bytes := by
  obtain ⟨e, he, hin⟩ := (h.separate hrec).2 a ha
    (a.ret.toNat + ((alignUp a.size basePageSize).toNat - 1)) (by
      rw [Extent.mem_bytes]
      show a.ret.toNat ≤ _ ∧ _ < a.ret.toNat + (alignUp a.size basePageSize).toNat
      omega)
  have hbelow := hrec.below e he
  have hupper := (Extent.mem_bytes.mp hin).2
  have := x.isLt
  rw [BitVec.toNat_sub] at hlt
  rw [Extent.mem_bytes]
  show a.ret.toNat ≤ _ ∧ _ < a.ret.toNat + (alignUp a.size basePageSize).toNat
  omega

/-- The error values that `pmm_alloc_aligned` returns.
Source: `pmm.c` `pmm_alloc_aligned`
Kind: L -/
theorem pmmAllocAligned_err {size alignment a : BitVec 64} {ret : Addr} {e : Errval}
    (hrun : pmmAllocAligned p size alignment ret = some (p', e, a)) :
    e = GrouperError.ok.errval ∨ errIsFail e = true := by
  unfold pmmAllocAligned at hrun
  dsimp only at hrun
  split_ifs at hrun
  · cases hrun
    exact Or.inr (by decide)
  · cases hrun
    exact Or.inr (by decide)
  · cases hrun
    exact Or.inr (by decide)
  · rcases hfind : pmmFindBlock p (alignUp size basePageSize) alignment 0 p.regions with
      _ | _ | ⟨i, prev, block⟩
    · rw [hfind] at hrun
      cases hrun
    · rw [hfind] at hrun
      cases hrun
      exact Or.inr (by decide)
    · rw [hfind] at hrun
      dsimp only at hrun
      rcases htake : pmmTakeBlock p i prev block (alignUp size basePageSize) alignment with _ | q
      · rw [htake] at hrun
        cases hrun
      · rw [htake] at hrun
        cases hrun
        exact Or.inl rfl

/-- **One `pmm_alloc_aligned`**: it fails and changes nothing, or its range is out, and zero.
Source: `pmm.c` `pmm_alloc_aligned`
Kind: L -/
theorem AllocInv.alloc (h : AllocInv b p j G out) (hrec : PmmRecorded p)
    {size alignment a : BitVec 64} {ret : Addr} {e : Errval}
    (hrun : pmmAllocAligned p size alignment ret = some (p', e, a)) :
    (errIsFail e = true ∧ e ≠ GrouperError.ok.errval ∧ p' = p) ∨
      e = GrouperError.ok.errval ∧ (∃ j' G', AllocInv b p' j' G' (⟨size, alignment, a⟩ :: out)) ∧
        p'.regions.map PmmRegion.extent = p.regions.map PmmRegion.extent ∧
        p'.mem = p.mem.fill a (alignUp size basePageSize).toNat 0 := by
  rcases pmmAllocAligned_cases h.rep hrun with ⟨hne, heq⟩ | ⟨hok, gpre, gpost, dpre, dpost, block,
    rfl, ht⟩
  · exact Or.inl ⟨(pmmAllocAligned_err hrun).resolve_left hne, hne, heq⟩
  · refine Or.inr ⟨hok, h.taken hrec ht, ht.extent_eq h.rep, ?_⟩
    rw [ht.mem, memset_eq_fill]

end inv

/-! ## Tables and allocations -/

/-- `pmm_alloc` as `sv39_map` calls it, with its variable `page` at `ret`. The state `none` is that of an
allocator that has not come back from a call; nothing of such a call is read.
Source: `paging.c` `sv39_map_small_page`, `pmm.c` `pmm_alloc`
Kind: D -/
def pmmAllocAt (ret : Addr) : PmmAlloc (Option Pmm) := fun s m size =>
  match s with
  | none => ⟨GrouperError.notImplemented.errval, 0, none, m⟩
  | some p =>
    match pmmAlloc { p with mem := m } size ret with
    | none => ⟨GrouperError.notImplemented.errval, 0, none, m⟩
    | some (p, err, page) => ⟨err, page, some p, p.mem⟩

/-- Source: none: infrastructure. Kind: L -/
theorem errIsFail_notImplemented : errIsFail GrouperError.notImplemented.errval = true := by decide

/-- Source: none: infrastructure. Kind: L -/
theorem errIsFail_ok : errIsFail GrouperError.ok.errval = false := by decide

/-- A call that does not return.
Source: none: infrastructure
Kind: L -/
theorem pmmAllocAt_of_none {p : Pmm} {m : Mem} {size : BitVec 64} {ret : Addr}
    (h : pmmAlloc { p with mem := m } size ret = none) :
    pmmAllocAt ret (some p) m size = ⟨GrouperError.notImplemented.errval, 0, none, m⟩ := by
  simp only [pmmAllocAt, h]

/-- A call that returns.
Source: none: infrastructure
Kind: L -/
theorem pmmAllocAt_of_some {p p' : Pmm} {m : Mem} {size : BitVec 64} {ret a : Addr} {e : Errval}
    (h : pmmAlloc { p with mem := m } size ret = some (p', e, a)) :
    pmmAllocAt ret (some p) m size = ⟨e, a, some p', p'.mem⟩ := by
  simp only [pmmAllocAt, h]

/-- The allocation of a table.
Source: `paging.c` `sv39_map_small_page`
Kind: D -/
def tableAllocation (t : Addr) : PmmAllocation := ⟨sizeofSv39PageTable, basePageSize, t⟩

/-- Source: none: infrastructure. Kind: L -/
theorem tableAllocation_extent (t : Addr) : (tableAllocation t).extent = pageExtent t := by
  have hsize : (alignUp sizeofSv39PageTable basePageSize).toNat = 4096 := by decide
  show Extent.mk t.toNat (alignUp sizeofSv39PageTable basePageSize).toNat = _
  rw [hsize, pageExtent]

/-- **A page that no region meets**, such as the root table, which the linker has placed.
Source: `paging.c` `kernel_root`
Kind: D -/
def Pmm.Spares (p : Pmm) (root : Addr) : Prop :=
  ∀ e ∈ p.regions.map PmmRegion.extent, Disjoint (pageExtent root).bytes e.bytes

/-- **The tables below the root are pages of the manager**, and with the allocations `out` of the rest of
the kernel they are all that it has handed out.
Source: none: infrastructure
Kind: D -/
structure TablePages (b root : Addr) (p : Pmm) (T : TableNode → Option Addr)
    (out : List PmmAllocation) : Prop where
  recorded : PmmRecorded p
  spares : p.Spares root
  pool : ∃ tables : List Addr, (∃ j G, AllocInv b p j G (tables.map tableAllocation ++ out)) ∧
    ∀ t, t ∈ tables ↔ ∃ n, n ≠ .root ∧ T n = some t

section pages

variable {b root : Addr} {p p' : Pmm} {T : TableNode → Option Addr} {out : List PmmAllocation}

/-- Source: none: infrastructure. Kind: L -/
theorem TablePages.setMem (h : TablePages b root p T out) (m : Mem) :
    TablePages b root { p with mem := m } T out := by
  obtain ⟨tables, ⟨j, G, hinv⟩, htables⟩ := h.pool
  exact ⟨⟨h.recorded.separate, h.recorded.below⟩, h.spares, tables, ⟨j, G, hinv.setMem m⟩, htables⟩

/-- Source: none: infrastructure. Kind: L -/
theorem recorded_of_extents (hrec : PmmRecorded p)
    (hextents : p'.regions.map PmmRegion.extent = p.regions.map PmmRegion.extent) :
    PmmRecorded p' := by
  constructor
  · rw [hextents]
    exact hrec.separate
  · rw [hextents]
    exact hrec.below

/-- Source: none: infrastructure. Kind: L -/
theorem spares_of_extents (hspares : p.Spares root)
    (hextents : p'.regions.map PmmRegion.extent = p.regions.map PmmRegion.extent) :
    p'.Spares root := by
  unfold Pmm.Spares
  rw [hextents]
  exact hspares

/-- A page inside a region.
Source: none: infrastructure
Kind: L -/
theorem AllocInv.table {j : ℕ} {G : List (List Addr)} (h : AllocInv b p j G out)
    (hrec : PmmRecorded p) {t : Addr} (ht : tableAllocation t ∈ out) :
    Sv39Page t ∧ ∀ x ∈ (pageExtent t).bytes, ∃ e ∈ p.regions.map PmmRegion.extent, x ∈ e.bytes := by
  have hinside := (h.separate hrec).2 _ ht
  rw [tableAllocation_extent] at hinside
  refine ⟨⟨?_, ?_⟩, hinside⟩
  · rw [pageAligned_iff]
    exact Nat.mod_eq_zero_of_dvd (h.aligned _ ht)
  · obtain ⟨e, he, hmem⟩ := hinside t.toNat (toNat_mem_pageExtent t)
    exact lt_of_lt_of_le (Extent.mem_bytes.mp hmem).2 (hrec.below e he)

/-- **What `sv39_map` relies on, of the manager itself**.
Source: `paging.c` `sv39_map_small_page`, `pmm.c` `pmm_alloc`
Kind: L -/
theorem TablePages.allocOk (h : TablePages b root p T out) {m : Mem}
    {E : PageIndex → Option (BitVec 64)} (hrep : EntriesRep m root T E) (ret : Addr) :
    PmmAllocOk (pmmAllocAt ret) root ⟨m, some p⟩ := by
  obtain ⟨tables, ⟨j, G, hinv⟩, htables⟩ := (h.setMem m).pool
  have hrec := (h.setMem m).recorded
  -- every table in use is the root or one of the pages
  have hused : ∀ {level t}, TableAt m root level t → t = root ∨ t ∈ tables := by
    intro level t ht
    obtain ⟨n, -, hn⟩ := EntriesRep.exists_of_tableAt (w := ⟨m, ()⟩) hrep ht
    by_cases hroot : n = .root
    · rw [hroot, hrep.root_eq, Option.some.injEq] at hn
      exact Or.inl hn.symm
    · exact Or.inr ((htables t).mpr ⟨n, hroot, hn⟩)
  rcases hcall : pmmAlloc { p with mem := m } sizeofSv39PageTable ret with _ | ⟨p', e, a⟩
  · have hres := pmmAllocAt_of_none hcall
    refine ⟨fun level t _ i _ => by rw [hres], fun hsucc => ?_⟩
    rw [hres, errIsFail_notImplemented] at hsucc
    cases hsucc
  · have hres := pmmAllocAt_of_some hcall
    rcases hinv.alloc hrec hcall with ⟨hfail, -, rfl⟩ | ⟨rfl, ⟨j', G', hinv'⟩, hextents, hmem⟩
    · refine ⟨fun level t _ i _ => by rw [hres], fun hsucc => ?_⟩
      rw [hres, hfail] at hsucc
      cases hsucc
    · -- the new page is none of the tables
      obtain ⟨hpage, hinside⟩ := hinv'.table (recorded_of_extents hrec hextents) List.mem_cons_self
      have hsep := (hinv'.separate (recorded_of_extents hrec hextents)).1
      have happart : ∀ {level t}, TableAt m root level t → Apart a 4096 t 4096 := by
        intro level t ht
        have haligned : PageAligned t := by
          obtain ⟨n, -, hn⟩ := EntriesRep.exists_of_tableAt (w := ⟨m, ()⟩) hrep ht
          exact hrep.aligned hn
        refine apart_pages hpage.aligned haligned ?_
        rintro rfl
        have hself := toNat_mem_pageExtent a
        rcases hused ht with rfl | hmem
        · obtain ⟨e, he, hin⟩ := hinside _ hself
          rw [hextents] at he
          exact Finset.disjoint_left.mp ((h.setMem m).spares e he) hself hin
        · rw [List.map_cons] at hsep
          refine Finset.disjoint_left.mp ((List.pairwise_cons.mp hsep).1 (pageExtent a) ?_) ?_ hself
          · rw [← tableAllocation_extent]
            exact List.mem_map_of_mem (List.mem_append_left _ (List.mem_map_of_mem hmem))
          · exact (tableAllocation_extent a).symm ▸ hself
      have hsize : (alignUp sizeofSv39PageTable basePageSize).toNat = 4096 := by decide
      rw [hsize] at hmem
      refine ⟨fun level t ht i hi => ?_, fun _ => ?_⟩
      · rw [hres]
        show p'.mem _ = m _
        rw [hmem]
        exact fill_apply_of_apart 0 (happart ht) hi
      · rw [hres]
        refine ⟨rfl, hpage, fun i hi => ?_, fun level t ht => happart ht⟩
        show p'.mem _ = 0
        rw [hmem]
        exact fill_apply_of_lt m a 0 hi (by omega)

/-- The bytes outside the root table and the regions.
Source: none: infrastructure
Kind: D -/
def Outside (root : Addr) (extents : List Extent) (x : Addr) : Prop :=
  x.toNat ∉ (pageExtent root).bytes ∧ ∀ e ∈ extents, x.toNat ∉ e.bytes

/-- What is out is inside the regions.
Source: none: infrastructure
Kind: L -/
theorem Outside.not_mem {j : ℕ} {G : List (List Addr)} {x : Addr}
    (hx : Outside root (p.regions.map PmmRegion.extent) x) (h : AllocInv b p j G out)
    (hrec : PmmRecorded p) {a : PmmAllocation} (ha : a ∈ out) : x.toNat ∉ a.extent.bytes := by
  intro hmem
  obtain ⟨e, he, hin⟩ := (h.separate hrec).2 a ha _ hmem
  exact hx.2 e he hin

/-- **`pmm_alloc_aligned` clears what it hands out and nothing else**.
Source: `pmm.c` `pmm_alloc_aligned`
Kind: L -/
theorem AllocInv.frame {j : ℕ} {G : List (List Addr)} (h : AllocInv b p j G out) (hrec : PmmRecorded p)
    {size alignment a : BitVec 64} {ret : Addr} {e : Errval}
    (hrun : pmmAllocAligned p size alignment ret = some (p', e, a)) {x : Addr}
    (hx : Outside root (p.regions.map PmmRegion.extent) x) : p'.mem x = p.mem x := by
  rcases h.alloc hrec hrun with ⟨-, -, rfl⟩ | ⟨-, ⟨j', G', hinv'⟩, hextents, hmem⟩
  · rfl
  · have hrec' := recorded_of_extents hrec hextents
    rw [hmem]
    rw [← hextents] at hx
    exact if_neg fun hlt => hx.not_mem hinv' hrec' List.mem_cons_self
      (hinv'.mem_extent hrec' List.mem_cons_self hlt)

/-- The tables below the root are in the regions.
Source: none: infrastructure
Kind: D -/
def TablesInside (extents : List Extent) (T : TableNode → Option Addr) : Prop :=
  ∀ n t, n ≠ .root → T n = some t → ∀ x ∈ (pageExtent t).bytes, ∃ e ∈ extents, x ∈ e.bytes

/-- Source: none: infrastructure. Kind: L -/
theorem TablePages.inside (h : TablePages b root p T out) :
    TablesInside (p.regions.map PmmRegion.extent) T := by
  intro n t hroot hn
  obtain ⟨tables, ⟨j, G, hinv⟩, htables⟩ := h.pool
  have hmem : tableAllocation t ∈ tables.map tableAllocation ++ out :=
    List.mem_append_left _ (List.mem_map_of_mem ((htables t).mpr ⟨n, hroot, hn⟩))
  exact (hinv.table h.recorded hmem).2

/-- **The manager supplies the tables**, and changes nothing outside its regions.
Source: `paging.c` `sv39_map_small_page`, `pmm.c` `pmm_alloc`
Kind: L -/
theorem tableSupply_pmm (b root ret : Addr) (out : List PmmAllocation) (extents : List Extent) :
    TableSupply (pmmAllocAt ret) root (Outside root extents) fun s T => TablesInside extents T ∧
      ∀ p, s = some p → TablePages b root p T out ∧ p.regions.map PmmRegion.extent = extents := by
  constructor
  · intro m s T E hI hrep
    cases s with
    | none =>
        refine ⟨fun level t _ i _ => rfl, fun hsucc => ?_⟩
        exact Bool.noConfusion (errIsFail_notImplemented.symm.trans hsucc)
    | some p => exact (hI.2 p rfl).1.allocOk hrep ret
  · intro m s T x hI hx
    cases s with
    | none => rfl
    | some p =>
        obtain ⟨hpages, rfl⟩ := hI.2 p rfl
        have hpages' := hpages.setMem m
        obtain ⟨tables, ⟨j, G, hinv⟩, -⟩ := hpages'.pool
        rcases hcall : pmmAlloc { p with mem := m } sizeofSv39PageTable ret with _ | ⟨q, e, a⟩
        · rw [pmmAllocAt_of_none hcall]
        · rw [pmmAllocAt_of_some hcall]
          exact hinv.frame hpages'.recorded hcall hx
  · intro m s T E n t x hI hrep hn hx
    by_cases hroot : n = .root
    · rw [hroot, hrep.root_eq, Option.some.injEq] at hn
      rw [← hn]
      exact hx.1
    · intro hmem
      obtain ⟨e, he, hin⟩ := hI.1 n t hroot hn _ hmem
      exact hx.2 e he hin
  · intro m s T hI hfail
    refine ⟨hI.1, fun p' hp' => ?_⟩
    cases s with
    | none => cases hp'
    | some p =>
        obtain ⟨hpages, hextents⟩ := hI.2 p rfl
        obtain ⟨tables, ⟨j, G, hinv⟩, htables⟩ := (hpages.setMem m).pool
        rcases hcall : pmmAlloc { p with mem := m } sizeofSv39PageTable ret with _ | ⟨q, e, a⟩
        · rw [pmmAllocAt_of_none hcall] at hp'
          cases hp'
        · rw [pmmAllocAt_of_some hcall] at hp' hfail
          cases hp'
          rcases hinv.alloc (hpages.setMem m).recorded hcall with ⟨-, -, rfl⟩ | ⟨rfl, -⟩
          · exact ⟨hpages.setMem m, hextents⟩
          · rw [errIsFail_ok] at hfail
            cases hfail
  · intro m s T n hI hroot hn hsucc
    cases s with
    | none => exact Bool.noConfusion (errIsFail_notImplemented.symm.trans hsucc)
    | some p =>
        obtain ⟨hpages₀, rfl⟩ := hI.2 p rfl
        have hpages := hpages₀.setMem m
        obtain ⟨tables, ⟨j, G, hinv⟩, htables⟩ := hpages.pool
        rcases hcall : pmmAlloc { p with mem := m } sizeofSv39PageTable ret with _ | ⟨q, e, a⟩
        · rw [pmmAllocAt_of_none hcall, errIsFail_notImplemented] at hsucc
          cases hsucc
        · rw [pmmAllocAt_of_some hcall] at hsucc ⊢
          rcases hinv.alloc hpages.recorded hcall with ⟨hfail, -⟩ | ⟨-, ⟨j', G', hinv'⟩, hextents, -⟩
          · rw [hfail] at hsucc
            cases hsucc
          · have hpages' : TablePages b root q (Function.update T n (some a)) out := by
              refine ⟨recorded_of_extents hpages.recorded hextents,
                spares_of_extents hpages.spares hextents, a :: tables, ⟨j', G', hinv'⟩, fun t => ?_⟩
              rw [List.mem_cons, htables]
              constructor
              · rintro (rfl | ⟨n', hn', ht⟩)
                · exact ⟨n, hroot, Function.update_self ..⟩
                · refine ⟨n', hn', ?_⟩
                  rw [Function.update_of_ne, ht]
                  rintro rfl
                  rw [hn] at ht
                  cases ht
              · rintro ⟨n', hn', ht⟩
                by_cases heq : n' = n
                · rw [heq, Function.update_self, Option.some.injEq] at ht
                  exact Or.inl ht.symm
                · rw [Function.update_of_ne heq] at ht
                  exact Or.inr ⟨n', hn', ht⟩
            refine ⟨hextents ▸ hpages'.inside, fun p' hp' => ?_⟩
            obtain rfl : q = p' := Option.some.inj hp'
            exact ⟨hpages', hextents⟩

end pages

end Octiron.Kernel
