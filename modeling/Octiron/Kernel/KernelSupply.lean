import Octiron.Kernel.KernelTables
import Octiron.Kernel.PmmFirstFit

/-!
# Enough memory for page tables

`pmm_alloc` aligns to pages, and the blocks of the manager are of whole pages. So it never cuts a block in
the middle, needs no descriptor for what it leaves, and comes back from every call.

* `AllocInv.pmmAlloc_page` — one page can be had exactly as long as something is free.
  `AllocInv.pmmAlloc_single` — with one region, so can any number of pages that are free.
* `PmmUnsplit` — no descriptor has been taken but for the regions.
* `tablesMissing` — the tables that `sv39_map` has to set up for a page.
* `PagePool` — what is free and the tables in use are so many bytes together.
* **Main result** (`PagePool.map`): `sv39_map` comes back, and maps a free page exactly if the missing
  tables are no more than the free pages, which it has then taken.
-/

namespace Octiron.Kernel

open Octiron.Found
open Octiron.Found.Mem
open Octiron.Kzadhbat

/-! ## One page -/

section page

variable {b : Addr} {p p' : Pmm} {j : ℕ} {G : List (List Addr)} {out : List PmmAllocation}

/-- A free block consists of whole pages.
Source: none: infrastructure
Kind: L -/
theorem AllocInv.block (h : AllocInv b p j G out) {d : Addr} (hd : d ∈ G.flatten) :
    4096 ∣ (p.extent d).base ∧ 4096 ≤ (p.extent d).size := by
  obtain ⟨ds, hds, hmem⟩ := List.mem_flatten.mp hd
  obtain ⟨c, -, hc⟩ := forall₂_exists_left h.lists hds
  have hext : p.extent d ∈ ds.map p.extent := List.mem_map_of_mem hmem
  obtain ⟨hbase, hsize⟩ := hc.pages _ hext
  exact ⟨hbase, Nat.le_of_dvd (hc.nonempty _ hext) hsize⟩

/-- The base of a free block is the next page address.
Source: `pmm.c` `pmm_alloc_aligned`
Kind: L -/
theorem AllocInv.alignUp_base (h : AllocInv b p j G out) (hrec : PmmRecorded p) {d : Addr}
    (hd : d ∈ G.flatten) : alignUp (p.blocks d).base basePageSize = (p.blocks d).base := by
  obtain ⟨⟨k, hk⟩, -⟩ := h.block hd
  have hupper : (p.blocks d).base.toNat + (p.blocks d).size.toNat ≤ 2 ^ 56 :=
    h.upper_le hrec (List.mem_map_of_mem hd)
  have hbase : (p.blocks d).base.toNat = 4096 * k := hk
  apply BitVec.eq_of_toNat_eq
  rw [alignUp_page_toNat (by omega), hbase]
  omega

/-- The alignment of `pmm_alloc` is a power of two.
Source: `pmm.c` `pmm_alloc`
Kind: L -/
theorem basePageSize_alignment :
    ¬ (basePageSize < basePageSize ∨ basePageSize &&& (basePageSize - 1) ≠ 0) := by decide

/-- While 48 descriptors are in use, the allocator for descriptors is not refilled.
Source: `pmm.c` `pmm_alloc_aligned`
Kind: L -/
theorem AllocInv.not_refill (h : AllocInv b p j G out) (hj : j ≤ 48) :
    ¬ slabFreecount p.blockAllocator < 16 := by
  rw [BitVec.lt_def, h.rep.slabFreecount_toNat]
  show ¬ 64 - j < 16
  omega

/-- **One `pmm_alloc`**, while 16 descriptors are left: it comes back, takes no descriptor, and when it
succeeds it has charged the pages.
Source: `pmm.c` `pmm_alloc`
Kind: L -/
theorem AllocInv.pmmAlloc_returns (h : AllocInv b p j G out) (hrec : PmmRecorded p)
    (hpolicy : p.policy = .firstFit) (hj : j ≤ 48) (size : BitVec 64) {ret : Addr} (hret : ret ≠ 0) :
    ∃ p' e a, pmmAlloc p size ret = some (p', e, a) ∧ (∃ G', DescRep b p' j G') ∧
      p'.policy = .firstFit ∧ p'.regions.length = p.regions.length ∧
      (e = GrouperError.ok.errval → alignUp size basePageSize ≤ p.free ∧
        p'.free = p.free - alignUp size basePageSize) := by
  unfold pmmAlloc pmmAllocAligned
  dsimp only
  rw [if_neg hret, if_neg basePageSize_alignment]
  by_cases hfree : p.free < alignUp size basePageSize
  · rw [if_pos hfree]
    exact ⟨_, _, _, rfl, ⟨G, h.rep⟩, hpolicy, rfl, fun he => absurd he (by decide)⟩
  rw [if_neg hfree, if_neg (h.not_refill hj), if_neg (not_not.mpr hpolicy)]
  rcases pmmFindBlock_spec (alignUp size basePageSize) basePageSize h.rep.chains 0 with hnone |
    ⟨i, prev, block, hfind, ⟨gpre, dpre, dpost, gpost, rfl, rfl, rfl⟩, -⟩
  · rw [hnone]
    exact ⟨_, _, _, rfl, ⟨G, h.rep⟩, hpolicy, rfl, fun he => absurd he (by decide)⟩
  · obtain ⟨q, j', mid, htake, hrep, hpieces, -, hcountj, hframe⟩ :=
      pmmTakeBlock_spec h.rep (by omega) (alignUp size basePageSize) basePageSize
    rw [Nat.zero_add] at hfind
    rw [hfind]
    dsimp only
    rw [htake]
    -- nothing is left below the pages, so that one descriptor is enough
    have hmid : mid.length ≤ 1 := by
      have hlen := congrArg List.length hpieces
      rw [List.length_map, pmmPieces, h.alignUp_base hrec (by simp), if_neg (not_not.mpr rfl)] at hlen
      rw [hlen, List.nil_append]
      split_ifs
      · exact le_rfl
      · exact Nat.zero_le 1
    obtain rfl : j' = j := by omega
    have hlength : q.regions.length = p.regions.length := by
      have := congrArg List.length hframe.regions
      rwa [List.length_map, List.length_map] at this
    refine ⟨_, _, _, rfl, ⟨_, (hrep.pmmCharge _ _).congr rfl rfl fun _ _ => rfl⟩,
      hframe.policy.trans hpolicy, ?_, fun _ => ⟨BitVec.not_lt.mp hfree, ?_⟩⟩
    · show (q.regions.modify _ _).length = _
      rw [List.length_modify, hlength]
    · show q.free - _ = _
      rw [hframe.free]

/-- What is free is the sum of the blocks.
Source: none: infrastructure
Kind: L -/
theorem AllocInv.free_eq (h : AllocInv b p j G out) :
    p.free.toNat = ((G.flatten.map p.extent).map Extent.size).sum := by
  rw [h.free, sum_free_eq h.lists]

/-- **A block that is large enough** is enough.
Source: `pmm.c` `pmm_alloc`
Kind: P -/
theorem AllocInv.pmmAlloc_fits (h : AllocInv b p j G out) (hrec : PmmRecorded p)
    (hpolicy : p.policy = .firstFit) (hj : j ≤ 48) {ret : Addr} (hret : ret ≠ 0) {size n : BitVec 64}
    (hround : alignUp size basePageSize = n) {d : Addr} (hd : d ∈ G.flatten)
    (hfits : n.toNat ≤ (p.extent d).size) :
    ∃ p' a, pmmAlloc p size ret = some (p', GrouperError.ok.errval, a) := by
  have hupper : ∀ d ∈ G.flatten, (p.blocks d).base.toNat + (p.blocks d).size.toNat ≤ 2 ^ 56 :=
    fun d hd => h.upper_le hrec (List.mem_map_of_mem hd)
  have hn : n.toNat ≤ 2 ^ 56 := by
    have := hupper d hd
    have hsize : n.toNat ≤ (p.blocks d).size.toNat := hfits
    omega
  have hok : ∀ d ∈ G.flatten, pmmSizeOk p n basePageSize d = true ↔ n.toNat ≤ (p.extent d).size := by
    intro d hd
    have := hupper d hd
    rw [pmmSizeOk, h.alignUp_base hrec hd, decide_eq_true_iff, BitVec.le_def, BitVec.toNat_add,
      BitVec.toNat_add]
    show _ ↔ n.toNat ≤ (p.blocks d).size.toNat
    omega
  have hfree : n.toNat ≤ p.free.toNat := by
    rw [h.free_eq]
    exact hfits.trans (List.single_le_sum (fun _ _ => Nat.zero_le _) _
      (List.mem_map_of_mem (List.mem_map_of_mem hd)))
  have hskip : List.Forall₂ (fun r ds => r.free < n →
      ∀ d ∈ ds, pmmSizeOk p n basePageSize d = false) p.regions G := by
    refine forall₂_imp_of_mem (List.forall₂_map_left_iff.mp h.lists) ?_
    intro r ds hds hlist hless d hd
    -- no block of a region is larger than what is free in it
    have hle : (p.extent d).size ≤ ((ds.map p.extent).map Extent.size).sum :=
      List.single_le_sum (fun _ _ => Nat.zero_le _) _
        (List.mem_map_of_mem (List.mem_map_of_mem hd))
    have hcounts : r.free.toNat = _ := hlist.free
    rw [BitVec.lt_def, hcounts] at hless
    refine Bool.eq_false_iff.mpr fun htrue => ?_
    have := (hok d (List.mem_flatten.mpr ⟨ds, hds, hd⟩)).mp htrue
    omega
  unfold pmmAlloc pmmAllocAligned
  dsimp only
  have hnot : ¬ p.free < n := by
    rw [BitVec.lt_def, Nat.not_lt]
    exact hfree
  rw [if_neg hret, if_neg basePageSize_alignment, hround, if_neg hnot, if_neg (h.not_refill hj),
    if_neg (not_not.mpr hpolicy)]
  rcases pmmFindBlock_first h.rep.chains hskip 0 with ⟨-, hall⟩ |
    ⟨gpre, dpre, block, dpost, gpost, rfl, hfind, -, -⟩
  · have hno := hall d hd
    rw [(hok d hd).mpr hfits] at hno
    cases hno
  · have hmem : block ∈ (gpre ++ (dpre ++ block :: dpost) :: gpost).flatten := by simp
    obtain ⟨q, htake⟩ := (h.rep.serves (by omega)).takeBlock gpre.length (dpre.getLastD 0) hmem
      n basePageSize
    rw [Nat.zero_add] at hfind
    rw [hfind]
    dsimp only
    rw [htake]
    exact ⟨_, _, rfl⟩

/-- **One page** can be had as long as something is free.
Source: `pmm.c` `pmm_alloc`
Kind: P -/
theorem AllocInv.pmmAlloc_page (h : AllocInv b p j G out) (hrec : PmmRecorded p)
    (hpolicy : p.policy = .firstFit) (hj : j ≤ 48) {ret : Addr} (hret : ret ≠ 0) :
    (p.free = 0 ∧ pmmAlloc p sizeofSv39PageTable ret = some (p, GrouperError.pmmOutOfMemory.errval, 0)) ∨
    (4096 ≤ p.free.toNat ∧ ∃ p' a, pmmAlloc p sizeofSv39PageTable ret =
      some (p', GrouperError.ok.errval, a)) := by
  have hround : alignUp sizeofSv39PageTable basePageSize = 4096 := by decide
  have hsum := h.free_eq
  rcases hG : G.flatten with _ | ⟨d, ds⟩
  · -- nothing is free
    have hzero : p.free = 0 := by
      apply BitVec.eq_of_toNat_eq
      rw [hsum, hG]
      rfl
    refine Or.inl ⟨hzero, ?_⟩
    unfold pmmAlloc pmmAllocAligned
    dsimp only
    rw [if_neg hret, if_neg basePageSize_alignment, hround, hzero, if_pos (by decide)]
  · have hd : d ∈ G.flatten := by
      rw [hG]
      exact List.mem_cons_self
    have hblock := (h.block hd).2
    refine Or.inr ⟨?_, h.pmmAlloc_fits hrec hpolicy hj hret hround hd hblock⟩
    rw [hsum]
    exact hblock.trans (List.single_le_sum (fun _ _ => Nat.zero_le _) _
      (List.mem_map_of_mem (List.mem_map_of_mem hd)))

/-- **With one region**, whatever is free can be had in one piece.
Source: `pmm.c` `pmm_alloc`
Kind: P -/
theorem AllocInv.pmmAlloc_single (h : AllocInv b p j G out) (hrec : PmmRecorded p)
    (hpolicy : p.policy = .firstFit) (hj : j ≤ 1) {ret : Addr} (hret : ret ≠ 0) {size n : BitVec 64}
    (hround : alignUp size basePageSize = n) (hn : 0 < n.toNat) :
    (p.free.toNat < n.toNat ∧
      pmmAlloc p size ret = some (p, GrouperError.pmmOutOfMemory.errval, 0)) ∨
    (n.toNat ≤ p.free.toNat ∧ ∃ p' a, pmmAlloc p size ret = some (p', GrouperError.ok.errval, a)) := by
  by_cases hless : p.free.toNat < n.toNat
  · refine Or.inl ⟨hless, ?_⟩
    unfold pmmAlloc pmmAllocAligned
    dsimp only
    rw [if_neg hret, if_neg basePageSize_alignment, hround, if_pos (BitVec.lt_def.mpr hless)]
  · -- the blocks have one descriptor
    have hnode : ∀ d ∈ G.flatten, d = pmmNode b 0 := by
      intro d hd
      obtain ⟨i, hi, rfl⟩ := h.rep.nodes d hd
      rw [Nat.lt_one_iff.mp (hi.trans_le hj)]
    have hle := Nat.not_lt.mp hless
    have hsum := h.free_eq
    rcases hG : G.flatten with _ | ⟨d, ds⟩
    · rw [hG] at hsum
      change p.free.toNat = 0 at hsum
      omega
    · have hnil : ds = [] := by
        have hnodup := h.rep.nodup
        rw [hG, List.nodup_cons] at hnodup
        rw [hG, List.forall_mem_cons] at hnode
        refine List.eq_nil_iff_forall_not_mem.mpr fun d' hd' => hnodup.1 ?_
        rw [hnode.1, ← hnode.2 d' hd']
        exact hd'
      rw [hG, hnil] at hsum
      have hd : d ∈ G.flatten := by
        rw [hG]
        exact List.mem_cons_self
      refine Or.inr ⟨hle, h.pmmAlloc_fits hrec hpolicy (by omega) hret hround hd ?_⟩
      rwa [hsum, List.map_singleton, List.map_singleton, List.sum_singleton] at hle

end page

/-! ## The tables of a page -/

/-- No descriptor is taken, but one for each region.
Source: `pmm.c` `struct pmm`
Kind: D -/
structure PmmUnsplit (p : Pmm) : Prop where
  policy : p.policy = .firstFit
  count : (slabFreecount p.blockAllocator).toNat + p.regions.length = 64
  regions : p.regions.length ≤ pmmRegionCount

/-- **The tables that are missing** on the way to a page.
Source: `paging.c` `sv39_map_small_page`
Kind: D -/
def tablesMissing (m : Mem) (root va : Addr) : ℕ :=
  let l2Entry := tableEntry m root (vpn va 2)
  if sv39PteValid l2Entry then
    if sv39PteValid (tableEntry m (sv39PtePpnToPaddr l2Entry) (vpn va 1)) then 0 else 1
  else 2

section missing

variable {m : Mem} {root : Addr} {T : TableNode → Option Addr} {E : PageIndex → Option (BitVec 64)}

/-- Where there is no level-1 table there is no level-0 table.
Source: none: infrastructure
Kind: L -/
theorem EntriesRep.l0_none (h : EntriesRep m root T E) {i j : BitVec 64} (hl1 : T (.l1 i) = none) :
    T (.l0 i j) = none := by
  rw [Option.eq_none_iff_forall_ne_some]
  intro q hq
  obtain ⟨-, t, ht, -⟩ := h.link_some rfl hq
  rw [hl1] at ht
  cases ht

/-- The missing tables are those that the representation does not have.
Source: none: infrastructure
Kind: L -/
theorem EntriesRep.tablesMissing_eq (h : EntriesRep m root T E) (va : Addr) :
    tablesMissing m root va = ((tableNodes va).filter fun n => T n = none).card := by
  have h2 := h.valid_link (n := .l1 (vpn va 2)) rfl (vpn_lt va 2 le_rfl) h.root_eq
  have hne : TableNode.l1 (vpn va 2) ≠ .l0 (vpn va 2) (vpn va 1) := TableNode.noConfusion
  unfold tablesMissing tableNodes
  dsimp only
  rcases ht : T (.l1 (vpn va 2)) with _ | t
  · rw [ht] at h2
    rw [h2, Finset.filter_insert, if_pos ht, Finset.filter_singleton, if_pos (h.l0_none ht),
      Finset.card_pair hne]
    rfl
  · rw [ht, Option.isSome_some] at h2
    have h1 := h.valid_link (n := .l0 (vpn va 2) (vpn va 1)) rfl (vpn_lt va 1 (by norm_num)) ht
    have hlink : tableEntry m root (vpn va 2) = sv39TableEntry t := h.entry_link rfl h.root_eq ht
    have hsome : T (.l1 (vpn va 2)) ≠ none := by
      rw [ht]
      exact Option.some_ne_none t
    rw [h2, hlink, sv39PtePpnToPaddr_tableEntry (h.page (by simp) ht), h1, if_pos rfl,
      Finset.filter_insert, if_neg hsome, Finset.filter_singleton]
    rcases hl0 : T (.l0 (vpn va 2) (vpn va 1)) with _ | t'
    · rw [if_pos rfl, Finset.card_singleton]
      rfl
    · rw [if_neg (Option.some_ne_none t'), Finset.card_empty]
      rfl

end missing

/-! ## The pool of pages -/

/-- There are finitely many places for tables.
Source: none: infrastructure
Kind: L -/
instance finite_tableNode : Finite TableNode := by
  have hfin : Finite (BitVec 64) := Finite.of_injective BitVec.toFin fun _ _ => BitVec.eq_of_toFin_eq
  refine Finite.of_injective (fun n : TableNode => n.parent.map fun x => (x.2, x.1.parent.map Prod.snd))
    fun n n' h => ?_
  cases n <;> cases n' <;> simp_all [TableNode.parent]

/-- The tables in use below the root.
Source: none: infrastructure
Kind: L -/
theorem exists_tablesInUse (T : TableNode → Option Addr) :
    ∃ S : Finset TableNode, ∀ n, n ∈ S ↔ n ≠ .root ∧ T n ≠ none :=
  ⟨(Set.toFinite {n | n ≠ .root ∧ T n ≠ none}).toFinset, fun _ => Set.Finite.mem_toFinset _⟩

/-- **What is free and the tables in use** are `bytes` together, and no descriptor is taken.
Source: none: infrastructure
Kind: D -/
structure PagePool (b root : Addr) (out : List PmmAllocation) (bytes : ℕ) (p : Pmm)
    (T : TableNode → Option Addr) : Prop where
  pages : TablePages b root p T out
  unsplit : PmmUnsplit p
  free : ∃ S : Finset TableNode, (∀ n, n ∈ S ↔ n ≠ .root ∧ T n ≠ none) ∧
    p.free.toNat + 4096 * S.card = bytes

section pool

variable {b root ret : Addr} {p : Pmm} {T : TableNode → Option Addr} {out : List PmmAllocation}
  {bytes : ℕ} {m : Mem} {E : PageIndex → Option (BitVec 64)}

/-- Source: none: infrastructure. Kind: L -/
theorem PmmUnsplit.descriptors (h : PmmUnsplit p) {j : ℕ} {G : List (List Addr)}
    (hrep : DescRep b p j G) : j = p.regions.length ∧ j ≤ 48 := by
  have hcount := h.count
  have hregions := h.regions
  have hle := hrep.le
  rw [hrep.slabFreecount_toNat] at hcount
  unfold pmmRegionCount at hregions
  omega

/-- Source: none: infrastructure. Kind: L -/
theorem PmmUnsplit.setMem (h : PmmUnsplit p) (m : Mem) : PmmUnsplit { p with mem := m } :=
  ⟨h.policy, h.count, h.regions⟩

/-- Source: none: infrastructure. Kind: L -/
theorem PagePool.setMem (h : PagePool b root out bytes p T) (m : Mem) :
    PagePool b root out bytes { p with mem := m } T :=
  ⟨h.pages.setMem m, h.unsplit.setMem m, h.free⟩

/-- **A call that succeeds** takes no descriptor, and has charged the pages.
Source: `pmm.c` `pmm_alloc`
Kind: L -/
theorem PmmUnsplit.alloc (h : PmmUnsplit p) {j : ℕ} {G : List (List Addr)} (hinv : AllocInv b p j G out)
    (hrec : PmmRecorded p) (hret : ret ≠ 0) {size a : BitVec 64} {p' : Pmm}
    (hok : pmmAlloc p size ret = some (p', GrouperError.ok.errval, a)) :
    PmmUnsplit p' ∧ p'.regions.length = p.regions.length ∧
      p'.free.toNat + (alignUp size basePageSize).toNat = p.free.toNat := by
  obtain ⟨hj, hle⟩ := h.descriptors hinv.rep
  obtain ⟨q, e, a', hrun, ⟨G', hrep'⟩, hpolicy, hlength, hcharge⟩ :=
    hinv.pmmAlloc_returns hrec h.policy hle size hret
  rw [hok] at hrun
  cases hrun
  obtain ⟨hpage, hcharged⟩ := hcharge rfl
  refine ⟨⟨hpolicy, ?_, ?_⟩, hlength, ?_⟩
  · rw [hrep'.slabFreecount_toNat, hlength]
    omega
  · rw [hlength]
    exact h.regions
  · have hval := BitVec.toNat_sub_of_le hpage
    have hle' := BitVec.le_def.mp hpage
    rw [hcharged, hval]
    omega

/-- Source: none: infrastructure. Kind: L -/
theorem errIsFail_outOfMemory : errIsFail GrouperError.pmmOutOfMemory.errval = true := by decide

/-- **A call for a table** comes back.
Source: `pmm.c` `pmm_alloc`
Kind: L -/
theorem PagePool.alloc (h : PagePool b root out bytes p T) (hret : ret ≠ 0) (m : Mem) :
    (p.free = 0 ∧ pmmAllocAt ret (some p) m sizeofSv39PageTable =
      ⟨GrouperError.pmmOutOfMemory.errval, 0, some { p with mem := m }, m⟩) ∨
    (4096 ≤ p.free.toNat ∧ ∃ p' a, pmmAllocAt ret (some p) m sizeofSv39PageTable =
      ⟨GrouperError.ok.errval, a, some p', p'.mem⟩ ∧ p'.free.toNat + 4096 = p.free.toNat ∧
      PmmUnsplit p') := by
  have hpages := h.pages.setMem m
  obtain ⟨tables, ⟨j, G, hinv⟩, -⟩ := hpages.pool
  obtain ⟨hj, hle⟩ := PmmUnsplit.descriptors (p := { p with mem := m })
    ⟨h.unsplit.policy, h.unsplit.count, h.unsplit.regions⟩ hinv.rep
  rcases hinv.pmmAlloc_page hpages.recorded h.unsplit.policy hle hret with ⟨hzero, hfail⟩ |
    ⟨hfree, q, a', hok⟩
  · exact Or.inl ⟨hzero, pmmAllocAt_of_some hfail⟩
  · obtain ⟨hunsplit, -, hcharged⟩ := (h.unsplit.setMem m).alloc hinv hpages.recorded hret hok
    have hround : (alignUp sizeofSv39PageTable basePageSize).toNat = 4096 := by decide
    rw [hround] at hcharged
    exact Or.inr ⟨hfree, _, _, pmmAllocAt_of_some hok, hcharged, hunsplit⟩

/-- **The manager supplies the tables, and comes back**.
Source: `paging.c` `sv39_map_small_page`, `pmm.c` `pmm_alloc`
Kind: L -/
theorem tableSupply_pool (b root : Addr) (out : List PmmAllocation) (bytes : ℕ) (extents : List Extent)
    (hret : ret ≠ 0) :
    TableSupply (pmmAllocAt ret) root (Outside root extents) fun s T => ∃ p, s = some p ∧
      PagePool b root out bytes p T ∧ p.regions.map PmmRegion.extent = extents := by
  have hsupply := tableSupply_pmm b root ret out extents
  -- what the manager keeps without the count
  have hpmm : ∀ {p T}, PagePool b root out bytes p T → p.regions.map PmmRegion.extent = extents →
      TablesInside extents T ∧ ∀ q, some p = some q →
        TablePages b root q T out ∧ q.regions.map PmmRegion.extent = extents := by
    rintro p T h rfl
    refine ⟨h.pages.inside, fun q hq => ?_⟩
    obtain rfl : p = q := Option.some.inj hq
    exact ⟨h.pages, rfl⟩
  constructor
  · rintro m s T E ⟨p, rfl, h, hextents⟩ hrep
    exact hsupply.allocOk (hpmm h hextents) hrep
  · rintro m s T x ⟨p, rfl, h, hextents⟩ hx
    exact hsupply.frame (hpmm h hextents) hx
  · rintro m s T E n t x ⟨p, rfl, h, hextents⟩ hrep hn hx
    exact hsupply.apart (hpmm h hextents) hrep hn hx
  · rintro m s T ⟨p, rfl, h, hextents⟩ hfail
    rcases h.alloc hret m with ⟨-, hres⟩ | ⟨-, p', a, hres, -⟩
    · rw [hres]
      exact ⟨_, rfl, h.setMem m, hextents⟩
    · rw [hres, errIsFail_ok] at hfail
      cases hfail
  · rintro m s T n ⟨p, rfl, h, hextents⟩ hroot hn hsucc
    have htakes := hsupply.takes (m := m) (hpmm h hextents) hroot hn hsucc
    rcases h.alloc hret m with ⟨-, hres⟩ | ⟨-, p', a, hres, hfree, hunsplit⟩
    · rw [hres, errIsFail_outOfMemory] at hsucc
      cases hsucc
    · rw [hres] at htakes ⊢
      obtain ⟨hpages', hextents'⟩ := htakes.2 p' rfl
      obtain ⟨S, hS, hbytes⟩ := h.free
      have hnew : n ∉ S := fun hmem => ((hS n).mp hmem).2 hn
      refine ⟨p', rfl, ⟨hpages', hunsplit, insert n S, fun n' => ?_, ?_⟩, hextents'⟩
      · rw [Finset.mem_insert, hS]
        by_cases heq : n' = n
        · rw [heq, Function.update_self]
          exact iff_of_true (Or.inl rfl) ⟨hroot, Option.some_ne_none a⟩
        · rw [Function.update_of_ne heq]
          exact or_iff_right heq
      · rw [Finset.card_insert_of_notMem hnew, ← hbytes, ← hfree, Nat.mul_succ, Nat.add_right_comm,
          Nat.add_assoc]

/-- Source: none: infrastructure. Kind: L -/
theorem PagePool.allocSucceeds_iff (h : PagePool b root out bytes p T) (hret : ret ≠ 0) (m : Mem) :
    allocSucceeds (pmmAllocAt ret) ⟨m, some p⟩ = true ↔ 4096 ≤ p.free.toNat := by
  rcases h.alloc hret m with ⟨hzero, hres⟩ | ⟨hfree, p', a, hres, -⟩
  · have hval : p.free.toNat = 0 := by
      rw [hzero]
      rfl
    rw [allocSucceeds, hres, errIsFail_outOfMemory, hval]
    exact iff_of_false Bool.noConfusion (Nat.not_le.mpr (Nat.zero_lt_succ 4095))
  · rw [allocSucceeds, hres, errIsFail_ok]
    exact iff_of_true rfl hfree

/-- **The tables can be had** exactly if the missing ones are no more than the free pages.
Source: `paging.c` `sv39_map_small_page`, `pmm.c` `pmm_alloc`
Kind: L -/
theorem PagePool.tablesAvailable_iff (h : PagePool b root out bytes p T)
    (hrep : EntriesRep m root T E) (hret : ret ≠ 0) (va : Addr) :
    tablesAvailable (pmmAllocAt ret) ⟨m, some p⟩ root va = true ↔
      4096 * tablesMissing m root va ≤ p.free.toNat := by
  have hsucceeds := h.allocSucceeds_iff hret m
  unfold tablesAvailable tablesMissing
  dsimp only
  by_cases h2 : sv39PteValid (tableEntry m root (vpn va 2)) = true
  · rw [if_pos h2, if_pos h2]
    by_cases h1 : sv39PteValid (tableEntry m (sv39PtePpnToPaddr (tableEntry m root (vpn va 2)))
        (vpn va 1)) = true
    · rw [if_pos h1, h1, Bool.true_or]
      exact iff_of_true rfl (Nat.zero_le _)
    · rw [if_neg h1, Bool.eq_false_iff.mpr h1, Bool.false_or, Nat.mul_one]
      exact hsucceeds
  · rw [if_neg h2, if_neg h2, Bool.and_eq_true, hsucceeds]
    have hnone : T (.l1 (vpn va 2)) = none := by
      have hvalid := hrep.valid_link (n := .l1 (vpn va 2)) rfl (vpn_lt va 2 le_rfl) hrep.root_eq
      rw [Bool.eq_false_iff.mpr h2] at hvalid
      exact Option.not_isSome_iff_eq_none.mp (Bool.eq_false_iff.mp hvalid.symm)
    rcases h.alloc hret m with ⟨hzero, hres⟩ | ⟨hfree, p', a, hres, hcharge, -⟩
    · have hval : p.free.toNat = 0 := by
        rw [hzero]
        rfl
      rw [hval]
      omega
    · -- the level-1 table has taken a page
      have hsucc : errIsFail (pmmAllocAt ret (some p) m sizeofSv39PageTable).err = false := by
        rw [hres]
        exact errIsFail_ok
      obtain ⟨q, hq, hpool, -⟩ := (tableSupply_pool b root out bytes _ hret).takes (m := m)
        ⟨p, rfl, h, rfl⟩ (n := .l1 (vpn va 2)) (by simp) hnone hsucc
      rw [hres] at hq
      obtain rfl : p' = q := Option.some.inj hq
      have hafter : (afterL1 (pmmAllocAt ret) ⟨m, some p⟩ root va).pmm = some p' := by
        have hinv : sv39PteValid (load64 m (slot root (vpn va 2))) = false :=
          Bool.eq_false_iff.mpr h2
        unfold afterL1 sv39SetupTable
        dsimp only
        rw [hinv, if_neg Bool.false_ne_true, hres]
        dsimp only
        rw [errIsFail_ok, if_neg Bool.false_ne_true]
      have hworld : afterL1 (pmmAllocAt ret) ⟨m, some p⟩ root va =
          ⟨(afterL1 (pmmAllocAt ret) ⟨m, some p⟩ root va).mem, some p'⟩ := by
        rw [← hafter]
      rw [hworld, hpool.allocSucceeds_iff hret]
      omega

/-- The tables of a mapped page are there.
Source: none: infrastructure
Kind: L -/
theorem MapRep.tablesMissing_eq_zero {M : PageMap} (h : MapRep m root M) {va : Addr}
    (hva : VirtualPage va) (hmapped : M va ≠ none) : tablesMissing m root va = 0 := by
  obtain ⟨-, T', A, hrep, hA⟩ := h
  obtain ⟨x, hx⟩ := Option.ne_none_iff_exists'.mp hmapped
  rw [← hA va hva, pageIndex] at hx
  obtain ⟨-, t₀, ht₀, -⟩ := hrep.leaf_some hx
  obtain ⟨-, t, ht, -⟩ := hrep.link_some rfl ht₀
  rw [hrep.entries.tablesMissing_eq, Finset.card_eq_zero, Finset.filter_eq_empty_iff]
  intro n hn
  rcases Finset.mem_insert.mp hn with rfl | hn
  · rw [ht]
    exact Option.some_ne_none t
  · rw [Finset.mem_singleton.mp hn, ht₀]
    exact Option.some_ne_none t₀

/-- **One `sv39_map`**: it comes back, succeeds exactly if the page is free and its tables can be had,
and has taken the pages of its tables.
Source: `paging.c` `sv39_map`, `pmm.c` `pmm_alloc`
Kind: P
Fidelity: exact -/
theorem PagePool.map (h : PagePool b root out bytes p T) (hrep : EntriesRep m root T E)
    {M : PageMap} (hM : MapRep m root M) (hret : ret ≠ 0) {va : Addr} (hva : VirtualPage va)
    (x : Mapping) :
    ∃ m' p' e T' E', sv39Map (pmmAllocAt ret) ⟨m, some p⟩ root va x.pa x.flags .page =
        (⟨m', some p'⟩, e) ∧ EntriesRep m' root T' E' ∧ PagePool b root out bytes p' T' ∧
      p'.regions.map PmmRegion.extent = p.regions.map PmmRegion.extent ∧
      (e = GrouperError.ok.errval ↔ M va = none ∧ 4096 * tablesMissing m root va ≤ p.free.toNat) ∧
      (e = GrouperError.ok.errval → MapRep m' root (Function.update M va (some x)) ∧
        p'.free.toNat + 4096 * tablesMissing m root va = p.free.toNat ∧
        ∀ n, T' n ≠ none ↔ T n ≠ none ∨ n ∈ tableNodes va) := by
  have hsupply := tableSupply_pool b root out bytes (p.regions.map PmmRegion.extent) hret
  have hI : ∃ q, some p = some q ∧ PagePool b root out bytes q T ∧
      q.regions.map PmmRegion.extent = p.regions.map PmmRegion.extent := ⟨p, rfl, h, rfl⟩
  have hcalls := hsupply.callsOk (w := ⟨m, some p⟩) hrep hI va
  obtain ⟨hmap, -⟩ := MapRep.map (w := ⟨m, some p⟩) hM hva x hcalls
  have hok := (MapRep.mapRefines (w := ⟨m, some p⟩) hM hva x hcalls).ok_iff
  obtain ⟨T', E', hrep', ⟨p', hp', hpool', hextents⟩, hkeep, -⟩ :=
    hsupply.map (w := ⟨m, some p⟩) hrep hI va x.pa x.flags
  rcases hrun : sv39Map (pmmAllocAt ret) ⟨m, some p⟩ root va x.pa x.flags .page with ⟨⟨m', s'⟩, e⟩
  rw [hrun] at hmap hok hrep' hp'
  dsimp only at hp' hok
  subst hp'
  rw [h.tablesAvailable_iff hrep hret] at hok
  refine ⟨m', p', e, T', E', rfl, hrep', hpool', hextents, hok, fun he => ?_⟩
  obtain ⟨hfree, hle⟩ := hok.mp he
  rw [(h.tablesAvailable_iff hrep hret va).mpr hle, PageMap.map_of_unmapped hfree] at hmap
  have hmissing := MapRep.tablesMissing_eq_zero hmap hva (by
    rw [Function.update_self]
    exact Option.some_ne_none x)
  rw [EntriesRep.tablesMissing_eq hrep', Finset.card_eq_zero, Finset.filter_eq_empty_iff] at hmissing
  -- the tables after the call are those before it and the ones on the way to the page
  have htables : ∀ n, T' n ≠ none ↔ T n ≠ none ∨ n ∈ tableNodes va := by
    intro n
    by_cases hnode : n ∈ tableNodes va
    · exact iff_of_true (hmissing hnode) (Or.inr hnode)
    · rw [hkeep n (Or.inr hnode)]
      exact (or_iff_left hnode).symm
  refine ⟨hmap, ?_, htables⟩
  obtain ⟨S, hS, hbytes⟩ := h.free
  obtain ⟨S', hS', hbytes'⟩ := hpool'.free
  have hunion : S' = S ∪ (tableNodes va).filter fun n => T n = none := by
    ext n
    rw [Finset.mem_union, Finset.mem_filter, hS, hS', htables]
    by_cases hn : T n = none
    · rw [hn]
      refine ⟨fun hh => Or.inr ⟨hh.2.resolve_left (not_not.mpr rfl), rfl⟩, ?_⟩
      rintro (hh | hh)
      · exact absurd rfl hh.2
      · refine ⟨?_, Or.inr hh.1⟩
        rintro rfl
        rw [hrep.root_eq] at hn
        cases hn
    · exact ⟨fun hh => Or.inl ⟨hh.1, hn⟩, fun hh => hh.elim (fun h' => ⟨h'.1, Or.inl hn⟩)
        fun h' => absurd h'.2 hn⟩
  have hdisj : Disjoint S ((tableNodes va).filter fun n => T n = none) := by
    rw [Finset.disjoint_left]
    exact fun n hn hn' => ((hS n).mp hn).2 (Finset.mem_filter.mp hn').2
  rw [hunion, Finset.card_union_of_disjoint hdisj, ← hrep.tablesMissing_eq] at hbytes'
  omega

end pool

end Octiron.Kernel
