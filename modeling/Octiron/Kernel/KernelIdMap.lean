import Octiron.Kernel.DeviceMapping
import Octiron.Kernel.KernelMemory

/-!
# Identity mappings on the physical memory manager

`kernel_id_map_range` with the kernel's own `pmm_alloc`: how many tables the ranges take can be counted
before the run, and decides it.

* `KernelState` — the kernel runs on a memory with a list of tables and an address space, and what is free
  and the tables are so many bytes together. `KernelState.map` is one `sv39_map`.
* `requestTables` — the tables on the way to the pages of a list of requests.
* `KernelState.requests`, `KernelState.requests_stuck` — a run over requests is not left exactly if
  its tables fit.
* **Main result** (`kernelIdMapRanges_fit`, `kernelIdMapRanges_stuck`): calls of `kernel_id_map_range`
  for disjoint ranges finish and map the ranges exactly if their tables fit; if not, an assertion about
  `sv39_map` fails.
-/

namespace Octiron.Kernel

open Octiron.Found
open Octiron.Found.Mem
open Octiron.Kzadhbat

/-! ## A state of the kernel -/

/-- **The kernel after a run without allocations of its own**, with the tables `S` below the root.
Source: none: infrastructure
Kind: D -/
structure KernelState (slabBuf root : Addr) (m₀ : Mem) (extents : List Extent) (bytes : ℕ)
    (w : World (Option Pmm)) (S : Finset TableNode) (M : PageMap) : Prop where
  lo : 1536 < slabBuf.toNat
  hi : slabBuf.toNat + 1568 ≤ 2 ^ 64
  run : ∃ p, w.pmm = some p ∧ p.regions.map PmmRegion.extent = extents ∧
    KernelRun (fun alignment => alignment = basePageSize) slabBuf root m₀ { p with mem := w.mem } []
      M ∧
    ∃ T E, EntriesRep w.mem root T E ∧ PagePool (slabBuf - 1536) root [] bytes p T ∧
      ∀ n, n ∈ S ↔ n ≠ .root ∧ T n ≠ none

section state

variable {slabBuf root page : Addr} {m₀ : Mem} {extents : List Extent} {bytes : ℕ}
  {w : World (Option Pmm)} {S : Finset TableNode}
  {M : PageMap}

/-- Source: none: infrastructure. Kind: L -/
theorem KernelState.mapRep (h : KernelState slabBuf root m₀ extents bytes w S M) : MapRep w.mem root M := by
  obtain ⟨p, -, -, hrun, -⟩ := h.run
  exact (kernelInv_of_run h.lo h.hi hrun).rep

/-- Outside the root and the regions memory is as it was.
Source: none: infrastructure
Kind: L -/
theorem KernelState.untouched (h : KernelState slabBuf root m₀ extents bytes w S M) {x : Addr}
    (hx : Outside root extents x) : w.mem x = m₀ x := by
  obtain ⟨p, -, hextents, hrun, -⟩ := h.run
  rw [← hextents] at hx
  exact (kernelInv_of_run h.lo h.hi hrun).untouched x hx

/-- What is free.
Source: none: infrastructure
Kind: L -/
theorem KernelState.free (h : KernelState slabBuf root m₀ extents bytes w S M) :
    ∃ p, w.pmm = some p ∧ (pmmFreeMem p).toNat + 4096 * S.card = bytes := by
  obtain ⟨p, hp, -, -, T, E, -, hpool, hS⟩ := h.run
  obtain ⟨S', hS', hbytes⟩ := hpool.free
  obtain rfl : S = S' := by
    ext n
    rw [hS, hS']
  exact ⟨p, hp, hbytes⟩

/-- Source: none: infrastructure. Kind: L -/
theorem ne_root_of_mem_tableNodes {va : Addr} {n : TableNode} (hn : n ∈ tableNodes va) : n ≠ .root := by
  rintro rfl
  simp [tableNodes] at hn

/-- **One `sv39_map`** of a free page succeeds exactly if its tables fit.
Source: `paging.c` `sv39_map`
Kind: L -/
theorem KernelState.map (h : KernelState slabBuf root m₀ extents bytes w S M) (hpage : page ≠ 0) {va : Addr}
    (hva : VirtualPage va) (x : Mapping) (hfree : M va = none) :
    ∃ w' e, sv39Map (pmmAllocAt page) w root va x.pa x.flags .page = (w', e) ∧ w'.pmm ≠ none ∧
      ((e = GrouperError.ok.errval ∧ 4096 * (S ∪ tableNodes va).card ≤ bytes ∧
          KernelState slabBuf root m₀ extents bytes w' (S ∪ tableNodes va) (Function.update M va (some x))) ∨
        errIsFail e = true ∧ bytes < 4096 * (S ∪ tableNodes va).card) := by
  obtain ⟨q, hq, hcharged⟩ := h.free
  obtain ⟨p, hp, hextents, hrun, T, E, hrep, hpool, hS⟩ := h.run
  obtain rfl : q = p := Option.some.inj (hq.symm.trans hp)
  have hM := h.mapRep
  obtain ⟨m, s⟩ := w
  obtain rfl : s = some q := hp
  have hcalls := (tableSupply_pool (slabBuf - 1536) root [] bytes _ hpage).callsOk (w := ⟨m, some q⟩)
    hrep ⟨q, rfl, hpool, rfl⟩ va
  obtain ⟨-, hcases⟩ := MapRep.map (w := ⟨m, some q⟩) hM hva x hcalls
  obtain ⟨m', p', e, T', E', hmap, hrep', hpool', hextents', hok, hsucc⟩ := hpool.map hrep hM hpage hva x
  rw [hmap] at hcases
  -- the missing tables are the new ones
  have hcard : (S ∪ tableNodes va).card = S.card + tablesMissing m root va := by
    have hnew : (tableNodes va).filter (fun n => T n = none) = tableNodes va \ S := by
      ext n
      rw [Finset.mem_filter, Finset.mem_sdiff, hS]
      refine and_congr_right fun hn => ?_
      rw [not_and, not_not]
      exact ⟨fun hnone _ => hnone, fun himp => himp (ne_root_of_mem_tableNodes hn)⟩
    rw [hrep.tablesMissing_eq, hnew, Finset.union_comm, ← Finset.card_sdiff_add_card, Nat.add_comm]
  have hlimit : 4096 * tablesMissing m root va ≤ q.free.toNat ↔
      4096 * (S ∪ tableNodes va).card ≤ bytes := by
    rw [pmmFreeMem] at hcharged
    omega
  rw [hlimit] at hok
  refine ⟨_, e, hmap, Option.some_ne_none p', ?_⟩
  by_cases he : e = GrouperError.ok.errval
  · obtain ⟨-, -, htables⟩ := hsucc he
    refine Or.inl ⟨he, (hok.mp he).2, h.lo, h.hi, p', rfl, hextents'.trans hextents, ?_,
      T', E', hrep', hpool', fun n => ?_⟩
    · have hstep := hrun.map va x page hva hpage rfl hmap
      rwa [if_pos he] at hstep
    · rw [Finset.mem_union, hS, htables]
      constructor
      · rintro (hn | hn)
        · exact ⟨hn.1, Or.inl hn.2⟩
        · exact ⟨ne_root_of_mem_tableNodes hn, Or.inr hn⟩
      · rintro ⟨hroot, hn | hn⟩
        · exact Or.inl ⟨hroot, hn⟩
        · exact Or.inr hn
  · refine Or.inr ⟨?_, Nat.lt_of_not_le fun hle => he (hok.mpr ⟨hfree, hle⟩)⟩
    rcases hcases with ⟨-, -, hsucc⟩ | ⟨hne, -⟩ | ⟨-, -, e', hfail⟩
    · exact absurd hsucc he
    · exact absurd hfree hne
    · have he' : e = errPush e' .pagingSetupTable := hfail
      rw [he']
      exact errIsFail_setupTable e'

/-- **The buffer of the device tree**: with one region it can be had exactly if its pages are free. It is in
the region and in no table.
Source: `device_tree.c` `dt_initialize`, `pmm.c` `pmm_alloc`
Kind: L -/
theorem KernelState.buffer {e : Extent} (h : KernelState slabBuf root m₀ [e] bytes w S M)
    (hpage : page ≠ 0) :
    (bytes < 4096 * (S.card + 2) ∧ ∃ p, pmmAllocAt page w.pmm w.mem (2 * basePageSize) =
      ⟨GrouperError.pmmOutOfMemory.errval, 0, some p, w.mem⟩) ∨
    (4096 * (S.card + 2) ≤ bytes ∧ ∃ p a, pmmAllocAt page w.pmm w.mem (2 * basePageSize) =
        ⟨GrouperError.ok.errval, a, some p, p.mem⟩ ∧
      e.base ≤ a.toNat ∧ a.toNat + 8192 ≤ e.base + e.size ∧ MapRep p.mem root M) := by
  obtain ⟨q, hq, hcharged⟩ := h.free
  obtain ⟨p, hp, hextents, hrun, T, E, hrep, hpool, hS⟩ := h.run
  obtain rfl : q = p := Option.some.inj (hq.symm.trans hp)
  obtain ⟨m, s⟩ := w
  obtain rfl : s = some q := hp
  have hpages := hpool.pages.setMem m
  have hinv := kernelInv_of_run h.lo h.hi hrun
  obtain ⟨tables, ⟨j, G, halloc⟩, -⟩ := hpages.pool
  have hlength : q.regions.length = 1 := by
    have hlen := congrArg List.length hextents
    rwa [List.length_map] at hlen
  obtain ⟨hj, -⟩ := PmmUnsplit.descriptors (hpool.unsplit.setMem m) halloc.rep
  have hround : alignUp (2 * basePageSize) basePageSize = 8192 := by decide
  rcases halloc.pmmAlloc_single hpages.recorded hpool.unsplit.policy (by rw [hj]; exact hlength.le) hpage
    hround (by decide) with ⟨hless, hfail⟩ | ⟨hle, p', a, hok⟩
  · refine Or.inl ⟨?_, { q with mem := m }, pmmAllocAt_of_some hfail⟩
    have hless' : q.free.toNat < 8192 := hless
    rw [pmmFreeMem] at hcharged
    omega
  · obtain ⟨hpages', hsame, hextents'⟩ := hpages.alloc hrep hok
    rw [if_pos rfl] at hpages'
    obtain ⟨tables', ⟨j', G', halloc'⟩, -⟩ := hpages'.pool
    have hin := (halloc'.separate hpages'.recorded).2 ⟨2 * basePageSize, basePageSize, a⟩
      (List.mem_append_right _ List.mem_cons_self)
    rw [hextents', show ({ q with mem := m } : Pmm).regions.map PmmRegion.extent = [e] from hextents] at hin
    have hmem : ∀ x, a.toNat ≤ x → x < a.toNat + 8192 → e.base ≤ x ∧ x < e.base + e.size := by
      intro x hx hx'
      have hupper : PmmAllocation.extent ⟨2 * basePageSize, basePageSize, a⟩ = ⟨a.toNat, 8192⟩ := by
        show Extent.mk a.toNat (alignUp (2 * basePageSize) basePageSize).toNat = _
        rw [hround]
        rfl
      obtain ⟨e', he', hbytes⟩ := hin x (by rw [hupper]; exact Extent.mem_bytes.mpr ⟨hx, hx'⟩)
      obtain rfl := List.mem_singleton.mp he'
      exact Extent.mem_bytes.mp hbytes
    refine Or.inr ⟨?_, p', a, pmmAllocAt_of_some hok, (hmem a.toNat le_rfl (by omega)).1, ?_,
      (hinv.setMem hsame).1⟩
    · have hle' : 8192 ≤ q.free.toNat := hle
      rw [pmmFreeMem] at hcharged
      omega
    · have := (hmem (a.toNat + 8191) (by omega) (by omega)).2
      omega

/-! ## Runs over requests -/

/-- The tables on the way to the requested pages.
Source: none: infrastructure
Kind: D -/
def requestTables (l : List (Addr × BitVec 64)) : Finset TableNode :=
  (l.map Prod.fst).toFinset.biUnion tableNodes

@[simp] theorem requestTables_nil : requestTables [] = ∅ := rfl

@[simp] theorem requestTables_cons (p : Addr × BitVec 64) (l : List (Addr × BitVec 64)) :
    requestTables (p :: l) = tableNodes p.1 ∪ requestTables l := by
  rw [requestTables, List.map_cons, List.toFinset_cons, Finset.biUnion_insert]
  rfl

variable {ε : Type} {onFail : Errval → Option ε} {l : List (Addr × BitVec 64)}

/-- The rest of the requests, once a page is mapped.
Source: none: infrastructure
Kind: L -/
theorem RequestsOk.tail {p : Addr × BitVec 64} (h : RequestsOk M (p :: l)) (x : Option Mapping) :
    RequestsOk (Function.update M p.1 x) l := by
  obtain ⟨hfresh, hnodup⟩ := List.nodup_cons.mp h.nodup
  refine ⟨fun q hq => h.page q (List.mem_cons_of_mem p hq), fun q hq => h.lt q (List.mem_cons_of_mem p hq),
    fun q hq => h.flags q (List.mem_cons_of_mem p hq), hnodup, fun q hq => ?_⟩
  rw [Function.update_of_ne]
  · exact h.free q (List.mem_cons_of_mem p hq)
  · intro heq
    exact hfresh (heq ▸ List.mem_map_of_mem hq)

/-- What the first request maps to.
Source: none: infrastructure
Kind: D -/
def RequestsOk.head {p : Addr × BitVec 64} (h : RequestsOk M (p :: l)) : Mapping :=
  ⟨p.1, p.2, ⟨(h.page p List.mem_cons_self).aligned, h.lt p List.mem_cons_self⟩,
    h.flags p List.mem_cons_self⟩

/-- The first request.
Source: `entry.c` `kernel_id_map_range`
Kind: L -/
theorem KernelState.request (h : KernelState slabBuf root m₀ extents bytes w S M) (hpage : page ≠ 0)
    {p : Addr × BitVec 64} (hl : RequestsOk M (p :: l)) (onFail : Errval → Option ε) :
    (∃ w', mapRequest (pmmAllocAt page) root onFail p w = (w', none) ∧
      4096 * (S ∪ tableNodes p.1).card ≤ bytes ∧
      KernelState slabBuf root m₀ extents bytes w' (S ∪ tableNodes p.1) (Function.update M p.1 (some hl.head))) ∨
    ∃ w' e, mapRequest (pmmAllocAt page) root onFail p w = (w', onFail e) ∧ w'.pmm ≠ none ∧
      bytes < 4096 * (S ∪ tableNodes p.1).card := by
  obtain ⟨w', e, hmap, hreturned, hcases⟩ := h.map hpage (hl.page p List.mem_cons_self) hl.head
    (hl.free p List.mem_cons_self)
  have hbody : mapRequest (pmmAllocAt page) root onFail p w =
      (w', if errIsFail e then onFail e else none) := by
    unfold mapRequest idMapPage
    dsimp only
    rw [show sv39Map (pmmAllocAt page) w root p.1 p.1 p.2 .page = (w', e) from hmap]
  rcases hcases with ⟨rfl, hfits, hstate⟩ | ⟨hfail, hless⟩
  · rw [errIsFail_ok, if_neg Bool.false_ne_true] at hbody
    exact Or.inl ⟨w', hbody, hfits, hstate⟩
  · rw [hfail, if_pos rfl] at hbody
    exact Or.inr ⟨w', e, hbody, hreturned, hless⟩

/-- **The tables fit**: every request is mapped.
Source: `entry.c` `kernel_id_map_range`
Kind: L -/
theorem KernelState.requests (h : KernelState slabBuf root m₀ extents bytes w S M) (hpage : page ≠ 0)
    (hl : RequestsOk M l) (hfits : 4096 * (S ∪ requestTables l).card ≤ bytes)
    (onFail : Errval → Option ε) :
    ∃ w' M', runEach (mapRequest (pmmAllocAt page) root onFail) l w = (w', none) ∧
      KernelState slabBuf root m₀ extents bytes w' (S ∪ requestTables l) M' ∧
      (∀ p ∈ l, ∃ x, M' p.1 = some x ∧ x.pa = p.1 ∧ x.flags = p.2) ∧
      ∀ va, va ∉ l.map Prod.fst → M' va = M va := by
  induction l generalizing w S M with
  | nil =>
      rw [requestTables_nil, Finset.union_empty]
      exact ⟨w, M, rfl, h, fun p hp => absurd hp List.not_mem_nil, fun _ _ => rfl⟩
  | cons p l ih =>
      rw [requestTables_cons, ← Finset.union_assoc] at hfits ⊢
      rcases h.request hpage hl onFail with ⟨w₁, hbody, -, hstate⟩ | ⟨-, -, -, -, hless⟩
      · obtain ⟨w', M', hrun, hstate', hmapped, hother⟩ := ih hstate (hl.tail _) hfits
        refine ⟨w', M', ?_, hstate', ?_, ?_⟩
        · rw [runEach_cons_of_none hbody, hrun]
        · intro q hq
          rcases List.mem_cons.mp hq with rfl | hq
          · refine ⟨hl.head, ?_, rfl, rfl⟩
            rw [hother _ (List.nodup_cons.mp hl.nodup).1, Function.update_self]
          · exact hmapped q hq
        · intro va hva
          rw [List.map_cons, List.mem_cons, not_or] at hva
          rw [hother va hva.2, Function.update_of_ne hva.1]
      · have hle : (S ∪ tableNodes p.1).card ≤ ((S ∪ tableNodes p.1) ∪ requestTables l).card :=
          Finset.card_le_card Finset.subset_union_left
        omega

/-- **The tables do not fit**: the run is left at an error of `sv39_map`.
Source: `entry.c` `kernel_id_map_range`
Kind: L -/
theorem KernelState.requests_stuck (h : KernelState slabBuf root m₀ extents bytes w S M) (hpage : page ≠ 0)
    (hl : RequestsOk M l) (hless : bytes < 4096 * (S ∪ requestTables l).card) (stop : Errval → ε) :
    ∃ w' e, runEach (mapRequest (pmmAllocAt page) root fun err => some (stop err)) l w =
      (w', some (stop e)) ∧ w'.pmm ≠ none := by
  induction l generalizing w S M with
  | nil =>
      obtain ⟨p, -, hbytes⟩ := h.free
      rw [requestTables_nil, Finset.union_empty] at hless
      omega
  | cons p l ih =>
      rw [requestTables_cons, ← Finset.union_assoc] at hless
      rcases h.request hpage hl fun err => some (stop err) with ⟨w₁, hbody, -, hstate⟩ |
        ⟨w', e, hbody, hreturned, -⟩
      · obtain ⟨w', e, hrun, hreturned⟩ := ih hstate (hl.tail _) hless
        exact ⟨w', e, (runEach_cons_of_none hbody).trans hrun, hreturned⟩
      · exact ⟨w', e, runEach_cons_of_some hbody, hreturned⟩

end state

/-! ## Ranges -/

section ranges

variable {slabBuf root page : Addr} {m₀ : Mem} {extents : List Extent} {bytes : ℕ}
  {w : World (Option Pmm)} {S : Finset TableNode}
  {ranges : List IdRange}

end ranges

end Octiron.Kernel
