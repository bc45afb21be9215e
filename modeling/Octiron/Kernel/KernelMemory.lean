import Octiron.Kernel.KernelSupply

/-!
# The kernel's memory over whole runs

* `KernelRun` — the kernel at work: regions are added, memory is allocated and written, pages are mapped
  and unmapped, in any order.
* `KernelInv` — what each of these steps keeps, with one lemma for each.
* **Main result** (`kernelIsolated_of_run`): in every state the address space is what the calls of
  `sv39_map` and `sv39_unmap` have made it, and every byte of the regions is free, in one table in use, or
  in one allocation.
* **Main result** (`sv39Map_exact_of_run`): in the runs of a kernel that allocates with `pmm_alloc`,
  `sv39_map` comes back, and maps a free page exactly if the missing tables are no more than the free
  pages.
-/

namespace Octiron.Kernel

open Octiron.Found
open Octiron.Found.Mem
open Octiron.Kzadhbat

/-! ## The kernel at work -/

/-- **Where the descriptors of the manager are**, from the first one on: 1536 bytes, and behind them the
head of the slab. `slab_grow` places them in front of `pmm_initial_region_slab`.
Source: `pmm.c` `pmm_initialize`
Kind: D -/
def slabExtent (first : Addr) : Extent := ⟨first.toNat, 1568⟩

/-- **Memory that the manager keeps its descriptors in** is in no region.
Source: none: infrastructure
Kind: D -/
def Pmm.SparesSlab (p : Pmm) (first : Addr) : Prop :=
  ∀ e ∈ p.regions.map PmmRegion.extent, Disjoint (slabExtent first).bytes e.bytes

/-- **Runs of the kernel** from memory `m₀`: `pmm_initialize` with a zero root table, then regions are
added that meet neither each other nor the root table nor the descriptors, memory is allocated at
alignments that meet `C` and written by those who have it, and virtual pages are mapped and unmapped, in
any order. `out` is what has been allocated, and `M` what the successful calls of `sv39_map` and
`sv39_unmap` have made of the address space. The descriptors are kept with the manager, apart from
memory, as nobody else writes where they are (`descriptors_of_run`). The memory that is kept with the
manager is not read by `pmm_alloc` as `sv39_map` calls it.
Source: none: the runs of `pmm.c` and `paging.c`
Kind: D -/
inductive KernelRun (C : BitVec 64 → Prop) (slabBuf root : Addr) (m₀ : Mem) :
    Pmm → List PmmAllocation → PageMap → Prop
  | boot (p : Pmm) : root ≠ 0 → PageAligned root → PageZero m₀ root →
      Disjoint (pageExtent root).bytes (slabExtent (slabBuf - 1536)).bytes → p.mem = m₀ →
      KernelRun C slabBuf root m₀ (pmmInitialize p slabBuf).1 [] fun _ => none
  | addRegion {p p' : Pmm} {out : List PmmAllocation} {M : PageMap} {e : Errval}
      (base size : BitVec 64) : KernelRun C slabBuf root m₀ p out M →
      pmmAddRegion p base size = some (p', e) → PmmRecorded p' → p'.Spares root →
      p'.SparesSlab (slabBuf - 1536) →
      KernelRun C slabBuf root m₀ p' out M
  | alloc {p p' : Pmm} {out : List PmmAllocation} {M : PageMap} {e : Errval} {a : Addr}
      (size alignment : BitVec 64) (ret : Addr) : KernelRun C slabBuf root m₀ p out M →
      C alignment → pmmAllocAligned p size alignment ret = some (p', e, a) →
      KernelRun C slabBuf root m₀ p'
        (if e = GrouperError.ok.errval then ⟨size, alignment, a⟩ :: out else out) M
  | write {p : Pmm} {out : List PmmAllocation} {M : PageMap} (a : PmmAllocation) (x : Addr)
      (v : BitVec 8) : KernelRun C slabBuf root m₀ p out M → a ∈ out → x.toNat ∈ a.extent.bytes →
      KernelRun C slabBuf root m₀ { p with mem := Function.update p.mem x v } out M
  | map {p p' q : Pmm} {out : List PmmAllocation} {M : PageMap} {m : Mem} {e : Errval} (va : Addr)
      (x : Mapping) (ret : Addr) : KernelRun C slabBuf root m₀ p out M → VirtualPage va → ret ≠ 0 →
      { q with mem := p.mem } = p →
      sv39Map (pmmAllocAt ret) ⟨p.mem, some q⟩ root va x.pa x.flags .page = (⟨m, some p'⟩, e) →
      KernelRun C slabBuf root m₀ { p' with mem := m } out
        (if e = GrouperError.ok.errval then Function.update M va (some x) else M)
  | unmap {p : Pmm} {out : List PmmAllocation} {M : PageMap} (va : Addr) :
      KernelRun C slabBuf root m₀ p out M → VirtualPage va →
      KernelRun C slabBuf root m₀ { p with mem := (sv39Unmap ⟨p.mem, some p⟩ root va).1.mem } out
        (M.unmap va)

/-- What a step keeps.
Source: none: infrastructure
Kind: D -/
structure KernelInv (b root : Addr) (m₀ : Mem) (p : Pmm) (out : List PmmAllocation)
    (M : PageMap) : Prop where
  rep : MapRep p.mem root M
  pages : ∃ T E, EntriesRep p.mem root T E ∧ TablePages b root p T out
  slab : Disjoint (pageExtent root).bytes (slabExtent b).bytes ∧ p.SparesSlab b
  untouched : ∀ x, Outside root (p.regions.map PmmRegion.extent) x → p.mem x = m₀ x

section runs

variable {C : BitVec 64 → Prop} {b root : Addr} {m₀ : Mem} {p p' : Pmm} {out : List PmmAllocation}
  {M : PageMap}

/-- Tables in use are those of any representation.
Source: none: infrastructure
Kind: L -/
theorem EntriesRep.tableAt_iff {m : Mem} {T : TableNode → Option Addr}
    {E : PageIndex → Option (BitVec 64)} (h : EntriesRep m root T E) (t : Addr) :
    (∃ level, TableAt m root level t) ↔ ∃ n, T n = some t := by
  constructor
  · rintro ⟨level, ht⟩
    obtain ⟨n, -, hn⟩ := EntriesRep.exists_of_tableAt (w := ⟨m, ()⟩) h ht
    exact ⟨n, hn⟩
  · rintro ⟨n, hn⟩
    exact ⟨n.level, EntriesRep.tableAt (w := ⟨m, ()⟩) h hn⟩

/-- **Memory that is no table may change**.
Source: none: infrastructure
Kind: L -/
theorem KernelInv.setMem (h : KernelInv b root m₀ p out M) {m : Mem}
    (hsame : ∀ level t, TableAt p.mem root level t → PageEq m p.mem t) :
    MapRep m root M ∧ ∃ T E, EntriesRep m root T E ∧ TablePages b root p T out := by
  obtain ⟨hroot, T, A, hrep, hA⟩ := h.rep
  obtain ⟨T', E, hrep', hpages⟩ := h.pages
  refine ⟨⟨hroot, T, A, hrep.congr fun n t hn => ?_, hA⟩, T', E, hrep'.congr fun n t hn => ?_, hpages⟩
  · exact hsame _ t (TablesRep.tableAt (w := ⟨p.mem, ()⟩) hrep hn)
  · exact hsame _ t (EntriesRep.tableAt (w := ⟨p.mem, ()⟩) hrep' hn)

/-- The bytes of an allocation are in no table.
Source: none: infrastructure
Kind: L -/
theorem TablePages.not_mem_table {m : Mem} {T : TableNode → Option Addr}
    {E : PageIndex → Option (BitVec 64)} (h : TablePages b root p T out)
    (hrep : EntriesRep m root T E) {a : PmmAllocation} (ha : a ∈ out) {level : ℕ} {t : Addr}
    (ht : TableAt m root level t) : Disjoint (pageExtent t).bytes a.extent.bytes := by
  obtain ⟨tables, ⟨j, G, hinv⟩, htables⟩ := h.pool
  obtain ⟨hsep, hinside⟩ := hinv.separate h.recorded
  obtain ⟨n, hn⟩ := (hrep.tableAt_iff t).mp ⟨level, ht⟩
  by_cases hroot : n = .root
  · rw [hroot, hrep.root_eq, Option.some.injEq] at hn
    rw [Finset.disjoint_left]
    intro x hx hxa
    obtain ⟨e, he, hxe⟩ := hinside a (List.mem_append_right _ ha) x hxa
    rw [← hn] at hx
    exact Finset.disjoint_left.mp (h.spares e he) hx hxe
  · rw [List.map_append] at hsep
    have hmem : tableAllocation t ∈ tables.map tableAllocation :=
      List.mem_map_of_mem ((htables t).mpr ⟨n, hroot, hn⟩)
    rw [← tableAllocation_extent]
    exact (List.pairwise_append.mp hsep).2.2 _ (List.mem_map_of_mem hmem) _ (List.mem_map_of_mem ha)

/-- The bytes of a page.
Source: none: infrastructure
Kind: L -/
theorem pageExtent_byte {t : Addr} (ht : PageAligned t) {i : ℕ} (hi : i < 4096) :
    (t + BitVec.ofNat 64 i).toNat ∈ (pageExtent t).bytes := by
  rw [pageAligned_iff] at ht
  have hlt := t.isLt
  rw [Extent.mem_bytes, BitVec.toNat_add, BitVec.toNat_ofNat]
  show t.toNat ≤ _ ∧ _ < t.toNat + 4096
  omega

/-- Source: `pmm.c` `pmm_initialize`. Kind: L -/
theorem pmmInitialize_mem (p : Pmm) (slabBuf : Addr) : (pmmInitialize p slabBuf).1.mem = p.mem := by
  unfold pmmInitialize
  dsimp only
  split_ifs <;> rfl

/-- Source: `pmm.c` `pmm_add_region`. Kind: L -/
theorem pmmAddRegion_mem {j : ℕ} {G : List (List Addr)} (hrep : DescRep b p j G) {base size : BitVec 64}
    {e : Errval} (hrun : pmmAddRegion p base size = some (p', e)) : p'.mem = p.mem := by
  rcases pmmAddRegion_spec hrep base size with ⟨e', hadd, -⟩ | ⟨q, hadd, -, -, -, hadded⟩
  · rw [hrun] at hadd
    cases hadd
    rfl
  · rw [hrun] at hadd
    cases hadd
    exact hadded.mem

/-- Source: `pmm.c` `pmm_add_region`. Kind: L -/
theorem pmmAddRegion_extents {j : ℕ} {G : List (List Addr)} (hrep : DescRep b p j G)
    {base size : BitVec 64} {e : Errval} (hrun : pmmAddRegion p base size = some (p', e)) :
    ∀ x ∈ p.regions.map PmmRegion.extent, x ∈ p'.regions.map PmmRegion.extent := by
  intro x hx
  rcases pmmAddRegion_spec hrep base size with ⟨e', hadd, -⟩ | ⟨q, hadd, -, -, -, hadded⟩
  · rw [hrun] at hadd
    cases hadd
    exact hx
  · rw [hrun] at hadd
    cases hadd
    rw [hadded.regions, List.map_append]
    exact List.mem_append_left _ hx

/-- **`pmm_initialize`**, with a zero root table.
Source: `pmm.c` `pmm_initialize`
Kind: L -/
theorem kernelInv_boot (p : Pmm) {slabBuf : Addr} (hlo : 1536 < slabBuf.toNat)
    (hhi : slabBuf.toNat + 1568 ≤ 2 ^ 64) (hroot : root ≠ 0) (haligned : PageAligned root)
    (hzero : PageZero m₀ root)
    (hslab : Disjoint (pageExtent root).bytes (slabExtent (slabBuf - 1536)).bytes) (hp : p.mem = m₀) :
    KernelInv (slabBuf - 1536) root m₀ (pmmInitialize p slabBuf).1 [] fun _ => none := by
  have hinv := allocInv_init p hlo hhi
  obtain ⟨p₀, hinit, -, hregions, -⟩ := pmmInitialize_desc p hlo hhi
  have hmem := pmmInitialize_mem p slabBuf
  rw [hinit] at hinv hmem ⊢
  rw [← hp, ← hmem] at hzero
  refine ⟨⟨hroot, _, _, tablesRep_zero haligned hzero, fun _ _ => rfl⟩, ⟨_, _,
    entriesRep_zero haligned hzero, ⟨?_, ?_⟩, ?_, [], ⟨0, [], hinv⟩, fun t => ?_⟩, ⟨hslab, ?_⟩, fun x _ => ?_⟩
  · rw [hregions]
    exact List.Pairwise.nil
  · rw [hregions]
    exact fun e he => absurd he List.not_mem_nil
  · unfold Pmm.Spares
    rw [hregions]
    exact fun e he => absurd he List.not_mem_nil
  · refine iff_of_false List.not_mem_nil ?_
    rintro ⟨n, hn, ht⟩
    rw [if_neg hn] at ht
    cases ht
  · unfold Pmm.SparesSlab
    rw [hregions]
    exact fun e he => absurd he List.not_mem_nil
  · exact congrFun (hmem.trans hp) x

/-- **`pmm_add_region`**.
Source: `pmm.c` `pmm_add_region`
Kind: L -/
theorem KernelInv.addRegion (h : KernelInv b root m₀ p out M) {base size : BitVec 64} {e : Errval}
    (hrun : pmmAddRegion p base size = some (p', e)) (hrec : PmmRecorded p') (hspares : p'.Spares root)
    (hslab : p'.SparesSlab b) : KernelInv b root m₀ p' out M := by
  obtain ⟨T, E, hrep, hpages⟩ := h.pages
  obtain ⟨tables, ⟨j, G, hinv⟩, htables⟩ := hpages.pool
  have hmem := pmmAddRegion_mem hinv.rep hrun
  refine ⟨?_, ⟨T, E, ?_, hrec, hspares, tables, hinv.addRegion hrun hrec, htables⟩,
    ⟨h.slab.1, hslab⟩, fun x hx => ?_⟩
  · rw [hmem]
    exact h.rep
  · rw [hmem]
    exact hrep
  · rw [hmem]
    refine h.untouched x ⟨hx.1, fun e' he' => hx.2 e' ?_⟩
    exact pmmAddRegion_extents hinv.rep hrun e' he'

/-- **`pmm_alloc_aligned`** hands out and zeroes what is in no table.
Source: `pmm.c` `pmm_alloc_aligned`
Kind: L -/
theorem TablePages.alloc {T : TableNode → Option Addr} {E : PageIndex → Option (BitVec 64)}
    (h : TablePages b root p T out) (hrep : EntriesRep p.mem root T E) {size alignment a : BitVec 64}
    {ret : Addr} {e : Errval} (hrun : pmmAllocAligned p size alignment ret = some (p', e, a)) :
    TablePages b root p' T (if e = GrouperError.ok.errval then ⟨size, alignment, a⟩ :: out else out) ∧
      (∀ level t, TableAt p.mem root level t → PageEq p'.mem p.mem t) ∧
      p'.regions.map PmmRegion.extent = p.regions.map PmmRegion.extent := by
  obtain ⟨tables, ⟨j, G, hinv⟩, htables⟩ := h.pool
  rcases hinv.alloc h.recorded hrun with ⟨-, hne, rfl⟩ | ⟨rfl, ⟨j', G', hinv'⟩, hextents, hmem⟩
  · rw [if_neg hne]
    exact ⟨h, fun _ _ _ _ _ => rfl, rfl⟩
  · rw [if_pos rfl]
    have hpages' : TablePages b root p' T (⟨size, alignment, a⟩ :: out) :=
      ⟨recorded_of_extents h.recorded hextents, spares_of_extents h.spares hextents, tables,
        ⟨j', G', hinv'.perm List.perm_middle.symm⟩, htables⟩
    refine ⟨hpages', fun level t ht i hi => ?_, hextents⟩
    have haligned : PageAligned t := by
      obtain ⟨n, hn⟩ := (hrep.tableAt_iff t).mp ⟨level, ht⟩
      exact hrep.aligned hn
    have hdisj := hpages'.not_mem_table hrep List.mem_cons_self ht
    rw [hmem]
    exact if_neg fun hlt => Finset.disjoint_left.mp hdisj (pageExtent_byte haligned hi)
      (hinv'.mem_extent hpages'.recorded List.mem_cons_self hlt)

/-- Source: `pmm.c` `pmm_alloc_aligned`. Kind: L -/
theorem KernelInv.alloc (h : KernelInv b root m₀ p out M) {size alignment a : BitVec 64} {ret : Addr}
    {e : Errval} (hrun : pmmAllocAligned p size alignment ret = some (p', e, a)) :
    KernelInv b root m₀ p' (if e = GrouperError.ok.errval then ⟨size, alignment, a⟩ :: out else out)
      M := by
  obtain ⟨T, E, hrep, hpages⟩ := h.pages
  obtain ⟨tables, ⟨j, G, hinv⟩, -⟩ := hpages.pool
  obtain ⟨hpages', hsame, hextents⟩ := hpages.alloc hrep hrun
  refine ⟨(h.setMem hsame).1, ⟨T, E, hrep.congr fun n t hn => hsame _ t
    (EntriesRep.tableAt (w := ⟨p.mem, ()⟩) hrep hn), hpages'⟩,
    h.slab.imp_right fun hslab e he => hslab e (hextents ▸ he), fun x hx => ?_⟩
  rw [hextents] at hx
  exact (hinv.frame hpages.recorded hrun hx).trans (h.untouched x hx)

/-- **A write to an allocation**.
Source: none: infrastructure
Kind: L -/
theorem KernelInv.write (h : KernelInv b root m₀ p out M) {a : PmmAllocation} {x : Addr} (v : BitVec 8)
    (ha : a ∈ out) (hx : x.toNat ∈ a.extent.bytes) :
    KernelInv b root m₀ { p with mem := Function.update p.mem x v } out M := by
  obtain ⟨T, E, hrep, hpages⟩ := h.pages
  obtain ⟨tables, ⟨j, G, hinv⟩, -⟩ := hpages.pool
  have hsame : ∀ level t, TableAt p.mem root level t → PageEq (Function.update p.mem x v) p.mem t := by
    intro level t ht i hi
    have haligned : PageAligned t := by
      obtain ⟨n, hn⟩ := (hrep.tableAt_iff t).mp ⟨level, ht⟩
      exact hrep.aligned hn
    have hne : t + BitVec.ofNat 64 i ≠ x := by
      rintro rfl
      exact Finset.disjoint_left.mp (hpages.not_mem_table hrep ha ht) (pageExtent_byte haligned hi) hx
    exact Function.update_of_ne (f := p.mem) hne v
  obtain ⟨hmap, T', E', hrep', hpages'⟩ := h.setMem hsame
  refine ⟨hmap, ⟨T', E', hrep', hpages'.setMem _⟩, h.slab, fun y hy => ?_⟩
  have hout : Outside root (p.regions.map PmmRegion.extent) y := hy
  have hne : y ≠ x := by
    rintro rfl
    exact hout.not_mem hinv hpages.recorded (List.mem_append_right _ ha) hx
  exact (Function.update_of_ne (f := p.mem) hne v).trans (h.untouched y hy)

/-- **`sv39_map`** on the manager.
Source: `paging.c` `sv39_map`
Kind: L -/
theorem KernelInv.map (h : KernelInv b root m₀ p out M) {va ret : Addr} {x : Mapping} {m : Mem}
    {e : Errval} {q : Pmm} (hva : VirtualPage va) (hq : { q with mem := p.mem } = p)
    (hrun : sv39Map (pmmAllocAt ret) ⟨p.mem, some q⟩ root va x.pa x.flags .page = (⟨m, some p'⟩, e)) :
    KernelInv b root m₀ { p' with mem := m } out
      (if e = GrouperError.ok.errval then Function.update M va (some x) else M) := by
  obtain ⟨T, E, hrep, hpages⟩ := h.pages
  have hpages' : TablePages b root q T out := by
    have hset := hpages.setMem q.mem
    rwa [← hq] at hset
  have hextents : q.regions.map PmmRegion.extent = p.regions.map PmmRegion.extent := by rw [← hq]
  have hsupply := tableSupply_pmm b root ret out (p.regions.map PmmRegion.extent)
  have hI : TablesInside (p.regions.map PmmRegion.extent) T ∧ ∀ q', some q = some q' →
      TablePages b root q' T out ∧
        q'.regions.map PmmRegion.extent = p.regions.map PmmRegion.extent := by
    refine ⟨hextents ▸ hpages'.inside, fun q' heq => ?_⟩
    obtain rfl : q = q' := Option.some.inj heq
    exact ⟨hpages', hextents⟩
  have hcalls := hsupply.callsOk (w := ⟨p.mem, some q⟩) hrep hI va
  obtain ⟨hmap, hcases⟩ := MapRep.map (w := ⟨p.mem, some q⟩) h.rep hva x hcalls
  obtain ⟨T', E', hrep', hI', -, hframe⟩ :=
    hsupply.map (w := ⟨p.mem, some q⟩) hrep hI va x.pa x.flags
  rw [hrun] at hmap hcases hrep' hI' hframe
  obtain ⟨hpool', hextents'⟩ := hI'.2 p' rfl
  refine ⟨?_, ⟨T', E', hrep', hpool'.setMem m⟩,
    h.slab.imp_right fun hslab e he => hslab e (hextents' ▸ he), fun y hy => ?_⟩
  · rcases hcases with ⟨hnone, havail, he⟩ | ⟨hsome, he⟩ | ⟨-, havail, e', he⟩
    · rw [havail, PageMap.map_of_unmapped hnone] at hmap
      rw [if_pos he]
      exact hmap
    · rw [PageMap.map_of_mapped hsome] at hmap
      dsimp only at he
      rw [he, if_neg (by decide)]
      exact hmap
    · rw [havail, PageMap.map_of_unavailable] at hmap
      dsimp only at he
      rw [he, if_neg (errPush_setupTable_ne e').1]
      exact hmap
  · have hy' : Outside root (p'.regions.map PmmRegion.extent) y := hy
    rw [hextents'] at hy'
    exact (hframe y hy').trans (h.untouched y hy')

/-- **`sv39_unmap`**.
Source: `paging.c` `sv39_unmap`
Kind: L -/
theorem KernelInv.unmap (h : KernelInv b root m₀ p out M) {va : Addr} (hva : VirtualPage va) :
    KernelInv b root m₀ { p with mem := (sv39Unmap ⟨p.mem, some p⟩ root va).1.mem } out
      (M.unmap va) := by
  obtain ⟨T, E, hrep, hpages⟩ := h.pages
  refine ⟨(MapRep.unmap (w := ⟨p.mem, some p⟩) h.rep hva).1, ⟨T, ?_⟩, h.slab, fun x hx => ?_⟩
  · rcases sv39Unmap_entries (w := ⟨p.mem, some p⟩) hrep h.rep.1 hva.aligned with ⟨-, heq⟩ |
      ⟨v, w', -, heq, hrep'⟩
    · rw [heq]
      exact ⟨E, hrep, hpages⟩
    · rw [heq]
      exact ⟨_, hrep', hpages.setMem _⟩
  · refine (EntriesRep.unmap_frame (w := ⟨p.mem, some p⟩) hrep va fun n t hn hmem => ?_).trans
      (h.untouched x hx)
    by_cases hroot : n = .root
    · rw [hroot, hrep.root_eq, Option.some.injEq] at hn
      exact hx.1 (hn ▸ hmem)
    · obtain ⟨e, he, hin⟩ := hpages.inside n t hroot hn _ hmem
      exact hx.2 e he hin

/-- **Run lemma**.
Source: none: infrastructure
Kind: L -/
theorem kernelInv_of_run {slabBuf : Addr} (hlo : 1536 < slabBuf.toNat)
    (hhi : slabBuf.toNat + 1568 ≤ 2 ^ 64) (h : KernelRun C slabBuf root m₀ p out M) :
    KernelInv (slabBuf - 1536) root m₀ p out M := by
  induction h with
  | boot p hroot haligned hzero hslab hp =>
      exact kernelInv_boot p hlo hhi hroot haligned hzero hslab hp
  | addRegion base size _ hrun hrec hspares hslab ih => exact ih.addRegion hrun hrec hspares hslab
  | alloc size alignment ret _ _ hrun ih => exact ih.alloc hrun
  | write a x v _ ha hx ih => exact ih.write v ha hx
  | map va x ret _ hva _ hq hrun ih => exact ih.map hva hq hrun
  | unmap va _ hva ih => exact ih.unmap hva

/-- **`pmm_add_region`** takes one descriptor.
Source: `pmm.c` `pmm_add_region`
Kind: L -/
theorem PmmUnsplit.addRegion (h : PmmUnsplit p) {j : ℕ} {G : List (List Addr)} (hrep : DescRep b p j G)
    {base size : BitVec 64} {e : Errval} (hrun : pmmAddRegion p base size = some (p', e)) :
    PmmUnsplit p' := by
  rcases pmmAddRegion_spec hrep base size with ⟨e', hadd, -⟩ | ⟨q, hadd, hok, hj, hrep', hadded⟩
  · rw [hrun] at hadd
    cases hadd
    exact h
  · rw [hrun] at hadd
    cases hadd
    have hlength : p'.regions.length = p.regions.length + 1 := by
      rw [hadded.regions, List.length_append]
      rfl
    have hcount := h.count
    rw [hrep.slabFreecount_toNat] at hcount
    refine ⟨hadded.policy.trans h.policy, ?_, ?_⟩
    · rw [hrep'.slabFreecount_toNat, hlength]
      omega
    · rw [hlength]
      exact hok.room

/-- A state of a run has a pool of pages.
Source: none: infrastructure
Kind: L -/
theorem KernelInv.pool (h : KernelInv b root m₀ p out M) (hunsplit : PmmUnsplit p) :
    ∃ T E bytes, EntriesRep p.mem root T E ∧ PagePool b root out bytes p T := by
  obtain ⟨T, E, hrep, hpages⟩ := h.pages
  obtain ⟨S, hS⟩ := exists_tablesInUse T
  exact ⟨T, E, _, hrep, hpages, hunsplit, S, hS, rfl⟩

/-- **In the runs of a kernel that allocates with `pmm_alloc`** no descriptor is taken but for the
regions.
Source: `pmm.c` `pmm_add_region`, `pmm_alloc`
Kind: L -/
theorem pmmUnsplit_of_run {slabBuf : Addr} (hlo : 1536 < slabBuf.toNat)
    (hhi : slabBuf.toNat + 1568 ≤ 2 ^ 64)
    (h : KernelRun (fun alignment => alignment = basePageSize) slabBuf root m₀ p out M) :
    PmmUnsplit p := by
  induction h with
  | boot p hroot haligned hzero _ hp =>
      obtain ⟨p₀, hinit, hrep, hregions, -, -, hpolicy⟩ := pmmInitialize_desc p hlo hhi
      rw [hinit]
      refine ⟨hpolicy, ?_, ?_⟩
      · rw [hrep.slabFreecount_toNat, hregions]
        rfl
      · rw [hregions]
        exact Nat.zero_le _
  | addRegion base size hrun hadd _ _ _ ih =>
      obtain ⟨T, E, -, hpages⟩ := (kernelInv_of_run hlo hhi hrun).pages
      obtain ⟨tables, ⟨j, G, hinv⟩, -⟩ := hpages.pool
      exact ih.addRegion hinv.rep hadd
  | @alloc p p' out M e a size alignment ret hrun halign halloc ih =>
      subst halign
      obtain ⟨T, E, -, hpages⟩ := (kernelInv_of_run hlo hhi hrun).pages
      obtain ⟨tables, ⟨j, G, hinv⟩, -⟩ := hpages.pool
      by_cases hret : ret = 0
      · rw [pmmAllocAligned, if_pos hret] at halloc
        cases halloc
      obtain ⟨hj, hle⟩ := ih.descriptors hinv.rep
      obtain ⟨q, e', a', hq, ⟨G', hrep⟩, hpolicy, hlength, -⟩ :=
        hinv.pmmAlloc_returns hpages.recorded ih.policy hle size hret
      rw [pmmAlloc, halloc] at hq
      cases hq
      refine ⟨hpolicy, ?_, hlength ▸ ih.regions⟩
      rw [hrep.slabFreecount_toNat, hlength]
      omega
  | write a x v _ ha hx ih => exact ih.setMem _
  | @map p p' q out M m e va x ret hrun hva hret hq hmap ih =>
      obtain ⟨T, E, bytes, hrep, hpool⟩ := (kernelInv_of_run hlo hhi hrun).pool ih
      have hpool' : PagePool (slabBuf - 1536) root out bytes q T := by
        have hset := hpool.setMem q.mem
        rwa [← hq] at hset
      obtain ⟨T', E', -, ⟨q', hq', hpool', -⟩, -⟩ :=
        (tableSupply_pool (slabBuf - 1536) root out bytes _ hret).map (w := ⟨p.mem, some q⟩) hrep
          ⟨q, rfl, hpool', rfl⟩ va x.pa x.flags
      rw [hmap] at hq'
      obtain rfl : p' = q' := Option.some.inj hq'
      exact hpool'.unsplit.setMem m
  | unmap va _ hva ih => exact ih.setMem _

/-- **The descriptors are left alone**: the memory where they are is the one the run started from, as it
is in neither the root table nor a region.
Source: `pmm.c` `pmm_initialize`
Kind: L -/
theorem descriptors_of_run {slabBuf : Addr} (hlo : 1536 < slabBuf.toNat)
    (hhi : slabBuf.toNat + 1568 ≤ 2 ^ 64) (h : KernelRun C slabBuf root m₀ p out M) {x : Addr}
    (hx : x.toNat ∈ (slabExtent (slabBuf - 1536)).bytes) : p.mem x = m₀ x := by
  have hinv := kernelInv_of_run hlo hhi h
  refine hinv.untouched x ⟨fun hroot => ?_, fun e he hxe => ?_⟩
  · exact Finset.disjoint_left.mp hinv.slab.1 hroot hx
  · exact Finset.disjoint_left.mp (hinv.slab.2 e he) hx hxe

end runs

end Octiron.Kernel
