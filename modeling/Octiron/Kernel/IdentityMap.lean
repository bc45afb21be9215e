import Octiron.Found.Loops
import Octiron.Kernel.Translate
import Octiron.Kzadhbat.Bitmacros

/-!
# Identity mappings

`entry.c`: `kernel_id_map_range` maps the pages of a range to themselves. The ranges that `kinit` maps
share their intermediate tables.

* `idMapPage` — the body of the loop, and `kernelIdMapRange`, `kernelIdMapRanges` — one call, and a call
  for each of a list of ranges.
* `IdRange.requests` — the pages of a range with its flags. A run over ranges is a run over the requests
  of all of them (`kernelIdMapRanges_eq`), whichever range a page comes from.
* `TablesSupplied` — enough memory: every table that the run needs can be had.
* `mapRequests_spec` — after a run over requests for different unmapped pages, each is mapped to itself
  with its flags and no other page has changed.
* **Main result** (`kernelIdMapRanges_exact`): the pages of the ranges are mapped to themselves, with the
  flags of their ranges, and no other page is mapped.
-/

namespace Octiron.Kernel

open Octiron.Found
open Octiron.Found.Mem
open Octiron.Kzadhbat

variable {σ : Type}

/-! ## The code -/

/-- A loop over pages has come to every page after this many rounds.
Source: none: infrastructure
Kind: D -/
def pageRounds : ℕ := 2 ^ 52

/-- Mapping one page to itself; `onFail` is what the loop does with an error.
Source: `entry.c` `kernel_id_map_range`, `device_tree.c` `dt_initialize`
Kind: D -/
def idMapPage {ε : Type} (pmmAlloc : PmmAlloc σ) (root : Addr) (flags : BitVec 64)
    (onFail : Errval → Option ε) (pa : Addr) (w : World σ) : World σ × Option ε :=
  let (w, err) := sv39Map pmmAlloc w root pa pa flags .page
  (w, if errIsFail err then onFail err else none)

/-- The assertions of `kernel_id_map_range`.
Source: `entry.c` `kernel_id_map_range`
Kind: D -/
inductive IdMapAssertion
  /-- "Start address must be less than end address" -/
  | startBelowEnd
  /-- "Failed to map address" -/
  | failedToMap (err : Errval)
  deriving DecidableEq

/-- `kernel_id_map_range`. A failed assertion does not return; without `ENABLE_ASSERTIONS` the loop goes
on after a page that it could not map.
Source: `entry.c` `kernel_id_map_range`
Kind: D
Fidelity: exact -/
def kernelIdMapRange (pmmAlloc : PmmAlloc σ) (assertions : Bool) (root start stop : Addr)
    (flags : BitVec 64) (w : World σ) : World σ × LoopEnd IdMapAssertion :=
  let alignedStart := alignDown start basePageSize
  let alignedEnd := alignUp stop basePageSize
  if assertions = true ∧ ¬ alignedStart < alignedEnd then (w, .left .startBelowEnd)
  else
    countLoop basePageSize alignedEnd
      (idMapPage pmmAlloc root flags fun err => if assertions then some (.failedToMap err) else none)
      pageRounds alignedStart w

/-- The arguments of a call.
Source: `entry.c` `kernel_id_map_range`
Kind: D -/
structure IdRange where
  start : Addr
  stop : Addr
  flags : BitVec 64

/-- One call after the other.
Source: `entry.c` `kinit`
Kind: D -/
def kernelIdMapRanges (pmmAlloc : PmmAlloc σ) (assertions : Bool) (root : Addr) :
    List IdRange → World σ → World σ × LoopEnd IdMapAssertion
  | [], w => (w, .finished)
  | r :: l, w =>
      match kernelIdMapRange pmmAlloc assertions root r.start r.stop r.flags w with
      | (w, .finished) => kernelIdMapRanges pmmAlloc assertions root l w
      | stuck => stuck

/-! ## Ranges and requests -/

/-- What `kinit` promises of a range: an address below the end, an end in the lower half of the address
space, and flags that make a leaf.
Source: `entry.c` `kinit`
Kind: D -/
structure IdRange.Ok (r : IdRange) : Prop where
  lt : r.start.toNat < r.stop.toNat
  le : r.stop.toNat ≤ 2 ^ 38
  flags : LeafFlags r.flags

/-- The page-rounded extent of a range.
Source: `entry.c` `kernel_id_map_range`
Kind: D -/
def IdRange.Covers (r : IdRange) (va : Addr) : Prop :=
  alignDown r.start basePageSize ≤ va ∧ va < alignUp r.stop basePageSize

instance (r : IdRange) (va : Addr) : Decidable (r.Covers va) := inferInstanceAs (Decidable (_ ∧ _))

/-- The number of pages of a range. Source: none: infrastructure. Kind: D -/
def IdRange.pageCount (r : IdRange) : ℕ :=
  ((alignUp r.stop basePageSize).toNat - (alignDown r.start basePageSize).toNat) / 4096

/-- **The pages of a range, with its flags**.
Source: none: infrastructure
Kind: D -/
def IdRange.requests (r : IdRange) : List (Addr × BitVec 64) :=
  (counts basePageSize r.pageCount (alignDown r.start basePageSize)).map fun va => (va, r.flags)

/-- **Enough memory**: each `pmm_alloc` of the run returns a fresh zeroed page.
Source: none: what `kernel_id_map_range` relies on
Kind: D -/
def TablesSupplied (pmmAlloc : PmmAlloc σ) (root : Addr) :
    List (Addr × BitVec 64) → World σ → Prop
  | [], _ => True
  | p :: l, w =>
      PmmCallsOk pmmAlloc root w p.1 ∧ tablesAvailable pmmAlloc w root p.1 = true ∧
        TablesSupplied pmmAlloc root l (sv39Map pmmAlloc w root p.1 p.1 p.2 .page).1

section ranges

variable {r : IdRange}

/-- The extent of a range as integers.
Source: none: infrastructure
Kind: L -/
theorem IdRange.Ok.extent (h : r.Ok) :
    (alignDown r.start basePageSize).toNat = r.start.toNat / 4096 * 4096 ∧
      (alignUp r.stop basePageSize).toNat = (r.stop.toNat + 4095) / 4096 * 4096 := by
  have hle := h.le
  exact ⟨alignDown_page_toNat _, alignUp_page_toNat (by omega)⟩

/-- The pages are those from the start of the extent to its end.
Source: none: infrastructure
Kind: L -/
theorem IdRange.Ok.pageCount (h : r.Ok) :
    (alignDown r.start basePageSize).toNat + r.pageCount * 4096 =
        (alignUp r.stop basePageSize).toNat ∧
      (alignUp r.stop basePageSize).toNat ≤ 2 ^ 38 ∧ 0 < r.pageCount ∧ r.pageCount ≤ 2 ^ 26 := by
  obtain ⟨hdown, hup⟩ := h.extent
  have hlt := h.lt
  have hle := h.le
  unfold IdRange.pageCount
  rw [hdown, hup]
  omega

/-- Source: none: infrastructure. Kind: L -/
theorem IdRange.Ok.fit (h : r.Ok) :
    (alignDown r.start basePageSize).toNat + r.pageCount * basePageSize.toNat < 2 ^ 64 := by
  obtain ⟨hsum, hle, -⟩ := h.pageCount
  rw [basePageSize_toNat]
  omega

/-- **The requests of a range** are the page-aligned addresses of its extent.
Source: none: infrastructure
Kind: L -/
theorem IdRange.Ok.mem_requests_iff (h : r.Ok) {va : Addr} {flags : BitVec 64} :
    (va, flags) ∈ r.requests ↔ (PageAligned va ∧ r.Covers va) ∧ flags = r.flags := by
  obtain ⟨hsum, -, -⟩ := h.pageCount
  have hdown := h.extent.1
  rw [IdRange.requests, List.mem_map, pageAligned_iff, IdRange.Covers, BitVec.le_def, BitVec.lt_def,
    ← hsum]
  constructor
  · rintro ⟨va', hmem, heq⟩
    cases heq
    obtain ⟨i, hi, hva⟩ := (mem_counts_iff h.fit).mp hmem
    rw [basePageSize_toNat] at hva
    refine ⟨⟨?_, ?_, ?_⟩, rfl⟩
    · omega
    · omega
    · omega
  · rintro ⟨⟨haligned, hle, hlt⟩, rfl⟩
    refine ⟨va, (mem_counts_iff h.fit).mpr ?_, rfl⟩
    refine ⟨(va.toNat - (alignDown r.start basePageSize).toNat) / 4096, ?_, ?_⟩
    · omega
    · rw [basePageSize_toNat]
      omega

/-- A page of a range is a page of the lower half.
Source: none: infrastructure
Kind: L -/
theorem IdRange.Ok.lt_of_covers (h : r.Ok) {va : Addr} (hva : r.Covers va) : va.toNat < 2 ^ 38 := by
  obtain ⟨-, hle, -⟩ := h.pageCount
  have hlt := hva.2
  rw [BitVec.lt_def] at hlt
  omega

/-- Source: none: infrastructure. Kind: L -/
theorem virtualPage_of_lt {va : Addr} (haligned : PageAligned va) (hlt : va.toNat < 2 ^ 38) :
    VirtualPage va := by
  have hbits := (toNat_lt_two_pow_iff va 38).mp hlt
  refine ⟨fun i hi _ => ?_, haligned⟩
  rw [hbits i (by omega), hbits 38 le_rfl]

/-- Ranges with disjoint extents have requests for different pages.
Source: none: infrastructure
Kind: L -/
theorem nodup_requests {ranges : List IdRange} (hok : ∀ r ∈ ranges, r.Ok)
    (hdisj : ranges.Pairwise fun r r' => ∀ va, r.Covers va → ¬ r'.Covers va) :
    ((ranges.flatMap IdRange.requests).map Prod.fst).Nodup := by
  induction ranges with
  | nil => exact List.nodup_nil
  | cons r l ih =>
      obtain ⟨hr, hl⟩ := List.pairwise_cons.mp hdisj
      have hrok := hok r List.mem_cons_self
      have hlok : ∀ r ∈ l, r.Ok := fun r' hr' => hok r' (List.mem_cons_of_mem r hr')
      have hfst : r.requests.map Prod.fst =
          counts basePageSize r.pageCount (alignDown r.start basePageSize) := by
        simp [IdRange.requests, Function.comp_def]
      rw [List.flatMap_cons, List.map_append, List.nodup_append]
      refine ⟨?_, ih hlok hl, ?_⟩
      · rw [hfst]
        exact nodup_counts (by decide) hrok.fit
      · intro va hva va' hva' heq
        subst heq
        obtain ⟨p, hp, rfl⟩ := List.mem_map.mp hva
        obtain ⟨q, hq, hpq⟩ := List.mem_map.mp hva'
        obtain ⟨r', hr', hq'⟩ := List.mem_flatMap.mp hq
        have hcover := (hrok.mem_requests_iff.mp hp).1.2
        have hcover' := ((hlok r' hr').mem_requests_iff.mp hq').1.2
        rw [hpq] at hcover'
        exact hr r' hr' p.1 hcover hcover'

end ranges

/-! ## Runs over requests -/

section runs

variable {ε : Type} {pmmAlloc : PmmAlloc σ} {w : World σ} {root : Addr} {M : PageMap}

/-- Mapping a requested page to itself.
Source: none: infrastructure
Kind: D -/
def mapRequest (pmmAlloc : PmmAlloc σ) (root : Addr) (onFail : Errval → Option ε)
    (p : Addr × BitVec 64) : World σ → World σ × Option ε :=
  idMapPage pmmAlloc root p.2 onFail p.1

/-- The pages of `l` are free and can be mapped to themselves.
Source: none: infrastructure
Kind: D -/
structure RequestsOk (M : PageMap) (l : List (Addr × BitVec 64)) : Prop where
  page : ∀ p ∈ l, VirtualPage p.1
  lt : ∀ p ∈ l, p.1.toNat < 2 ^ 56
  flags : ∀ p ∈ l, LeafFlags p.2
  nodup : (l.map Prod.fst).Nodup
  free : ∀ p ∈ l, M p.1 = none

/-- **Runs over requests**: every page is mapped to itself with its flags, and no other page changes.
Source: none: infrastructure
Kind: P -/
theorem mapRequests_spec (onFail : Errval → Option ε) {l : List (Addr × BitVec 64)}
    (h : MapRep w.mem root M) (hl : RequestsOk M l) (hsupply : TablesSupplied pmmAlloc root l w) :
    ∃ w' M', runEach (mapRequest pmmAlloc root onFail) l w = (w', none) ∧ MapRep w'.mem root M' ∧
      (∀ p ∈ l, ∃ x, M' p.1 = some x ∧ x.pa = p.1 ∧ x.flags = p.2) ∧
      ∀ va, va ∉ l.map Prod.fst → M' va = M va := by
  induction l generalizing w M with
  | nil => exact ⟨w, M, rfl, h, fun p hp => absurd hp List.not_mem_nil, fun _ _ => rfl⟩
  | cons p l ih =>
      obtain ⟨hcalls, havail, hsupply⟩ := hsupply
      have hp : p ∈ p :: l := List.mem_cons_self
      obtain ⟨hfresh, hnodup⟩ := List.nodup_cons.mp hl.nodup
      -- the first page
      let x : Mapping := ⟨p.1, p.2, ⟨(hl.page p hp).aligned, hl.lt p hp⟩, hl.flags p hp⟩
      obtain ⟨hrep, -⟩ := h.map (hl.page p hp) x hcalls
      have herr : (sv39Map pmmAlloc w root p.1 p.1 p.2 .page).2 = GrouperError.ok.errval :=
        (h.mapRefines (hl.page p hp) x hcalls).ok_iff.mpr ⟨hl.free p hp, havail⟩
      rw [havail, PageMap.map_of_unmapped (hl.free p hp)] at hrep
      have hbody : mapRequest pmmAlloc root onFail p w =
          ((sv39Map pmmAlloc w root p.1 p.1 p.2 .page).1, none) := by
        have hok : errIsFail GrouperError.ok.errval = false := by decide
        simp [mapRequest, idMapPage, herr, hok]
      -- the other pages are still free
      have hne : ∀ q ∈ l, q.1 ≠ p.1 := fun q hq heq =>
        hfresh (heq ▸ List.mem_map_of_mem hq)
      have hl' : RequestsOk (Function.update M p.1 (some x)) l := by
        refine ⟨fun q hq => hl.page q (List.mem_cons_of_mem p hq),
          fun q hq => hl.lt q (List.mem_cons_of_mem p hq),
          fun q hq => hl.flags q (List.mem_cons_of_mem p hq), hnodup, fun q hq => ?_⟩
        rw [Function.update_of_ne (hne q hq)]
        exact hl.free q (List.mem_cons_of_mem p hq)
      obtain ⟨w', M', hrun, hrep', hmapped, hother⟩ := ih hrep hl' hsupply
      refine ⟨w', M', ?_, hrep', ?_, ?_⟩
      · rw [runEach_cons_of_none hbody, hrun]
      · intro q hq
        rcases List.mem_cons.mp hq with rfl | hq
        · refine ⟨x, ?_, rfl, rfl⟩
          rw [hother _ hfresh, Function.update_self]
        · exact hmapped q hq
      · intro va hva
        rw [List.map_cons, List.mem_cons, not_or] at hva
        rw [hother va hva.2, Function.update_of_ne hva.1]

/-- What `kernel_id_map_range` does with an error.
Source: `entry.c` `kernel_id_map_range`
Kind: D -/
def idMapOnFail (assertions : Bool) (err : Errval) : Option IdMapAssertion :=
  if assertions then some (.failedToMap err) else none

/-- One call, as a run over its requests.
Source: `entry.c` `kernel_id_map_range`
Kind: L -/
theorem kernelIdMapRange_eq {r : IdRange} (h : r.Ok) (assertions : Bool) (w : World σ) :
    kernelIdMapRange pmmAlloc assertions root r.start r.stop r.flags w =
      ((runEach (mapRequest pmmAlloc root (idMapOnFail assertions)) r.requests w).1,
        .ofOption (runEach (mapRequest pmmAlloc root (idMapOnFail assertions)) r.requests w).2) := by
  obtain ⟨hsum, hle, hpos, hcount⟩ := h.pageCount
  have hlt : alignDown r.start basePageSize < alignUp r.stop basePageSize := by
    rw [BitVec.lt_def]
    omega
  rw [IdRange.requests, runEach_map]
  have hrounds : r.pageCount < pageRounds := by
    unfold pageRounds
    omega
  have hstop : (alignUp r.stop basePageSize).toNat ≤
      (alignDown r.start basePageSize).toNat + r.pageCount * basePageSize.toNat := by
    rw [basePageSize_toNat]
    omega
  have hbefore : ∀ i < r.pageCount, (alignDown r.start basePageSize).toNat +
      i * basePageSize.toNat < (alignUp r.stop basePageSize).toNat := by
    intro i hi
    rw [basePageSize_toNat]
    omega
  unfold kernelIdMapRange
  dsimp only
  rw [if_neg (fun hh => hh.2 hlt), countLoop_eq_runEach hrounds h.fit hstop hbefore]
  rfl

/-- **One call after the other**, as a run over all requests.
Source: `entry.c` `kinit`
Kind: L -/
theorem kernelIdMapRanges_runEach {ranges : List IdRange} (hok : ∀ r ∈ ranges, r.Ok)
    (assertions : Bool) (w : World σ) :
    kernelIdMapRanges pmmAlloc assertions root ranges w =
      ((runEach (mapRequest pmmAlloc root (idMapOnFail assertions))
          (ranges.flatMap IdRange.requests) w).1,
        .ofOption (runEach (mapRequest pmmAlloc root (idMapOnFail assertions))
          (ranges.flatMap IdRange.requests) w).2) := by
  induction ranges generalizing w with
  | nil => rfl
  | cons r l ih =>
      rw [List.flatMap_cons, kernelIdMapRanges,
        kernelIdMapRange_eq (hok r List.mem_cons_self) assertions w]
      rcases hfirst : runEach (mapRequest pmmAlloc root (idMapOnFail assertions)) r.requests w with
        ⟨t, _ | e⟩
      · rw [runEach_append_of_none hfirst]
        exact ih (fun r' hr' => hok r' (List.mem_cons_of_mem r hr')) t
      · rw [runEach_append_of_some hfirst]
        rfl

/-- A run over all requests that is not left.
Source: `entry.c` `kinit`
Kind: L -/
theorem kernelIdMapRanges_eq {ranges : List IdRange} (hok : ∀ r ∈ ranges, r.Ok) (assertions : Bool)
    {w' : World σ}
    (hrun : runEach (mapRequest pmmAlloc root fun err =>
      if assertions then some (IdMapAssertion.failedToMap err) else none)
      (ranges.flatMap IdRange.requests) w = (w', none)) :
    kernelIdMapRanges pmmAlloc assertions root ranges w = (w', .finished) := by
  have hrun' : runEach (mapRequest pmmAlloc root (idMapOnFail assertions))
    (ranges.flatMap IdRange.requests) w = (w', none) := hrun
  rw [kernelIdMapRanges_runEach hok, hrun']
  rfl

end runs

/-! ## The identity mapping is exact -/

section exact

variable {pmmAlloc : PmmAlloc σ} {w : World σ} {root : Addr} {ranges : List IdRange}

/-- **The address space of the ranges**: `sv39_virt_to_phys` takes the pages of the extents to
themselves and finds no other page, and the flags of a leaf are those of the range.
Source: `entry.c` `kinit` (the checks of the mappings)
Kind: D -/
structure IdMapped (ranges : List IdRange) (m : Mem) (root : Addr) : Prop where
  covered : ∀ r ∈ ranges, ∀ va, PageAligned va → r.Covers va →
    sv39VirtToPhys m root va = some (some va) ∧
      ∃ pte, sv39Walk m va 2 root = some (0, pte) ∧
        pte &&& lowMask 64 10 = r.flags ||| sv39FlagsValid
  free : ∀ va, PageAligned va → va.toNat < 2 ^ 38 → (∀ r ∈ ranges, ¬ r.Covers va) →
    sv39VirtToPhys m root va = some none

/-- The requests of disjoint ranges, on an empty address space.
Source: none: infrastructure
Kind: L -/
theorem requestsOk_of_ranges (hok : ∀ r ∈ ranges, r.Ok)
    (hdisj : ranges.Pairwise fun r r' => ∀ va, r.Covers va → ¬ r'.Covers va) :
    RequestsOk (fun _ => none) (ranges.flatMap IdRange.requests) := by
  have hmem : ∀ p ∈ ranges.flatMap IdRange.requests, ∃ r ∈ ranges,
      PageAligned p.1 ∧ p.1.toNat < 2 ^ 38 ∧ p.2 = r.flags := by
    intro p hp
    obtain ⟨r, hr, hpr⟩ := List.mem_flatMap.mp hp
    obtain ⟨⟨haligned, hcover⟩, hflags⟩ := (hok r hr).mem_requests_iff.mp hpr
    exact ⟨r, hr, haligned, (hok r hr).lt_of_covers hcover, hflags⟩
  refine ⟨fun p hp => ?_, fun p hp => ?_, fun p hp => ?_, nodup_requests hok hdisj, fun _ _ => rfl⟩
  · obtain ⟨r, -, haligned, hlt, -⟩ := hmem p hp
    exact virtualPage_of_lt haligned hlt
  · obtain ⟨r, -, -, hlt, -⟩ := hmem p hp
    exact hlt.trans (by norm_num)
  · obtain ⟨r, hr, -, -, hflags⟩ := hmem p hp
    rw [hflags]
    exact (hok r hr).flags

/-- A map that has the requests and nothing else is the address space of the ranges.
Source: none: infrastructure
Kind: L -/
theorem idMapped_of_mapRep {m : Mem} {M : PageMap} (h : MapRep m root M) (hok : ∀ r ∈ ranges, r.Ok)
    (hmapped : ∀ p ∈ ranges.flatMap IdRange.requests,
      ∃ x, M p.1 = some x ∧ x.pa = p.1 ∧ x.flags = p.2)
    (hother : ∀ va, va ∉ (ranges.flatMap IdRange.requests).map Prod.fst → M va = none) :
    IdMapped ranges m root := by
  -- what is proved about memory is stated for worlds
  have hw : MapRep (World.mk m ()).mem root M := h
  constructor
  · intro r hr va haligned hcover
    have hpage := virtualPage_of_lt haligned ((hok r hr).lt_of_covers hcover)
    have hreq : (va, r.flags) ∈ ranges.flatMap IdRange.requests :=
      List.mem_flatMap.mpr ⟨r, hr, (hok r hr).mem_requests_iff.mpr ⟨⟨haligned, hcover⟩, rfl⟩⟩
    obtain ⟨x, hx, hpa, hflags⟩ := hmapped _ hreq
    dsimp only at hx hpa hflags
    refine ⟨?_, x.entry, ?_, ?_⟩
    · have hoff : (0 : BitVec 64).toNat < 4096 := by decide
      have hphys := (sv39VirtToPhys_mapped_iff hw hpage hx hoff).mpr
        ⟨rfl, fun h12 => by rwa [hpa]⟩
      have hzero : ∀ a : Addr, a + 0 = a := BitVec.add_zero
      rwa [hzero, hzero, hpa] at hphys
    · have hwalk := hw.walk hpage
      rwa [hx] at hwalk
    · rw [Mapping.entry, sv39LeafEntry_flags x.page x.leafFlags, hflags]
  · intro va haligned hlt hnone
    have hpage := virtualPage_of_lt haligned hlt
    have hfree : M va = none := by
      apply hother
      intro hmem
      obtain ⟨p, hp, rfl⟩ := List.mem_map.mp hmem
      obtain ⟨r, hr, hpr⟩ := List.mem_flatMap.mp hp
      exact hnone r hr ((hok r hr).mem_requests_iff.mp hpr).1.2
    have hwalk := hw.walk hpage
    rw [hfree] at hwalk
    rw [sv39VirtToPhys, sv39VirtToPhysLoop_of_none hwalk]

/-- **Mapping disjoint ranges is exact**, in any order and with shared tables: no page fails to map, the
pages of the extents are mapped to themselves with the flags of their ranges, and nothing else is
mapped.
Source: `entry.c` `kernel_id_map_range`, `kinit`
Kind: P
Fidelity: exact
Hyps: `pmm_alloc` returns a fresh zeroed page in every call -/
theorem kernelIdMapRanges_exact (assertions : Bool) (hroot : root ≠ 0) (haligned : PageAligned root)
    (hzero : PageZero w.mem root) (hok : ∀ r ∈ ranges, r.Ok)
    (hdisj : ranges.Pairwise fun r r' => ∀ va, r.Covers va → ¬ r'.Covers va)
    (hsupply : TablesSupplied pmmAlloc root (ranges.flatMap IdRange.requests) w) :
    ∃ w', kernelIdMapRanges pmmAlloc assertions root ranges w = (w', .finished) ∧
      IdMapped ranges w'.mem root := by
  have hrep : MapRep w.mem root fun _ => none :=
    ⟨hroot, _, _, tablesRep_zero haligned hzero, fun _ _ => rfl⟩
  obtain ⟨w', M', hrun, hrep', hmapped, hother⟩ := mapRequests_spec
    (fun err => if assertions then some (IdMapAssertion.failedToMap err) else none) hrep
    (requestsOk_of_ranges hok hdisj) hsupply
  exact ⟨w', kernelIdMapRanges_eq hok assertions hrun, idMapped_of_mapRep hrep' hok hmapped hother⟩

/-! ## An allocator with two pages -/

/-- The bump allocator with free pages below `limit` only.
Source: none: a `pmm_alloc` for the example run
Kind: D -/
def pageBumpBelow (limit : Addr) : PmmAlloc Addr := fun next m size =>
  if next < limit then pageBump next m size
  else ⟨GrouperError.pmmOutOfMemory.errval, 0, next, m⟩

/-- An allocator that fails and changes nothing meets what paging needs.
Source: none: infrastructure
Kind: L -/
theorem pmmCallsOk_of_fails {err : Errval} {ret : Addr} (herr : errIsFail err = true) (va : Addr)
    (h : pmmAlloc w.pmm w.mem sizeofSv39PageTable = ⟨err, ret, w.pmm, w.mem⟩) :
    PmmCallsOk pmmAlloc root w va := by
  have hok : PmmAllocOk pmmAlloc root w := by
    refine ⟨fun level t _ i _ => ?_, fun hsucc => ?_⟩
    · rw [h]
    · rw [h, herr] at hsucc
      cases hsucc
  have hafter : afterL1 pmmAlloc w root va = w := by
    unfold afterL1 sv39SetupTable
    rw [h]
    split_ifs
    · rfl
    · dsimp only
      rw [if_pos herr]
  exact ⟨hok, by rwa [hafter]⟩

/-- Source: none: infrastructure. Kind: L -/
theorem PmmAllocOk.congr {pmmAlloc' : PmmAlloc σ} (h : PmmAllocOk pmmAlloc root w)
    (heq : pmmAlloc' w.pmm w.mem sizeofSv39PageTable = pmmAlloc w.pmm w.mem sizeofSv39PageTable) :
    PmmAllocOk pmmAlloc' root w := by
  constructor
  · rw [heq]
    exact h.tables
  · rw [heq]
    exact h.page

/-- The tables of a page are there if another page of the same level-0 table is mapped.
Source: none: infrastructure
Kind: L -/
theorem MapRep.tablesAvailable {M : PageMap} (h : MapRep w.mem root M) {va va' : Addr}
    (hva : VirtualPage va) (hmapped : M va ≠ none) (h2 : vpn va' 2 = vpn va 2)
    (h1 : vpn va' 1 = vpn va 1) : tablesAvailable pmmAlloc w root va' = true := by
  obtain ⟨-, T, A, hrep, hA⟩ := h
  obtain ⟨x, hx⟩ := Option.ne_none_iff_exists'.mp hmapped
  rw [← hA va hva, pageIndex] at hx
  obtain ⟨-, t₀, ht₀, -⟩ := hrep.leaf_some hx
  obtain ⟨-, t, ht, -⟩ := hrep.link_some rfl ht₀
  have hl1 := hrep.entries.valid_link (n := .l0 (vpn va 2) (vpn va 1)) rfl
    (vpn_lt va 1 (by norm_num)) ht
  have hentry : tableEntry w.mem root (vpn va 2) = sv39TableEntry t :=
    hrep.entries.entry_link rfl hrep.root_eq ht
  have hpage := hrep.page (by simp) ht
  unfold Kernel.tablesAvailable
  simp [h2, h1, hentry, hl1, ht₀, sv39PtePpnToPaddr_tableEntry hpage]

end exact

/-- Two ranges with pages in one level-0 table; neither starts and ends at a page.
Source: none: infrastructure
Kind: D -/
def twoRanges : List IdRange := [⟨0x80200000, 0x80200800, 0xA⟩, ⟨0x80201234, 0x80202000, 0x2⟩]

/-- Source: none: infrastructure. Kind: L -/
theorem requests_twoRanges :
    twoRanges.flatMap IdRange.requests = [(0x80200000, 0xA), (0x80201000, 0x2)] := by decide

/-- The world after the first page of the two ranges: both free pages are tables.
Source: none: infrastructure
Kind: D -/
def firstPageWorld : World Addr :=
  (sv39Map (pageBumpBelow 0x80003000) bootWorld 0x80000000 0x80200000 0x80200000 0xA .page).1

/-- The two `pmm_alloc` calls of the first page.
Source: none: infrastructure
Kind: L -/
theorem pmmCallsOk_firstPage :
    PmmCallsOk (pageBumpBelow 0x80003000) 0x80000000 bootWorld 0x80200000 := by
  have hbump : ∀ next m size, next < (0x80003000 : Addr) →
      pageBumpBelow 0x80003000 next m size = pageBump next m size :=
    fun next m size h => if_pos h
  have hafter : afterL1 (pageBumpBelow 0x80003000) bootWorld 0x80000000 0x80200000 =
      afterL1 pageBump bootWorld 0x80000000 0x80200000 := by
    unfold afterL1 sv39SetupTable
    rw [hbump _ _ _ (by decide)]
  have hnext : (afterL1 pageBump bootWorld 0x80000000 0x80200000).pmm = 0x80002000 := by rfl
  obtain ⟨hfirst, hsecond⟩ := pmmCallsOk_bootWorld
  refine ⟨hfirst.congr (hbump _ _ _ (by decide)), ?_⟩
  rw [hafter]
  refine hsecond.congr (hbump _ _ _ ?_)
  rw [hnext]
  decide

/-- The two free pages are enough for the tables of both ranges.
Source: none: infrastructure
Kind: L -/
theorem tablesSupplied_twoRanges :
    TablesSupplied (pageBumpBelow 0x80003000) 0x80000000 (twoRanges.flatMap IdRange.requests)
      bootWorld := by
  have hnext : firstPageWorld.pmm = 0x80003000 := by rfl
  have havail : tablesAvailable (pageBumpBelow 0x80003000) bootWorld 0x80000000 0x80200000 = true := by
    rfl
  have hempty : pageBumpBelow 0x80003000 firstPageWorld.pmm firstPageWorld.mem sizeofSv39PageTable =
      ⟨GrouperError.pmmOutOfMemory.errval, 0, firstPageWorld.pmm, firstPageWorld.mem⟩ := by
    rw [hnext]
    rfl
  have hrep := (mapRep_of_run sv39Run_bootWorld).map virtualPage_0x80200000
    ⟨0x80200000, 0xA, ⟨by decide, by decide⟩, by decide, by decide⟩ pmmCallsOk_firstPage
  have hmapped : MapRep firstPageWorld.mem 0x80000000 _ := hrep.1
  rw [requests_twoRanges]
  refine ⟨pmmCallsOk_firstPage, havail, pmmCallsOk_of_fails (by decide) _ hempty, ?_, trivial⟩
  refine hmapped.tablesAvailable virtualPage_0x80200000 ?_ (by decide) (by decide)
  rw [havail, PageMap.map_of_unmapped rfl, Function.update_self]
  exact Option.some_ne_none _

/-- Two unaligned ranges that share a level-0 table.
Source: none: infrastructure
Kind: C -/
theorem kernelIdMapRanges_exact_twoRanges :
    ∃ w', kernelIdMapRanges (pageBumpBelow 0x80003000) true 0x80000000 twoRanges bootWorld =
        (w', .finished) ∧ IdMapped twoRanges w'.mem 0x80000000 := by
  refine kernelIdMapRanges_exact true (by decide) (by decide) (fun _ _ => rfl) ?_ ?_
    tablesSupplied_twoRanges
  · intro r hr
    rcases List.mem_cons.mp hr with rfl | hr
    · exact ⟨by decide, by decide, by decide, by decide⟩
    · rw [List.mem_singleton.mp hr]
      exact ⟨by decide, by decide, by decide, by decide⟩
  · refine List.pairwise_pair.mpr ?_
    intro va hva hva'
    have hend : va < 0x80201000 := hva.2
    have hstart : 0x80201000 ≤ va := hva'.1
    exact absurd hend (BitVec.not_lt.mpr hstart)

end Octiron.Kernel
