import Octiron.Kernel.PmmDescriptors

/-!
# Descriptors over runs of the physical memory manager

* `PmmOp`, `PmmReach C` — runs of `pmm_add_region`, `pmm_alloc_aligned` and `pmm_remove_region` from
  `pmm_initialize`, every call meeting `C`.
* `PmmAccounts` — every descriptor of the slab is free in the slab or on exactly one free list.
* `PmmOp.LosesDescriptor` — the calls that hand a descriptor back, and the removals that leave a
  region in the array twice.
* **Main result** (`pmmAccounts_runs`): as long as no call of that kind is made the accounts are
  right, and a call breaks them exactly when it is of that kind.
-/

namespace Octiron.Kernel

open Octiron.Found
open Octiron.Found.Mem
open Octiron.Kzadhbat

/-! ## Runs -/

/-- The calls.
Source: `pmm.h`
Kind: D -/
inductive PmmOp
  | addRegion (base size : BitVec 64)
  | allocAligned (size alignment : BitVec 64) (ret : Addr)
  | removeRegion (base size : BitVec 64)

/-- The manager after a call that returns.
Source: `pmm.h`
Kind: D -/
def PmmOp.run (assertions : Bool) (p : Pmm) : PmmOp → Option Pmm
  | .addRegion base size => (pmmAddRegion p base size).map Prod.fst
  | .allocAligned size alignment ret => (pmmAllocAligned p size alignment ret).map Prod.fst
  | .removeRegion base size => (pmmRemoveRegion assertions p base size).map Prod.fst

/-- **Reachable states**: `pmm_initialize` with its slab at `slabBuf`, then any sequence of calls that
meet `C`.
Source: none: the runs of `pmm.c`
Kind: D -/
inductive PmmReach (C : Pmm → PmmOp → Prop) (assertions : Bool) (slabBuf : Addr) : Pmm → Prop
  | init (p : Pmm) : PmmReach C assertions slabBuf (pmmInitialize p slabBuf).1
  | step {p p' : Pmm} (op : PmmOp) : PmmReach C assertions slabBuf p → C p op →
      op.run assertions p = some p' → PmmReach C assertions slabBuf p'

/-- **The accounts of the descriptors**: the free count of the slab and the number of nodes on the
free lists add up to the slab's total, and no node is on two lists or on a list and in the slab.
Source: none: what the slab is for
Kind: D -/
def PmmAccounts (p : Pmm) : Prop :=
  ∃ G rs N, Chains 0 p.next (p.regions.map PmmRegion.freeBlocks) G ∧
    (slabFreecount p.blockAllocator).toNat + G.flatten.length =
      p.blockAllocator.slabs.total.toNat ∧
    IsChain 0 (regionNext p.blockAllocator.mem) p.blockAllocator.slabs.regions rs ∧
    Chains 0 (load64 p.blockAllocator.mem) (rs.map (regionBlocks p.blockAllocator.mem)) N ∧
    (G.flatten ++ N.flatten).Nodup

/-- **The calls after which a descriptor is missing or counted twice**: an allocation or a partial
removal that takes a whole block, and the removal of a whole region that is not the last.
Source: `pmm.c` `pmm_alloc_aligned`, `pmm_remove_region`
Kind: D -/
def PmmOp.LosesDescriptor (p : Pmm) : PmmOp → Prop
  | .addRegion _ _ => False
  | .allocAligned size alignment _ =>
      ¬ (alignment < basePageSize ∨ alignment &&& (alignment - 1) ≠ 0) ∧
      ¬ p.free < alignUp size basePageSize ∧ p.policy = .firstFit ∧
      ∃ i prev block,
        pmmFindBlock p (alignUp size basePageSize) alignment 0 p.regions =
          some (some (i, prev, block)) ∧
        PmmTakesAll (p.blocks block) (alignUp (p.blocks block).base alignment)
          (alignUp size basePageSize)
  | .removeRegion base size =>
      basePageSize ≤ alignUp size basePageSize ∧
      ((∃ i r, pmmRemoveFind p (alignDown base basePageSize) (alignUp size basePageSize) 0
          p.regions = some (.whole i r) ∧ i + 1 < p.regions.length) ∨
        ∃ i prev block, pmmRemoveFind p (alignDown base basePageSize) (alignUp size basePageSize) 0
            p.regions = some (.part i prev block) ∧
          PmmTakesAll (p.blocks block) (alignDown base basePageSize) (alignUp size basePageSize))

/-! ## Right accounts -/

/-- Every taken block of the slab is on a list, and every list has one.
Source: none: infrastructure
Kind: D -/
structure DescFull (b : Addr) (p : Pmm) (j : ℕ) (G : List (List Addr)) : Prop where
  rep : DescRep b p j G
  count : G.flatten.length = j
  ne_nil : ∀ ds ∈ G, ds ≠ []

section accounts

variable {b : Addr} {p p' : Pmm} {j : ℕ} {G : List (List Addr)}

/-- The nodes of the slab's chain come after the taken blocks.
Source: none: infrastructure
Kind: L -/
theorem DescRep.slabChain (h : DescRep b p j G) :
    IsChain 0 (load64 p.blockAllocator.mem) (regionBlocks p.blockAllocator.mem (above b 1536))
      (slabNodes b 24 j (64 - j + 1)) := by
  have hsize : p.blockAllocator.slabs.blocksize.toNat = 24 := by
    rw [h.blocksize]
    rfl
  have hchain := h.slab.chain fun i hi => by
    rw [hsize]
    exact pmmNode_ne_zero h.home hi
  rwa [hsize] at hchain

/-- Source: none: infrastructure. Kind: L -/
theorem DescRep.nodup_append_slabNodes (h : DescRep b p j G) :
    (G.flatten ++ slabNodes b 24 j (64 - j + 1)).Nodup := by
  rw [List.nodup_append]
  refine ⟨h.nodup, h.slabChain.nodup, ?_⟩
  rintro d hd e he rfl
  obtain ⟨i, hi, rfl⟩ := h.nodes d hd
  rw [slabNodes, List.mem_map] at he
  obtain ⟨k, hk, heq⟩ := he
  rw [List.mem_range'_1] at hk
  have hle := h.le
  have := pmmNode_inj h.home (show k ≤ 64 by omega) (show i ≤ 64 by omega) heq
  omega

/-- Source: none: infrastructure. Kind: L -/
theorem DescRep.total_toNat (h : DescRep b p j G) :
    p.blockAllocator.slabs.total.toNat = 64 := by
  rw [h.slab.total]
  rfl

/-- Source: none: infrastructure. Kind: L -/
theorem DescFull.accounts (h : DescFull b p j G) : PmmAccounts p := by
  have hle := h.rep.le
  refine ⟨G, [above b 1536], [slabNodes b 24 j (64 - j + 1)], h.rep.chains, ?_,
    h.rep.slab.regionChain, .cons h.rep.slabChain .nil, ?_⟩
  · rw [h.rep.slabFreecount_toNat, h.count, h.rep.total_toNat]
    omega
  · rw [List.flatten_singleton]
    exact h.rep.nodup_append_slabNodes

/-- The accounts are wrong when a taken block is on no list.
Source: none: infrastructure
Kind: L -/
theorem DescRep.not_accounts (h : DescRep b p j G) (hlt : G.flatten.length < j) :
    ¬ PmmAccounts p := by
  rintro ⟨G', rs, N, hchains, hcount, -⟩
  have hle := h.le
  rw [hchains.unique h.chains, h.slabFreecount_toNat, h.total_toNat] at hcount
  omega

/-- One list of a family is replaced by another one: the number of nodes.
Source: none: infrastructure
Kind: L -/
theorem length_flatten_replace {gpre gpost : List (List Addr)} {dpre dpost : List Addr}
    {block : Addr} (mid : List Addr) (hcount : (gpre ++ (dpre ++ block :: dpost) :: gpost).flatten.length = j) :
    (gpre ++ (dpre ++ mid ++ dpost) :: gpost).flatten.length + 1 = j + mid.length := by
  rw [List.flatten_append, List.flatten_cons] at hcount ⊢
  simp only [List.length_append, List.length_cons] at hcount ⊢
  omega

/-- Replacing a node of a list by some nodes.
Source: none: infrastructure
Kind: L -/
theorem DescFull.replace {gpre gpost : List (List Addr)} {dpre dpost mid : List Addr} {block : Addr}
    {j' : ℕ} (h : DescFull b p j (gpre ++ (dpre ++ block :: dpost) :: gpost))
    (hrep : DescRep b p' j' (gpre ++ (dpre ++ mid ++ dpost) :: gpost)) (hmid : mid ≠ [])
    (hj : j' + 1 = j + max 1 mid.length) :
    DescFull b p' j' (gpre ++ (dpre ++ mid ++ dpost) :: gpost) := by
  have hlen := length_flatten_replace mid h.count
  have hpos := List.length_pos_of_ne_nil hmid
  refine ⟨hrep, by omega, ?_⟩
  intro ds hds
  rw [List.mem_append, List.mem_cons] at hds
  rcases hds with hds | rfl | hds
  · exact h.ne_nil ds (List.mem_append_left _ hds)
  · simp [hmid]
  · exact h.ne_nil ds (List.mem_append_right _ (List.mem_cons_of_mem _ hds))

/-- What a call can come to, from right accounts: they stay right and the call is not one that loses
a descriptor, or the other way round.
Source: none: infrastructure
Kind: D -/
def DescStep (b : Addr) (p p' : Pmm) (op : PmmOp) : Prop :=
  (¬ op.LosesDescriptor p ∧ ∃ j G, DescFull b p' j G) ∨ (op.LosesDescriptor p ∧ ¬ PmmAccounts p')

/-- Taking nodes out of a list, or the whole of it.
Source: none: infrastructure
Kind: L -/
theorem DescFull.step_of_replace {gpre gpost : List (List Addr)} {dpre dpost mid : List Addr}
    {block : Addr} {j' : ℕ} {op : PmmOp}
    (h : DescFull b p j (gpre ++ (dpre ++ block :: dpost) :: gpost))
    (hrep : DescRep b p' j' (gpre ++ (dpre ++ mid ++ dpost) :: gpost))
    (hj : j' + 1 = j + max 1 mid.length) (hop : op.LosesDescriptor p ↔ mid = []) :
    DescStep b p p' op := by
  by_cases hmid : mid = []
  · refine Or.inr ⟨hop.mpr hmid, hrep.not_accounts ?_⟩
    have hlen := length_flatten_replace mid h.count
    subst hmid
    rw [List.length_nil] at hlen hj
    omega
  · exact Or.inl ⟨fun hl => hmid (hop.mp hl), j', _, h.replace hrep hmid hj⟩

/-- Source: none: infrastructure. Kind: L -/
theorem DescFull.step_addRegion (h : DescFull b p j G) {base size : BitVec 64} {e : Errval}
    (hrun : pmmAddRegion p base size = some (p', e)) :
    DescStep b p p' (.addRegion base size) := by
  refine Or.inl ⟨id, ?_⟩
  rcases pmmAddRegion_spec h.rep base size with ⟨e', hadd, -⟩ | ⟨q, hadd, -, -, hrep, -⟩
  · rw [hadd] at hrun
    cases hrun
    exact ⟨j, G, h⟩
  · rw [hadd] at hrun
    cases hrun
    refine ⟨j + 1, _, hrep, ?_, ?_⟩
    · rw [List.flatten_append, List.length_append, h.count]
      rfl
    · intro ds hds
      rcases List.mem_append.mp hds with hds | hds
      · exact h.ne_nil ds hds
      · rw [List.mem_singleton] at hds
        simp [hds]

/-- Nothing is left of a block exactly when the range takes all of it.
Source: none: infrastructure
Kind: L -/
theorem pmmPieces_eq_nil_iff (c : PmmBlock) (size alignment : BitVec 64) :
    pmmPieces c size alignment = [] ↔ PmmTakesAll c (alignUp c.base alignment) size := by
  unfold pmmPieces PmmTakesAll
  dsimp only
  by_cases hpre : c.base = alignUp c.base alignment
  · rw [if_neg (not_not.mpr hpre), List.nil_append]
    by_cases hpost : alignUp c.base alignment + size < c.base + c.size
    · rw [if_pos hpost]
      exact iff_of_false (List.cons_ne_nil _ _) fun h => h.2 hpost
    · rw [if_neg hpost]
      exact ⟨fun _ => ⟨hpre, hpost⟩, fun _ => rfl⟩
  · rw [if_pos hpre]
    exact iff_of_false (List.cons_ne_nil _ _) fun h => hpre h.1

/-- Source: none: infrastructure. Kind: L -/
theorem DescFull.step_allocAligned (h : DescFull b p j G) {size alignment : BitVec 64} {ret : Addr}
    {r : Errval × Addr} (hrun : pmmAllocAligned p size alignment ret = some (p', r)) :
    DescStep b p p' (.allocAligned size alignment ret) := by
  -- a call that stops before the carving changes nothing
  have hstop : p' = p → ¬ (PmmOp.allocAligned size alignment ret).LosesDescriptor p →
      DescStep b p p' (.allocAligned size alignment ret) := by
    rintro rfl hno
    exact Or.inl ⟨hno, j, G, h⟩
  unfold pmmAllocAligned at hrun
  dsimp only at hrun
  split_ifs at hrun with _ halign hfree hcount hpolicy
  · cases hrun
    exact hstop rfl fun hl => hl.1 halign
  · cases hrun
    exact hstop rfl fun hl => hl.2.1 hfree
  · cases hrun
    exact hstop rfl fun hl => hpolicy hl.2.2.1
  · rcases pmmFindBlock_spec (alignUp size basePageSize) alignment h.rep.chains 0 with
      hnone | ⟨i, prev, block, hfind, ⟨gpre, dpre, dpost, gpost, rfl, rfl, rfl⟩, -⟩
    · rw [hnone] at hrun
      cases hrun
      refine hstop rfl fun hl => ?_
      obtain ⟨i, prev, block, hfind, -⟩ := hl.2.2.2
      rw [hnone] at hfind
      cases hfind
    · have hj : j < 64 := by
        rw [BitVec.lt_def, h.rep.slabFreecount_toNat] at hcount
        change ¬ 64 - j < 16 at hcount
        omega
      obtain ⟨q, j', mid, htake, hrep, hpieces, -, hj', -⟩ :=
        pmmTakeBlock_spec h.rep hj (alignUp size basePageSize) alignment
      rw [Nat.zero_add] at hfind
      rw [hfind] at hrun
      dsimp only at hrun
      rw [htake] at hrun
      cases hrun
      refine h.step_of_replace ((hrep.pmmCharge _ _).congr rfl rfl fun _ _ => rfl) hj' ?_
      rw [← List.map_eq_nil_iff (f := q.range), hpieces, pmmPieces_eq_nil_iff]
      constructor
      · rintro ⟨-, -, -, i, prev, block', hfind', hall⟩
        rw [hfind] at hfind'
        cases hfind'
        exact hall
      · intro hall
        exact ⟨halign, hfree, not_not.mp hpolicy, _, _, _, hfind, hall⟩

/-! ## Removing a region -/

/-- What the shifting loop leaves: the last region is in the array twice.
Source: `pmm.c` `pmm_remove_region`
Kind: L -/
theorem pmmShiftLoop_append (pre : List PmmRegion) :
    ∀ (rest : List PmmRegion) (hrest : rest ≠ []),
      pmmShiftLoop (rest.length - 1) pre.length (pre ++ rest) =
        pre ++ rest.tail ++ [rest.getLast hrest]
  | [r], _ => by simp [pmmShiftLoop]
  | r :: r' :: rest, _ => by
      have hget : (pre ++ r :: r' :: rest)[pre.length + 1]? = some r' := by
        rw [List.getElem?_append_right (by omega)]
        simp
      have hset : (pre ++ r :: r' :: rest).set pre.length r' = (pre ++ [r']) ++ r' :: rest := by
        rw [List.set_append_right _ _ le_rfl]
        simp
      have hind := pmmShiftLoop_append (pre ++ [r']) (r' :: rest) (by simp)
      have hlen : (r :: r' :: rest).length - 1 = (r' :: rest).length - 1 + 1 := by simp
      rw [hlen, pmmShiftLoop, hget]
      dsimp only
      rw [hset, show pre.length + 1 = (pre ++ [r']).length by simp, hind]
      simp

/-- A region in the array twice has its descriptors on two lists.
Source: none: infrastructure
Kind: L -/
theorem not_accounts_of_twice {pre : List PmmRegion} {r : PmmRegion}
    (hregions : p.regions = pre ++ [r, r]) (hr : r.freeBlocks ≠ 0) : ¬ PmmAccounts p := by
  rintro ⟨G, rs, N, hchains, -, -, -, hnodup⟩
  have hlists := (List.nodup_append.mp hnodup).1
  rw [hregions, List.map_append] at hchains
  obtain ⟨gpre, gpost, rfl, -, hpost⟩ := hchains.split_heads
  obtain ⟨ds, ds', hds, hds', rfl⟩ : ∃ ds ds', IsChain 0 p.next r.freeBlocks ds ∧
      IsChain 0 p.next r.freeBlocks ds' ∧ gpost = [ds, ds'] := by
    cases hpost with
    | cons hds hpost =>
        cases hpost with
        | cons hds' hpost =>
            cases hpost
            exact ⟨_, _, hds, hds', rfl⟩
  rw [List.flatten_append, List.nodup_append] at hlists
  have htwice := hlists.2.1
  rw [List.flatten_cons, List.nodup_append, List.flatten_singleton] at htwice
  exact htwice.2.2 _ (hds.head_mem hr) _ (hds'.head_mem hr) rfl

/-- The head of a region's list.
Source: none: infrastructure
Kind: L -/
theorem DescFull.freeBlocks_mem (h : DescFull b p j G) {i : ℕ} {r : PmmRegion}
    (hr : p.regions[i]? = some r) : r.freeBlocks ∈ G.flatten := by
  have hmem : r.freeBlocks ∈ p.regions.map PmmRegion.freeBlocks :=
    List.mem_map_of_mem (List.mem_of_getElem? hr)
  obtain ⟨hpre, hpost, hheads⟩ := List.append_of_mem hmem
  have hchains := h.rep.chains
  rw [hheads] at hchains
  obtain ⟨gpre, gpost, rfl, -, hpost'⟩ := hchains.split_heads
  cases hpost' with
  | @cons _ ds _ gpost hds _ =>
      have hhead := hds.head_mem (hds.head_ne_null (h.ne_nil ds (by simp)))
      rw [List.flatten_append, List.flatten_cons]
      simp [hhead]

/-- Source: none: infrastructure. Kind: L -/
theorem DescFull.step_removeWhole (h : DescFull b p j G) {base size : BitVec 64} {i : ℕ}
    {r : PmmRegion} {e : Errval} (hr : p.regions[i]? = some r)
    (hrun : pmmRemoveWhole p i r = some (p', e))
    (hop : (PmmOp.removeRegion base size).LosesDescriptor p ↔ i + 1 < p.regions.length) :
    DescStep b p p' (.removeRegion base size) := by
  obtain ⟨hi, hget⟩ := List.getElem?_eq_some_iff.mp hr
  rw [pmmRemoveWhole, h.rep.pmmReturnBlock_eq (Or.inr (h.freeBlocks_mem hr)) rfl] at hrun
  cases hrun
  -- the regions from number `i` on
  have hsplit : p.regions.take i ++ p.regions.drop i = p.regions := List.take_append_drop i _
  have hlen : (p.regions.take i).length = i := by
    rw [List.length_take]
    omega
  have hdrop : (p.regions.drop i).length = p.regions.length - i := List.length_drop
  have hne : p.regions.drop i ≠ [] := by
    intro hnil
    rw [hnil, List.length_nil] at hdrop
    omega
  have hshift := pmmShiftLoop_append (p.regions.take i) (p.regions.drop i) hne
  rw [hsplit, hlen, hdrop, Nat.sub_right_comm] at hshift
  by_cases hlast : i + 1 < p.regions.length
  · refine Or.inr ⟨hop.mpr hlast, ?_⟩
    -- what is left of the regions from number `i` on ends with the last one, too
    have htail : (p.regions.drop i).tail ≠ [] := by
      intro hnil
      have := congrArg List.length hnil
      rw [List.length_tail, hdrop, List.length_nil] at this
      omega
    have hgetLast : (p.regions.drop i).tail.getLast htail = (p.regions.drop i).getLast hne :=
      List.getLast_tail htail
    have htwice : pmmShiftLoop (p.regions.length - 1 - i) i p.regions =
        p.regions.take i ++ (p.regions.drop i).tail.dropLast ++
          [(p.regions.drop i).getLast hne, (p.regions.drop i).getLast hne] := by
      rw [hshift]
      conv_lhs => rw [← List.dropLast_append_getLast htail, hgetLast]
      simp
    refine not_accounts_of_twice htwice ?_
    have hmem : (p.regions.drop i).getLast hne ∈ p.regions :=
      List.mem_of_mem_drop (List.getLast_mem hne)
    obtain ⟨k, hk⟩ := List.getElem?_of_mem hmem
    exact h.rep.ne_zero (h.freeBlocks_mem hk)
  · refine Or.inl ⟨fun hl => hlast (hop.mp hl), j, G, ?_, h.count, h.ne_nil⟩
    have hsame : pmmShiftLoop (p.regions.length - 1 - i) i p.regions = p.regions := by
      rw [show p.regions.length - 1 - i = 0 by omega]
      rfl
    exact h.rep.congr rfl (by rw [hsame]) fun _ _ => rfl

/-- Source: none: infrastructure. Kind: L -/
theorem DescFull.step_removeRegion (h : DescFull b p j G) {assertions : Bool} {base size : BitVec 64}
    {e : Errval} (hrun : pmmRemoveRegion assertions p base size = some (p', e)) :
    DescStep b p p' (.removeRegion base size) := by
  have hstop : p' = p → ¬ (PmmOp.removeRegion base size).LosesDescriptor p →
      DescStep b p p' (.removeRegion base size) := by
    rintro rfl hno
    exact Or.inl ⟨hno, j, G, h⟩
  unfold pmmRemoveRegion at hrun
  dsimp only at hrun
  split_ifs at hrun with _ hsize
  · rcases pmmRemoveFind_spec (alignDown base basePageSize) (alignUp size basePageSize)
        h.rep.chains 0 with
      hno | hno | ⟨i, r, hfind, hr, -⟩ |
        ⟨i, prev, block, hfind, ⟨gpre, dpre, dpost, gpost, rfl, rfl, rfl⟩, -⟩
    · rw [hno] at hrun
      cases hrun
      refine hstop rfl fun hl => ?_
      rcases hl.2 with ⟨i, r, hfind, -⟩ | ⟨i, prev, block, hfind, -⟩ <;> rw [hno] at hfind <;>
        cases hfind
    · rw [hno] at hrun
      cases hrun
      refine hstop rfl fun hl => ?_
      rcases hl.2 with ⟨i, r, hfind, -⟩ | ⟨i, prev, block, hfind, -⟩ <;> rw [hno] at hfind <;>
        cases hfind
    · rw [Nat.zero_add] at hfind
      rw [hfind] at hrun
      refine h.step_removeWhole hr hrun ⟨?_, fun hlast => ⟨hsize, Or.inl ⟨i, r, hfind, hlast⟩⟩⟩
      rintro ⟨-, ⟨i', r', hfind', hlast⟩ | ⟨i', prev, block, hfind', -⟩⟩
      · rw [hfind] at hfind'
        cases hfind'
        exact hlast
      · rw [hfind] at hfind'
        cases hfind'
    · rw [Nat.zero_add] at hfind
      rw [hfind] at hrun
      obtain ⟨q, e', j', mid, hremove, hrep, hj', hmid, -⟩ :=
        pmmRemoveBlock_desc h.rep (alignDown base basePageSize) (alignUp size basePageSize)
      dsimp only at hrun
      rw [hremove] at hrun
      cases hrun
      refine h.step_of_replace hrep hj' ?_
      rw [hmid]
      refine ⟨?_, fun hall => ⟨hsize, Or.inr ⟨_, _, _, hfind, hall⟩⟩⟩
      rintro ⟨-, ⟨i', r', hfind', -⟩ | ⟨i', prev, block', hfind', hall⟩⟩
      · rw [hfind] at hfind'
        cases hfind'
      · rw [hfind] at hfind'
        cases hfind'
        exact hall
  · cases hrun
    exact hstop rfl fun hl => hsize hl.1

/-! ## The accounts over runs -/

/-- **Step lemma**: a call that returns keeps the accounts right exactly when it is not one that
loses a descriptor.
Source: none: infrastructure
Kind: L -/
theorem DescFull.step (h : DescFull b p j G) {assertions : Bool} {op : PmmOp}
    (hrun : op.run assertions p = some p') : DescStep b p p' op := by
  cases op with
  | addRegion base size =>
      obtain ⟨⟨q, e⟩, hadd, rfl⟩ := Option.map_eq_some_iff.mp hrun
      exact h.step_addRegion hadd
  | allocAligned size alignment ret =>
      obtain ⟨⟨q, e⟩, halloc, rfl⟩ := Option.map_eq_some_iff.mp hrun
      exact h.step_allocAligned halloc
  | removeRegion base size =>
      obtain ⟨⟨q, e⟩, hremove, rfl⟩ := Option.map_eq_some_iff.mp hrun
      exact h.step_removeRegion hremove

/-- Source: none: infrastructure. Kind: L -/
theorem descFull_init (p : Pmm) {slabBuf : Addr} (hlo : 1536 < slabBuf.toNat)
    (hhi : slabBuf.toNat + 1568 ≤ 2 ^ 64) :
    DescFull (slabBuf - 1536) (pmmInitialize p slabBuf).1 0 [] := by
  obtain ⟨p', hinit, hrep, -⟩ := pmmInitialize_desc p hlo hhi
  rw [hinit]
  exact ⟨hrep, rfl, by simp⟩

/-- **Run lemma**: the accounts are right as long as no descriptor is lost.
Source: none: infrastructure
Kind: L -/
theorem descFull_of_reach {assertions : Bool} {slabBuf : Addr} (hlo : 1536 < slabBuf.toNat)
    (hhi : slabBuf.toNat + 1568 ≤ 2 ^ 64)
    (h : PmmReach (fun p op => ¬ op.LosesDescriptor p) assertions slabBuf p) :
    ∃ j G, DescFull (slabBuf - 1536) p j G := by
  induction h with
  | init p => exact ⟨0, [], descFull_init p hlo hhi⟩
  | step op _ hC hrun ih =>
      obtain ⟨j, G, hfull⟩ := ih
      rcases hfull.step hrun with ⟨-, hfull'⟩ | ⟨hloses, -⟩
      · exact hfull'
      · exact absurd hloses hC

/-- **The descriptors over runs.** In every state of a run in which no call loses a descriptor the
accounts are right; and from there a call that returns leaves them right exactly when it is not one
that loses a descriptor.
Source: `pmm.c`, `slab.c` `slab_free`
Kind: P
Fidelity: exact
Hyps: the static array `pmm_initial_region_slab` lies in the address space, and not in its first
1536 bytes -/
theorem pmmAccounts_runs {assertions : Bool} {slabBuf : Addr} (hlo : 1536 < slabBuf.toNat)
    (hhi : slabBuf.toNat + 1568 ≤ 2 ^ 64)
    (h : PmmReach (fun p op => ¬ op.LosesDescriptor p) assertions slabBuf p) :
    PmmAccounts p ∧ ∀ (op : PmmOp) (p' : Pmm), op.run assertions p = some p' →
      (PmmAccounts p' ↔ ¬ op.LosesDescriptor p) := by
  obtain ⟨j, G, hfull⟩ := descFull_of_reach hlo hhi h
  refine ⟨hfull.accounts, fun op p' hrun => ?_⟩
  rcases hfull.step hrun with ⟨hno, j', G', hfull'⟩ | ⟨hloses, hwrong⟩
  · exact iff_of_true hfull'.accounts hno
  · exact iff_of_false hwrong (not_not.mpr hloses)

end accounts

/-! ## One region -/

/-- A manager before `pmm_initialize`.
Source: none: infrastructure
Kind: D -/
def pmmZero : Pmm := ⟨[], ⟨⟨0, 0, 0, 0⟩, fun _ => 0⟩, fun _ => ⟨0, 0, 0⟩, 0, 0, .firstFit, fun _ => 0⟩

/-- The manager has one region at `0x80400000`, all of it in one free block.
Source: none: infrastructure
Kind: D -/
structure PmmOneRegion (p : Pmm) (size : BitVec 64) : Prop where
  rep : DescRep (0x80300000 - 1536) p 1 [[pmmNode (0x80300000 - 1536) 0]]
  regions : p.regions = [⟨0x80400000, size, size, pmmNode (0x80300000 - 1536) 0⟩]
  block : p.blocks (pmmNode (0x80300000 - 1536) 0) = ⟨0x80400000, size, 0⟩
  total : p.total = size
  free : p.free = size
  policy : p.policy = .firstFit

/-- After `pmm_initialize`, a region of pages is added.
Source: none: infrastructure
Kind: L -/
theorem exists_pmmOneRegion {size : BitVec 64} (hsize : pmmAlignedSize 0x80400000 size = size)
    (hpage : basePageSize ≤ size) :
    ∃ p, pmmAddRegion (pmmInitialize pmmZero 0x80300000).1 0x80400000 size =
        some (p, GrouperError.ok.errval) ∧ PmmOneRegion p size := by
  have hlo : 1536 < (0x80300000 : BitVec 64).toNat := by decide
  have hhi : (0x80300000 : BitVec 64).toNat + 1568 ≤ 2 ^ 64 := by decide
  obtain ⟨p₀, hinit, hrep₀, hregions, htotal, hfree, hpolicy⟩ := pmmInitialize_desc pmmZero hlo hhi
  have hbase : pmmAlignedBase 0x80400000 = 0x80400000 := by decide
  have hok : PmmAddOk p₀ 0x80400000 size := by
    refine ⟨by decide, ?_, ?_, ?_, ?_⟩
    · rw [hbase, hsize]
      exact BitVec.le_refl _
    · rw [hsize]
      exact hpage
    · rw [hregions]
      decide
    · rw [hregions]
      rfl
  rcases pmmAddRegion_spec hrep₀ 0x80400000 size with ⟨e, -, hno⟩ | ⟨p, hadd, -, -, hrep, hadded⟩
  · exact absurd ⟨hok, by norm_num⟩ hno
  set node := pmmNode (0x80300000 - 1536) 0 with hnode
  have hregions' : p.regions = [⟨0x80400000, size, size, node⟩] := by
    rw [hadded.regions, hregions, hbase, hsize]
    rfl
  have hchain : IsChain 0 p.next node [node] := by
    have hchains := hrep.chains
    rw [hregions'] at hchains
    cases hchains with
    | cons h _ => exact h
  have hnext : p.next node = 0 := by
    have htail := hchain.tail
    generalize p.next node = d at htail
    cases htail
    rfl
  have hrange := hadded.range
  rw [hbase, hsize, Pmm.range, Prod.mk.injEq] at hrange
  refine ⟨p, by rw [hinit]; exact hadd, hrep, hregions', ?_, ?_, ?_, ?_⟩
  · exact PmmBlock.ext hrange.1 hrange.2 hnext
  · rw [hadded.total, htotal, hsize]
    exact BitVec.zero_add _
  · rw [hadded.free, hfree, hsize]
    exact BitVec.zero_add _
  · rw [hadded.policy, hpolicy]

/-- The search of `pmm_remove_region` ends at the first block of the first region when that is
around the range.
Source: `pmm.c` `pmm_remove_region`
Kind: L -/
theorem pmmRemoveFind_head {p : Pmm} {r : PmmRegion} {regions : List PmmRegion}
    {alignedBase alignedSize : BitVec 64}
    (hno : ¬ (alignedBase = r.base ∧ alignedSize = r.size))
    (hin : r.base ≤ alignedBase ∧ alignedBase + alignedSize ≤ r.base + r.size)
    (hhead : r.freeBlocks ≠ 0) (hunder : (p.blocks r.freeBlocks).base ≤ alignedBase)
    (hup : alignedBase + alignedSize ≤
      (p.blocks r.freeBlocks).base + (p.blocks r.freeBlocks).size) :
    pmmRemoveFind p alignedBase alignedSize 0 (r :: regions) = some (.part 0 0 r.freeBlocks) := by
  have hstop : pmmRemoveUpBound p alignedBase alignedSize r.freeBlocks = true := decide_eq_true hup
  have hchase : chase 0 p.next (pmmRemoveUpBound p alignedBase alignedSize) addressCount 0
      r.freeBlocks = some (0, r.freeBlocks) := by
    rw [addressCount, show 2 ^ 64 = (2 ^ 64 - 1) + 1 by norm_num, chase, if_pos (Or.inr hstop)]
  rw [pmmRemoveFind, if_neg hno, if_pos hin, hchase]
  dsimp only
  rw [if_neg hhead, if_pos hunder]

/-! ## One page, added and allocated -/

/-- An allocation of pages from one free block.
Source: `pmm.c` `pmm_alloc_aligned`
Kind: L -/
theorem PmmOneRegion.allocAligned {p : Pmm} {size s : BitVec 64} (h : PmmOneRegion p size)
    (hfree : ¬ size < alignUp s basePageSize)
    (hfits : 0x80400000 + alignUp s basePageSize ≤ 0x80400000 + size) :
    pmmFindBlock p (alignUp s basePageSize) 4096 0 p.regions =
        some (some (0, 0, pmmNode (0x80300000 - 1536) 0)) ∧
      ∃ p', pmmAllocAligned p s 4096 0x80200000 =
        some (p', GrouperError.ok.errval, 0x80400000) := by
  set node := pmmNode (0x80300000 - 1536) 0 with hnode
  have hret : alignUp 0x80400000 4096 = 0x80400000 := by decide
  have hsizeOk : pmmSizeOk p (alignUp s basePageSize) 4096 node = true := by
    rw [pmmSizeOk, h.block, hret]
    exact decide_eq_true hfits
  have hchain : IsChain 0 p.next node ([] ++ node :: []) := by
    have hchains := h.rep.chains
    rw [h.regions] at hchains
    cases hchains with
    | cons hchain _ => exact hchain
  have hfind : pmmFindBlock p (alignUp s basePageSize) 4096 0 p.regions =
      some (some (0, 0, node)) := by
    have hchase : chase 0 p.next (pmmSizeOk p (alignUp s basePageSize) 4096) addressCount 0 node =
        some (0, node) :=
      chase_of_append hchain (fun _ hx => absurd hx List.not_mem_nil) hsizeOk
        (by norm_num [addressCount])
    rw [h.regions, pmmFindBlock, if_neg hfree, ← hnode]
    simp only [hchase]
    rw [if_neg hchain.suffix.ne_null]
  refine ⟨hfind, ?_⟩
  have hrep' : DescRep (0x80300000 - 1536) p 1 ([] ++ ([] ++ node :: []) :: []) := h.rep
  obtain ⟨q, j', mid, htake, -⟩ :=
    pmmTakeBlock_spec hrep' (by norm_num) (alignUp s basePageSize) 4096
  have hcount : ¬ slabFreecount p.blockAllocator < 16 := by
    rw [BitVec.lt_def, h.rep.slabFreecount_toNat]
    decide
  have htake' : pmmTakeBlock p 0 0 node (alignUp s basePageSize) 4096 = some q := htake
  unfold pmmAllocAligned
  rw [if_neg (by decide), if_neg (by decide)]
  dsimp only
  rw [h.free, if_neg hfree, if_neg hcount, if_neg (not_not.mpr h.policy), hfind]
  dsimp only
  rw [htake', h.block, hret]
  exact ⟨_, rfl⟩

/-- After `pmm_initialize`, one page is added, and an allocation of one page takes all of its block.
Source: none: infrastructure
Kind: L -/
theorem pmm_onePage :
    ∃ p p' node, pmmAddRegion (pmmInitialize pmmZero 0x80300000).1 0x80400000 4096 =
        some (p, GrouperError.ok.errval) ∧ p.regions = [⟨0x80400000, 4096, 4096, node⟩] ∧
      pmmAllocAligned p 4096 4096 0x80200000 =
        some (p', GrouperError.ok.errval, 0x80400000) ∧
      (PmmOp.allocAligned 4096 4096 0x80200000).LosesDescriptor p := by
  obtain ⟨p, hadd, hone⟩ :=
    exists_pmmOneRegion (show pmmAlignedSize 0x80400000 4096 = 4096 by decide) (by decide)
  obtain ⟨hfind, p', halloc⟩ := hone.allocAligned (s := 4096) (by decide) (by decide)
  refine ⟨p, p', _, hadd, hone.regions, halloc, by decide, ?_, hone.policy, 0, 0, _, hfind, ?_⟩
  · rw [hone.free]
    decide
  · rw [PmmTakesAll, hone.block]
    decide

/-- The accounts before and after the page is allocated.
Source: none: infrastructure
Kind: C -/
theorem pmmAccounts_runs_onePage :
    ∃ p p', (PmmOp.addRegion 0x80400000 4096).run false (pmmInitialize pmmZero 0x80300000).1 =
        some p ∧ PmmAccounts p ∧
      (PmmOp.allocAligned 4096 4096 0x80200000).run false p = some p' ∧ ¬ PmmAccounts p' := by
  obtain ⟨p, p', node, hadd, -, halloc, hloses⟩ := pmm_onePage
  have hadd' := congrArg (Option.map Prod.fst) hadd
  have halloc' := congrArg (Option.map Prod.fst) halloc
  have hrun : PmmReach (fun p op => ¬ op.LosesDescriptor p) false 0x80300000 p :=
    .step (.addRegion 0x80400000 4096) (.init pmmZero) (fun hl => hl) hadd'
  have key := pmmAccounts_runs (by decide) (by decide) hrun
  refine ⟨p, p', hadd', key.1, halloc', fun hacc => ?_⟩
  exact (key.2 (.allocAligned 4096 4096 0x80200000) _ halloc').mp hacc hloses

/-- Not every reachable state has right accounts: when the only page is allocated its descriptor is
in the slab no more, and on no list.
Source: `slab.c` `slab_free`
Kind: C -/
theorem not_pmmAccounts_of_reach :
    ¬ ∀ (assertions : Bool) (slabBuf : Addr) (p : Pmm), 1536 < slabBuf.toNat →
      slabBuf.toNat + 1568 ≤ 2 ^ 64 → PmmReach (fun _ _ => True) assertions slabBuf p →
      PmmAccounts p := by
  intro hall
  obtain ⟨p, p', node, hadd, -, halloc, hloses⟩ := pmm_onePage
  have hadd' := congrArg (Option.map Prod.fst) hadd
  have halloc' := congrArg (Option.map Prod.fst) halloc
  have hreach : PmmReach (fun _ _ => True) false 0x80300000 p' :=
    .step (.allocAligned 4096 4096 0x80200000)
      (.step (.addRegion 0x80400000 4096) (.init pmmZero) trivial hadd') trivial halloc'
  have hgood : PmmReach (fun p op => ¬ op.LosesDescriptor p) false 0x80300000 p :=
    .step (.addRegion 0x80400000 4096) (.init pmmZero) (fun hl => hl) hadd'
  obtain ⟨j, G, hfull⟩ := descFull_of_reach (by decide) (by decide) hgood
  have hstep : DescStep (0x80300000 - 1536) p p' (.allocAligned 4096 4096 0x80200000) :=
    hfull.step_allocAligned halloc
  rcases hstep with ⟨hno, -⟩ | ⟨-, hwrong⟩
  · exact hno hloses
  · exact hwrong (hall _ _ _ (by decide) (by decide) hreach)

end Octiron.Kernel
