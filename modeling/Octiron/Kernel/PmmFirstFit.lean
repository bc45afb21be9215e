import Octiron.Kernel.PmmRemoval

/-!
# First fit

`pmm_alloc_aligned` walks the free lists in order, and leaves early by the counters of the manager
and of the regions.

* `PmmServes` — the descriptor slab can be used.
* **Main result** (`pmmAllocAligned_firstFit`): it hands out the lowest place of the first block that
  has one, and fails only when no block has one.
-/

namespace Octiron.Kernel

open Octiron.Found
open Octiron.Found.Mem
open Octiron.Kzadhbat

/-! ## The search -/

section search

variable {p : Pmm} {G : List (List Addr)} {size alignment : BitVec 64} {k : ℕ}

/-- **The test of the search**, as integers.
Source: `pmm.c` `pmm_alloc_aligned` (`SIZE_OK`)
Kind: L -/
theorem pmmSizeOk_iff (hk : alignment.toNat = 2 ^ k) (hk64 : k < 64) {d : Addr}
    (hupper : (p.extent d).upper ≤ 2 ^ 56) (hsize : size.toNat ≤ 2 ^ 56) :
    pmmSizeOk p size alignment d = true ↔
      ((p.extent d).base + (2 ^ k - 1)) / 2 ^ k * 2 ^ k + size.toNat ≤ (p.extent d).upper := by
  have hpow : 2 ^ k ≤ 2 ^ 63 := Nat.pow_le_pow_right (by norm_num) (by omega)
  have hupper' : (p.blocks d).base.toNat + (p.blocks d).size.toNat ≤ 2 ^ 56 := hupper
  obtain ⟨-, hlt, -⟩ := alignUp_block hk hk64 (c := p.blocks d) (by omega)
  have hup : (alignUp (p.blocks d).base alignment).toNat =
      ((p.extent d).base + (2 ^ k - 1)) / 2 ^ k * 2 ^ k := alignUp_toNat hk (by omega)
  rw [pmmSizeOk, decide_eq_true_iff, BitVec.le_def, BitVec.toNat_add, BitVec.toNat_add,
    Nat.mod_eq_of_lt (by omega), Nat.mod_eq_of_lt (by omega), hup]
  rfl

/-- A block fails the test when it has no place.
Source: `pmm.c` `pmm_alloc_aligned` (`SIZE_OK`)
Kind: L -/
theorem pmmSizeOk_eq_false_iff (hk : alignment.toNat = 2 ^ k) (hk64 : k < 64) {d : Addr}
    (hupper : (p.extent d).upper ≤ 2 ^ 56) (hsize : size.toNat ≤ 2 ^ 56) :
    pmmSizeOk p size alignment d = false ↔ (p.extent d).places size.toNat (2 ^ k) = ∅ := by
  rw [Extent.places_eq_empty_iff (Nat.two_pow_pos k), ← pmmSizeOk_iff hk hk64 hupper hsize,
    Bool.not_eq_true]

/-- A power of two from a page on is an alignment that `pmm_alloc_aligned` takes.
Source: `pmm.c` `pmm_alloc_aligned`
Kind: L -/
theorem alignment_of_two_pow (hk : alignment.toNat = 2 ^ k) (hk12 : 12 ≤ k) :
    ¬ (alignment < basePageSize ∨ alignment &&& (alignment - 1) ≠ 0) := by
  have hpos : 0 < 2 ^ k := Nat.two_pow_pos k
  rw [not_or, not_not, BitVec.lt_def, basePageSize_toNat, hk, Nat.not_lt]
  refine ⟨Nat.pow_le_pow_right (by norm_num) hk12, ?_⟩
  apply BitVec.eq_of_toNat_eq
  have hone : (1 : BitVec 64) ≤ alignment := by
    rw [BitVec.le_def, hk]
    exact hpos
  rw [BitVec.toNat_and, BitVec.toNat_sub_of_le hone, hk]
  exact (Nat.and_sub_one_eq_zero_iff_isPowerOfTwo hpos.ne').mpr ⟨k, rfl⟩

/-- **The search finds the first block that passes the test**, when the regions it skips have no
such block.
Source: `pmm.c` `pmm_alloc_aligned`, the loops
Kind: L -/
theorem pmmFindBlock_first {regions : List PmmRegion}
    (h : Chains 0 p.next (regions.map PmmRegion.freeBlocks) G)
    (hskip : List.Forall₂ (fun r ds => r.free < size →
      ∀ d ∈ ds, pmmSizeOk p size alignment d = false) regions G) (n : ℕ) :
    (pmmFindBlock p size alignment n regions = some none ∧
      ∀ d ∈ G.flatten, pmmSizeOk p size alignment d = false) ∨
    ∃ gpre dpre block dpost gpost, G = gpre ++ (dpre ++ block :: dpost) :: gpost ∧
      pmmFindBlock p size alignment n regions =
        some (some (n + gpre.length, dpre.getLastD 0, block)) ∧
      pmmSizeOk p size alignment block = true ∧
      ∀ d ∈ gpre.flatten ++ dpre, pmmSizeOk p size alignment d = false := by
  induction regions generalizing G n with
  | nil =>
      cases h
      exact Or.inl ⟨rfl, fun d hd => absurd hd List.not_mem_nil⟩
  | cons r regions ih =>
      rw [List.map_cons] at h
      cases h with
      | @cons _ ds _ G' hr hrest =>
          cases hskip with
          | cons hskip hskips =>
              -- the first list has no such block: the search goes on
              have hlater : (∀ d ∈ ds, pmmSizeOk p size alignment d = false) →
                  (pmmFindBlock p size alignment (n + 1) regions = some none ∧
                    ∀ d ∈ (ds :: G').flatten, pmmSizeOk p size alignment d = false) ∨
                  ∃ gpre dpre block dpost gpost,
                    ds :: G' = gpre ++ (dpre ++ block :: dpost) :: gpost ∧
                    pmmFindBlock p size alignment (n + 1) regions =
                      some (some (n + gpre.length, dpre.getLastD 0, block)) ∧
                    pmmSizeOk p size alignment block = true ∧
                    ∀ d ∈ gpre.flatten ++ dpre, pmmSizeOk p size alignment d = false := by
                intro hno
                rcases ih hrest hskips (n + 1) with ⟨hnone, hall⟩ |
                  ⟨gpre, dpre, block, dpost, gpost, rfl, hfind, hok, hbefore⟩
                · refine Or.inl ⟨hnone, fun d hd => ?_⟩
                  rw [List.flatten_cons, List.mem_append] at hd
                  exact hd.elim (hno d) (hall d)
                · refine Or.inr ⟨ds :: gpre, dpre, block, dpost, gpost, rfl, ?_, hok, fun d hd => ?_⟩
                  · rw [hfind, List.length_cons, Nat.add_right_comm, Nat.add_assoc]
                  · rw [List.flatten_cons, List.append_assoc, List.mem_append] at hd
                    exact hd.elim (hno d) (hbefore d)
              unfold pmmFindBlock
              by_cases hfree : r.free < size
              · rw [if_pos hfree]
                exact hlater (hskip hfree)
              · rw [if_neg hfree]
                have hcases : (_ ∧ chase 0 p.next (pmmSizeOk p size alignment) addressCount 0
                    r.freeBlocks = _) ∨ _ := chase_cases hr (length_lt_addressCount hr)
                rcases hcases with ⟨hno, hchase⟩ | ⟨pre, q, post, rfl, hq, hpre, hchase⟩
                · simp only [hchase, if_true]
                  exact hlater hno
                · have hq0 : q ≠ 0 := hr.suffix.ne_null
                  simp only [hchase, hq0, if_false]
                  exact Or.inr ⟨[], pre, q, post, G', rfl, rfl, hq, hpre⟩

end search

/-! ## Taking the block -/

/-- **The descriptor slab can be used**: `slab_alloc` hands out a descriptor, and `slab_free` of a
descriptor that is on a free list comes to an end.
Source: none: infrastructure
Kind: D -/
structure PmmServes (p : Pmm) (G : List (List Addr)) : Prop where
  alloc : ∃ s d, slabAlloc p.blockAllocator = some (s, d) ∧ d ≠ 0
  free : ∀ d ∈ G.flatten, ∃ r, slabFree p.blockAllocator d = some r

section take

variable {p : Pmm} {G : List (List Addr)} {block : Addr}

/-- Source: `pmm.c` `pmm_alloc_aligned`, `pmm_remove_region`. Kind: L -/
theorem PmmServes.unlinkBlock (h : PmmServes p G) (i : ℕ) (prev : Addr) (hblock : block ∈ G.flatten) :
    ∃ q, pmmUnlinkBlock p i prev block = some q := by
  obtain ⟨r, hr⟩ := h.free block hblock
  unfold pmmUnlinkBlock pmmReturnBlock
  split_ifs
  · exact ⟨_, Option.map_eq_some_iff.mpr ⟨r, hr, rfl⟩⟩
  · exact ⟨_, Option.map_eq_some_iff.mpr ⟨r, hr, rfl⟩⟩

/-- **A block can be taken apart** when the slab can be used.
Source: `pmm.c` `pmm_alloc_aligned`
Kind: L -/
theorem PmmServes.takeBlock (h : PmmServes p G) (i : ℕ) (prev : Addr) (hblock : block ∈ G.flatten)
    (size alignment : BitVec 64) : ∃ q, pmmTakeBlock p i prev block size alignment = some q := by
  obtain ⟨s, d, halloc, hd⟩ := h.alloc
  unfold pmmTakeBlock
  dsimp only
  split_ifs with hboth hpre hpost
  · have halloc' : ∀ c, slabAlloc (p.setBlock block c).blockAllocator = some (s, d) :=
      fun _ => halloc
    simp only [halloc', hd, if_false]
    exact ⟨_, rfl⟩
  · exact ⟨_, rfl⟩
  · exact ⟨_, rfl⟩
  · exact h.unlinkBlock i prev hblock

/-- In the states of a run the slab can be used as long as it has a free descriptor.
Source: none: infrastructure
Kind: L -/
theorem DescRep.serves {b : Addr} {j : ℕ} (h : DescRep b p j G) (hj : j < 64) : PmmServes p G := by
  obtain ⟨s, halloc, -, -⟩ := h.slabAlloc_eq hj
  refine ⟨⟨s, _, halloc, pmmNode_ne_zero h.home hj.le⟩, fun d hd => ?_⟩
  have hreturn : pmmReturnBlock p d = some p := h.pmmReturnBlock_eq (Or.inr hd) rfl
  obtain ⟨r, hr, -⟩ := Option.map_eq_some_iff.mp hreturn
  exact ⟨r, hr⟩

end take

/-! ## First fit -/

section firstFit

variable {p : Pmm} {G : List (List Addr)}

/-- The free blocks of regions below `2 ^ 56` end there, and are no more than that altogether.
Source: none: infrastructure
Kind: L -/
theorem PmmInvariant.below (h : PmmInvariant p G)
    (hbelow : ∀ r ∈ p.regions, r.base.toNat + r.size.toNat ≤ 2 ^ 56) :
    (∀ e ∈ G.flatten.map p.extent, e.upper ≤ 2 ^ 56) ∧ p.free.toNat ≤ 2 ^ 56 := by
  have hupper : ∀ e ∈ G.flatten.map p.extent, e.upper ≤ 2 ^ 56 := by
    intro e he
    obtain ⟨c, hc, hle⟩ := exists_region_of_mem h.counts he
    obtain ⟨r, hr, rfl⟩ := List.mem_map.mp hc
    exact hle.trans (hbelow r hr)
  refine ⟨hupper, ?_⟩
  rw [h.free, sum_free_counts, sum_free_eq h.counts]
  exact h.separate.sum_size_le hupper

/-- **First fit.** For every state with the representation invariant, regions below `2 ^ 56` and 16
free descriptors, every size that can be rounded up to pages and every power of two from a page on,
`pmm_alloc_aligned` answers `ERR_OK` with the lowest aligned address in the first block that has
room for the pages, in the order of the regions and in each by address; or no block has room, and it
answers `ERR_PMM_OUT_OF_MEMORY` with `NULL` and leaves the manager as it is.
Source: `pmm.c` `pmm_alloc_aligned`
Kind: P
Fidelity: exact
Hyps: the representation invariant; the policy is that of `pmm_initialize`; the descriptor slab can
be used and has 16 free descriptors; the size can be rounded up; the alignment is a power of two from
a page on -/
theorem pmmAllocAligned_firstFit (h : PmmInvariant p G)
    (hbelow : ∀ r ∈ p.regions, r.base.toNat + r.size.toNat ≤ 2 ^ 56)
    (hpolicy : p.policy = .firstFit) (hserves : PmmServes p G)
    (hcount : 16 ≤ (slabFreecount p.blockAllocator).toNat) {size alignment : BitVec 64} {ret : Addr}
    (hret : ret ≠ 0) (hsize : size.toNat ≤ 2 ^ 64 - 4096)
    (halign : ∃ k, 12 ≤ k ∧ alignment.toNat = 2 ^ k) :
    (∃ p' a, pmmAllocAligned p size alignment ret = some (p', GrouperError.ok.errval, a) ∧
      IsFirstFit (G.flatten.map p.extent) ((size.toNat + 4095) / 4096 * 4096) alignment.toNat
        a.toNat) ∨
    ((∀ e ∈ G.flatten.map p.extent,
        e.places ((size.toNat + 4095) / 4096 * 4096) alignment.toNat = ∅) ∧
      pmmAllocAligned p size alignment ret = some (p, GrouperError.pmmOutOfMemory.errval, 0)) := by
  obtain ⟨k, hk12, hk⟩ := halign
  have hk64 : k < 64 := by
    have hlt := alignment.isLt
    rw [hk] at hlt
    exact (Nat.pow_lt_pow_iff_right (by norm_num)).mp hlt
  obtain ⟨hupper, hfree⟩ := h.below hbelow
  have hpos : 0 < 2 ^ k := Nat.two_pow_pos k
  set taken := alignUp size basePageSize with htaken
  have hround : taken.toNat = (size.toNat + 4095) / 4096 * 4096 := alignUp_page_toNat (by omega)
  rw [← hround, hk]
  have hsum : p.free.toNat = ((G.flatten.map p.extent).map Extent.size).sum := by
    rw [h.free, sum_free_counts, sum_free_eq h.counts]
  unfold pmmAllocAligned
  dsimp only
  rw [if_neg hret, if_neg (alignment_of_two_pow hk hk12), ← htaken]
  by_cases hlow : p.free < taken
  · -- no block is as large as all of them together
    refine Or.inr ⟨fun e he => ?_, by rw [if_pos hlow]⟩
    refine Extent.places_eq_empty_of_sum_lt he ?_
    rw [BitVec.lt_def] at hlow
    omega
  have htaken56 : taken.toNat ≤ 2 ^ 56 := (BitVec.le_def.mp (BitVec.not_lt.mp hlow)).trans hfree
  have hcount' : ¬ slabFreecount p.blockAllocator < 16 := by
    rw [BitVec.lt_def, Nat.not_lt]
    exact hcount
  rw [if_neg hlow, if_neg hcount', if_neg (not_not.mpr hpolicy)]
  have hiff : ∀ d ∈ G.flatten, (pmmSizeOk p taken alignment d = false ↔
      (p.extent d).places taken.toNat (2 ^ k) = ∅) := by
    intro d hd
    exact pmmSizeOk_eq_false_iff hk hk64 (hupper _ (List.mem_map_of_mem hd)) htaken56
  have hskip : List.Forall₂ (fun r ds => r.free < taken →
      ∀ d ∈ ds, pmmSizeOk p taken alignment d = false) p.regions G := by
    refine forall₂_imp_of_mem h.lists ?_
    intro r ds hds hlist hless d hd
    rw [BitVec.lt_def, hlist.free] at hless
    rw [hiff d (List.mem_flatten.mpr ⟨ds, hds, hd⟩)]
    exact Extent.places_eq_empty_of_sum_lt (List.mem_map_of_mem hd) hless
  rcases pmmFindBlock_first h.chains hskip 0 with ⟨hnone, hall⟩ |
    ⟨gpre, dpre, block, dpost, gpost, rfl, hfind, hok, hbefore⟩
  · refine Or.inr ⟨fun e he => ?_, by rw [hnone]⟩
    obtain ⟨d, hd, rfl⟩ := List.mem_map.mp he
    exact (hiff d hd).mp (hall d hd)
  · set G := gpre ++ (dpre ++ block :: dpost) :: gpost with hG
    have hflat : G.flatten = gpre.flatten ++ dpre ++ block :: (dpost ++ gpost.flatten) := by
      rw [hG, List.flatten_append, List.flatten_cons]
      simp
    have hblock : block ∈ G.flatten := by
      rw [hflat]
      simp
    obtain ⟨q, htake⟩ := hserves.takeBlock gpre.length (dpre.getLastD 0) hblock taken alignment
    rw [Nat.zero_add] at hfind
    rw [hfind]
    dsimp only
    rw [htake]
    have hup := hupper _ (List.mem_map_of_mem hblock)
    have hbase : (p.blocks block).base.toNat + (p.blocks block).size.toNat ≤ 2 ^ 56 := hup
    have hpow : 2 ^ k ≤ 2 ^ 63 := Nat.pow_le_pow_right (by norm_num) (by omega)
    refine Or.inl ⟨_, _, rfl, gpre.flatten.map p.extent ++ dpre.map p.extent, p.extent block,
      (dpost ++ gpost.flatten).map p.extent, ?_, ?_, ?_⟩
    · rw [hflat, List.map_append, List.map_append, List.map_cons]
    · intro f hf
      rw [← List.map_append] at hf
      obtain ⟨d, hd, rfl⟩ := List.mem_map.mp hf
      refine (hiff d ?_).mp (hbefore d hd)
      rw [hflat]
      exact List.mem_append_left _ hd
    · rw [alignUp_toNat hk (by omega)]
      exact Extent.isLeast_places hpos ((pmmSizeOk_iff hk hk64 hup htaken56).mp hok)

end firstFit

/-- Two pages, all of them free: one page at an alignment of two pages is had at the lower one.
Source: none: infrastructure
Kind: C -/
theorem pmmAllocAligned_firstFit_twoPages :
    ∃ p p' a, pmmAddRegion (pmmInitialize pmmZero 0x80300000).1 0x80400000 8192 =
        some (p, GrouperError.ok.errval) ∧
      pmmAllocAligned p 100 8192 0x80200000 = some (p', GrouperError.ok.errval, a) ∧
      IsFirstFit [⟨0x80400000, 8192⟩] 4096 8192 a.toNat := by
  obtain ⟨p, hadd, hone⟩ :=
    exists_pmmOneRegion (show pmmAlignedSize 0x80400000 8192 = 8192 by decide) (by decide)
  have hextents : [[pmmNode (0x80300000 - 1536) 0]].flatten.map p.extent =
      [⟨0x80400000, 8192⟩] := by
    rw [List.flatten_singleton, List.map_singleton, Pmm.extent, Pmm.range, hone.block]
    rfl
  have hbelow : ∀ r ∈ p.regions, r.base.toNat + r.size.toNat ≤ 2 ^ 56 := by
    rw [hone.regions]
    exact List.forall_mem_singleton.mpr (by decide)
  have hcount : 16 ≤ (slabFreecount p.blockAllocator).toNat := by
    rw [hone.rep.slabFreecount_toNat]
    norm_num
  have halign : ∃ k, 12 ≤ k ∧ (8192 : BitVec 64).toNat = 2 ^ k := ⟨13, by norm_num, rfl⟩
  have hfit : (∃ p' a, pmmAllocAligned p 100 8192 0x80200000 = _ ∧ _) ∨ _ :=
    pmmAllocAligned_firstFit hone.invariant hbelow hone.policy (hone.rep.serves (by norm_num)) hcount
      (by decide) (by decide) halign
  rw [hextents] at hfit
  rcases hfit with ⟨p', a, hrun, hfirst⟩ | ⟨hnone, -⟩
  · exact ⟨p, p', a, hadd, hrun, hfirst⟩
  · have hplace : 0x80400000 ∈ (⟨0x80400000, 8192⟩ : Extent).places 4096 8192 := by
      refine ⟨by norm_num, le_rfl, ?_⟩
      norm_num [Extent.upper]
    have hempty : (⟨0x80400000, 8192⟩ : Extent).places 4096 8192 = ∅ :=
      hnone _ (List.mem_singleton_self _)
    rw [hempty] at hplace
    exact absurd hplace (Set.notMem_empty _)

end Octiron.Kernel
