import Octiron.Kernel.Pmm

/-!
# The descriptors of the physical memory manager

What the operations of `pmm.c` do to the descriptors: which are on the free lists of the regions and
which are in the slab. Nothing here depends on the addresses that the descriptors hold.

* `DescRep b p j G` — the slab's blocks start at `b` and `j` of them have been taken; `G` are the
  free lists of the regions, whose nodes are different blocks among those taken.
* Each edit of a list keeps it: `DescRep.setBlock`, `DescRep.insertExtra`, `DescRep.unlinkBlock`.
  Since `slab_free` does not find the owner of any of these blocks (`DescRep.pmmReturnBlock_eq`),
  unlinking a block loses its descriptor.
* **Main results** (`pmmAddRegion_desc`, `pmmTakeBlock_spec`, `pmmRemoveBlock_desc`,
  `pmmFindBlock_spec`, `pmmRemoveFind_spec`): what each operation does to `j` and `G`.
-/

namespace Octiron.Kernel

open Octiron.Found
open Octiron.Found.Mem
open Octiron.Kzadhbat

/-! ## The slab's blocks -/

/-- The 64 blocks of 24 bytes and the header behind them are in the address space, past `NULL`.
Source: none: infrastructure
Kind: D -/
structure SlabHome (b : Addr) : Prop where
  pos : 0 < b.toNat
  fits : b.toNat + 1568 ≤ 2 ^ 64

/-- Block `i` of the manager's slab.
Source: none: infrastructure
Kind: D -/
def pmmNode (b : Addr) (i : ℕ) : Addr := above b (i * 24)

section node

variable {b : Addr}

/-- Source: none: infrastructure. Kind: L -/
theorem pmmNode_toNat (h : SlabHome b) {i : ℕ} (hi : i ≤ 64) :
    (pmmNode b i).toNat = b.toNat + i * 24 := by
  have := h.fits
  rw [pmmNode, above, BitVec.toNat_add, BitVec.toNat_ofNat]
  omega

/-- Source: none: infrastructure. Kind: L -/
theorem pmmNode_ne_zero (h : SlabHome b) {i : ℕ} (hi : i ≤ 64) : pmmNode b i ≠ 0 := by
  intro h0
  have hval := pmmNode_toNat h hi
  rw [h0] at hval
  change 0 = _ at hval
  have := h.pos
  omega

/-- Source: none: infrastructure. Kind: L -/
theorem pmmNode_inj (h : SlabHome b) {i k : ℕ} (hi : i ≤ 64) (hk : k ≤ 64)
    (heq : pmmNode b i = pmmNode b k) : i = k := by
  have hval := congrArg BitVec.toNat heq
  rw [pmmNode_toNat h hi, pmmNode_toNat h hk] at hval
  omega

/-- Source: none: infrastructure. Kind: L -/
theorem pmmNode_le_header (h : SlabHome b) {i : ℕ} (hi : i ≤ 64) :
    pmmNode b i ≤ above b 1536 := by
  have hheader := pmmNode_toNat h (le_refl 64)
  rw [BitVec.le_def]
  change _ ≤ (pmmNode b 64).toNat
  rw [pmmNode_toNat h hi, hheader]
  omega

end node

/-! ## The representation -/

/-- Source: none: infrastructure. Kind: L -/
theorem map_modify_of_eq {α β : Type} (f : α → β) {g : α → α} (hg : ∀ a, f (g a) = f a)
    (l : List α) (i : ℕ) : (l.modify i g).map f = l.map f := by
  induction l generalizing i with
  | nil => simp
  | cons a l ih =>
      cases i with
      | zero => simp [hg]
      | succ i => simp [ih]

/-- Source: none: infrastructure. Kind: L -/
theorem map_modify_append {α β : Type} (f : α → β) (g : α → α) (pre post : List α) (a : α) :
    ((pre ++ a :: post).modify pre.length g).map f = pre.map f ++ f (g a) :: post.map f := by
  induction pre with
  | nil => simp
  | cons c pre ih => simpa using ih

/-- **`j` blocks of the slab are taken, and the free lists are `G`**, made of different ones of
them. Taken blocks that are on no list are lost.
Source: none: infrastructure
Kind: D -/
structure DescRep (b : Addr) (p : Pmm) (j : ℕ) (G : List (List Addr)) : Prop where
  home : SlabHome b
  slab : SlabAt b 1536 64 j p.blockAllocator
  blocksize : p.blockAllocator.slabs.blocksize = 24
  chains : Chains 0 p.next (p.regions.map PmmRegion.freeBlocks) G
  nodup : G.flatten.Nodup
  nodes : ∀ d ∈ G.flatten, ∃ i < j, d = pmmNode b i

section desc

variable {b : Addr} {p p' : Pmm} {j : ℕ} {G : List (List Addr)}

/-- Source: none: infrastructure. Kind: L -/
theorem DescRep.le (h : DescRep b p j G) : j ≤ 64 := h.slab.le

/-- Source: none: infrastructure. Kind: L -/
theorem DescRep.ne_zero (h : DescRep b p j G) {d : Addr} (hd : d ∈ G.flatten) : d ≠ 0 := by
  obtain ⟨i, hi, rfl⟩ := h.nodes d hd
  exact pmmNode_ne_zero h.home (hi.le.trans h.le)

/-- The block the slab gives next is on no list.
Source: none: infrastructure
Kind: L -/
theorem DescRep.fresh (h : DescRep b p j G) : pmmNode b j ∉ G.flatten := by
  intro hmem
  obtain ⟨i, hi, heq⟩ := h.nodes _ hmem
  have := pmmNode_inj h.home h.le (hi.le.trans h.le) heq
  omega

/-- Source: none: infrastructure. Kind: L -/
theorem DescRep.ne_fresh (h : DescRep b p j G) {d : Addr} (hd : d ∈ G.flatten) :
    d ≠ pmmNode b j := by
  rintro rfl
  exact h.fresh hd

/-- Source: none: infrastructure. Kind: L -/
theorem DescRep.slabFreecount_toNat (h : DescRep b p j G) :
    (slabFreecount p.blockAllocator).toNat = 64 - j := h.slab.free_toNat

/-- `slab_alloc` gives block `j`.
Source: none: infrastructure
Kind: L -/
theorem DescRep.slabAlloc_eq (h : DescRep b p j G) (hj : j < 64) :
    ∃ s, slabAlloc p.blockAllocator = some (s, pmmNode b j) ∧ SlabAt b 1536 64 (j + 1) s ∧
      s.slabs.blocksize = 24 := by
  obtain ⟨s, halloc, hat, hsize⟩ := slabAlloc_of_slabAt h.slab hj
  refine ⟨s, ?_, hat, hsize.trans h.blocksize⟩
  rw [halloc, h.blocksize]
  rfl

/-- **Giving a descriptor back has no effect**: `slab_free` says that the block is foreign.
Source: `slab.c` `slab_free`
Kind: L -/
theorem DescRep.pmmReturnBlock_eq (h : DescRep b p j G) {d : Addr}
    (hd : d = 0 ∨ d ∈ G.flatten) (hslab : p'.blockAllocator = p.blockAllocator) :
    pmmReturnBlock p' d = some p' := by
  have hfree : ∃ e, slabFree p.blockAllocator d = some (p.blockAllocator, e) := by
    by_cases hzero : d = 0
    · refine ⟨errPush errNew .nullArgument, ?_⟩
      unfold slabFree
      rw [if_pos hzero]
    · obtain ⟨i, hi, rfl⟩ := h.nodes d (hd.resolve_left hzero)
      exact ⟨_, slabFree_of_slabAt h.slab hzero (pmmNode_le_header h.home (hi.le.trans h.le))⟩
  obtain ⟨e, hfree⟩ := hfree
  rw [pmmReturnBlock, hslab, hfree, ← hslab]
  rfl

/-- Only the slab, the heads of the lists and the links of their nodes matter.
Source: none: infrastructure
Kind: L -/
theorem DescRep.congr (h : DescRep b p j G) (hslab : p'.blockAllocator = p.blockAllocator)
    (hheads : p'.regions.map PmmRegion.freeBlocks = p.regions.map PmmRegion.freeBlocks)
    (hnext : ∀ d ∈ G.flatten, p'.next d = p.next d) : DescRep b p' j G := by
  refine ⟨h.home, hslab ▸ h.slab, hslab ▸ h.blocksize, ?_, h.nodup, h.nodes⟩
  rw [hheads]
  exact h.chains.congr hnext

/-- Source: none: infrastructure. Kind: L -/
@[simp] theorem Pmm.setBlock_blocks_self (p : Pmm) (d : Addr) (c : PmmBlock) :
    (p.setBlock d c).blocks d = c := Function.update_self ..

/-- Source: none: infrastructure. Kind: L -/
theorem Pmm.setBlock_blocks_of_ne (p : Pmm) {d q : Addr} (c : PmmBlock) (h : q ≠ d) :
    (p.setBlock d c).blocks q = p.blocks q := Function.update_of_ne h ..

/-- Source: none: infrastructure. Kind: L -/
@[simp] theorem pmmCharge_blocks (p : Pmm) (i : ℕ) (size : BitVec 64) :
    (pmmCharge p i size).blocks = p.blocks := rfl

/-- Source: none: infrastructure. Kind: L -/
theorem Pmm.setBlock_next (p : Pmm) (d : Addr) (c : PmmBlock) :
    (p.setBlock d c).next = Function.update p.next d c.next := by
  funext q
  unfold Pmm.next Pmm.setBlock
  by_cases hq : q = d
  · subst hq
    simp
  · simp [Function.update_of_ne hq]

/-- Changing what a descriptor holds, but not its link.
Source: none: infrastructure
Kind: L -/
theorem DescRep.setBlock (h : DescRep b p j G) {d : Addr} {c : PmmBlock} (hc : c.next = p.next d) :
    DescRep b (p.setBlock d c) j G := by
  refine h.congr rfl rfl fun q _ => ?_
  rw [Pmm.setBlock_next, hc, Function.update_eq_self]

/-- Charging a region does not touch the lists.
Source: none: infrastructure
Kind: L -/
theorem DescRep.pmmCharge (h : DescRep b p j G) (i : ℕ) (size : BitVec 64) :
    DescRep b (pmmCharge p i size) j G := by
  refine h.congr rfl ?_ fun _ _ => rfl
  show (p.regions.modify i fun r => { r with free := r.free - size }).map PmmRegion.freeBlocks = _
  exact map_modify_of_eq PmmRegion.freeBlocks (g := fun r => { r with free := r.free - size })
    (fun _ => rfl) _ _

/-- **Linking in a new block** behind one of a list.
Source: `pmm.c` `pmm_alloc_aligned`, `pmm_remove_region`, the first branch of each
Kind: L -/
theorem DescRep.insertExtra {gpre gpost : List (List Addr)} {dpre dpost : List Addr} {block : Addr}
    (h : DescRep b p j (gpre ++ (dpre ++ block :: dpost) :: gpost)) {s : Slab} (hj : j < 64)
    (hat : SlabAt b 1536 64 (j + 1) s) (hsize : s.slabs.blocksize = 24)
    (hslab : p'.blockAllocator = s) (hregions : p'.regions = p.regions)
    (hblock : p'.next block = pmmNode b j) (hextra : p'.next (pmmNode b j) = p.next block)
    (hnext : ∀ d, d ≠ block → d ≠ pmmNode b j → p'.next d = p.next d) :
    DescRep b p' (j + 1) (gpre ++ (dpre ++ block :: pmmNode b j :: dpost) :: gpost) := by
  have hfresh := h.fresh
  have hnodup := h.nodup
  have hnodes := h.nodes
  simp only [List.flatten_append, List.flatten_cons] at hfresh hnodup hnodes ⊢
  have hperm : (gpre.flatten ++ (dpre ++ block :: pmmNode b j :: dpost ++ gpost.flatten)).Perm
      (pmmNode b j :: (gpre.flatten ++ (dpre ++ block :: dpost ++ gpost.flatten))) := by
    have hmiddle := @List.perm_middle _ (pmmNode b j) (gpre.flatten ++ (dpre ++ [block]))
      (dpost ++ gpost.flatten)
    simpa using hmiddle
  obtain ⟨hpre, q, hpost, hheads, hlen, -, hq, -⟩ := h.chains.split
  have hchains := h.chains
  rw [hheads] at hchains
  -- no other list has the block
  have hother : ∀ d ∈ gpre.flatten ++ gpost.flatten, d ≠ block ∧ d ≠ pmmNode b j := by
    intro d hd
    constructor
    · rintro rfl
      rw [List.nodup_append] at hnodup
      obtain ⟨-, hnodup', hdis⟩ := hnodup
      rcases List.mem_append.mp hd with hd | hd
      · exact hdis d hd d (by simp) rfl
      · rw [List.nodup_append] at hnodup'
        exact hnodup'.2.2 d (by simp) d hd rfl
    · rintro rfl
      apply hfresh
      rcases List.mem_append.mp hd with hd | hd
      · exact List.mem_append_left _ hd
      · exact List.mem_append_right _ (List.mem_append_right _ hd)
  have hsame : ∀ d ∈ dpre ++ dpost, p'.next d = p.next d := by
    intro d hd
    have hin : d ∈ dpre ++ block :: dpost := by
      rcases List.mem_append.mp hd with hd | hd
      · exact List.mem_append_left _ hd
      · exact List.mem_append_right _ (List.mem_cons_of_mem _ hd)
    have hself : d ≠ block := by
      rintro rfl
      have hmid := hq.nodup
      rw [List.nodup_middle, List.nodup_cons] at hmid
      exact hmid.1 hd
    refine hnext d hself ?_
    rintro rfl
    exact hfresh (List.mem_append_right _ (List.mem_append_left _ hin))
  refine ⟨h.home, hslab ▸ hat, hslab ▸ hsize, ?_, ?_, ?_⟩
  · rw [hregions, hheads]
    refine hchains.replace hlen ?_ fun d hd => hnext d (hother d hd).1 (hother d hd).2
    exact hq.insertAfter (pmmNode_ne_zero h.home hj.le) hblock hextra hsame
  · rw [List.flatten_append, List.flatten_cons, hperm.nodup_iff, List.nodup_cons]
    exact ⟨hfresh, hnodup⟩
  · intro d hd
    rw [List.flatten_append, List.flatten_cons, hperm.mem_iff, List.mem_cons] at hd
    rcases hd with rfl | hd
    · exact ⟨j, Nat.lt_succ_self j, rfl⟩
    · obtain ⟨i, hi, rfl⟩ := hnodes d hd
      exact ⟨i, Nat.lt_succ_of_lt hi, rfl⟩

/-- The three writes that link in the new block.
Source: `pmm.c` `pmm_alloc_aligned`, `pmm_remove_region`, the first branch of each
Kind: L -/
theorem DescRep.linkExtra {gpre gpost : List (List Addr)} {dpre dpost : List Addr} {block : Addr}
    (h : DescRep b p j (gpre ++ (dpre ++ block :: dpost) :: gpost)) {s : Slab} (hj : j < 64)
    (hat : SlabAt b 1536 64 (j + 1) s) (hsize : s.slabs.blocksize = 24) {c c' d : PmmBlock}
    (hc' : c'.next = p.next block) (hd : d.next = pmmNode b j) :
    DescRep b ((Pmm.setBlock { p.setBlock block c with blockAllocator := s } (pmmNode b j) c').setBlock
      block d) (j + 1) (gpre ++ (dpre ++ block :: pmmNode b j :: dpost) :: gpost) := by
  have hblock : block ≠ pmmNode b j := h.ne_fresh (by simp)
  refine h.insertExtra hj hat hsize rfl rfl ?_ ?_ ?_
  · rw [Pmm.setBlock_next, Function.update_self, hd]
  · rw [Pmm.setBlock_next, Function.update_of_ne hblock.symm, Pmm.setBlock_next,
      Function.update_self, hc']
  · intro q hq hq'
    rw [Pmm.setBlock_next, Function.update_of_ne hq, Pmm.setBlock_next, Function.update_of_ne hq']
    exact (congrFun (Pmm.setBlock_next p block c) q).trans (Function.update_of_ne hq _ _)

/-- The block is on no other list, and once on its own.
Source: none: infrastructure
Kind: L -/
theorem not_mem_others_of_nodup {gpre gpost : List (List Addr)} {dpre dpost : List Addr}
    {block : Addr} (h : (gpre ++ (dpre ++ block :: dpost) :: gpost).flatten.Nodup) :
    block ∉ gpre.flatten ++ (dpre ++ dpost ++ gpost.flatten) := by
  have hperm : (gpre.flatten ++ (dpre ++ block :: dpost ++ gpost.flatten)).Perm
      (block :: (gpre.flatten ++ (dpre ++ dpost ++ gpost.flatten))) := by
    have hmiddle := @List.perm_middle _ block (gpre.flatten ++ dpre) (dpost ++ gpost.flatten)
    simpa using hmiddle
  rw [List.flatten_append, List.flatten_cons, hperm.nodup_iff, List.nodup_cons] at h
  exact h.1

/-- Source: none: infrastructure. Kind: L -/
theorem DescRep.not_mem_others {gpre gpost : List (List Addr)} {dpre dpost : List Addr}
    {block : Addr} (h : DescRep b p j (gpre ++ (dpre ++ block :: dpost) :: gpost)) :
    block ∉ gpre.flatten ++ (dpre ++ dpost ++ gpost.flatten) := not_mem_others_of_nodup h.nodup

/-- The nodes that stay when a block is unlinked.
Source: none: infrastructure
Kind: L -/
theorem DescRep.nodes_of_unlink {gpre gpost : List (List Addr)} {dpre dpost : List Addr}
    {block : Addr} (h : DescRep b p j (gpre ++ (dpre ++ block :: dpost) :: gpost)) :
    (gpre ++ (dpre ++ dpost) :: gpost).flatten.Nodup ∧
      ∀ d ∈ (gpre ++ (dpre ++ dpost) :: gpost).flatten, ∃ i < j, d = pmmNode b i := by
  have hsub : (gpre ++ (dpre ++ dpost) :: gpost).flatten.Sublist
      (gpre ++ (dpre ++ block :: dpost) :: gpost).flatten := by
    rw [List.flatten_append, List.flatten_append, List.flatten_cons, List.flatten_cons]
    refine (List.Sublist.refl _).append (List.Sublist.append ?_ (List.Sublist.refl _))
    exact (List.Sublist.refl _).append (List.sublist_cons_self _ _)
  exact ⟨h.nodup.sublist hsub, fun d hd => h.nodes d (hsub.subset hd)⟩

/-- What an edit of a free list leaves alone: the regions' ranges and counters, the manager's
counters, its policy and the pages.
Source: none: infrastructure
Kind: D -/
structure PmmFrame (p p' : Pmm) : Prop where
  regions : p'.regions.map (fun r => (r.base, r.size, r.free)) =
    p.regions.map fun r => (r.base, r.size, r.free)
  total : p'.total = p.total
  free : p'.free = p.free
  policy : p'.policy = p.policy
  mem : p'.mem = p.mem

/-- The range a descriptor describes.
Source: none: infrastructure
Kind: D -/
def Pmm.range (p : Pmm) (d : Addr) : BitVec 64 × BitVec 64 := ((p.blocks d).base, (p.blocks d).size)

/-- Source: none: infrastructure. Kind: L -/
theorem Pmm.setBlock_range_of_ne (p : Pmm) {d d' : Addr} (c : PmmBlock) (h : d' ≠ d) :
    (p.setBlock d c).range d' = p.range d' := by
  simp [Pmm.range, Pmm.setBlock, Function.update_of_ne h]

/-- Source: none: infrastructure. Kind: L -/
@[simp] theorem Pmm.setBlock_range_self (p : Pmm) (d : Addr) (c : PmmBlock) :
    (p.setBlock d c).range d = (c.base, c.size) := by
  simp [Pmm.range, Pmm.setBlock]

/-- The manager when a block has been unlinked and not yet given back.
Source: `pmm.c` `pmm_alloc_aligned`, `pmm_remove_region`, the last two branches of each
Kind: D -/
def pmmUnlinked (p : Pmm) (i : ℕ) (prev block : Addr) : Pmm :=
  if prev = 0 then p.modifyRegion i fun r => { r with freeBlocks := p.next block }
  else p.setBlock prev { p.blocks prev with next := p.next block }

/-- Source: none: infrastructure. Kind: L -/
theorem pmmUnlinkBlock_eq (p : Pmm) (i : ℕ) (prev block : Addr) :
    pmmUnlinkBlock p i prev block = pmmReturnBlock (pmmUnlinked p i prev block) block := by
  unfold pmmUnlinkBlock pmmUnlinked
  split_ifs
  · rfl
  · rfl

/-- **Unlinking a block**: it is on no list any more, and all descriptors describe what they did.
Source: `pmm.c` `pmm_alloc_aligned`, `pmm_remove_region`, the last two branches of each
Kind: L -/
theorem pmmUnlinked_spec {gpre gpost : List (List Addr)} {dpre dpost : List Addr} {block : Addr}
    (h : Chains 0 p.next (p.regions.map PmmRegion.freeBlocks)
      (gpre ++ (dpre ++ block :: dpost) :: gpost))
    (hnodup : (gpre ++ (dpre ++ block :: dpost) :: gpost).flatten.Nodup) :
    let p' := pmmUnlinked p gpre.length (dpre.getLastD 0) block
    Chains 0 p'.next (p'.regions.map PmmRegion.freeBlocks) (gpre ++ (dpre ++ dpost) :: gpost) ∧
      (∀ d, p'.range d = p.range d) ∧
      (∀ d ∈ gpre.flatten ++ gpost.flatten, p'.blocks d = p.blocks d) ∧
      (∀ k, k ≠ gpre.length → p'.regions[k]? = p.regions[k]?) ∧
      p'.blockAllocator = p.blockAllocator ∧ PmmFrame p p' := by
  dsimp only
  obtain ⟨hpre, q, hpost, hheads, hlen, -, hq, -⟩ := h.split
  rw [hheads] at h
  rcases List.eq_nil_or_concat dpre with rfl | ⟨dpre', prev, rfl⟩
  · -- the block is the head of its list
    obtain rfl : q = block := by simpa using hq.head_eq
    obtain ⟨rpre, r, rpost, hregions, hrlen, hrhead, hrpost⟩ :
        ∃ rpre r rpost, p.regions = rpre ++ r :: rpost ∧ rpre.map PmmRegion.freeBlocks = hpre ∧
          r.freeBlocks = q ∧ rpost.map PmmRegion.freeBlocks = hpost := by
      obtain ⟨rpre, rrest, hreg, hrpre, hrrest⟩ := List.map_eq_append_iff.mp hheads
      obtain ⟨r, rpost, rfl, hr, hrpost⟩ := List.map_eq_cons_iff.mp hrrest
      exact ⟨rpre, r, rpost, hreg, hrpre, hr, hrpost⟩
    have hrl : rpre.length = gpre.length := by
      rw [← hlen, ← hrlen, List.length_map]
    set f : PmmRegion → PmmRegion := fun r => { r with freeBlocks := p.next q } with hf
    have hunlinked : pmmUnlinked p gpre.length (([] : List Addr).getLastD 0) q =
        p.modifyRegion gpre.length f := by
      rw [pmmUnlinked, List.getLastD_nil, if_pos rfl]
    rw [hunlinked]
    refine ⟨?_, fun d => rfl, fun _ _ => rfl, fun k hk => ?_, rfl,
      map_modify_of_eq (g := f) _ (fun _ => rfl) _ _, rfl, rfl, rfl, rfl⟩
    · have hmap : (p.modifyRegion gpre.length f).regions.map PmmRegion.freeBlocks =
          hpre ++ p.next q :: hpost := by
        show (p.regions.modify gpre.length f).map PmmRegion.freeBlocks = _
        rw [hregions, ← hrl, map_modify_append, hrlen, hrpost]
      rw [hmap]
      exact h.replace hlen hq.tail fun _ _ => rfl
    · show (p.regions.modify gpre.length f)[k]? = _
      exact List.getElem?_modify_ne _ _ (Ne.symm hk)
  · -- the block comes after `prev`
    rw [List.concat_eq_append] at *
    have hprev0 : prev ≠ 0 := by
      rintro rfl
      exact hq.null_not_mem (by simp)
    have hprevothers : prev ∉ gpre.flatten ++ gpost.flatten := by
      have hnodup' : (gpre ++ (dpre' ++ prev :: (block :: dpost)) :: gpost).flatten.Nodup := by
        simpa using hnodup
      have hnot := not_mem_others_of_nodup hnodup'
      intro hmem
      apply hnot
      rcases List.mem_append.mp hmem with hmem | hmem
      · exact List.mem_append_left _ hmem
      · exact List.mem_append_right _ (List.mem_append_right _ hmem)
    set c : PmmBlock := { p.blocks prev with next := p.next block } with hc
    have hunlinked : pmmUnlinked p gpre.length ((dpre' ++ [prev]).getLastD 0) block =
        p.setBlock prev c := by
      have hlast : (dpre' ++ [prev]).getLastD 0 = prev := by simp
      rw [pmmUnlinked, hlast, if_neg hprev0]
    rw [hunlinked]
    refine ⟨?_, fun d => ?_, fun d hd => ?_, fun _ _ => rfl, rfl, rfl, rfl, rfl, rfl, rfl⟩
    · have hq' : IsChain 0 p.next q (dpre' ++ prev :: block :: dpost) := by simpa using hq
      have hmid := hq'.nodup
      rw [List.nodup_middle, List.nodup_cons] at hmid
      have hunlink : IsChain 0 (p.setBlock prev c).next q (dpre' ++ prev :: dpost) := by
        refine hq'.unlinkAfter ?_ fun d hd => ?_
        · rw [Pmm.setBlock_next, Function.update_self]
        · rw [Pmm.setBlock_next, Function.update_of_ne]
          rintro rfl
          apply hmid.1
          rcases List.mem_append.mp hd with hd | hd
          · exact List.mem_append_left _ hd
          · exact List.mem_append_right _ (List.mem_cons_of_mem _ hd)
      have hreplace := h.replace hlen hunlink fun d hd => by
        rw [Pmm.setBlock_next, Function.update_of_ne]
        rintro rfl
        exact hprevothers hd
      rw [← hheads] at hreplace
      rw [List.append_assoc]
      exact hreplace
    · by_cases hd : d = prev
      · subst hd
        exact Pmm.setBlock_range_self ..
      · exact Pmm.setBlock_range_of_ne _ _ hd
    · refine Pmm.setBlock_blocks_of_ne _ _ ?_
      rintro rfl
      exact hprevothers hd

/-- **Unlinking a block** and giving its descriptor back: the block is on no list any more, and the
slab has not changed.
Source: `pmm.c` `pmm_alloc_aligned`, `pmm_remove_region`, the last two branches of each
Kind: L -/
theorem DescRep.pmmUnlinkBlock_spec {gpre gpost : List (List Addr)} {dpre dpost : List Addr}
    {block : Addr} (h : DescRep b p j (gpre ++ (dpre ++ block :: dpost) :: gpost)) :
    ∃ p', pmmUnlinkBlock p gpre.length (dpre.getLastD 0) block = some p' ∧
      DescRep b p' j (gpre ++ (dpre ++ dpost) :: gpost) ∧
      (∀ d, p'.range d = p.range d) ∧ PmmFrame p p' := by
  obtain ⟨hnodup, hnodes⟩ := h.nodes_of_unlink
  obtain ⟨hchains, hrange, -, -, hslab, hframe⟩ := pmmUnlinked_spec h.chains h.nodup
  have hblock : block ∈ (gpre ++ (dpre ++ block :: dpost) :: gpost).flatten := by
    rw [List.flatten_append, List.flatten_cons]
    simp
  refine ⟨pmmUnlinked p gpre.length (dpre.getLastD 0) block, ?_, ?_, hrange, hframe⟩
  · rw [pmmUnlinkBlock_eq]
    exact h.pmmReturnBlock_eq (Or.inr hblock) hslab
  · exact ⟨h.home, hslab ▸ h.slab, hslab ▸ h.blocksize, hchains, hnodup, hnodes⟩

/-! ## The operations -/

/-- The manager right after `pmm_initialize`: no region, and no descriptor taken.
Source: `pmm.c` `pmm_initialize`
Kind: P -/
theorem pmmInitialize_desc (p : Pmm) {slabBuf : Addr} (hlo : 1536 < slabBuf.toNat)
    (hhi : slabBuf.toNat + 1568 ≤ 2 ^ 64) :
    ∃ p', pmmInitialize p slabBuf = (p', GrouperError.ok.errval) ∧
      DescRep (slabBuf - 1536) p' 0 [] ∧ p'.regions = [] ∧ p'.total = 0 ∧ p'.free = 0 ∧
      p'.policy = .firstFit := by
  have hbuf : slabBuf ≠ 0 := by
    rintro rfl
    simp at hlo
  set s := (slabInit p.blockAllocator sizeofPmmBlock).1 with hs
  have hsize : s.slabs.blocksize = 24 := rfl
  have hlen : initialPmmSlabSz.toNat = 1568 := by decide
  have h24 : (24 : BitVec 64).toNat = 24 := rfl
  have hfits : s.slabs.blocksize.toNat + 32 ≤ initialPmmSlabSz.toNat := by
    rw [hsize, h24, hlen]
    norm_num
  obtain ⟨hat, herr⟩ := slabAt_of_first_grow (s := s) rfl rfl rfl (by rw [hsize, h24]; norm_num)
    (by rw [hsize, h24]; norm_num) hbuf hfits
  have hgrown := (slabGrow_blocksize s slabBuf initialPmmSlabSz).trans hsize
  have hfail : errIsFail errNew = false := by decide
  rw [hsize, hlen, h24] at hat
  have hbase : slabBuf - (initialPmmSlabSz - sizeofSlabRegion) = slabBuf - 1536 := rfl
  rw [hbase] at hat
  refine ⟨⟨[], (slabGrow s slabBuf initialPmmSlabSz).1, p.blocks, 0, 0, .firstFit, p.mem⟩, ?_,
    ⟨?_, hat, hgrown, .nil, List.nodup_nil, by simp⟩, rfl, rfl, rfl, rfl⟩
  · have hinit : slabInit p.blockAllocator sizeofPmmBlock = (s, errNew) := rfl
    have hgrow : slabGrow s slabBuf initialPmmSlabSz =
        ((slabGrow s slabBuf initialPmmSlabSz).1, errNew) := by
      rw [← herr]
    rw [pmmInitialize, hinit]
    simp only [hfail, Bool.false_eq_true, if_false]
    rw [hgrow]
    simp only [hfail, Bool.false_eq_true, if_false]
  · have hval : (slabBuf - 1536).toNat = slabBuf.toNat - 1536 := by
      have hle : (1536 : BitVec 64) ≤ slabBuf := by
        rw [BitVec.le_def]
        exact hlo.le
      rw [BitVec.toNat_sub_of_le hle]
      rfl
    exact ⟨by omega, by omega⟩

/-- **What a call of `pmm_alloc_aligned` that returns has done**: nothing, or it has passed its tests,
found a block, taken it apart, charged the counters and zeroed the pages.
Source: `pmm.c` `pmm_alloc_aligned`
Kind: L -/
theorem pmmAllocAligned_inv {size alignment a : BitVec 64} {ret : Addr} {e : Errval}
    (hrun : pmmAllocAligned p size alignment ret = some (p', e, a)) :
    (e ≠ GrouperError.ok.errval ∧ p' = p) ∨
      e = GrouperError.ok.errval ∧ ∃ i prev block q,
        ¬ (alignment < basePageSize ∨ alignment &&& (alignment - 1) ≠ 0) ∧
        alignUp size basePageSize ≤ p.free ∧ ¬ slabFreecount p.blockAllocator < 16 ∧
        pmmFindBlock p (alignUp size basePageSize) alignment 0 p.regions =
          some (some (i, prev, block)) ∧
        pmmTakeBlock p i prev block (alignUp size basePageSize) alignment = some q ∧
        a = alignUp (p.blocks block).base alignment ∧
        p' = { pmmCharge q i (alignUp size basePageSize) with
          mem := memset q.mem a 0 (alignUp size basePageSize) } := by
  unfold pmmAllocAligned at hrun
  dsimp only at hrun
  split_ifs at hrun with _ halign hfree hcount hpolicy
  · cases hrun
    exact Or.inl ⟨by decide, rfl⟩
  · cases hrun
    exact Or.inl ⟨by decide, rfl⟩
  · cases hrun
    exact Or.inl ⟨by decide, rfl⟩
  · rcases hfind : pmmFindBlock p (alignUp size basePageSize) alignment 0 p.regions with
      _ | _ | ⟨i, prev, block⟩
    · rw [hfind] at hrun
      cases hrun
    · rw [hfind] at hrun
      cases hrun
      exact Or.inl ⟨by decide, rfl⟩
    · rw [hfind] at hrun
      dsimp only at hrun
      rcases htake : pmmTakeBlock p i prev block (alignUp size basePageSize) alignment with _ | q
      · rw [htake] at hrun
        cases hrun
      · rw [htake] at hrun
        cases hrun
        exact Or.inr ⟨rfl, i, prev, block, q, halign, BitVec.not_lt.mp hfree, hcount, rfl, htake, rfl,
          rfl⟩

/-- The search of `pmm_alloc_aligned` returns, with a block on a list that passes the test or with
none.
Source: `pmm.c` `pmm_alloc_aligned`
Kind: P -/
theorem pmmFindBlock_spec (size alignment : BitVec 64) {regions : List PmmRegion}
    (h : Chains 0 p.next (regions.map PmmRegion.freeBlocks) G) (k : ℕ) :
    pmmFindBlock p size alignment k regions = some none ∨
    ∃ i prev block, pmmFindBlock p size alignment k regions = some (some (k + i, prev, block)) ∧
      ChainAt 0 G i prev block ∧ pmmSizeOk p size alignment block = true := by
  induction regions generalizing G k with
  | nil => exact Or.inl rfl
  | cons r regions ih =>
      rw [List.map_cons] at h
      cases h with
      | @cons _ ds _ G' hr hrest =>
          -- a block found in a later region
          have hlater : pmmFindBlock p size alignment (k + 1) regions = some none ∨
              ∃ i prev block, pmmFindBlock p size alignment (k + 1) regions =
                  some (some (k + i, prev, block)) ∧
                ChainAt 0 (ds :: G') i prev block ∧ pmmSizeOk p size alignment block = true := by
            rcases ih hrest (k + 1) with hnone | ⟨i, prev, block, hfind, hat, hok⟩
            · exact Or.inl hnone
            · obtain ⟨gpre, dpre, dpost, gpost, rfl, hi, hprev⟩ := hat
              refine Or.inr ⟨i + 1, prev, block, ?_, ⟨ds :: gpre, dpre, dpost, gpost, rfl, ?_, hprev⟩,
                hok⟩
              · rw [hfind, Nat.add_right_comm, Nat.add_assoc]
              · rw [List.length_cons, hi]
          unfold pmmFindBlock
          by_cases hfree : r.free < size
          · rw [if_pos hfree]
            exact hlater
          · rw [if_neg hfree]
            have hcases : (_ ∧ chase 0 p.next (pmmSizeOk p size alignment) addressCount 0
                r.freeBlocks = _) ∨ _ := chase_cases hr (length_lt_addressCount hr)
            rcases hcases with ⟨-, hchase⟩ | ⟨pre, q, post, rfl, hq, -, hchase⟩
            · simp only [hchase, if_true]
              exact hlater
            · have hq0 : q ≠ 0 := hr.suffix.ne_null
              simp only [hchase, hq0, if_false]
              exact Or.inr ⟨0, _, q, rfl, ⟨[], pre, post, G', rfl, rfl, rfl⟩, hq⟩

/-- The ranges that are left of a block when `size` bytes at the next aligned address are taken.
Source: `pmm.c` `pmm_alloc_aligned`
Kind: D -/
def pmmPieces (c : PmmBlock) (size alignment : BitVec 64) : List (BitVec 64 × BitVec 64) :=
  let alignedBase := alignUp c.base alignment
  (if c.base ≠ alignedBase then [(c.base, alignedBase - c.base)] else []) ++
    if alignedBase + size < c.base + c.size then
      [(alignedBase + size, c.base + c.size - (alignedBase + size))]
    else []

/-- **Taking a block apart.** The block's place in its list is taken by descriptors `mid` of what is
left of it; the other descriptors are as they were. When nothing is left the descriptor is lost.
Source: `pmm.c` `pmm_alloc_aligned`
Kind: P
Fidelity: exact -/
theorem pmmTakeBlock_spec {gpre gpost : List (List Addr)} {dpre dpost : List Addr} {block : Addr}
    (h : DescRep b p j (gpre ++ (dpre ++ block :: dpost) :: gpost)) (hj : j < 64)
    (size alignment : BitVec 64) :
    ∃ p' j' mid, pmmTakeBlock p gpre.length (dpre.getLastD 0) block size alignment = some p' ∧
      DescRep b p' j' (gpre ++ (dpre ++ mid ++ dpost) :: gpost) ∧
      mid.map p'.range = pmmPieces (p.blocks block) size alignment ∧
      (∀ d ∈ gpre.flatten ++ (dpre ++ dpost ++ gpost.flatten), p'.range d = p.range d) ∧
      j' + 1 = j + max 1 mid.length ∧ PmmFrame p p' := by
  have hothers := h.not_mem_others
  have hne : ∀ d ∈ gpre.flatten ++ (dpre ++ dpost ++ gpost.flatten), d ≠ block := by
    rintro d hd rfl
    exact hothers hd
  unfold pmmTakeBlock pmmPieces
  dsimp only
  set c := p.blocks block with hc
  by_cases hpre : c.base ≠ alignUp c.base alignment
  · by_cases hpost : alignUp c.base alignment + size < c.base + c.size
    · -- both sides stay: a new descriptor for the upper one
      obtain ⟨s, halloc, hat, hsize⟩ := h.slabAlloc_eq hj
      have hfreshne : ∀ d ∈ gpre.flatten ++ (dpre ++ dpost ++ gpost.flatten),
          d ≠ pmmNode b j := by
        intro d hd
        refine h.ne_fresh ?_
        rw [List.flatten_append, List.flatten_cons]
        simp only [List.mem_append, List.mem_cons] at hd ⊢
        tauto
      have hblock : block ≠ pmmNode b j := h.ne_fresh (by simp)
      have hnode0 : pmmNode b j ≠ 0 := pmmNode_ne_zero h.home hj.le
      rw [if_pos ⟨hpre, hpost⟩, if_pos hpre, if_pos hpost]
      have halloc' : slabAlloc (p.setBlock block { c with
          size := alignUp c.base alignment - c.base }).blockAllocator =
          some (s, pmmNode b j) := halloc
      simp only [halloc', hnode0, if_false]
      refine ⟨_, j + 1, [block, pmmNode b j], rfl, ?_, ?_, ?_, rfl,
        ⟨rfl, rfl, rfl, rfl, rfl⟩⟩
      · have happ : dpre ++ [block, pmmNode b j] ++ dpost =
            dpre ++ block :: pmmNode b j :: dpost := by simp
        rw [happ]
        exact h.linkExtra hj hat hsize rfl rfl
      · simp [Pmm.range, Pmm.setBlock, Function.update_of_ne hblock,
          Function.update_of_ne hblock.symm]
      · intro d hd
        rw [Pmm.setBlock_range_of_ne _ _ (hne d hd), Pmm.setBlock_range_of_ne _ _ (hfreshne d hd)]
        exact Pmm.setBlock_range_of_ne p _ (hne d hd)
    · -- only the lower side stays
      rw [if_neg (fun hh => hpost hh.2), if_pos hpre, if_pos hpre, if_neg hpost]
      refine ⟨_, j, [block], rfl, ?_, by simp, ?_, rfl, ⟨rfl, rfl, rfl, rfl, rfl⟩⟩
      · rw [List.append_assoc]
        exact h.setBlock rfl
      · intro d hd
        exact Pmm.setBlock_range_of_ne p _ (hne d hd)
  · by_cases hpost : alignUp c.base alignment + size < c.base + c.size
    · -- only the upper side stays
      rw [if_neg (fun hh => hpre hh.1), if_neg hpre, if_pos hpost, if_neg hpre, if_pos hpost]
      refine ⟨_, j, [block], rfl, ?_, by simp, ?_, rfl, ⟨rfl, rfl, rfl, rfl, rfl⟩⟩
      · rw [List.append_assoc]
        exact h.setBlock rfl
      · intro d hd
        exact Pmm.setBlock_range_of_ne p _ (hne d hd)
    · -- the whole block goes
      rw [if_neg (fun hh => hpre hh.1), if_neg hpre, if_neg hpost, if_neg hpre, if_neg hpost]
      obtain ⟨p', hunlink, hrep, hrange, hframe⟩ := h.pmmUnlinkBlock_spec
      refine ⟨p', j, [], hunlink, ?_, rfl, fun d _ => hrange d, rfl, hframe⟩
      rwa [List.append_nil]

/-- The requests that `pmm_add_region` takes, while it has a descriptor.
Source: `pmm.c` `pmm_add_region`
Kind: D -/
structure PmmAddOk (p : Pmm) (base size : BitVec 64) : Prop where
  base_ne : base ≠ 0
  fits : pmmAlignedBase base + pmmAlignedSize base size ≤ base + size
  page : basePageSize ≤ pmmAlignedSize base size
  room : p.regions.length < pmmRegionCount
  upBound : p.regions.any (pmmUpBound (pmmAlignedBase base) (pmmAlignedSize base size)) = false

/-- What `pmm_add_region` changes when it takes a region.
Source: `pmm.c` `pmm_add_region`
Kind: D -/
structure PmmAdded (p p' : Pmm) (node : Addr) (base size : BitVec 64) : Prop where
  regions : p'.regions = p.regions ++ [⟨base, size, size, node⟩]
  range : p'.range node = (base, size)
  others : ∀ d, d ≠ node → p'.range d = p.range d
  total : p'.total = p.total + size
  free : p'.free = p.free + size
  policy : p'.policy = p.policy
  mem : p'.mem = p.mem

/-- **`pmm_add_region`** returns; it changes nothing, or adds a region with one descriptor.
Source: `pmm.c` `pmm_add_region`
Kind: P
Fidelity: exact -/
theorem pmmAddRegion_spec (h : DescRep b p j G) (base size : BitVec 64) :
    (∃ e, pmmAddRegion p base size = some (p, e) ∧ ¬ (PmmAddOk p base size ∧ j < 64)) ∨
    ∃ p', pmmAddRegion p base size = some (p', GrouperError.ok.errval) ∧ PmmAddOk p base size ∧
      j < 64 ∧ DescRep b p' (j + 1) (G ++ [[pmmNode b j]]) ∧
      PmmAdded p p' (pmmNode b j) (pmmAlignedBase base) (pmmAlignedSize base size) := by
  unfold pmmAddRegion
  dsimp only
  by_cases hbase : base = 0
  · rw [if_pos hbase]
    exact Or.inl ⟨_, rfl, fun hh => hh.1.base_ne hbase⟩
  rw [if_neg hbase]
  by_cases hsmall : ¬ pmmAlignedBase base + pmmAlignedSize base size ≤ base + size ∨
      ¬ basePageSize ≤ pmmAlignedSize base size
  · rw [if_pos hsmall]
    exact Or.inl ⟨_, rfl, fun hh => hsmall.elim (fun hn => hn hh.1.fits) (fun hn => hn hh.1.page)⟩
  rw [if_neg hsmall]
  by_cases hfull : pmmRegionCount ≤ p.regions.length
  · rw [if_pos hfull]
    exact Or.inl ⟨_, rfl, fun hh => absurd hh.1.room (not_lt.mpr hfull)⟩
  rw [if_neg hfull]
  by_cases hany : p.regions.any (pmmUpBound (pmmAlignedBase base) (pmmAlignedSize base size)) = true
  · rw [if_pos hany]
    refine Or.inl ⟨_, rfl, fun hh => ?_⟩
    rw [hh.1.upBound] at hany
    cases hany
  rw [if_neg hany]
  push Not at hsmall hfull
  have hok : PmmAddOk p base size := ⟨hbase, hsmall.1, hsmall.2, hfull, by simpa using hany⟩
  rcases Nat.lt_or_ge j 64 with hj | hj
  · obtain ⟨s, halloc, hat, hsize⟩ := h.slabAlloc_eq hj
    have hnode0 : pmmNode b j ≠ 0 := pmmNode_ne_zero h.home hj.le
    rw [halloc]
    simp only [hnode0, if_false]
    refine Or.inr ⟨_, rfl, hok, hj, ⟨h.home, hat, hsize, ?_, ?_, ?_⟩,
      ⟨rfl, ?_, ?_, rfl, rfl, rfl, rfl⟩⟩
    · have hnext : ∀ d, d ≠ pmmNode b j → Pmm.next ⟨p.regions ++ [⟨pmmAlignedBase base,
          pmmAlignedSize base size, pmmAlignedSize base size, pmmNode b j⟩], s,
          Function.update p.blocks (pmmNode b j) ⟨pmmAlignedBase base, pmmAlignedSize base size, 0⟩,
          p.total + pmmAlignedSize base size, p.free + pmmAlignedSize base size, p.policy, p.mem⟩ d =
          p.next d := by
        intro d hd
        simp [Pmm.next, Function.update_of_ne hd]
      rw [List.map_append]
      refine List.rel_append (h.chains.congr fun d hd => hnext d ?_) (.cons (.cons hnode0 ?_) .nil)
      · rintro rfl
        exact h.fresh hd
      · simp only [Pmm.next, Function.update_self]
        exact .nil
    · rw [List.flatten_append, List.flatten_singleton, List.nodup_append]
      refine ⟨h.nodup, List.nodup_singleton _, ?_⟩
      rintro d hd e he rfl
      rw [List.mem_singleton] at he
      exact h.fresh (he ▸ hd)
    · intro d hd
      rw [List.flatten_append, List.mem_append] at hd
      rcases hd with hd | hd
      · obtain ⟨i, hi, rfl⟩ := h.nodes d hd
        exact ⟨i, Nat.lt_succ_of_lt hi, rfl⟩
      · rw [List.flatten_singleton, List.mem_singleton] at hd
        exact ⟨j, Nat.lt_succ_self j, hd⟩
    · simp [Pmm.range]
    · intro d hd
      simp [Pmm.range, Function.update_of_ne hd]
  · obtain rfl : j = 64 := le_antisymm h.le hj
    rw [slabAlloc_of_slabAt_full h.slab]
    exact Or.inl ⟨_, rfl, fun hh => absurd hh.2 (lt_irrefl _)⟩

/-- **The search goes on behind a region**: the range is not that region, and no block of it stops the
walk over its list `ds`.
Source: `pmm.c` `pmm_remove_region`
Kind: D -/
structure PmmPasses (p : Pmm) (alignedBase alignedSize : BitVec 64) (r : PmmRegion) (ds : List Addr) :
    Prop where
  not_exact : ¬ (alignedBase = r.base ∧ alignedSize = r.size)
  walk : r.base ≤ alignedBase ∧ alignedBase + alignedSize ≤ r.base + r.size →
    ∀ d ∈ ds, pmmRemoveUpBound p alignedBase alignedSize d = false

/-- **The search ends at a region**, number `i`, with the list `ds`.
Source: `pmm.c` `pmm_remove_region`
Kind: D -/
inductive PmmStops (p : Pmm) (alignedBase alignedSize : BitVec 64) (i : ℕ) (r : PmmRegion)
    (ds : List Addr) : PmmRemoveTarget → Prop
  | used : alignedBase = r.base ∧ alignedSize = r.size → r.free ≠ r.size →
      PmmStops p alignedBase alignedSize i r ds .allocatedFrom
  | whole : alignedBase = r.base ∧ alignedSize = r.size → r.free = r.size →
      PmmStops p alignedBase alignedSize i r ds (.whole i r)
  | part {dpre dpost : List Addr} {block : Addr} : ¬ (alignedBase = r.base ∧ alignedSize = r.size) →
      r.base ≤ alignedBase ∧ alignedBase + alignedSize ≤ r.base + r.size →
      ds = dpre ++ block :: dpost →
      (∀ d ∈ dpre, pmmRemoveUpBound p alignedBase alignedSize d = false) →
      pmmRemoveUpBound p alignedBase alignedSize block = true →
      (p.blocks block).base ≤ alignedBase →
      PmmStops p alignedBase alignedSize i r ds (.part i (dpre.getLastD 0) block)
  | past {dpre dpost : List Addr} {block : Addr} : ¬ (alignedBase = r.base ∧ alignedSize = r.size) →
      r.base ≤ alignedBase ∧ alignedBase + alignedSize ≤ r.base + r.size →
      ds = dpre ++ block :: dpost →
      (∀ d ∈ dpre, pmmRemoveUpBound p alignedBase alignedSize d = false) →
      pmmRemoveUpBound p alignedBase alignedSize block = true →
      ¬ (p.blocks block).base ≤ alignedBase →
      PmmStops p alignedBase alignedSize i r ds .allocatedFrom

/-- **One round of the search**: it ends at the region, or goes on to the next.
Source: `pmm.c` `pmm_remove_region`
Kind: L -/
theorem pmmRemoveFind_round (alignedBase alignedSize : BitVec 64) {r : PmmRegion}
    (regions : List PmmRegion) {ds : List Addr} (h : IsChain 0 p.next r.freeBlocks ds) (k : ℕ) :
    (PmmPasses p alignedBase alignedSize r ds ∧
      pmmRemoveFind p alignedBase alignedSize k (r :: regions) =
        pmmRemoveFind p alignedBase alignedSize (k + 1) regions) ∨
    ∃ t, PmmStops p alignedBase alignedSize k r ds t ∧
      pmmRemoveFind p alignedBase alignedSize k (r :: regions) = some t := by
  rw [pmmRemoveFind]
  by_cases hexact : alignedBase = r.base ∧ alignedSize = r.size
  · rw [if_pos hexact]
    by_cases hfree : r.free ≠ r.size
    · rw [if_pos hfree]
      exact Or.inr ⟨_, .used hexact hfree, rfl⟩
    · rw [if_neg hfree]
      exact Or.inr ⟨_, .whole hexact (not_not.mp hfree), rfl⟩
  · rw [if_neg hexact]
    by_cases hin : r.base ≤ alignedBase ∧ alignedBase + alignedSize ≤ r.base + r.size
    · rw [if_pos hin]
      have hcases : (_ ∧ chase 0 p.next (pmmRemoveUpBound p alignedBase alignedSize)
          addressCount 0 r.freeBlocks = _) ∨ _ := chase_cases h (length_lt_addressCount h)
      rcases hcases with ⟨hall, hchase⟩ | ⟨pre, q, post, rfl, hq, hpre, hchase⟩
      · rw [hchase]
        exact Or.inl ⟨⟨hexact, fun _ => hall⟩, rfl⟩
      · have hq0 : q ≠ 0 := h.suffix.ne_null
        simp only [hchase, hq0, if_false]
        by_cases hunder : (p.blocks q).base ≤ alignedBase
        · rw [if_pos hunder]
          exact Or.inr ⟨_, .part hexact hin rfl hpre hq hunder, rfl⟩
        · rw [if_neg hunder]
          exact Or.inr ⟨_, .past hexact hin rfl hpre hq hunder, rfl⟩
    · rw [if_neg hin]
      exact Or.inl ⟨⟨hexact, fun hh => absurd hh hin⟩, rfl⟩

/-- **The search of `pmm_remove_region`** ends at the first region that it does not pass.
Source: `pmm.c` `pmm_remove_region`
Kind: P -/
theorem pmmRemoveFind_cases (alignedBase alignedSize : BitVec 64) {regions : List PmmRegion}
    (h : Chains 0 p.next (regions.map PmmRegion.freeBlocks) G) (k : ℕ) :
    (pmmRemoveFind p alignedBase alignedSize k regions = some .notManaged ∧
      List.Forall₂ (PmmPasses p alignedBase alignedSize) regions G) ∨
    ∃ rpre r rpost gpre ds gpost t, regions = rpre ++ r :: rpost ∧ G = gpre ++ ds :: gpost ∧
      List.Forall₂ (PmmPasses p alignedBase alignedSize) rpre gpre ∧
      PmmStops p alignedBase alignedSize (k + gpre.length) r ds t ∧
      pmmRemoveFind p alignedBase alignedSize k regions = some t := by
  induction regions generalizing G k with
  | nil =>
      cases h
      exact Or.inl ⟨rfl, .nil⟩
  | cons r regions ih =>
      rw [List.map_cons] at h
      cases h with
      | @cons _ ds _ G' hr hrest =>
          rcases pmmRemoveFind_round alignedBase alignedSize regions hr k with
            ⟨hpass, heq⟩ | ⟨t, hstop, heq⟩
          · rw [heq]
            rcases ih hrest (k + 1) with ⟨hno, hall⟩ |
              ⟨rpre, r', rpost, gpre, ds', gpost, t, rfl, rfl, hall, hstop, hfind⟩
            · exact Or.inl ⟨hno, .cons hpass hall⟩
            · refine Or.inr ⟨r :: rpre, r', rpost, ds :: gpre, ds', gpost, t, rfl, rfl,
                .cons hpass hall, ?_, hfind⟩
              rw [List.length_cons, show k + (gpre.length + 1) = k + 1 + gpre.length by omega]
              exact hstop
          · exact Or.inr ⟨[], r, regions, [], ds, G', t, rfl, rfl, .nil, hstop, heq⟩

/-- The search of `pmm_remove_region` returns.
Source: `pmm.c` `pmm_remove_region`
Kind: P -/
theorem pmmRemoveFind_spec (alignedBase alignedSize : BitVec 64) {regions : List PmmRegion}
    (h : Chains 0 p.next (regions.map PmmRegion.freeBlocks) G) (k : ℕ) :
    pmmRemoveFind p alignedBase alignedSize k regions = some .notManaged ∨
    pmmRemoveFind p alignedBase alignedSize k regions = some .allocatedFrom ∨
    (∃ i r, pmmRemoveFind p alignedBase alignedSize k regions = some (.whole (k + i) r) ∧
      regions[i]? = some r ∧ alignedBase = r.base ∧ alignedSize = r.size) ∨
    ∃ i prev block,
      pmmRemoveFind p alignedBase alignedSize k regions = some (.part (k + i) prev block) ∧
      ChainAt 0 G i prev block ∧ (p.blocks block).base ≤ alignedBase ∧
      pmmRemoveUpBound p alignedBase alignedSize block = true := by
  rcases pmmRemoveFind_cases alignedBase alignedSize h k with ⟨hno, -⟩ |
    ⟨rpre, r, rpost, gpre, ds, gpost, t, rfl, rfl, hpre, hstop, hfind⟩
  · exact Or.inl hno
  · cases hstop with
    | used => exact Or.inr (Or.inl hfind)
    | past => exact Or.inr (Or.inl hfind)
    | whole hexact =>
        refine Or.inr (Or.inr (Or.inl ⟨_, r, hfind, ?_, hexact⟩))
        rw [← hpre.length_eq, List.getElem?_append_right le_rfl, Nat.sub_self]
        rfl
    | part _ _ hds _ hup hunder =>
        subst hds
        exact Or.inr (Or.inr (Or.inr ⟨_, _, _, hfind, ⟨gpre, _, _, gpost, rfl, rfl, rfl⟩, hunder, hup⟩))

/-- A range takes a whole block.
Source: `pmm.c` `pmm_alloc_aligned`, `pmm_remove_region` (neither `EXISTS_PRECEEDING` nor
`EXISTS_POSTCEEDING`)
Kind: D -/
def PmmTakesAll (c : PmmBlock) (alignedBase size : BitVec 64) : Prop :=
  c.base = alignedBase ∧ ¬ alignedBase + size < c.base + c.size

instance (c : PmmBlock) (alignedBase size : BitVec 64) : Decidable (PmmTakesAll c alignedBase size) :=
  inferInstanceAs (Decidable (_ ∧ _))

/-- The ranges that `pmm_remove_region` leaves of a block. The size of the upper one is computed from
fields that have been overwritten.
Source: `pmm.c` `pmm_remove_region`
Kind: D -/
def pmmRemovePieces (c : PmmBlock) (alignedBase alignedSize : BitVec 64) :
    List (BitVec 64 × BitVec 64) :=
  let offset := alignedBase - c.base
  let upper := alignedBase + alignedSize
  if c.base ≠ alignedBase ∧ upper < c.base + c.size then
    [(c.base, offset), (upper, c.base + offset - upper)]
  else if c.base ≠ alignedBase then [(c.base, offset)]
  else if upper < c.base + c.size then [(upper, upper + c.size - upper)]
  else []

/-- **Removing a range from a block**: the block's place in its list is taken by `mid`, which is
empty when the range takes the whole block; the descriptor is then lost. When the answer is `ERR_OK`,
`mid` describes the pieces, and the other descriptors are as they were.
Source: `pmm.c` `pmm_remove_region`
Kind: P
Fidelity: exact -/
theorem pmmRemoveBlock_desc {gpre gpost : List (List Addr)} {dpre dpost : List Addr} {block : Addr}
    (h : DescRep b p j (gpre ++ (dpre ++ block :: dpost) :: gpost))
    (alignedBase alignedSize : BitVec 64) :
    ∃ p' e j' mid, pmmRemoveBlock p gpre.length (dpre.getLastD 0) block alignedBase alignedSize =
        some (p', e) ∧
      DescRep b p' j' (gpre ++ (dpre ++ mid ++ dpost) :: gpost) ∧
      j' + 1 = j + max 1 mid.length ∧
      (mid = [] ↔ PmmTakesAll (p.blocks block) alignedBase alignedSize) ∧
      (e = GrouperError.ok.errval →
        mid.map p'.range = pmmRemovePieces (p.blocks block) alignedBase alignedSize ∧
        (∀ d ∈ gpre.flatten ++ (dpre ++ dpost ++ gpost.flatten), p'.range d = p.range d) ∧
        p'.free = p.free - alignedSize) := by
  have hothers := h.not_mem_others
  have hne : ∀ d ∈ gpre.flatten ++ (dpre ++ dpost ++ gpost.flatten), d ≠ block := by
    rintro d hd rfl
    exact hothers hd
  unfold pmmRemoveBlock PmmTakesAll pmmRemovePieces
  dsimp only
  set c := p.blocks block with hc
  by_cases hpre : c.base ≠ alignedBase
  · by_cases hpost : alignedBase + alignedSize < c.base + c.size
    · rw [if_pos ⟨hpre, hpost⟩, if_pos ⟨hpre, hpost⟩]
      rcases Nat.lt_or_ge j 64 with hj | hj
      · obtain ⟨s, halloc, hat, hsize⟩ := h.slabAlloc_eq hj
        have hnode0 : pmmNode b j ≠ 0 := pmmNode_ne_zero h.home hj.le
        have hblock : block ≠ pmmNode b j := h.ne_fresh (by simp)
        have halloc' : slabAlloc (p.setBlock block { c with
            size := alignedBase - c.base }).blockAllocator = some (s, pmmNode b j) := halloc
        simp only [halloc', hnode0, if_false]
        refine ⟨_, _, j + 1, [block, pmmNode b j], rfl, ?_, rfl, by simp [hpre], fun _ =>
          ⟨?_, fun d hd => ?_, rfl⟩⟩
        · have happ : dpre ++ [block, pmmNode b j] ++ dpost =
              dpre ++ block :: pmmNode b j :: dpost := by simp
          rw [happ]
          apply DescRep.pmmCharge
          exact h.linkExtra hj hat hsize rfl rfl
        · simp [Pmm.range, Octiron.Kernel.pmmCharge, Pmm.modifyRegion, Pmm.setBlock,
            Function.update_of_ne hblock, Function.update_of_ne hblock.symm]
        · have hdfresh : d ≠ pmmNode b j := by
            refine h.ne_fresh ?_
            rw [List.flatten_append, List.flatten_cons]
            simp only [List.mem_append, List.mem_cons] at hd ⊢
            tauto
          have hset := Pmm.setBlock_range_of_ne p { c with size := alignedBase - c.base } (hne d hd)
          rw [← hset]
          exact (Pmm.setBlock_range_of_ne _ _ (hne d hd)).trans
            (Pmm.setBlock_range_of_ne _ _ hdfresh)
      · -- no descriptor: the block has been cut short already
        obtain rfl : j = 64 := le_antisymm h.le hj
        have halloc : slabAlloc (p.setBlock block { c with
            size := alignedBase - c.base }).blockAllocator = some (p.blockAllocator, 0) :=
          slabAlloc_of_slabAt_full h.slab
        simp only [halloc, if_true]
        refine ⟨_, _, 64, [block], rfl, ?_, rfl, by simp [hpre], fun hok => absurd hok (by decide)⟩
        rw [List.append_assoc]
        exact h.setBlock rfl
    · rw [if_neg (fun hh => hpost hh.2), if_pos hpre, if_neg (fun hh => hpost hh.2), if_pos hpre]
      refine ⟨_, _, j, [block], rfl, ?_, rfl, by simp [hpre], fun _ =>
        ⟨?_, fun d hd => Pmm.setBlock_range_of_ne p _ (hne d hd), rfl⟩⟩
      · rw [List.append_assoc]
        apply DescRep.pmmCharge
        exact h.setBlock rfl
      · exact congrArg (fun r => [r]) (Pmm.setBlock_range_self p block _)
  · by_cases hpost : alignedBase + alignedSize < c.base + c.size
    · rw [if_neg (fun hh => hpre hh.1), if_neg hpre, if_pos hpost, if_neg (fun hh => hpre hh.1),
        if_neg hpre, if_pos hpost]
      refine ⟨_, _, j, [block], rfl, ?_, rfl, by simp [hpost], fun _ =>
        ⟨?_, fun d hd => Pmm.setBlock_range_of_ne p _ (hne d hd), rfl⟩⟩
      · rw [List.append_assoc]
        apply DescRep.pmmCharge
        exact h.setBlock rfl
      · exact congrArg (fun r => [r]) (Pmm.setBlock_range_self p block _)
    · rw [if_neg (fun hh => hpre hh.1), if_neg hpre, if_neg hpost, if_neg (fun hh => hpre hh.1),
        if_neg hpre, if_neg hpost]
      obtain ⟨p', hunlink, hrep, hrange, hframe⟩ := h.pmmUnlinkBlock_spec
      rw [hunlink]
      refine ⟨_, _, j, [], rfl, ?_, rfl, ?_, fun _ => ⟨rfl, fun d _ => hrange d, ?_⟩⟩
      · rw [List.append_nil]
        exact hrep.pmmCharge _ _
      · exact ⟨fun _ => ⟨not_not.mp hpre, hpost⟩, fun _ => rfl⟩
      · exact congrArg (· - alignedSize) hframe.free

end desc

end Octiron.Kernel
