import Octiron.Kernel.PmmRequests

/-!
# What a removal covers

`pmm_remove_region` rounds its base down and its size up, each by itself, so that the rounded range
need not reach the end of the one it was given.

* `PmmNamed base size x` — the byte at `x` is one the caller named.
* `PmmFreeAt p G x` — the byte at `x` is in a block of the lists, however the block wraps.
* `PmmKeptOut` — the invariant behind "not handed out": the pointers of the manager stay among blocks
  that do not meet the named bytes.
* **Main result** (`pmmRemoved_iff`): after a removal that answers `ERR_OK` no named byte is free,
  exactly when the free ones among them lie in the rounded range and this is not the last region; and
  no later allocation gets one, when the rounded range does not reach the end of the address space.
-/

namespace Octiron.Kernel

open Octiron.Found
open Octiron.Found.Mem
open Octiron.Kzadhbat

/-! ## Named and free bytes -/

/-- The byte at `x` is one of `[base, base + size)`.
Source: `pmm.h` `pmm_remove_region`
Kind: D -/
def PmmNamed (base size : BitVec 64) (x : Addr) : Prop :=
  base.toNat ≤ x.toNat ∧ x.toNat < base.toNat + size.toNat

/-- The byte at `x` is in the block.
Source: `pmm.c` `struct pmmBlock`
Kind: D -/
def PmmBlock.Has (c : PmmBlock) (x : Addr) : Prop := (x - c.base).toNat < c.size.toNat

/-- The byte at `x` is free.
Source: none: infrastructure
Kind: D -/
def PmmFreeAt (p : Pmm) (G : List (List Addr)) (x : Addr) : Prop :=
  ∃ d ∈ G.flatten, (p.blocks d).Has x

/-- Source: none: infrastructure. Kind: L -/
theorem sub_toNat_lt_iff {x base size : BitVec 64} (h : base.toNat + size.toNat ≤ 2 ^ 64) :
    (x - base).toNat < size.toNat ↔ base.toNat ≤ x.toNat ∧ x.toNat < base.toNat + size.toNat := by
  have hx := x.isLt
  rw [BitVec.toNat_sub]
  omega

/-- A block that does not wrap has the bytes of its extent.
Source: none: infrastructure
Kind: L -/
theorem Pmm.has_iff {p : Pmm} {d x : Addr} (h : (p.extent d).upper ≤ 2 ^ 64) :
    (p.blocks d).Has x ↔ x.toNat ∈ (p.extent d).bytes := by
  have hend : (p.blocks d).base.toNat + (p.blocks d).size.toNat ≤ 2 ^ 64 := h
  rw [PmmBlock.Has, sub_toNat_lt_iff hend, Extent.mem_bytes]
  rfl

/-- Source: none: infrastructure. Kind: L -/
theorem PmmInvariant.freeAt_iff {p : Pmm} {G : List (List Addr)} (h : PmmInvariant p G) (x : Addr) :
    PmmFreeAt p G x ↔ PmmFreeByte p G x.toNat := by
  constructor
  · rintro ⟨d, hd, hx⟩
    exact ⟨_, List.mem_map_of_mem hd, (Pmm.has_iff (h.block hd).2).mp hx⟩
  · rintro ⟨e, he, hx⟩
    obtain ⟨d, hd, rfl⟩ := List.mem_map.mp he
    exact ⟨d, hd, (Pmm.has_iff (h.block hd).2).mpr hx⟩

/-! ## Keeping bytes out of what is handed out -/

/-- The block ends below `2 ^ 57` or wraps around the end of the address space, so that no request
passes its test.
Source: none: infrastructure
Kind: D -/
def PmmBlock.Bounded (c : PmmBlock) : Prop :=
  c.base.toNat + c.size.toNat ≤ 2 ^ 57 ∨
    c.base.toNat ≤ 2 ^ 57 ∧ (c.base + c.size).toNat < c.base.toNat

/-- **A block nothing of `N` can be handed out of**: it does not have a byte of `N`, and it is bounded.
Source: none: infrastructure
Kind: D -/
structure PmmBlock.Apart (N : Addr → Prop) (c : PmmBlock) : Prop where
  bytes : ∀ x, N x → ¬ c.Has x
  bounds : c.Bounded

/-- **The pointers of the manager stay among blocks apart from `N`**: the heads of the lists are in
`S`, which the links keep; and no more is free than there is below `2 ^ 56`.
Source: none: infrastructure
Kind: D -/
structure PmmKeptOut (N S : Addr → Prop) (p : Pmm) : Prop where
  zero : S 0
  heads : ∀ r ∈ p.regions, S r.freeBlocks
  links : ∀ d, S d → d ≠ 0 → S (p.next d)
  blocks : ∀ d, S d → d ≠ 0 → (p.blocks d).Apart N
  free : p.free.toNat ≤ 2 ^ 56

section keptOut

variable {N S : Addr → Prop} {p p' q : Pmm}

/-- A part of a block that does not wrap is apart from what the block is apart from.
Source: none: infrastructure
Kind: L -/
theorem PmmBlock.Apart.sub {c c' : PmmBlock} (h : c.Apart N)
    (hend : c.base.toNat + c.size.toNat ≤ 2 ^ 57) (hlow : c.base.toNat ≤ c'.base.toNat)
    (hhigh : c'.base.toNat + c'.size.toNat ≤ c.base.toNat + c.size.toNat) : c'.Apart N := by
  refine ⟨fun x hx hhas => h.bytes x hx ?_, Or.inl (by omega)⟩
  rw [PmmBlock.Has, sub_toNat_lt_iff (by omega)] at hhas ⊢
  omega

/-- **A block that passes the test** ends below `2 ^ 57`, and what is taken lies in it.
Source: `pmm.c` `pmm_alloc_aligned` (`SIZE_OK`)
Kind: L -/
theorem PmmBlock.Apart.taken {c : PmmBlock} (h : c.Apart N) {size alignment : BitVec 64}
    (halign : ¬ (alignment < basePageSize ∨ alignment &&& (alignment - 1) ≠ 0))
    (hsize : size.toNat ≤ 2 ^ 56) (hok : alignUp c.base alignment + size ≤ c.base + c.size) :
    c.base.toNat + c.size.toNat ≤ 2 ^ 57 ∧ c.base.toNat ≤ (alignUp c.base alignment).toNat ∧
      (alignUp c.base alignment).toNat + size.toNat ≤ c.base.toNat + c.size.toNat := by
  obtain ⟨k, -, hk64, hk⟩ := exists_two_pow_of_alignment halign
  have hbase : c.base.toNat ≤ 2 ^ 57 := by
    rcases h.bounds with hlive | hdead
    · omega
    · exact hdead.1
  obtain ⟨hlow, hhigh, -⟩ := alignUp_block hk hk64 (c := c) (by omega)
  have hsum : (alignUp c.base alignment + size).toNat =
      (alignUp c.base alignment).toNat + size.toNat := by
    rw [BitVec.toNat_add, Nat.mod_eq_of_lt (by omega)]
  rw [BitVec.le_def, hsum] at hok
  rcases h.bounds with hlive | hdead
  · rw [BitVec.toNat_add, Nat.mod_eq_of_lt (by omega)] at hok
    exact ⟨hlive, hlow, hok⟩
  · omega

/-- Setting a descriptor to a block that is apart, with a link in `S`.
Source: none: infrastructure
Kind: L -/
theorem PmmKeptOut.setBlock (h : PmmKeptOut N S p) {d : Addr} {c : PmmBlock} (hnext : S c.next)
    (hc : c.Apart N) : PmmKeptOut N S (p.setBlock d c) := by
  refine ⟨h.zero, h.heads, fun r hr hr0 => ?_, fun r hr hr0 => ?_, h.free⟩
  · rw [Pmm.setBlock_next]
    by_cases hrd : r = d
    · rw [hrd, Function.update_self]
      exact hnext
    · rw [Function.update_of_ne hrd]
      exact h.links r hr hr0
  · by_cases hrd : r = d
    · rw [hrd, Pmm.setBlock_blocks_self]
      exact hc
    · rw [Pmm.setBlock_blocks_of_ne _ _ hrd]
      exact h.blocks r hr hr0

/-- Source: none: infrastructure. Kind: L -/
theorem PmmKeptOut.congr (h : PmmKeptOut N S p)
    (hheads : ∀ r ∈ p'.regions, S r.freeBlocks) (hblocks : p'.blocks = p.blocks)
    (hfree : p'.free.toNat ≤ 2 ^ 56) : PmmKeptOut N S p' := by
  refine ⟨h.zero, hheads, fun d hd hd0 => ?_, fun d hd hd0 => ?_, hfree⟩
  · rw [Pmm.next, hblocks]
    exact h.links d hd hd0
  · rw [hblocks]
    exact h.blocks d hd hd0

/-- A new descriptor joins the set.
Source: none: infrastructure
Kind: L -/
theorem PmmKeptOut.insert (h : PmmKeptOut N S p) {d : Addr} {c : PmmBlock} (hnext : S c.next)
    (hc : c.Apart N) : PmmKeptOut N (fun r => r = d ∨ S r) (p.setBlock d c) := by
  refine ⟨Or.inr h.zero, fun r hr => Or.inr (h.heads r hr), fun r hr hr0 => ?_, fun r hr hr0 => ?_,
    h.free⟩
  · rw [Pmm.setBlock_next]
    by_cases hrd : r = d
    · rw [hrd, Function.update_self]
      exact Or.inr hnext
    · rw [Function.update_of_ne hrd]
      exact Or.inr (h.links r (hr.resolve_left hrd) hr0)
  · by_cases hrd : r = d
    · rw [hrd, Pmm.setBlock_blocks_self]
      exact hc
    · rw [Pmm.setBlock_blocks_of_ne _ _ hrd]
      exact h.blocks r (hr.resolve_left hrd) hr0

/-- The heads after a region has been changed.
Source: none: infrastructure
Kind: L -/
theorem PmmKeptOut.modify_heads (h : PmmKeptOut N S p) (i : ℕ) {f : PmmRegion → PmmRegion}
    (hf : ∀ r ∈ p.regions, S (f r).freeBlocks) : ∀ r ∈ p.regions.modify i f, S r.freeBlocks := by
  intro r hr
  obtain ⟨k, hk⟩ := List.getElem?_of_mem hr
  rw [List.getElem?_modify] at hk
  obtain ⟨t, ht, rfl⟩ := Option.map_eq_some_iff.mp hk
  have hmem := List.mem_of_getElem? ht
  split_ifs
  · exact hf t hmem
  · exact h.heads t hmem

/-- Unlinking a block.
Source: `pmm.c` `pmm_alloc_aligned`
Kind: L -/
theorem PmmKeptOut.unlinkBlock (h : PmmKeptOut N S p) {i : ℕ} {prev block : Addr} (hblock : S block)
    (hblock0 : block ≠ 0) (hrun : pmmUnlinkBlock p i prev block = some q) : PmmKeptOut N S q := by
  have hnext := h.links block hblock hblock0
  unfold pmmUnlinkBlock at hrun
  split_ifs at hrun with hprev
  · obtain ⟨r, -, rfl⟩ := Option.map_eq_some_iff.mp hrun
    exact h.congr (h.modify_heads i fun _ _ => hnext) rfl h.free
  · obtain ⟨r, -, rfl⟩ := Option.map_eq_some_iff.mp hrun
    refine ⟨h.zero, h.heads, fun d hd hd0 => ?_, fun d hd hd0 => ?_, h.free⟩
    · show S ((p.setBlock prev _).next d)
      rw [Pmm.setBlock_next]
      by_cases hdp : d = prev
      · rw [hdp, Function.update_self]
        exact hnext
      · rw [Function.update_of_ne hdp]
        exact h.links d hd hd0
    · show PmmBlock.Apart N ((p.setBlock prev _).blocks d)
      by_cases hdp : d = prev
      · subst hdp
        rw [Pmm.setBlock_blocks_self]
        exact ⟨(h.blocks d hd hd0).bytes, (h.blocks d hd hd0).bounds⟩
      · rw [Pmm.setBlock_blocks_of_ne _ _ hdp]
        exact h.blocks d hd hd0

/-- Taking a block apart does not touch the manager's counter.
Source: `pmm.c` `pmm_alloc_aligned`
Kind: L -/
theorem pmmTakeBlock_free {i : ℕ} {prev block : Addr} {size alignment : BitVec 64}
    (hrun : pmmTakeBlock p i prev block size alignment = some q) : q.free = p.free := by
  unfold pmmTakeBlock at hrun
  dsimp only at hrun
  split_ifs at hrun
  · rcases halloc : slabAlloc (p.setBlock block { p.blocks block with
        size := alignUp (p.blocks block).base alignment - (p.blocks block).base }).blockAllocator with
      _ | ⟨s, x⟩
    · rw [halloc] at hrun
      cases hrun
    · rw [halloc] at hrun
      dsimp only at hrun
      split_ifs at hrun
      cases hrun
      rfl
  · cases hrun
    rfl
  · cases hrun
    rfl
  · unfold pmmUnlinkBlock at hrun
    split_ifs at hrun
    · obtain ⟨r, -, rfl⟩ := Option.map_eq_some_iff.mp hrun
      rfl
    · obtain ⟨r, -, rfl⟩ := Option.map_eq_some_iff.mp hrun
      rfl

/-- **Taking a block apart** leaves blocks that are apart.
Source: `pmm.c` `pmm_alloc_aligned`
Kind: L -/
theorem PmmKeptOut.takeBlock (h : PmmKeptOut N S p) {i : ℕ} {prev block : Addr}
    {size alignment : BitVec 64} (hblock : S block) (hblock0 : block ≠ 0)
    (hend : (p.blocks block).base.toNat + (p.blocks block).size.toNat ≤ 2 ^ 57)
    (hlow : (p.blocks block).base.toNat ≤ (alignUp (p.blocks block).base alignment).toNat)
    (hfits : (alignUp (p.blocks block).base alignment).toNat + size.toNat ≤
      (p.blocks block).base.toNat + (p.blocks block).size.toNat)
    (hrun : pmmTakeBlock p i prev block size alignment = some q) : ∃ S', PmmKeptOut N S' q := by
  have hnext : S (p.blocks block).next := h.links block hblock hblock0
  have hapart := h.blocks block hblock hblock0
  set c := p.blocks block with hc
  set a := alignUp c.base alignment with ha
  have hoffset : (a - c.base).toNat = a.toNat - c.base.toNat :=
    BitVec.toNat_sub_of_le (BitVec.le_def.mpr hlow)
  have hsum : (a + size).toNat = a.toNat + size.toNat := by
    rw [BitVec.toNat_add, Nat.mod_eq_of_lt (by omega)]
  have hupper : (c.base + c.size).toNat = c.base.toNat + c.size.toNat := by
    rw [BitVec.toNat_add, Nat.mod_eq_of_lt (by omega)]
  -- the pieces before and behind what is taken
  have hpre : PmmBlock.Apart N { c with size := a - c.base } :=
    hapart.sub hend le_rfl (by dsimp only; omega)
  have hrest : (c.base + c.size - (a + size)).toNat =
      c.base.toNat + c.size.toNat - (a.toNat + size.toNat) := by
    rw [BitVec.toNat_sub_of_le (by rw [BitVec.le_def]; omega), hupper, hsum]
  have hpost : PmmBlock.Apart N ⟨a + size, c.base + c.size - (a + size), c.next⟩ :=
    hapart.sub hend (by dsimp only; omega) (by dsimp only; omega)
  unfold pmmTakeBlock at hrun
  dsimp only at hrun
  rw [← hc, ← ha] at hrun
  split_ifs at hrun
  · have hfirst : PmmKeptOut N S (p.setBlock block { c with size := a - c.base }) :=
      h.setBlock hnext hpre
    rcases halloc : slabAlloc (p.setBlock block { c with size := a - c.base }).blockAllocator with
      _ | ⟨s, x⟩
    · rw [halloc] at hrun
      cases hrun
    · rw [halloc] at hrun
      dsimp only at hrun
      split_ifs at hrun
      cases hrun
      have hslab : PmmKeptOut N S { p.setBlock block { c with size := a - c.base } with
          blockAllocator := s } := hfirst.congr hfirst.heads rfl hfirst.free
      have hsecond := hslab.insert (d := x)
        (c := ⟨a + size, c.base + c.size - (a + size), c.next⟩) hnext hpost
      refine ⟨_, hsecond.setBlock (Or.inl rfl) ?_⟩
      by_cases hbx : block = x
      · rw [hbx, Pmm.setBlock_blocks_self]
        exact ⟨hpost.bytes, hpost.bounds⟩
      · have hsame := hslab.blocks block hblock hblock0
        rw [Pmm.setBlock_blocks_of_ne _ _ hbx]
        exact ⟨hsame.bytes, hsame.bounds⟩
  · cases hrun
    exact ⟨S, h.setBlock hnext hpre⟩
  · cases hrun
    exact ⟨S, h.setBlock hnext hpost⟩
  · exact ⟨S, h.unlinkBlock hblock hblock0 hrun⟩

/-- **One `pmm_alloc_aligned`**: what it hands out is apart from `N`, and the pointers stay among
blocks that are.
Source: `pmm.c` `pmm_alloc_aligned`
Kind: L -/
theorem PmmKeptOut.allocAligned (h : PmmKeptOut N S p) {size alignment a : BitVec 64} {ret : Addr}
    {e : Errval} (hrun : pmmAllocAligned p size alignment ret = some (p', e, a)) :
    (∃ S', PmmKeptOut N S' p') ∧ (e = GrouperError.ok.errval →
      ∀ x, N x → ¬ (x - a).toNat < (alignUp size basePageSize).toNat) := by
  rcases pmmAllocAligned_inv hrun with ⟨hfail, rfl⟩ | ⟨-, i, prev, block, q, halign, hfree, -, hfind,
    htake, rfl, rfl⟩
  · exact ⟨⟨S, h⟩, fun hok => absurd hok hfail⟩
  · obtain ⟨hblock, hblock0, hok⟩ := pmmFindBlock_invariant h.zero h.links h.heads hfind
    have hapart := h.blocks block hblock hblock0
    have hle : (alignUp size basePageSize).toNat ≤ p.free.toNat := BitVec.le_def.mp hfree
    obtain ⟨hend, hlow, hfits⟩ :=
      hapart.taken halign (hle.trans h.free) (of_decide_eq_true hok)
    obtain ⟨S', hq⟩ := h.takeBlock hblock hblock0 hend hlow hfits htake
    refine ⟨⟨S', hq.congr ?_ rfl ?_⟩, fun _ x hx hin => ?_⟩
    · exact hq.modify_heads i hq.heads
    · have hframe : q.free = p.free := pmmTakeBlock_free htake
      show (q.free - alignUp size basePageSize).toNat ≤ 2 ^ 56
      rw [hframe, BitVec.toNat_sub_of_le hfree]
      exact (Nat.sub_le _ _).trans h.free
    · refine hapart.bytes x hx ?_
      rw [sub_toNat_lt_iff (by omega)] at hin
      rw [PmmBlock.Has, sub_toNat_lt_iff (by omega)]
      omega

/-- **Run lemma**: nothing of `N` is handed out in any number of allocations.
Source: none: infrastructure
Kind: L -/
theorem PmmKeptOut.allocates (h : PmmKeptOut N S p) (hrun : PmmAllocates p q) :
    ∃ S', PmmKeptOut N S' q := by
  induction hrun with
  | refl => exact ⟨S, h⟩
  | tail _ hstep ih =>
      obtain ⟨S', hkept⟩ := ih
      obtain ⟨size, alignment, ret, e, a, halloc⟩ := hstep
      exact (hkept.allocAligned halloc).1

end keptOut

/-! ## What the removal leaves of a block -/

section pieces

variable {c : PmmBlock} {base size : BitVec 64}

/-- The sums that `pmm_remove_region` computes do not wrap below `2 ^ 56`.
Source: none: infrastructure
Kind: L -/
theorem pmmRemove_toNat (hend : c.base.toNat + c.size.toNat ≤ 2 ^ 56)
    (hlow : c.base.toNat ≤ base.toNat)
    (hhigh : base.toNat + size.toNat ≤ c.base.toNat + c.size.toNat) :
    (base + size).toNat = base.toNat + size.toNat ∧
      (base - c.base).toNat = base.toNat - c.base.toNat ∧
      (base + size < c.base + c.size ↔
        base.toNat + size.toNat < c.base.toNat + c.size.toNat) := by
  have hupper : (base + size).toNat = base.toNat + size.toNat := by
    rw [BitVec.toNat_add, Nat.mod_eq_of_lt (by omega)]
  have hcupper : (c.base + c.size).toNat = c.base.toNat + c.size.toNat := by
    rw [BitVec.toNat_add, Nat.mod_eq_of_lt (by omega)]
  refine ⟨hupper, BitVec.toNat_sub_of_le (BitVec.le_def.mpr hlow), ?_⟩
  rw [BitVec.lt_def, hupper, hcupper]

/-- **The pieces have no byte of the range**; and one that has a byte behind it is there only when
the block went on behind the range.
Source: `pmm.c` `pmm_remove_region`
Kind: L -/
theorem pmmRemovePieces_bytes (hend : c.base.toNat + c.size.toNat ≤ 2 ^ 56)
    (hlow : c.base.toNat ≤ base.toNat)
    (hhigh : base.toNat + size.toNat ≤ c.base.toNat + c.size.toNat) (hpos : 0 < size.toNat)
    {d : PmmBlock} (hd : (d.base, d.size) ∈ pmmRemovePieces c base size) :
    d.Bounded ∧ ∀ x, base.toNat ≤ x.toNat → d.Has x →
      base.toNat + size.toNat ≤ x.toNat ∧
        base.toNat + size.toNat < c.base.toNat + c.size.toNat := by
  obtain ⟨hupper, hoffset, hpostiff⟩ := pmmRemove_toNat hend hlow hhigh
  -- the piece below the range
  have hbelow : d.base = c.base → d.size = base - c.base → d.Bounded ∧
      ∀ x, base.toNat ≤ x.toNat → d.Has x → base.toNat + size.toNat ≤ x.toNat ∧
        base.toNat + size.toNat < c.base.toNat + c.size.toNat := by
    intro hdbase hdsize
    have hdend : d.base.toNat + d.size.toNat = base.toNat := by
      rw [hdbase, hdsize, hoffset]
      omega
    refine ⟨Or.inl (by omega), fun x hx hhas => ?_⟩
    rw [PmmBlock.Has, sub_toNat_lt_iff (by omega)] at hhas
    omega
  unfold pmmRemovePieces at hd
  dsimp only at hd
  split_ifs at hd with hboth hpre hpost
  · rcases List.mem_pair.mp hd with heq | heq
    · obtain ⟨hdbase, hdsize⟩ := Prod.mk.inj heq
      exact hbelow hdbase hdsize
    · -- the size that is computed is that of everything but the range
      obtain ⟨hdbase, hdsize⟩ := Prod.mk.inj heq
      have hsize : d.size = -size := by
        rw [hdsize]
        bv_omega
      have hsum : d.base + d.size = base := by
        rw [hdbase, hsize]
        bv_omega
      refine ⟨Or.inr ⟨by rw [hdbase]; omega, by rw [hsum, hdbase]; omega⟩, fun x hx hhas => ?_⟩
      refine ⟨?_, hpostiff.mp hboth.2⟩
      by_contra hno
      rw [PmmBlock.Has, hdbase, hsize, BitVec.toNat_sub, hupper, BitVec.toNat_neg,
        Nat.mod_eq_of_lt (by omega), Nat.mod_eq_of_lt (by omega)] at hhas
      omega
  · obtain ⟨hdbase, hdsize⟩ := Prod.mk.inj (List.mem_singleton.mp hd)
    exact hbelow hdbase hdsize
  · obtain ⟨hdbase, hdsize⟩ := Prod.mk.inj (List.mem_singleton.mp hd)
    have hsize : d.size = c.size := by
      rw [hdsize]
      bv_omega
    refine ⟨Or.inl (by rw [hdbase, hsize]; omega), fun x hx hhas => ⟨?_, hpostiff.mp hpost⟩⟩
    rw [PmmBlock.Has, sub_toNat_lt_iff (by rw [hdbase, hsize]; omega), hdbase, hupper] at hhas
    exact hhas.1
  · exact absurd hd List.not_mem_nil

/-- **Every other byte of the block is in a piece.**
Source: `pmm.c` `pmm_remove_region`
Kind: L -/
theorem exists_pmmRemovePieces (hend : c.base.toNat + c.size.toNat ≤ 2 ^ 56)
    (hlow : c.base.toNat ≤ base.toNat)
    (hhigh : base.toNat + size.toNat ≤ c.base.toNat + c.size.toNat) (hpos : 0 < size.toNat) {x : Addr}
    (hx : c.Has x) (hout : ¬ (base.toNat ≤ x.toNat ∧ x.toNat < base.toNat + size.toNat)) :
    ∃ r ∈ pmmRemovePieces c base size, (x - r.1).toNat < r.2.toNat := by
  obtain ⟨hupper, hoffset, hpostiff⟩ := pmmRemove_toNat hend hlow hhigh
  rw [PmmBlock.Has, sub_toNat_lt_iff (by omega)] at hx
  unfold pmmRemovePieces
  dsimp only
  rcases Nat.lt_or_ge x.toNat base.toNat with hbelow | habove
  · have hpre : c.base ≠ base := by
      rintro rfl
      omega
    have hin : (x - c.base).toNat < (base - c.base).toNat := by
      rw [BitVec.toNat_sub_of_le (BitVec.le_def.mpr hx.1), hoffset]
      omega
    split_ifs with hboth
    · exact ⟨_, List.mem_cons_self, hin⟩
    · exact ⟨_, List.mem_cons_self, hin⟩
  · have hpost : base + size < c.base + c.size := hpostiff.mpr (by omega)
    have hoff : (x - (base + size)).toNat = x.toNat - (base.toNat + size.toNat) := by
      rw [BitVec.toNat_sub_of_le (by rw [BitVec.le_def]; omega), hupper]
    by_cases hpre : c.base ≠ base
    · rw [if_pos ⟨hpre, hpost⟩]
      refine ⟨_, List.mem_cons_of_mem _ List.mem_cons_self, ?_⟩
      have hsize : c.base + (base - c.base) - (base + size) = -size := by bv_omega
      rw [hoff, hsize, BitVec.toNat_neg, Nat.mod_eq_of_lt (by omega)]
      omega
    · rw [if_neg fun hh => hpre hh.1, if_neg hpre, if_pos hpost]
      refine ⟨_, List.mem_cons_self, ?_⟩
      have hsize : base + size + c.size - (base + size) = c.size := by bv_omega
      rw [hoff, hsize]
      show _ < c.size.toNat
      omega

end pieces

/-! ## What is free after a removal -/

/-- The byte at `x` is in the rounded range.
Source: `pmm.c` `pmm_remove_region` (`aligned_base`, `aligned_size`)
Kind: D -/
def PmmRounded (base size : BitVec 64) (x : Addr) : Prop :=
  (alignDown base basePageSize).toNat ≤ x.toNat ∧
    x.toNat < (alignDown base basePageSize).toNat + (alignUp size basePageSize).toNat

/-- **The removal covers what was named**: the free bytes among the named ones lie in the rounded
range, and this is not the last region, which stays in the array.
Source: `pmm.c` `pmm_remove_region`
Kind: D -/
structure PmmRoundingCovers (p : Pmm) (G : List (List Addr)) (base size : BitVec 64) : Prop where
  named : ∀ x, PmmNamed base size x → PmmFreeAt p G x → PmmRounded base size x
  last : ∀ r, p.regions.getLast? = some r → r.base = alignDown base basePageSize →
    r.size = alignUp size basePageSize → r.size = 0

/-- No named byte is in a free block.
Source: `pmm.h` `pmm_remove_region`
Kind: D -/
def PmmNoneFree (p : Pmm) (base size : BitVec 64) : Prop :=
  ∃ G, Chains 0 p.next (p.regions.map PmmRegion.freeBlocks) G ∧
    ∀ x, PmmNamed base size x → ¬ PmmFreeAt p G x

/-- No named byte is in what a later `pmm_alloc_aligned` takes.
Source: `pmm.h` `pmm_remove_region`
Kind: D -/
def PmmNoneHandedOut (p : Pmm) (base size : BitVec 64) : Prop :=
  ∀ q q' s alignment a ret, PmmAllocates p q →
    pmmAllocAligned q s alignment ret = some (q', GrouperError.ok.errval, a) →
    ∀ x, PmmNamed base size x → ¬ (x - a).toNat < (alignUp s basePageSize).toNat

/-- **After a removal**: which lists there are, and that no named byte is on them exactly when the
removal covers what was named.
Source: none: infrastructure
Kind: D -/
structure PmmAfterRemoval (p p' : Pmm) (G G' : List (List Addr)) (base size : BitVec 64) : Prop where
  chains : Chains 0 p'.next (p'.regions.map PmmRegion.freeBlocks) G'
  bytes : (∀ x, PmmNamed base size x → ¬ PmmFreeAt p' G' x) ↔ PmmRoundingCovers p G base size
  bounds : ∀ d ∈ G'.flatten, (p'.blocks d).Bounded
  free : p'.free.toNat ≤ 2 ^ 56

section after

variable {b : Addr} {p p' : Pmm} {j : ℕ} {G G' : List (List Addr)} {base size : BitVec 64}

/-- Source: none: infrastructure. Kind: L -/
theorem Pmm.has_congr {d x : Addr} (h : p'.range d = p.range d) :
    (p'.blocks d).Has x ↔ (p.blocks d).Has x := by
  obtain ⟨hbase, hsize⟩ := Prod.mk.inj h
  rw [PmmBlock.Has, PmmBlock.Has, hbase, hsize]

/-- Two recorded regions with a common byte are one.
Source: none: infrastructure
Kind: L -/
theorem PmmRecorded.eq_of_mem (h : PmmRecorded p) {r r' : PmmRegion} (hr : r ∈ p.regions)
    (hr' : r' ∈ p.regions) {x : ℕ} (hx : x ∈ r.extent.bytes) (hx' : x ∈ r'.extent.bytes) : r = r' := by
  by_contra hne
  have hsymm : Std.Symm fun r r' : PmmRegion => Disjoint r.extent.bytes r'.extent.bytes :=
    ⟨fun _ _ hdis => hdis.symm⟩
  have hdis := (List.pairwise_map.mp h.separate).forall hr hr' hne
  exact Finset.disjoint_left.mp hdis hx hx'

/-- All bytes of a region are free when its counter is its size.
Source: none: infrastructure
Kind: L -/
theorem RegionFree.covers {base size free : BitVec 64} {es : List Extent}
    (h : RegionFree base size free es) (hfull : free = size) {x : ℕ} (hlow : base.toNat ≤ x)
    (hhigh : x < base.toNat + size.toNat) : ∃ e ∈ es, x ∈ e.bytes := by
  have hsep : Separate es := h.ordered.imp Extent.disjoint_of_le
  refine hsep.covers h.inside ?_ hlow hhigh
  rw [← h.free, hfull]

/-- The rounded range starts at or before the first named byte, and less than a page before it.
Source: none: infrastructure
Kind: L -/
theorem alignDown_page_le (base : BitVec 64) :
    (alignDown base basePageSize).toNat ≤ base.toNat ∧
      base.toNat < (alignDown base basePageSize).toNat + 4096 := by
  rw [alignDown_page_toNat]
  omega

/-- Where the pointers lead when the lists have no named byte.
Source: none: infrastructure
Kind: L -/
theorem pmmKeptOut_of_chains {N : Addr → Prop}
    (h : Chains 0 p.next (p.regions.map PmmRegion.freeBlocks) G)
    (hapart : ∀ d ∈ G.flatten, (p.blocks d).Apart N) (hfree : p.free.toNat ≤ 2 ^ 56) :
    PmmKeptOut N (fun d => d = 0 ∨ d ∈ G.flatten) p := by
  refine ⟨Or.inl rfl, fun r hr => h.head_mem (List.mem_map_of_mem hr), fun d hd hd0 => ?_,
    fun d hd hd0 => hapart d (hd.resolve_left hd0), hfree⟩
  exact h.next_mem (hd.resolve_left hd0)

/-- **Nothing named is handed out** when nothing named is on the lists.
Source: none: infrastructure
Kind: L -/
theorem PmmAfterRemoval.noneHandedOut (h : PmmAfterRemoval p p' G G' base size)
    (hcovers : PmmRoundingCovers p G base size) : PmmNoneHandedOut p' base size := by
  have hnone := h.bytes.mpr hcovers
  have hkept : PmmKeptOut (PmmNamed base size) (fun d => d = 0 ∨ d ∈ G'.flatten) p' := by
    refine pmmKeptOut_of_chains h.chains (fun d hd => ⟨fun x hx hhas => ?_, h.bounds d hd⟩) h.free
    exact hnone x hx ⟨d, hd, hhas⟩
  intro q q' s alignment a ret hallocs halloc x hx
  obtain ⟨S, hq⟩ := hkept.allocates hallocs
  exact (hq.allocAligned halloc).2 rfl x hx

/-- The blocks of regions below `2 ^ 56` end there.
Source: none: infrastructure
Kind: L -/
theorem PmmInvariant.block_le (h : PmmInvariant p G) (hrec : PmmRecorded p) {d : Addr}
    (hd : d ∈ G.flatten) : (p.blocks d).base.toNat + (p.blocks d).size.toNat ≤ 2 ^ 56 :=
  (h.below hrec.within).1 _ (List.mem_map_of_mem hd)

/-- A size that is rounded to nothing: nothing is removed.
Source: `pmm.c` `pmm_remove_region` (`NEW_SIZE_NON_ZERO`)
Kind: L -/
theorem PmmInvariant.afterRemoval_none (h : PmmInvariant p G) (hrec : PmmRecorded p)
    (hzero : alignUp size basePageSize = 0) : PmmAfterRemoval p p G G base size := by
  refine ⟨h.chains, ⟨fun hnone => ⟨fun x hx hfree => absurd hfree (hnone x hx), ?_⟩,
    fun hcovers x hx hfree => ?_⟩, fun d hd => Or.inl ?_, (h.below hrec.within).2⟩
  · rw [hzero]
    exact fun _ _ _ hr => hr
  · have hrounded := hcovers.named x hx hfree
    rw [PmmRounded, hzero] at hrounded
    exact absurd hrounded.2 (Nat.not_lt.mpr hrounded.1)
  · exact (h.block_le hrec hd).trans (by norm_num)

/-- Source: none: infrastructure. Kind: L -/
theorem mem_flatten_replace {gpre gpost : List (List Addr)} {dpre mid dpost : List Addr} {d : Addr} :
    d ∈ (gpre ++ (dpre ++ mid ++ dpost) :: gpost).flatten ↔
      d ∈ mid ∨ d ∈ gpre.flatten ++ (dpre ++ dpost ++ gpost.flatten) := by
  simp only [List.flatten_append, List.flatten_cons, List.mem_append]
  tauto

/-- **A part of a region**: what is free after the removal.
Source: `pmm.c` `pmm_remove_region`
Kind: L -/
theorem PmmInvariant.afterRemoval_part {gpre gpost : List (List Addr)} {dpre dpost : List Addr}
    {block : Addr} {r : PmmRegion} {ab sz : BitVec 64} (hab : alignDown base basePageSize = ab)
    (hsz : alignUp size basePageSize = sz)
    (h : PmmInvariant p (gpre ++ (dpre ++ [block] ++ dpost) :: gpost))
    (hdesc : DescRep b p j (gpre ++ (dpre ++ block :: dpost) :: gpost)) (hrec : PmmRecorded p)
    (hpage : 4096 ≤ sz.toNat) (hlow : (p.blocks block).base.toNat ≤ ab.toNat)
    (hhigh : ab.toNat + sz.toNat ≤ (p.blocks block).base.toNat + (p.blocks block).size.toNat)
    (hr : r ∈ p.regions) (hrlow : r.base.toNat ≤ ab.toNat)
    (hrhigh : ab.toNat + sz.toNat ≤ r.base.toNat + r.size.toNat)
    (hexact : ¬ (ab = r.base ∧ sz = r.size))
    (hrun : pmmRemoveBlock p gpre.length (dpre.getLastD 0) block ab sz =
      some (p', GrouperError.ok.errval)) :
    ∃ G', PmmAfterRemoval p p' (gpre ++ (dpre ++ [block] ++ dpost) :: gpost) G' base size := by
  obtain ⟨q, e, j', mid, hrun', hdesc', -, -, hpieces⟩ := pmmRemoveBlock_desc hdesc ab sz
  rw [hrun'] at hrun
  cases hrun
  obtain ⟨hmid, hothers, hfree⟩ := hpieces rfl
  obtain ⟨habase, hbasea⟩ := alignDown_page_le base
  rw [hab] at habase hbasea
  have hnot := hdesc.not_mem_others
  have hblock : block ∈ (gpre ++ (dpre ++ [block] ++ dpost) :: gpost).flatten :=
    mem_flatten_replace.mpr (Or.inl (List.mem_singleton_self _))
  have hend := h.block_le hrec hblock
  have hbytes := fun d => @pmmRemovePieces_bytes _ _ _ hend hlow hhigh (by omega) (p'.blocks d)
  have hmidmem : ∀ d ∈ mid, ((p'.blocks d).base, (p'.blocks d).size) ∈
      pmmRemovePieces (p.blocks block) ab sz := by
    intro d hd
    rw [← hmid]
    exact List.mem_map_of_mem hd
  refine ⟨_, hdesc'.chains, ⟨fun hnone => ⟨fun x hx hfreeAt => ?_, fun last hlast hbase hsize => ?_⟩,
    fun hcovers x hx hfreeAt => ?_⟩, fun d hd => ?_, ?_⟩
  · obtain ⟨d, hd, hhas⟩ := hfreeAt
    by_contra hout
    rcases mem_flatten_replace.mp hd with hd | hd
    · obtain rfl := List.mem_singleton.mp hd
      rw [PmmRounded, hab, hsz] at hout
      obtain ⟨t, ht, hin⟩ := exists_pmmRemovePieces hend hlow hhigh (by omega) hhas hout
      rw [← hmid] at ht
      obtain ⟨d', hd', rfl⟩ := List.mem_map.mp ht
      exact hnone x hx ⟨d', mem_flatten_replace.mpr (Or.inl hd'), hin⟩
    · exact hnone x hx ⟨d, mem_flatten_replace.mpr (Or.inr hd), (Pmm.has_congr (hothers d hd)).mpr hhas⟩
  · -- the range is no whole region, since the search would have met that first
    have heq : last = r := by
      refine hrec.eq_of_mem (List.mem_of_getLast? hlast) hr (x := ab.toNat) ?_ ?_
      · rw [Extent.mem_bytes, Extent.upper, PmmRegion.extent, hbase, hsize, hab, hsz]
        dsimp only
        omega
      · rw [Extent.mem_bytes, Extent.upper, PmmRegion.extent]
        dsimp only
        omega
    subst heq
    exact absurd ⟨hab.symm.trans hbase.symm, hsz.symm.trans hsize.symm⟩ hexact
  · obtain ⟨d, hd, hhas⟩ := hfreeAt
    rcases mem_flatten_replace.mp hd with hd | hd
    · -- a piece behind the range: the byte that follows the range was named and free
      obtain ⟨hle, hlt⟩ := (hbytes d (hmidmem d hd)).2 x (habase.trans hx.1) hhas
      have hy : (ab + sz).toNat = ab.toNat + sz.toNat := by
        rw [BitVec.toNat_add, Nat.mod_eq_of_lt (by omega)]
      have hynamed : PmmNamed base size (ab + sz) := by
        rw [PmmNamed, hy]
        exact ⟨by omega, lt_of_le_of_lt hle hx.2⟩
      have hyhas : (p.blocks block).Has (ab + sz) := by
        rw [PmmBlock.Has, sub_toNat_lt_iff (by omega), hy]
        omega
      have hrounded := hcovers.named _ hynamed ⟨block, hblock, hyhas⟩
      rw [PmmRounded, hab, hsz, hy] at hrounded
      omega
    · have hhas' := (Pmm.has_congr (hothers d hd)).mp hhas
      have hdG : d ∈ (gpre ++ (dpre ++ [block] ++ dpost) :: gpost).flatten :=
        mem_flatten_replace.mpr (Or.inr hd)
      have hrounded := hcovers.named x hx ⟨d, hdG, hhas'⟩
      rw [PmmRounded, hab, hsz] at hrounded
      have hbhas : (p.blocks block).Has x := by
        rw [PmmBlock.Has, sub_toNat_lt_iff (by omega)]
        omega
      have heq := h.eq_of_mem_bytes hdG hblock ((Pmm.has_iff (h.block hdG).2).mp hhas')
        ((Pmm.has_iff (h.block hblock).2).mp hbhas)
      exact hnot (heq ▸ hd)
  · rcases mem_flatten_replace.mp hd with hd | hd
    · exact (hbytes d (hmidmem d hd)).1
    · obtain ⟨hb, hs⟩ := Prod.mk.inj (hothers d hd)
      have hle := h.block_le hrec (mem_flatten_replace.mpr (Or.inr hd))
      refine Or.inl ?_
      rw [hb, hs]
      omega
  · have hle := (h.below hrec.within).2
    have hsum : sz.toNat ≤ p.free.toNat := by
      have hsize := List.le_sum_of_mem (List.mem_map_of_mem (f := Extent.size)
        (List.mem_map_of_mem (f := p.extent) hblock))
      have hext : (p.extent block).size = (p.blocks block).size.toNat := rfl
      rw [h.free, sum_free_counts, sum_free_eq h.counts]
      omega
    rw [hfree, BitVec.toNat_sub_of_le (BitVec.le_def.mpr hsum)]
    omega

/-- The lists when the regions behind one have moved down.
Source: `pmm.c` `pmm_remove_region` (`EXACT_FIT`)
Kind: L -/
theorem chains_pmmShiftLoop {rpre rpost : List PmmRegion} {r : PmmRegion}
    {gpre gpost : List (List Addr)} {ds : List Addr} (hlen : rpre.length = gpre.length)
    (h : Chains 0 p.next ((rpre ++ r :: rpost).map PmmRegion.freeBlocks) (gpre ++ ds :: gpost)) :
    Chains 0 p.next
      ((pmmShiftLoop ((r :: rpost).length - 1) gpre.length (rpre ++ r :: rpost)).map
        PmmRegion.freeBlocks)
      (gpre ++ gpost ++ [(ds :: gpost).getLast (List.cons_ne_nil _ _)]) := by
  rw [← hlen, pmmShiftLoop_append rpre (r :: rpost) (List.cons_ne_nil _ _)]
  have hlists := List.forall₂_map_left_iff.mp h
  obtain ⟨lpre, a, lpost, hsplit, hlen', hpre, ha, hpost⟩ := forall₂_split hlists
  obtain ⟨rfl, htail⟩ := List.append_inj hsplit (hlen.trans hlen'.symm)
  obtain ⟨rfl, rfl⟩ := List.cons.inj htail
  refine List.forall₂_map_left_iff.mpr (List.rel_append (List.rel_append hpre hpost) ?_)
  have hrest : List.Forall₂ (fun (r : PmmRegion) ds => IsChain 0 p.next r.freeBlocks ds)
      (r :: rpost) (ds :: gpost) := .cons ha hpost
  exact .cons (forall₂_getLast hrest _ _) .nil

section whole

variable {rpre rpost : List PmmRegion} {r : PmmRegion} {gpre gpost : List (List Addr)} {ds : List Addr}

/-- The blocks of a region that is free as a whole have its bytes.
Source: `pmm.c` `pmm_remove_region` (`EXACT_FIT`)
Kind: L -/
theorem PmmInvariant.whole_has (h : PmmInvariant p (gpre ++ ds :: gpost))
    (hregions : p.regions = rpre ++ r :: rpost) (hlen : rpre.length = gpre.length)
    (hfull : r.free = r.size) (x : Addr) :
    (∃ d ∈ ds, (p.blocks d).Has x) ↔
      r.base.toNat ≤ x.toNat ∧ x.toNat < r.base.toNat + r.size.toNat := by
  have hlist : RegionFree r.base r.size r.free (ds.map p.extent) := by
    have hlists := h.lists
    rw [hregions] at hlists
    obtain ⟨lpre, a, lpost, hsplit, hlen', -, ha, -⟩ := forall₂_split hlists
    obtain ⟨-, htail⟩ := List.append_inj hsplit (hlen.trans hlen'.symm)
    rw [(List.cons.inj htail).1]
    exact ha
  have hds : ∀ d ∈ ds, (p.extent d).upper ≤ 2 ^ 64 := fun d hd => (h.block (by simp [hd])).2
  constructor
  · rintro ⟨d, hd, hhas⟩
    rw [Pmm.has_iff (hds d hd), Extent.mem_bytes] at hhas
    obtain ⟨hlow, hhigh⟩ := hlist.inside _ (List.mem_map_of_mem hd)
    exact ⟨hlow.trans hhas.1, hhas.2.trans_le hhigh⟩
  · rintro ⟨hlow, hhigh⟩
    obtain ⟨e, he, hx⟩ := hlist.covers hfull hlow hhigh
    obtain ⟨d, hd, rfl⟩ := List.mem_map.mp he
    exact ⟨d, hd, (Pmm.has_iff (hds d hd)).mpr hx⟩

/-- The lists that are left are among those there were.
Source: none: infrastructure
Kind: L -/
theorem mem_flatten_shift {d : Addr}
    (hd : d ∈ (gpre ++ gpost ++ [(ds :: gpost).getLast (List.cons_ne_nil _ _)]).flatten) :
    d ∈ (gpre ++ ds :: gpost).flatten := by
  obtain ⟨l, hl, hdl⟩ := List.mem_flatten.mp hd
  refine List.mem_flatten.mpr ⟨l, ?_, hdl⟩
  rcases List.mem_append.mp hl with hl | hl
  · rcases List.mem_append.mp hl with hl | hl
    · exact List.mem_append_left _ hl
    · exact List.mem_append_right _ (List.mem_cons_of_mem _ hl)
  · rw [List.mem_singleton.mp hl]
    exact List.mem_append_right _ (List.getLast_mem _)

/-- With regions behind the one that is removed, the lists that are left are the others.
Source: none: infrastructure
Kind: L -/
theorem mem_flatten_shift_iff (hgpost : gpost ≠ []) (d : Addr) :
    d ∈ (gpre ++ gpost ++ [(ds :: gpost).getLast (List.cons_ne_nil _ _)]).flatten ↔
      d ∈ gpre.flatten ∨ d ∈ gpost.flatten := by
  have hlast : ∀ x ∈ gpost.getLast hgpost, x ∈ gpost.flatten := fun x hx =>
    List.mem_flatten.mpr ⟨_, List.getLast_mem _, hx⟩
  rw [List.getLast_cons hgpost, List.flatten_append, List.flatten_append,
    List.flatten_singleton, List.mem_append, List.mem_append]
  exact ⟨fun hd => hd.elim id fun hd => Or.inr (hlast d hd), Or.inl⟩

/-- A region with others behind it is not where the last one is.
Source: none: infrastructure
Kind: L -/
theorem PmmRecorded.not_last (hrec : PmmRecorded p) (hregions : p.regions = rpre ++ r :: rpost)
    (hrpost : rpost ≠ []) (hpos : 0 < r.size.toNat) {last : PmmRegion}
    (hlast : p.regions.getLast? = some last) : ¬ (last.base = r.base ∧ last.size = r.size) := by
  rintro ⟨hbase, hsize⟩
  have hlmem : last ∈ rpost := by
    rw [hregions, List.getLast?_append_cons, List.getLast?_cons_of_ne_nil hrpost] at hlast
    exact List.mem_of_getLast? hlast
  have hsep := hrec.separate
  rw [hregions, List.map_append, List.map_cons] at hsep
  have hdis := (List.pairwise_cons.mp (List.pairwise_append.mp hsep).2.1).1 _
    (List.mem_map_of_mem hlmem)
  have hrext : r.extent = last.extent := by
    rw [PmmRegion.extent, PmmRegion.extent, hbase, hsize]
  rw [hrext, disjoint_self, Finset.bot_eq_empty] at hdis
  have hin : r.base.toNat ∈ last.extent.bytes := by
    rw [Extent.mem_bytes, Extent.upper, PmmRegion.extent, hbase, hsize]
    dsimp only
    omega
  rw [hdis] at hin
  exact absurd hin (Finset.notMem_empty _)

/-- **The last region as a whole** stays where it is, and its blocks stay free.
Source: `pmm.c` `pmm_remove_region` (`EXACT_FIT`)
Kind: L -/
theorem PmmInvariant.whole_last (h : PmmInvariant p (gpre ++ [ds]))
    (hregions : p.regions = rpre ++ [r]) (hlen : rpre.length = gpre.length)
    (hpage : 4096 ≤ r.size.toNat) (hpos : 0 < size.toNat)
    (hbase : alignDown base basePageSize = r.base) (hsize : alignUp size basePageSize = r.size)
    (hfull : r.free = r.size) :
    (∀ x, PmmNamed base size x → ¬ PmmFreeAt p (gpre ++ [] ++ [ds]) x) ↔
      PmmRoundingCovers p (gpre ++ [ds]) base size := by
  obtain ⟨habase, hbasea⟩ := alignDown_page_le base
  rw [hbase] at habase hbasea
  refine iff_of_false (fun hnone => ?_) fun hcovers => ?_
  · obtain ⟨d, hd, hhas⟩ := (h.whole_has hregions hlen hfull base).mpr ⟨habase, by omega⟩
    refine hnone base ⟨le_rfl, by omega⟩ ⟨d, ?_, hhas⟩
    simpa using Or.inr hd
  · have hlast : p.regions.getLast? = some r := by
      rw [hregions]
      simp
    have hzero := hcovers.last r hlast hbase.symm hsize.symm
    rw [hzero] at hpage
    exact absurd hpage (by decide)

/-- **A region with others behind it**: its blocks leave the lists, and nothing else does.
Source: `pmm.c` `pmm_remove_region` (`EXACT_FIT`)
Kind: L -/
theorem PmmInvariant.whole_inner (h : PmmInvariant p (gpre ++ ds :: gpost)) (hrec : PmmRecorded p)
    (hregions : p.regions = rpre ++ r :: rpost) (hlen : rpre.length = gpre.length)
    (hgpost : gpost ≠ []) (hpage : 4096 ≤ r.size.toNat)
    (hbase : alignDown base basePageSize = r.base) (hsize : alignUp size basePageSize = r.size)
    (hfull : r.free = r.size) :
    (∀ x, PmmNamed base size x →
        ¬ PmmFreeAt p (gpre ++ gpost ++ [(ds :: gpost).getLast (List.cons_ne_nil _ _)]) x) ↔
      PmmRoundingCovers p (gpre ++ ds :: gpost) base size := by
  have hrounded : ∀ x, PmmRounded base size x ↔ ∃ d ∈ ds, (p.blocks d).Has x := by
    intro x
    rw [h.whole_has hregions hlen hfull, PmmRounded, hbase, hsize]
  refine ⟨fun hnone => ⟨fun x hx hfree => ?_, fun last hlast hlbase hlsize => ?_⟩,
    fun hcovers x hx hfree => ?_⟩
  · obtain ⟨d, hd, hhas⟩ := hfree
    rw [List.flatten_append, List.flatten_cons, List.mem_append, List.mem_append] at hd
    rcases hd with hd | hd | hd
    · exact absurd ⟨d, (mem_flatten_shift_iff hgpost d).mpr (Or.inl hd), hhas⟩ (hnone x hx)
    · exact (hrounded x).mpr ⟨d, hd, hhas⟩
    · exact absurd ⟨d, (mem_flatten_shift_iff hgpost d).mpr (Or.inr hd), hhas⟩ (hnone x hx)
  · -- two regions at one place would meet
    have hrpost : rpost ≠ [] := by
      intro hnil
      have hlength := h.lists.length_eq
      rw [hregions, hnil, List.length_append, List.length_append, List.length_cons,
        List.length_cons, hlen, List.length_nil] at hlength
      exact hgpost (List.length_eq_zero_iff.mp (by omega))
    exact absurd ⟨hlbase.trans hbase, hlsize.trans hsize⟩
      (hrec.not_last hregions hrpost (by omega) hlast)
  · -- a byte on another list is on no block of this region
    obtain ⟨d, hd, hhas⟩ := hfree
    have hdG := mem_flatten_shift hd
    obtain ⟨d', hd', hhas'⟩ := (hrounded x).mp (hcovers.named x hx ⟨d, hdG, hhas⟩)
    have hd'G : d' ∈ (gpre ++ ds :: gpost).flatten := by simp [hd']
    have heq := h.eq_of_mem_bytes hdG hd'G ((Pmm.has_iff (h.block hdG).2).mp hhas)
      ((Pmm.has_iff (h.block hd'G).2).mp hhas')
    subst heq
    have hnodup := h.nodup
    rw [List.flatten_append, List.flatten_cons, List.nodup_append', List.nodup_append'] at hnodup
    rcases (mem_flatten_shift_iff hgpost d).mp hd with hd | hd
    · exact hnodup.2.2 hd (List.mem_append_left _ hd')
    · exact hnodup.2.1.2.2 hd' hd

/-- **A whole region**: what is free after the removal.
Source: `pmm.c` `pmm_remove_region` (`EXACT_FIT`)
Kind: L -/
theorem PmmInvariant.afterRemoval_whole {ab sz : BitVec 64}
    (hab : alignDown base basePageSize = ab) (hsz : alignUp size basePageSize = sz)
    (h : PmmInvariant p (gpre ++ ds :: gpost)) (hdesc : DescRep b p j (gpre ++ ds :: gpost))
    (hrec : PmmRecorded p) (hregions : p.regions = rpre ++ r :: rpost)
    (hlen : rpre.length = gpre.length) (hpage : 4096 ≤ sz.toNat) (hpos : 0 < size.toNat)
    (hbase : ab = r.base) (hsize : sz = r.size) (hfull : r.free = r.size)
    (hrun : pmmRemoveWhole p gpre.length r = some (p', GrouperError.ok.errval)) :
    ∃ G', PmmAfterRemoval p p' (gpre ++ ds :: gpost) G' base size := by
  have hrmem : r ∈ p.regions := by
    rw [hregions]
    simp
  have hreturn : pmmReturnBlock p r.freeBlocks = some p :=
    hdesc.pmmReturnBlock_eq (h.chains.head_mem (List.mem_map_of_mem hrmem)) rfl
  rw [pmmRemoveWhole, hreturn] at hrun
  cases hrun
  have hshift := chains_pmmShiftLoop hlen (hregions ▸ h.chains)
  have hcount : p.regions.length - 1 - gpre.length = (r :: rpost).length - 1 := by
    rw [hregions, List.length_append, List.length_cons, hlen]
    omega
  rw [← hregions, ← hcount] at hshift
  rw [hsize] at hpage
  refine ⟨_, hshift, ?_, fun d hd => Or.inl ?_, ?_⟩
  · rcases eq_or_ne gpost [] with rfl | hgpost
    · obtain rfl : rpost = [] := by
        have hlength := h.lists.length_eq
        rw [hregions, List.length_append, List.length_append, List.length_cons] at hlength
        exact List.length_eq_zero_iff.mp (by simpa [hlen] using hlength)
      exact h.whole_last hregions hlen hpage hpos (hab.trans hbase) (hsz.trans hsize) hfull
    · exact h.whole_inner hrec hregions hlen hgpost hpage (hab.trans hbase) (hsz.trans hsize) hfull
  · exact (h.block_le hrec (mem_flatten_shift hd)).trans (by norm_num)
  · have hle := (h.below hrec.within).2
    have hsum : r.size.toNat ≤ p.free.toNat := by
      rw [h.free, ← hfull]
      exact List.le_sum_of_mem (List.mem_map_of_mem (f := fun r : PmmRegion => r.free.toNat) hrmem)
    show (p.free - r.size).toNat ≤ 2 ^ 56
    rw [BitVec.toNat_sub_of_le (BitVec.le_def.mpr hsum)]
    omega

end whole

/-- **What is free after a removal that answers `ERR_OK`.**
Source: `pmm.c` `pmm_remove_region`
Kind: L -/
theorem PmmInvariant.afterRemoval (h : PmmInvariant p G) (hdesc : DescRep b p j G)
    (hrec : PmmRecorded p) {assertions : Bool} (hpos : 0 < size.toNat)
    (hends : (alignDown base basePageSize).toNat + (alignUp size basePageSize).toNat < 2 ^ 64)
    (hrun : pmmRemoveRegion assertions p base size = some (p', GrouperError.ok.errval)) :
    ∃ G', PmmAfterRemoval p p' G G' base size := by
  generalize hab : alignDown base basePageSize = ab at *
  generalize hsz : alignUp size basePageSize = sz at *
  have hsum : (ab + sz).toNat = ab.toNat + sz.toNat := by
    rw [BitVec.toNat_add, Nat.mod_eq_of_lt hends]
  unfold pmmRemoveRegion at hrun
  dsimp only at hrun
  rw [hab, hsz] at hrun
  split_ifs at hrun with _ hpage
  · rw [BitVec.le_def, basePageSize_toNat] at hpage
    rcases pmmRemoveFind_cases ab sz h.chains 0 with ⟨hno, -⟩ |
      ⟨rpre, r, rpost, gpre, ds, gpost, t, hregions, rfl, hpre, hstop, hfind⟩
    · rw [hno] at hrun
      cases hrun
    · rw [Nat.zero_add] at hstop
      rw [hfind] at hrun
      cases hstop with
      | used => cases hrun
      | past => cases hrun
      | whole hexact hfull =>
          exact h.afterRemoval_whole hab hsz hdesc hrec hregions hpre.length_eq hpage hpos hexact.1
            hexact.2 hfull hrun
      | @part dpre dpost block hexact hin hds _ hup hunder =>
          subst hds
          have hr : r ∈ p.regions := by
            rw [hregions]
            simp
          have hrend := hrec.within r hr
          have hblock : block ∈ (gpre ++ (dpre ++ block :: dpost) :: gpost).flatten := by simp
          have hend := h.block_le hrec hblock
          have hup' := of_decide_eq_true hup
          rw [BitVec.le_def, hsum, BitVec.toNat_add, Nat.mod_eq_of_lt (by omega)] at hup'
          have hin' := hin.2
          rw [BitVec.le_def, hsum, BitVec.toNat_add, Nat.mod_eq_of_lt (by omega)] at hin'
          have hsplit : dpre ++ block :: dpost = dpre ++ [block] ++ dpost := by simp
          have h' := h
          rw [hsplit] at h' ⊢
          exact h'.afterRemoval_part hab hsz hdesc hrec hpage (BitVec.le_def.mp hunder) hup' hr
            (BitVec.le_def.mp hin.1) hin' hexact hrun
  · cases hrun
    refine ⟨G, h.afterRemoval_none hrec ?_⟩
    have hval : (alignUp size basePageSize).toNat = _ := alignDown_page_toNat (size + 4095)
    rw [hsz] at hval ⊢
    rw [BitVec.le_def, basePageSize_toNat, hval] at hpage
    apply BitVec.eq_of_toNat_eq
    rw [hval]
    show _ = 0
    omega

/-- **A removal leaves nothing free of what was named exactly when the rounded range covers it.** In
every state of a run whose calls keep the lists and whose regions do not meet and end at or below
`2 ^ 56`, for every base and size with which `pmm_remove_region` answers `ERR_OK`: no named byte is
free afterwards or handed out later, if and only if the free ones among them lie in the rounded range
and this is not the last region as a whole.
Source: `pmm.c` `pmm_remove_region`, `pmm_alloc_aligned`
Kind: P
Fidelity: exact
Hyps: the static array `pmm_initial_region_slab` lies in the address space, and not in its first
1536 bytes; every earlier removal of the run has failed or taken the upper end of a free block, and the
regions recorded do not meet and end at or below `2 ^ 56`; `G` are the free lists; the size is not zero;
the rounded range ends below `2 ^ 64`; the answer is `ERR_OK` -/
theorem pmmRemoved_iff {assertions : Bool} {slabBuf : Addr} (hlo : 1536 < slabBuf.toNat)
    (hhi : slabBuf.toNat + 1568 ≤ 2 ^ 64)
    (h : PmmReach (fun p op => op.KeepsLists p) assertions slabBuf p) (hrec : PmmRecorded p)
    (hG : Chains 0 p.next (p.regions.map PmmRegion.freeBlocks) G) (hpos : 0 < size.toNat)
    (hends : (alignDown base basePageSize).toNat + (alignUp size basePageSize).toNat < 2 ^ 64)
    (hrun : pmmRemoveRegion assertions p base size = some (p', GrouperError.ok.errval)) :
    PmmNoneFree p' base size ∧ PmmNoneHandedOut p' base size ↔ PmmRoundingCovers p G base size := by
  obtain ⟨G₀, ⟨j, hdesc⟩, hinv⟩ := (pmmHeld_of_reach hlo hhi h).2 hrec
  obtain rfl := hinv.chains.unique hG
  obtain ⟨G', hafter⟩ := hinv.afterRemoval hdesc hrec hpos hends hrun
  constructor
  · rintro ⟨⟨G₁, hG₁, hnone⟩, -⟩
    obtain rfl := hG₁.unique hafter.chains
    exact hafter.bytes.mp hnone
  · intro hcovers
    exact ⟨⟨G', hafter.chains, hafter.bytes.mpr hcovers⟩, hafter.noneHandedOut hcovers⟩

end after

/-- The free bytes of two pages.
Source: none: infrastructure
Kind: L -/
theorem PmmOneRegion.freeAt_iff {p : Pmm} (h : PmmOneRegion p 8192) (x : Addr) :
    PmmFreeAt p [[pmmNode (0x80300000 - 1536) 0]] x ↔
      0x80400000 ≤ x.toNat ∧ x.toNat < 0x80402000 := by
  have hhas : (p.blocks (pmmNode (0x80300000 - 1536) 0)).Has x ↔
      0x80400000 ≤ x.toNat ∧ x.toNat < 0x80402000 := by
    rw [PmmBlock.Has, h.block]
    exact sub_toNat_lt_iff (by decide)
  rw [PmmFreeAt, List.flatten_singleton]
  simp only [List.mem_singleton, exists_eq_left]
  exact hhas

/-- The second of two pages is removed, and is out of the way.
Source: none: infrastructure
Kind: C -/
theorem pmmRemoved_secondPage :
    ∃ p p', PmmReach (fun p op => op.KeepsLists p) true 0x80300000 p ∧
      pmmRemoveRegion true p 0x80401000 4096 = some (p', GrouperError.ok.errval) ∧
      PmmNoneFree p' 0x80401000 4096 ∧ PmmNoneHandedOut p' 0x80401000 4096 := by
  obtain ⟨p, hadd, hone⟩ :=
    exists_pmmOneRegion (show pmmAlignedSize 0x80400000 8192 = 8192 by decide) (by decide)
  have hadd' := congrArg (Option.map Prod.fst) hadd
  have hreach : PmmReach (fun p op => op.KeepsLists p) true 0x80300000 p :=
    .step (.addRegion 0x80400000 8192) (.init pmmZero) trivial hadd'
  obtain ⟨p', hcarve⟩ := hone.removeBlock_ok (Or.inr rfl)
  have hrun : pmmRemoveRegion true p 0x80401000 4096 = some (p', GrouperError.ok.errval) :=
    (hone.removePage (by decide) (by decide) (Or.inr rfl) (by decide) true).trans hcarve
  refine ⟨p, p', hreach, hrun, ?_⟩
  refine (pmmRemoved_iff (by decide) (by decide) hreach (hone.recorded (by decide))
    hone.rep.chains (by decide) (by decide) hrun).mpr ⟨fun x hx _ => hx, ?_⟩
  rw [hone.regions]
  intro r hr hbase
  cases hr
  exact absurd hbase (by decide)

/-- **Not every removal covers what was named**: half a page of the first and half of the second of
two pages are removed, and the second page is free still.
Source: `pmm.c` `pmm_remove_region`
Kind: C -/
theorem not_pmmRemoved_halfPages :
    ¬ ∀ (assertions : Bool) (slabBuf : Addr) (p p' : Pmm) (base size : BitVec 64),
      1536 < slabBuf.toNat → slabBuf.toNat + 1568 ≤ 2 ^ 64 →
      PmmReach (fun _ _ => True) assertions slabBuf p → 0 < size.toNat →
      base.toNat + size.toNat ≤ 2 ^ 64 →
      pmmRemoveRegion assertions p base size = some (p', GrouperError.ok.errval) →
      PmmNoneFree p' base size := by
  intro hall
  obtain ⟨p, hadd, hone⟩ :=
    exists_pmmOneRegion (show pmmAlignedSize 0x80400000 8192 = 8192 by decide) (by decide)
  have hadd' := congrArg (Option.map Prod.fst) hadd
  have hreach : PmmReach (fun _ _ => True) true 0x80300000 p :=
    .step (.addRegion 0x80400000 8192) (.init pmmZero) trivial hadd'
  obtain ⟨p', hcarve⟩ := hone.removeBlock_ok (Or.inl rfl)
  have hrun : pmmRemoveRegion true p 0x80400800 4096 = some (p', GrouperError.ok.errval) :=
    (hone.removePage (by decide) (by decide) (Or.inl rfl) (by decide) true).trans hcarve
  obtain ⟨G₁, hG₁, hnone⟩ := hall true 0x80300000 p p' 0x80400800 4096 (by decide) (by decide) hreach
    (by decide) (by decide) hrun
  obtain ⟨G', hafter⟩ := hone.invariant.afterRemoval hone.rep (hone.recorded (by decide))
    (by decide) (by decide) hrun
  obtain rfl := hG₁.unique hafter.chains
  have hcovers := hafter.bytes.mp hnone
  have hrounded := hcovers.named 0x80401000 ⟨by decide, by decide⟩
    ((hone.freeAt_iff _).mpr ⟨by decide, by decide⟩)
  exact absurd hrounded.2 (by decide)

end Octiron.Kernel
