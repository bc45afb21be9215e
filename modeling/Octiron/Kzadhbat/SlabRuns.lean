import Octiron.Kzadhbat.Slab

/-!
# Runs of the slab allocator

* `SlabAt b L t j s` — the state of an allocator with one region: `j` of its `t` counted blocks have
  been handed out, the chain goes on from node `j` and has one node more than is counted. The first
  accepted `slab_grow` leads to `SlabAt` with `j = 0` (`slabAt_of_first_grow`) and `slab_alloc`
  increases `j` (`slabAlloc_of_slabAt`) until it returns `NULL` (`slabAlloc_of_slabAt_full`).
* `SlabReach C m₀ t` — the states of runs of `slab_init`, `slab_grow`, `slab_alloc` and `slab_free`
  from memory `m₀`, every `slab_grow` meeting `C`, with the buffers donated so far and the blocks
  that are live.
* `SlabSafe` — blocks stay inside the donated buffers and do not overlap, and nothing outside the
  buffers is written. `SlabCounts` — the counters match the chains.
* **Main results** (`slabSafe_runs`, `slabCounts_runs`): both hold in every state of a run in which
  no `slab_grow` is accepted, and the first accepted `slab_grow` breaks both — the block that the
  next `slab_alloc` returns is outside the buffer, and the chain has `free + 1` nodes.
-/

namespace Octiron.Kzadhbat

open Octiron.Found
open Octiron.Found.Mem

/-! ## One region -/

/-- Adding a field offset to an address above `b`.
Source: none: infrastructure
Kind: L -/
theorem above_add (b : Addr) (x y : ℕ) : above b x + BitVec.ofNat 64 y = above b (x + y) := by
  rw [above, above, BitVec.ofNat_add, BitVec.add_assoc]

/-- A load at one offset past a store at another.
Source: none: infrastructure
Kind: L -/
theorem load_store_above {m : Mem} {b : Addr} {v : BitVec 64} {x y : ℕ} (hx : x + 8 ≤ 2 ^ 64)
    (hy : y + 8 ≤ 2 ^ 64) (h : x + 8 ≤ y ∨ y + 8 ≤ x) :
    load64 (store64 m (above b x) v) (above b y) = load64 m (above b y) :=
  load64_store64_of_apart v (apart_offsets b (by norm_num) (by norm_num) hx hy h)

/-- The sizes of a region: `t` blocks of the allocator's block size fit in the `L` bytes below the
header at `above b L`, and everything is below `2 ^ 64` bytes long.
Source: none: infrastructure
Kind: D -/
structure SlabGeom (blocksize : BitVec 64) (L t : ℕ) : Prop where
  blocksize_ge : 8 ≤ blocksize.toNat
  fit : t * blocksize.toNat ≤ L
  bound : L + 32 < 2 ^ 64

/-- **The state of a one-region allocator** after `j` of its blocks have been handed out.
Source: none: infrastructure
Kind: D -/
structure SlabAt (b : Addr) (L t j : ℕ) (s : Slab) : Prop where
  geom : SlabGeom s.slabs.blocksize L t
  le : j ≤ t
  header_ne : above b L ≠ 0
  regions : s.slabs.regions = above b L
  total : s.slabs.total = BitVec.ofNat 64 t
  free : s.slabs.free = BitVec.ofNat 64 (t - j)
  hdrNext : regionNext s.mem (above b L) = 0
  hdrTotal : regionTotal s.mem (above b L) = BitVec.ofNat 64 t
  hdrFree : regionFree s.mem (above b L) = BitVec.ofNat 64 (t - j)
  hdrBlocks : regionBlocks s.mem (above b L) = above b (j * s.slabs.blocksize.toNat)
  links : ∀ i, j ≤ i → i < t →
    load64 s.mem (above b (i * s.slabs.blocksize.toNat)) =
      above b ((i + 1) * s.slabs.blocksize.toNat)
  last : load64 s.mem (above b (t * s.slabs.blocksize.toNat)) = 0

/-- Node `i` of a region with `t` blocks ends below the header when it is one of them.
Source: none: infrastructure
Kind: L -/
theorem SlabGeom.node_le {blocksize : BitVec 64} {L t i : ℕ} (g : SlabGeom blocksize L t)
    (hi : i < t) : i * blocksize.toNat + blocksize.toNat ≤ L := by
  have hmul : (i + 1) * blocksize.toNat ≤ t * blocksize.toNat := Nat.mul_le_mul_right _ hi
  rw [Nat.succ_mul] at hmul
  have := g.fit
  omega

/-- Source: none: infrastructure. Kind: L -/
theorem SlabGeom.node_lt {blocksize : BitVec 64} {L t i j : ℕ} (_g : SlabGeom blocksize L t)
    (hij : i < j) : i * blocksize.toNat + blocksize.toNat ≤ j * blocksize.toNat := by
  rw [← Nat.succ_mul]
  exact Nat.mul_le_mul_right _ hij

/-- Source: none: infrastructure. Kind: L -/
theorem SlabGeom.count_lt {blocksize : BitVec 64} {L t : ℕ} (g : SlabGeom blocksize L t) :
    t < 2 ^ 64 := by
  have h1 := g.fit
  have h2 := g.bound
  have h3 : t * 8 ≤ t * blocksize.toNat := Nat.mul_le_mul_left _ g.blocksize_ge
  omega

/-- The region list of a one-region allocator.
Source: none: infrastructure
Kind: L -/
theorem SlabAt.regionChain {b : Addr} {L t j : ℕ} {s : Slab} (h : SlabAt b L t j s) :
    IsChain 0 (regionNext s.mem) s.slabs.regions [above b L] := by
  rw [h.regions]
  refine .cons h.header_ne ?_
  rw [h.hdrNext]
  exact .nil

/-- The memory an accepted `slab_grow` of `t` blocks leaves when there was no region before, every
address written as an offset above the first node.
Source: `slab.c` `slab_grow`
Kind: D -/
def grownMem (m : Mem) (blocksize : BitVec 64) (b : Addr) (L t : ℕ) : Mem :=
  let m := store64 m (above b (L + 8)) (BitVec.ofNat 64 t)
  let m := store64 m (above b (L + 16)) (BitVec.ofNat 64 t)
  let m := store64 m (above b (L + 24)) b
  let m := (linkLoop blocksize t m (above b (0 * blocksize.toNat))).1
  store64 (store64 m (above b (t * blocksize.toNat)) 0) (above b L) 0

section grown

variable {m : Mem} {blocksize : BitVec 64} {b : Addr} {L t : ℕ}

/-- Past its first word, the header is what `slab_grow` wrote before the linking loop: no node,
and not the tail, meets it.
Source: none: infrastructure
Kind: L -/
theorem grownMem_header (g : SlabGeom blocksize L t) {y : ℕ} (hy : L + 8 ≤ y) (hy' : y + 8 ≤ 2 ^ 64) :
    load64 (grownMem m blocksize b L t) (above b y) =
      load64 (store64 (store64 (store64 m (above b (L + 8)) (BitVec.ofNat 64 t))
        (above b (L + 16)) (BitVec.ofNat 64 t)) (above b (L + 24)) b) (above b y) := by
  have hfit := g.fit
  unfold grownMem
  rw [load_store_above (by omega) hy' (by omega), load_store_above (by omega) hy' (by omega),
    linkLoop_load_of_apart]
  intro i _ hi
  have := g.node_le (i := i) (by omega)
  have := g.blocksize_ge
  exact apart_offsets b (by norm_num) (by norm_num) (by omega) hy' (by omega)

/-- Every counted node is linked to the next.
Source: none: infrastructure
Kind: L -/
theorem grownMem_links (g : SlabGeom blocksize L t) {i : ℕ} (hi : i < t) :
    load64 (grownMem m blocksize b L t) (above b (i * blocksize.toNat)) =
      above b ((i + 1) * blocksize.toNat) := by
  have hle := g.node_le hi
  have hlt := g.node_lt hi
  have hfit := g.fit
  have hbound := g.bound
  have hbs := g.blocksize_ge
  unfold grownMem
  rw [load_store_above (by omega) (by omega) (by omega),
    load_store_above (by omega) (by omega) (by omega)]
  exact linkLoop_load t 0 _ hbs (by rw [Nat.zero_add]; omega) (Nat.zero_le _) (by omega)

/-- The tail holds `NULL`. It may overlap the header's first word, which holds `NULL` too.
Source: none: infrastructure
Kind: L -/
theorem grownMem_last :
    load64 (grownMem m blocksize b L t) (above b (t * blocksize.toNat)) = 0 := by
  have hz : ∀ i, byteOf 0 i = 0 := by
    intro i
    simp [byteOf]
  apply load64_of_zero
  intro k hk
  unfold grownMem store64
  split_ifs with h₁ h₂
  · exact hz _
  · exact hz _
  · rw [add_ofNat_sub_toNat _ (by omega)] at h₂
    exact absurd hk h₂

/-- Source: none: infrastructure. Kind: L -/
theorem slabAt_grownMem (g : SlabGeom blocksize L t) (hne : above b L ≠ 0) :
    SlabAt b L t 0
      ⟨⟨blocksize, above b L, BitVec.ofNat 64 t, BitVec.ofNat 64 t⟩, grownMem m blocksize b L t⟩ := by
  have hbound := g.bound
  refine ⟨g, Nat.zero_le _, hne, rfl, rfl, rfl, ?_, ?_, ?_, ?_, fun i _ hi => grownMem_links g hi,
    grownMem_last⟩
  · simp only [regionNext, grownMem, load64_store64_same]
  · have h8 : above b L + 8 = above b (L + 8) := above_add b L 8
    rw [regionTotal, h8, grownMem_header g (by omega) (by omega),
      load_store_above (by omega) (by omega) (by omega),
      load_store_above (by omega) (by omega) (by omega), load64_store64_same]
  · have h16 : above b L + 16 = above b (L + 16) := above_add b L 16
    rw [regionFree, h16, grownMem_header g (by omega) (by omega),
      load_store_above (by omega) (by omega) (by omega), load64_store64_same, Nat.sub_zero]
  · have h24 : above b L + 24 = above b (L + 24) := above_add b L 24
    rw [regionBlocks, h24, grownMem_header g (by omega) (by omega), load64_store64_same, Nat.zero_mul]
    simp

end grown

/-- Growing does not change the block size.
Source: none: infrastructure
Kind: L -/
theorem slabGrow_blocksize (s : Slab) (buf : Addr) (len : BitVec 64) :
    (slabGrow s buf len).1.slabs.blocksize = s.slabs.blocksize := by
  unfold slabGrow
  split_ifs
  · rfl
  · rfl
  · rfl

section firstGrow

variable {s : Slab} {buf len : BitVec 64}

/-- The length test of `slab_grow`, when the size it computes does not wrap.
Source: none: infrastructure
Kind: L -/
theorem lt_slabRegionSize_one_iff {blocksize : BitVec 64} (hbs : 8 ≤ blocksize.toNat)
    (hbs' : blocksize.toNat + 32 < 2 ^ 64) :
    len < slabRegionSize 1 blocksize ↔ len.toNat < blocksize.toNat + 32 := by
  have hsz : slabBlocksize blocksize = blocksize := by
    unfold slabBlocksize
    split_ifs with hgt
    · rfl
    · rw [BitVec.lt_def, not_lt] at hgt
      exact BitVec.eq_of_toNat_eq (le_antisymm hbs hgt)
  have hval : (slabRegionSize 1 blocksize).toNat = blocksize.toNat + 32 := by
    have h1 : (1 : BitVec 64) * blocksize = blocksize := BitVec.one_mul blocksize
    rw [slabRegionSize, hsz, h1, BitVec.toNat_add]
    exact Nat.mod_eq_of_lt hbs'
  rw [BitVec.lt_def, hval]

/-- The bytes left for blocks after the header.
Source: none: infrastructure
Kind: L -/
theorem sub_sizeofSlabRegion_toNat (h : 32 ≤ len.toNat) :
    (len - sizeofSlabRegion).toNat = len.toNat - 32 := by
  have hle : sizeofSlabRegion ≤ len := by
    rw [BitVec.le_def]
    exact h
  rw [BitVec.toNat_sub_of_le hle]
  rfl

/-- The header of a grown region sits right above the bytes `slab_grow` took for the blocks.
Source: none: infrastructure
Kind: L -/
theorem above_first_node (buf : Addr) (h : 32 ≤ len.toNat) :
    above (buf - (len - sizeofSlabRegion)) (len.toNat - 32) = buf := by
  rw [above, ← sub_sizeofSlabRegion_toNat h, BitVec.ofNat_toNat, BitVec.setWidth_eq,
    BitVec.sub_add_cancel]

/-- The sizes of an accepted region.
Source: none: infrastructure
Kind: L -/
theorem slabGeom_of_len {blocksize : BitVec 64} (hbs : 8 ≤ blocksize.toNat) (h : 32 ≤ len.toNat) :
    SlabGeom blocksize (len.toNat - 32) ((len.toNat - 32) / blocksize.toNat) := by
  have := len.isLt
  exact ⟨hbs, Nat.div_mul_le_self _ _, by omega⟩

/-- **The first accepted `slab_grow`.** It answers `ERR_OK`-like, and the blocks it chains start
`len - 32` bytes *below* the buffer.
Source: `slab.c` `slab_grow`
Kind: P
Fidelity: exact
Hyps: the allocator has no region yet; `SLAB_REGION_SIZE(1, blocksize)` does not wrap -/
theorem slabAt_of_first_grow (hreg : s.slabs.regions = 0) (htot : s.slabs.total = 0)
    (hfree : s.slabs.free = 0) (hbs : 8 ≤ s.slabs.blocksize.toNat)
    (hbs' : s.slabs.blocksize.toNat + 32 < 2 ^ 64) (hbuf : buf ≠ 0)
    (hlen : s.slabs.blocksize.toNat + 32 ≤ len.toNat) :
    SlabAt (buf - (len - sizeofSlabRegion)) (len.toNat - 32)
        ((len.toNat - 32) / s.slabs.blocksize.toNat) 0 (slabGrow s buf len).1 ∧
      (slabGrow s buf len).2 = errNew := by
  set L := len.toNat - 32 with hL
  set t := L / s.slabs.blocksize.toNat with ht
  set b := buf - (len - sizeofSlabRegion) with hb
  have habove : above b L = buf := above_first_node buf (by omega)
  have g : SlabGeom s.slabs.blocksize L t := slabGeom_of_len hbs (by omega)
  have htNat : (BitVec.ofNat 64 t).toNat = t := by
    rw [BitVec.toNat_ofNat, Nat.mod_eq_of_lt g.count_lt]
  have htotal : (len - sizeofSlabRegion) / s.slabs.blocksize = BitVec.ofNat 64 t := by
    apply BitVec.eq_of_toNat_eq
    rw [BitVec.toNat_udiv, sub_sizeofSlabRegion_toNat (by omega), htNat]
  have hsize : ¬ len < slabRegionSize 1 s.slabs.blocksize := by
    rw [lt_slabRegionSize_one_iff hbs hbs']
    omega
  have hgrow : slabGrow s buf len =
      (⟨⟨s.slabs.blocksize, above b L, BitVec.ofNat 64 t, BitVec.ofNat 64 t⟩,
        grownMem s.mem s.slabs.blocksize b L t⟩, errNew) := by
    have hzero : above b (0 * s.slabs.blocksize.toNat) = b := by simp
    have htail : ∀ m, (linkLoop s.slabs.blocksize t m b).2 =
        above b (t * s.slabs.blocksize.toNat) := by
      intro m
      have hsnd : (linkLoop s.slabs.blocksize t m (above b (0 * s.slabs.blocksize.toNat))).2 =
          above b ((0 + t) * s.slabs.blocksize.toNat) := linkLoop_snd t 0 m
      rwa [hzero, Nat.zero_add] at hsnd
    have h8 : buf + 8 = above b (L + 8) := by rw [← above_add, habove]; rfl
    have h16 : buf + 16 = above b (L + 16) := by rw [← above_add, habove]; rfl
    have h24 : buf + 24 = above b (L + 24) := by rw [← above_add, habove]; rfl
    have h0 : ∀ x : BitVec 64, 0 + x = x := BitVec.zero_add
    unfold slabGrow grownMem
    rw [if_neg hbuf, if_neg hsize]
    simp only [htotal, htNat, hreg, htot, hfree, h0, ← hb, h8, h16, h24, htail, hzero, habove]
  rw [hgrow]
  exact ⟨slabAt_grownMem g (by rw [habove]; exact hbuf), rfl⟩

end firstGrow

/-! ## Allocating from one region -/

section oneRegion

variable {b : Addr} {L t j : ℕ} {s : Slab}

/-- Source: none: infrastructure. Kind: L -/
theorem SlabAt.free_toNat (h : SlabAt b L t j s) : s.slabs.free.toNat = t - j := by
  have := h.geom.count_lt
  rw [h.free, BitVec.toNat_ofNat, Nat.mod_eq_of_lt (by omega)]

/-- With every block handed out, `slab_alloc` returns `NULL` and changes nothing.
Source: `slab.c` `slab_alloc`
Kind: L -/
theorem slabAlloc_of_slabAt_full (h : SlabAt b L t t s) : slabAlloc s = some (s, 0) := by
  have hfree : s.slabs.free = 0 := by
    rw [h.free, Nat.sub_self]
    rfl
  rw [slabAlloc, if_pos hfree]

/-- **`slab_alloc` hands out node `j`** and leaves the allocator at `j + 1`.
Source: `slab.c` `slab_alloc`
Kind: P
Fidelity: exact -/
theorem slabAlloc_of_slabAt (h : SlabAt b L t j s) (hj : j < t) :
    ∃ s', slabAlloc s = some (s', above b (j * s.slabs.blocksize.toNat)) ∧
      SlabAt b L t (j + 1) s' ∧ s'.slabs.blocksize = s.slabs.blocksize := by
  have hbound := h.geom.bound
  have hbs := h.geom.blocksize_ge
  have hcount := h.geom.count_lt
  have hnode := h.geom.node_le hj
  have hofNat : BitVec.ofNat 64 (t - j) ≠ 0 := by
    intro h0
    have := congrArg BitVec.toNat h0
    rw [BitVec.toNat_ofNat, Nat.mod_eq_of_lt (by omega)] at this
    change t - j = 0 at this
    omega
  have hfree : ¬ s.slabs.free = 0 := by
    rw [h.free]
    exact hofNat
  have hstop : (regionFree s.mem (above b L) != 0) = true := by
    rw [h.hdrFree]
    simpa using hofNat
  have hchase : chase 0 (regionNext s.mem) (fun r => regionFree s.mem r != 0) addressCount 0
      s.slabs.regions = some (0, above b L) :=
    chase_of_append (p := s.slabs.regions) h.regionChain (fun _ hx => absurd hx List.not_mem_nil)
      hstop (by norm_num [addressCount])
  have h16 : above b L + 16 = above b (L + 16) := above_add b L 16
  have h24 : above b L + 24 = above b (L + 24) := above_add b L 24
  have h8 : above b L + 8 = above b (L + 8) := above_add b L 8
  have hnext : load64 s.mem (above b (j * s.slabs.blocksize.toNat)) =
      above b ((j + 1) * s.slabs.blocksize.toNat) := h.links j le_rfl hj
  have hfree' : load64 s.mem (above b (L + 16)) = BitVec.ofNat 64 (t - j) := by
    rw [← h16]
    exact h.hdrFree
  have hdec : BitVec.ofNat 64 (t - j) - 1 = BitVec.ofNat 64 (t - (j + 1)) := by
    apply BitVec.eq_of_toNat_eq
    have h1 : (1 : BitVec 64).toNat = 1 := rfl
    rw [BitVec.toNat_sub, BitVec.toNat_ofNat, BitVec.toNat_ofNat, h1]
    omega
  set m' := fill (store64 (store64 s.mem (above b (L + 24))
    (above b ((j + 1) * s.slabs.blocksize.toNat))) (above b (L + 16))
    (BitVec.ofNat 64 (t - (j + 1)))) (above b (j * s.slabs.blocksize.toNat))
    s.slabs.blocksize.toNat 0 with hm'
  have halloc : slabAlloc s = some (⟨⟨s.slabs.blocksize, s.slabs.regions, s.slabs.total,
      BitVec.ofNat 64 (t - (j + 1))⟩, m'⟩, above b (j * s.slabs.blocksize.toNat)) := by
    unfold slabAlloc
    rw [if_neg hfree, hchase]
    simp only [h.header_ne, if_false, h.hdrBlocks, hnext, regionFree, h16, h24, memset_eq_fill]
    rw [load_store_above (by omega) (by omega) (by omega), hfree', h.free, hdec]
  -- the block handed out meets neither the header nor a later node
  have hfill : ∀ y, (j + 1) * s.slabs.blocksize.toNat ≤ y → y + 8 ≤ 2 ^ 64 →
      load64 m' (above b y) = load64 (store64 (store64 s.mem (above b (L + 24))
        (above b ((j + 1) * s.slabs.blocksize.toNat))) (above b (L + 16))
        (BitVec.ofNat 64 (t - (j + 1)))) (above b y) := by
    intro y hy hy'
    rw [Nat.succ_mul] at hy
    exact load64_fill_of_apart _
      (apart_offsets b (by omega) (by norm_num) (by omega) hy' (by omega))
  have hle : (j + 1) * s.slabs.blocksize.toNat ≤ L := by rw [Nat.succ_mul]; exact hnode
  refine ⟨_, halloc, ⟨h.geom, hj, h.header_ne, h.regions, h.total, rfl, ?_, ?_, ?_, ?_, ?_, ?_⟩, rfl⟩
  · show load64 m' (above b L) = 0
    rw [hfill _ hle (by omega), load_store_above (by omega) (by omega) (by omega),
      load_store_above (by omega) (by omega) (by omega)]
    exact h.hdrNext
  · show load64 m' (above b L + 8) = _
    rw [h8, hfill _ (by omega) (by omega), load_store_above (by omega) (by omega) (by omega),
      load_store_above (by omega) (by omega) (by omega), ← h8]
    exact h.hdrTotal
  · show load64 m' (above b L + 16) = _
    rw [h16, hfill _ (by omega) (by omega), load64_store64_same]
  · show load64 m' (above b L + 24) = _
    rw [h24, hfill _ (by omega) (by omega), load_store_above (by omega) (by omega) (by omega),
      load64_store64_same]
  · intro i hi hit
    show load64 m' (above b (i * s.slabs.blocksize.toNat)) = _
    have hmul : (j + 1) * s.slabs.blocksize.toNat ≤ i * s.slabs.blocksize.toNat :=
      Nat.mul_le_mul_right _ hi
    have hnode' := h.geom.node_le hit
    rw [hfill _ hmul (by omega), load_store_above (by omega) (by omega) (by omega),
      load_store_above (by omega) (by omega) (by omega)]
    exact h.links i (by omega) hit
  · show load64 m' (above b (t * s.slabs.blocksize.toNat)) = 0
    have hmul : (j + 1) * s.slabs.blocksize.toNat ≤ t * s.slabs.blocksize.toNat :=
      Nat.mul_le_mul_right _ hj
    have hfit := h.geom.fit
    rw [hfill _ hmul (by omega), load_store_above (by omega) (by omega) (by omega),
      load_store_above (by omega) (by omega) (by omega)]
    exact h.last

/-- The nodes still on the chain, from node `j` to the tail.
Source: none: infrastructure
Kind: D -/
def slabNodes (b : Addr) (B j n : ℕ) : List Addr := (List.range' j n).map fun i => above b (i * B)

/-- **The chain has one node more than `free` counts**, as long as no node is at address zero.
Source: `slab.c` `slab_grow` (the loop runs `total` times)
Kind: P -/
theorem SlabAt.chain (h : SlabAt b L t j s)
    (hne : ∀ i ≤ t, above b (i * s.slabs.blocksize.toNat) ≠ 0) :
    IsChain 0 (load64 s.mem) (regionBlocks s.mem (above b L))
      (slabNodes b s.slabs.blocksize.toNat j (t - j + 1)) := by
  rw [h.hdrBlocks]
  have key : ∀ n i, j ≤ i → i + n = t → IsChain 0 (load64 s.mem)
      (above b (i * s.slabs.blocksize.toNat)) (slabNodes b s.slabs.blocksize.toNat i (n + 1)) := by
    intro n
    induction n with
    | zero =>
        intro i _ hi
        obtain rfl : i = t := by omega
        refine .cons (hne i le_rfl) ?_
        rw [h.last]
        exact .nil
    | succ n ih =>
        intro i hji hi
        refine .cons (hne i (by omega)) ?_
        rw [h.links i hji (by omega)]
        exact ih (i + 1) (by omega) (by omega)
  exact key (t - j) j le_rfl (by have := h.le; omega)

/-- Source: none: infrastructure. Kind: L -/
@[simp] theorem slabNodes_length (b : Addr) (B j n : ℕ) : (slabNodes b B j n).length = n := by
  simp [slabNodes]

/-- **`slab_free` does not find the owner of a block that lies at or below the header**, and so of
none of the blocks `slab_grow` placed: it answers `ERR_SLAB_FOREIGN_BLOCK` and changes nothing.
Source: `slab.c` `slab_free` (`LOWER_BOUND`)
Kind: P
Fidelity: exact -/
theorem slabFree_of_slabAt (h : SlabAt b L t j s) {p : Addr} (hp : p ≠ 0) (hle : p ≤ above b L) :
    slabFree s p = some (s, errPush errNew .slabForeignBlock) := by
  have hstop : ∀ r ∈ [above b L], slabOwns s.mem s.slabs.blocksize p r = false := by
    intro r hr
    rw [List.mem_singleton.mp hr]
    have hnot : ¬ above b L < p := by
      rw [BitVec.lt_def, not_lt]
      exact hle
    simp [slabOwns, hnot]
  have hchase : chase 0 (regionNext s.mem) (slabOwns s.mem s.slabs.blocksize p) addressCount 0
      s.slabs.regions = _ :=
    chase_of_forall_not h.regionChain hstop (show 1 < addressCount by norm_num [addressCount])
  unfold slabFree
  rw [if_neg hp, hchase]
  simp

end oneRegion

/-! ## Runs -/

/-- The tests `slab_grow` makes before it takes a buffer.
Source: `slab.c` `slab_grow`
Kind: D -/
def SlabAccepts (s : Slab) (buf : Addr) (len : BitVec 64) : Prop :=
  buf ≠ 0 ∧ ¬ len < slabRegionSize 1 s.slabs.blocksize

instance (s : Slab) (buf : Addr) (len : BitVec 64) : Decidable (SlabAccepts s buf len) :=
  inferInstanceAs (Decidable (_ ∧ _))

/-- A buffer: its address and length.
Source: none: infrastructure
Kind: D -/
abbrev Buffer := Addr × BitVec 64

/-- The address `x` is in the buffer.
Source: none: infrastructure
Kind: D -/
def Buffer.Contains (d : Buffer) (x : Addr) : Prop :=
  d.1.toNat ≤ x.toNat ∧ x.toNat < d.1.toNat + d.2.toNat

/-- Two buffers that do not meet.
Source: none: infrastructure
Kind: D -/
def Buffer.Disjoint (d d' : Buffer) : Prop :=
  d.1.toNat + d.2.toNat ≤ d'.1.toNat ∨ d'.1.toNat + d'.2.toNat ≤ d.1.toNat

/-- The block of `n` bytes at `p` lies in the buffer, behind the header.
Source: none: infrastructure
Kind: D -/
def Buffer.Holds (d : Buffer) (p : Addr) (n : ℕ) : Prop :=
  d.1.toNat + 32 ≤ p.toNat ∧ p.toNat + n ≤ d.1.toNat + d.2.toNat

/-- **Reachable states of a slab allocator**: `slab_init` on memory `m₀`, then any sequence of
`slab_grow` calls that meet `C`, `slab_alloc` calls and `slab_free` calls on live blocks. `D` are
the buffers accepted so far — each inside the address space and disjoint from the ones before it —
and `V` the live blocks.
Source: none: the runs of `slab.c`
Kind: D -/
inductive SlabReach (C : Slab → Addr → BitVec 64 → Prop) (m₀ : Mem) (blocksize : BitVec 64) :
    Slab → List Buffer → List Addr → Prop
  | init (slabs : SlabAllocator) :
      SlabReach C m₀ blocksize (slabInit ⟨slabs, m₀⟩ blocksize).1 [] []
  | grow {s : Slab} {D : List Buffer} {V : List Addr} (buf : Addr) (len : BitVec 64) :
      SlabReach C m₀ blocksize s D V → C s buf len → buf.toNat + len.toNat ≤ 2 ^ 64 →
      (∀ d ∈ D, Buffer.Disjoint (buf, len) d) →
      SlabReach C m₀ blocksize (slabGrow s buf len).1
        (if SlabAccepts s buf len then (buf, len) :: D else D) V
  | alloc {s s' : Slab} {D : List Buffer} {V : List Addr} {p : Addr} :
      SlabReach C m₀ blocksize s D V → slabAlloc s = some (s', p) →
      SlabReach C m₀ blocksize s' D (if p = 0 then V else p :: V)
  | free {s s' : Slab} {D : List Buffer} {V : List Addr} {p : Addr} {err : Errval} :
      SlabReach C m₀ blocksize s D V → p ∈ V → slabFree s p = some (s', err) →
      SlabReach C m₀ blocksize s' D (V.erase p)

/-- **Memory safety of a slab state**: the live blocks lie in donated buffers, behind the header,
and do not overlap; and outside the donated buffers memory is what it was.
Source: none: what `slab_grow`'s caller relies on
Kind: D -/
structure SlabSafe (m₀ : Mem) (s : Slab) (D : List Buffer) (V : List Addr) : Prop where
  inside : ∀ p ∈ V, ∃ d ∈ D, d.Holds p s.slabs.blocksize.toNat
  disjoint : V.Pairwise fun p q => p.toNat + s.slabs.blocksize.toNat ≤ q.toNat ∨
    q.toNat + s.slabs.blocksize.toNat ≤ p.toNat
  frame : ∀ x, (∀ d ∈ D, ¬ d.Contains x) → s.mem x = m₀ x

/-- `n` calls of `slab_alloc` in a row.
Source: none: infrastructure
Kind: D -/
def slabAllocMany : ℕ → Slab → Option (Slab × List Addr)
  | 0, s => some (s, [])
  | n + 1, s =>
      (slabAlloc s).bind fun r => (slabAllocMany n r.1).map fun r' => (r'.1, r.2 :: r'.2)

/-- **The counters match the chains**: each region's chain has `free` nodes, `free ≤ total`, `total`
is the number of blocks that fit behind the header, the allocator's counters are the sums; and
`slab_alloc` returns `NULL` exactly when nothing is free, which happens after `slab_freecount` more
calls.
Source: `slab.h` (the field comments of `struct slabAllocator` and `struct slabRegion`)
Kind: D -/
structure SlabCounts (s : Slab) (D : List Buffer) : Prop where
  chains : ∃ rs, IsChain 0 (regionNext s.mem) s.slabs.regions rs ∧
    (∀ r ∈ rs, (∃ ns, IsChain 0 (load64 s.mem) (regionBlocks s.mem r) ns ∧
        ns.length = (regionFree s.mem r).toNat) ∧
      regionFree s.mem r ≤ regionTotal s.mem r ∧
      ∃ len, (r, len) ∈ D ∧
        (regionTotal s.mem r).toNat = (len.toNat - 32) / s.slabs.blocksize.toNat) ∧
    s.slabs.free.toNat = (rs.map fun r => (regionFree s.mem r).toNat).sum ∧
    s.slabs.total.toNat = (rs.map fun r => (regionTotal s.mem r).toNat).sum
  null_iff : ∃ s' p, slabAlloc s = some (s', p) ∧ (p = 0 ↔ s.slabs.free = 0)
  freecount : ∃ s' ps, slabAllocMany (slabFreecount s).toNat s = some (s', ps) ∧
    (∀ p ∈ ps, p ≠ 0) ∧ slabAlloc s' = some (s', 0)

/-- The state of a run that has taken no buffer: nothing is counted and nothing was written.
Source: none: infrastructure
Kind: D -/
structure SlabIdle (m₀ : Mem) (s : Slab) : Prop where
  blocksize_ge : 8 ≤ s.slabs.blocksize.toNat
  regions : s.slabs.regions = 0
  total : s.slabs.total = 0
  free : s.slabs.free = 0
  mem : s.mem = m₀

/-- Source: none: infrastructure. Kind: L -/
theorem slabBlocksize_ge (blocksize : BitVec 64) : 8 ≤ (slabBlocksize blocksize).toNat := by
  unfold slabBlocksize
  split_ifs with h
  · rw [BitVec.lt_def] at h
    exact Nat.le_of_lt h
  · exact le_rfl

/-- An idle allocator hands out nothing.
Source: none: infrastructure
Kind: L -/
theorem SlabIdle.slabAlloc_eq {m₀ : Mem} {s : Slab} (h : SlabIdle m₀ s) :
    slabAlloc s = some (s, 0) := by
  rw [slabAlloc, if_pos h.free]

/-- A buffer that is not accepted changes nothing.
Source: none: infrastructure
Kind: L -/
theorem slabGrow_of_not_accepts {s : Slab} {buf : Addr} {len : BitVec 64}
    (h : ¬ SlabAccepts s buf len) : (slabGrow s buf len).1 = s := by
  unfold slabGrow
  by_cases hbuf : buf = 0
  · rw [if_pos hbuf]
  · by_cases hlen : len < slabRegionSize 1 s.slabs.blocksize
    · rw [if_neg hbuf, if_pos hlen]
    · exact absurd ⟨hbuf, hlen⟩ h

/-- **Run lemma**: as long as no buffer is accepted the allocator stays idle.
Source: none: infrastructure
Kind: L -/
theorem slabIdle_of_reach {m₀ : Mem} {blocksize : BitVec 64} {s : Slab} {D : List Buffer}
    {V : List Addr} (h : SlabReach (fun s buf len => ¬ SlabAccepts s buf len) m₀ blocksize s D V) :
    SlabIdle m₀ s ∧ D = [] ∧ V = [] := by
  induction h with
  | init slabs => exact ⟨⟨slabBlocksize_ge blocksize, rfl, rfl, rfl, rfl⟩, rfl, rfl⟩
  | grow buf len _ hC _ _ ih =>
      rw [slabGrow_of_not_accepts hC, if_neg hC]
      exact ih
  | alloc _ halloc ih =>
      obtain ⟨hidle, hD, hV⟩ := ih
      rw [hidle.slabAlloc_eq] at halloc
      cases halloc
      rw [if_pos rfl]
      exact ⟨hidle, hD, hV⟩
  | free _ hp _ ih =>
      obtain ⟨-, -, rfl⟩ := ih
      exact absurd hp List.not_mem_nil

/-- The first buffer an idle allocator accepts.
Source: none: infrastructure
Kind: L -/
theorem SlabIdle.slabAt {m₀ : Mem} {s : Slab} (h : SlabIdle m₀ s) {buf : Addr} {len : BitVec 64}
    (hacc : SlabAccepts s buf len) (hbs : s.slabs.blocksize.toNat + 32 < 2 ^ 64) :
    SlabAt (buf - (len - sizeofSlabRegion)) (len.toNat - 32)
        ((len.toNat - 32) / s.slabs.blocksize.toNat) 0 (slabGrow s buf len).1 ∧
      s.slabs.blocksize.toNat + 32 ≤ len.toNat := by
  have hlen := hacc.2
  rw [lt_slabRegionSize_one_iff h.blocksize_ge hbs, not_lt] at hlen
  exact ⟨(slabAt_of_first_grow h.regions h.total h.free h.blocksize_ge hbs hacc.1 hlen).1, hlen⟩

/-- The first block is `len - 32` bytes below the buffer, modulo `2 ^ 64`.
Source: none: infrastructure
Kind: L -/
theorem first_node_toNat {buf len : BitVec 64} (h : 32 ≤ len.toNat) :
    (buf - (len - sizeofSlabRegion)).toNat =
      if len.toNat - 32 ≤ buf.toNat then buf.toNat - (len.toNat - 32)
      else 2 ^ 64 + buf.toNat - (len.toNat - 32) := by
  have hb := buf.isLt
  have hl := len.isLt
  rw [BitVec.toNat_sub, sub_sizeofSlabRegion_toNat h]
  split_ifs with hle <;> omega

/-- The block the first `slab_alloc` after the first accepted `slab_grow` returns.
Source: `slab.c` `slab_grow`, `slab_alloc`
Kind: L -/
theorem SlabIdle.slabAlloc_slabGrow {m₀ : Mem} {s : Slab} (h : SlabIdle m₀ s) {buf : Addr}
    {len : BitVec 64} (hacc : SlabAccepts s buf len) (hbs : s.slabs.blocksize.toNat + 32 < 2 ^ 64) :
    ∃ s', slabAlloc (slabGrow s buf len).1 = some (s', buf - (len - sizeofSlabRegion)) ∧
      s'.slabs.blocksize = s.slabs.blocksize := by
  obtain ⟨hat, hlen⟩ := h.slabAt hacc hbs
  have hsize := slabGrow_blocksize s buf len
  have hpos : 0 < (len.toNat - 32) / s.slabs.blocksize.toNat :=
    Nat.div_pos (by omega) (by have := h.blocksize_ge; omega)
  obtain ⟨s', halloc, -, hs'⟩ := slabAlloc_of_slabAt hat hpos
  refine ⟨s', ?_, hs'.trans hsize⟩
  rw [halloc, Nat.zero_mul]
  simp

/-- **Memory safety of slab runs.** Every state of a run that takes no buffer is safe. The first
buffer that is taken breaks safety: the block the next `slab_alloc` returns starts `len - 32` bytes
below `buf`, outside of the buffer.
Source: `slab.c` `slab_grow` (`buf - len` for `buf + sizeof(struct slabRegion)`)
Kind: P
Fidelity: exact
Hyps: in the second part the buffer ends inside the address space, is at most half of it, and is not
of the one length that makes the block's address zero -/
theorem slabSafe_runs (m₀ : Mem) (blocksize : BitVec 64) {s : Slab} {D : List Buffer} {V : List Addr}
    (h : SlabReach (fun s buf len => ¬ SlabAccepts s buf len) m₀ blocksize s D V) :
    SlabSafe m₀ s D V ∧
      ∀ buf len, SlabAccepts s buf len → s.slabs.blocksize.toNat + 32 < 2 ^ 64 →
        buf.toNat + len.toNat ≤ 2 ^ 64 → len.toNat ≤ 2 ^ 63 → len.toNat - 32 ≠ buf.toNat →
        ∃ s' p, slabAlloc (slabGrow s buf len).1 = some (s', p) ∧ p ≠ 0 ∧
          ¬ SlabSafe m₀ s' [(buf, len)] [p] := by
  obtain ⟨hidle, rfl, rfl⟩ := slabIdle_of_reach h
  refine ⟨⟨by simp, .nil, fun x _ => by rw [hidle.mem]⟩, ?_⟩
  intro buf len hacc hbs _ hhalf hnz
  obtain ⟨s', halloc, hsize⟩ := hidle.slabAlloc_slabGrow hacc hbs
  have hlen := (hidle.slabAt hacc hbs).2
  have hp : (buf - (len - sizeofSlabRegion)).toNat = _ := first_node_toNat (by omega)
  refine ⟨s', _, halloc, ?_, ?_⟩
  · intro h0
    rw [h0] at hp
    change (0 : ℕ) = _ at hp
    have := buf.isLt
    split_ifs at hp <;> omega
  · intro hsafe
    obtain ⟨d, hd, hlo, hhi⟩ := hsafe.inside _ (List.mem_singleton.mpr rfl)
    rw [List.mem_singleton] at hd
    subst hd
    rw [hp] at hlo hhi
    simp only at hlo hhi
    have := hidle.blocksize_ge
    rw [hsize] at hhi
    split_ifs at hlo hhi <;> omega

/-- A fresh allocator of 24-byte blocks over zeroed memory.
Source: none: infrastructure
Kind: D -/
def slabOf24 : Slab := (slabInit ⟨⟨0, 0, 0, 0⟩, fun _ => 0⟩ 24).1

/-- Source: none: infrastructure. Kind: L -/
theorem slabReach_slabOf24 (C : Slab → Addr → BitVec 64 → Prop) :
    SlabReach C (fun _ => 0) 24 slabOf24 [] [] :=
  .init ⟨0, 0, 0, 0⟩

/-- Source: none: infrastructure. Kind: L -/
theorem slabIdle_slabOf24 : SlabIdle (fun _ => 0) slabOf24 := ⟨by decide, rfl, rfl, rfl, rfl⟩

/-- Too short for the header and one block. Source: none: infrastructure. Kind: L -/
theorem not_slabAccepts_40 : ¬ SlabAccepts slabOf24 0x80001000 40 := by decide

/-- Just long enough for the header and one block. Source: none: infrastructure. Kind: L -/
theorem slabAccepts_56 : SlabAccepts slabOf24 0x80001000 56 := by decide

/-- The run that offers a buffer of 40 bytes, which is refused.
Source: none: infrastructure
Kind: L -/
theorem slabReach_refused :
    SlabReach (fun s buf len => ¬ SlabAccepts s buf len) (fun _ => 0) 24
      (slabGrow slabOf24 0x80001000 40).1 [] [] := by
  have hinit := slabReach_slabOf24 fun s buf len => ¬ SlabAccepts s buf len
  have hrun := SlabReach.grow 0x80001000 40 hinit not_slabAccepts_40 (by decide) (by simp)
  rwa [if_neg not_slabAccepts_40] at hrun

/-- The run that offers a buffer of 56 bytes, which is taken.
Source: none: infrastructure
Kind: L -/
theorem slabReach_taken :
    SlabReach (fun _ _ _ => True) (fun _ => 0) 24 (slabGrow slabOf24 0x80001000 56).1
      [(0x80001000, 56)] [] := by
  have hinit := slabReach_slabOf24 fun _ _ _ => True
  have hrun := SlabReach.grow 0x80001000 56 hinit trivial (by decide) (by simp)
  rwa [if_pos slabAccepts_56] at hrun

/-- A run that takes no buffer, and what 56 bytes at `0x80001000` then do.
Source: none: infrastructure
Kind: C -/
theorem slabSafe_runs_56 :
    SlabSafe (fun _ => 0) (slabGrow slabOf24 0x80001000 40).1 [] [] ∧
      ∃ s' p, slabAlloc (slabGrow slabOf24 0x80001000 56).1 = some (s', p) ∧ p ≠ 0 ∧
        ¬ SlabSafe (fun _ => 0) s' [(0x80001000, 56)] [p] := by
  have key := slabSafe_runs _ _ slabReach_refused
  rw [slabGrow_of_not_accepts not_slabAccepts_40] at key ⊢
  exact ⟨key.1, key.2 _ _ slabAccepts_56 (by decide) (by decide) (by decide) (by decide)⟩

/-- Not every reachable state is safe: 56 bytes at `0x80001000` for one block of 24, and the block
handed out is at `0x80000fe8`.
Source: `slab.c` `slab_grow`
Kind: C -/
theorem not_slabSafe_of_reach : ¬ ∀ (m₀ : Mem) (blocksize : BitVec 64) (s : Slab) (D : List Buffer)
    (V : List Addr), SlabReach (fun _ _ _ => True) m₀ blocksize s D V → SlabSafe m₀ s D V := by
  intro hall
  obtain ⟨s', halloc, -⟩ := slabIdle_slabOf24.slabAlloc_slabGrow slabAccepts_56 (by decide)
  have hsafe := hall _ _ _ _ _ (SlabReach.alloc slabReach_taken halloc)
  rw [if_neg (by decide)] at hsafe
  obtain ⟨d, hd, hlo, -⟩ := hsafe.inside _ (List.mem_singleton.mpr rfl)
  rw [List.mem_singleton] at hd
  subst hd
  exact absurd hlo (by decide)

/-- A region whose chain keeps clear of address zero is miscounted.
Source: `slab.c` `slab_grow`
Kind: L -/
theorem not_slabCounts_of_slabAt {b : Addr} {L t j : ℕ} {s : Slab} {D : List Buffer}
    (h : SlabAt b L t j s) (hne : ∀ i ≤ t, above b (i * s.slabs.blocksize.toNat) ≠ 0) :
    ¬ SlabCounts s D := by
  rintro ⟨⟨rs, hrs, hregions, -⟩, -, -⟩
  have hmem : above b L ∈ rs := by
    rw [hrs.unique h.regionChain]
    exact List.mem_singleton.mpr rfl
  obtain ⟨⟨ns, hns, hlength⟩, -⟩ := hregions _ hmem
  rw [hns.unique (h.chain hne), slabNodes_length, h.hdrFree, BitVec.toNat_ofNat,
    Nat.mod_eq_of_lt (by have := h.geom.count_lt; omega)] at hlength
  omega

/-- A first node above address zero keeps all nodes of the region above it.
Source: none: infrastructure
Kind: L -/
theorem above_first_node_ne_zero {buf len : BitVec 64} {x : ℕ} (h : 32 ≤ len.toNat)
    (hlt : len.toNat - 32 < buf.toNat) (hx : x ≤ len.toNat - 32) :
    above (buf - (len - sizeofSlabRegion)) x ≠ 0 := by
  intro h0
  have hb := buf.isLt
  have hval := congrArg BitVec.toNat h0
  rw [above, BitVec.toNat_add, first_node_toNat h, if_pos (by omega), BitVec.toNat_ofNat] at hval
  change _ = 0 at hval
  omega

/-- **The counters of slab runs.** In every state of a run that takes no buffer they match the
chains. The first buffer that is taken breaks them: its chain has one node more than is counted.
Source: `slab.c` `slab_grow` (the loop runs `total` times, for `total` blocks)
Kind: P
Fidelity: exact
Hyps: in the second part the blocks do not wrap around address zero -/
theorem slabCounts_runs (m₀ : Mem) (blocksize : BitVec 64) {s : Slab} {D : List Buffer}
    {V : List Addr}
    (h : SlabReach (fun s buf len => ¬ SlabAccepts s buf len) m₀ blocksize s D V) :
    SlabCounts s D ∧
      ∀ buf len, SlabAccepts s buf len → s.slabs.blocksize.toNat + 32 < 2 ^ 64 →
        len.toNat - 32 < buf.toNat →
        ¬ SlabCounts (slabGrow s buf len).1 [(buf, len)] := by
  obtain ⟨hidle, rfl, rfl⟩ := slabIdle_of_reach h
  refine ⟨⟨⟨[], ?_, by simp, ?_, ?_⟩, ⟨s, 0, hidle.slabAlloc_eq, by simp [hidle.free]⟩,
    ⟨s, [], ?_, by simp, hidle.slabAlloc_eq⟩⟩, ?_⟩
  · rw [hidle.regions]
    exact .nil
  · rw [hidle.free]
    rfl
  · rw [hidle.total]
    rfl
  · rw [slabFreecount, hidle.free]
    rfl
  · intro buf len hacc hbs hlt hcounts
    obtain ⟨hat, hlen⟩ := hidle.slabAt hacc hbs
    refine not_slabCounts_of_slabAt hat (fun i hi => ?_) hcounts
    refine above_first_node_ne_zero (by omega) hlt ?_
    exact (Nat.mul_le_mul_right _ hi).trans hat.geom.fit

/-- The 56 bytes at `0x80001000` again: one block counted, two nodes on the chain.
Source: none: infrastructure
Kind: C -/
theorem slabCounts_runs_56 :
    SlabCounts (slabGrow slabOf24 0x80001000 40).1 [] ∧
      ¬ SlabCounts (slabGrow slabOf24 0x80001000 56).1 [(0x80001000, 56)] := by
  have key := slabCounts_runs _ _ slabReach_refused
  rw [slabGrow_of_not_accepts not_slabAccepts_40] at key ⊢
  exact ⟨key.1, key.2 _ _ slabAccepts_56 (by decide) (by decide)⟩

/-- Not every reachable state is counted right.
Source: `slab.c` `slab_grow`
Kind: C -/
theorem not_slabCounts_of_reach : ¬ ∀ (m₀ : Mem) (blocksize : BitVec 64) (s : Slab)
    (D : List Buffer) (V : List Addr), SlabReach (fun _ _ _ => True) m₀ blocksize s D V →
    SlabCounts s D := by
  intro hall
  obtain ⟨hat, -⟩ := slabIdle_slabOf24.slabAt slabAccepts_56 (by decide)
  refine not_slabCounts_of_slabAt hat (fun i hi => ?_) (hall _ _ _ _ _ slabReach_taken)
  exact above_first_node_ne_zero (by decide) (by decide)
    ((Nat.mul_le_mul_right _ hi).trans hat.geom.fit)

end Octiron.Kzadhbat
