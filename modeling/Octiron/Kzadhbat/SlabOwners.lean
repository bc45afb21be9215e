import Octiron.Kzadhbat.SlabRuns

/-!
# Giving blocks back to the slab allocator

`slab_free` looks for the region that owns a block between the region's header and the end of the
blocks *behind* it, and `slab_grow` places the blocks *below* the header.

* `Buffer.block`, `Buffer.Inside` — the blocks that `slab_grow` makes of a buffer.
* `SlabFreed s s' rs r p` — the block `p` has gone to the free chain of region `r`, and nothing else
  has changed.
* `SlabFrees s D V` — live blocks can be given back, that undoes `slab_alloc`, and other pointers are
  refused.
* **Main result** (`slabFrees_runs`): so it is in every state of a run that takes no buffer, and the
  first buffer that is taken breaks it, for live blocks and for other pointers.
-/

namespace Octiron.Kzadhbat

open Octiron.Found
open Octiron.Found.Mem

/-! ## What giving a block back should do -/

/-- How many blocks of `blocksize` bytes `slab_grow` makes of the buffer.
Source: `slab.c` `slab_grow`
Kind: D -/
def Buffer.blockCount (d : Buffer) (blocksize : ℕ) : ℕ := (d.2.toNat - 32) / blocksize

/-- The address `off` bytes behind the first block of the buffer.
Source: `slab.c` `slab_grow`
Kind: D -/
def Buffer.block (d : Buffer) (off : ℕ) : Addr := above (d.1 - (d.2 - sizeofSlabRegion)) off

/-- The address lies in a block of the buffer.
Source: `slab.c` `slab_grow`
Kind: D -/
def Buffer.Inside (d : Buffer) (blocksize : ℕ) (p : Addr) : Prop :=
  ∃ off, off < d.blockCount blocksize * blocksize ∧ p = d.block off

/-- **The block `p` has gone to the free chain of region `r`**, one of the regions `rs`: it is the head
of the chain, the counters of the region and of the allocator are up by one, and the other regions
are as they were.
Source: `slab.c` `slab_free`
Kind: D -/
structure SlabFreed (s s' : Slab) (rs : List Addr) (r p : Addr) : Prop where
  head : regionBlocks s'.mem r = p
  link : load64 s'.mem p = regionBlocks s.mem r
  region : regionFree s'.mem r = regionFree s.mem r + 1
  slabs : s'.slabs = { s.slabs with free := s.slabs.free + 1 }
  others : ∀ r' ∈ rs, r' ≠ r → regionFree s'.mem r' = regionFree s.mem r' ∧
    regionBlocks s'.mem r' = regionBlocks s.mem r'
  regions : ∀ r' ∈ rs, regionNext s'.mem r' = regionNext s.mem r' ∧
    regionTotal s'.mem r' = regionTotal s.mem r'

/-- **Giving back is the inverse of taking**: a live block goes back to the region it came from, a
block that has just been taken restores the counters, and a pointer into no block is refused. `D` are
the buffers and `V` the live blocks.
Source: `slab.h` `slab_free`
Kind: D -/
structure SlabFrees (s : Slab) (D : List Buffer) (V : List Addr) : Prop where
  live : ∀ p ∈ V, ∃ s' d i rs, slabFree s p = some (s', GrouperError.ok.errval) ∧ d ∈ D ∧
    i < d.blockCount s.slabs.blocksize.toNat ∧ p = d.block (i * s.slabs.blocksize.toNat) ∧
    IsChain 0 (regionNext s.mem) s.slabs.regions rs ∧ d.1 ∈ rs ∧ SlabFreed s s' rs d.1 p
  undo : ∀ s' p, slabAlloc s = some (s', p) → p ≠ 0 → ∃ s'',
    slabFree s' p = some (s'', GrouperError.ok.errval) ∧ s''.slabs = s.slabs ∧
    ∀ rs, IsChain 0 (regionNext s.mem) s.slabs.regions rs → ∀ r ∈ rs,
      regionFree s''.mem r = regionFree s.mem r
  foreign : ∀ p, p ≠ 0 → (∀ d ∈ D, ¬ d.Inside s.slabs.blocksize.toNat p) →
    slabFree s p = some (s, GrouperError.slabForeignBlock.errval)

/-! ## No buffer, and the first buffer -/

section first

variable {m₀ : Mem} {s : Slab}

/-- Without a region every pointer is foreign.
Source: `slab.c` `slab_free`
Kind: L -/
theorem SlabIdle.slabFree_eq (h : SlabIdle m₀ s) {p : Addr} (hp : p ≠ 0) :
    slabFree s p = some (s, GrouperError.slabForeignBlock.errval) := by
  have hchain : IsChain 0 (regionNext s.mem) s.slabs.regions [] := by
    rw [h.regions]
    exact .nil
  have hchase : chase 0 (regionNext s.mem) (slabOwns s.mem s.slabs.blocksize p) addressCount 0
      s.slabs.regions = some (0, 0) :=
    chase_of_forall_not hchain (fun r hr => absurd hr List.not_mem_nil) (by norm_num [addressCount])
  unfold slabFree
  rw [if_neg hp, hchase]
  rfl

/-- Source: none: infrastructure. Kind: L -/
theorem SlabIdle.slabFrees (h : SlabIdle m₀ s) : SlabFrees s [] [] := by
  refine ⟨fun p hp => absurd hp List.not_mem_nil, fun s' p halloc hp => ?_, fun p hp _ => ?_⟩
  · rw [h.slabAlloc_eq] at halloc
    cases halloc
    exact absurd rfl hp
  · exact h.slabFree_eq hp

/-- **`slab_free` takes the first address behind the header**, where no block is.
Source: `slab.c` `slab_free` (`LOWER_BOUND`, `UPPER_BOUND`)
Kind: L -/
theorem slabFree_behind_header {b : Addr} {L t j : ℕ} (h : SlabAt b L t j s) (ht : 0 < t)
    (hend : (above b L).toNat + 32 + t * s.slabs.blocksize.toNat < 2 ^ 64) :
    ∃ s', slabFree s (above b L + sizeofSlabRegion) = some (s', GrouperError.ok.errval) := by
  have hbs := h.geom.blocksize_ge
  have hcount := h.geom.count_lt
  have hpos : 0 < t * s.slabs.blocksize.toNat := Nat.mul_pos ht (by omega)
  have h32 : sizeofSlabRegion.toNat = 32 := rfl
  have hbehind : (above b L + sizeofSlabRegion).toNat = (above b L).toNat + 32 := by
    rw [BitVec.toNat_add, h32, Nat.mod_eq_of_lt (by omega)]
  have hmul : (BitVec.ofNat 64 t * s.slabs.blocksize).toNat = t * s.slabs.blocksize.toNat := by
    rw [BitVec.toNat_mul, BitVec.toNat_ofNat, Nat.mod_eq_of_lt hcount, Nat.mod_eq_of_lt (by omega)]
  have howns : slabOwns s.mem s.slabs.blocksize (above b L + sizeofSlabRegion) (above b L) = true := by
    unfold slabOwns
    rw [h.hdrTotal, Bool.and_eq_true, decide_eq_true_eq, decide_eq_true_eq, BitVec.lt_def,
      BitVec.lt_def, BitVec.toNat_add (above b L + sizeofSlabRegion), hmul, hbehind,
      Nat.mod_eq_of_lt hend]
    omega
  have hne : above b L + sizeofSlabRegion ≠ 0 := by
    intro h0
    rw [h0] at hbehind
    change 0 = _ at hbehind
    omega
  have hchain : IsChain 0 (regionNext s.mem) s.slabs.regions ([] ++ above b L :: []) := h.regionChain
  have hchase : chase 0 (regionNext s.mem)
      (slabOwns s.mem s.slabs.blocksize (above b L + sizeofSlabRegion)) addressCount 0
      s.slabs.regions = some (0, above b L) :=
    chase_of_append hchain (fun r hr => absurd hr List.not_mem_nil) howns
      (by norm_num [addressCount])
  unfold slabFree
  rw [if_neg hne, hchase]
  dsimp only
  rw [if_neg h.header_ne]
  exact ⟨_, rfl⟩

/-- The first address behind the header is in no block of the buffer.
Source: none: infrastructure
Kind: L -/
theorem not_inside_behind_header {buf : Addr} {len : BitVec 64} {blocksize : ℕ}
    (hlen : 32 ≤ len.toNat) : ¬ Buffer.Inside (buf, len) blocksize (buf + sizeofSlabRegion) := by
  rintro ⟨off, hoff, heq⟩
  have hfit : Buffer.blockCount (buf, len) blocksize * blocksize ≤ len.toNat - 32 :=
    Nat.div_mul_le_self _ _
  have hlt := len.isLt
  have hbuf := buf.isLt
  have h32 : sizeofSlabRegion.toNat = 32 := rfl
  have hval := congrArg BitVec.toNat heq
  rw [Buffer.block, above, BitVec.toNat_add, BitVec.toNat_add, BitVec.toNat_sub,
    sub_sizeofSlabRegion_toNat hlen, h32, BitVec.toNat_ofNat] at hval
  dsimp only at hval
  omega

/-- **The first buffer that is taken**: `slab_free` takes a pointer that is in no block, and refuses
the block that `slab_alloc` gives.
Source: `slab.c` `slab_grow`, `slab_free`
Kind: L -/
theorem SlabIdle.slabFrees_slabGrow (h : SlabIdle m₀ s) {buf : Addr} {len : BitVec 64}
    (hacc : SlabAccepts s buf len) (hbs : s.slabs.blocksize.toNat + 32 < 2 ^ 64)
    (hend : buf.toNat + len.toNat < 2 ^ 64) :
    ¬ SlabFrees (slabGrow s buf len).1 [(buf, len)] [] ∧
      (len.toNat - 32 < buf.toNat → ∃ s' p, slabAlloc (slabGrow s buf len).1 = some (s', p) ∧
        p ≠ 0 ∧ slabFree s' p = some (s', GrouperError.slabForeignBlock.errval) ∧
        ¬ SlabFrees s' [(buf, len)] [p]) := by
  obtain ⟨hat, hlen⟩ := h.slabAt hacc hbs
  have hsize := slabGrow_blocksize s buf len
  have hge := h.blocksize_ge
  have hpos : 0 < (len.toNat - 32) / s.slabs.blocksize.toNat := Nat.div_pos (by omega) (by omega)
  have hheader : above (buf - (len - sizeofSlabRegion)) (len.toNat - 32) = buf :=
    above_first_node buf (by omega)
  refine ⟨fun hfrees => ?_, fun hlow => ?_⟩
  · have hfit := hat.geom.fit
    obtain ⟨s', hfree⟩ := slabFree_behind_header hat hpos (by rw [hheader]; omega)
    rw [hheader] at hfree
    have hne : buf + sizeofSlabRegion ≠ 0 := by
      intro h0
      rw [h0] at hfree
      unfold slabFree at hfree
      rw [if_pos rfl] at hfree
      have herr : errPush errNew .nullArgument = GrouperError.ok.errval :=
        congrArg Prod.snd (Option.some.inj hfree)
      exact absurd herr (by decide)
    have hforeign := hfrees.foreign (buf + sizeofSlabRegion) hne
      (List.forall_mem_singleton.mpr (not_inside_behind_header (by omega)))
    rw [hfree] at hforeign
    have herr : GrouperError.ok.errval = GrouperError.slabForeignBlock.errval :=
      congrArg Prod.snd (Option.some.inj hforeign)
    exact absurd herr (by decide)
  · obtain ⟨s', halloc, hat', -⟩ := slabAlloc_of_slabAt hat hpos
    rw [Nat.zero_mul] at halloc
    have hp0 : above (buf - (len - sizeofSlabRegion)) 0 ≠ 0 :=
      above_first_node_ne_zero (by omega) hlow (Nat.zero_le _)
    have hle : above (buf - (len - sizeofSlabRegion)) 0 ≤
        above (buf - (len - sizeofSlabRegion)) (len.toNat - 32) := by
      rw [hheader, BitVec.le_def, above, BitVec.toNat_add, first_node_toNat (by omega),
        if_pos hlow.le, BitVec.toNat_ofNat]
      have hbuf := buf.isLt
      omega
    have hfree : slabFree s' (above (buf - (len - sizeofSlabRegion)) 0) =
        some (s', GrouperError.slabForeignBlock.errval) := slabFree_of_slabAt hat' hp0 hle
    refine ⟨s', _, halloc, hp0, hfree, fun hfrees => ?_⟩
    obtain ⟨s'', d, i, rs, hok, -⟩ := hfrees.live _ (List.mem_singleton.mpr rfl)
    rw [hfree] at hok
    have herr : GrouperError.slabForeignBlock.errval = GrouperError.ok.errval :=
      congrArg Prod.snd (Option.some.inj hok)
    exact absurd herr (by decide)

end first

/-! ## Runs -/

/-- **Giving blocks back over slab runs.** In every state of a run that takes no buffer `slab_free` is
right. The first buffer that is taken breaks it: a pointer behind the header, which is in no block, is
taken for one, and the block the next `slab_alloc` returns is refused as foreign.
Source: `slab.c` `slab_free`, `slab_grow`
Kind: P
Fidelity: exact
Hyps: in the second part the buffer ends below the end of the address space, and for the live block
the blocks do not start below address zero -/
theorem slabFrees_runs (m₀ : Mem) (blocksize : BitVec 64) {s : Slab} {D : List Buffer}
    {V : List Addr}
    (h : SlabReach (fun s buf len => ¬ SlabAccepts s buf len) m₀ blocksize s D V) :
    SlabFrees s D V ∧
      ∀ buf len, SlabAccepts s buf len → s.slabs.blocksize.toNat + 32 < 2 ^ 64 →
        buf.toNat + len.toNat < 2 ^ 64 →
        ¬ SlabFrees (slabGrow s buf len).1 [(buf, len)] [] ∧
          (len.toNat - 32 < buf.toNat → ∃ s' p, slabAlloc (slabGrow s buf len).1 = some (s', p) ∧
            p ≠ 0 ∧ slabFree s' p = some (s', GrouperError.slabForeignBlock.errval) ∧
            ¬ SlabFrees s' [(buf, len)] [p]) := by
  obtain ⟨hidle, rfl, rfl⟩ := slabIdle_of_reach h
  exact ⟨hidle.slabFrees, fun buf len hacc hbs hend => hidle.slabFrees_slabGrow hacc hbs hend⟩

/-- A buffer of 40 bytes is refused, and one of 56 bytes, for one block, is taken.
Source: none: infrastructure
Kind: C -/
theorem slabFrees_runs_56 :
    SlabFrees (slabGrow slabOf24 0x80001000 40).1 [] [] ∧
      ¬ SlabFrees (slabGrow slabOf24 0x80001000 56).1 [(0x80001000, 56)] [] := by
  have key := slabFrees_runs _ _ slabReach_refused
  rw [slabGrow_of_not_accepts not_slabAccepts_40] at key ⊢
  exact ⟨key.1, (key.2 _ _ slabAccepts_56 (by decide) (by decide)).1⟩

/-- Not in every reachable state live blocks can be given back.
Source: `slab.c` `slab_free`
Kind: C -/
theorem not_slabFrees_of_reach : ¬ ∀ (m₀ : Mem) (blocksize : BitVec 64) (s : Slab)
    (D : List Buffer) (V : List Addr), SlabReach (fun _ _ _ => True) m₀ blocksize s D V →
    SlabFrees s D V := by
  intro hall
  obtain ⟨-, hlive⟩ := slabIdle_slabOf24.slabFrees_slabGrow slabAccepts_56 (by decide) (by decide)
  obtain ⟨s', p, halloc, hp, -, hnot⟩ := hlive (by decide)
  have hreach := SlabReach.alloc slabReach_taken halloc
  rw [if_neg hp] at hreach
  exact hnot (hall _ _ _ _ _ hreach)

end Octiron.Kzadhbat
