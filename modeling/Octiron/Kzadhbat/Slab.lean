import Octiron.Found.Chain
import Octiron.Kzadhbat.Bitmacros
import Octiron.Kzadhbat.Error

/-!
# The slab allocator

`kzadhbat/collections/slab.h` and `slab.c`: an allocator of fixed-size blocks out of buffers that
its caller donates. A donated buffer starts with a `struct slabRegion` header; the free blocks of a
region form a `NULL`-terminated chain threaded through the blocks' first words.

* `SlabAllocator` is the allocator struct, `Slab` pairs it with the memory the headers and chains
  live in; the header's fields are read and written at their offsets in that memory.
* `slabInit`, `slabGrow`, `slabAlloc`, `slabFree`, `slabFreecount` — as `slab.c` computes them.
  `slabGrow` moves the block pointer *down* by the remaining length (`buf = (u8 *)buf - len`), and
  its linking loop runs once per block, so it links one node more than it counts.
* The walks over the region list are bounded by the number of addresses: a walk that long is in a
  cycle, and the call does not return (`none`).
* `linkLoop_load` and `linkLoop_load_of_apart` say what the linking loop leaves in memory.
-/

namespace Octiron.Kzadhbat

open Octiron.Found
open Octiron.Found.Mem

/-! ## The structures -/

/-- The allocator struct.
Source: `slab.h` `struct slabAllocator`
Kind: D -/
@[ext] structure SlabAllocator where
  /-- Size of the blocks. -/
  blocksize : BitVec 64
  /-- Head of the region list. -/
  regions : Addr
  /-- Number of blocks over all regions. -/
  total : BitVec 64
  /-- Number of free blocks over all regions. -/
  free : BitVec 64
  deriving DecidableEq, Repr

/-- The allocator together with the memory its headers and chains are kept in.
Source: none: the state `slab.c` reads and writes
Kind: D -/
structure Slab where
  /-- The allocator struct. -/
  slabs : SlabAllocator
  /-- The memory. -/
  mem : Mem

/-- `sizeof(struct slabRegion)`. Source: `slab.h`. Kind: D -/
def sizeofSlabRegion : BitVec 64 := 32

/-- Source: `slab.h` `struct slabRegion`, field `next`. Kind: D -/
def regionNext (m : Mem) (r : Addr) : Addr := load64 m r

/-- Source: `slab.h` `struct slabRegion`, field `total`. Kind: D -/
def regionTotal (m : Mem) (r : Addr) : BitVec 64 := load64 m (r + 8)

/-- Source: `slab.h` `struct slabRegion`, field `free`. Kind: D -/
def regionFree (m : Mem) (r : Addr) : BitVec 64 := load64 m (r + 16)

/-- Source: `slab.h` `struct slabRegion`, field `blocks`. Kind: D -/
def regionBlocks (m : Mem) (r : Addr) : Addr := load64 m (r + 24)

/-- Source: `slab.h` `SLAB_HEADER_SIZE`. Kind: D -/
def slabHeaderSize : BitVec 64 := 8

/-- Source: `slab.h` `SLAB_BLOCKSIZE`. Kind: D -/
def slabBlocksize (blocksize : BitVec 64) : BitVec 64 :=
  if slabHeaderSize < blocksize then blocksize else slabHeaderSize

/-- Source: `slab.h` `SLAB_REGION_SIZE`. Kind: D -/
def slabRegionSize (n blocksize : BitVec 64) : BitVec 64 :=
  n * slabBlocksize blocksize + sizeofSlabRegion

/-- The number of addresses, which bounds every walk over a list in memory that ends.
Source: none: infrastructure
Kind: D -/
def addressCount : ℕ := 2 ^ 64

/-- Source: none: infrastructure. Kind: L -/
theorem length_lt_addressCount {next : Addr → Addr} {p : Addr} {l : List Addr}
    (h : IsChain 0 next p l) : l.length < addressCount :=
  h.length_lt BitVec.toFin fun _ _ => BitVec.eq_of_toFin_eq

/-! ## The operations -/

/-- `slab_init`, on an allocator struct (so its `NULL` test does not fire).
Source: `slab.c` `slab_init`
Kind: D -/
def slabInit (s : Slab) (blocksize : BitVec 64) : Slab × Errval :=
  ({ s with slabs := ⟨slabBlocksize blocksize, 0, 0, 0⟩ }, errNew)

/-- The linking loop: `n` rounds of `buf += blocksize; block->next = buf; block = buf`, where
`block` and `buf` are equal at the start of every round. The bound `region->total` is a field no
round writes.
Source: `slab.c` `slab_grow`, the `for` loop
Kind: D -/
def linkLoop (blocksize : BitVec 64) : ℕ → Mem → Addr → Mem × Addr
  | 0, m, block => (m, block)
  | n + 1, m, block => linkLoop blocksize n (store64 m block (block + blocksize)) (block + blocksize)

/-- `slab_grow`.
Source: `slab.c` `slab_grow`
Kind: D
Fidelity: exact -/
def slabGrow (s : Slab) (buf : Addr) (len : BitVec 64) : Slab × Errval :=
  if buf = 0 then (s, errPush errNew .nullArgument)
  else if len < slabRegionSize 1 s.slabs.blocksize then (s, errPush errNew .slabRegionTooSmall)
  else
    let region := buf
    let len := len - sizeofSlabRegion
    -- the source subtracts the remaining length instead of adding the header's size
    let buf := buf - len
    let total := len / s.slabs.blocksize
    let m := store64 s.mem (region + 8) total
    let m := store64 m (region + 16) total
    let m := store64 m (region + 24) buf
    let linked := linkLoop s.slabs.blocksize total.toNat m buf
    let m := store64 linked.1 linked.2 0
    let m := store64 m region s.slabs.regions
    ({ slabs :=
        { s.slabs with
          regions := region
          total := s.slabs.total + total
          free := s.slabs.free + total }
       mem := m }, errNew)

/-- `slab_alloc`: the block, or `NULL`. Zeroing the block is on (`ZERO_OUT_SLAB_BLOCKS`).
Source: `slab.c` `slab_alloc`
Kind: D
Fidelity: exact -/
def slabAlloc (s : Slab) : Option (Slab × Addr) :=
  if s.slabs.free = 0 then some (s, 0)
  else
    match chase 0 (regionNext s.mem) (fun r => regionFree s.mem r != 0) addressCount 0
        s.slabs.regions with
    | none => none
    | some (_, r) =>
        if r = 0 then some (s, 0)
        else
          let sb := regionBlocks s.mem r
          let m := store64 s.mem (r + 24) (load64 s.mem sb)
          let m := store64 m (r + 16) (regionFree m r - 1)
          let m := memset m sb 0 s.slabs.blocksize
          some ({ slabs := { s.slabs with free := s.slabs.free - 1 }, mem := m }, sb)

/-- The address test of `slab_free`: the block lies after the header and before the end of the
region's blocks.
Source: `slab.c` `slab_free`, `LOWER_BOUND` and `UPPER_BOUND`
Kind: D -/
def slabOwns (m : Mem) (blocksize : BitVec 64) (sb region : Addr) : Bool :=
  region < sb && sb < region + sizeofSlabRegion + regionTotal m region * blocksize

/-- `slab_free`.
Source: `slab.c` `slab_free`
Kind: D
Fidelity: exact -/
def slabFree (s : Slab) (block : Addr) : Option (Slab × Errval) :=
  if block = 0 then some (s, errPush errNew .nullArgument)
  else
    match chase 0 (regionNext s.mem) (slabOwns s.mem s.slabs.blocksize block) addressCount 0
        s.slabs.regions with
    | none => none
    | some (_, region) =>
        if region = 0 then some (s, errPush errNew .slabForeignBlock)
        else
          let m := store64 s.mem block (regionBlocks s.mem region)
          let m := store64 m (region + 24) block
          let m := store64 m (region + 16) (regionFree m region + 1)
          some ({ slabs := { s.slabs with free := s.slabs.free + 1 }, mem := m }, errNew)

/-- Source: `slab.c` `slab_freecount`. Kind: D -/
def slabFreecount (s : Slab) : BitVec 64 := s.slabs.free

/-! ## What the linking loop leaves in memory -/

section link

variable {blocksize : BitVec 64} {b : Addr}

/-- The address `off` bytes above `b`. Kind: D -/
abbrev above (b : Addr) (off : ℕ) : Addr := b + BitVec.ofNat 64 off

/-- Source: none: infrastructure. Kind: L -/
theorem above_add_blocksize (b : Addr) (i : ℕ) (blocksize : BitVec 64) :
    above b (i * blocksize.toNat) + blocksize = above b ((i + 1) * blocksize.toNat) := by
  rw [above, above, Nat.succ_mul, BitVec.ofNat_add, BitVec.ofNat_toNat, BitVec.setWidth_eq,
    BitVec.add_assoc]

/-- The loop started at node `i` ends at node `i + n`.
Source: none: infrastructure
Kind: L -/
theorem linkLoop_snd (n i : ℕ) (m : Mem) :
    (linkLoop blocksize n m (above b (i * blocksize.toNat))).2 =
      above b ((i + n) * blocksize.toNat) := by
  induction n generalizing i m with
  | zero => rfl
  | succ n ih =>
      rw [linkLoop, above_add_blocksize, ih (i + 1), show i + 1 + n = i + (n + 1) by omega]

/-- The loop leaves every word that is apart from the nodes it links.
Source: none: infrastructure
Kind: L -/
theorem linkLoop_load_of_apart (n i : ℕ) (m : Mem) {a : Addr}
    (h : ∀ j, i ≤ j → j < i + n → Apart (above b (j * blocksize.toNat)) 8 a 8) :
    load64 (linkLoop blocksize n m (above b (i * blocksize.toNat))).1 a = load64 m a := by
  induction n generalizing i m with
  | zero => rfl
  | succ n ih =>
      rw [linkLoop, above_add_blocksize, ih (i + 1) _ fun j hj hj' => h j (by omega) (by omega),
        load64_store64_of_apart _ (h i le_rfl (by omega))]

/-- Two nodes of a run of blocks that fits in the address space are apart.
Source: none: infrastructure
Kind: L -/
theorem apart_nodes {i j N : ℕ} (hbs : 8 ≤ blocksize.toNat) (hi : i < N) (hj : j < N) (hij : i ≠ j)
    (hN : N * blocksize.toNat ≤ 2 ^ 64) :
    Apart (above b (i * blocksize.toNat)) 8 (above b (j * blocksize.toNat)) 8 := by
  have hmul : ∀ k, k < N → k * blocksize.toNat + blocksize.toNat ≤ N * blocksize.toNat := by
    intro k hk
    rw [← Nat.succ_mul]
    exact Nat.mul_le_mul_right _ hk
  have hlt : ∀ k l, k < l → k * blocksize.toNat + blocksize.toNat ≤ l * blocksize.toNat := by
    intro k l hkl
    rw [← Nat.succ_mul]
    exact Nat.mul_le_mul_right _ hkl
  have hi' := hmul i hi
  have hj' := hmul j hj
  refine apart_offsets b (by norm_num) (by norm_num) (by omega) (by omega) ?_
  rcases Nat.lt_or_gt_of_ne hij with h | h
  · have := hlt i j h
    omega
  · have := hlt j i h
    omega

/-- Each linked node points to the next.
Source: none: infrastructure
Kind: L -/
theorem linkLoop_load (n i : ℕ) (m : Mem) (hbs : 8 ≤ blocksize.toNat)
    (hfit : (i + n) * blocksize.toNat ≤ 2 ^ 64) {j : ℕ} (hij : i ≤ j) (hj : j < i + n) :
    load64 (linkLoop blocksize n m (above b (i * blocksize.toNat))).1 (above b (j * blocksize.toNat)) =
      above b ((j + 1) * blocksize.toNat) := by
  induction n generalizing i m with
  | zero => omega
  | succ n ih =>
      have hfit' : (i + 1 + n) * blocksize.toNat ≤ 2 ^ 64 := by
        rwa [show i + 1 + n = i + (n + 1) by omega]
      rw [linkLoop, above_add_blocksize]
      rcases Nat.eq_or_lt_of_le hij with rfl | hlt
      · rw [linkLoop_load_of_apart, load64_store64_same]
        intro k hk hk'
        exact apart_nodes hbs (N := i + (n + 1)) (by omega) (by omega) (by omega) hfit
      · exact ih (i + 1) _ hfit' (by omega) (by omega)

end link

end Octiron.Kzadhbat
