import Octiron.Kzadhbat.BumpAligned

/-!
# Runs of the bump allocator

Any sequence of `alloc`, `copy`, `str_copy` and `alloc_aligned` on a buffer that `bump_init` took, with
the sources of the copies in the memory that the buffer is in.

* `BumpOp`, `BumpOp.run`, `BumpReach C memory size b H` — the calls, and runs of calls that meet `C`;
  `H` is what has been called and answered, the last call first. Between two calls the callers may
  write anything but the copies.
* `BumpSound memory size b H` — what a bump allocator is for: results lie in the buffer, do not
  overlap, keep what was copied to them and are aligned; the index only grows; `NULL` changes nothing.
* `BumpOp.Exact b op` — the sum that the call tests against the size is the sum of the integers, the
  bytes it copies are not overwritten before they are read, and the address it gives is aligned when
  the index is.
* **Main result** (`bumpSound_runs`): every state of a run of exact calls is sound; and a call of
  `alloc`, `copy` or `str_copy` that is not exact makes it unsound.
-/

namespace Octiron.Kzadhbat

open Octiron.Found

/-! ## Runs -/

/-- The calls; a source is an address, and `NULL` is zero.
Source: `bump_allocator.h` `struct bumpAllocator`
Kind: D -/
inductive BumpOp
  | alloc (size : BitVec 64)
  | copy (src : Addr) (size : BitVec 64)
  | strCopy (src : Addr)
  | allocAligned (size alignment : BitVec 64)

/-- Source: `bump_allocator.h` `struct bumpAllocator`. Kind: D -/
def BumpOp.run (b : BumpAllocator) : BumpOp → BumpAllocator × Addr
  | .alloc size => bumpAlloc b size
  | .copy src size => bumpCopyFrom b src size
  | .strCopy src => bumpCopyStringFrom b src
  | .allocAligned size alignment => bumpAllocAligned b size alignment

/-- How many bytes the call asks for.
Source: `bump_allocator.c`
Kind: D -/
def BumpOp.size (b : BumpAllocator) : BumpOp → ℕ
  | .alloc size => size.toNat
  | .copy _ size => size.toNat
  | .strCopy src => strlen b.mem src + 1
  | .allocAligned size _ => size.toNat

/-- Where the bytes are that the call copies.
Source: `bump_allocator.c`
Kind: D -/
def BumpOp.source : BumpOp → Option Addr
  | .copy src _ => some src
  | .strCopy src => some src
  | _ => none

/-- The alignment the call asks for.
Source: `bump_allocator.c`
Kind: D -/
def BumpOp.alignment : BumpOp → ℕ
  | .allocAligned _ alignment => alignment.toNat
  | _ => 1

/-- The arguments there are: a string ends in the address space, and alignments are powers of two.
Source: none: the inputs of `bump_allocator.c`
Kind: D -/
def BumpOp.WellFormed (b : BumpAllocator) : BumpOp → Prop
  | .strCopy src => src = 0 ∨ src.toNat + strlen b.mem src < 2 ^ 64
  | .allocAligned _ alignment => ∃ k, alignment.toNat = 2 ^ k
  | _ => True

/-- A call that has returned: the allocator before and after it, and the result.
Source: none: infrastructure
Kind: D -/
structure BumpCall where
  op : BumpOp
  before : BumpAllocator
  after : BumpAllocator
  ret : Addr

/-- How many bytes the call has given.
Source: none: infrastructure
Kind: D -/
def BumpCall.size (c : BumpCall) : ℕ := c.op.size c.before

/-- **The copy is there**: the bytes that were at the source when the call was made.
Source: none: infrastructure
Kind: D -/
def BumpCall.Copied (c : BumpCall) (m : Mem) : Prop :=
  ∀ src, c.op.source = some src → Mem.bytes m c.ret c.size = Mem.bytes c.before.mem src c.size

/-- **Runs**: `bump_init` takes the buffer of `size` bytes at `memory`, which lies in the address
space; then any sequence of calls that meet `C`, and of writes that leave the copies alone.
Source: none: the runs of `bump_allocator.c`
Kind: D -/
inductive BumpReach (C : BumpAllocator → BumpOp → Prop) (memory : Addr) (size : BitVec 64) :
    BumpAllocator → List BumpCall → Prop
  | init (b : BumpAllocator) : (bumpInit b memory size).2 = GrouperError.ok.errval →
      memory.toNat + size.toNat ≤ 2 ^ 64 → BumpReach C memory size (bumpInit b memory size).1 []
  | write {b : BumpAllocator} {H : List BumpCall} (mem : Mem) : BumpReach C memory size b H →
      (∀ c ∈ H, c.ret ≠ 0 → c.op.source ≠ none →
        Mem.bytes mem c.ret c.size = Mem.bytes b.mem c.ret c.size) →
      BumpReach C memory size { b with mem := mem } H
  | step {b b' : BumpAllocator} {H : List BumpCall} {p : Addr} (op : BumpOp) :
      BumpReach C memory size b H → op.WellFormed b → C b op → op.run b = (b', p) →
      BumpReach C memory size b' (⟨op, b, b', p⟩ :: H)

/-- **What the allocator is for**: over all calls so far, the index has not decreased and is in the
buffer; results lie in the buffer, do not overlap, hold what was copied to them, and are aligned; and
a call that answered `NULL` changed nothing.
Source: `bump_allocator.h` `struct bumpAllocator`
Kind: D -/
structure BumpSound (memory : Addr) (size : BitVec 64) (b : BumpAllocator) (H : List BumpCall) :
    Prop where
  index : ∀ c ∈ H, c.before.index.toNat ≤ c.after.index.toNat ∧ c.after.index.toNat ≤ size.toNat
  inside : ∀ c ∈ H, c.ret ≠ 0 → memory.toNat ≤ c.ret.toNat ∧
    c.ret.toNat + c.size ≤ memory.toNat + size.toNat
  disjoint : H.Pairwise fun c d => c.ret ≠ 0 → d.ret ≠ 0 →
    c.ret.toNat + c.size ≤ d.ret.toNat ∨ d.ret.toNat + d.size ≤ c.ret.toNat
  copied : ∀ c ∈ H, c.ret ≠ 0 → c.Copied b.mem
  aligned : ∀ c ∈ H, c.ret ≠ 0 → c.op.alignment ∣ c.ret.toNat
  null : ∀ c ∈ H, c.ret = 0 → c.after = c.before

/-- The next multiple of `a`, as an integer.
Source: none: infrastructure
Kind: D -/
def ceilTo (x a : ℕ) : ℕ := (x + (a - 1)) / a * a

/-- A copy of `n` bytes from `src` **computes with integers and reads what was there**: the sum with
the index does not wrap around, and the source of a copy that fits does not run into the destination,
or repeats up to it.
Source: `bump_allocator.c`
Kind: D -/
def CopyExact (b : BumpAllocator) (src : Addr) (n : ℕ) : Prop :=
  src = 0 ∨ b.index.toNat + n < 2 ^ 64 ∧
    (b.size.toNat < b.index.toNat + n ∨ RepeatsTo b.mem (b.memory + b.index) src n)

/-- **The call computes with integers**: its sum does not wrap around, and a copy reads what was
there. For `alloc_aligned`, which aligns the index and not the address, an accepted call must find the
buffer aligned, too.
Source: `bump_allocator.c`
Kind: D -/
def BumpOp.Exact (b : BumpAllocator) : BumpOp → Prop
  | .alloc size => b.index.toNat + size.toNat < 2 ^ 64
  | .copy src size => CopyExact b src size.toNat
  | .strCopy src => CopyExact b src (strlen b.mem src + 1)
  | .allocAligned size alignment =>
      size = 0 ∨ b.size < alignUp b.index alignment + size ∨
        ceilTo b.index.toNat alignment.toNat + size.toNat < 2 ^ 64 ∧
          alignment.toNat ∣ b.memory.toNat + ceilTo b.index.toNat alignment.toNat

/-! ## What an exact call does -/

/-- A call either answers `NULL` and changes nothing, or gives a range behind the index.
Source: none: infrastructure
Kind: D -/
def BumpStep (b b' : BumpAllocator) (op : BumpOp) (p : Addr) : Prop :=
  (p = 0 ∧ b' = b) ∨
    p ≠ 0 ∧ BumpOk b' ∧ BumpFrame b b' ∧ b.memory.toNat + b.index.toNat ≤ p.toNat ∧
      p.toNat + op.size b ≤ b.memory.toNat + b'.index.toNat ∧
      BumpCall.Copied ⟨op, b, b', p⟩ b'.mem ∧ op.alignment ∣ p.toNat

section step

variable {b b' : BumpAllocator} {p : Addr}

/-- Moving the index up, without writing.
Source: none: infrastructure
Kind: L -/
theorem BumpOk.advance (h : BumpOk b) (index : BitVec 64) (hlow : b.index.toNat ≤ index.toNat)
    (hhigh : index.toNat ≤ b.size.toNat) :
    BumpOk { b with index := index } ∧ BumpFrame b { b with index := index } :=
  ⟨⟨h.pos, h.fits, hhigh⟩, rfl, rfl, hlow, fun _ _ => rfl⟩

/-- Source: `bump_allocator.c` `bump_alloc`. Kind: L -/
theorem BumpOk.step_alloc (h : BumpOk b) {size : BitVec 64} (hex : (BumpOp.alloc size).Exact b)
    (hrun : bumpAlloc b size = (b', p)) : BumpStep b b' (.alloc size) p := by
  have hex' : b.index.toNat + size.toNat < 2 ^ 64 := hex
  unfold bumpAlloc at hrun
  split_ifs at hrun with hrefuses
  · cases hrun
    exact Or.inl ⟨rfl, rfl⟩
  · cases hrun
    unfold bumpRefuses at hrefuses
    rw [not_or, BitVec.not_lt, BitVec.le_def, BitVec.toNat_add, Nat.mod_eq_of_lt hex'] at hrefuses
    have hsum : (b.index + size).toNat = b.index.toNat + size.toNat := by
      rw [BitVec.toNat_add, Nat.mod_eq_of_lt hex']
    have hpos : 0 < size.toNat := Nat.pos_of_ne_zero fun h0 =>
      hrefuses.1 (BitVec.eq_of_toNat_eq h0)
    have hlt : b.index.toNat < b.size.toNat := by omega
    obtain ⟨hok, hframe⟩ := h.advance (b.index + size) (by omega) (by omega)
    refine Or.inr ⟨h.dest_ne_zero hlt, hok, hframe, (h.dest_toNat hlt).ge, ?_, ?_, one_dvd _⟩
    · rw [h.dest_toNat hlt]
      show _ + size.toNat ≤ _ + (b.index + size).toNat
      omega
    · exact fun src hsrc => by cases hsrc

/-- A copy of `n` bytes to the index, for which there is room.
Source: none: infrastructure
Kind: L -/
theorem BumpOk.step_copied (h : BumpOk b) {op : BumpOp} {src : Addr} {n : ℕ} (hsize : op.size b = n)
    (hsource : op.source = some src) (halign : op.alignment = 1) (hpos : 0 < n)
    (hroom : b.index.toNat + n ≤ b.size.toNat) (hrep : RepeatsTo b.mem (b.memory + b.index) src n)
    (hb' : b' = { b with
      mem := memcpyFrom b.mem (b.memory + b.index) src (BitVec.ofNat 64 n)
      index := b.index + BitVec.ofNat 64 n }) :
    BumpStep b b' op (b.memory + b.index) := by
  have hlt : b.index.toNat < b.size.toNat := by omega
  have hsizelt := b.size.isLt
  have hn : (BitVec.ofNat 64 n).toNat = n := by rw [BitVec.toNat_ofNat, Nat.mod_eq_of_lt (by omega)]
  have hlen : (Mem.bytes b.mem src n).length = n := Mem.length_bytes _ _ _
  rw [memcpyFrom_eq_memcpy (by rw [hn]; exact hrep), ← hlen] at hb'
  have hroom' : (Mem.bytes b.mem src n).length ≤ b.room := by
    unfold BumpAllocator.room
    omega
  have hsrc : ∀ i c, (Mem.bytes b.mem src n)[i]? = some c → b.mem (src + BitVec.ofNat 64 i) = c := by
    intro i c hc
    have hi : i < n := hlen ▸ (List.getElem?_eq_some_iff.mp hc).1
    rw [Mem.getElem?_bytes hi] at hc
    exact Option.some.inj hc
  obtain ⟨hok, -, hholds, hframe⟩ := bump_copied h _ hroom' hsrc hb'
  have hindex : b'.index.toNat = b.index.toNat + n := by
    rw [hb', hlen]
    show (b.index + BitVec.ofNat 64 n).toNat = _
    rw [BitVec.toNat_add, hn, Nat.mod_eq_of_lt (by omega)]
  refine Or.inr ⟨h.dest_ne_zero hlt, hok, hframe, (h.dest_toNat hlt).ge, ?_, ?_, ?_⟩
  · rw [h.dest_toNat hlt, hsize, hindex]
    omega
  · intro src' hsrc'
    cases hsource.symm.trans hsrc'
    show Mem.bytes b'.mem (b.memory + b.index) (op.size b) = Mem.bytes b.mem src (op.size b)
    have hbytes := hholds.bytes
    rw [hlen] at hbytes
    rw [hsize, hbytes]
  · rw [halign]
    exact one_dvd _

/-- Source: `bump_allocator.c` `bump_copy`. Kind: L -/
theorem BumpOk.step_copy (h : BumpOk b) {src : Addr} {size : BitVec 64}
    (hex : (BumpOp.copy src size).Exact b) (hrun : bumpCopyFrom b src size = (b', p)) :
    BumpStep b b' (.copy src size) p := by
  by_cases hnull : src = 0 ∨ bumpRefuses b size
  · have hrefused : bumpCopyFrom b src size = (b, 0) := if_pos hnull
    rw [hrefused] at hrun
    cases hrun
    exact Or.inl ⟨rfl, rfl⟩
  · have haccepts := not_or.mp hnull
    obtain ⟨hsum, hrep⟩ := Or.resolve_left hex haccepts.1
    have hroom := haccepts.2
    unfold bumpRefuses at hroom
    rw [not_or, BitVec.not_lt, BitVec.le_def, BitVec.toNat_add, Nat.mod_eq_of_lt hsum] at hroom
    have hpos : 0 < size.toNat := Nat.pos_of_ne_zero fun h0 =>
      hroom.1 (BitVec.eq_of_toNat_eq h0)
    rw [bumpCopyFrom_eq haccepts.1 haccepts.2 (h.dest_ne_zero (by omega))] at hrun
    cases hrun
    refine h.step_copied (n := size.toNat) rfl rfl rfl hpos hroom.2 (hrep.resolve_left (by omega)) ?_
    rw [BitVec.ofNat_toNat, BitVec.setWidth_eq]

/-- Source: `bump_allocator.c` `bump_copy_string`. Kind: L -/
theorem BumpOk.step_strCopy (h : BumpOk b) {src : Addr} (hex : (BumpOp.strCopy src).Exact b)
    (hrun : bumpCopyStringFrom b src = (b', p)) : BumpStep b b' (.strCopy src) p := by
  unfold bumpCopyStringFrom at hrun
  dsimp only at hrun
  split_ifs at hrun with hnull hlt
  · cases hrun
    exact Or.inl ⟨rfl, rfl⟩
  · cases hrun
    exact Or.inl ⟨rfl, rfl⟩
  · obtain ⟨hsum, hrep⟩ := Or.resolve_left hex hnull
    rw [BitVec.lt_def, BitVec.toNat_add, BitVec.toNat_ofNat, Nat.add_mod_mod,
      Nat.mod_eq_of_lt hsum, not_lt] at hlt
    cases hrun
    exact h.step_copied rfl rfl rfl (Nat.succ_pos _) hlt (hrep.resolve_left (by omega)) rfl

/-- `ALIGN_UP` of the index, where it does not wrap around.
Source: none: infrastructure
Kind: L -/
theorem alignUp_toNat_eq_ceilTo {x align : BitVec 64} {k : ℕ} (hk : align.toNat = 2 ^ k)
    (hlt : ceilTo x.toNat align.toNat < 2 ^ 64) :
    (alignUp x align).toNat = ceilTo x.toNat align.toNat ∧
      x.toNat ≤ ceilTo x.toNat align.toNat := by
  have hpos : 0 < 2 ^ k := Nat.two_pow_pos k
  unfold ceilTo at hlt ⊢
  rw [hk] at hlt ⊢
  have hdiv := Nat.div_add_mod (x.toNat + (2 ^ k - 1)) (2 ^ k)
  have hmod := Nat.mod_lt (x.toNat + (2 ^ k - 1)) hpos
  rw [Nat.mul_comm] at hdiv
  have hx : x.toNat + (2 ^ k - 1) < 2 ^ 64 := by
    by_contra hge
    have hk64 : k ≤ 64 := by
      have halign := align.isLt
      rw [hk] at halign
      exact ((Nat.pow_lt_pow_iff_right (by norm_num)).mp halign).le
    have hdvd : 2 ^ k ∣ 2 ^ 64 := pow_dvd_pow 2 hk64
    have hle : 2 ^ 64 / 2 ^ k * 2 ^ k ≤ (x.toNat + (2 ^ k - 1)) / 2 ^ k * 2 ^ k :=
      Nat.mul_le_mul_right _ (Nat.div_le_div_right (Nat.not_lt.mp hge))
    rw [Nat.div_mul_cancel hdvd] at hle
    omega
  exact ⟨alignUp_toNat hk hx, by omega⟩

/-- Source: `bump_allocator.c` `bump_alloc_aligned`. Kind: L -/
theorem BumpOk.step_allocAligned (h : BumpOk b) {size alignment : BitVec 64}
    (hwf : (BumpOp.allocAligned size alignment).WellFormed b)
    (hex : (BumpOp.allocAligned size alignment).Exact b)
    (hrun : bumpAllocAligned b size alignment = (b', p)) :
    BumpStep b b' (.allocAligned size alignment) p := by
  obtain ⟨k, hk⟩ := hwf
  unfold bumpAllocAligned at hrun
  dsimp only at hrun
  split_ifs at hrun with hrefuses
  · cases hrun
    exact Or.inl ⟨rfl, rfl⟩
  · cases hrun
    rw [not_or, not_or, BitVec.not_lt] at hrefuses
    obtain ⟨hsize, -, hle⟩ := hrefuses
    have hex' : size = 0 ∨ b.size < alignUp b.index alignment + size ∨
        ceilTo b.index.toNat alignment.toNat + size.toNat < 2 ^ 64 ∧
          alignment.toNat ∣ b.memory.toNat + ceilTo b.index.toNat alignment.toNat := hex
    rcases hex' with h0 | hlt | ⟨hsum, hdvd⟩
    · exact absurd h0 hsize
    · exact absurd hlt (BitVec.not_lt.mpr hle)
    obtain ⟨hceil, hge⟩ := alignUp_toNat_eq_ceilTo (x := b.index) hk (by omega)
    have hpos : 0 < size.toNat := Nat.pos_of_ne_zero fun h0 => hsize (BitVec.eq_of_toNat_eq h0)
    have hfits := h.fits
    have hsum' : (alignUp b.index alignment + size).toNat =
        ceilTo b.index.toNat alignment.toNat + size.toNat := by
      rw [BitVec.toNat_add, hceil, Nat.mod_eq_of_lt hsum]
    rw [BitVec.le_def, hsum'] at hle
    have hdest : (b.memory + alignUp b.index alignment).toNat =
        b.memory.toNat + ceilTo b.index.toNat alignment.toNat := by
      rw [BitVec.toNat_add, hceil, Nat.mod_eq_of_lt (by omega)]
    obtain ⟨hok, hframe⟩ := h.advance (alignUp b.index alignment + size) (by omega) (by omega)
    refine Or.inr ⟨fun h0 => ?_, hok, hframe, by omega, ?_, fun src hsrc => (by cases hsrc), ?_⟩
    · have hmem := h.pos
      rw [h0] at hdest
      change 0 = _ at hdest
      omega
    · show _ + size.toNat ≤ _ + (alignUp b.index alignment + size).toNat
      omega
    · rw [hdest]
      exact hdvd

/-- **Step lemma**: what an exact call does.
Source: `bump_allocator.c`
Kind: L -/
theorem BumpOk.step (h : BumpOk b) {op : BumpOp} (hwf : op.WellFormed b) (hex : op.Exact b)
    (hrun : op.run b = (b', p)) : BumpStep b b' op p := by
  cases op with
  | alloc size => exact h.step_alloc hex hrun
  | copy src size => exact h.step_copy hex hrun
  | strCopy src => exact h.step_strCopy hex hrun
  | allocAligned size alignment => exact h.step_allocAligned hwf hex hrun

/-! ## Whole runs -/

/-- The invariant of a run: the state is sound, and all results end at or below the index.
Source: none: infrastructure
Kind: D -/
structure BumpInv (memory : Addr) (size : BitVec 64) (b : BumpAllocator) (H : List BumpCall) :
    Prop where
  ok : BumpOk b
  sound : BumpSound memory size b H
  below : ∀ c ∈ H, c.ret ≠ 0 → c.ret.toNat + c.size ≤ memory.toNat + b.index.toNat
  memory : b.memory = memory
  size : b.size = size

/-- Source: `bump_allocator.c` `bump_init`. Kind: L -/
theorem bumpInv_init {memory : Addr} {size : BitVec 64} (b : BumpAllocator)
    (haccepts : (bumpInit b memory size).2 = GrouperError.ok.errval)
    (hfits : memory.toNat + size.toNat ≤ 2 ^ 64) :
    BumpInv memory size (bumpInit b memory size).1 [] := by
  unfold bumpInit at haccepts ⊢
  split_ifs at haccepts ⊢ with hnull
  · have hne : GrouperError.nullArgument.errval ≠ GrouperError.ok.errval := by decide
    exact absurd haccepts hne
  · rw [not_or] at hnull
    have hpos : 0 < memory.toNat := Nat.pos_of_ne_zero fun h0 => hnull.1 (BitVec.eq_of_toNat_eq h0)
    have hnone : ∀ c ∈ ([] : List BumpCall), False := fun c hc => List.not_mem_nil hc
    refine ⟨⟨hpos, hfits, Nat.zero_le _⟩, ⟨?_, ?_, .nil, ?_, ?_, ?_⟩, ?_, rfl, rfl⟩ <;>
      exact fun c hc => (hnone c hc).elim

/-- **A call that answers `NULL` and changes nothing** keeps the invariant.
Source: none: infrastructure
Kind: L -/
theorem BumpInv.null {memory : Addr} {size : BitVec 64} {H : List BumpCall}
    (h : BumpInv memory size b H) (op : BumpOp) : BumpInv memory size b (⟨op, b, b, 0⟩ :: H) := by
  have hs := h.sound
  have hindex : b.index.toNat ≤ size.toNat := by
    rw [← h.size]
    exact h.ok.index
  refine ⟨h.ok, ⟨?_, ?_, ?_, ?_, ?_, ?_⟩, ?_, h.memory, h.size⟩
  · exact List.forall_mem_cons.mpr ⟨⟨le_rfl, hindex⟩, hs.index⟩
  · exact List.forall_mem_cons.mpr ⟨fun h0 => absurd rfl h0, hs.inside⟩
  · exact List.pairwise_cons.mpr ⟨fun d _ h0 => absurd rfl h0, hs.disjoint⟩
  · exact List.forall_mem_cons.mpr ⟨fun h0 => absurd rfl h0, hs.copied⟩
  · exact List.forall_mem_cons.mpr ⟨fun h0 => absurd rfl h0, hs.aligned⟩
  · exact List.forall_mem_cons.mpr ⟨fun _ => rfl, hs.null⟩
  · exact List.forall_mem_cons.mpr ⟨fun h0 => absurd rfl h0, h.below⟩

/-- What was copied stays when the part of the buffer below the index does.
Source: none: infrastructure
Kind: L -/
theorem BumpInv.copied_frame {memory : Addr} {size : BitVec 64} {H : List BumpCall}
    (h : BumpInv memory size b H) (hframe : BumpFrame b b') {c : BumpCall} (hc : c ∈ H)
    (hret : c.ret ≠ 0) : c.Copied b'.mem := by
  intro src hsrc
  have hbelow := h.below c hc hret
  have hinside := (h.sound.inside c hc hret).1
  have hlt := c.ret.isLt
  have hindex := b.index.isLt
  rw [← h.sound.copied c hc hret src hsrc]
  refine Mem.bytes_congr (by omega) fun x hx => hframe.mem x ?_
  rw [h.memory]
  have hx' : (x - c.ret).toNat < c.size := hx
  rw [BitVec.toNat_sub] at hx' ⊢
  have hxlt := x.isLt
  omega

/-- **A write that leaves the copies alone** keeps the invariant.
Source: none: infrastructure
Kind: L -/
theorem BumpInv.write {memory : Addr} {size : BitVec 64} {H : List BumpCall}
    (h : BumpInv memory size b H) (mem : Mem)
    (hmem : ∀ c ∈ H, c.ret ≠ 0 → c.op.source ≠ none →
      Mem.bytes mem c.ret c.size = Mem.bytes b.mem c.ret c.size) :
    BumpInv memory size { b with mem := mem } H := by
  refine ⟨⟨h.ok.pos, h.ok.fits, h.ok.index⟩, ?_, h.below, h.memory, h.size⟩
  refine ⟨h.sound.index, h.sound.inside, h.sound.disjoint, ?_, h.sound.aligned, h.sound.null⟩
  intro c hc hret src hsrc
  rw [hmem c hc hret (by rw [hsrc]; exact Option.some_ne_none src)]
  exact h.sound.copied c hc hret src hsrc

/-- **An exact call** keeps the invariant.
Source: none: infrastructure
Kind: L -/
theorem BumpInv.step {memory : Addr} {size : BitVec 64} {H : List BumpCall}
    (h : BumpInv memory size b H) {op : BumpOp} (hstep : BumpStep b b' op p) :
    BumpInv memory size b' (⟨op, b, b', p⟩ :: H) := by
  rcases hstep with ⟨rfl, rfl⟩ | ⟨hp, hok, hframe, hlow, hhigh, hbytes, halign⟩
  · exact h.null op
  have hs := h.sound
  have hmemory : b'.memory = memory := hframe.memory.trans h.memory
  have hsize : b'.size = size := hframe.size.trans h.size
  have hindex : b'.index.toNat ≤ size.toNat := by
    rw [← hsize]
    exact hok.index
  rw [h.memory] at hlow hhigh
  refine ⟨hok, ⟨?_, ?_, ?_, ?_, ?_, ?_⟩, ?_, hmemory, hsize⟩
  · exact List.forall_mem_cons.mpr ⟨⟨hframe.index, hindex⟩, hs.index⟩
  · refine List.forall_mem_cons.mpr ⟨fun _ => ⟨?_, ?_⟩, hs.inside⟩
    · exact (Nat.le_add_right _ _).trans hlow
    · exact hhigh.trans (Nat.add_le_add_left hindex _)
  · -- the new range starts at or above the index, and the others end at or below it
    refine List.pairwise_cons.mpr ⟨fun d hd _ hd0 => Or.inr ?_, hs.disjoint⟩
    exact (h.below d hd hd0).trans hlow
  · exact List.forall_mem_cons.mpr ⟨fun _ => hbytes, fun c hc hret => h.copied_frame hframe hc hret⟩
  · exact List.forall_mem_cons.mpr ⟨fun _ => halign, hs.aligned⟩
  · exact List.forall_mem_cons.mpr ⟨fun h0 => absurd h0 hp, hs.null⟩
  · refine List.forall_mem_cons.mpr ⟨fun _ => hhigh, fun c hc hret => ?_⟩
    exact (h.below c hc hret).trans (Nat.add_le_add_left hframe.index _)

/-- **Run lemma**: the invariant holds in every state of a run of exact calls.
Source: none: infrastructure
Kind: L -/
theorem bumpInv_of_reach {memory : Addr} {size : BitVec 64} {H : List BumpCall}
    (h : BumpReach (fun b op => op.Exact b) memory size b H) : BumpInv memory size b H := by
  induction h with
  | init b haccepts hfits => exact bumpInv_init b haccepts hfits
  | write mem _ hmem ih => exact ih.write mem hmem
  | step op _ hwf hex hrun ih => exact ih.step (ih.ok.step hwf hex hrun)

/-! ## Calls that are not exact -/

/-- A call that takes its bytes from the index on, although the sum wraps around.
Source: none: infrastructure
Kind: L -/
theorem BumpInv.not_sound_of_wrap {memory : Addr} {size : BitVec 64} {H : List BumpCall}
    (h : BumpInv memory size b H) {op : BumpOp} (hp : p = b.memory + b.index)
    {n : BitVec 64} (hindex : b'.index = b.index + n) (hsize : op.size b = n.toNat)
    (hwrap : 2 ^ 64 ≤ b.index.toNat + n.toNat) :
    ¬ BumpSound memory size b' (⟨op, b, b', p⟩ :: H) := by
  intro hs
  have hlt := b.index.isLt
  have hsizelt := b.size.isLt
  have hfits := h.ok.fits
  have hle := h.ok.index
  by_cases hp0 : p = 0
  · -- the result is `NULL`, and the index has changed
    have hsame := (List.forall_mem_cons.mp hs.null).1 hp0
    have hval := congrArg (fun b => b.index.toNat) hsame
    dsimp only at hval
    rw [hindex, BitVec.toNat_add] at hval
    have hn := n.isLt
    omega
  · have hin := ((List.forall_mem_cons.mp hs.inside).1 hp0).2
    have hpval : p.toNat = b.memory.toNat + b.index.toNat := by
      have hne : p.toNat ≠ 0 := fun h0 => hp0 (BitVec.eq_of_toNat_eq h0)
      rw [hp, BitVec.toNat_add] at hne ⊢
      omega
    change p.toNat + op.size b ≤ _ at hin
    rw [← h.memory, ← h.size, hsize] at hin
    omega

/-- A size whose sum with the index wraps around is not refused.
Source: none: infrastructure
Kind: L -/
theorem BumpOk.accepts_of_wrap (h : BumpOk b) {size : BitVec 64}
    (hwrap : 2 ^ 64 ≤ b.index.toNat + size.toNat) : ¬ bumpRefuses b size := by
  have hle := h.index
  have hlt := size.isLt
  have hindex := b.index.isLt
  rintro (h0 | hgt)
  · rw [h0] at hwrap
    change 2 ^ 64 ≤ b.index.toNat + 0 at hwrap
    omega
  · rw [BitVec.lt_def, BitVec.toNat_add] at hgt
    omega

/-- A copy that overwrites bytes of its source before it reads them.
Source: none: infrastructure
Kind: L -/
theorem BumpInv.not_sound_of_overrun {memory : Addr} {size : BitVec 64} {H : List BumpCall}
    (h : BumpInv memory size b H) {op : BumpOp} {src : Addr} {n : BitVec 64}
    (hsource : op.source = some src) (hsize : op.size b = n.toNat)
    (hroom : b.index.toNat + n.toNat ≤ b.size.toNat)
    (hrep : ¬ RepeatsTo b.mem (b.memory + b.index) src n.toNat)
    (hmem : b'.mem = memcpyFrom b.mem (b.memory + b.index) src n) :
    ¬ BumpSound memory size b' (⟨op, b, b', b.memory + b.index⟩ :: H) := by
  intro hs
  have hpos : 0 < n.toNat := by
    by_contra h0
    exact hrep fun i hi => absurd hi (by omega)
  refine hrep (memcpyFrom_copies_iff.mp fun i hi => ?_)
  have hcopied := (List.forall_mem_cons.mp hs.copied).1 (h.ok.dest_ne_zero (by omega)) src hsource
  change Mem.bytes b'.mem (b.memory + b.index) (op.size b) = Mem.bytes b.mem src (op.size b)
    at hcopied
  rw [hsize, hmem] at hcopied
  have hbyte := congrArg (fun l => l[i]?) hcopied
  rw [Mem.getElem?_bytes hi, Mem.getElem?_bytes hi] at hbyte
  exact Option.some.inj hbyte

/-- **A copy that is not exact** makes the state unsound.
Source: `bump_allocator.c` `bump_copy`, `bump_copy_string`
Kind: L -/
theorem BumpInv.not_sound_of_copy {memory : Addr} {size : BitVec 64} {H : List BumpCall}
    (h : BumpInv memory size b H) {op : BumpOp} {src : Addr} {n : BitVec 64}
    (hsource : op.source = some src) (hsize : op.size b = n.toNat)
    (hex : ¬ CopyExact b src n.toNat) (hp : p = b.memory + b.index)
    (hindex : b'.index = b.index + n)
    (hmem : p ≠ 0 → b'.mem = memcpyFrom b.mem (b.memory + b.index) src n) :
    ¬ BumpSound memory size b' (⟨op, b, b', p⟩ :: H) := by
  unfold CopyExact at hex
  rw [not_or, not_and_or, not_or] at hex
  rcases hex.2 with hwrap | ⟨hroom, hrep⟩
  · exact h.not_sound_of_wrap hp hindex hsize (Nat.not_lt.mp hwrap)
  · subst hp
    have hpos : 0 < n.toNat := by
      by_contra h0
      exact hrep fun i hi => absurd hi (by omega)
    have hne := h.ok.dest_ne_zero (by omega)
    exact h.not_sound_of_overrun hsource hsize (Nat.not_lt.mp hroom) hrep (hmem hne)

/-- A copy that is not exact is not refused.
Source: none: infrastructure
Kind: L -/
theorem BumpOk.accepts_of_not_copyExact (h : BumpOk b) {src : Addr} {n : BitVec 64}
    (hex : ¬ CopyExact b src n.toNat) : src ≠ 0 ∧ ¬ bumpRefuses b n := by
  unfold CopyExact at hex
  rw [not_or, not_and_or, not_or] at hex
  refine ⟨hex.1, ?_⟩
  rcases hex.2 with hwrap | ⟨hroom, hrep⟩
  · exact h.accepts_of_wrap (Nat.not_lt.mp hwrap)
  · have hsize := b.size.isLt
    rintro (h0 | hgt)
    · refine hrep fun i hi => absurd hi ?_
      rw [h0]
      exact Nat.not_lt_zero _
    · rw [BitVec.lt_def, BitVec.toNat_add, Nat.mod_eq_of_lt (by omega)] at hgt
      omega

/-- **A call of `alloc`, `copy` or `str_copy` that is not exact** makes the state unsound.
Source: `bump_allocator.c`
Kind: L -/
theorem BumpInv.not_sound {memory : Addr} {size : BitVec 64} {H : List BumpCall}
    (h : BumpInv memory size b H) {op : BumpOp} (hwf : op.WellFormed b) (hex : ¬ op.Exact b)
    (hop : ∀ size alignment, op ≠ .allocAligned size alignment) (hrun : op.run b = (b', p)) :
    ¬ BumpSound memory size b' (⟨op, b, b', p⟩ :: H) := by
  cases op with
  | alloc n =>
      have hwrap : 2 ^ 64 ≤ b.index.toNat + n.toNat := Nat.not_lt.mp hex
      have heq : bumpAlloc b n = (b', p) := hrun
      unfold bumpAlloc at heq
      rw [if_neg (h.ok.accepts_of_wrap hwrap)] at heq
      cases heq
      exact h.not_sound_of_wrap rfl rfl rfl hwrap
  | copy src n =>
      obtain ⟨hsrc, haccepts⟩ := h.ok.accepts_of_not_copyExact hex
      have heq : bumpCopyFrom b src n = (b', p) := hrun
      by_cases hdest : b.memory + b.index = 0
      · have hnull : bumpCopyFrom b src n = ({ b with index := b.index + n }, 0) := by
          unfold bumpCopyFrom bumpAlloc
          simp only [hsrc, haccepts, or_self, if_false, hdest, if_true]
        rw [hnull] at heq
        cases heq
        exact h.not_sound_of_copy rfl rfl hex hdest.symm rfl fun hp => absurd rfl hp
      · rw [bumpCopyFrom_eq hsrc haccepts hdest] at heq
        cases heq
        exact h.not_sound_of_copy rfl rfl hex rfl rfl fun _ => rfl
  | strCopy src =>
      have hlen : (BitVec.ofNat 64 (strlen b.mem src + 1)).toNat = strlen b.mem src + 1 := by
        rcases hwf with rfl | hend
        · exact absurd (Or.inl rfl) hex
        · have hpos : 0 < src.toNat := Nat.pos_of_ne_zero fun h0 =>
            hex (Or.inl (BitVec.eq_of_toNat_eq h0))
          rw [BitVec.toNat_ofNat, Nat.mod_eq_of_lt (by omega)]
      have hex' : ¬ CopyExact b src (BitVec.ofNat 64 (strlen b.mem src + 1)).toNat := by
        rw [hlen]
        exact hex
      obtain ⟨hsrc, haccepts⟩ := h.ok.accepts_of_not_copyExact hex'
      have heq : bumpCopyStringFrom b src = (b', p) := hrun
      unfold bumpCopyStringFrom at heq
      dsimp only at heq
      rw [if_neg hsrc, if_neg (not_or.mp haccepts).2] at heq
      cases heq
      exact h.not_sound_of_copy rfl hlen.symm hex' rfl rfl fun _ => rfl
  | allocAligned n alignment => exact absurd rfl (hop n alignment)

end step

/-- **Bump allocations do not overlap** in runs of exact calls: every state of such a run is sound.
And from there a call of `alloc`, `copy` or `str_copy` keeps it sound exactly when it is exact.
Source: `bump_allocator.c`
Kind: P
Fidelity: exact
Hyps: a run of exact calls -/
theorem bumpSound_runs {memory : Addr} {size : BitVec 64} {b : BumpAllocator} {H : List BumpCall}
    (h : BumpReach (fun b op => op.Exact b) memory size b H) :
    BumpSound memory size b H ∧ ∀ (op : BumpOp) (b' : BumpAllocator) (p : Addr), op.WellFormed b →
      op.run b = (b', p) → (op.Exact b → BumpSound memory size b' (⟨op, b, b', p⟩ :: H)) ∧
        ((∀ size alignment, op ≠ .allocAligned size alignment) → ¬ op.Exact b →
          ¬ BumpSound memory size b' (⟨op, b, b', p⟩ :: H)) := by
  have hinv := bumpInv_of_reach h
  refine ⟨hinv.sound, fun op b' p hwf hrun => ⟨fun hex => ?_, fun hop hex => ?_⟩⟩
  · exact (hinv.step (hinv.ok.step hwf hex hrun)).sound
  · exact hinv.not_sound hwf hex hop hrun

/-- A buffer of one page.
Source: none: infrastructure
Kind: D -/
def bumpOnePage : BumpAllocator := ⟨0x80200000, 4096, 0, fun _ => 0⟩

/-- Source: none: infrastructure. Kind: L -/
theorem bumpReach_onePage (C : BumpAllocator → BumpOp → Prop) :
    BumpReach C 0x80200000 4096 bumpOnePage [] :=
  .init ⟨0, 0, 0, fun _ => 0⟩ rfl (by decide)

/-- A range of 16 bytes and an aligned one of 64 bytes.
Source: none: infrastructure
Kind: C -/
theorem bumpSound_runs_aligned :
    ∃ b H, BumpSound 0x80200000 4096 b H ∧ H.map BumpCall.ret = [0x80200040, 0x80200000] := by
  have h1 : BumpReach (fun b op => op.Exact b) 0x80200000 4096 { bumpOnePage with index := 16 }
      [⟨.alloc 16, bumpOnePage, { bumpOnePage with index := 16 }, 0x80200000⟩] :=
    .step (.alloc 16) (bumpReach_onePage _) trivial (by show 0 + 16 < 2 ^ 64; norm_num) rfl
  have hex : (BumpOp.allocAligned 64 64).Exact { bumpOnePage with index := 16 } :=
    Or.inr (Or.inr ⟨by decide, by decide⟩)
  have h2 := BumpReach.step (.allocAligned 64 64) h1 ⟨6, rfl⟩ hex rfl
  exact ⟨_, _, (bumpSound_runs h2).1, rfl⟩

/-- Not every run is sound: a size close to `2 ^ 64` moves the index back, and a later range
overlaps the first one.
Source: `bump_allocator.c` `bump_alloc`
Kind: C -/
theorem not_bumpSound_of_reach :
    ¬ ∀ (memory : Addr) (size : BitVec 64) (b : BumpAllocator) (H : List BumpCall),
      BumpReach (fun _ _ => True) memory size b H → BumpSound memory size b H := by
  intro hall
  have h1 : BumpReach (fun _ _ => True) 0x80200000 4096 { bumpOnePage with index := 16 }
      [⟨.alloc 16, bumpOnePage, { bumpOnePage with index := 16 }, 0x80200000⟩] :=
    .step (.alloc 16) (bumpReach_onePage _) trivial trivial rfl
  have h2 := BumpReach.step (.alloc (-8)) h1 trivial trivial
    (show _ = ({ bumpOnePage with index := 8 }, 0x80200010) from rfl)
  have h3 := BumpReach.step (.alloc 16) h2 trivial trivial
    (show _ = ({ bumpOnePage with index := 24 }, 0x80200008) from rfl)
  have hdis := (List.pairwise_cons.mp (hall _ _ _ _ h3).disjoint).1
    ⟨.alloc 16, bumpOnePage, { bumpOnePage with index := 16 }, 0x80200000⟩ (by simp)
  exact absurd (hdis (by decide) (by decide)) (by decide)

end Octiron.Kzadhbat
