import Octiron.Kernel.DeviceScopes
import Octiron.Kernel.DeviceSpace

/-!
# The rewrite pass, property by property

What `dtb_rewrite_property` does to a property whose place is known. It leaves alone what is in the
buffer, so that the pass comes to one step after the other.

* `allocCells_spec` — the numbers of a property come to lie behind the index.
* `CompatSlots` — the list of a `compatible`.
* `PropHeld.rewrite_eq` — the property is rewritten from the bytes that the parser found.
* `dtbRewriteRound_eq` — without a number under three address cells, nothing is stored behind the buffer.
* **Main result** (`dtbRewriteProperty_frame`): rewriting a property changes this property and writes
  behind the index only.
-/

namespace Octiron.Kernel

open Octiron.Found
open Octiron.Found.Mem
open Octiron.Kzadhbat

/-! ## Buffers -/

section buffers

variable {b b₁ b' : BumpAllocator} {a z c n : BitVec 32} {p : Addr}

/-- **A request for numbers**: what is below the index is not in the buffer. Three cells take 16 bytes in
a buffer with 12 for each, which only goes further up.
Source: `device_tree.c` `dtb_rewrite_property_reg`, `dtb_rewrite_property_ranges`
Kind: L -/
theorem allocCells_spec (hbig : b.size.toNat ≤ 2 ^ 63) (hok : BumpOk b) (hc : c ≤ 3)
    (h : allocCells b c n = (b₁, p)) :
    BumpOk b₁ ∧ BumpFrame b b₁ ∧ b₁.mem = b.mem ∧ ((c ≠ 0 → n ≠ 0 → p ≠ 0) →
      BumpBuffer b b₁ p (4 * c.toNat * n.toNat) ∧ ∀ x, (x - b.memory).toNat < b.index.toNat →
        ∀ k < n.toNat, x ∉ span (p + BitVec.ofNat 64 (cellsWidth c * k)) (cellsWidth c)) := by
  rcases allocCells_cases hbig hok hc n with ⟨heq, -⟩ | ⟨b₂, p₂, o, heq, hgives, -, -⟩
  · rw [heq] at h
    cases h
    refine ⟨hok, BumpFrame.refl b, rfl, fun hp => ?_⟩
    have h0 : c = 0 ∨ n = 0 := by
      by_contra hne
      obtain ⟨hc0, hn0⟩ := not_or.mp hne
      exact hp hc0 hn0 rfl
    rcases h0 with rfl | rfl
    · refine ⟨?_, fun x _ k _ hx => absurd hx (Nat.not_lt_zero _)⟩
      rw [show 4 * (0 : BitVec 32).toNat * n.toNat = 0 from Nat.zero_mul _]
      exact .none
    · refine ⟨?_, fun x _ k hk => absurd hk (Nat.not_lt_zero _)⟩
      rw [show 4 * c.toNat * (0 : BitVec 32).toNat = 0 from Nat.mul_zero _]
      exact .none
  · rw [heq] at h
    cases h
    refine ⟨hgives.ok hok, hgives.frame, by rw [hgives.after], fun _ => ⟨.range hgives, ?_⟩⟩
    intro x hx k hk
    refine hgives.notMem_of_below ?_ hx
    have hle : c.toNat ≤ 3 := hc
    have hn := n.isLt
    have hfits := hgives.fits
    -- the width is at most 16, where the buffer has at least four bytes for each number
    have hwidth : cellsWidth c * k + cellsWidth c ≤ 4 * c.toNat * n.toNat + 4 * n.toNat := by
      have hw : cellsWidth c ≤ 4 * c.toNat + 4 := by
        by_cases h2 : c.toNat ≤ 2
        · rw [cellsWidth_eq (show c ≤ 2 from h2)]
          omega
        · rw [BitVec.eq_of_toNat_eq (show c.toNat = (3 : BitVec 32).toNat by
            show c.toNat = 3
            omega)]
          decide
      calc cellsWidth c * k + cellsWidth c = cellsWidth c * (k + 1) := by ring
        _ ≤ (4 * c.toNat + 4) * n.toNat := Nat.mul_le_mul hw hk
        _ = 4 * c.toNat * n.toNat + 4 * n.toNat := by ring
    omega

/-- Source: none: infrastructure. Kind: L -/
theorem notMem_of_below {k : ℕ} (h : BumpBuffer b b₁ p k) {y : Addr}
    (hy : (y - b.memory).toNat < b.index.toNat) : y ∉ span p k := by
  cases h with
  | none => exact fun hmem => absurd hmem (Nat.not_lt_zero _)
  | range hgives =>
      have hfits := hgives.fits
      have hlt := b.size.isLt
      have hbelow := hgives.notMem_of_below (j := 0) (k := k) (by omega) hy
      rwa [show p + BitVec.ofNat 64 0 = p from BitVec.add_zero _] at hbelow

end buffers

/-! ## What rewriting a property leaves alone -/

section frames

variable {assertions : Bool} {b b' : BumpAllocator} {x : DtProperty} {a z len : BitVec 32}
  {value : Addr} {m m' : Mem} {t : DtPropertyType} {d : DtPropData}

/-- A loop of `reg` that ends well has its buffers.
Source: `device_tree.c` `dtb_rewrite_property_reg`
Kind: L -/
theorem dtbRegLoop_ne_zero {addresses sizes : Addr} {n i j : ℕ} (hn : 0 < n) (ha : a ≤ 3) (hz : z ≤ 2)
    (h : dtbRegLoop value addresses sizes a z n i j m = .ok m') :
    (a ≠ 0 → addresses ≠ 0) ∧ (z ≠ 0 → sizes ≠ 0) := by
  obtain ⟨n, rfl⟩ := Nat.exists_eq_succ_of_ne_zero (Nat.ne_of_gt hn)
  rw [dtbRegLoop] at h
  cases haddress : dtbRegAddress m value addresses a i j with
  | error stop =>
      rw [haddress] at h
      cases h
  | ok m₁ =>
      rw [haddress] at h
      dsimp only at h
      cases hsize : dtbRegSize m₁ value sizes z i (j + (4 * a).toNat) with
      | error stop =>
          rw [hsize] at h
          cases h
      | ok m₂ =>
          constructor
          · intro h0
            unfold dtbRegAddress at haddress
            rw [if_neg h0] at haddress
            exact ((dtbStoreCells_ok_iff _ _ _ _ _ _ h0 ha).mp ⟨m₁, haddress⟩).2
          · intro h0
            have h3 : z ≠ 3 := by
              rintro rfl
              exact absurd hz (by decide)
            unfold dtbRegSize at hsize
            rw [if_neg h0, if_neg h3] at hsize
            exact ((dtbStoreCells_ok_iff _ _ _ _ _ _ h0 (BitVec.le_trans hz (by decide))).mp
              ⟨m₂, hsize⟩).2

/-- A loop of `ranges` that ends well has cells and its buffers.
Source: `device_tree.c` `dtb_rewrite_property_ranges`
Kind: L -/
theorem dtbRangesLoop_ne_zero {childBusAddrs parentBusAddrs lengths : Addr} {n i j : ℕ} (hn : 0 < n)
    (ha : a ≤ 3) (hz : z ≤ 2)
    (h : dtbRangesLoop value childBusAddrs parentBusAddrs lengths a z n i j m = .ok m') :
    a ≠ 0 ∧ z ≠ 0 ∧ value ≠ 0 ∧ childBusAddrs ≠ 0 ∧ parentBusAddrs ≠ 0 ∧ lengths ≠ 0 := by
  have hother : ∀ {other : DtRewriteStop} {m m' : Mem} {dst : Addr} {i j : ℕ},
      dtbStoreCells other m value dst 0 i j ≠ .ok m' := by
    intro other m m' dst i j h
    cases h
  obtain ⟨n, rfl⟩ := Nat.exists_eq_succ_of_ne_zero (Nat.ne_of_gt hn)
  rw [dtbRangesLoop] at h
  cases hstore₁ : dtbStoreCells .unreachable m value childBusAddrs a i j with
  | error stop =>
      rw [hstore₁] at h
      cases h
  | ok m₁ =>
      rw [hstore₁] at h
      dsimp only at h
      cases hstore₂ : dtbStoreCells .unreachable m₁ value parentBusAddrs a i (j + (4 * a).toNat) with
      | error stop =>
          rw [hstore₂] at h
          cases h
      | ok m₂ =>
          rw [hstore₂] at h
          dsimp only at h
          cases hstore₃ : dtbRangesLength m₂ value lengths z i
              (j + (4 * a).toNat + (4 * a).toNat) with
          | error stop =>
              rw [hstore₃] at h
              cases h
          | ok m₃ =>
              have ha0 : a ≠ 0 := by
                rintro rfl
                exact hother hstore₁
              unfold dtbRangesLength at hstore₃
              have h3 : z ≠ 3 := by
                rintro rfl
                exact absurd hz (by decide)
              rw [if_neg h3] at hstore₃
              have hz0 : z ≠ 0 := by
                rintro rfl
                exact hother hstore₃
              obtain ⟨hvalue, hchild⟩ := (dtbStoreCells_ok_iff _ _ _ _ _ _ ha0 ha).mp ⟨m₁, hstore₁⟩
              have hparent := ((dtbStoreCells_ok_iff _ _ _ _ _ _ ha0 ha).mp ⟨m₂, hstore₂⟩).2
              have hlengths := ((dtbStoreCells_ok_iff _ _ _ _ _ _ hz0
                (BitVec.le_trans hz (by decide))).mp ⟨m₃, hstore₃⟩).2
              exact ⟨ha0, hz0, hvalue, hchild, hparent, hlengths⟩

/-- **`reg` that is accepted**: the buffers, then the loop.
Source: `device_tree.c` `dtb_rewrite_property_reg`
Kind: L -/
theorem dtbRewritePropertyReg_ok (hdata : x.data = .raw len value)
    (h : dtbRewritePropertyReg assertions b x a z = .ok (b', t, d)) :
    4 * a + 4 * z ≠ 0 ∧ ∃ b₁ addresses b₂ sizes m, allocCells b a (len / (4 * a + 4 * z)) = (b₁, addresses) ∧
      allocCells b₁ z (len / (4 * a + 4 * z)) = (b₂, sizes) ∧
      dtbRegLoop value addresses sizes a z (len / (4 * a + 4 * z)).toNat 0 0 b₂.mem = .ok m ∧
      b' = { b₂ with mem := m } ∧ t = .reg ∧ d = .reg addresses sizes (len / (4 * a + 4 * z)) := by
  unfold dtbRewritePropertyReg at h
  rw [hdata] at h
  dsimp only at h
  by_cases hgroup : 4 * a + 4 * z = 0
  · rw [if_pos hgroup] at h
    cases h
  rw [if_neg hgroup] at h
  by_cases hassert : assertions = true ∧ ¬ dtbRegAsserts len a z = true
  · rw [if_pos hassert] at h
    cases h
  rw [if_neg hassert] at h
  set n := len / (4 * a + 4 * z)
  cases halloc : allocCells b a n with
  | mk b₁ addresses =>
      cases halloc' : allocCells b₁ z n with
      | mk b₂ sizes =>
          have halloc₀ := halloc
          have halloc₀' := halloc'
          unfold allocCells at halloc halloc'
          rw [halloc] at h
          dsimp only at h
          rw [halloc'] at h
          dsimp only at h
          by_cases hnull : assertions = true ∧ ¬ ((4 * a = 0 ↔ addresses = 0) ∧ (4 * z = 0 ↔ sizes = 0))
          · rw [if_pos hnull] at h
            cases h
          rw [if_neg hnull] at h
          cases hloop : dtbRegLoop value addresses sizes a z n.toNat 0 0 b₂.mem with
          | error stop =>
              rw [hloop] at h
              cases h
          | ok m =>
              rw [hloop] at h
              cases h
              exact ⟨hgroup, b₁, addresses, b₂, sizes, m, rfl, halloc₀', hloop, rfl, rfl, rfl⟩

/-- **`ranges` that is accepted**.
Source: `device_tree.c` `dtb_rewrite_property_ranges`
Kind: L -/
theorem dtbRewritePropertyRanges_ok (hdata : x.data = .raw len value)
    (h : dtbRewritePropertyRanges assertions b x a z = .ok (b', t, d)) :
    4 * a + 4 * a + 4 * z ≠ 0 ∧ ∃ b₁ child b₂ parent b₃ lengths m,
      allocCells b a (len / (4 * a + 4 * a + 4 * z)) = (b₁, child) ∧
      allocCells b₁ a (len / (4 * a + 4 * a + 4 * z)) = (b₂, parent) ∧
      allocCells b₂ z (len / (4 * a + 4 * a + 4 * z)) = (b₃, lengths) ∧
      dtbRangesLoop value child parent lengths a z (len / (4 * a + 4 * a + 4 * z)).toNat 0 0 b₃.mem =
        .ok m ∧
      b' = { b₃ with mem := m } ∧ t = .ranges ∧
        d = .ranges child parent lengths (len / (4 * a + 4 * a + 4 * z)) := by
  unfold dtbRewritePropertyRanges at h
  rw [hdata] at h
  dsimp only at h
  by_cases hassert : assertions = true ∧ ¬ (4 * a > 0 ∧ 4 * z > 0)
  · rw [if_pos hassert] at h
    cases h
  rw [if_neg hassert] at h
  by_cases hgroup : 4 * a + 4 * a + 4 * z = 0
  · rw [if_pos hgroup] at h
    cases h
  rw [if_neg hgroup] at h
  set n := len / (4 * a + 4 * a + 4 * z)
  cases halloc : allocCells b a n with
  | mk b₁ child =>
      cases halloc' : allocCells b₁ a n with
      | mk b₂ parent =>
          cases halloc'' : allocCells b₂ z n with
          | mk b₃ lengths =>
              have halloc₀' := halloc'
              have halloc₀'' := halloc''
              unfold allocCells at halloc halloc' halloc''
              rw [halloc] at h
              dsimp only at h
              rw [halloc'] at h
              dsimp only at h
              rw [halloc''] at h
              dsimp only at h
              cases hloop : dtbRangesLoop value child parent lengths a z n.toNat 0 0 b₃.mem with
              | error stop =>
                  rw [hloop] at h
                  cases h
              | ok m =>
                  rw [hloop] at h
                  cases h
                  exact ⟨hgroup, b₁, child, b₂, parent, b₃, lengths, m, rfl, halloc₀', halloc₀'', hloop,
                    rfl, rfl, rfl⟩

/-- Source: `device_tree.c` `dtb_rewrite_property_reg`. Kind: L -/
theorem dtbRewritePropertyReg_frame (hok : BumpOk b) (hbig : b.size.toNat ≤ 2 ^ 63) (ha : a ≤ 3)
    (hz : z ≤ 2) (hdata : x.data = .raw len value)
    (h : dtbRewritePropertyReg assertions b x a z = .ok (b', t, d)) : BumpOk b' ∧ BumpFrame b b' := by
  obtain ⟨-, b₁, addresses, b₂, sizes, m, halloc, halloc', hloop, rfl, -, -⟩ :=
    dtbRewritePropertyReg_ok hdata h
  set n := len / (4 * a + 4 * z)
  obtain ⟨hok₁, hframe₁, hmem₁, hbuffer⟩ := allocCells_spec hbig hok ha halloc
  obtain ⟨hok₂, hframe₂, hmem₂, hbuffer'⟩ := allocCells_spec (by rw [hframe₁.size]; exact hbig) hok₁
    (BitVec.le_trans hz (by decide)) halloc'
  refine ⟨⟨hok₂.pos, hok₂.fits, hok₂.index⟩, (hframe₁.trans hframe₂).of_mem fun y hy => ?_⟩
  by_cases hn : n.toNat = 0
  · rw [hn] at hloop
    cases hloop
    rfl
  have hbuffers := dtbRegLoop_ne_zero (Nat.pos_of_ne_zero hn) ha hz hloop
  have hbelow : (y - b₁.memory).toNat < b₁.index.toNat := by
    rw [hframe₁.memory]
    exact lt_of_lt_of_le hy hframe₁.index
  exact dtbRegLoop_apply ha hz hloop
    (fun k _ hk => (hbuffer fun h0 _ => hbuffers.1 h0).2 y hy k (by omega))
    fun k _ hk => (hbuffer' fun h0 _ => hbuffers.2 h0).2 y hbelow k (by omega)

/-- Source: `device_tree.c` `dtb_rewrite_property_ranges`. Kind: L -/
theorem dtbRewritePropertyRanges_frame (hok : BumpOk b) (hbig : b.size.toNat ≤ 2 ^ 63) (ha : a ≤ 3)
    (hz : z ≤ 2) (hdata : x.data = .raw len value)
    (h : dtbRewritePropertyRanges assertions b x a z = .ok (b', t, d)) :
    BumpOk b' ∧ BumpFrame b b' := by
  obtain ⟨-, b₁, child, b₂, parent, b₃, lengths, m, halloc, halloc', halloc'', hloop, rfl, -, -⟩ :=
    dtbRewritePropertyRanges_ok hdata h
  set n := len / (4 * a + 4 * a + 4 * z)
  obtain ⟨hok₁, hframe₁, hmem₁, hbuffer⟩ := allocCells_spec hbig hok ha halloc
  obtain ⟨hok₂, hframe₂, hmem₂, hbuffer'⟩ := allocCells_spec (by rw [hframe₁.size]; exact hbig) hok₁
    ha halloc'
  have hframe₁₂ := hframe₁.trans hframe₂
  obtain ⟨hok₃, hframe₃, hmem₃, hbuffer''⟩ := allocCells_spec (by rw [hframe₁₂.size]; exact hbig) hok₂
    (BitVec.le_trans hz (by decide)) halloc''
  refine ⟨⟨hok₃.pos, hok₃.fits, hok₃.index⟩, (hframe₁₂.trans hframe₃).of_mem fun y hy => ?_⟩
  by_cases hn : n.toNat = 0
  · rw [hn] at hloop
    cases hloop
    rfl
  obtain ⟨-, -, -, hchild, hparent, hlengths⟩ :=
    dtbRangesLoop_ne_zero (Nat.pos_of_ne_zero hn) ha hz hloop
  have hbelow₁ : (y - b₁.memory).toNat < b₁.index.toNat := by
    rw [hframe₁.memory]
    exact lt_of_lt_of_le hy hframe₁.index
  have hbelow₂ : (y - b₂.memory).toNat < b₂.index.toNat := by
    rw [hframe₁₂.memory]
    exact lt_of_lt_of_le hy hframe₁₂.index
  exact dtbRangesLoop_apply ha hz hloop
    (fun k _ hk => (hbuffer fun _ _ => hchild).2 y hy k (by omega))
    (fun k _ hk => (hbuffer' fun _ _ => hparent).2 y hbelow₁ k (by omega))
    fun k _ hk => (hbuffer'' fun _ _ => hlengths).2 y hbelow₂ k (by omega)

/-- **A property that is held is rewritten by its kind**.
Source: `device_tree.c` `dtb_recursive_property_rewrite`
Kind: L -/
theorem PropHeld.rewrite_eq {node : DtNode} {p : FdtProp} (h : PropHeld b p x) (hok : BumpOk b) :
    dtbRewriteProperty assertions node b x = dtbRewriteAs assertions node b x p.kind := by
  have hname := h.1
  rw [dtbRewriteProperty_eq (BumpHolds.ne_zero hname hok (List.concat_ne_nil _ _)),
    propNameAt_eq hname.1]

/-- **The slots of a `compatible`**, between `b` and `b'`: pointers to the strings that have a terminator
in the value, and `NULL`. Nothing else is written.
Source: `device_tree.c` `dtb_rewrite_property_compatible`
Kind: D -/
structure CompatSlots (b b' : BumpAllocator) (value compat : Addr) (l : List (BitVec 8)) : Prop where
  slots : BumpBuffer b { b' with mem := b.mem } compat (8 * (l.count 0 + 1))
  frame : ∀ x ∉ span compat (8 * (l.count 0 + 1)), b'.mem x = b.mem x
  pointer : ∀ strs tail, CutInto l strs tail → ∀ i < strs.length,
    load64 b'.mem (compat + BitVec.ofNat 64 (8 * i)) = value + BitVec.ofNat 64 (stringOffset strs i)
  last : load64 b'.mem (compat + BitVec.ofNat 64 (8 * l.count 0)) = 0

/-- **What the second loop leaves**, and the `NULL` behind it.
Source: `device_tree.c` `dtb_rewrite_property_compatible`
Kind: L -/
theorem compatSlots_of_buffer {compat : Addr} {l : List (BitVec 8)} (hok : BumpOk b)
    (hbytes : bytes b.mem value l.length = l) (hhas : BumpHas b value l.length)
    (hlen : l.length < 2 ^ 64) (hbuffer : BumpBuffer b b' compat (8 * (l.count 0 + 1))) :
    let m := dtbCompatLoop compat value l.length l.length 0 0 b.mem
    CompatSlots b { b' with mem := store64 m (compat + BitVec.ofNat 64 (8 * l.count 0)) 0 }
      value compat l := by
  intro m
  obtain ⟨strs, tail, hcut⟩ := exists_cutInto l
  obtain ⟨hslots, -, hframe, -⟩ := compatExact_putRows hok hbytes hhas hlen hbuffer hcut
  have hcount := hcut.count
  set column := compatColumn value compat (stringOffset strs) with hcolumn
  have hbuffers : BumpBuffers b ([column].map fun c => (c.base, c.width * (l.count 0 + 1))) b' :=
    .cons hbuffer .nil
  have hapart := columnsApart_of_buffers hbuffers
  have hfits : 8 * (l.count 0 + 1) ≤ 2 ^ 64 := hapart.fits column (List.mem_singleton_self _)
  set r := strs.length + (if tail = [] then 0 else 1) with hr
  -- each string, and the tail if there is one, takes a byte at least
  have hjoin : ∀ strs : List (List (BitVec 8)), strs.length ≤ (joinStrings strs).length := by
    intro strs
    induction strs with
    | nil => exact le_rfl
    | cons s strs ih =>
        rw [joinStrings_cons, List.length_append, List.length_append, List.length_cons,
          List.length_singleton]
        omega
  have hrounds : r ≤ l.length ∧ r ≤ l.count 0 + 1 := by
    have hl := congrArg List.length hcut.value
    rw [List.length_append] at hl
    have hjoin' := hjoin strs
    by_cases hnil : tail = []
    · rw [hr, if_pos hnil]
      omega
    · have := List.length_pos_of_ne_nil hnil
      rw [hr, if_neg hnil]
      omega
  have hloop : m = putRows [column] 0 r b.mem :=
    dtbCompatLoop_eq (valueApart_of_buffers hbuffers hhas) hcut.tail [] 0 r hcut.value hcut.strings
      hbytes (fun k _ => by rw [Nat.zero_add, List.length_nil, Nat.zero_add]) hr
      (by rw [Nat.zero_add]; exact hrounds.2) hrounds.1
  refine ⟨hslots, hframe, fun strs' tail' hcut' i hi => ?_, ?_⟩
  · obtain ⟨rfl, rfl⟩ := hcut.unique hcut'
    have hrow := bytes_putRows (m := b.mem) hapart (by omega : 0 + r ≤ l.count 0 + 1)
      (Nat.zero_le i) (show i < 0 + r by omega) (List.mem_singleton_self column)
    refine load64_of_bytes ?_
    rw [hloop, store64_eq_put, bytes_put_of_disjoint (by decide)]
    · exact hrow
    · rw [length_wordBytes]
      exact column.disjoint_at (by omega) (by omega) (by omega) hfits
  · have hsame := bytes_put_same m (compat + BitVec.ofNat 64 (8 * l.count 0))
      (l := wordBytes (0 : BitVec 64) 8) (by decide)
    rw [length_wordBytes] at hsame
    refine load64_of_bytes ?_
    rw [store64_eq_put]
    exact hsame

/-- **`compatible` that is accepted**.
Source: `device_tree.c` `dtb_rewrite_property_compatible`
Kind: L -/
theorem dtbRewritePropertyCompatible_ok {l : List (BitVec 8)} (hok : BumpOk b)
    (hbig : b.size.toNat ≤ 2 ^ 63) (htype : x.type = .raw) (hdata : x.data = .raw len value)
    (hlen : len.toNat = l.length) (hholds : l ≠ [] → BumpHolds b value l)
    (h : dtbRewritePropertyCompatible assertions b x = .ok (b', t, d)) :
    t = .compatible ∧ ∃ compat, d = .compat compat ∧ CompatSlots b b' value compat l := by
  have hlen32 := len.isLt
  have hcount32 : l.count 0 ≤ l.length := List.count_le_length
  have hbytes : bytes b.mem value l.length = l := by
    by_cases hnil : l = []
    · rw [hnil]
      rfl
    · exact (hholds hnil).bytes
  have hhas : BumpHas b value l.length := by
    by_cases hnil : l = []
    · exact Or.inl (by rw [hnil]; rfl)
    · exact BumpHas.of_holds (hholds hnil)
  have hsize : (BitVec.ofNat 64 (8 * (l.count 0 + 1))).toNat = 8 * (l.count 0 + 1) := by
    rw [BitVec.toNat_ofNat, Nat.mod_eq_of_lt (by omega)]
  unfold dtbRewritePropertyCompatible at h
  rw [if_neg (fun h => h.2 htype), hdata] at h
  dsimp only at h
  by_cases hvalue : value = 0 ∧ len ≠ 0
  · rw [if_pos hvalue] at h
    cases h
  rw [if_neg hvalue, hlen, countP_zero_bytes hbytes] at h
  rcases bumpAllocAligned_cases hbig hok (BitVec.ofNat 64 (8 * (l.count 0 + 1))) 8
    (by rw [hsize]; omega) (by decide) with ⟨hnone, -⟩ | ⟨b₁, compat, o, halloc, hgives, -, -⟩
  · rw [hnone] at h
    dsimp only at h
    rw [if_pos rfl] at h
    cases h
  · rw [hsize] at hgives
    rw [halloc] at h
    dsimp only at h
    rw [if_neg (hgives.ne_zero hok)] at h
    cases h
    refine ⟨rfl, compat, rfl, ?_⟩
    have hmem : b₁.mem = b.mem := by rw [hgives.after]
    rw [hmem]
    exact compatSlots_of_buffer hok hbytes hhas (by omega) (.range hgives)

/-- Source: `device_tree.c` `dtb_rewrite_property_compatible`. Kind: L -/
theorem CompatSlots.keeps {compat : Addr} {l : List (BitVec 8)} (hok : BumpOk b)
    (h : CompatSlots b b' value compat l) : BumpOk b' ∧ BumpFrame b b' := by
  have hframe := h.slots.frame
  have hok' := h.slots.ok hok
  refine ⟨⟨hok'.pos, hok'.fits, hok'.index⟩, ⟨hframe.memory, hframe.size, hframe.index, ?_⟩⟩
  exact fun y hy => h.frame y (notMem_of_below h.slots hy)

/-- Source: `device_tree.c` `dtb_recursive_property_rewrite`. Kind: L -/
theorem dtbRewriteAs_addressCells {node : DtNode} {r : BumpAllocator × DtPropertyType × DtPropData}
    (h : dtbRewriteAs assertions node b x .addressCells = .ok r) :
    ∃ v, dtbReadValueU32 b.mem x.data = .ok v ∧ ¬ v > 3 ∧ r = (b, .addressCells, .addressCells v) := by
  unfold dtbRewriteAs at h
  cases hread : dtbReadValueU32 b.mem x.data with
  | error stop =>
      rw [hread] at h
      cases h
  | ok v =>
      rw [hread] at h
      dsimp only at h
      by_cases hv : v > 3
      · rw [if_pos hv] at h
        cases h
      · rw [if_neg hv] at h
        cases h
        exact ⟨v, rfl, hv, rfl⟩

/-- Source: `device_tree.c` `dtb_recursive_property_rewrite`. Kind: L -/
theorem dtbRewriteAs_sizeCells {node : DtNode} {r : BumpAllocator × DtPropertyType × DtPropData}
    (h : dtbRewriteAs assertions node b x .sizeCells = .ok r) :
    ∃ v, dtbReadValueU32 b.mem x.data = .ok v ∧ ¬ v > 2 ∧ r = (b, .sizeCells, .sizeCells v) := by
  unfold dtbRewriteAs at h
  cases hread : dtbReadValueU32 b.mem x.data with
  | error stop =>
      rw [hread] at h
      cases h
  | ok v =>
      rw [hread] at h
      dsimp only at h
      by_cases hv : v > 2
      · rw [if_pos hv] at h
        cases h
      · rw [if_neg hv] at h
        cases h
        exact ⟨v, rfl, hv, rfl⟩

/-- The other properties need no memory.
Source: `device_tree.c` `dtb_recursive_property_rewrite`
Kind: L -/
theorem dtbRewriteAs_bump {node : DtNode} {name : DtPropName} (hcompatible : name ≠ .compatible)
    (hreg : name ≠ .reg) (hranges : name ≠ .ranges) (hdma : name ≠ .dmaRanges)
    (h : dtbRewriteAs assertions node b x name = .ok (b', t, d)) : b' = b := by
  cases name with
  | compatible => exact absurd rfl hcompatible
  | reg => exact absurd rfl hreg
  | ranges => exact absurd rfl hranges
  | dmaRanges => exact absurd rfl hdma
  | model =>
      obtain ⟨r, -, hr⟩ := except_map_ok h
      cases hr
      rfl
  | phandle =>
      obtain ⟨r, -, hr⟩ := except_map_ok h
      cases hr
      rfl
  | status =>
      obtain ⟨r, -, hr⟩ := except_map_ok h
      cases hr
      rfl
  | deviceType =>
      obtain ⟨r, -, hr⟩ := except_map_ok h
      cases hr
      rfl
  | addressCells =>
      obtain ⟨v, -, -, hr⟩ := dtbRewriteAs_addressCells h
      cases hr
      rfl
  | sizeCells =>
      obtain ⟨v, -, -, hr⟩ := dtbRewriteAs_sizeCells h
      cases hr
      rfl
  | dmaCoherent =>
      cases h
      rfl
  | dmaNoncoherent =>
      cases h
      rfl
  | other =>
      cases h
      rfl

/-- **Rewriting a property writes behind the index**.
Source: `device_tree.c` `dtb_recursive_property_rewrite`
Kind: P -/
theorem dtbRewriteProperty_frame {node : DtNode} {p : FdtProp} (hok : BumpOk b)
    (hbig : b.size.toNat ≤ 2 ^ 63) (hcells : node.cells.Bounded) (hheld : PropHeld b p x)
    (h : dtbRewriteProperty assertions node b x = .ok (b', t, d)) : BumpOk b' ∧ BumpFrame b b' := by
  rw [hheld.rewrite_eq hok] at h
  obtain ⟨ha, hz⟩ := hcells
  obtain ⟨-, htype, len, value, hdata, hlen, hvalue⟩ := hheld
  by_cases hcompatible : p.kind = .compatible
  · rw [hcompatible] at h
    obtain ⟨-, compat, -, hexact⟩ := dtbRewritePropertyCompatible_ok hok hbig htype hdata hlen hvalue h
    exact hexact.keeps hok
  by_cases hreg : p.kind = .reg
  · rw [hreg] at h
    exact dtbRewritePropertyReg_frame hok hbig ha hz hdata h
  by_cases hranges : p.kind = .ranges
  · rw [hranges] at h
    exact dtbRewritePropertyRanges_frame hok hbig ha hz hdata h
  by_cases hdma : p.kind = .dmaRanges
  · rw [hdma] at h
    obtain ⟨r, hrun, hr⟩ := except_map_ok h
    cases hr
    exact dtbRewritePropertyRanges_frame hok hbig ha hz hdata hrun
  rw [dtbRewriteAs_bump hcompatible hreg hranges hdma h]
  exact ⟨hok, BumpFrame.refl b⟩

/-! ## Stores to the buffer -/

/-- **How many pairs or triplets** the value is cut into at a node with these counts.
Source: `device_tree.c` `dtb_rewrite_property_reg`, `dtb_rewrite_property_ranges`
Kind: D -/
def FdtProp.groups (cells : DtCells) (p : FdtProp) : ℕ :=
  match p.kind with
  | .reg => p.value.length / (4 * (cells.address.toNat + cells.size.toNat))
  | .ranges | .dmaRanges =>
    p.value.length / (4 * (cells.address.toNat + cells.address.toNat + cells.size.toNat))
  | _ => 0

/-- Source: `device_tree.c` `dtb_recursive_property_rewrite`. Kind: L -/
theorem DtCells.Bounded.address_le {cells : DtCells} (h : cells.Bounded) (h3 : cells.address ≠ 3) :
    cells.address ≤ 2 := by
  have hne : cells.address.toNat ≠ 3 := fun heq => h3 (BitVec.eq_of_toNat_eq heq)
  have ha : cells.address.toNat ≤ 3 := h.1
  show cells.address.toNat ≤ 2
  omega

/-- What has been handed out lies in the buffer.
Source: none: infrastructure
Kind: L -/
theorem bumpSpans_of_has {p : Addr} {n : ℕ} (h : BumpHas b p n) (hok : BumpOk b) :
    bumpSpans b (p, n) = true := by
  refine decide_eq_true ?_
  rcases h with h0 | ⟨o, rfl, ho⟩
  · exact Or.inl h0
  · have hfits := hok.fits
    have hindex := hok.index
    have hlt := b.index.isLt
    by_cases hn : n = 0
    · exact Or.inl hn
    · refine Or.inr ?_
      dsimp only
      rw [BitVec.toNat_add, BitVec.toNat_ofNat, Nat.mod_eq_of_lt (by omega : o < 2 ^ 64),
        Nat.mod_eq_of_lt (by omega)]
      omega

/-- No bytes lie in the buffer, wherever they are.
Source: none: infrastructure
Kind: L -/
theorem bumpSpans_zero (p : Addr) (w : ℕ) {n : BitVec 32} (hn : n = 0) :
    bumpSpans b (p, w * n.toNat) = true :=
  decide_eq_true (Or.inl (by rw [hn]; rfl))

/-- The numbers of `reg` with at most two cells.
Source: `device_tree.c` `dtb_rewrite_property_reg`
Kind: L -/
theorem dtbRewritePropertyReg_stores {node : DtNode} (hok : BumpOk b) (hbig : b.size.toNat ≤ 2 ^ 63)
    (ha3 : node.addressCells ≤ 3) (hz : node.sizeCells ≤ 2) (hdata : x.data = .raw len value)
    (ha : len / (4 * node.addressCells + 4 * node.sizeCells) ≠ 0 → node.addressCells ≤ 2)
    (h : dtbRewritePropertyReg assertions b x node.addressCells node.sizeCells = .ok (b', t, d)) :
    (d.stores node).all (bumpSpans b') = true := by
  have hz3 : node.sizeCells ≤ 3 := BitVec.le_trans hz (by decide)
  obtain ⟨-, b₁, addresses, b₂, sizes, m, halloc, halloc', hloop, rfl, -, rfl⟩ :=
    dtbRewritePropertyReg_ok hdata h
  set n := len / (4 * node.addressCells + 4 * node.sizeCells)
  by_cases hn0 : n = 0
  · simp only [DtPropData.stores, List.all_cons, List.all_nil, bumpSpans_zero _ _ hn0, Bool.and_true]
  replace ha := ha hn0
  obtain ⟨hok₁, hframe₁, -, hbuffer⟩ := allocCells_spec hbig hok ha3 halloc
  obtain ⟨hok₂, hframe₂, -, hbuffer'⟩ := allocCells_spec (by rw [hframe₁.size]; exact hbig) hok₁ hz3
    halloc'
  have hne : n ≠ 0 → _ := fun hn => dtbRegLoop_ne_zero
    (Nat.pos_of_ne_zero fun h0 => hn (BitVec.eq_of_toNat_eq h0)) ha3 hz hloop
  simp only [DtPropData.stores, List.all_cons, List.all_nil, Bool.and_true, Bool.and_eq_true]
  rw [cellsWidth_eq ha, cellsWidth_eq hz]
  show bumpSpans b₂ _ = true ∧ bumpSpans b₂ _ = true
  exact ⟨bumpSpans_of_has ((hbuffer fun h0 hn => (hne hn).1 h0).1.has.frame hframe₂) hok₂,
    bumpSpans_of_has (hbuffer' fun h0 hn => (hne hn).2 h0).1.has hok₂⟩

/-- The numbers of `ranges` with at most two cells.
Source: `device_tree.c` `dtb_rewrite_property_ranges`
Kind: L -/
theorem dtbRewritePropertyRanges_stores {node : DtNode} (hok : BumpOk b) (hbig : b.size.toNat ≤ 2 ^ 63)
    (ha3 : node.addressCells ≤ 3) (hz : node.sizeCells ≤ 2) (hdata : x.data = .raw len value)
    (ha : len / (4 * node.addressCells + 4 * node.addressCells + 4 * node.sizeCells) ≠ 0 →
      node.addressCells ≤ 2)
    (h : dtbRewritePropertyRanges assertions b x node.addressCells node.sizeCells = .ok (b', t, d)) :
    (d.stores node).all (bumpSpans b') = true := by
  have hz3 : node.sizeCells ≤ 3 := BitVec.le_trans hz (by decide)
  obtain ⟨-, b₁, child, b₂, parent, b₃, lengths, m, halloc, halloc', halloc'', hloop, rfl, -, rfl⟩ :=
    dtbRewritePropertyRanges_ok hdata h
  set n := len / (4 * node.addressCells + 4 * node.addressCells + 4 * node.sizeCells)
  by_cases hn0 : n = 0
  · simp only [DtPropData.stores, List.all_cons, List.all_nil, bumpSpans_zero _ _ hn0, Bool.and_true]
  replace ha := ha hn0
  obtain ⟨hok₁, hframe₁, -, hbuffer⟩ := allocCells_spec hbig hok ha3 halloc
  obtain ⟨hok₂, hframe₂, -, hbuffer'⟩ := allocCells_spec (by rw [hframe₁.size]; exact hbig) hok₁ ha3
    halloc'
  obtain ⟨hok₃, hframe₃, -, hbuffer''⟩ := allocCells_spec
    (by rw [hframe₂.size, hframe₁.size]; exact hbig) hok₂ hz3 halloc''
  have hne : n ≠ 0 → _ := fun hn => dtbRangesLoop_ne_zero
    (Nat.pos_of_ne_zero fun h0 => hn (BitVec.eq_of_toNat_eq h0)) ha3 hz hloop
  simp only [DtPropData.stores, List.all_cons, List.all_nil, Bool.and_true, Bool.and_eq_true]
  rw [cellsWidth_eq ha, cellsWidth_eq hz]
  show bumpSpans b₃ _ = true ∧ bumpSpans b₃ _ = true ∧ bumpSpans b₃ _ = true
  exact ⟨bumpSpans_of_has ((hbuffer fun _ hn => (hne hn).2.2.2.1).1.has.frame
      (hframe₂.trans hframe₃)) hok₃,
    bumpSpans_of_has ((hbuffer' fun _ hn => (hne hn).2.2.2.2.1).1.has.frame hframe₃) hok₃,
    bumpSpans_of_has (hbuffer'' fun _ hn => (hne hn).2.2.2.2.2).1.has hok₃⟩

/-- The other properties store no numbers.
Source: `device_tree.c` `dtb_recursive_property_rewrite`
Kind: L -/
theorem dtbRewriteAs_stores {node : DtNode} {name : DtPropName} (hreg : name ≠ .reg)
    (hranges : name ≠ .ranges) (hdma : name ≠ .dmaRanges) (hdata : x.data = .raw len value)
    (h : dtbRewriteAs assertions node b x name = .ok (b', t, d)) : d.stores node = [] := by
  cases name with
  | reg => exact absurd rfl hreg
  | ranges => exact absurd rfl hranges
  | dmaRanges => exact absurd rfl hdma
  | compatible =>
      obtain ⟨-, strings, rfl⟩ := dtbRewritePropertyCompatible_data h
      rfl
  | model =>
      obtain ⟨r, -, hr⟩ := except_map_ok h
      cases hr
      rfl
  | phandle =>
      obtain ⟨r, -, hr⟩ := except_map_ok h
      cases hr
      rfl
  | status =>
      obtain ⟨r, hr, heq⟩ := except_map_ok h
      cases heq
      rcases (dtbRewritePropertyStatus_data hr).2 with ⟨y, reason, rfl⟩ | rfl
      · rfl
      · rw [hdata]
        rfl
  | deviceType =>
      obtain ⟨r, -, hr⟩ := except_map_ok h
      cases hr
      rfl
  | addressCells =>
      obtain ⟨v, -, -, hr⟩ := dtbRewriteAs_addressCells h
      cases hr
      rfl
  | sizeCells =>
      obtain ⟨v, -, -, hr⟩ := dtbRewriteAs_sizeCells h
      cases hr
      rfl
  | dmaCoherent =>
      cases h
      rfl
  | dmaNoncoherent =>
      cases h
      rfl
  | other =>
      cases h
      rw [hdata]
      rfl

/-- **Without a number under three address cells nothing is stored behind the buffer**: a round is the
rewriting of its property.
Source: `device_tree.c` `dtb_recursive_property_rewrite`
Kind: P -/
theorem dtbRewriteRound_eq {node : DtNode} {p : FdtProp} (hok : BumpOk b) (hbig : b.size.toNat ≤ 2 ^ 63)
    (hcells : node.cells.Bounded) (hheld : PropHeld b p x)
    (ha : p.groups node.cells ≠ 0 → node.addressCells ≤ 2) :
    dtbRewriteRound assertions node b x = dtbRewriteProperty assertions node b x := by
  have heq : dtbRewriteProperty assertions node b x = dtbRewriteAs assertions node b x p.kind :=
    hheld.rewrite_eq hok
  obtain ⟨ha3, hz⟩ := hcells
  obtain ⟨-, -, len, value, hdata, hlen, -⟩ := hheld
  unfold FdtProp.groups at ha
  have hcount : ∀ {group : BitVec 32} {k : ℕ}, group.toNat = k → len / group ≠ 0 →
      p.value.length / k ≠ 0 := by
    intro group k hgroup hne h0
    refine hne (BitVec.eq_of_toNat_eq ?_)
    rw [BitVec.toNat_udiv, hlen, hgroup, h0]
    rfl
  unfold dtbRewriteRound
  cases hrun : dtbRewriteProperty assertions node b x with
  | error stop => rfl
  | ok r =>
      obtain ⟨b', t, d⟩ := r
      refine if_pos ?_
      rw [heq] at hrun
      by_cases hreg : p.kind = .reg
      · rw [hreg] at hrun ha
        exact dtbRewritePropertyReg_stores hok hbig ha3 hz hdata
          (fun hne => ha (hcount (pairSize_toNat ha3 hz) hne)) hrun
      by_cases hranges : p.kind = .ranges
      · rw [hranges] at hrun ha
        exact dtbRewritePropertyRanges_stores hok hbig ha3 hz hdata
          (fun hne => ha (hcount (tripletSize_toNat ha3 hz) hne)) hrun
      by_cases hdma : p.kind = .dmaRanges
      · rw [hdma] at hrun ha
        obtain ⟨r, hr, heq'⟩ := except_map_ok hrun
        cases heq'
        exact dtbRewritePropertyRanges_stores hok hbig ha3 hz hdata
          (fun hne => ha (hcount (tripletSize_toNat ha3 hz) hne)) hr
      rw [dtbRewriteAs_stores hreg hranges hdma hdata hrun]
      rfl

end frames

end Octiron.Kernel
