import Octiron.Kernel.DeviceSteps

/-!
# Decoding `ranges`

`dtb_rewrite_property_ranges` reads the triplets of `ranges` and `dma-ranges` with the counts that govern
the node. In the devicetree format the address on the bus and the length of a triplet have the counts that
the node itself has.

* `tripletAt own above l i` — triplet `i` of a value, by the counts of the node and of those above it.
* `dtbRewritePropertyRanges_elems` — what the arrays hold: the triplets with the counts from above
  throughout.
* `CutAlike` — a value that is the same triplets either way. A node with other counts than those above it
  has values that are not (`cutAlike_all_iff`).
* `RangesDecoded` — a `ranges` of a tree is decoded with the right counts.
* **Main results** (`RangesOf.exact_iff`, `RangesOf.three`): without a triplet under three address cells, a
  `ranges` is decoded exactly if its value is cut alike; with one, at most by coincidence.
-/

namespace Octiron.Kernel

open Octiron.Found
open Octiron.Found.Mem
open Octiron.Kzadhbat

/-! ## Triplets -/

/-- The bytes of a triplet, with the counts of the node and those that govern it.
Source: `device_tree.c` `DTB_PROP_RANGES`
Kind: D -/
def tripletBytes (own above : DtCells) : ℕ :=
  4 * (own.address.toNat + above.address.toNat + own.size.toNat)

/-- **Triplet `i`**: the address on the bus, the address on the parent's bus, and the length.
Source: `device_tree.c` `DTB_PROP_RANGES`, `DTB_PROP_DMA_RANGES`
Kind: D -/
def tripletAt (own above : DtCells) (l : List (BitVec 8)) (i : ℕ) : ℕ × ℕ × ℕ :=
  (beNat (slice l (tripletBytes own above * i) (4 * own.address.toNat)),
    beNat (slice l (tripletBytes own above * i + 4 * own.address.toNat) (4 * above.address.toNat)),
    beNat (slice l (tripletBytes own above * i + 4 * (own.address.toNat + above.address.toNat))
      (4 * own.size.toNat)))

/-- **The value is the same `k` triplets** when all its numbers have the counts from above.
Source: `device_tree.c` `dtb_rewrite_property_ranges`
Kind: D -/
def CutAlike (own above : DtCells) (l : List (BitVec 8)) (k : ℕ) : Prop :=
  l.length / tripletBytes above above = k ∧ ∀ i < k, tripletAt above above l i = tripletAt own above l i

/-- Element `i` of the arrays of `ranges`, whose types go by the counts of the node's fields.
Source: `device_tree.c` `struct dtPropRanges`, `dtb_recursive_print`
Kind: D -/
def rangesElem (m : Mem) (childBusAddrs parentBusAddrs lengths : Addr) (cells : DtCells) (i : ℕ) :
    ℕ × ℕ × ℕ :=
  (elemAt m childBusAddrs (cellsWidth cells.address) i,
    elemAt m parentBusAddrs (cellsWidth cells.address) i, elemAt m lengths (cellsWidth cells.size) i)

/-- **A decoded `ranges`**: `k` triplets, which are those of the value.
Source: `device_tree.c` `struct dtPropRanges`
Kind: D -/
def RangesExact (m : Mem) (x : DtProperty) (own above : DtCells) (l : List (BitVec 8)) (k : ℕ) : Prop :=
  ∃ childBusAddrs parentBusAddrs lengths nTrips,
    x.data = .ranges childBusAddrs parentBusAddrs lengths nTrips ∧ nTrips.toNat = k ∧
      ∀ i < k, rangesElem m childBusAddrs parentBusAddrs lengths above i = tripletAt own above l i

/-- What has been handed out is left alone.
Source: none: infrastructure
Kind: L -/
theorem bytes_frame {b b' : BumpAllocator} {p : Addr} {n w j : ℕ} (h : BumpHas b p n)
    (hf : BumpFrame b b') (hj : j + w ≤ n) :
    bytes b'.mem (p + BitVec.ofNat 64 j) w = bytes b.mem (p + BitVec.ofNat 64 j) w := by
  have hle := h.le
  refine bytes_congr (by omega) fun x hx => hf.mem x ?_
  have hin := span_sub p hj hle hx
  rcases h with h0 | ⟨o, rfl, ho⟩
  · rw [h0] at hin
    exact absurd hin (Nat.not_lt_zero _)
  · have hindex := b.index.isLt
    have hx' : (x - (b.memory + BitVec.ofNat 64 o)).toNat < n := hin
    have hsub : x - b.memory = (x - (b.memory + BitVec.ofNat 64 o)) + BitVec.ofNat 64 o := by
      rw [← BitVec.sub_sub, BitVec.sub_add_cancel]
    rw [hsub, BitVec.toNat_add, BitVec.toNat_ofNat, Nat.mod_eq_of_lt (by omega : o < 2 ^ 64),
      Nat.mod_eq_of_lt (by omega)]
    omega

/-- **Numbers that were written to their buffers** are there in the end.
Source: none: infrastructure
Kind: L -/
theorem bytes_of_rows {b b' b'' : BumpAllocator} {cols : List Column} {c : Column} {n i : ℕ}
    (hgiven : BumpBuffers b (cols.map fun c => (c.base, c.width * n)) b')
    (hf : BumpFrame { b' with mem := putRows cols 0 n b'.mem } b'') (hc : c ∈ cols) (hi : i < n) :
    bytes b''.mem (c.base + BitVec.ofNat 64 (c.width * i)) c.width = c.elem i := by
  have hhas : BumpHas { b' with mem := putRows cols 0 n b'.mem } c.base (c.width * n) :=
    hgiven.has (List.mem_map_of_mem hc)
  have hstep : c.width * i + c.width ≤ c.width * n := by
    calc c.width * i + c.width = c.width * (i + 1) := by ring
      _ ≤ c.width * n := Nat.mul_le_mul_left _ hi
  rw [bytes_frame hhas hf hstep]
  exact bytes_putRows (columnsApart_of_buffers hgiven) (Nat.zero_add n).le (Nat.zero_le i)
    (by omega) hc

section cut

variable {own above : DtCells} {l : List (BitVec 8)} {k : ℕ}

/-- **With the counts from above** every value is cut alike.
Source: `device_tree.c` `dtb_rewrite_property_ranges`
Kind: L -/
theorem cutAlike_self (hpos : 0 < tripletBytes above above)
    (hlen : l.length = tripletBytes above above * k) : CutAlike above above l k :=
  ⟨by rw [hlen, Nat.mul_div_cancel_left _ hpos], fun _ _ => rfl⟩

/-- The number of `w` bytes that are all ones.
Source: none: infrastructure
Kind: L -/
theorem beNat_replicate (w : ℕ) : beNat (List.replicate w 255) + 1 = 256 ^ w := by
  induction w with
  | zero => rfl
  | succ w ih =>
      rw [List.replicate_succ, beNat_cons, List.length_replicate, pow_succ]
      change 255 * 256 ^ w + beNat (List.replicate w 255) + 1 = 256 ^ w * 256
      omega

/-- Source: none: infrastructure. Kind: L -/
theorem slice_replicate {j w n : ℕ} (h : j + w ≤ n) :
    slice (List.replicate n 255) j w = List.replicate w (255 : BitVec 8) := by
  unfold slice
  refine List.eq_replicate_iff.mpr ⟨by rw [List.length_map, List.length_range], fun b hb => ?_⟩
  obtain ⟨i, hi, rfl⟩ := List.mem_map.mp hb
  have hlt := List.mem_range.mp hi
  rw [List.getD_eq_getElem?_getD, List.getElem?_replicate, if_pos (by omega)]
  rfl

/-- **A node with other counts** than those above it has values that are not cut alike: bytes that are all
ones.
Source: `device_tree.c` `dtb_rewrite_property_ranges`
Kind: P -/
theorem cutAlike_all_iff (hpos : 0 < tripletBytes own above) (hk : 0 < k) :
    (∀ l, l.length = tripletBytes own above * k → CutAlike own above l k) ↔ own = above := by
  constructor
  · intro hall
    set n := tripletBytes own above * k with hn
    obtain ⟨hcount, hcut⟩ := hall (List.replicate n 255) List.length_replicate
    rw [List.length_replicate] at hcount
    have hfirst := hcut 0 hk
    unfold tripletAt at hfirst
    rw [Nat.mul_zero, Nat.mul_zero, Prod.mk.injEq, Prod.mk.injEq] at hfirst
    obtain ⟨haddress, -, hsize⟩ := hfirst
    have hle : tripletBytes above above ≤ n := by
      by_contra hlt
      rw [Nat.div_eq_of_lt (Nat.not_le.mp hlt)] at hcount
      omega
    have hle' : tripletBytes own above ≤ n := Nat.le_mul_of_pos_right _ hk
    unfold tripletBytes at hle hle'
    rw [slice_replicate (by omega), slice_replicate (by omega)] at haddress hsize
    have hpow : ∀ {u v : ℕ},
        beNat (List.replicate u 255) = beNat (List.replicate v 255) → u = v := by
      intro u v huv
      have hu := beNat_replicate u
      rw [huv, beNat_replicate v] at hu
      exact (Nat.pow_right_injective (le_refl 2 |>.trans (by decide)) hu).symm
    have ha := hpow haddress
    have hz := hpow hsize
    obtain ⟨a, z⟩ := own
    obtain ⟨a', z'⟩ := above
    rw [BitVec.eq_of_toNat_eq (show a.toNat = a'.toNat by
      change 4 * a'.toNat = 4 * a.toNat at ha
      omega), BitVec.eq_of_toNat_eq (show z.toNat = z'.toNat by
      change 4 * z'.toNat = 4 * z.toNat at hz
      omega)]
  · rintro rfl l hlen
    exact cutAlike_self hpos hlen

end cut

section single

variable {assertions : Bool} {b b' : BumpAllocator} {x : DtProperty} {a z len : BitVec 32} {value : Addr}
  {l : List (BitVec 8)} {t : DtPropertyType} {d : DtPropData}

/-- **The arrays of an accepted `ranges`**, without a triplet under three address cells.
Source: `device_tree.c` `dtb_rewrite_property_ranges`
Kind: P -/
theorem dtbRewritePropertyRanges_elems {cells : DtCells} (hok : BumpOk b) (hbig : b.size.toNat ≤ 2 ^ 63)
    (hcells : cells.Bounded) (ha : l.length / tripletBytes cells cells ≠ 0 → cells.address ≤ 2)
    (hdata : x.data = .raw len value) (hlen : len.toNat = l.length)
    (hvalue : l ≠ [] → BumpHolds b value l)
    (h : dtbRewritePropertyRanges assertions b x cells.address cells.size = .ok (b', t, d)) :
    ∃ child parent lengths n, t = .ranges ∧ d = .ranges child parent lengths n ∧
      n.toNat = l.length / tripletBytes cells cells ∧ ∀ b'', BumpFrame b' b'' → ∀ i < n.toNat,
        rangesElem b''.mem child parent lengths cells i = tripletAt cells cells l i := by
  obtain ⟨-, b₁, child, b₂, parent, b₃, lengths, m, halloc, halloc', halloc'', hloop, rfl, rfl, rfl⟩ :=
    dtbRewritePropertyRanges_ok hdata h
  obtain ⟨ha3, hz⟩ := hcells
  set a := cells.address with ha'
  set z := cells.size with hz'
  set n := len / (4 * a + 4 * a + 4 * z) with hn
  have hcount : n.toNat = l.length / tripletBytes cells cells := by
    rw [hn, BitVec.toNat_udiv, tripletSize_toNat ha3 hz, hlen]
    rfl
  refine ⟨child, parent, lengths, n, rfl, rfl, hcount, fun b'' hf i hi => ?_⟩
  replace ha := ha (by omega)
  obtain ⟨ha0, hz0, hvalue0, hchild, hparent, hlengths⟩ :=
    dtbRangesLoop_ne_zero (Nat.lt_of_le_of_lt (Nat.zero_le i) hi) ha3 hz hloop
  have hmul : 4 * (a.toNat + a.toNat + z.toNat) * n.toNat ≤ l.length := by
    rw [hcount]
    exact Nat.mul_div_le _ _
  have hnil : l ≠ [] := by
    rintro rfl
    rw [hcount, List.length_nil, Nat.zero_div] at hi
    exact absurd hi (Nat.not_lt_zero i)
  -- the buffers
  obtain ⟨hok₁, hframe₁, -, hbuffer₁⟩ := allocCells_spec hbig hok ha3 halloc
  obtain ⟨hok₂, hframe₂, -, hbuffer₂⟩ :=
    allocCells_spec (by rw [hframe₁.size]; exact hbig) hok₁ ha3 halloc'
  obtain ⟨-, -, -, hbuffer₃⟩ := allocCells_spec (by rw [(hframe₁.trans hframe₂).size]; exact hbig) hok₂
    (BitVec.le_trans hz (by decide)) halloc''
  have hgiven : BumpBuffers b ((rangesColumns l child parent lengths a.toNat z.toNat).map
      fun c => (c.base, c.width * n.toNat)) b₃ :=
    .cons (hbuffer₁ fun _ _ => hchild).1 (.cons (hbuffer₂ fun _ _ => hparent).1
      (.cons (hbuffer₃ fun _ _ => hlengths).1 .nil))
  have hapart := columnsApart_of_buffers hgiven
  have hrows := dtbRangesLoop_eq hvalue0 ha0 ha hz0 hz hchild hparent hlengths hmul
    (valueApart_of_buffers hgiven (BumpHas.of_holds (hvalue hnil))) (m := b₃.mem) (r := n.toNat)
    (Nat.zero_add _).le (by rw [hgiven.mem]; exact (hvalue hnil).bytes)
  rw [Nat.mul_zero, hloop] at hrows
  cases hrows
  have hrow := fun c hc => bytes_of_rows (c := c) hgiven hf hc hi
  unfold rangesElem tripletAt
  rw [cellsWidth_eq ha, cellsWidth_eq hz]
  have helem₁ := elemAt_cut (hrow _ List.mem_cons_self)
  have helem₂ := elemAt_cut (hrow _ (List.mem_cons_of_mem _ List.mem_cons_self))
  have helem₃ := elemAt_cut (hrow _ (List.mem_cons_of_mem _ (List.mem_cons_of_mem _
    (List.mem_singleton_self _))))
  rw [Nat.add_zero] at helem₁
  exact Prod.ext helem₁ (Prod.ext helem₂ helem₃)

/-- **The first address under three address cells**: what its store leaves where no other store comes.
Source: `device_tree.c` `dtb_rewrite_property_ranges`
Kind: L -/
theorem dtbRangesLoop_three {child parent lengths y : Addr} {r : ℕ} {m m' : Mem} (hz : z ≤ 2)
    (hchild : ∀ k, 1 ≤ k → k < r + 1 → y ∉ span (child + BitVec.ofNat 64 (16 * k)) 16)
    (hparent : ∀ k < r + 1, y ∉ span (parent + BitVec.ofNat 64 (16 * k)) 16)
    (hlengths : ∀ k < r + 1, y ∉ span (lengths + BitVec.ofNat 64 (cellsWidth z * k)) (cellsWidth z))
    (h : dtbRangesLoop value child parent lengths 3 z (r + 1) 0 0 m = .ok m') :
    m' y = m.put child (bytes m value 16).reverse y := by
  obtain ⟨-, hz0, hvalue, hchild0, hparent0, hlengths0⟩ :=
    dtbRangesLoop_ne_zero (Nat.succ_pos r) (by decide) hz h
  have hz3 : z ≠ 3 := by
    rintro rfl
    exact absurd hz (by decide)
  rw [dtbRangesLoop, dtbStoreCells_eq _ hvalue hchild0 (by decide) (by decide)] at h
  dsimp only at h
  rw [Nat.mul_zero, BitVec.add_zero, BitVec.add_zero] at h
  set m₁ := m.put child (bytes m value (cellsWidth 3)).reverse
  cases hstore₂ : dtbStoreCells .unreachable m₁ value parent 3 0 (0 + (4 * (3 : BitVec 32)).toNat) with
  | error stop =>
      rw [hstore₂] at h
      cases h
  | ok m₂ =>
      rw [hstore₂] at h
      dsimp only at h
      cases hstore₃ : dtbRangesLength m₂ value lengths z 0
          (0 + (4 * (3 : BitVec 32)).toNat + (4 * (3 : BitVec 32)).toNat) with
      | error stop =>
          rw [hstore₃] at h
          cases h
      | ok m₃ =>
          rw [hstore₃] at h
          unfold dtbRangesLength at hstore₃
          rw [if_neg hz3] at hstore₃
          have hrest : m' y = m₃ y := dtbRangesLoop_apply (by decide) hz h
            (fun k hk hk' => hchild k hk (by omega)) (fun k _ hk' => hparent k (by omega))
            fun k _ hk' => hlengths k (by omega)
          rw [hrest, dtbStoreCells_apply hz0 (BitVec.le_trans hz (by decide)) hstore₃
              (hlengths 0 (Nat.succ_pos r)),
            dtbStoreCells_apply (by decide) (by decide) hstore₂ (hparent 0 (Nat.succ_pos r))]
          rfl

/-- **The first address of a `ranges` under three address cells**: 16 bytes of the value are read for it,
and what is left of them in the end are the last 12.
Source: `device_tree.c` `dtb_rewrite_property_ranges`
Kind: L -/
theorem dtbRewritePropertyRanges_three {cells : DtCells} (hok : BumpOk b) (hbig : b.size.toNat ≤ 2 ^ 63)
    (ha : cells.address = 3) (hz : cells.size ≤ 2) (hdata : x.data = .raw len value)
    (hlen : len.toNat = l.length) (hvalue : l ≠ [] → BumpHolds b value l)
    (hcount : l.length / tripletBytes cells cells ≠ 0)
    (h : dtbRewritePropertyRanges assertions b x cells.address cells.size = .ok (b', t, d)) :
    ∃ child parent lengths n, d = .ranges child parent lengths n ∧ n.toNat ≠ 0 ∧
      ∀ b'', BumpFrame b' b'' → elemAt b''.mem child 16 0 % 2 ^ 96 = beNat (slice l 4 12) := by
  obtain ⟨-, b₁, child, b₂, parent, b₃, lengths, m, halloc, halloc', halloc'', hloop, rfl, rfl, rfl⟩ :=
    dtbRewritePropertyRanges_ok hdata h
  have hbytes : tripletBytes cells cells = 4 * (3 + 3 + cells.size.toNat) := by
    unfold tripletBytes
    rw [ha]
    rfl
  rw [ha] at halloc halloc' halloc'' hloop ⊢
  set z := cells.size
  set n := len / (4 * 3 + 4 * 3 + 4 * z) with hn
  have hnat : n.toNat = l.length / tripletBytes cells cells := by
    rw [hn, BitVec.toNat_udiv, tripletSize_toNat (by decide) hz, hlen, hbytes]
    rfl
  have hn0 : n.toNat ≠ 0 := hnat ▸ hcount
  refine ⟨child, parent, lengths, n, rfl, hn0, fun b'' hf => ?_⟩
  obtain ⟨r, hr⟩ := Nat.exists_eq_succ_of_ne_zero hn0
  have hn32 := n.isLt
  rw [hr] at hloop
  obtain ⟨-, -, -, hchild, hparent, hlengths⟩ := dtbRangesLoop_ne_zero (Nat.succ_pos r) (by decide) hz hloop
  have hlong : 24 ≤ l.length := by
    by_contra hlt
    exact hcount (Nat.div_eq_of_lt (by rw [hbytes]; omega))
  have hnil : l ≠ [] := List.ne_nil_of_length_pos (by omega)
  -- the buffers
  obtain ⟨hok₁, hframe₁, hmem₁, hbuffer₁⟩ := allocCells_spec hbig hok (by decide) halloc
  have hbig₁ : b₁.size.toNat ≤ 2 ^ 63 := by
    rw [hframe₁.size]
    exact hbig
  obtain ⟨hok₂, hframe₂, hmem₂, hbuffer₂⟩ := allocCells_spec hbig₁ hok₁ (by decide) halloc'
  obtain ⟨hok₃, hframe₃, hmem₃, hbuffer₃⟩ := allocCells_spec (by rw [hframe₂.size]; exact hbig₁) hok₂
    (BitVec.le_trans hz (by decide)) halloc''
  have hhas : BumpHas b₁ child (12 * n.toNat) := (hbuffer₁ fun _ _ => hchild).1.has
  have hbelow : ∀ y ∈ span child 12, (y - b₁.memory).toNat < b₁.index.toNat := by
    intro y hy
    rcases hhas with h0 | ⟨o, rfl, ho⟩
    · omega
    · have hindex := b₁.index.isLt
      have hy' : (y - (b₁.memory + BitVec.ofNat 64 o)).toNat < 12 := hy
      rw [show y - b₁.memory = (y - (b₁.memory + BitVec.ofNat 64 o)) + BitVec.ofNat 64 o by
        rw [← BitVec.sub_sub, BitVec.sub_add_cancel], BitVec.toNat_add, BitVec.toNat_ofNat,
        Nat.mod_eq_of_lt (by omega : o < 2 ^ 64), Nat.mod_eq_of_lt (by omega)]
      omega
  -- no other store comes to the lower bytes of the first address
  have hkeeps : ∀ y ∈ span child 12, m y = b₃.mem.put child (bytes b₃.mem value 16).reverse y := by
    intro y hy
    have hb₁ := hbelow y hy
    refine dtbRangesLoop_three hz (fun k hk hk' hmem => ?_)
      (fun k hk => (hbuffer₂ fun _ _ => hparent).2 y hb₁ k (by omega))
      (fun k hk => (hbuffer₃ fun _ _ => hlengths).2 y ?_ k (by omega)) hloop
    · have hapart := disjoint_span_offsets child (x := 0) (n := 12) (y := 16 * k) (k := 16) (by omega)
        (by omega) (by omega)
      rw [show child + BitVec.ofNat 64 0 = child from BitVec.add_zero _] at hapart
      exact Set.disjoint_left.mp hapart hy hmem
    · rw [hframe₂.memory]
      exact lt_of_lt_of_le hb₁ hframe₂.index
  have hvalue₃ : bytes b₃.mem value 16 = slice l 0 16 := by
    have hsub := bytes_sub (hvalue hnil).bytes (j := 0) (n := 16) (by omega)
    rw [show value + BitVec.ofNat 64 0 = value from BitVec.add_zero _] at hsub
    rw [hmem₃, hmem₂, hmem₁, hsub]
  have hlower : bytes b''.mem child 12 = (slice l 4 12).reverse := by
    have hframe : bytes b''.mem child 12 = bytes m child 12 := by
      have hhas₃ : BumpHas b₃ child (12 * n.toNat) := (hhas.frame hframe₂).frame hframe₃
      have hkept := bytes_frame (b := { b₃ with mem := m }) hhas₃ hf (j := 0) (w := 12) (by omega)
      rwa [show child + BitVec.ofNat 64 0 = child from BitVec.add_zero _] at hkept
    have hsame := bytes_put_same b₃.mem child (l := (bytes b₃.mem value 16).reverse)
      (by rw [List.length_reverse, length_bytes]; norm_num)
    rw [List.length_reverse, length_bytes, bytes_add _ _ 12 4] at hsame
    rw [hframe, bytes_congr (by norm_num) hkeeps, hvalue₃]
    have htake := congrArg (List.take 12) hsame
    rw [List.take_left' (length_bytes _ _ _), hvalue₃] at htake
    rw [htake, slice_add l 0 4 12, List.reverse_append,
      List.take_left' (by rw [List.length_reverse, length_slice])]
  have hsplit := leNat_append_mod (bytes b''.mem child 12) (bytes b''.mem (child + BitVec.ofNat 64 12) 4)
  rw [← bytes_add, length_bytes, hlower] at hsplit
  unfold elemAt
  rw [Nat.mul_zero, show child + BitVec.ofNat 64 0 = child from BitVec.add_zero _]
  exact hsplit

end single

/-! ## Trees -/

/-- **A `ranges` of a tree**, with a value of `k` triplets.
Source: `device_tree.c` `DTB_PROP_RANGES`, `DTB_PROP_DMA_RANGES`
Kind: D -/
structure RangesOf (f : PlacedForest) (n : ScopedNode) (x : ArrayPtr × FdtProp) (k : ℕ) : Prop where
  node : n ∈ f.scoped []
  property : x ∈ n.props
  kind : x.2.kind = .ranges ∨ x.2.kind = .dmaRanges
  pos : 0 < tripletBytes n.own n.cells
  length : x.2.value.length = tripletBytes n.own n.cells * k

/-- **The `ranges` is decoded**, with the node's own counts for the addresses on the bus and the lengths.
Source: `device_tree.c` `dtb_recursive_property_rewrite`, `dtb_rewrite_property_ranges`
Kind: D -/
def RangesDecoded (s' : DtState) (n : ScopedNode) (x : ArrayPtr × FdtProp) (k : ℕ) : Prop :=
  (s'.properties.cells x.1).type = (if x.2.kind = .dmaRanges then .dmaRanges else .ranges) ∧
    RangesExact s'.bump.mem (s'.properties.cells x.1) n.own n.cells x.2.value k

section trees

variable {assertions : Bool} {s s' : DtState} {root : ArrayPtr} {f : PlacedForest} {n : ScopedNode}
  {x : ArrayPtr × FdtProp} {k : ℕ}

/-- The triplets that the pass cuts the value into.
Source: `device_tree.c` `dtb_rewrite_property_ranges`
Kind: L -/
theorem RangesOf.groups_eq (hr : RangesOf f n x k) :
    x.2.groups n.cells = x.2.value.length / tripletBytes n.cells n.cells := by
  unfold FdtProp.groups
  rcases hr.kind with hkind | hkind
  · rw [hkind]
    rfl
  · rw [hkind]
    rfl

/-- **The round for a `ranges`**.
Source: `device_tree.c` `dtb_recursive_property_rewrite`
Kind: L -/
theorem RangesOf.round (hr : RangesOf f n x k) (h : DtPlaced s root f)
    (hrewrite : dtbRewrite assertions s root = .ok s') :
    ∃ b b' d len value, BumpOk b ∧ b.size.toNat ≤ 2 ^ 63 ∧
      (s.properties.cells x.1).data = .raw len value ∧ len.toNat = x.2.value.length ∧
      (x.2.value ≠ [] → BumpHolds b value x.2.value) ∧
      dtbRewritePropertyRanges assertions b (s.properties.cells x.1) n.cells.address n.cells.size =
        .ok (b', .ranges, d) ∧ BumpFrame b' s'.bump ∧ (s'.properties.cells x.1).data = d ∧
      (s'.properties.cells x.1).type = if x.2.kind = .dmaRanges then .dmaRanges else .ranges := by
  obtain ⟨-, -, hround⟩ := h.rounds hrewrite n hr.node
  obtain ⟨b, b', t, d, hok, hbefore, hrun, hafter, hcell⟩ := hround x hr.property
  have hheld := PropHeld.frame (h.places.held n hr.node x hr.property) hbefore
  rw [hheld.rewrite_eq hok] at hrun
  obtain ⟨-, -, len, value, hdata, hlen, hvalue⟩ := hheld
  have hbig : b.size.toNat ≤ 2 ^ 63 := by
    rw [hbefore.size]
    exact h.size
  rcases hr.kind with hkind | hkind
  · rw [hkind] at hrun
    have ht : t = .ranges := by
      obtain ⟨-, _, _, _, _, _, _, _, -, -, -, -, -, ht, -⟩ := dtbRewritePropertyRanges_ok hdata hrun
      exact ht
    rw [ht] at hrun hcell
    refine ⟨b, b', d, len, value, hok, hbig, hdata, hlen, hvalue, hrun, hafter, by rw [hcell], ?_⟩
    rw [hcell, hkind]
    rfl
  · rw [hkind] at hrun
    obtain ⟨⟨b₁, t₁, d₁⟩, hranges, heq⟩ := except_map_ok hrun
    cases heq
    have ht : t₁ = .ranges := by
      obtain ⟨-, _, _, _, _, _, _, _, -, -, -, -, -, ht, -⟩ := dtbRewritePropertyRanges_ok hdata hranges
      exact ht
    rw [ht] at hranges
    refine ⟨b, b₁, d₁, len, value, hok, hbig, hdata, hlen, hvalue, hranges, hafter, by rw [hcell], ?_⟩
    rw [hcell, hkind]
    rfl

/-- **What `ranges` is decoded to**, without a triplet under three address cells.
Source: `device_tree.c` `dtb_rewrite_property_ranges`
Kind: L -/
theorem RangesOf.decoded (hr : RangesOf f n x k) (h : DtPlaced s root f)
    (hrewrite : dtbRewrite assertions s root = .ok s')
    (h3 : n.cells.address = 3 → x.2.value.length / tripletBytes n.cells n.cells = 0) :
    ∃ child parent lengths nTrips,
      (s'.properties.cells x.1).data = .ranges child parent lengths nTrips ∧
      nTrips.toNat = x.2.value.length / tripletBytes n.cells n.cells ∧ ∀ i < nTrips.toNat,
        rangesElem s'.bump.mem child parent lengths n.cells i = tripletAt n.cells n.cells x.2.value i := by
  obtain ⟨hcells, -, -⟩ := h.rounds hrewrite n hr.node
  obtain ⟨b, b', d, len, value, hok, hbig, hdata, hlen, hvalue, hrun, hafter, hcell, -⟩ :=
    hr.round h hrewrite
  obtain ⟨child, parent, lengths, nTrips, -, rfl, hcount, helems⟩ := dtbRewritePropertyRanges_elems hok hbig
    hcells (fun hne => hcells.address_le fun heq => hne (h3 heq)) hdata hlen hvalue hrun
  exact ⟨child, parent, lengths, nTrips, hcell, hcount, helems _ hafter⟩

/-- **When a `ranges` is decoded**, without a triplet under three address cells: exactly if its value is cut
alike.
Source: `device_tree.c` `dtb_rewrite_property_ranges`
Kind: P -/
theorem RangesOf.exact_iff (hr : RangesOf f n x k) (h : DtPlaced s root f)
    (hrewrite : dtbRewrite assertions s root = .ok s')
    (h3 : n.cells.address = 3 → x.2.groups n.cells = 0) :
    RangesExact s'.bump.mem (s'.properties.cells x.1) n.own n.cells x.2.value k ↔
      CutAlike n.own n.cells x.2.value k := by
  rw [hr.groups_eq] at h3
  obtain ⟨child, parent, lengths, nTrips, hcell, hcount, helems⟩ := hr.decoded h hrewrite h3
  constructor
  · rintro ⟨child', parent', lengths', nTrips', hcell', hcount', helems'⟩
    rw [hcell] at hcell'
    cases hcell'
    refine ⟨hcount.symm.trans hcount', fun i hi => ?_⟩
    rw [← helems i (by rw [hcount']; exact hi)]
    exact helems' i hi
  · intro hcut
    rw [hcut.1] at hcount
    refine ⟨child, parent, lengths, nTrips, hcell, hcount, fun i hi => ?_⟩
    rw [helems i (by rw [hcount]; exact hi)]
    exact hcut.2 i hi

/-- **A `ranges` with a triplet under three address cells** is decoded at most when its first address on the
bus is the number of the cells behind its first.
Source: `device_tree.c` `dtb_rewrite_property_ranges`
Kind: P -/
theorem RangesOf.three (hr : RangesOf f n x k) (h : DtPlaced s root f)
    (hrewrite : dtbRewrite assertions s root = .ok s') (h3 : n.cells.address = 3)
    (hcount : x.2.groups n.cells ≠ 0)
    (hexact : RangesExact s'.bump.mem (s'.properties.cells x.1) n.own n.cells x.2.value k) :
    beNat (slice x.2.value 0 (4 * n.own.address.toNat)) % 2 ^ 96 = beNat (slice x.2.value 4 12) := by
  rw [hr.groups_eq] at hcount
  obtain ⟨⟨-, hz⟩, -, -⟩ := h.rounds hrewrite n hr.node
  obtain ⟨b, b', d, len, value, hok, hbig, hdata, hlen, hvalue, hrun, hafter, hcell, -⟩ :=
    hr.round h hrewrite
  obtain ⟨child, parent, lengths, nTrips, rfl, hn0, hfirst⟩ :=
    dtbRewritePropertyRanges_three hok hbig h3 hz hdata hlen hvalue hcount hrun
  obtain ⟨child', parent', lengths', nTrips', hcell', hcount', helems⟩ := hexact
  rw [hcell] at hcell'
  cases hcell'
  have helem := congrArg Prod.fst (helems 0 (by omega))
  unfold rangesElem tripletAt at helem
  dsimp only at helem
  rw [h3, Nat.mul_zero] at helem
  rw [← helem]
  exact hfirst s'.bump hafter

end trees

end Octiron.Kernel
