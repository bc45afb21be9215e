import Octiron.Kernel.DeviceSafety
import Octiron.Kzadhbat.BumpAligned
import Octiron.Kzadhbat.Endian

/-!
# Decoding cells

`dtb_rewrite_property_reg` and `dtb_rewrite_property_ranges` copy groups of big-endian cells to arrays of
numbers.

* `cellsWidth_eq` — the type that is read and written has 4 bytes a cell, but for three cells.
  `dtbStoreCells_eq` says which bytes are read and written.
* `cutColumn` — the column of numbers that is cut out of the groups of a value.
* `dtbRegLoop_eq`, `dtbRangesLoop_eq` — with at most two cells a loop writes its columns row by row.
* `RegExact` — what the arrays of `reg` have to hold, and where they may be read and written.
* **Main result** (`regDecodes_iff`): `reg` is decoded exactly unless there are three address cells.
-/

namespace Octiron.Kernel

open Octiron.Found
open Octiron.Found.Mem
open Octiron.Kzadhbat

/-! ## One number -/

/-- Number `i` of an array of numbers of `w` bytes.
Source: `device_tree.c` `struct dtPropReg`, `struct dtPropRanges`
Kind: D -/
def elemAt (m : Mem) (base : Addr) (w i : ℕ) : ℕ := leNat (bytes m (base + BitVec.ofNat 64 (w * i)) w)

/-- The column that is cut out of the groups of `g` bytes of a value, `w` bytes from `off` on.
Source: `device_tree.c` `dtb_rewrite_property_reg`, `dtb_rewrite_property_ranges`
Kind: D -/
def cutColumn (l : List (BitVec 8)) (base : Addr) (w g off : ℕ) : Column where
  base := base
  width := w
  elem := fun i => (slice l (g * i + off) w).reverse
  length_elem := fun i => by rw [List.length_reverse, length_slice]

section store

variable {m m' : Mem} {value dst : Addr} {cells : BitVec 32} {l : List (BitVec 8)} {i j : ℕ}

/-- Source: none: infrastructure. Kind: L -/
theorem cellsWidth_eq (h : cells ≤ 2) : cellsWidth cells = 4 * cells.toNat := by
  have hle : cells.toNat ≤ 2 := h
  rcases (by omega : cells.toNat = 0 ∨ cells.toNat = 1 ∨ cells.toNat = 2) with h | h | h
  · rw [BitVec.eq_of_toNat_eq (y := 0) h]
    rfl
  · rw [BitVec.eq_of_toNat_eq (y := 1) h]
    rfl
  · rw [BitVec.eq_of_toNat_eq (y := 2) h]
    rfl

/-- **What is read and written for a number**: `cellsWidth` bytes of the value from `j` on, to the place of
number `i`, in the reverse order.
Source: `device_tree.c` `dtb_rewrite_property_reg`, `bitmacros.h` `READ_BIG_ENDIAN_U32`,
`READ_BIG_ENDIAN_U64`, `READ_BIG_ENDIAN_U128`
Kind: P -/
theorem dtbStoreCells_eq (other : DtRewriteStop) (hvalue : value ≠ 0) (hdst : dst ≠ 0)
    (h0 : cells ≠ 0) (h3 : cells ≤ 3) :
    dtbStoreCells other m value dst cells i j =
      .ok (m.put (dst + BitVec.ofNat 64 (cellsWidth cells * i))
        (bytes m (value + BitVec.ofNat 64 j) (cellsWidth cells)).reverse) := by
  unfold dtbStoreCells
  dsimp only
  rw [if_neg hvalue, if_neg hvalue, if_neg hvalue, if_neg hdst, if_neg hdst, if_neg hdst]
  rcases cells_cases h0 h3 with rfl | rfl | rfl
  · show Except.ok _ = Except.ok (m.put (dst + BitVec.ofNat 64 (4 * i)) _)
    rw [store32_eq_put]
    exact congrArg (fun l => Except.ok (m.put _ l)) (wordBytes_readBigEndianU32 m _)
  · show Except.ok _ = Except.ok (m.put (dst + BitVec.ofNat 64 (8 * i)) _)
    rw [store64_eq_put, wordBytes_flipU64]
    rfl
  · show Except.ok _ = Except.ok (m.put (dst + BitVec.ofNat 64 (16 * i)) _)
    rw [store128_eq_put, wordBytes_flipU128]
    rfl

/-- Source: `device_tree.c` `dtb_rewrite_property_reg`, `dtb_rewrite_property_ranges`. Kind: L -/
theorem dtbStoreCells_apply {other : DtRewriteStop} (h0 : cells ≠ 0) (h3 : cells ≤ 3)
    (h : dtbStoreCells other m value dst cells i j = .ok m') {x : Addr}
    (hx : x ∉ span (dst + BitVec.ofNat 64 (cellsWidth cells * i)) (cellsWidth cells)) :
    m' x = m x := by
  obtain ⟨hvalue, hdst⟩ := (dtbStoreCells_ok_iff _ _ _ _ _ _ h0 h3).mp ⟨m', h⟩
  rw [dtbStoreCells_eq other hvalue hdst h0 h3] at h
  cases h
  refine put_apply_of_notMem ?_
  rw [List.length_reverse, length_bytes]
  exact hx

/-- At most two cells, cut out of a value.
Source: `device_tree.c` `dtb_rewrite_property_reg`, `dtb_rewrite_property_ranges`
Kind: L -/
theorem dtbStoreCells_cut (other : DtRewriteStop) (hvalue : value ≠ 0) (hdst : dst ≠ 0)
    (h0 : cells ≠ 0) (h2 : cells ≤ 2) (hbytes : bytes m value l.length = l) {g off : ℕ}
    (hj : g * i + off + 4 * cells.toNat ≤ l.length) :
    dtbStoreCells other m value dst cells i (g * i + off) =
      .ok ((cutColumn l dst (4 * cells.toNat) g off).put i m) := by
  rw [dtbStoreCells_eq other hvalue hdst h0 (BitVec.le_trans h2 (by decide)), cellsWidth_eq h2,
    bytes_sub hbytes hj]
  rfl

/-- The value is still there.
Source: none: infrastructure
Kind: L -/
theorem bytes_column_put {c : Column} {n : ℕ} (hl : l.length ≤ 2 ^ 64)
    (hbytes : bytes m value l.length = l) (hn : c.width * n ≤ 2 ^ 64) (hi : i < n)
    (hdisj : Disjoint (span value l.length) (span c.base (c.width * n))) :
    bytes (c.put i m) value l.length = l := by
  refine (bytes_congr hl fun x hx => c.put_apply fun hxc => ?_).trans hbytes
  exact Set.disjoint_left.mp hdisj hx (c.at_subset hi hn hxc)

/-- **A number that was cut out** is the big-endian number of its bytes.
Source: `device_tree.c` `dtb_rewrite_property_reg`, `dtb_rewrite_property_ranges`
Kind: L -/
theorem elemAt_cut {base : Addr} {w g off : ℕ}
    (h : bytes m (base + BitVec.ofNat 64 (w * i)) w = (cutColumn l base w g off).elem i) :
    elemAt m base w i = beNat (slice l (g * i + off) w) := by
  unfold elemAt
  rw [h]
  rfl

end store

/-! ## The loops -/

/-- The columns of `reg`.
Source: `device_tree.c` `dtb_rewrite_property_reg`
Kind: D -/
def regColumns (l : List (BitVec 8)) (addresses sizes : Addr) (a z : ℕ) : List Column :=
  [cutColumn l addresses (4 * a) (4 * (a + z)) 0, cutColumn l sizes (4 * z) (4 * (a + z)) (4 * a)]

/-- The columns of `ranges`.
Source: `device_tree.c` `dtb_rewrite_property_ranges`
Kind: D -/
def rangesColumns (l : List (BitVec 8)) (childBusAddrs parentBusAddrs lengths : Addr) (a z : ℕ) :
    List Column :=
  [cutColumn l childBusAddrs (4 * a) (4 * (a + a + z)) 0,
    cutColumn l parentBusAddrs (4 * a) (4 * (a + a + z)) (4 * a),
    cutColumn l lengths (4 * z) (4 * (a + a + z)) (4 * (a + a))]

/-- The value is not written while its columns are.
Source: none: infrastructure
Kind: D -/
structure ValueApart (value : Addr) (l : List (BitVec 8)) (cols : List Column) (n : ℕ) : Prop where
  length : l.length ≤ 2 ^ 64
  fits : ∀ c ∈ cols, c.width * n ≤ 2 ^ 64
  apart : ∀ c ∈ cols, Disjoint (span value l.length) (span c.base (c.width * n))

section loops

variable {m : Mem} {value : Addr} {a z : BitVec 32} {l : List (BitVec 8)} {n : ℕ}

/-- Source: none: infrastructure. Kind: L -/
theorem ValueApart.put {cols : List Column} {c : Column} (h : ValueApart value l cols n)
    (hc : c ∈ cols) (hbytes : bytes m value l.length = l) {i : ℕ} (hi : i < n) :
    bytes (c.put i m) value l.length = l :=
  bytes_column_put h.length hbytes (h.fits c hc) hi (h.apart c hc)

/-- Source: `device_tree.c` `dtb_rewrite_property_reg`. Kind: L -/
theorem dtbRegAddress_eq {addresses : Addr} (hvalue : value ≠ 0) (ha : a ≤ 2)
    (haddresses : a ≠ 0 → addresses ≠ 0) (hbytes : bytes m value l.length = l) {g i : ℕ}
    (hj : g * i + 0 + 4 * a.toNat ≤ l.length) :
    dtbRegAddress m value addresses a i (g * i) =
      .ok ((cutColumn l addresses (4 * a.toNat) g 0).put i m) := by
  unfold dtbRegAddress
  by_cases h0 : a = 0
  · rw [if_pos h0, h0]
    rfl
  · have hstore := dtbStoreCells_cut .unreachable hvalue (haddresses h0) h0 ha hbytes hj
    rw [Nat.add_zero] at hstore
    rw [if_neg h0, hstore]

/-- Source: `device_tree.c` `dtb_rewrite_property_reg`. Kind: L -/
theorem dtbRegSize_eq {sizes : Addr} (hvalue : value ≠ 0) (hz : z ≤ 2) (hsizes : z ≠ 0 → sizes ≠ 0)
    (hbytes : bytes m value l.length = l) {g i off : ℕ}
    (hj : g * i + off + 4 * z.toNat ≤ l.length) :
    dtbRegSize m value sizes z i (g * i + off) =
      .ok ((cutColumn l sizes (4 * z.toNat) g off).put i m) := by
  unfold dtbRegSize
  by_cases h0 : z = 0
  · rw [if_pos h0, h0]
    rfl
  · have h3 : z ≠ 3 := by
      rintro rfl
      exact absurd hz (by decide)
    rw [if_neg h0, if_neg h3]
    exact dtbStoreCells_cut .unreachable hvalue (hsizes h0) h0 hz hbytes hj

/-- **The loop of `reg`** with at most two cells writes its columns row by row.
Source: `device_tree.c` `dtb_rewrite_property_reg`
Kind: P -/
theorem dtbRegLoop_eq {addresses sizes : Addr} (hvalue : value ≠ 0) (ha : a ≤ 2) (hz : z ≤ 2)
    (haddresses : a ≠ 0 → addresses ≠ 0) (hsizes : z ≠ 0 → sizes ≠ 0)
    (hlen : 4 * (a.toNat + z.toNat) * n ≤ l.length)
    (hapart : ValueApart value l (regColumns l addresses sizes a.toNat z.toNat) n) {r : ℕ} :
    ∀ {i : ℕ} {m : Mem}, i + r ≤ n → bytes m value l.length = l →
      dtbRegLoop value addresses sizes a z r i (4 * (a.toNat + z.toNat) * i) m =
        .ok (putRows (regColumns l addresses sizes a.toNat z.toNat) i r m) := by
  have ha4 : (4 * a).toNat = 4 * a.toNat := fourCells_toNat (BitVec.le_trans ha (by decide))
  have hz4 : (4 * z).toNat = 4 * z.toNat := fourCells_toNat (BitVec.le_trans hz (by decide))
  induction r with
  | zero => exact fun _ _ => rfl
  | succ r ih =>
      intro i m hir hbytes
      have hgroup : 4 * (a.toNat + z.toNat) * i + 4 * (a.toNat + z.toNat) ≤ l.length := by
        refine le_trans ?_ hlen
        calc 4 * (a.toNat + z.toNat) * i + 4 * (a.toNat + z.toNat)
            = 4 * (a.toNat + z.toNat) * (i + 1) := by ring
          _ ≤ 4 * (a.toNat + z.toNat) * n := Nat.mul_le_mul_left _ (by omega)
      set g := 4 * (a.toNat + z.toNat) with hg
      rw [dtbRegLoop, dtbRegAddress_eq hvalue ha haddresses hbytes (by omega)]
      dsimp only
      have hbytes₁ := hapart.put List.mem_cons_self hbytes (by omega : i < n)
      rw [ha4]
      rw [dtbRegSize_eq hvalue hz hsizes hbytes₁ (by omega)]
      dsimp only
      have hbytes₂ := hapart.put (List.mem_cons_of_mem _ (List.mem_singleton_self _)) hbytes₁
        (by omega : i < n)
      rw [hz4, show g * i + 4 * a.toNat + 4 * z.toNat = g * (i + 1) by rw [hg]; ring]
      exact ih (by omega) hbytes₂

/-- Source: `device_tree.c` `dtb_rewrite_property_ranges`. Kind: L -/
theorem dtbRangesLength_eq {lengths : Addr} (hvalue : value ≠ 0) (hz0 : z ≠ 0) (hz : z ≤ 2)
    (hlengths : lengths ≠ 0) (hbytes : bytes m value l.length = l) {g i off : ℕ}
    (hj : g * i + off + 4 * z.toNat ≤ l.length) :
    dtbRangesLength m value lengths z i (g * i + off) =
      .ok ((cutColumn l lengths (4 * z.toNat) g off).put i m) := by
  have h3 : z ≠ 3 := by
    rintro rfl
    exact absurd hz (by decide)
  unfold dtbRangesLength
  rw [if_neg h3]
  exact dtbStoreCells_cut _ hvalue hlengths hz0 hz hbytes hj

/-- **The loop of `ranges`** with one or two cells.
Source: `device_tree.c` `dtb_rewrite_property_ranges`
Kind: P -/
theorem dtbRangesLoop_eq {childBusAddrs parentBusAddrs lengths : Addr} (hvalue : value ≠ 0)
    (ha0 : a ≠ 0) (ha : a ≤ 2) (hz0 : z ≠ 0) (hz : z ≤ 2) (hchild : childBusAddrs ≠ 0)
    (hparent : parentBusAddrs ≠ 0) (hlengths : lengths ≠ 0)
    (hlen : 4 * (a.toNat + a.toNat + z.toNat) * n ≤ l.length)
    (hapart : ValueApart value l
      (rangesColumns l childBusAddrs parentBusAddrs lengths a.toNat z.toNat) n) {r : ℕ} :
    ∀ {i : ℕ} {m : Mem}, i + r ≤ n → bytes m value l.length = l →
      dtbRangesLoop value childBusAddrs parentBusAddrs lengths a z r i
          (4 * (a.toNat + a.toNat + z.toNat) * i) m =
        .ok (putRows (rangesColumns l childBusAddrs parentBusAddrs lengths a.toNat z.toNat) i r m) := by
  have ha4 : (4 * a).toNat = 4 * a.toNat := fourCells_toNat (BitVec.le_trans ha (by decide))
  have hz4 : (4 * z).toNat = 4 * z.toNat := fourCells_toNat (BitVec.le_trans hz (by decide))
  induction r with
  | zero => exact fun _ _ => rfl
  | succ r ih =>
      intro i m hir hbytes
      have hgroup : 4 * (a.toNat + a.toNat + z.toNat) * i + 4 * (a.toNat + a.toNat + z.toNat) ≤
          l.length := by
        refine le_trans ?_ hlen
        calc 4 * (a.toNat + a.toNat + z.toNat) * i + 4 * (a.toNat + a.toNat + z.toNat)
            = 4 * (a.toNat + a.toNat + z.toNat) * (i + 1) := by ring
          _ ≤ 4 * (a.toNat + a.toNat + z.toNat) * n := Nat.mul_le_mul_left _ (by omega)
      set g := 4 * (a.toNat + a.toNat + z.toNat) with hg
      have hmem₂ : cutColumn l parentBusAddrs (4 * a.toNat) g (4 * a.toNat) ∈
          rangesColumns l childBusAddrs parentBusAddrs lengths a.toNat z.toNat :=
        List.mem_cons_of_mem _ List.mem_cons_self
      have hmem₃ : cutColumn l lengths (4 * z.toNat) g (4 * (a.toNat + a.toNat)) ∈
          rangesColumns l childBusAddrs parentBusAddrs lengths a.toNat z.toNat :=
        List.mem_cons_of_mem _ (List.mem_cons_of_mem _ (List.mem_singleton_self _))
      have hstore₁ := dtbStoreCells_cut .unreachable hvalue hchild ha0 ha hbytes
        (show g * i + 0 + 4 * a.toNat ≤ l.length by omega)
      have hbytes₁ := hapart.put List.mem_cons_self hbytes (by omega : i < n)
      have hstore₂ := dtbStoreCells_cut .unreachable hvalue hparent ha0 ha hbytes₁
        (show g * i + 4 * a.toNat + 4 * a.toNat ≤ l.length by omega)
      have hbytes₂ := hapart.put hmem₂ hbytes₁ (by omega : i < n)
      have hstore₃ := dtbRangesLength_eq hvalue hz0 hz hlengths hbytes₂
        (show g * i + 4 * (a.toNat + a.toNat) + 4 * z.toNat ≤ l.length by omega)
      have hbytes₃ := hapart.put hmem₃ hbytes₂ (by omega : i < n)
      rw [Nat.add_zero] at hstore₁
      rw [dtbRangesLoop, hstore₁]
      dsimp only
      rw [ha4, hstore₂]
      dsimp only
      rw [show g * i + 4 * a.toNat + 4 * a.toNat = g * i + 4 * (a.toNat + a.toNat) by ring, hstore₃]
      dsimp only
      rw [hz4, show g * i + 4 * (a.toNat + a.toNat) + 4 * z.toNat = g * (i + 1) by rw [hg]; ring]
      exact ih (by omega) hbytes₃

/-- The loop of `reg` writes only its numbers, with three address cells, too.
Source: `device_tree.c` `dtb_rewrite_property_reg`
Kind: L -/
theorem dtbRegLoop_apply {addresses sizes : Addr} (ha : a ≤ 3) (hz : z ≤ 2) {x : Addr} {r : ℕ} :
    ∀ {i j : ℕ} {m m' : Mem}, dtbRegLoop value addresses sizes a z r i j m = .ok m' →
      (∀ k, i ≤ k → k < i + r →
        x ∉ span (addresses + BitVec.ofNat 64 (cellsWidth a * k)) (cellsWidth a)) →
      (∀ k, i ≤ k → k < i + r →
        x ∉ span (sizes + BitVec.ofNat 64 (cellsWidth z * k)) (cellsWidth z)) → m' x = m x := by
  induction r with
  | zero =>
      intro i j m m' h _ _
      cases h
      rfl
  | succ r ih =>
      intro i j m m' h hx hx'
      rw [dtbRegLoop] at h
      cases haddress : dtbRegAddress m value addresses a i j with
      | error stop =>
          rw [haddress] at h
          cases h
      | ok m₁ =>
          rw [haddress] at h
          dsimp only at h
          cases hsize : dtbRegSize m₁ value sizes z i (j + (4 * a).toNat) with
          | error stop =>
              rw [hsize] at h
              cases h
          | ok m₂ =>
              rw [hsize] at h
              dsimp only at h
              have h₁ : m₁ x = m x := by
                unfold dtbRegAddress at haddress
                split_ifs at haddress with h0
                · cases haddress
                  rfl
                · exact dtbStoreCells_apply h0 ha haddress (hx i (le_refl i) (by omega))
              have h₂ : m₂ x = m₁ x := by
                unfold dtbRegSize at hsize
                split_ifs at hsize with h0 h3
                · cases hsize
                  rfl
                · exact dtbStoreCells_apply h0 (BitVec.le_trans hz (by decide)) hsize
                    (hx' i (le_refl i) (by omega))
              rw [ih h (fun k hik hk => hx k (by omega) (by omega))
                fun k hik hk => hx' k (by omega) (by omega), h₂, h₁]

/-- The loop of `ranges` writes only its numbers.
Source: `device_tree.c` `dtb_rewrite_property_ranges`
Kind: L -/
theorem dtbRangesLoop_apply {childBusAddrs parentBusAddrs lengths : Addr} (ha : a ≤ 3) (hz : z ≤ 2)
    {x : Addr} {r : ℕ} : ∀ {i j : ℕ} {m m' : Mem},
      dtbRangesLoop value childBusAddrs parentBusAddrs lengths a z r i j m = .ok m' →
      (∀ k, i ≤ k → k < i + r →
        x ∉ span (childBusAddrs + BitVec.ofNat 64 (cellsWidth a * k)) (cellsWidth a)) →
      (∀ k, i ≤ k → k < i + r →
        x ∉ span (parentBusAddrs + BitVec.ofNat 64 (cellsWidth a * k)) (cellsWidth a)) →
      (∀ k, i ≤ k → k < i + r →
        x ∉ span (lengths + BitVec.ofNat 64 (cellsWidth z * k)) (cellsWidth z)) → m' x = m x := by
  have hother : ∀ {other : DtRewriteStop} {m m' : Mem} {dst : Addr} {i j : ℕ},
      dtbStoreCells other m value dst 0 i j ≠ .ok m' := by
    intro other m m' dst i j h
    cases h
  induction r with
  | zero =>
      intro i j m m' h _ _ _
      cases h
      rfl
  | succ r ih =>
      intro i j m m' h hchild hparent hlengths
      rw [dtbRangesLoop] at h
      cases hstore₁ : dtbStoreCells .unreachable m value childBusAddrs a i j with
      | error stop =>
          rw [hstore₁] at h
          cases h
      | ok m₁ =>
          rw [hstore₁] at h
          dsimp only at h
          cases hstore₂ : dtbStoreCells .unreachable m₁ value parentBusAddrs a i
              (j + (4 * a).toNat) with
          | error stop =>
              rw [hstore₂] at h
              cases h
          | ok m₂ =>
              rw [hstore₂] at h
              dsimp only at h
              cases hstore₃ : dtbRangesLength m₂ value lengths z i
                  (j + (4 * a).toNat + (4 * a).toNat) with
              | error stop =>
                  rw [hstore₃] at h
                  cases h
              | ok m₃ =>
                  rw [hstore₃] at h
                  dsimp only at h
                  have ha0 : a ≠ 0 := by
                    rintro rfl
                    exact hother hstore₁
                  have h₃ : m₃ x = m₂ x := by
                    unfold dtbRangesLength at hstore₃
                    split_ifs at hstore₃ with h3
                    have hz0 : z ≠ 0 := by
                      rintro rfl
                      exact hother hstore₃
                    exact dtbStoreCells_apply hz0 (BitVec.le_trans hz (by decide)) hstore₃
                      (hlengths i (le_refl i) (by omega))
                  rw [ih h (fun k hik hk => hchild k (by omega) (by omega))
                    (fun k hik hk => hparent k (by omega) (by omega))
                    fun k hik hk => hlengths k (by omega) (by omega), h₃,
                    dtbStoreCells_apply ha0 ha hstore₂ (hparent i (le_refl i) (by omega)),
                    dtbStoreCells_apply ha0 ha hstore₁ (hchild i (le_refl i) (by omega))]

end loops

/-! ## The buffers -/

/-- The buffer that is asked for, for `n` numbers of `c` cells.
Source: `device_tree.c` `dtb_rewrite_property_reg`, `dtb_rewrite_property_ranges`
Kind: D -/
def allocCells (b : BumpAllocator) (c n : BitVec 32) : BumpAllocator × Addr :=
  bumpAllocAligned b ((4 * c).setWidth 64 * n.setWidth 64) ((4 * c).setWidth 64)

/-- The buffers that `reg` asks for.
Source: `device_tree.c` `dtb_rewrite_property_reg`
Kind: D -/
def dtbRegBuffers (bump : BumpAllocator) (a z nPairs : BitVec 32) : BumpAllocator × Addr × Addr :=
  let (bump, addresses) := allocCells bump a nPairs
  let (bump, sizes) := allocCells bump z nPairs
  (bump, addresses, sizes)

section buffers

variable {b b' : BumpAllocator} {c n a z : BitVec 32} {p : Addr}

/-- Source: none: infrastructure. Kind: L -/
theorem cellsSize_toNat (hc : c ≤ 3) (n : BitVec 32) :
    ((4 * c).setWidth 64 * n.setWidth 64).toNat = 4 * c.toNat * n.toNat := by
  have hle : c.toNat ≤ 3 := hc
  have hn := n.isLt
  rw [BitVec.toNat_mul, BitVec.toNat_setWidth, BitVec.toNat_setWidth, fourCells_toNat hc,
    Nat.mod_eq_of_lt (by omega : 4 * c.toNat < 2 ^ 64), Nat.mod_eq_of_lt (by omega : n.toNat < 2 ^ 64)]
  refine Nat.mod_eq_of_lt ?_
  calc 4 * c.toNat * n.toNat ≤ 12 * n.toNat := Nat.mul_le_mul_right _ (by omega)
    _ < 2 ^ 64 := by omega

/-- **A buffer for numbers**: refused, or a range behind the index. With one or two cells its offset is a
multiple of their size.
Source: `bump_allocator.c` `bump_alloc_aligned`
Kind: L -/
theorem allocCells_cases (hbig : b.size.toNat ≤ 2 ^ 63) (hok : BumpOk b) (hc : c ≤ 3)
    (n : BitVec 32) :
    (allocCells b c n = (b, 0) ∧ (c = 0 ∨ n = 0 ∨
      b.size.toNat < b.index.toNat + (4 * c.toNat - 1) + 4 * c.toNat * n.toNat)) ∨
    ∃ b' p o, allocCells b c n = (b', p) ∧ BumpGives b b' p o (4 * c.toNat * n.toNat) ∧
      o ≤ b.index.toNat + (4 * c.toNat - 1) ∧ (c ≤ 2 → 4 * c.toNat ∣ o) := by
  have hle : c.toNat ≤ 3 := hc
  have hn := n.isLt
  have hsize := cellsSize_toNat hc n
  have halign : ((4 * c).setWidth 64).toNat = 4 * c.toNat := by
    rw [BitVec.toNat_setWidth, fourCells_toNat hc, Nat.mod_eq_of_lt (by omega)]
  have hbound : 4 * c.toNat * n.toNat ≤ 2 ^ 40 := by
    calc 4 * c.toNat * n.toNat ≤ 12 * n.toNat := Nat.mul_le_mul_right _ (by omega)
      _ ≤ 2 ^ 40 := by omega
  have hzero : ∀ {c : BitVec 32}, c.toNat = 0 → c = 0 := fun h => BitVec.eq_of_toNat_eq h
  unfold allocCells
  rcases bumpAllocAligned_cases hbig hok ((4 * c).setWidth 64 * n.setWidth 64) ((4 * c).setWidth 64)
    (by rw [hsize]; exact hbound) (by rw [halign]; omega) with
    ⟨heq, hwhy⟩ | ⟨b', p, o, heq, hgives, hle', hdvd⟩
  · refine Or.inl ⟨heq, ?_⟩
    rcases hwhy with h0 | h0 | hlt
    · have hprod := congrArg BitVec.toNat h0
      rw [hsize] at hprod
      change _ = 0 at hprod
      rcases Nat.mul_eq_zero.mp hprod with h | h
      · exact Or.inl (hzero (by omega))
      · exact Or.inr (Or.inl (hzero h))
    · have h4 := congrArg BitVec.toNat h0
      rw [halign] at h4
      change _ = 0 at h4
      exact Or.inl (hzero (by omega))
    · rw [hsize, halign] at hlt
      exact Or.inr (Or.inr hlt)
  · rw [hsize] at hgives
    rw [halign] at hle' hdvd
    refine Or.inr ⟨b', p, o, heq, hgives, hle', fun h2 => ?_⟩
    have h2' : c.toNat ≤ 2 := h2
    rcases (by omega : c.toNat = 0 ∨ c.toNat = 1 ∨ c.toNat = 2) with h | h | h
    · have hpos := hgives.pos
      rw [h] at hpos
      omega
    · rw [h] at hdvd ⊢
      exact hdvd 2 rfl
    · rw [h] at hdvd ⊢
      exact hdvd 3 rfl

/-- Source: none: infrastructure. Kind: L -/
theorem fourCells_eq_zero (hc : c ≤ 3) (h : 4 * c = 0) : c = 0 := by
  have htoNat := fourCells_toNat hc
  rw [h] at htoNat
  change 0 = _ at htoNat
  exact BitVec.eq_of_toNat_eq (show c.toNat = 0 by omega)

/-- Source: `bump_allocator.c` `bump_alloc_aligned`. Kind: L -/
theorem allocCells_eq_zero (b : BumpAllocator) (h : c = 0 ∨ n = 0) : allocCells b c n = (b, 0) := by
  unfold allocCells bumpAllocAligned
  rw [if_pos]
  rcases h with rfl | rfl
  · exact Or.inr (Or.inl rfl)
  · refine Or.inl (BitVec.eq_of_toNat_eq ?_)
    rw [BitVec.toNat_mul]
    rfl

/-- **A request that was not refused**, with the alignment of its numbers.
Source: `bump_allocator.c` `bump_alloc_aligned`
Kind: L -/
theorem allocCells_buffer (hbig : b.size.toNat ≤ 2 ^ 63) (hok : BumpOk b)
    (haligned : 16 ∣ b.memory.toNat) (hc : c ≤ 3) (h : allocCells b c n = (b', p))
    (hp : c ≠ 0 → n ≠ 0 → p ≠ 0) :
    BumpBuffer b b' p (4 * c.toNat * n.toNat) ∧ (c ≤ 2 → cellsWidth c ∣ p.toNat) := by
  by_cases h0 : c = 0 ∨ n = 0
  · rw [allocCells_eq_zero b h0] at h
    cases h
    refine ⟨?_, fun _ => dvd_zero _⟩
    have hzero : 4 * c.toNat * n.toNat = 0 := by
      rcases h0 with rfl | rfl
      · exact Nat.zero_mul _
      · exact Nat.mul_zero _
    rw [hzero]
    exact BumpBuffer.none
  · obtain ⟨hc0, hn0⟩ := not_or.mp h0
    rcases allocCells_cases hbig hok hc n with ⟨hnull, -⟩ | ⟨b₁, p₁, o, heq, hgives, -, hdvd⟩
    · rw [hnull] at h
      cases h
      exact absurd rfl (hp hc0 hn0)
    · rw [heq] at h
      cases h
      refine ⟨BumpBuffer.range hgives, fun h2 => ?_⟩
      have hle : c.toNat ≤ 2 := h2
      rw [hgives.toNat hok, cellsWidth_eq h2]
      refine Nat.dvd_add (Nat.dvd_trans ?_ haligned) (hdvd h2)
      rcases cells_cases hc0 hc with rfl | rfl | rfl
      · exact ⟨4, rfl⟩
      · exact ⟨2, rfl⟩
      · exact absurd hle (by decide)

/-- Buffers for columns do not meet.
Source: none: infrastructure
Kind: L -/
theorem columnsApart_of_buffers {cols : List Column} {k : ℕ}
    (h : BumpBuffers b (cols.map fun c => (c.base, c.width * k)) b') : ColumnsApart cols k where
  fits := fun _ hc => (h.has (List.mem_map_of_mem hc)).le
  apart := by
    have h' := h.apart
    rw [List.pairwise_map] at h'
    exact h'

/-- Source: none: infrastructure. Kind: L -/
theorem valueApart_of_buffers {cols : List Column} {k : ℕ} {value : Addr} {l : List (BitVec 8)}
    (h : BumpBuffers b (cols.map fun c => (c.base, c.width * k)) b')
    (hvalue : BumpHas b value l.length) : ValueApart value l cols k where
  length := hvalue.le
  fits := fun _ hc => (h.has (List.mem_map_of_mem hc)).le
  apart := fun _ hc => h.disjoint hvalue (List.mem_map_of_mem hc)

/-- **The buffers of `reg`**, when none is refused.
Source: `device_tree.c` `dtb_rewrite_property_reg`
Kind: L -/
theorem dtbRegBuffers_buffers {addresses sizes : Addr} (hbig : b.size.toNat ≤ 2 ^ 63) (hok : BumpOk b)
    (haligned : 16 ∣ b.memory.toNat) (ha : a ≤ 3) (hz : z ≤ 2)
    (h : dtbRegBuffers b a z n = (b', addresses, sizes)) (haddresses : a ≠ 0 → n ≠ 0 → addresses ≠ 0)
    (hsizes : z ≠ 0 → n ≠ 0 → sizes ≠ 0) :
    BumpBuffers b [(addresses, 4 * a.toNat * n.toNat), (sizes, 4 * z.toNat * n.toNat)] b' ∧
      (a ≤ 2 → cellsWidth a ∣ addresses.toNat) ∧ cellsWidth z ∣ sizes.toNat := by
  unfold dtbRegBuffers at h
  cases halloc : allocCells b a n with
  | mk b₁ p₁ =>
      rw [halloc] at h
      dsimp only at h
      cases halloc' : allocCells b₁ z n with
      | mk b₂ p₂ =>
          rw [halloc'] at h
          cases h
          obtain ⟨hbuffer, halign⟩ := allocCells_buffer hbig hok haligned ha halloc haddresses
          have hframe := hbuffer.frame
          obtain ⟨hbuffer', halign'⟩ := allocCells_buffer (by rw [hframe.size]; exact hbig)
            (hbuffer.ok hok) (by rw [hframe.memory]; exact haligned)
            (BitVec.le_trans hz (by decide)) halloc' hsizes
          exact ⟨.cons hbuffer (.cons hbuffer' .nil), halign, halign' hz⟩

end buffers

/-! ## `reg` -/

/-- There is memory for the numbers of `reg`.
Source: `device_tree.c` `dtb_rewrite_property_reg`
Kind: D -/
structure RegRoom (b : BumpAllocator) (a z n : BitVec 32) : Prop where
  addresses : a ≠ 0 → (dtbRegBuffers b a z n).2.1 ≠ 0
  sizes : z ≠ 0 → (dtbRegBuffers b a z n).2.2 ≠ 0

/-- **An exact copy of the pairs** of the value `l`, made between `b` and `b'`.
Source: `device_tree.c` `dtb_rewrite_property_reg`, `struct dtPropReg`
Kind: D -/
structure RegExact (b b' : BumpAllocator) (l : List (BitVec 8)) (a z : BitVec 32)
    (addresses sizes : Addr) (nPairs : BitVec 32) : Prop where
  count : nPairs.toNat = l.length / (4 * (a.toNat + z.toNat))
  /-- The addresses are the big-endian numbers of the address cells, -/
  address : ∀ i < nPairs.toNat, elemAt b'.mem addresses (cellsWidth a) i =
    beNat (slice l (4 * (a.toNat + z.toNat) * i) (4 * a.toNat))
  /-- and the sizes those of the size cells. -/
  size : ∀ i < nPairs.toNat, elemAt b'.mem sizes (cellsWidth z) i =
    beNat (slice l (4 * (a.toNat + z.toNat) * i + 4 * a.toNat) (4 * z.toNat))
  /-- The pairs, encoded again, are the value. -/
  reencoded : (List.range nPairs.toNat).flatMap (fun i =>
    beBytes (4 * a.toNat) (elemAt b'.mem addresses (cellsWidth a) i) ++
      beBytes (4 * z.toNat) (elemAt b'.mem sizes (cellsWidth z) i)) = l
  /-- The reads for pair `i` are inside the value, -/
  reads : ∀ i < nPairs.toNat,
    4 * (a.toNat + z.toNat) * i + cellsWidth a ≤ l.length ∧
      4 * (a.toNat + z.toNat) * i + 4 * a.toNat + cellsWidth z ≤ l.length
  /-- and its writes inside the arrays. -/
  writes : ∀ i < nPairs.toNat, cellsWidth a * i + cellsWidth a ≤ 4 * a.toNat * nPairs.toNat ∧
    cellsWidth z * i + cellsWidth z ≤ 4 * z.toNat * nPairs.toNat
  /-- The arrays are what was asked for, and nothing else has been written. -/
  arrays : dtbRegBuffers b a z nPairs = ({ b' with mem := b.mem }, addresses, sizes)
  frame : ∀ x, x ∉ span addresses (4 * a.toNat * nPairs.toNat) →
    x ∉ span sizes (4 * z.toNat * nPairs.toNat) → b'.mem x = b.mem x
  aligned : cellsWidth a ∣ addresses.toNat ∧ cellsWidth z ∣ sizes.toNat

/-- `reg` is decoded exactly.
Source: `device_tree.c` `dtb_rewrite_property_reg`
Kind: D -/
def RegDecodes (assertions : Bool) (b : BumpAllocator) (p : DtProperty) (a z : BitVec 32)
    (l : List (BitVec 8)) : Prop :=
  ∃ b' addresses sizes nPairs,
    dtbRewritePropertyReg assertions b p a z = .ok (b', .reg, .reg addresses sizes nPairs) ∧
      RegExact b b' l a z addresses sizes nPairs

section reg

variable {assertions : Bool} {b : BumpAllocator} {p : DtProperty} {a z len n : BitVec 32}
  {value : Addr} {l : List (BitVec 8)}

/-- **`reg` behind its assertions**: the buffers, then the loop.
Source: `device_tree.c` `dtb_rewrite_property_reg`
Kind: L -/
theorem dtbRewritePropertyReg_eq (hdata : p.data = .raw len value) (hgroup : 4 * a + 4 * z ≠ 0)
    (hassert : assertions = true → dtbRegAsserts len a z = true)
    (hnull : assertions = true →
      let buffers := dtbRegBuffers b a z (len / (4 * a + 4 * z))
      (4 * a = 0 ↔ buffers.2.1 = 0) ∧ (4 * z = 0 ↔ buffers.2.2 = 0)) :
    dtbRewritePropertyReg assertions b p a z =
      let nPairs := len / (4 * a + 4 * z)
      let buffers := dtbRegBuffers b a z nPairs
      (dtbRegLoop value buffers.2.1 buffers.2.2 a z nPairs.toNat 0 0 buffers.1.mem).map fun m =>
        ({ buffers.1 with mem := m }, .reg, .reg buffers.2.1 buffers.2.2 nPairs) := by
  unfold dtbRewritePropertyReg
  rw [hdata]
  dsimp only
  rw [if_neg hgroup, if_neg (fun h => h.2 (hassert h.1))]
  unfold dtbRegBuffers allocCells at hnull ⊢
  dsimp only at hnull ⊢
  rw [if_neg (fun h => h.2 (hnull h.1))]
  split
  · rename_i stop hloop
    rw [hloop]
    rfl
  · rename_i m hloop
    rw [hloop]
    rfl

/-- The pairs of a value of whole pairs.
Source: `device_tree.c` `dtb_rewrite_property_reg`
Kind: L -/
theorem nPairs_toNat (ha : a ≤ 3) (hz : z ≤ 2) (hlen : len.toNat = l.length) :
    (len / (4 * a + 4 * z)).toNat = l.length / (4 * (a.toNat + z.toNat)) := by
  rw [BitVec.toNat_udiv, pairSize_toNat ha hz, hlen]

/-- The assertions of `reg` about the numbers hold.
Source: `device_tree.c` `dtb_rewrite_property_reg`
Kind: L -/
theorem dtbRegAsserts_of_whole (ha : a ≤ 3) (hz : z ≤ 2) (hlen : len.toNat = l.length)
    (hpos : 0 < l.length) (hwhole : 4 * (a.toNat + z.toNat) ∣ l.length) :
    dtbRegAsserts len a z = true := by
  unfold dtbRegAsserts
  have hn : len / (4 * a + 4 * z) > 0 := by
    show 0 < (len / (4 * a + 4 * z)).toNat
    rw [nPairs_toNat ha hz hlen]
    exact Nat.div_pos (Nat.le_of_dvd hpos hwhole) (Nat.pos_of_dvd_of_pos hwhole hpos)
  have hmod : len % (4 * a + 4 * z) = 0 := by
    apply BitVec.eq_of_toNat_eq
    rw [BitVec.toNat_umod, pairSize_toNat ha hz, hlen]
    exact Nat.mod_eq_zero_of_dvd hwhole
  simp only [Bool.and_eq_true, decide_eq_true_eq]
  exact ⟨⟨⟨hn, hmod⟩, ha⟩, hz⟩

/-- Pairs with the numbers of the cells, encoded again.
Source: `device_tree.c` `dtb_rewrite_property_reg`
Kind: L -/
theorem flatMap_beBytes {a z n : ℕ} {address size : ℕ → ℕ} (hlen : 4 * (a + z) * n = l.length)
    (haddress : ∀ i < n, address i = beNat (slice l (4 * (a + z) * i) (4 * a)))
    (hsize : ∀ i < n, size i = beNat (slice l (4 * (a + z) * i + 4 * a) (4 * z))) :
    (List.range n).flatMap (fun i => beBytes (4 * a) (address i) ++ beBytes (4 * z) (size i)) = l := by
  have hgroup : ∀ i < n, beBytes (4 * a) (address i) ++ beBytes (4 * z) (size i) =
      slice l (4 * (a + z) * i) (4 * (a + z)) := by
    intro i hi
    have h₁ := beBytes_beNat (slice l (4 * (a + z) * i) (4 * a))
    have h₂ := beBytes_beNat (slice l (4 * (a + z) * i + 4 * a) (4 * z))
    rw [length_slice] at h₁ h₂
    rw [haddress i hi, hsize i hi, h₁, h₂, ← slice_add, ← Nat.mul_add]
  calc (List.range n).flatMap (fun i => beBytes (4 * a) (address i) ++ beBytes (4 * z) (size i))
      = (List.range n).flatMap (fun i => slice l (4 * (a + z) * i) (4 * (a + z))) := by
        refine List.flatMap_congr fun i hi => hgroup i (List.mem_range.mp hi)
    _ = l := by rw [flatMap_slice, hlen, slice_zero]

/-- **The pairs row by row**: the copy is exact.
Source: `device_tree.c` `dtb_rewrite_property_reg`
Kind: L -/
theorem regExact_putRows {b₂ : BumpAllocator} {addresses sizes : Addr} (ha : a ≤ 2) (hz : z ≤ 2)
    (hlen : 4 * (a.toNat + z.toNat) * n.toNat = l.length) (hgroup : 0 < 4 * (a.toNat + z.toNat))
    (hbuffers : dtbRegBuffers b a z n = (b₂, addresses, sizes))
    (hgiven : BumpBuffers b [(addresses, 4 * a.toNat * n.toNat), (sizes, 4 * z.toNat * n.toNat)] b₂)
    (haligned : cellsWidth a ∣ addresses.toNat ∧ cellsWidth z ∣ sizes.toNat) :
    RegExact b { b₂ with mem := putRows (regColumns l addresses sizes a.toNat z.toNat) 0 n.toNat b.mem }
      l a z addresses sizes n := by
  have hapart : ColumnsApart (regColumns l addresses sizes a.toNat z.toNat) n.toNat :=
    columnsApart_of_buffers hgiven
  have hwa := cellsWidth_eq ha
  have hwz := cellsWidth_eq hz
  set m := putRows (regColumns l addresses sizes a.toNat z.toNat) 0 n.toNat b.mem with hm
  have haddress : ∀ i < n.toNat, elemAt m addresses (cellsWidth a) i =
      beNat (slice l (4 * (a.toNat + z.toNat) * i) (4 * a.toNat)) := by
    intro i hi
    have helem := elemAt_cut (bytes_putRows (m := b.mem) hapart (Nat.zero_add _).le (Nat.zero_le i)
      (by omega) List.mem_cons_self)
    rw [Nat.add_zero] at helem
    rw [hwa]
    exact helem
  have hsize : ∀ i < n.toNat, elemAt m sizes (cellsWidth z) i =
      beNat (slice l (4 * (a.toNat + z.toNat) * i + 4 * a.toNat) (4 * z.toNat)) := by
    intro i hi
    have helem := elemAt_cut (bytes_putRows (m := b.mem) hapart (Nat.zero_add _).le (Nat.zero_le i)
      (by omega) (List.mem_cons_of_mem _ (List.mem_singleton_self _)))
    rw [hwz]
    exact helem
  have hstep : ∀ {w i : ℕ}, i < n.toNat → w * i + w ≤ w * n.toNat := by
    intro w i hi
    calc w * i + w = w * (i + 1) := by ring
      _ ≤ w * n.toNat := Nat.mul_le_mul_left _ hi
  refine ⟨?_, haddress, hsize, flatMap_beBytes hlen haddress hsize, fun i hi => ?_, fun i hi => ?_, ?_,
    fun x hx hx' => ?_, haligned⟩
  · rw [← hlen, Nat.mul_div_cancel_left _ hgroup]
  · have hle := hstep (w := 4 * (a.toNat + z.toNat)) hi
    rw [hlen] at hle
    rw [hwa, hwz]
    omega
  · rw [hwa, hwz]
    exact ⟨hstep hi, hstep hi⟩
  · rw [hbuffers, ← hgiven.mem]
  · refine putRows_apply fun c hc k _ hk hxk => ?_
    have hxc := c.at_subset (by omega : k < n.toNat) (hapart.fits c hc) hxk
    rcases List.mem_cons.mp hc with rfl | hc
    · exact hx hxc
    · obtain rfl := List.mem_singleton.mp hc
      exact hx' hxc

/-- **At most two address cells**: `reg` is decoded exactly.
Source: `device_tree.c` `dtb_rewrite_property_reg`
Kind: P -/
theorem regDecodes_of_le_two (hok : BumpOk b) (hbig : b.size.toNat ≤ 2 ^ 63)
    (haligned : 16 ∣ b.memory.toNat) (ha : a ≤ 2) (hz : z ≤ 2) (hdata : p.data = .raw len value)
    (hlen : len.toNat = l.length) (hholds : BumpHolds b value l) (hpos : 0 < l.length)
    (hwhole : 4 * (a.toNat + z.toNat) ∣ l.length) (hroom : RegRoom b a z (len / (4 * a + 4 * z))) :
    RegDecodes assertions b p a z l := by
  have ha3 : a ≤ 3 := BitVec.le_trans ha (by decide)
  have hgroup0 : 0 < 4 * (a.toNat + z.toNat) := Nat.pos_of_dvd_of_pos hwhole hpos
  have hgroup : 4 * a + 4 * z ≠ 0 := by
    intro h0
    have h := pairSize_toNat ha3 hz
    rw [h0] at h
    change 0 = _ at h
    omega
  have hn := nPairs_toNat (l := l) ha3 hz hlen
  have hmul : 4 * (a.toNat + z.toNat) * (len / (4 * a + 4 * z)).toNat = l.length := by
    rw [hn]
    exact Nat.mul_div_cancel' hwhole
  have hassert : dtbRegAsserts len a z = true := dtbRegAsserts_of_whole ha3 hz hlen hpos hwhole
  have hnull : (4 * a = 0 ↔ (dtbRegBuffers b a z (len / (4 * a + 4 * z))).2.1 = 0) ∧
      (4 * z = 0 ↔ (dtbRegBuffers b a z (len / (4 * a + 4 * z))).2.2 = 0) := by
    refine ⟨⟨fun h => ?_, fun h => ?_⟩, ⟨fun h => ?_, fun h => ?_⟩⟩
    · rw [dtbRegBuffers, allocCells_eq_zero b (Or.inl (fourCells_eq_zero ha3 h))]
    · by_contra h4
      exact hroom.addresses (fun h0 => h4 (by rw [h0]; rfl)) h
    · rw [dtbRegBuffers]
      exact congrArg Prod.snd
        (allocCells_eq_zero _ (Or.inl (fourCells_eq_zero (BitVec.le_trans hz (by decide)) h)))
    · by_contra h4
      exact hroom.sizes (fun h0 => h4 (by rw [h0]; rfl)) h
  have heq : dtbRewritePropertyReg assertions b p a z = _ :=
    dtbRewritePropertyReg_eq hdata hgroup (fun _ => hassert) fun _ => hnull
  set n := len / (4 * a + 4 * z)
  have haddresses := hroom.addresses
  have hsizes := hroom.sizes
  cases hbuffers : dtbRegBuffers b a z n with
  | mk b₂ rest =>
      obtain ⟨addresses, sizes⟩ := rest
      dsimp only at heq
      rw [hbuffers] at haddresses hsizes heq
      obtain ⟨hgiven, halign, halign'⟩ := dtbRegBuffers_buffers hbig hok haligned ha3 hz hbuffers
        (fun h _ => haddresses h) fun h _ => hsizes h
      have hvalue : ValueApart value l (regColumns l addresses sizes a.toNat z.toNat) n.toNat :=
        valueApart_of_buffers hgiven (BumpHas.of_holds hholds)
      have hvalue0 : value ≠ 0 := (BumpHas.of_holds hholds).ne_zero hok (by omega)
      have hloop := dtbRegLoop_eq hvalue0 ha hz haddresses hsizes hmul.le hvalue (r := n.toNat)
        (Nat.zero_add _).le hholds.bytes
      refine ⟨_, addresses, sizes, n, ?_,
        regExact_putRows ha hz hmul hgroup0 hbuffers hgiven ⟨halign ha, halign'⟩⟩
      rw [heq, hgiven.mem]
      rw [Nat.mul_zero] at hloop
      rw [hloop]
      rfl

/-- **Three address cells**: the numbers are 16 bytes apart, and the array has 12 bytes for each.
Source: `device_tree.c` `dtb_rewrite_property_reg`
Kind: L -/
theorem not_regDecodes_three (hpos : 0 < l.length) (hwhole : 4 * (3 + z.toNat) ∣ l.length) :
    ¬ RegDecodes assertions b p 3 z l := by
  rintro ⟨b', addresses, sizes, nPairs, -, hexact⟩
  have hn : nPairs.toNat = l.length / (4 * (3 + z.toNat)) := hexact.count
  have hpairs : 0 < nPairs.toNat := by
    rw [hn]
    exact Nat.div_pos (Nat.le_of_dvd hpos hwhole) (Nat.pos_of_dvd_of_pos hwhole hpos)
  have hwrites := (hexact.writes (nPairs.toNat - 1) (by omega)).1
  change 16 * (nPairs.toNat - 1) + 16 ≤ 12 * nPairs.toNat at hwrites
  omega

/-- **`reg` is decoded exactly unless there are three address cells**.
Source: `device_tree.c` `dtb_rewrite_property_reg`
Kind: P
Hyps: the value is in the buffer, has whole pairs, and there is memory for their numbers -/
theorem regDecodes_iff (assertions : Bool) (b : BumpAllocator) (p : DtProperty) (a z len : BitVec 32)
    (value : Addr) (l : List (BitVec 8)) (hok : BumpOk b) (hbig : b.size.toNat ≤ 2 ^ 63)
    (haligned : 16 ∣ b.memory.toNat) (ha : a ≤ 3) (hz : z ≤ 2) (hdata : p.data = .raw len value)
    (hlen : len.toNat = l.length) (hholds : BumpHolds b value l) (hpos : 0 < l.length)
    (hwhole : 4 * (a.toNat + z.toNat) ∣ l.length) (hroom : RegRoom b a z (len / (4 * a + 4 * z))) :
    RegDecodes assertions b p a z l ↔ a ≠ 3 := by
  constructor
  · rintro hdecodes rfl
    exact not_regDecodes_three hpos hwhole hdecodes
  · intro h3
    have ha' : a.toNat ≤ 3 := ha
    have h3' : a.toNat ≠ 3 := fun h => h3 (BitVec.eq_of_toNat_eq h)
    exact regDecodes_of_le_two hok hbig haligned (show a.toNat ≤ 2 by omega) hz hdata hlen hholds
      hpos hwhole hroom

end reg

/-- A buffer of two pages at `0x1000` with the bytes `l`.
Source: none: infrastructure
Kind: D -/
def bytesBump (l : List (BitVec 8)) : BumpAllocator where
  memory := 0x1000
  size := 0x2000
  index := BitVec.ofNat 64 l.length
  mem := put (fun _ => 0) 0x1000 l

/-- A property whose value is at `0x1000`.
Source: none: infrastructure
Kind: D -/
def bytesProperty (l : List (BitVec 8)) : DtProperty where
  name := 0
  next := none
  type := .raw
  data := .raw (BitVec.ofNat 32 l.length) 0x1000

/-- Source: none: infrastructure. Kind: L -/
theorem bumpHolds_bytesBump {l : List (BitVec 8)} (h : l.length ≤ 0x2000) :
    BumpHolds (bytesBump l) 0x1000 l := by
  have hindex : (bytesBump l).index.toNat = l.length := by
    show (BitVec.ofNat 64 l.length).toNat = _
    rw [BitVec.toNat_ofNat, Nat.mod_eq_of_lt (by omega)]
  refine ⟨BytesAt.of_bytes (bytes_put_same _ _ (by omega)), 0, rfl, ?_⟩
  rw [hindex, Nat.zero_add]

/-- One pair of two address cells and one size cell.
Source: none: infrastructure
Kind: D -/
def uartReg : List (BitVec 8) := [0, 0, 0, 0, 0x10, 0, 0, 0, 0, 0, 1, 0]

/-- The `reg` of a UART.
Source: none: infrastructure
Kind: C -/
theorem regDecodes_uart : RegDecodes true (bytesBump uartReg) (bytesProperty uartReg) 2 1 uartReg :=
  (regDecodes_iff true (bytesBump uartReg) (bytesProperty uartReg) 2 1 12 0x1000 uartReg
    ⟨by decide, by decide, by decide⟩ (by decide) (by decide) (by decide) (by decide) rfl rfl
    (bumpHolds_bytesBump (by decide)) (by decide) (by decide)
    ⟨fun _ => by decide, fun _ => by decide⟩).mpr (by decide)

/-- **One address of three cells**: 16 bytes are read from a value of 12, and written to an array of 12.
Source: `device_tree.c` `dtb_rewrite_property_reg`
Kind: C -/
theorem not_regDecodes_threeCells :
    BumpOk (bytesBump uartReg) ∧ BumpHolds (bytesBump uartReg) 0x1000 uartReg ∧
      RegRoom (bytesBump uartReg) 3 0 (12 / (4 * 3 + 4 * 0)) ∧
      ¬ RegDecodes true (bytesBump uartReg) (bytesProperty uartReg) 3 0 uartReg :=
  ⟨⟨by decide, by decide, by decide⟩, bumpHolds_bytesBump (by decide),
    ⟨fun _ => by decide, fun h => absurd rfl h⟩, not_regDecodes_three (by decide) (by decide)⟩

end Octiron.Kernel
