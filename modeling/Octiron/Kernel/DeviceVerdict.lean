import Octiron.Found.EndsAs
import Octiron.Kernel.DeviceContents

/-!
# When the rewrite pass ends well

With enough room behind the tree the pass with assertions accepts exactly the values that have a meaning,
and it stops at the first one that has none.

* `numbersSpace`, `FdtProp.space` — the room that is enough for a property.
* `rewrite_of_decode` — a property is rewritten exactly if its value has a meaning.
* `FdtForest.decode` — the meaning of the nodes, in the order of the pass (`FdtForest.decode_node_ok`).
* **Main result** (`dtbRewrite_of_decode`): the pass ends as `decode` does, with the same stop.
-/

namespace Octiron.Kernel

open Octiron.Found
open Octiron.Found.Mem
open Octiron.Kzadhbat

/-! ## Room -/

/-- Room for `n` numbers of `c` cells, and what alignment takes.
Source: `bump_allocator.c` `bump_alloc_aligned`
Kind: D -/
def numbersSpace (c : BitVec 32) (n : ℕ) : ℕ := 4 * c.toNat * n + (4 * c.toNat - 1)

/-- **Room for a property** of a node that these counts govern.
Source: `device_tree.c` `dtb_recursive_property_rewrite`
Kind: D -/
def FdtProp.space (cells : DtCells) (p : FdtProp) : ℕ :=
  match p.kind with
  | .compatible => 8 * (p.value.count 0 + 1) + 7
  | .reg =>
    numbersSpace cells.address (p.value.length / pairBytes cells) +
      numbersSpace cells.size (p.value.length / pairBytes cells)
  | .ranges | .dmaRanges =>
    2 * numbersSpace cells.address (p.value.length / tripletBytes cells cells) +
      numbersSpace cells.size (p.value.length / tripletBytes cells cells)
  | _ => 0

section room

variable {b b' : BumpAllocator} {c n : BitVec 32} {p : Addr} {o k : ℕ}

/-- Source: none: infrastructure. Kind: L -/
theorem room_of_bumpGives (h : BumpGives b b' p o k) {pad : ℕ} (ho : o ≤ b.index.toNat + pad) :
    b.room ≤ b'.room + (k + pad) := by
  have hindex := h.index_toNat
  have hsize : b'.size = b.size := by rw [h.after]
  have hfits := h.fits
  unfold BumpAllocator.room
  rw [hindex, hsize]
  omega

/-- **A request for numbers that there is room for**.
Source: `bump_allocator.c` `bump_alloc_aligned`
Kind: L -/
theorem allocCells_room (hbig : b.size.toNat ≤ 2 ^ 63) (hok : BumpOk b) (hc : c ≤ 3)
    (hroom : numbersSpace c n.toNat ≤ b.room) (h : allocCells b c n = (b', p)) :
    (c ≠ 0 → n ≠ 0 → p ≠ 0) ∧ b.room ≤ b'.room + numbersSpace c n.toNat := by
  have hindex := hok.index
  unfold numbersSpace at hroom ⊢
  rcases allocCells_cases hbig hok hc n with ⟨heq, hwhy⟩ | ⟨b₁, p₁, o, heq, hgives, ho, -⟩
  · rw [heq] at h
    cases h
    refine ⟨fun hc0 hn0 => ?_, Nat.le_add_right _ _⟩
    rcases hwhy with h0 | h0 | hlt
    · exact absurd h0 hc0
    · exact absurd h0 hn0
    · unfold BumpAllocator.room at hroom
      omega
  · rw [heq] at h
    cases h
    exact ⟨fun _ _ => hgives.ne_zero hok, room_of_bumpGives hgives ho⟩

end room

/-! ## One property -/

section single

variable {b : BumpAllocator} {x : DtProperty} {len : BitVec 32} {value : Addr} {cells : DtCells}
  {p : FdtProp}

/-- **`compatible`** is accepted when there is room for its list.
Source: `device_tree.c` `dtb_rewrite_property_compatible`
Kind: L -/
theorem compatible_of_room (hok : BumpOk b) (hbig : b.size.toNat ≤ 2 ^ 63) (htype : x.type = .raw)
    (hdata : x.data = .raw len value) (hlen : len.toNat = p.value.length)
    (hvalue : p.value ≠ [] → BumpHolds b value p.value)
    (hroom : 8 * (p.value.count 0 + 1) + 7 ≤ b.room) :
    ∃ r, dtbRewritePropertyCompatible true b x = .ok r ∧
      b.room ≤ r.1.room + (8 * (p.value.count 0 + 1) + 7) := by
  have hlen32 := len.isLt
  have hcount32 : p.value.count 0 ≤ p.value.length := List.count_le_length
  have hbytes : bytes b.mem value p.value.length = p.value := by
    by_cases hnil : p.value = []
    · rw [hnil]
      rfl
    · exact (hvalue hnil).bytes
  have hvalue0 : ¬ (value = 0 ∧ len ≠ 0) := by
    rintro ⟨hzero, hne⟩
    have hnil : p.value ≠ [] := by
      intro hnil
      rw [hnil] at hlen
      exact hne (BitVec.eq_of_toNat_eq hlen)
    exact BumpHolds.ne_zero (hvalue hnil) hok hnil hzero
  have hsize : (BitVec.ofNat 64 (8 * (p.value.count 0 + 1))).toNat = 8 * (p.value.count 0 + 1) := by
    rw [BitVec.toNat_ofNat, Nat.mod_eq_of_lt (by omega)]
  unfold dtbRewritePropertyCompatible
  rw [if_neg (fun h => h.2 htype), hdata]
  dsimp only
  rw [if_neg hvalue0, hlen, countP_zero_bytes hbytes]
  rcases bumpAllocAligned_cases hbig hok (BitVec.ofNat 64 (8 * (p.value.count 0 + 1))) 8
    (by rw [hsize]; omega) (by decide) with ⟨-, hwhy⟩ | ⟨b₁, compat, o, halloc, hgives, ho, -⟩
  · have hindex := hok.index
    unfold BumpAllocator.room at hroom
    rcases hwhy with h0 | h0 | hlt
    · rw [h0] at hsize
      exact absurd hsize (Nat.succ_ne_zero _).symm
    · exact absurd h0 (by decide)
    · rw [hsize] at hlt
      change _ < _ + 7 + _ at hlt
      omega
  · rw [halloc]
    dsimp only
    rw [if_neg (hgives.ne_zero hok)]
    rw [hsize] at hgives
    exact ⟨_, rfl, room_of_bumpGives hgives ho⟩

/-- **`reg`** is accepted, with room, exactly if it has whole pairs.
Source: `device_tree.c` `dtb_rewrite_property_reg`
Kind: L -/
theorem reg_of_room (hok : BumpOk b) (hbig : b.size.toNat ≤ 2 ^ 63) (hcells : cells.Bounded)
    (ha : p.value.length / pairBytes cells ≠ 0 → cells.address ≤ 2) (hdata : x.data = .raw len value)
    (hlen : len.toNat = p.value.length) (hvalue : p.value ≠ [] → BumpHolds b value p.value)
    (hroom : numbersSpace cells.address (p.value.length / pairBytes cells) +
      numbersSpace cells.size (p.value.length / pairBytes cells) ≤ b.room) :
    EndsAs (fun _ r => b.room ≤ r.1.room + (numbersSpace cells.address (p.value.length / pairBytes cells) +
        numbersSpace cells.size (p.value.length / pairBytes cells)))
      (p.pairs cells) (dtbRewritePropertyReg true b x cells.address cells.size) := by
  obtain ⟨ha3, hz⟩ := hcells
  have hz3 : cells.size ≤ 3 := BitVec.le_trans hz (by decide)
  have hpair : (4 * cells.address + 4 * cells.size).toNat = pairBytes cells := pairSize_toNat ha3 hz
  set a := cells.address with ha'
  set z := cells.size with hz'
  have hn : (len / (4 * a + 4 * z)).toNat = p.value.length / pairBytes cells := by
    rw [BitVec.toNat_udiv, hpair, hlen]
  unfold FdtProp.pairs
  by_cases h0 : pairBytes cells = 0
  · rw [if_pos h0]
    have hgroup : 4 * a + 4 * z = 0 := BitVec.eq_of_toNat_eq (hpair.trans h0)
    unfold dtbRewritePropertyReg
    rw [hdata]
    dsimp only
    rw [if_pos hgroup]
    rfl
  rw [if_neg h0]
  by_cases hwhy : p.value = [] ∨ ¬ pairBytes cells ∣ p.value.length
  · rw [if_pos hwhy]
    have hgroup : 4 * a + 4 * z ≠ 0 := fun h => h0 (by rw [← hpair, h]; rfl)
    have hfails : ¬ dtbRegAsserts len a z = true := by
      unfold dtbRegAsserts
      simp only [Bool.and_eq_true, decide_eq_true_eq]
      rintro ⟨⟨⟨hpos, hmod⟩, -⟩, -⟩
      have hmod' := congrArg BitVec.toNat hmod
      rw [BitVec.toNat_umod, hpair, hlen] at hmod'
      rcases hwhy with hnil | hdvd
      · have hpos' : 0 < (len / (4 * a + 4 * z)).toNat := hpos
        rw [hn, hnil, List.length_nil, Nat.zero_div] at hpos'
        exact absurd hpos' (Nat.lt_irrefl 0)
      · exact hdvd (Nat.dvd_of_mod_eq_zero hmod')
    unfold dtbRewritePropertyReg
    rw [hdata]
    dsimp only
    rw [if_neg hgroup, if_pos ⟨rfl, hfails⟩]
    rfl
  · rw [if_neg hwhy]
    obtain ⟨hnil, hdvd⟩ := not_or.mp hwhy
    have hdvd := not_not.mp hdvd
    have hpos : 0 < p.value.length := List.length_pos_of_ne_nil hnil
    have hpairPos : 0 < pairBytes cells := Nat.pos_of_dvd_of_pos hdvd hpos
    replace ha := ha (Nat.ne_of_gt (Nat.div_pos (Nat.le_of_dvd hpos hdvd) hpairPos))
    have hgroup : 4 * a + 4 * z ≠ 0 := by
      intro h
      rw [h] at hpair
      change 0 = _ at hpair
      omega
    have hassert : dtbRegAsserts len a z = true := dtbRegAsserts_of_whole ha3 hz hlen hpos hdvd
    rw [← hn] at hroom ⊢
    set n := len / (4 * a + 4 * z)
    have hn0 : n ≠ 0 := by
      intro h0
      have hdiv : 0 < p.value.length / pairBytes cells := Nat.div_pos (Nat.le_of_dvd hpos hdvd) hpairPos
      rw [← hn, h0] at hdiv
      exact absurd hdiv (Nat.lt_irrefl 0)
    -- the buffers
    cases halloc : allocCells b a n with
    | mk b₁ addresses =>
        cases halloc' : allocCells b₁ z n with
        | mk b₂ sizes =>
            obtain ⟨hok₁, hframe₁, -, hbuffer₁⟩ := allocCells_spec hbig hok ha3 halloc
            obtain ⟨haddresses, hroom₁⟩ := allocCells_room hbig hok ha3 (by omega) halloc
            have hbig₁ : b₁.size.toNat ≤ 2 ^ 63 := by
              rw [hframe₁.size]
              exact hbig
            obtain ⟨-, -, -, hbuffer₂⟩ := allocCells_spec hbig₁ hok₁ hz3 halloc'
            obtain ⟨hsizes, hroom₂⟩ := allocCells_room hbig₁ hok₁ hz3 (by omega) halloc'
            have hbuffers : dtbRegBuffers b a z n = (b₂, addresses, sizes) := by
              unfold dtbRegBuffers
              rw [halloc]
              dsimp only
              rw [halloc']
            have hzero : ∀ {c : BitVec 32} {b b' : BumpAllocator} {q : Addr}, c ≤ 3 →
                allocCells b c n = (b', q) → (c ≠ 0 → n ≠ 0 → q ≠ 0) → (4 * c = 0 ↔ q = 0) := by
              intro c b b' q hc halloc hq
              constructor
              · intro h
                rw [allocCells_eq_zero b (Or.inl (fourCells_eq_zero hc h))] at halloc
                cases halloc
                rfl
              · intro hq0
                by_contra h
                exact hq (fun h0 => h (by rw [h0]; rfl)) hn0 hq0
            rw [dtbRewritePropertyReg_eq hdata hgroup (fun _ => hassert) fun _ => by
              rw [hbuffers]
              exact ⟨hzero ha3 halloc haddresses, hzero hz3 halloc' hsizes⟩]
            dsimp only
            rw [hbuffers]
            dsimp only
            have hgiven : BumpBuffers b ((regColumns p.value addresses sizes a.toNat z.toNat).map
                fun c => (c.base, c.width * n.toNat)) b₂ :=
              .cons (hbuffer₁ haddresses).1 (.cons (hbuffer₂ hsizes).1 .nil)
            have hmul : 4 * (a.toNat + z.toNat) * n.toNat ≤ p.value.length := by
              rw [hn]
              exact Nat.mul_div_le _ _
            have hrows := dtbRegLoop_eq (BumpHolds.ne_zero (hvalue hnil) hok hnil) ha hz
              (fun h0 => haddresses h0 hn0) (fun h0 => hsizes h0 hn0) hmul
              (valueApart_of_buffers hgiven (BumpHas.of_holds (hvalue hnil))) (m := b₂.mem)
              (r := n.toNat) (Nat.zero_add _).le (by rw [hgiven.mem]; exact (hvalue hnil).bytes)
            rw [Nat.mul_zero] at hrows
            rw [hrows]
            refine EndsAs.of_ok ?_ rfl
            show b.room ≤ b₂.room + _
            omega

/-- **`ranges`** is accepted, with room, exactly if both counts are positive.
Source: `device_tree.c` `dtb_rewrite_property_ranges`
Kind: L -/
theorem ranges_of_room (hok : BumpOk b) (hbig : b.size.toNat ≤ 2 ^ 63) (hcells : cells.Bounded)
    (ha : p.value.length / tripletBytes cells cells ≠ 0 → cells.address ≤ 2)
    (hdata : x.data = .raw len value) (hlen : len.toNat = p.value.length)
    (hvalue : p.value ≠ [] → BumpHolds b value p.value)
    (hroom : 2 * numbersSpace cells.address (p.value.length / tripletBytes cells cells) +
      numbersSpace cells.size (p.value.length / tripletBytes cells cells) ≤ b.room) :
    EndsAs (fun _ r => b.room ≤ r.1.room +
        (2 * numbersSpace cells.address (p.value.length / tripletBytes cells cells) +
          numbersSpace cells.size (p.value.length / tripletBytes cells cells)))
      (p.triplets cells) (dtbRewritePropertyRanges true b x cells.address cells.size) := by
  obtain ⟨ha3, hz⟩ := hcells
  have hz3 : cells.size ≤ 3 := BitVec.le_trans hz (by decide)
  have htriplet : (4 * cells.address + 4 * cells.address + 4 * cells.size).toNat =
      tripletBytes cells cells := tripletSize_toNat ha3 hz
  set a := cells.address with ha'
  set z := cells.size with hz'
  have hn : (len / (4 * a + 4 * a + 4 * z)).toNat = p.value.length / tripletBytes cells cells := by
    rw [BitVec.toNat_udiv, htriplet, hlen]
  unfold FdtProp.triplets
  rw [← ha', ← hz']
  by_cases h0 : a = 0 ∨ z = 0
  · rw [if_pos h0]
    have hfails : ¬ (4 * a > 0 ∧ 4 * z > 0) := by
      rintro ⟨ha0, hz0⟩
      rcases h0 with h0 | h0
      · rw [h0] at ha0
        exact absurd ha0 (by decide)
      · rw [h0] at hz0
        exact absurd hz0 (by decide)
    unfold dtbRewritePropertyRanges
    rw [hdata]
    dsimp only
    rw [if_pos ⟨rfl, hfails⟩]
    rfl
  · rw [if_neg h0]
    obtain ⟨ha0, hz0⟩ := not_or.mp h0
    have hpos : ∀ {c : BitVec 32}, c ≤ 3 → c ≠ 0 → 4 * c > 0 := by
      intro c hc h0
      show (0 : BitVec 32).toNat < (4 * c).toNat
      rw [fourCells_toNat hc]
      have : c.toNat ≠ 0 := fun h => h0 (BitVec.eq_of_toNat_eq h)
      show 0 < 4 * c.toNat
      omega
    have hgroup : 4 * a + 4 * a + 4 * z ≠ 0 := by
      intro h
      have ha0' : a.toNat ≠ 0 := fun h => ha0 (BitVec.eq_of_toNat_eq h)
      rw [h] at htriplet
      change 0 = 4 * (a.toNat + a.toNat + z.toNat) at htriplet
      omega
    rw [← hn] at hroom ⊢
    rw [dtbRewritePropertyRanges_eq hdata (fun _ => ⟨hpos ha3 ha0, hpos hz3 hz0⟩) hgroup]
    set n := len / (4 * a + 4 * a + 4 * z)
    -- the buffers
    cases halloc : allocCells b a n with
    | mk b₁ child =>
      cases halloc' : allocCells b₁ a n with
      | mk b₂ parent =>
        cases halloc'' : allocCells b₂ z n with
        | mk b₃ lengths =>
          obtain ⟨hok₁, hframe₁, -, hbuffer₁⟩ := allocCells_spec hbig hok ha3 halloc
          obtain ⟨hchild, hroom₁⟩ := allocCells_room hbig hok ha3 (by omega) halloc
          have hbig₁ : b₁.size.toNat ≤ 2 ^ 63 := by
            rw [hframe₁.size]
            exact hbig
          obtain ⟨hok₂, hframe₂, -, hbuffer₂⟩ := allocCells_spec hbig₁ hok₁ ha3 halloc'
          obtain ⟨hparent, hroom₂⟩ := allocCells_room hbig₁ hok₁ ha3 (by omega) halloc'
          have hbig₂ : b₂.size.toNat ≤ 2 ^ 63 := by
            rw [hframe₂.size]
            exact hbig₁
          obtain ⟨-, -, -, hbuffer₃⟩ := allocCells_spec hbig₂ hok₂ hz3 halloc''
          obtain ⟨hlengths, hroom₃⟩ := allocCells_room hbig₂ hok₂ hz3 (by omega) halloc''
          have hbuffers : dtbRangesBuffers b a z n = (b₃, child, parent, lengths) := by
            unfold allocCells at halloc halloc' halloc''
            unfold dtbRangesBuffers
            rw [halloc]
            dsimp only
            rw [halloc']
            dsimp only
            rw [halloc'']
          dsimp only
          rw [hbuffers]
          dsimp only
          have hleft : b.room ≤ b₃.room + (2 * numbersSpace a n.toNat + numbersSpace z n.toNat) := by
            omega
          by_cases hn0 : n.toNat = 0
          · rw [hn0] at hleft ⊢
            exact EndsAs.of_ok hleft rfl
          · replace ha := ha (by rw [← hn]; exact hn0)
            have hn0' : n ≠ 0 := fun h => hn0 (by rw [h]; rfl)
            have hnil : p.value ≠ [] := by
              intro hnil
              rw [hn, hnil, List.length_nil, Nat.zero_div] at hn0
              exact hn0 rfl
            have hgiven : BumpBuffers b ((rangesColumns p.value child parent lengths a.toNat
                z.toNat).map fun c => (c.base, c.width * n.toNat)) b₃ :=
              .cons (hbuffer₁ hchild).1 (.cons (hbuffer₂ hparent).1 (.cons (hbuffer₃ hlengths).1 .nil))
            have hmul : 4 * (a.toNat + a.toNat + z.toNat) * n.toNat ≤ p.value.length := by
              rw [hn]
              exact Nat.mul_div_le _ _
            have hrows := dtbRangesLoop_eq (BumpHolds.ne_zero (hvalue hnil) hok hnil) ha0 ha hz0 hz
              (hchild ha0 hn0') (hparent ha0 hn0') (hlengths hz0 hn0') hmul
              (valueApart_of_buffers hgiven (BumpHas.of_holds (hvalue hnil))) (m := b₃.mem)
              (r := n.toNat) (Nat.zero_add _).le (by rw [hgiven.mem]; exact (hvalue hnil).bytes)
            rw [Nat.mul_zero] at hrows
            rw [hrows]
            exact EndsAs.of_ok hleft rfl

/-- **A property is rewritten exactly if its value has a meaning**, where there is room; else the pass
stops as `decode` says.
Source: `device_tree.c` `dtb_recursive_property_rewrite`
Kind: P
Hyps: the property is in the buffer, and its value has the shape that is read -/
theorem rewrite_of_decode (hok : BumpOk b) (hbig : b.size.toNat ≤ 2 ^ 63) (hcells : cells.Bounded)
    (hheld : PropHeld b p x) (hshaped : p.Shaped cells) (hroom : p.space cells ≤ b.room) :
    EndsAs (fun _ r => b.room ≤ r.1.room + p.space cells) (p.decode cells)
      (dtbRewriteProperty true (cellsNode cells) b x) := by
  rw [hheld.rewrite_eq hok]
  have hread := fun hlen => hheld.read_eq (p := p) hok hlen
  obtain ⟨-, htype, len, value, hdata, hlen, hvalue⟩ := hheld
  have hle := hshaped.address_le hcells
  unfold FdtProp.groups at hle
  unfold FdtProp.decode
  unfold FdtProp.space at hroom ⊢
  have hstays : b.room ≤ b.room + 0 := le_refl _
  cases hkind : p.kind with
  | compatible =>
      rw [hkind] at hroom
      exact compatible_of_room hok hbig htype hdata hlen hvalue hroom
  | model =>
      unfold dtbRewriteAs
      rw [hdata]
      exact EndsAs.of_ok hstays rfl
  | phandle =>
      unfold dtbRewriteAs
      dsimp only
      rw [hread (hshaped.word (Or.inl hkind))]
      exact EndsAs.of_ok hstays rfl
  | status =>
      have h0 := hshaped.terminator hkind
      have hnil : p.value ≠ [] := List.ne_nil_of_mem h0
      unfold dtbRewriteAs
      dsimp only
      rw [dtbRewritePropertyStatus_eq htype hdata (BumpHolds.ne_zero (hvalue hnil) hok hnil)
        (cstringAt_takeWhile (hvalue hnil).1 h0) (zero_notMem_takeWhile _)]
      cases statusOf (p.value.takeWhile (· ≠ 0)) with
      | none => exact rfl
      | some y => exact EndsAs.of_ok hstays rfl
  | addressCells =>
      unfold dtbRewriteAs
      dsimp only
      rw [hread (hshaped.word (Or.inr (Or.inl hkind)))]
      dsimp only
      by_cases hword : p.word > 3
      · rw [if_pos hword, if_pos hword]
        exact rfl
      · rw [if_neg hword, if_neg hword]
        exact EndsAs.of_ok hstays rfl
  | sizeCells =>
      unfold dtbRewriteAs
      dsimp only
      rw [hread (hshaped.word (Or.inr (Or.inr hkind)))]
      dsimp only
      by_cases hword : p.word > 2
      · rw [if_pos hword, if_pos hword]
        exact rfl
      · rw [if_neg hword, if_neg hword]
        exact EndsAs.of_ok hstays rfl
  | dmaCoherent => exact EndsAs.of_ok hstays rfl
  | dmaNoncoherent => exact EndsAs.of_ok hstays rfl
  | deviceType =>
      unfold dtbRewriteAs
      rw [hdata]
      exact EndsAs.of_ok hstays rfl
  | reg =>
      rw [hkind] at hroom hle
      have hreg := reg_of_room hok hbig hcells hle hdata hlen hvalue hroom
      exact hreg.map_spec fun _ _ h => h
  | ranges =>
      rw [hkind] at hroom hle
      have hranges := ranges_of_room hok hbig hcells hle hdata hlen hvalue hroom
      exact hranges.map_spec fun _ _ h => h
  | dmaRanges =>
      rw [hkind] at hroom hle
      have hranges := ranges_of_room hok hbig hcells hle hdata hlen hvalue hroom
      exact hranges.map fun _ _ h => h
  | other => exact EndsAs.of_ok hstays rfl

end single

/-! ## Nodes -/

/-- **Nodes with their meaning**: the counts that govern each, and its properties in the order of the
list in memory.
Source: `device_tree.c` `struct dtNode`
Kind: D -/
inductive DecodedForest
  | nil
  | node (name : CStr) (cells : DtCells) (props : List (CStr × FdtValue)) (children rest : DecodedForest)
  deriving DecidableEq

/-- A property with its name.
Source: `device_tree.c` `struct dtProperty`
Kind: D -/
def FdtProp.decodeNamed (cells : DtCells) (p : FdtProp) : Except DtRewriteStop (CStr × FdtValue) :=
  (p.decode cells).map fun v => (p.name, v)

/-- **The meaning of nodes** below nodes with these properties, or the first stop: a node comes before its
subnodes, and the last property of a node first.
Source: `device_tree.c` `dtb_recursive_property_rewrite`
Kind: D -/
def FdtForest.decode : List (List FdtProp) → FdtForest → Except DtRewriteStop DecodedForest
  | _, .nil => .ok .nil
  | above, .node name props children rest => do
      let values ← props.reverse.mapM (FdtProp.decodeNamed (governing above))
      let children ← children.decode (props.reverse :: above)
      (rest.decode above).map (.node name (governing above) values children)

/-- Room for the properties of nodes.
Source: `device_tree.c` `dtb_recursive_property_rewrite`
Kind: D -/
def FdtForest.space : List (List FdtProp) → FdtForest → ℕ
  | _, .nil => 0
  | above, .node _ props children rest =>
      (props.reverse.map (FdtProp.space (governing above))).sum +
        (children.space (props.reverse :: above) + rest.space above)

/-- Every value of the nodes has the shape that its reader needs.
Source: `device_tree.c` `dtb_recursive_property_rewrite`
Kind: D -/
def FdtForest.Shaped : List (List FdtProp) → FdtForest → Prop
  | _, .nil => True
  | above, .node _ props children rest =>
      (∀ p ∈ props.reverse, p.Shaped (governing above)) ∧ children.Shaped (props.reverse :: above) ∧
        rest.Shaped above

instance FdtForest.decidableShaped : (above : List (List FdtProp)) → (f : FdtForest) →
    Decidable (f.Shaped above)
  | _, .nil => isTrue trivial
  | above, .node _ props children rest =>
      have := children.decidableShaped (props.reverse :: above)
      have := rest.decidableShaped above
      inferInstanceAs (Decidable (_ ∧ _ ∧ _))

section nodes

variable {s : DtState} {head : Option ArrayPtr} {above : List (List FdtProp)} {cells : DtCells}

/-- A value that has a meaning gives counts that were checked.
Source: `device_tree.c` `dtb_recursive_property_rewrite`
Kind: L -/
theorem FdtProp.after_bounded {p : FdtProp} {v : FdtValue} {counts : DtCells}
    (h : p.decode cells = .ok v) (hcounts : counts.Bounded) : (counts.after p).Bounded := by
  unfold FdtProp.decode at h
  unfold DtCells.after
  by_cases haddress : p.name.val = ascii "#address-cells"
  · rw [if_pos haddress]
    rw [(FdtProp.kind_eq_iff (k := .addressCells) rfl).mpr haddress] at h
    dsimp only at h
    split_ifs at h with hword
    exact ⟨BitVec.not_lt.mp hword, hcounts.2⟩
  rw [if_neg haddress]
  by_cases hsize : p.name.val = ascii "#size-cells"
  · rw [if_pos hsize]
    rw [(FdtProp.kind_eq_iff (k := .sizeCells) rfl).mpr hsize] at h
    dsimp only at h
    split_ifs at h with hword
    exact ⟨hcounts.1, BitVec.not_lt.mp hword⟩
  · rw [if_neg hsize]
    exact hcounts

/-- Source: `device_tree.c` `dtb_recursive_property_rewrite`. Kind: L -/
theorem foldl_after_bounded {props : List FdtProp} {values : List (CStr × FdtValue)} {counts : DtCells}
    (h : props.mapM (FdtProp.decodeNamed cells) = .ok values) (hcounts : counts.Bounded) :
    (props.foldl DtCells.after counts).Bounded := by
  have hall := mapM_ok_iff.mp h
  clear h
  induction hall generalizing counts with
  | nil => exact hcounts
  | cons hp _ ih =>
      obtain ⟨v, hdecode, rfl⟩ := except_map_ok hp
      exact ih (FdtProp.after_bounded hdecode hcounts)

/-- The meaning of nodes is that of the first, of its subnodes and of the rest.
Source: `device_tree.c` `dtb_recursive_property_rewrite`
Kind: L -/
theorem FdtForest.decode_node_ok {name : CStr} {props : List FdtProp} {children rest : FdtForest}
    {d : DecodedForest} : (FdtForest.node name props children rest).decode above = .ok d ↔
      ∃ values decoded decodedRest,
        props.reverse.mapM (FdtProp.decodeNamed (governing above)) = .ok values ∧
        children.decode (props.reverse :: above) = .ok decoded ∧ rest.decode above = .ok decodedRest ∧
        .node name (governing above) values decoded decodedRest = d := by
  rw [FdtForest.decode]
  cases props.reverse.mapM (FdtProp.decodeNamed (governing above)) with
  | error stop =>
      constructor
      · intro h
        cases h
      · rintro ⟨values, decoded, decodedRest, h, -⟩
        cases h
  | ok values =>
      show (children.decode (props.reverse :: above) >>= fun children =>
        (rest.decode above).map (.node name (governing above) values children)) = Except.ok d ↔ _
      cases children.decode (props.reverse :: above) with
      | error stop =>
          constructor
          · intro h
            cases h
          · rintro ⟨values', decoded, decodedRest, -, h, -⟩
            cases h
      | ok decoded =>
          constructor
          · intro h
            obtain ⟨decodedRest, hrest, rfl⟩ := except_map_ok h
            exact ⟨values, decoded, decodedRest, rfl, rfl, hrest, rfl⟩
          · rintro ⟨values', decoded', decodedRest, hvalues, hdecoded, hrest, rfl⟩
            cases hvalues
            cases hdecoded
            show (rest.decode above).map _ = Except.ok _
            rw [hrest]
            rfl

/-- What is left of the properties of a node before a round, with room for `r` bytes more.
Source: none: infrastructure
Kind: D -/
structure PropsLeft (cells : DtCells) (r : ℕ) (props : List (ArrayPtr × FdtProp)) (s : DtState) :
    Prop where
  held : ∀ x ∈ props, PropHeld s.bump x.2 (s.properties.cells x.1)
  nodup : (props.map Prod.fst).Nodup
  bump : BumpOk s.bump
  size : s.bump.size.toNat ≤ 2 ^ 63
  shaped : ∀ x ∈ props, x.2.Shaped cells
  room : r + (props.map fun x => x.2.space cells).sum ≤ s.bump.room

/-- **The loop over the properties of a node**.
Source: `device_tree.c` `dtb_recursive_property_rewrite`
Kind: L -/
theorem runProps_of_decode (hcells : cells.Bounded) {r : ℕ} {props : List (ArrayPtr × FdtProp)}
    (h : PropsLeft cells r props s) :
    EndsAs (fun _ s' => r ≤ s'.bump.room) ((props.map Prod.snd).mapM (FdtProp.decodeNamed cells))
      ((props.map fun x => .rewrite cells x.1).foldlM (DtPassStep.run true) s) := by
  rw [List.mapM_map, List.foldlM_map]
  refine (EndsAs.foldlM (I := PropsLeft cells r) (fun x props s h => ?_) h).mono fun _ s' _ _ hs' => ?_
  · obtain ⟨hheld, hnodup, hok, hbig, hshaped, hroom⟩ := h
    obtain ⟨hx, hheld'⟩ := List.forall_mem_cons.mp hheld
    obtain ⟨hq, htail⟩ := List.nodup_cons.mp hnodup
    obtain ⟨hshape, hshaped'⟩ := List.forall_mem_cons.mp hshaped
    rw [List.map_cons, List.sum_cons] at hroom
    have hone := rewrite_of_decode hok hbig hcells hx hshape (by omega)
    have hrun : DtPassStep.run true s (.rewrite cells x.1) =
        (dtbRewriteProperty true (cellsNode cells) s.bump (s.properties.cells x.1)).map
          fun y => s.setProperty x.1 y.1 y.2.1 y.2.2 := by
      simp only [DtPassStep.run]
      have hround : dtbRewriteRound true (cellsNode cells) s.bump (s.properties.cells x.1) =
          dtbRewriteProperty true (cellsNode cells) s.bump (s.properties.cells x.1) :=
        dtbRewriteRound_eq hok hbig (show (cellsNode cells).cells.Bounded from hcells) hx
          (hshape.address_le hcells)
      rw [hround]
      cases dtbRewriteProperty true (cellsNode cells) s.bump (s.properties.cells x.1) <;> rfl
    rw [hrun]
    refine EndsAs.map (hone.mono fun v y _ hcode hleft => ?_) fun _ _ h => h
    obtain ⟨b, t, d⟩ := y
    obtain ⟨hok', hframe⟩ := dtbRewriteProperty_frame hok hbig
      (show (cellsNode cells).cells.Bounded from hcells) hx hcode
    refine ⟨fun y hy => ?_, htail, hok', ?_, hshaped', ?_⟩
    · have hne : y.1 ≠ x.1 := fun heq => hq (List.mem_map.mpr ⟨y, hy, heq⟩)
      unfold DtState.setProperty
      rw [KArray.modify_cells_of_ne _ _ hne]
      exact (hheld' y hy).frame hframe
    · show b.size.toNat ≤ 2 ^ 63
      rw [hframe.size]
      exact hbig
    · show r + _ ≤ b.room
      have hleft' : s.bump.room ≤ b.room + x.2.space cells := hleft
      omega
  · have hroom := hs'.room
    rw [List.map_nil, List.sum_nil] at hroom
    exact hroom

/-- **The steps of nodes end as their meaning does**: by induction on the nodes, as each step leaves what
is behind it alone.
Source: `device_tree.c` `dtb_recursive_property_rewrite`
Kind: P -/
theorem runSteps_of_decode {f : PlacedForest} (h : PassReady s above head f)
    (hbounded : (governing above).Bounded) (hshaped : f.forest.Shaped above) {r : ℕ}
    (hroom : r + f.forest.space above ≤ s.bump.room) :
    EndsAs (fun _ s' => r ≤ s'.bump.room) (f.forest.decode above)
      ((f.steps above).foldlM (DtPassStep.run true) s) := by
  induction f generalizing s head above r with
  | nil => exact EndsAs.of_ok hroom rfl
  | node ptr name props children rest ihChildren ihRest =>
      obtain ⟨rfl, hprops, hchildren, hrest⟩ := h.places
      obtain ⟨-, hnodes⟩ := List.nodup_cons.mp h.nodes
      obtain ⟨hnodesChildren, hnodesRest, -⟩ := List.nodup_append.mp hnodes
      obtain ⟨hnodupProps, hnodup, hapart⟩ := List.nodup_append.mp h.properties
      obtain ⟨hnodupChildren, hnodupRest, hapart'⟩ := List.nodup_append.mp hnodup
      have hfits := h.fits
      rw [PlacedForest.properties, List.length_append, List.length_append, List.length_map] at hfits
      have hwords := h.words
      rw [PlacedForest.scoped, List.forall_mem_cons, List.forall_mem_append] at hwords
      rw [PlacedForest.forest, FdtForest.Shaped, List.reverse_reverse] at hshaped
      rw [PlacedForest.forest, FdtForest.space, List.reverse_reverse] at hroom
      obtain ⟨hshapedProps, hshapedChildren, hshapedRest⟩ := hshaped
      -- the counts of the node
      set s₀ := s.setCells ptr (governing above) with hs₀
      have henter : DtPassStep.run true s (.enter ptr (governing above)) = .ok s₀ := rfl
      have hframe₀ : PassFrame s s₀ [ptr] [] :=
        DtPassStep.run_frame (show (DtPassStep.enter ptr (governing above)).Ready s from trivial)
          h.bump h.size henter
      have hready₀ : PassReady s₀ (props.map Prod.snd :: above) (s.nodes.cells ptr).children children :=
        PassReady.frame ⟨hchildren, hnodesChildren, hnodupChildren, h.bump, h.size, hwords.2.1, by omega⟩
          hframe₀ fun _ _ => List.not_mem_nil
      have hready₀' : PassReady s₀ above (s.nodes.cells ptr).sibling rest :=
        PassReady.frame ⟨hrest, hnodesRest, hnodupRest, h.bump, h.size, hwords.2.2, by omega⟩
          hframe₀ fun _ _ => List.not_mem_nil
      have hheld : ∀ x ∈ props, PropHeld s₀.bump x.2 (s₀.properties.cells x.1) := hprops.held
      rw [PlacedForest.forest, FdtForest.decode, List.reverse_reverse, PlacedForest.steps_node,
        List.cons_append, List.foldlM_cons]
      show EndsAs _ _ (List.foldlM (DtPassStep.run true) s₀ _)
      rw [List.foldlM_append]
      -- its properties
      rw [List.map_map] at hroom
      refine (runProps_of_decode hbounded (r := r + (children.forest.space (props.map Prod.snd :: above) +
        rest.forest.space above)) ⟨hheld, hnodupProps, h.bump, h.size, fun x hx => hshapedProps x.2
          (List.mem_map_of_mem hx), ?_⟩).bind fun values s₁ hvalues hrun hleft => ?_
      · refine le_trans (le_of_eq ?_) hroom
        have hsum : props.map (fun x => x.2.space (governing above)) =
            props.map (FdtProp.space (governing above) ∘ Prod.snd) := rfl
        rw [hsum]
        omega
      have hgoverns : (governing (props.map Prod.snd :: above)).Bounded := by
        rw [← foldl_after_governing]
        exact foldl_after_bounded hvalues hbounded
      obtain ⟨hnone, hsome⟩ := filterMap_rewrites (governing above) props
      have hsteps₀ : ∀ step ∈ props.map fun x => DtPassStep.rewrite (governing above) x.1,
          step.Ready s₀ := by
        intro step hstep
        obtain ⟨x, hx, rfl⟩ := List.mem_map.mp hstep
        exact ⟨hbounded, x.2, hheld x hx⟩
      have hframe₁ : PassFrame s₀ s₁ [] (props.map Prod.fst) := by
        have hframe := runSteps_frame hsteps₀ (by rw [hsome]; exact hnodupProps) h.bump h.size hrun
        rw [hnone, hsome] at hframe
        exact hframe
      -- its subnodes
      have hready₁ := hready₀.frame hframe₁ fun q hq hqs =>
        hapart q hqs q (List.mem_append_left _ hq) rfl
      have hready₁' := hready₀'.frame hframe₁ fun q hq hqs =>
        hapart q hqs q (List.mem_append_right _ hq) rfl
      rw [List.foldlM_append]
      refine (ihChildren hready₁ hgoverns hshapedChildren (r := r + rest.forest.space above)
        (by omega)).bind fun decoded s₂ _ hrunChildren hleftChildren => ?_
      have hchecked := (rewriteChildren_eq true hready₁ hgoverns (Nat.lt_succ_self _)).2 s₂ hrunChildren
      obtain ⟨htouched, htouched'⟩ := children.filterMap_steps (props.map Prod.snd :: above)
      have hframe₂ : PassFrame s₁ s₂ children.nodes children.properties := by
        have hframe := runSteps_frame (hready₁.steps_ready hchecked) (by rw [htouched']; exact hnodupChildren)
          hready₁.bump hready₁.size hrunChildren
        rw [htouched, htouched'] at hframe
        exact hframe
      -- and the nodes behind it
      have hready₂ := hready₁'.frame hframe₂ fun q hq hqs => hapart' q hqs q hq rfl
      exact (ihRest hready₂ hbounded hshapedRest hleftChildren).map_spec fun _ _ h => h

/-- **The pass ends as the meaning of the tree does**: well, if every value has a meaning, and else with
the stop of the first that has none.
Source: `device_tree.c` `dt_initialize`, `dtb_recursive_property_rewrite`
Kind: P -/
theorem dtbRewrite_of_decode {root : ArrayPtr} {f : PlacedForest} (h : DtPlaced s root f)
    (hshaped : f.forest.Shaped []) (hroom : f.forest.space [] ≤ s.bump.room) :
    EndsAs (fun _ _ => True) (f.forest.decode []) (dtbRewrite true s root) := by
  rw [(dtbRewrite_eq true h).1]
  exact (runSteps_of_decode h.toPassReady ⟨by decide, by decide⟩ hshaped (r := 0)
    (by omega)).mono fun _ _ _ _ _ => trivial

end nodes

end Octiron.Kernel
