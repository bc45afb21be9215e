import Octiron.Kernel.PageRuns
import Octiron.Kernel.Translate

/-!
# Tables with superpages

`sv39_unmap` and `sv39_virt_to_phys` stop at a leaf of any level. `sv39_map_small_page` asks whether
an entry is valid and never whether it is a leaf: under a mega- or giga-page it goes on, with the
memory of the superpage as its next table.

* `Sv39Table` — well-formed tables, whatever the levels of their leaves.
* `sv39MapTable` — the table that `sv39_map_small_page` reads at a level.
* `Sv39Agrees` — the three functions agree on whether `va` is mapped; a map that finds it mapped
  writes nothing, and does not read its entries in the memory of a superpage.
* **Main result** (`sv39Agrees_iff`): for every well-formed table and every virtual page they agree
  exactly when the page is unmapped, or is mapped by a level-0 leaf and the physical address passes
  the alignment check.
-/

namespace Octiron.Kernel

open Octiron.Found
open Octiron.Found.Mem
open Octiron.Kzadhbat

variable {σ : Type}

/-! ## Well-formed tables -/

/-- A valid entry of a table at `level`: no reserved bit; at level 0 a leaf; and as a leaf of a
higher level with a PPN that is aligned to it.
Source: none: the Sv39 scheme
Kind: D -/
structure Sv39Entry (level : ℕ) (pte : BitVec 64) : Prop where
  reserved : ∀ i, 54 ≤ i → pte.getLsbD i = false
  leaf : level = 0 → sv39PteLeaf pte = true
  aligned : sv39PteLeaf pte = true → sv39PtePpn pte &&& lowMask 64 (9 * level) = 0

/-- **A well-formed table**: every valid entry of every table in use is well-formed. Nothing is said
about other memory, which the leaves may map.
Source: none: the Sv39 scheme
Kind: D -/
structure Sv39Table (m : Mem) (root : Addr) : Prop where
  root_ne : root ≠ 0
  root_aligned : PageAligned root
  entry : ∀ {level t i}, TableAt m root level t → i.toNat < 512 →
    sv39PteValid (tableEntry m t i) = true → Sv39Entry level (tableEntry m t i)

section walks

variable {m m' : Mem} {root : Addr}

/-- Source: none: infrastructure. Kind: L -/
theorem pageAligned_sv39PtePpnToPaddr (pte : BitVec 64) : PageAligned (sv39PtePpnToPaddr pte) := by
  rw [PageAligned, and_lowMask_eq_zero_iff]
  intro i hi
  rw [getLsbD_sv39PtePpnToPaddr, decide_eq_false (by omega), Bool.and_false]

/-- Source: none: infrastructure. Kind: L -/
theorem TableAt.aligned (hroot : PageAligned root) {level : ℕ} {t : Addr}
    (h : TableAt m root level t) : PageAligned t := by
  cases h with
  | root => exact hroot
  | next _ _ _ _ => exact pageAligned_sv39PtePpnToPaddr _

/-- Tables in use stay in use while their valid entries stay.
Source: none: infrastructure
Kind: L -/
theorem TableAt.mono (hsame : ∀ {level t i}, TableAt m root level t → i.toNat < 512 →
      sv39PteValid (tableEntry m t i) = true → tableEntry m' t i = tableEntry m t i)
    {level : ℕ} {t : Addr} (h : TableAt m root level t) : TableAt m' root level t := by
  induction h with
  | root => exact .root
  | next ht hi hvalid hleaf ih =>
      have heq := hsame ht hi hvalid
      have hnext := ih.next hi (by rw [heq, hvalid]) (by rw [heq, hleaf])
      rwa [heq] at hnext

/-- Without reserved bits the address is found with shifts alone.
Source: `paging.c` `sv39_map_small_page` (`(l1[vpn[1]] >> 10) << 12`)
Kind: L -/
theorem Sv39Entry.shift {level : ℕ} {pte : BitVec 64} (h : Sv39Entry level pte) :
    (pte >>> 10) <<< 12 = sv39PtePpnToPaddr pte := by
  apply BitVec.eq_of_getLsbD_eq
  intro i hi
  rw [getLsbD_sv39PtePpnToPaddr, BitVec.getLsbD_shiftLeft, BitVec.getLsbD_ushiftRight]
  by_cases h12 : i < 12
  · simp [h12]
  · have hidx : 10 + (i - 12) = i - 2 := by omega
    by_cases h56 : i < 56
    · simp [hidx, hi, h12, h56, show 12 ≤ i by omega]
    · simp [hidx, h56, h.reserved (i - 2) (by omega)]

/-- **The three ends of one step of the walk**: an invalid entry, a leaf, or a further table.
Source: none: infrastructure
Kind: L -/
theorem sv39Walk_succ (m : Mem) (va : Addr) (level : ℕ) (t : Addr) :
    (sv39PteValid (tableEntry m t (vpn va (level + 1))) = false ∧
      sv39Walk m va (level + 1) t = none) ∨
    (sv39PteValid (tableEntry m t (vpn va (level + 1))) = true ∧
      sv39PteLeaf (tableEntry m t (vpn va (level + 1))) = true ∧
      sv39Walk m va (level + 1) t = some (level + 1, tableEntry m t (vpn va (level + 1)))) ∨
    (sv39PteValid (tableEntry m t (vpn va (level + 1))) = true ∧
      sv39PteLeaf (tableEntry m t (vpn va (level + 1))) = false ∧
      sv39Walk m va (level + 1) t =
        sv39Walk m va level (sv39PtePpnToPaddr (tableEntry m t (vpn va (level + 1))))) := by
  unfold tableEntry
  rw [sv39Walk]
  rcases hv : sv39PteValid (load64 m (slot t (vpn va (level + 1)))) with _ | _
  · exact Or.inl ⟨rfl, by simp⟩
  · rcases hl : sv39PteLeaf (load64 m (slot t (vpn va (level + 1)))) with _ | _
    · exact Or.inr (Or.inr ⟨rfl, rfl, by simp⟩)
    · exact Or.inr (Or.inl ⟨rfl, rfl, by simp⟩)

/-- Source: none: infrastructure. Kind: L -/
theorem sv39Walk_zero (m : Mem) (va t : Addr) :
    sv39Walk m va 0 t = if sv39PteValid (tableEntry m t (vpn va 0)) then
      some (0, tableEntry m t (vpn va 0)) else none := by
  rw [sv39Walk]
  rfl

/-- Walks of a well-formed table end at well-formed leaves.
Source: none: infrastructure
Kind: L -/
theorem Sv39Table.walk_leaf (h : Sv39Table m root) {va : Addr} {l : ℕ} {pte : BitVec 64} :
    ∀ {level : ℕ} {t : Addr}, level ≤ 2 → TableAt m root level t →
      sv39Walk m va level t = some (l, pte) → Sv39Entry l pte ∧ sv39PteLeaf pte = true
  | 0, t, hlevel, ht, hw => by
      rw [sv39Walk_zero] at hw
      by_cases hv : sv39PteValid (tableEntry m t (vpn va 0)) = true
      · have hentry := h.entry ht (vpn_lt va 0 hlevel) hv
        rw [if_pos hv] at hw
        cases hw
        exact ⟨hentry, hentry.leaf rfl⟩
      · rw [if_neg hv] at hw
        cases hw
  | level + 1, t, hlevel, ht, hw => by
      have hi := vpn_lt va (level + 1) hlevel
      rcases sv39Walk_succ m va level t with ⟨-, heq⟩ | ⟨hv, hl, heq⟩ | ⟨hv, hl, heq⟩
      · rw [heq] at hw
        cases hw
      · rw [heq] at hw
        cases hw
        exact ⟨h.entry ht hi hv, hl⟩
      · rw [heq] at hw
        exact h.walk_leaf (by omega) (ht.next hi hv hl) hw

/-- `sv39_virt_to_phys` returns, and finds an address exactly where the walk ends at a leaf.
Source: `paging.c` `sv39_virt_to_phys`
Kind: L -/
theorem Sv39Table.virtToPhys_isSome_iff (h : Sv39Table m root) (va : Addr) :
    (∃ pa, sv39VirtToPhys m root va = some (some pa)) ↔ sv39Walk m va 2 root ≠ none := by
  unfold sv39VirtToPhys
  rcases hw : sv39Walk m va 2 root with _ | ⟨level, pte⟩
  · rw [sv39VirtToPhysLoop_of_none hw]
    simp
  · rw [sv39VirtToPhysLoop_of_some (h.walk_leaf le_rfl .root hw).2 hw]
    simp

/-- `sv39_unmap` succeeds exactly where the walk ends at a leaf.
Source: `paging.c` `sv39_unmap`
Kind: L -/
theorem sv39Unmap_isOk_iff (w : World σ) (hroot : root ≠ 0) {va : Addr} (hva : PageAligned va) :
    (∃ pa, (sv39Unmap w root va).2 = .ok pa) ↔ sv39Walk w.mem va 2 root ≠ none := by
  have halign : (!isAligned va (sv39PageSizes 0)) = false := by
    rw [(isAligned_page_iff va).mpr hva]
    rfl
  unfold sv39Unmap
  simp only [hroot, halign, Bool.false_eq_true, if_false]
  rcases sv39Walk_succ w.mem va 1 root with ⟨hv, hw⟩ | ⟨hv, hl, hw⟩ | ⟨hv, hl, hw⟩
  · simp only [tableEntry, Nat.reduceAdd] at hv
    rw [hw, hv]
    simp
  · simp only [tableEntry, Nat.reduceAdd] at hv hl
    rw [hw, hv, hl]
    simp
  simp only [tableEntry, Nat.reduceAdd] at hv hl hw
  rw [hw, hv, hl]
  generalize sv39PtePpnToPaddr (load64 w.mem (slot root (vpn va 2))) = t₁
  rcases sv39Walk_succ w.mem va 0 t₁ with ⟨hv₁, hw₁⟩ | ⟨hv₁, hl₁, hw₁⟩ | ⟨hv₁, hl₁, hw₁⟩
  · simp only [tableEntry, Nat.reduceAdd] at hv₁
    rw [hw₁, hv₁]
    simp
  · simp only [tableEntry, Nat.reduceAdd] at hv₁ hl₁
    rw [hw₁, hv₁, hl₁]
    simp
  simp only [tableEntry, Nat.reduceAdd] at hv₁ hl₁ hw₁
  rw [hw₁, hv₁, hl₁, sv39Walk_zero, tableEntry]
  generalize sv39PtePpnToPaddr (load64 w.mem (slot t₁ (vpn va 1))) = t₀
  rcases hv₀ : sv39PteValid (load64 w.mem (slot t₀ (vpn va 0)))
  · simp
  · simp

end walks

/-! ## Mapping in a well-formed table -/

/-- The table that `sv39_map_small_page` reads its entry for `va` from, at each level, when the
entries above it are valid.
Source: `paging.c` `sv39_map_small_page` (`l2`, `l1`, `l0`)
Kind: D -/
def sv39MapTable (m : Mem) (root va : Addr) : ℕ → Addr
  | 0 => (load64 m (slot (sv39PtePpnToPaddr (load64 m (slot root (vpn va 2)))) (vpn va 1)) >>> 10)
      <<< 12
  | 1 => sv39PtePpnToPaddr (load64 m (slot root (vpn va 2)))
  | _ => root

section map

variable {pmmAlloc : PmmAlloc σ} {w : World σ} {root va pa : Addr} {flags : BitVec 64}

/-- `sv39SetupTable` where the entry is valid, leaf or not.
Source: `paging.c` `sv39_map_small_page`
Kind: L -/
theorem sv39SetupTable_of_valid {t : Addr} {i : BitVec 64}
    (hv : sv39PteValid (tableEntry w.mem t i) = true) (err : Errval) :
    sv39SetupTable pmmAlloc err w (slot t i) = (w, .ok err) := if_pos hv

/-- `sv39SetupTable` where the entry is not valid: the allocation fails, or a table of zeros is
linked.
Source: `paging.c` `sv39_map_small_page`
Kind: L -/
theorem sv39SetupTable_fresh (hroot : PageAligned root) {level : ℕ} {t : Addr} {i : BitVec 64}
    (ht : TableAt w.mem root (level + 1) t) (hi : i.toNat < 512)
    (hinv : sv39PteValid (tableEntry w.mem t i) = false) (hok : PmmAllocOk pmmAlloc root w)
    (err : Errval) :
    (∃ w' e, sv39SetupTable pmmAlloc err w (slot t i) =
      (w', .error (errPush e .pagingSetupTable))) ∨
    ∃ w' p, sv39SetupTable pmmAlloc err w (slot t i) = (w', .ok errNew) ∧ Sv39Page p ∧
      tableEntry w'.mem t i = sv39TableEntry p ∧
      (∀ k : BitVec 64, k.toNat < 512 → tableEntry w'.mem p k = 0) ∧
      TableAt w'.mem root level p := by
  have halign : PageAligned t := ht.aligned hroot
  unfold sv39SetupTable
  rw [tableEntry] at hinv
  simp only [hinv, Bool.false_eq_true, if_false]
  rcases herr : errIsFail (pmmAlloc w.pmm w.mem sizeofSv39PageTable).err with _ | _
  · right
    obtain ⟨hnew, hpage, hzero, hapart⟩ := hok.page herr
    simp only [Bool.false_eq_true, if_false, hnew]
    have hne : (pmmAlloc w.pmm w.mem sizeofSv39PageTable).ret ≠ t := (hapart _ _ ht).ne
    have hlink : tableEntry (store64 (pmmAlloc w.pmm w.mem sizeofSv39PageTable).mem (slot t i)
        (sv39TableEntry (pmmAlloc w.pmm w.mem sizeofSv39PageTable).ret)) t i =
        sv39TableEntry (pmmAlloc w.pmm w.mem sizeofSv39PageTable).ret :=
      load64_store64_same _ _ _
    refine ⟨_, (pmmAlloc w.pmm w.mem sizeofSv39PageTable).ret, rfl, hpage, hlink, ?_, ?_⟩
    · intro k hk
      exact (load64_store64_slot _ halign hpage.aligned hi hk (Or.inl hne.symm)).trans
        (hzero.load_slot hk)
    · -- the valid entries of the tables in use are not touched
      have hmono : TableAt (store64 (pmmAlloc w.pmm w.mem sizeofSv39PageTable).mem (slot t i)
          (sv39TableEntry (pmmAlloc w.pmm w.mem sizeofSv39PageTable).ret)) root (level + 1) t := by
        refine ht.mono ?_
        intro l t' k ht' hk hvalid
        have hkeep : tableEntry (pmmAlloc w.pmm w.mem sizeofSv39PageTable).mem t' k =
            tableEntry w.mem t' k := (hok.tables _ _ ht').load_slot hk
        refine (load64_store64_slot _ halign (ht'.aligned hroot) hi hk ?_).trans hkeep
        by_contra hsame
        obtain ⟨rfl, rfl⟩ : t = t' ∧ i = k := by
          constructor
          · exact of_not_not fun hne' => hsame (Or.inl hne')
          · exact of_not_not fun hne' => hsame (Or.inr hne')
        rw [tableEntry, hinv] at hvalid
        cases hvalid
      have hnext := hmono.next hi (by rw [hlink, sv39PteValid_tableEntry])
        (by rw [hlink, sv39PteLeaf_tableEntry hpage])
      rwa [hlink, sv39PtePpnToPaddr_tableEntry hpage] at hnext
  · left
    exact ⟨_, _, rfl⟩

/-- Source: none: infrastructure. Kind: L -/
theorem sv39Map_eq_smallPage (hroot : root ≠ 0) :
    sv39Map pmmAlloc w root va pa flags .page = sv39MapSmallPage pmmAlloc w root va pa flags := by
  rw [sv39Map, if_neg hroot]

/-- Source: none: infrastructure. Kind: L -/
theorem sv39Map_checks (hva : PageAligned va) (hpa : PageAligned pa) :
    (!isAligned va (sv39PageSizes 0) || !isAligned pa (sv39PageSizes 0)) = false := by
  rw [(isAligned_page_iff va).mpr hva, (isAligned_page_iff pa).mpr hpa]
  rfl

/-- Source: `paging.c` `sv39_map_small_page`. Kind: L -/
theorem sv39Map_of_setup_error (hroot : root ≠ 0) (hva : PageAligned va) (hpa : PageAligned pa)
    {w₁ : World σ} {e : Errval}
    (h₁ : sv39SetupTable pmmAlloc errNew w (slot root (vpn va 2)) = (w₁, .error e)) :
    sv39Map pmmAlloc w root va pa flags .page = (w₁, e) := by
  rw [sv39Map_eq_smallPage hroot, sv39MapSmallPage]
  simp only [sv39Map_checks hva hpa, Bool.false_eq_true, if_false, h₁]

/-- Source: `paging.c` `sv39_map_small_page`. Kind: L -/
theorem sv39Map_of_setup_ok_error (hroot : root ≠ 0) (hva : PageAligned va) (hpa : PageAligned pa)
    {w₁ w₂ : World σ} {e e' : Errval}
    (h₁ : sv39SetupTable pmmAlloc errNew w (slot root (vpn va 2)) = (w₁, .ok e))
    (h₂ : sv39SetupTable pmmAlloc e w₁ (slot (sv39MapTable w₁.mem root va 1) (vpn va 1)) =
      (w₂, .error e')) :
    sv39Map pmmAlloc w root va pa flags .page = (w₂, e') := by
  rw [sv39Map_eq_smallPage hroot, sv39MapSmallPage]
  rw [sv39MapTable] at h₂
  simp only [sv39Map_checks hva hpa, Bool.false_eq_true, if_false, h₁, h₂]

/-- **Both tables there**: the map reads its last entry from `sv39MapTable`.
Source: `paging.c` `sv39_map_small_page`
Kind: L -/
theorem sv39Map_of_setup_ok_ok (hroot : root ≠ 0) (hva : PageAligned va) (hpa : PageAligned pa)
    {w₁ w₂ : World σ} {e e' : Errval}
    (h₁ : sv39SetupTable pmmAlloc errNew w (slot root (vpn va 2)) = (w₁, .ok e))
    (h₂ : sv39SetupTable pmmAlloc e w₁ (slot (sv39MapTable w₁.mem root va 1) (vpn va 1)) =
      (w₂, .ok e'))
    {l0 : Addr} (hl0 : (tableEntry w₂.mem (sv39MapTable w₁.mem root va 1) (vpn va 1) >>> 10) <<< 12 =
      l0) :
    sv39Map pmmAlloc w root va pa flags .page =
      if sv39PteValid (tableEntry w₂.mem l0 (vpn va 0)) then
        (w₂, errPush e' .pagingMappingExists)
      else (⟨store64 w₂.mem (slot l0 (vpn va 0)) (sv39LeafEntry pa flags), w₂.pmm⟩,
        GrouperError.ok.errval) := by
  rw [sv39Map_eq_smallPage hroot, sv39MapSmallPage]
  rw [sv39MapTable] at h₂ hl0
  rw [tableEntry] at hl0
  simp only [sv39Map_checks hva hpa, Bool.false_eq_true, if_false, h₁, h₂, hl0]
  rfl

/-- A map that has to set up the level-0 table does not find a mapping there.
Source: `paging.c` `sv39_map_small_page`
Kind: L -/
theorem sv39Map_ne_exists_of_l1 (hroot : root ≠ 0) (hra : PageAligned root) (hva : PageAligned va)
    (hpa : PageAligned pa) {w₁ : World σ} {t₁ : Addr}
    (h₁ : sv39SetupTable pmmAlloc errNew w (slot root (vpn va 2)) = (w₁, .ok errNew))
    (ht₁ : sv39MapTable w₁.mem root va 1 = t₁) (htable : TableAt w₁.mem root 1 t₁)
    (hinv : sv39PteValid (tableEntry w₁.mem t₁ (vpn va 1)) = false)
    (hok : PmmAllocOk pmmAlloc root w₁) :
    (sv39Map pmmAlloc w root va pa flags .page).2 ≠ GrouperError.pagingMappingExists.errval := by
  have hexists : GrouperError.ok.errval ≠ GrouperError.pagingMappingExists.errval := by decide
  rcases sv39SetupTable_fresh hra htable (vpn_lt va 1 (by norm_num)) hinv hok errNew with
    ⟨w₂, e, h₂⟩ | ⟨w₂, p, h₂, hp, hlink, hzero, -⟩
  · rw [sv39Map_of_setup_ok_error hroot hva hpa h₁ (by rw [ht₁, h₂])]
    exact (errPush_setupTable_ne e).2
  · have hl0 : (tableEntry w₂.mem (sv39MapTable w₁.mem root va 1) (vpn va 1) >>> 10) <<< 12 = p := by
      rw [ht₁, hlink, shift_tableEntry hp]
    have hinv₀ : sv39PteValid (tableEntry w₂.mem p (vpn va 0)) = false := by
      rw [hzero _ (vpn_lt va 0 (by norm_num))]
      decide
    rw [sv39Map_of_setup_ok_ok hroot hva hpa h₁ (by rw [ht₁, h₂]) hl0, hinv₀]
    exact hexists

/-- **An unmapped page** is not reported as mapped.
Source: `paging.c` `sv39_map_small_page`
Kind: L -/
theorem sv39Map_of_walk_none (h : Sv39Table w.mem root) (hva : PageAligned va)
    (hpa : PageAligned pa) (hok : PmmCallsOk pmmAlloc root w va)
    (hw : sv39Walk w.mem va 2 root = none) :
    (sv39Map pmmAlloc w root va pa flags .page).2 ≠ GrouperError.pagingMappingExists.errval := by
  have hexists : GrouperError.ok.errval ≠ GrouperError.pagingMappingExists.errval := by decide
  have hi₂ := vpn_lt va 2 le_rfl
  rcases sv39Walk_succ w.mem va 1 root with ⟨hv, -⟩ | ⟨-, -, heq⟩ | ⟨hv, hl, heq⟩
  · -- no level-1 table: the new one is zero
    rcases sv39SetupTable_fresh h.root_aligned .root hi₂ hv hok.1 errNew with
      ⟨w₁, e, h₁⟩ | ⟨w₁, p, h₁, hp, hlink, hzero, htable⟩
    · rw [sv39Map_of_setup_error h.root_ne hva hpa h₁]
      exact (errPush_setupTable_ne e).2
    · have ht₁ : sv39MapTable w₁.mem root va 1 = p := by
        have : load64 w₁.mem (slot root (vpn va 2)) = sv39TableEntry p := hlink
        rw [sv39MapTable, this, sv39PtePpnToPaddr_tableEntry hp]
      have hok₁ : PmmAllocOk pmmAlloc root w₁ := by
        have hafter : afterL1 pmmAlloc w root va = w₁ := by rw [afterL1, h₁]
        exact hafter ▸ hok.2
      refine sv39Map_ne_exists_of_l1 h.root_ne h.root_aligned hva hpa h₁ ht₁ htable ?_ hok₁
      rw [hzero _ (vpn_lt va 1 (by norm_num))]
      decide
  · rw [heq] at hw
    cases hw
  · have h₁ : sv39SetupTable pmmAlloc errNew w (slot root (vpn va 2)) = (w, .ok errNew) :=
      sv39SetupTable_of_valid hv errNew
    have htable : TableAt w.mem root 1 (sv39MapTable w.mem root va 1) := .next .root hi₂ hv hl
    rw [heq] at hw
    rcases sv39Walk_succ w.mem va 0 (sv39MapTable w.mem root va 1) with
      ⟨hv₁, -⟩ | ⟨-, -, heq₁⟩ | ⟨hv₁, hl₁, heq₁⟩
    · exact sv39Map_ne_exists_of_l1 h.root_ne h.root_aligned hva hpa h₁ rfl htable hv₁ hok.1
    · exact absurd (heq₁.symm.trans hw) (by simp)
    · have hw₀ := heq₁.symm.trans hw
      rw [sv39Walk_zero] at hw₀
      have hshift := (h.entry htable (vpn_lt va 1 (by norm_num)) hv₁).shift
      rw [sv39Map_of_setup_ok_ok h.root_ne hva hpa h₁ (sv39SetupTable_of_valid hv₁ errNew) hshift]
      by_cases hv₀ : sv39PteValid (tableEntry w.mem (sv39PtePpnToPaddr (tableEntry w.mem
          (sv39MapTable w.mem root va 1) (vpn va 1))) (vpn va 0)) = true
      · rw [if_pos hv₀] at hw₀
        cases hw₀
      · rw [if_neg hv₀]
        exact hexists

/-- **A page with a level-0 leaf** is reported as mapped, and nothing is written.
Source: `paging.c` `sv39_map_small_page`
Kind: L -/
theorem sv39Map_of_walk_page (h : Sv39Table w.mem root) (hva : PageAligned va)
    (hpa : PageAligned pa) {pte : BitVec 64} (hw : sv39Walk w.mem va 2 root = some (0, pte)) :
    sv39Map pmmAlloc w root va pa flags .page =
      (w, GrouperError.pagingMappingExists.errval) := by
  rcases sv39Walk_succ w.mem va 1 root with ⟨-, heq⟩ | ⟨-, -, heq⟩ | ⟨hv, hl, heq⟩
  · rw [heq] at hw
    cases hw
  · rw [heq] at hw
    cases hw
  have h₁ : sv39SetupTable pmmAlloc errNew w (slot root (vpn va 2)) = (w, .ok errNew) :=
    sv39SetupTable_of_valid hv errNew
  have htable : TableAt w.mem root 1 (sv39MapTable w.mem root va 1) :=
    .next .root (vpn_lt va 2 le_rfl) hv hl
  rw [heq] at hw
  rcases sv39Walk_succ w.mem va 0 (sv39MapTable w.mem root va 1) with
    ⟨-, heq₁⟩ | ⟨-, -, heq₁⟩ | ⟨hv₁, hl₁, heq₁⟩
  · exact absurd (heq₁.symm.trans hw) (by simp)
  · exact absurd (heq₁.symm.trans hw) (by simp)
  have hw₀ := heq₁.symm.trans hw
  rw [sv39Walk_zero] at hw₀
  have hshift := (h.entry htable (vpn_lt va 1 (by norm_num)) hv₁).shift
  rw [sv39Map_of_setup_ok_ok h.root_ne hva hpa h₁ (sv39SetupTable_of_valid hv₁ errNew) hshift]
  by_cases hv₀ : sv39PteValid (tableEntry w.mem (sv39PtePpnToPaddr (tableEntry w.mem
      (sv39MapTable w.mem root va 1) (vpn va 1))) (vpn va 0)) = true
  · rw [if_pos hv₀, errPush_errNew]
  · rw [if_neg hv₀] at hw₀
    cases hw₀

end map

/-! ## Agreement -/

/-- The bytes that a leaf at `level` maps.
Source: none: the Sv39 scheme
Kind: D -/
def LeafBytes (level : ℕ) (pte : BitVec 64) (a : Addr) : Prop :=
  (a - sv39PtePpnToPaddr pte).toNat < (sv39PageSizes level).toNat

/-- **The three functions agree on `va`**: an address is found there exactly when an unmap would
succeed, and exactly when a map with these arguments answers `ERR_PAGING_MAPPING_EXISTS`; such a map
leaves memory and the allocator as they are; and under a superpage it does not read its entry in the
memory of the superpage.
Source: `paging.h` `sv39_map`, `sv39_unmap`, `sv39_virt_to_phys`
Kind: D -/
structure Sv39Agrees (pmmAlloc : PmmAlloc σ) (root : Addr) (w : World σ) (va pa : Addr)
    (flags : BitVec 64) : Prop where
  unmap_iff : (∃ p, sv39VirtToPhys w.mem root va = some (some p)) ↔
    ∃ p, (sv39Unmap w root va).2 = .ok p
  map_iff : (∃ p, sv39VirtToPhys w.mem root va = some (some p)) ↔
    (sv39Map pmmAlloc w root va pa flags .page).2 = GrouperError.pagingMappingExists.errval
  writes : (∃ p, sv39VirtToPhys w.mem root va = some (some p)) →
    (sv39Map pmmAlloc w root va pa flags .page).1 = w
  tables : PageAligned pa → ∀ level pte, sv39Walk w.mem va 2 root = some (level + 1, pte) →
    ¬ LeafBytes (level + 1) pte (slot (sv39MapTable w.mem root va level) (vpn va level))

section agrees

variable {pmmAlloc : PmmAlloc σ} {w : World σ} {root va pa : Addr} {flags : BitVec 64}

/-- **Under a superpage the map reads the superpage's memory as a table.**
Source: `paging.c` `sv39_map_small_page`
Kind: P -/
theorem leafBytes_sv39MapTable (h : Sv39Table w.mem root) {level : ℕ} {pte : BitVec 64}
    (hw : sv39Walk w.mem va 2 root = some (level + 1, pte)) :
    LeafBytes (level + 1) pte (slot (sv39MapTable w.mem root va level) (vpn va level)) := by
  have hlevel : level + 1 ≤ 2 := sv39Walk_level_le hw
  have htable : sv39MapTable w.mem root va level = sv39PtePpnToPaddr pte := by
    rcases sv39Walk_succ w.mem va 1 root with ⟨-, heq⟩ | ⟨-, -, heq⟩ | ⟨hv, hl, heq⟩
    · rw [heq] at hw
      cases hw
    · rw [heq] at hw
      cases hw
      rfl
    have htable : TableAt w.mem root 1 (sv39MapTable w.mem root va 1) :=
      .next .root (vpn_lt va 2 le_rfl) hv hl
    rw [heq] at hw
    rcases sv39Walk_succ w.mem va 0 (sv39MapTable w.mem root va 1) with
      ⟨-, heq₁⟩ | ⟨hv₁, -, heq₁⟩ | ⟨-, -, heq₁⟩
    · exact absurd (heq₁.symm.trans hw) (by simp)
    · have heq₂ := heq₁.symm.trans hw
      cases heq₂
      exact (h.entry htable (vpn_lt va 1 (by norm_num)) hv₁).shift
    · have := sv39Walk_level_le (heq₁.symm.trans hw)
      omega
  have hidx := vpn_lt va level (by omega)
  rw [LeafBytes, htable, slot_eq]
  have hsub : sv39PtePpnToPaddr pte + BitVec.ofNat 64 (8 * (vpn va level).toNat) -
      sv39PtePpnToPaddr pte = BitVec.ofNat 64 (8 * (vpn va level).toNat) := by
    rw [BitVec.add_comm, BitVec.add_sub_cancel]
  rw [hsub, BitVec.toNat_ofNat, Nat.mod_eq_of_lt (by omega)]
  have hsize : 4096 ≤ (sv39PageSizes (level + 1)).toNat := by
    rcases level with _ | _ | level
    · decide
    · decide
    · omega
  omega

/-- **Map, unmap and translation agree exactly outside superpages.** For every well-formed table,
with leaves at any level and any other contents of memory, and every virtual page: they agree on the
page exactly when the walk for it meets an invalid entry, or ends at a level-0 leaf and the physical
address of the map is page-aligned (any other is refused before the table is looked at).
Source: `paging.c` `sv39_map_small_page`, `sv39_unmap`, `sv39_virt_to_phys`
Kind: P
Fidelity: exact
Hyps: `pmm_alloc` fails or returns a fresh zeroed page -/
theorem sv39Agrees_iff (h : Sv39Table w.mem root) (hva : PageAligned va)
    (hok : PmmCallsOk pmmAlloc root w va) (pa : Addr) (flags : BitVec 64) :
    Sv39Agrees pmmAlloc root w va pa flags ↔
      sv39Walk w.mem va 2 root = none ∨
        ∃ pte, sv39Walk w.mem va 2 root = some (0, pte) ∧ PageAligned pa := by
  have hphys := h.virtToPhys_isSome_iff va
  have hunmap := sv39Unmap_isOk_iff w h.root_ne hva
  have hrefused : ¬ PageAligned pa →
      (sv39Map pmmAlloc w root va pa flags .page).2 ≠ GrouperError.pagingMappingExists.errval := by
    intro hpa
    have hcheck : (!isAligned va (sv39PageSizes 0) || !isAligned pa (sv39PageSizes 0)) = true := by
      rw [← isAligned_page_iff] at hpa
      simp [hpa]
    rw [sv39Map_eq_smallPage h.root_ne, sv39MapSmallPage, if_pos hcheck]
    show GrouperError.pagingUnalignedAddress.errval ≠ GrouperError.pagingMappingExists.errval
    decide
  rcases hw : sv39Walk w.mem va 2 root with _ | ⟨_ | level, pte⟩
  · -- an invalid entry
    rw [hw] at hphys hunmap
    refine iff_of_true ⟨hphys.trans hunmap.symm, ?_, fun hp => absurd rfl (hphys.mp hp), ?_⟩
      (Or.inl rfl)
    · refine iff_of_false (fun hp => hphys.mp hp rfl) ?_
      by_cases hpa : PageAligned pa
      · exact sv39Map_of_walk_none h hva hpa hok hw
      · exact hrefused hpa
    · intro _ level pte hsome
      rw [hw] at hsome
      cases hsome
  · -- a level-0 leaf
    rw [hw] at hphys hunmap
    have hsome : ∃ p, sv39VirtToPhys w.mem root va = some (some p) := hphys.mpr (by simp)
    constructor
    · intro hagrees
      refine Or.inr ⟨pte, rfl, ?_⟩
      by_contra hpa
      exact hrefused hpa (hagrees.map_iff.mp hsome)
    · rintro (hnone | ⟨-, -, hpa⟩)
      · cases hnone
      have hmap : sv39Map pmmAlloc w root va pa flags .page =
          (w, GrouperError.pagingMappingExists.errval) := sv39Map_of_walk_page h hva hpa hw
      refine ⟨hphys.trans hunmap.symm, ?_, fun _ => by rw [hmap], ?_⟩
      · rw [hmap]
        exact iff_of_true hsome rfl
      · intro _ level pte' hsuper
        rw [hw] at hsuper
        cases hsuper
  · -- a superpage
    rw [hw] at hphys
    have hsome : ∃ p, sv39VirtToPhys w.mem root va = some (some p) := hphys.mpr (by simp)
    refine iff_of_false (fun hagrees => ?_) (by simp)
    by_cases hpa : PageAligned pa
    · exact hagrees.tables hpa level pte hw (leafBytes_sv39MapTable h hw)
    · exact hrefused hpa (hagrees.map_iff.mp hsome)

end agrees

/-! ## A table with a megapage -/

/-- Memory with a root at `0x80000000`, a level-1 table at `0x80001000`, and there one entry: the
megapage at `0x80200000`, mapped to itself. All other memory is zero, that of the megapage as well.
Source: none: infrastructure
Kind: D -/
def megaWorld : World Addr :=
  ⟨store64 (store64 (fun _ => 0) (slot 0x80000000 2) (sv39TableEntry 0x80001000))
    (slot 0x80001000 1) (sv39LeafEntry 0x80200000 6), 0x80002000⟩

/-- The entries of the two tables.
Source: none: infrastructure
Kind: L -/
theorem tableEntry_megaWorld {i : BitVec 64} (hi : i.toNat < 512) :
    tableEntry megaWorld.mem 0x80000000 i = (if i = 2 then sv39TableEntry 0x80001000 else 0) ∧
      tableEntry megaWorld.mem 0x80001000 i =
        if i = 1 then sv39LeafEntry 0x80200000 6 else 0 := by
  have hroot : PageAligned 0x80000000 := by decide
  have hl1 : PageAligned 0x80001000 := by decide
  have hne : (0x80001000 : Addr) ≠ 0x80000000 := by decide
  have h2 : (2 : BitVec 64).toNat < 512 := by decide
  have h1 : (1 : BitVec 64).toNat < 512 := by decide
  have hzero : ∀ a, load64 (fun _ => 0) a = 0 := fun a => load64_of_zero fun _ _ => rfl
  unfold tableEntry megaWorld
  constructor
  · refine (load64_store64_slot _ hl1 hroot h1 hi (Or.inl hne)).trans ?_
    by_cases heq : i = 2
    · rw [if_pos heq, heq, load64_store64_same]
    · rw [if_neg heq, load64_store64_slot _ hroot hroot h2 hi (Or.inr (Ne.symm heq)), hzero]
  · by_cases heq : i = 1
    · rw [if_pos heq, heq]
      exact load64_store64_same _ _ _
    · rw [if_neg heq]
      refine (load64_store64_slot _ hl1 hl1 h1 hi (Or.inr (Ne.symm heq))).trans ?_
      rw [load64_store64_slot _ hroot hl1 h2 hi (Or.inl hne.symm), hzero]

/-- The tables in use are the two.
Source: none: infrastructure
Kind: L -/
theorem tableAt_megaWorld {level : ℕ} {t : Addr} (h : TableAt megaWorld.mem 0x80000000 level t) :
    (level = 2 ∧ t = 0x80000000) ∨ (level = 1 ∧ t = 0x80001000) := by
  induction h with
  | root => exact Or.inl ⟨rfl, rfl⟩
  | @next level t i _ hi hvalid hleaf ih =>
      obtain ⟨hroot, hl1⟩ := tableEntry_megaWorld hi
      rcases ih with ⟨hlevel, rfl⟩ | ⟨hlevel, rfl⟩
      · rw [hroot] at hvalid ⊢
        by_cases heq : i = 2
        · rw [if_pos heq]
          exact Or.inr ⟨by omega, by decide⟩
        · rw [if_neg heq] at hvalid
          exact absurd hvalid (by decide)
      · rw [hl1] at hvalid hleaf
        by_cases heq : i = 1
        · rw [if_pos heq] at hleaf
          exact absurd hleaf (by decide)
        · rw [if_neg heq] at hvalid
          exact absurd hvalid (by decide)

/-- Source: none: infrastructure. Kind: L -/
theorem sv39Table_megaWorld : Sv39Table megaWorld.mem 0x80000000 := by
  have hbits : ∀ pte : BitVec 64, pte.toNat < 2 ^ 54 → ∀ i, 54 ≤ i → pte.getLsbD i = false :=
    fun pte => (toNat_lt_two_pow_iff pte 54).mp
  refine ⟨by decide, by decide, ?_⟩
  intro level t i ht hi hvalid
  obtain ⟨hroot, hl1⟩ := tableEntry_megaWorld hi
  rcases tableAt_megaWorld ht with ⟨rfl, rfl⟩ | ⟨rfl, rfl⟩
  · rw [hroot] at hvalid ⊢
    by_cases heq : i = 2
    · rw [if_pos heq]
      exact ⟨hbits _ (by decide), by decide, by decide⟩
    · rw [if_neg heq] at hvalid
      exact absurd hvalid (by decide)
  · rw [hl1] at hvalid ⊢
    by_cases heq : i = 1
    · rw [if_pos heq]
      exact ⟨hbits _ (by decide), by decide, by decide⟩
    · rw [if_neg heq] at hvalid
      exact absurd hvalid (by decide)

/-- Source: none: infrastructure. Kind: L -/
theorem pmmCallsOk_megaWorld (va : Addr) (hva : vpn va 2 = 2) :
    PmmCallsOk pageBump 0x80000000 megaWorld va := by
  have hok : PmmAllocOk pageBump 0x80000000 megaWorld := by
    have hapart : ∀ level t, TableAt megaWorld.mem 0x80000000 level t →
        Apart 0x80002000 4096 t 4096 := by
      intro level t ht
      rcases tableAt_megaWorld ht with ⟨-, rfl⟩ | ⟨-, rfl⟩
      · exact apart_pages (by decide) (by decide) (by decide)
      · exact apart_pages (by decide) (by decide) (by decide)
    refine ⟨?_, fun _ => ⟨rfl, ⟨by decide, by decide⟩, ?_, hapart⟩⟩
    · intro level t ht i hi
      exact fill_apply_of_apart 0 (hapart level t ht) hi
    · intro i hi
      exact fill_apply_of_lt megaWorld.mem megaWorld.pmm 0 hi (by omega)
  have hafter : afterL1 pageBump megaWorld 0x80000000 va = megaWorld := by
    have hvalid : sv39PteValid (tableEntry megaWorld.mem 0x80000000 (vpn va 2)) = true := by
      have h2 : (2 : BitVec 64).toNat < 512 := by decide
      rw [hva, (tableEntry_megaWorld h2).1]
      decide
    rw [afterL1, sv39SetupTable_of_valid hvalid]
  rw [PmmCallsOk, hafter]
  exact ⟨hok, hok⟩

/-- Behind the megapage, at an unmapped page, the three functions agree; inside it they do not.
Source: none: infrastructure
Kind: C -/
theorem sv39Agrees_iff_megaWorld :
    Sv39Agrees pageBump 0x80000000 megaWorld 0x80400000 0x80400000 6 ∧
      ¬ Sv39Agrees pageBump 0x80000000 megaWorld 0x80200000 0x80200000 6 := by
  constructor
  · rw [sv39Agrees_iff sv39Table_megaWorld (by decide) (pmmCallsOk_megaWorld _ (by decide))]
    exact Or.inl (by decide +kernel)
  · rw [sv39Agrees_iff sv39Table_megaWorld (by decide) (pmmCallsOk_megaWorld _ (by decide))]
    have hw : sv39Walk megaWorld.mem 0x80200000 2 0x80000000 =
        some (1, sv39LeafEntry 0x80200000 6) := by decide +kernel
    rw [hw]
    simp

/-- **A small page mapped under a megapage**: `sv39_virt_to_phys` finds the page and `sv39_unmap`
would remove it, and `sv39_map` answers `ERR_OK`. It has written a page table entry to the first
word of the megapage's memory, and the translation is as before.
Source: `paging.c` `sv39_map_small_page`
Kind: C -/
theorem not_sv39Agrees_megaPage :
    Sv39Table megaWorld.mem 0x80000000 ∧ VirtualPage 0x80200000 ∧
      sv39VirtToPhys megaWorld.mem 0x80000000 0x80200000 ≠ some none ∧
      (sv39Unmap megaWorld 0x80000000 0x80200000).2 = .ok 0x80200000 ∧
      (sv39Map pageBump megaWorld 0x80000000 0x80200000 0x80300000 6 .page).2 =
        GrouperError.ok.errval ∧
      LeafBytes 1 (sv39LeafEntry 0x80200000 6) 0x80200000 ∧
      load64 megaWorld.mem 0x80200000 = 0 ∧
      load64 (sv39Map pageBump megaWorld 0x80000000 0x80200000 0x80300000 6 .page).1.mem
        0x80200000 = sv39LeafEntry 0x80300000 6 ∧
      sv39VirtToPhys (sv39Map pageBump megaWorld 0x80000000 0x80200000 0x80300000 6 .page).1.mem
        0x80000000 0x80200000 = sv39VirtToPhys megaWorld.mem 0x80000000 0x80200000 := by
  refine ⟨sv39Table_megaWorld, virtualPage_0x80200000, ?_, ?_, ?_, ?_, ?_, ?_, ?_⟩
  · decide +kernel
  · decide +kernel
  · decide +kernel
  · show (_ : ℕ) < _
    decide
  · decide +kernel
  · decide +kernel
  · decide +kernel

end Octiron.Kernel
