import Octiron.Kernel.PageEntries

/-!
# Trees of page tables

The three-level tree of tables in memory, whatever the level-0 entries hold.

* `TableNode`, `PageIndex` — the tables of a tree and the pages of an address space, by indices.
* `EntriesRep m root T E` — the memory `m` holds the tree of tables `T` with the valid level-0
  entries `E`.
* `PmmAllocOk` — what the paging code needs from `pmm_alloc`.
* **Main results** (`sv39Map_entries`, `sv39Unmap_entries`): what one call of `sv39_map` or
  `sv39_unmap` does to the entries, for any physical address and any flags.
-/

namespace Octiron.Kernel

open Octiron.Found
open Octiron.Found.Mem
open Octiron.Kzadhbat

variable {σ : Type}

/-! ## Trees of tables -/

/-- The tables of a three-level tree, by the indices that lead to them.
Source: none: the Sv39 scheme
Kind: D -/
inductive TableNode
  | root
  | l1 (i : BitVec 64)
  | l0 (i j : BitVec 64)
  deriving DecidableEq

/-- The table and index a table is linked from.
Source: none: the Sv39 scheme
Kind: D -/
def TableNode.parent : TableNode → Option (TableNode × BitVec 64)
  | .root => none
  | .l1 i => some (.root, i)
  | .l0 i j => some (.l1 i, j)

/-- The level of a table.
Source: none: the Sv39 scheme
Kind: D -/
def TableNode.level : TableNode → ℕ
  | .root => 2
  | .l1 _ => 1
  | .l0 _ _ => 0

/-- The three indices of a virtual page.
Source: none: the Sv39 scheme
Kind: D -/
structure PageIndex where
  /-- Index in the root table. -/
  l2 : BitVec 64
  /-- Index in the level-1 table. -/
  l1 : BitVec 64
  /-- Index in the level-0 table. -/
  l0 : BitVec 64
  deriving DecidableEq

/-- Source: none: the Sv39 scheme. Kind: D -/
def pageIndex (va : Addr) : PageIndex := ⟨vpn va 2, vpn va 1, vpn va 0⟩

/-- **Pages with the same indices** are those whose page numbers agree modulo `2 ^ 27`.
Source: none: the Sv39 scheme
Kind: L -/
theorem pageIndex_eq_iff {va va' : Addr} :
    pageIndex va = pageIndex va' ↔ va.toNat / 4096 % 2 ^ 27 = va'.toNat / 4096 % 2 ^ 27 := by
  have hvpn : ∀ level ≤ 2, (vpn va level = vpn va' level ↔
      va.toNat / 2 ^ (12 + 9 * level) % 2 ^ 9 = va'.toNat / 2 ^ (12 + 9 * level) % 2 ^ 9) := by
    intro level hl
    rw [← BitVec.toNat_inj, vpn_toNat va hl, vpn_toNat va' hl]
  rw [pageIndex, pageIndex, PageIndex.mk.injEq, hvpn 2 le_rfl, hvpn 1 (by norm_num),
    hvpn 0 (by norm_num)]
  norm_num
  omega

/-- Entry `i` of the table at `t`. Source: none: infrastructure. Kind: D -/
def tableEntry (m : Mem) (t : Addr) (i : BitVec 64) : BitVec 64 := load64 m (slot t i)

/-- **Memory holds the tree of tables `T` with the valid level-0 entries `E`.**
Source: none: infrastructure
Kind: D -/
structure EntriesRep (m : Mem) (root : Addr) (T : TableNode → Option Addr)
    (E : PageIndex → Option (BitVec 64)) : Prop where
  root_eq : T .root = some root
  root_aligned : PageAligned root
  page : ∀ {n p}, n ≠ .root → T n = some p → Sv39Page p
  inj : ∀ {n n' p}, T n = some p → T n' = some p → n = n'
  link_some : ∀ {n p u i}, n.parent = some (u, i) → T n = some p →
    i.toNat < 512 ∧ ∃ t, T u = some t ∧ tableEntry m t i = sv39TableEntry p
  link_none : ∀ {n u i t}, n.parent = some (u, i) → i.toNat < 512 → T u = some t → T n = none →
    sv39PteValid (tableEntry m t i) = false
  leaf_some : ∀ {i j k v}, E ⟨i, j, k⟩ = some v →
    k.toNat < 512 ∧ sv39PteValid v = true ∧ ∃ t, T (.l0 i j) = some t ∧ tableEntry m t k = v
  leaf_none : ∀ {i j k t}, k.toNat < 512 → T (.l0 i j) = some t → E ⟨i, j, k⟩ = none →
    sv39PteValid (tableEntry m t k) = false

section rep

variable {m m' : Mem} {root : Addr} {T : TableNode → Option Addr}
  {E : PageIndex → Option (BitVec 64)}

/-- Source: none: infrastructure. Kind: L -/
theorem EntriesRep.aligned (h : EntriesRep m root T E) {n : TableNode} {p : Addr}
    (hn : T n = some p) : PageAligned p := by
  by_cases hroot : n = .root
  · subst hroot
    rw [h.root_eq, Option.some.injEq] at hn
    exact hn ▸ h.root_aligned
  · exact (h.page hroot hn).aligned

/-- E store to one entry leaves every other entry of every table.
Source: none: infrastructure
Kind: L -/
theorem EntriesRep.entry_store (h : EntriesRep m root T E) {n n' : TableNode} {p p' : Addr}
    {i i' : BitVec 64} (v : BitVec 64) (hn : T n = some p) (hn' : T n' = some p')
    (hi : i.toNat < 512) (hi' : i'.toNat < 512) (hne : n ≠ n' ∨ i ≠ i') :
    tableEntry (store64 m (slot p i) v) p' i' = tableEntry m p' i' := by
  apply load64_store64_slot v (h.aligned hn) (h.aligned hn') hi hi'
  rcases hne with hne | hne
  · left
    rintro rfl
    exact hne (h.inj hn hn')
  · exact Or.inr hne

/-- The representation only reads the entries of the tables in use.
Source: none: infrastructure
Kind: L -/
theorem EntriesRep.congr (h : EntriesRep m root T E)
    (heq : ∀ n p, T n = some p → PageEq m' m p) : EntriesRep m' root T E := by
  have hent : ∀ {n p i}, T n = some p → i.toNat < 512 → tableEntry m' p i = tableEntry m p i :=
    fun hn hi => (heq _ _ hn).load_slot hi
  refine ⟨h.root_eq, h.root_aligned, h.page, h.inj, ?_, ?_, ?_, ?_⟩
  · intro n p u i hpar hn
    obtain ⟨hi, t, ht, hlink⟩ := h.link_some hpar hn
    exact ⟨hi, t, ht, (hent ht hi).trans hlink⟩
  · intro n u i t hpar hi ht hn
    rw [hent ht hi]
    exact h.link_none hpar hi ht hn
  · intro i j k v hv
    obtain ⟨hk, hvalid, t, ht, hleaf⟩ := h.leaf_some hv
    exact ⟨hk, hvalid, t, ht, (hent ht hk).trans hleaf⟩
  · intro i j k t hk ht hx
    rw [hent ht hk]
    exact h.leaf_none hk ht hx

/-- Source: none: infrastructure. Kind: L -/
theorem TableNode.parent_ne {n u : TableNode} {i : BitVec 64} (h : n.parent = some (u, i)) :
    n ≠ u := by
  rintro rfl
  cases n <;> simp [TableNode.parent] at h

/-- Source: none: infrastructure. Kind: L -/
theorem TableNode.parent_inj {n n' : TableNode} {x : TableNode × BitVec 64}
    (h : n.parent = some x) (h' : n'.parent = some x) : n = n' := by
  have heq : n.parent = n'.parent := h.trans h'.symm
  cases n <;> cases n' <;> simp only [TableNode.parent, reduceCtorEq, Option.some.injEq,
    Prod.mk.injEq, TableNode.l1.injEq, TableNode.l0.injEq, true_and, false_and] at h h' heq ⊢
  · exact heq
  · exact heq

/-- Level-0 tables are no one's parent.
Source: none: infrastructure
Kind: L -/
theorem TableNode.parent_ne_l0 {n : TableNode} {i j k : BitVec 64} :
    n.parent ≠ some (.l0 i j, k) := by
  cases n <;> simp [TableNode.parent]

/-- **Writing a level-0 entry** changes the entry at its indices and no other.
Source: none: infrastructure
Kind: L -/
theorem EntriesRep.setLeaf (h : EntriesRep m root T E) {i j k v : BitVec 64} {t : Addr}
    (ht : T (.l0 i j) = some t) (hk : k.toNat < 512) :
    EntriesRep (store64 m (slot t k) v) root T
      (Function.update E ⟨i, j, k⟩ (if sv39PteValid v then some v else none)) := by
  refine ⟨h.root_eq, h.root_aligned, h.page, h.inj, ?_, ?_, ?_, ?_⟩
  · intro n p u i' hpar hn
    obtain ⟨hi', t', ht', hlink⟩ := h.link_some hpar hn
    have hne : TableNode.l0 i j ≠ u := by
      rintro rfl
      exact TableNode.parent_ne_l0 hpar
    exact ⟨hi', t', ht', (h.entry_store v ht ht' hk hi' (Or.inl hne)).trans hlink⟩
  · intro n u i' t' hpar hi' ht' hn
    have hne : TableNode.l0 i j ≠ u := by
      rintro rfl
      exact TableNode.parent_ne_l0 hpar
    rw [h.entry_store v ht ht' hk hi' (Or.inl hne)]
    exact h.link_none hpar hi' ht' hn
  · intro i' j' k' y hy
    by_cases hidx : (⟨i', j', k'⟩ : PageIndex) = ⟨i, j, k⟩
    · rw [hidx, Function.update_self] at hy
      simp only [PageIndex.mk.injEq] at hidx
      obtain ⟨rfl, rfl, rfl⟩ := hidx
      split_ifs at hy with hvalid
      cases hy
      refine ⟨hk, hvalid, t, ht, ?_⟩
      rw [tableEntry, load64_store64_same]
    · rw [Function.update_of_ne hidx] at hy
      obtain ⟨hk', hvalid', t', ht', hleaf⟩ := h.leaf_some hy
      refine ⟨hk', hvalid', t', ht', (h.entry_store v ht ht' hk hk' ?_).trans hleaf⟩
      by_contra hcon
      simp only [not_or, not_not, TableNode.l0.injEq] at hcon
      obtain ⟨⟨rfl, rfl⟩, rfl⟩ := hcon
      exact hidx rfl
  · intro i' j' k' t' hk' ht' hy
    by_cases hidx : (⟨i', j', k'⟩ : PageIndex) = ⟨i, j, k⟩
    · rw [hidx, Function.update_self] at hy
      simp only [PageIndex.mk.injEq] at hidx
      obtain ⟨rfl, rfl, rfl⟩ := hidx
      rw [ht, Option.some.injEq] at ht'
      subst ht'
      rw [tableEntry, load64_store64_same]
      split_ifs at hy with hvalid
      simpa using hvalid
    · rw [Function.update_of_ne hidx] at hy
      rw [h.entry_store v ht ht' hk hk' ?_]
      · exact h.leaf_none hk' ht' hy
      by_contra hcon
      simp only [not_or, not_not, TableNode.l0.injEq] at hcon
      obtain ⟨⟨rfl, rfl⟩, rfl⟩ := hcon
      exact hidx rfl

/-- **Linking a fresh zeroed table** changes no mapping.
Source: none: infrastructure
Kind: L -/
theorem EntriesRep.link (h : EntriesRep m root T E) {n u : TableNode} {i : BitVec 64} {t p : Addr}
    (hpar : n.parent = some (u, i)) (hi : i.toNat < 512) (ht : T u = some t) (hn : T n = none)
    (hp : Sv39Page p) (hfresh : ∀ n' q, T n' = some q → q ≠ p) (hzero : PageZero m p) :
    EntriesRep (store64 m (slot t i) (sv39TableEntry p)) root (Function.update T n (some p)) E := by
  have hnroot : n ≠ .root := by
    rintro rfl
    cases hpar
  have hnu : n ≠ u := TableNode.parent_ne hpar
  have hT : ∀ n', n' ≠ n → Function.update T n (some p) n' = T n' :=
    fun n' hne => Function.update_of_ne hne _ _
  have hTn : Function.update T n (some p) n = some p := Function.update_self ..
  -- an entry of the new table is not valid, and the store does not reach it
  have hnew : ∀ i', i'.toNat < 512 →
      sv39PteValid (tableEntry (store64 m (slot t i) (sv39TableEntry p)) p i') = false := by
    intro i' hi'
    rw [tableEntry, load64_store64_slot _ (h.aligned ht) hp.aligned hi hi'
      (Or.inl (hfresh _ _ ht)), hzero.load_slot hi']
    rfl
  refine ⟨?_, h.root_aligned, ?_, ?_, ?_, ?_, ?_, ?_⟩
  · rw [hT _ hnroot.symm, h.root_eq]
  · intro n' q hroot hn'
    by_cases hnn : n' = n
    · rw [hnn, hTn, Option.some.injEq] at hn'
      exact hn' ▸ hp
    · exact h.page hroot ((hT _ hnn).symm.trans hn')
  · intro n₁ n₂ q h₁ h₂
    by_cases hn₁ : n₁ = n <;> by_cases hn₂ : n₂ = n
    · rw [hn₁, hn₂]
    · rw [hn₁, hTn, Option.some.injEq] at h₁
      rw [hT _ hn₂] at h₂
      exact absurd h₁.symm (hfresh _ _ h₂)
    · rw [hn₂, hTn, Option.some.injEq] at h₂
      rw [hT _ hn₁] at h₁
      exact absurd h₂.symm (hfresh _ _ h₁)
    · rw [hT _ hn₁] at h₁
      rw [hT _ hn₂] at h₂
      exact h.inj h₁ h₂
  · intro n' q u' i' hpar' hn'
    by_cases hnn : n' = n
    · subst hnn
      rw [hpar, Option.some.injEq, Prod.mk.injEq] at hpar'
      obtain ⟨rfl, rfl⟩ := hpar'
      rw [hTn, Option.some.injEq] at hn'
      subst hn'
      refine ⟨hi, t, by rw [hT _ hnu.symm, ht], ?_⟩
      rw [tableEntry, load64_store64_same]
    · rw [hT _ hnn] at hn'
      obtain ⟨hi', t', ht', hlink⟩ := h.link_some hpar' hn'
      have hu' : u' ≠ n := by
        rintro rfl
        rw [hn] at ht'
        cases ht'
      refine ⟨hi', t', by rw [hT _ hu', ht'], (h.entry_store _ ht ht' hi hi' ?_).trans hlink⟩
      by_contra hcon
      simp only [not_or, not_not] at hcon
      obtain ⟨rfl, rfl⟩ := hcon
      exact hnn (TableNode.parent_inj hpar' hpar)
  · intro n' u' i' t' hpar' hi' ht' hn'
    have hnn : n' ≠ n := by
      rintro rfl
      rw [hTn] at hn'
      cases hn'
    rw [hT _ hnn] at hn'
    by_cases hu' : u' = n
    · rw [hu', hTn, Option.some.injEq] at ht'
      exact ht' ▸ hnew i' hi'
    · rw [hT _ hu'] at ht'
      rw [h.entry_store _ ht ht' hi hi' ?_]
      · exact h.link_none hpar' hi' ht' hn'
      by_contra hcon
      simp only [not_or, not_not] at hcon
      obtain ⟨rfl, rfl⟩ := hcon
      exact hnn (TableNode.parent_inj hpar' hpar)
  · intro i' j' k' x hx
    obtain ⟨hk', hvalid, t', ht', hleaf⟩ := h.leaf_some hx
    have hne : TableNode.l0 i' j' ≠ n := by
      rintro rfl
      rw [hn] at ht'
      cases ht'
    have hu : u ≠ TableNode.l0 i' j' := by
      rintro rfl
      exact TableNode.parent_ne_l0 hpar
    exact ⟨hk', hvalid, t', by rw [hT _ hne, ht'],
      (h.entry_store _ ht ht' hi hk' (Or.inl hu)).trans hleaf⟩
  · intro i' j' k' t' hk' ht' hx
    by_cases hne : TableNode.l0 i' j' = n
    · rw [hne, hTn, Option.some.injEq] at ht'
      exact ht' ▸ hnew k' hk'
    · rw [hT _ hne] at ht'
      have hu : u ≠ TableNode.l0 i' j' := by
        rintro rfl
        exact TableNode.parent_ne_l0 hpar
      rw [h.entry_store _ ht ht' hi hk' (Or.inl hu)]
      exact h.leaf_none hk' ht' hx

/-- E zero root holds no mapping.
Source: none: infrastructure
Kind: L -/
theorem entriesRep_zero (hroot : PageAligned root) (hzero : PageZero m root) :
    EntriesRep m root (fun n => if n = .root then some root else none) (fun _ => none) := by
  refine ⟨rfl, hroot, ?_, ?_, ?_, ?_, by simp, by simp⟩
  · intro n p hn hp
    simp [hn] at hp
  · intro n n' p hp hp'
    by_cases hn : n = .root <;> by_cases hn' : n' = .root <;> simp_all
  · intro n p u i hpar hp
    by_cases hn : n = .root
    · subst hn
      cases hpar
    · simp [hn] at hp
  · intro n u i t _ hi ht _
    by_cases hu : u = .root
    · simp only [hu, if_true, Option.some.injEq] at ht
      subst ht
      rw [tableEntry, hzero.load_slot hi]
      rfl
    · simp [hu] at ht

/-- An entry above the leaves is valid when the table it would link is there.
Source: none: infrastructure
Kind: L -/
theorem EntriesRep.valid_link (h : EntriesRep m root T E) {n u : TableNode} {i : BitVec 64}
    {t : Addr}
    (hpar : n.parent = some (u, i)) (hi : i.toNat < 512) (ht : T u = some t) :
    sv39PteValid (tableEntry m t i) = (T n).isSome := by
  rcases hn : T n with _ | p
  · exact h.link_none hpar hi ht hn
  · obtain ⟨-, t', ht', hlink⟩ := h.link_some hpar hn
    rw [ht, Option.some.injEq] at ht'
    rw [ht', hlink, sv39PteValid_tableEntry]
    rfl

/-- An entry of a level-0 table is valid when the page is mapped.
Source: none: infrastructure
Kind: L -/
theorem EntriesRep.valid_leaf (h : EntriesRep m root T E) {i j k : BitVec 64} {t : Addr}
    (hk : k.toNat < 512) (ht : T (.l0 i j) = some t) :
    sv39PteValid (tableEntry m t k) = (E ⟨i, j, k⟩).isSome := by
  rcases hv : E ⟨i, j, k⟩ with _ | v
  · exact h.leaf_none hk ht hv
  · obtain ⟨-, hvalid, t', ht', hleaf⟩ := h.leaf_some hv
    rw [ht, Option.some.injEq] at ht'
    rw [ht', hleaf, hvalid]
    rfl

/-- The entry that links a table that is there.
Source: none: infrastructure
Kind: L -/
theorem EntriesRep.entry_link (h : EntriesRep m root T E) {n u : TableNode} {i : BitVec 64}
    {t p : Addr} (hpar : n.parent = some (u, i)) (ht : T u = some t) (hn : T n = some p) :
    load64 m (slot t i) = sv39TableEntry p := by
  obtain ⟨-, t', ht', hlink⟩ := h.link_some hpar hn
  rw [ht, Option.some.injEq] at ht'
  rw [ht']
  exact hlink

/-- E mapped page has both of its tables.
Source: none: infrastructure
Kind: L -/
theorem EntriesRep.tables_of_leaf (h : EntriesRep m root T E) {i j k v : BitVec 64}
    (hv : E ⟨i, j, k⟩ = some v) : (T (.l1 i)).isSome ∧ (T (.l0 i j)).isSome := by
  obtain ⟨-, -, t₁, ht₁, -⟩ := h.leaf_some hv
  obtain ⟨-, t, ht, -⟩ := h.link_some rfl ht₁
  rw [ht, ht₁]
  exact ⟨rfl, rfl⟩

/-- The walk goes on at a linked table.
Source: none: infrastructure
Kind: L -/
theorem sv39Walk_link {va t p : Addr} {level : ℕ}
    (hentry : load64 m (slot t (vpn va (level + 1))) = sv39TableEntry p) (hp : Sv39Page p) :
    sv39Walk m va (level + 1) t = sv39Walk m va level p := by
  rw [sv39Walk]
  simp [hentry, sv39PteLeaf_tableEntry hp, sv39PtePpnToPaddr_tableEntry hp]

/-- **The walk finds the entry.**
Source: none: infrastructure
Kind: L -/
theorem EntriesRep.walk (h : EntriesRep m root T E) (va : Addr) :
    sv39Walk m va 2 root = (E (pageIndex va)).map fun v => (0, v) := by
  have h2 := h.valid_link (n := .l1 (vpn va 2)) rfl (vpn_lt va 2 le_rfl) h.root_eq
  rw [tableEntry] at h2
  rcases ht : T (.l1 (vpn va 2)) with _ | t
  · rcases hE : E (pageIndex va) with _ | x
    · rw [ht] at h2
      simp [sv39Walk, h2]
    · have := (h.tables_of_leaf hE).1
      simp [ht] at this
  have hpage := h.page (by simp) ht
  have hlink := h.entry_link rfl h.root_eq ht
  have h1 := h.valid_link (n := .l0 (vpn va 2) (vpn va 1)) rfl (vpn_lt va 1 (by norm_num)) ht
  rw [tableEntry] at h1
  have hdown : sv39Walk m va 2 root = sv39Walk m va 1 t := sv39Walk_link hlink hpage
  rcases ht₁ : T (.l0 (vpn va 2) (vpn va 1)) with _ | t₁
  · rcases hE : E (pageIndex va) with _ | x
    · rw [ht₁] at h1
      rw [hdown]
      simp [sv39Walk, h1]
    · have := (h.tables_of_leaf hE).2
      simp [ht₁] at this
  have hpage₁ := h.page (by simp) ht₁
  have hlink₁ := h.entry_link rfl ht ht₁
  have h0 := h.valid_leaf (vpn_lt va 0 (by norm_num)) ht₁
  rw [tableEntry] at h0
  have hdown₁ : sv39Walk m va 1 t = sv39Walk m va 0 t₁ := sv39Walk_link hlink₁ hpage₁
  rw [hdown, hdown₁, sv39Walk]
  simp only [h0]
  rcases hE : E (pageIndex va) with _ | x
  · rw [pageIndex] at hE
    simp [hE]
  · obtain ⟨-, -, t', ht', hleaf⟩ := h.leaf_some hE
    rw [ht₁, Option.some.injEq] at ht'
    rw [tableEntry, ← ht'] at hleaf
    rw [pageIndex] at hE
    simp [hE, hleaf]

end rep

/-! ## What `pmm_alloc` has to guarantee -/

/-- The tables in use below `root`, with their levels: the root, and every table that a valid entry
which is not a leaf points to.
Source: none: the Sv39 scheme
Kind: D -/
inductive TableAt (m : Mem) (root : Addr) : ℕ → Addr → Prop
  | root : TableAt m root 2 root
  | next {level : ℕ} {t : Addr} {i : BitVec 64} : TableAt m root (level + 1) t → i.toNat < 512 →
      sv39PteValid (tableEntry m t i) = true → sv39PteLeaf (tableEntry m t i) = false →
      TableAt m root level (sv39PtePpnToPaddr (tableEntry m t i))

/-- **`pmm_alloc` fails, or returns a fresh zeroed page**: page-aligned, inside the physical address
space and disjoint from every table in use. Either way it leaves the tables in use as they are.
Source: `paging.c` `sv39_map_small_page` relies on it
Kind: D -/
structure PmmAllocOk (pmmAlloc : PmmAlloc σ) (root : Addr) (w : World σ) : Prop where
  tables : ∀ level t, TableAt w.mem root level t →
    PageEq (pmmAlloc w.pmm w.mem sizeofSv39PageTable).mem w.mem t
  page : errIsFail (pmmAlloc w.pmm w.mem sizeofSv39PageTable).err = false →
    (pmmAlloc w.pmm w.mem sizeofSv39PageTable).err = errNew ∧
    Sv39Page (pmmAlloc w.pmm w.mem sizeofSv39PageTable).ret ∧
    PageZero (pmmAlloc w.pmm w.mem sizeofSv39PageTable).mem
      (pmmAlloc w.pmm w.mem sizeofSv39PageTable).ret ∧
    ∀ level t, TableAt w.mem root level t →
      Apart (pmmAlloc w.pmm w.mem sizeofSv39PageTable).ret 4096 t 4096

/-- `pmm_alloc` succeeds in the state `w`.
Source: none: infrastructure
Kind: D -/
def allocSucceeds (pmmAlloc : PmmAlloc σ) (w : World σ) : Bool :=
  !errIsFail (pmmAlloc w.pmm w.mem sizeofSv39PageTable).err

/-- The state in which `sv39_map_small_page` sets up the level-0 table: after the level-1 table is
there.
Source: `paging.c` `sv39_map_small_page`
Kind: D -/
def afterL1 (pmmAlloc : PmmAlloc σ) (w : World σ) (root va : Addr) : World σ :=
  (sv39SetupTable pmmAlloc errNew w (slot root (vpn va 2))).1

/-- The two states in which `sv39_map` may call `pmm_alloc`.
Source: `paging.c` `sv39_map_small_page`
Kind: D -/
def PmmCallsOk (pmmAlloc : PmmAlloc σ) (root : Addr) (w : World σ) (va : Addr) : Prop :=
  PmmAllocOk pmmAlloc root w ∧ PmmAllocOk pmmAlloc root (afterL1 pmmAlloc w root va)

/-- **The table allocations that mapping `va` needs succeed**: none when both tables are there, one
when only the level-0 table is missing, two when the level-1 table is missing as well.
Source: `paging.c` `sv39_map_small_page`
Kind: D -/
def tablesAvailable (pmmAlloc : PmmAlloc σ) (w : World σ) (root va : Addr) : Bool :=
  let l2Entry := tableEntry w.mem root (vpn va 2)
  if sv39PteValid l2Entry then
    sv39PteValid (tableEntry w.mem (sv39PtePpnToPaddr l2Entry) (vpn va 1)) ||
      allocSucceeds pmmAlloc w
  else allocSucceeds pmmAlloc w && allocSucceeds pmmAlloc (afterL1 pmmAlloc w root va)

section specs

variable {pmmAlloc : PmmAlloc σ} {w : World σ} {root : Addr} {T : TableNode → Option Addr}
  {E : PageIndex → Option (BitVec 64)}

/-- The tables of the representation are in use.
Source: none: infrastructure
Kind: L -/
theorem EntriesRep.tableAt (h : EntriesRep w.mem root T E) :
    ∀ {n : TableNode} {p : Addr}, T n = some p → TableAt w.mem root n.level p := by
  have hstep : ∀ {n u : TableNode} {i : BitVec 64} {p : Addr}, n.parent = some (u, i) →
      n ≠ .root → T n = some p → u.level = n.level + 1 →
      (∀ t, T u = some t → TableAt w.mem root u.level t) → TableAt w.mem root n.level p := by
    intro n u i p hpar hroot hn hlevel hu
    obtain ⟨hi, t, ht, hlink⟩ := h.link_some hpar hn
    have hpage := h.page hroot hn
    have hnext := hu t ht
    rw [hlevel] at hnext
    have := hnext.next hi (by rw [hlink, sv39PteValid_tableEntry])
      (by rw [hlink, sv39PteLeaf_tableEntry hpage])
    rwa [hlink, sv39PtePpnToPaddr_tableEntry hpage] at this
  have hroot : ∀ t, T .root = some t → TableAt w.mem root 2 t := by
    intro t ht
    rw [h.root_eq, Option.some.injEq] at ht
    exact ht ▸ .root
  have hl1 : ∀ i t, T (.l1 i) = some t → TableAt w.mem root 1 t := fun i t ht =>
    hstep (n := .l1 i) rfl (by simp) ht rfl hroot
  intro n p hn
  cases n with
  | root => exact hroot p hn
  | l1 i => exact hl1 i p hn
  | l0 i j => exact hstep (n := .l0 i j) rfl (by simp) hn rfl (hl1 i)

/-- Every table in use is one of the representation.
Source: none: infrastructure
Kind: L -/
theorem EntriesRep.exists_of_tableAt (h : EntriesRep w.mem root T E) {level : ℕ} {t : Addr}
    (ht : TableAt w.mem root level t) : ∃ n : TableNode, n.level = level ∧ T n = some t := by
  induction ht with
  | root => exact ⟨.root, rfl, h.root_eq⟩
  | @next level t i _ hi hvalid _ ih =>
      obtain ⟨n, hlevel, hn⟩ := ih
      have hchild : ∃ c : TableNode, c.parent = some (n, i) ∧ c.level = level := by
        cases n with
        | root => exact ⟨.l1 i, rfl, Nat.succ.inj hlevel⟩
        | l1 i' => exact ⟨.l0 i' i, rfl, Nat.succ.inj hlevel⟩
        | l0 i' j' => simp [TableNode.level] at hlevel
      obtain ⟨c, hpar, hc⟩ := hchild
      rw [h.valid_link hpar hi hn, Option.isSome_iff_exists] at hvalid
      obtain ⟨p, hp⟩ := hvalid
      have hroot : c ≠ .root := by
        rintro rfl
        cases hpar
      refine ⟨c, hc, ?_⟩
      rw [tableEntry, h.entry_link hpar hn hp, sv39PtePpnToPaddr_tableEntry (h.page hroot hp), hp]

/-- `sv39SetupTable` when the table is there.
Source: `paging.c` `sv39_map_small_page`
Kind: L -/
theorem sv39SetupTable_of_some (h : EntriesRep w.mem root T E) {n u : TableNode} {i : BitVec 64}
    {t p : Addr} (hpar : n.parent = some (u, i)) (ht : T u = some t) (hn : T n = some p)
    (err : Errval) : sv39SetupTable pmmAlloc err w (slot t i) = (w, .ok err) := by
  rw [sv39SetupTable, h.entry_link hpar ht hn, if_pos (sv39PteValid_tableEntry p)]

/-- `sv39SetupTable` when the table is missing and `pmm_alloc` fails: an error that has the
`ERR_PAGING_SETUP_TABLE` bits, and the tables as they were.
Source: `paging.c` `sv39_map_small_page`
Kind: L -/
theorem sv39SetupTable_of_fails (h : EntriesRep w.mem root T E) {n u : TableNode} {i : BitVec 64}
    {t : Addr} (hpar : n.parent = some (u, i)) (hi : i.toNat < 512) (ht : T u = some t)
    (hn : T n = none) (hok : PmmAllocOk pmmAlloc root w) (hfail : allocSucceeds pmmAlloc w = false)
    (err : Errval) :
    ∃ w' e, sv39SetupTable pmmAlloc err w (slot t i) = (w', .error (errPush e .pagingSetupTable)) ∧
      EntriesRep w'.mem root T E := by
  have hinv := h.link_none hpar hi ht hn
  rw [tableEntry] at hinv
  have hfail' : errIsFail (pmmAlloc w.pmm w.mem sizeofSv39PageTable).err = true := by
    simpa [allocSucceeds] using hfail
  refine ⟨⟨(pmmAlloc w.pmm w.mem sizeofSv39PageTable).mem,
    (pmmAlloc w.pmm w.mem sizeofSv39PageTable).pmm⟩,
    (pmmAlloc w.pmm w.mem sizeofSv39PageTable).err, ?_, ?_⟩
  · rw [sv39SetupTable, hinv, if_neg (by simp)]
    simp only [hfail', if_true]
  · exact h.congr fun n' q hq => hok.tables _ _ (h.tableAt hq)

/-- `sv39SetupTable` when the table is missing and `pmm_alloc` succeeds: the new table is linked.
Source: `paging.c` `sv39_map_small_page`
Kind: L -/
theorem sv39SetupTable_of_succeeds (h : EntriesRep w.mem root T E) {n u : TableNode}
    {i : BitVec 64} {t : Addr} (hpar : n.parent = some (u, i)) (hi : i.toNat < 512)
    (ht : T u = some t) (hn : T n = none) (hok : PmmAllocOk pmmAlloc root w)
    (hsucc : allocSucceeds pmmAlloc w = true) (err : Errval) :
    ∃ w' p, sv39SetupTable pmmAlloc err w (slot t i) = (w', .ok errNew) ∧
      EntriesRep w'.mem root (Function.update T n (some p)) E := by
  have hinv := h.link_none hpar hi ht hn
  rw [tableEntry] at hinv
  have hsucc' : errIsFail (pmmAlloc w.pmm w.mem sizeofSv39PageTable).err = false := by
    simpa [allocSucceeds] using hsucc
  obtain ⟨herr, hpage, hzero, hapart⟩ := hok.page hsucc'
  have hrep : EntriesRep (pmmAlloc w.pmm w.mem sizeofSv39PageTable).mem root T E :=
    h.congr fun n' q hq => hok.tables _ _ (h.tableAt hq)
  refine ⟨⟨store64 (pmmAlloc w.pmm w.mem sizeofSv39PageTable).mem (slot t i)
    (sv39TableEntry (pmmAlloc w.pmm w.mem sizeofSv39PageTable).ret),
    (pmmAlloc w.pmm w.mem sizeofSv39PageTable).pmm⟩,
    (pmmAlloc w.pmm w.mem sizeofSv39PageTable).ret, ?_, ?_⟩
  · rw [sv39SetupTable, hinv, if_neg (by simp), sv39TableEntry]
    simp only [hsucc', Bool.false_eq_true, if_false]
    rw [herr]
  · refine hrep.link hpar hi ht hn hpage ?_ hzero
    intro n' q hq
    exact (hapart _ _ (h.tableAt hq)).ne.symm

/-- **Setting up a table**: it is there afterwards, or it was missing and `pmm_alloc` failed. No
mapping changes, and tables that were there stay.
Source: `paging.c` `sv39_map_small_page`
Kind: P -/
theorem sv39SetupTable_spec (h : EntriesRep w.mem root T E) {n u : TableNode} {i : BitVec 64}
    {t : Addr} (hpar : n.parent = some (u, i)) (hi : i.toNat < 512) (ht : T u = some t)
    (hok : PmmAllocOk pmmAlloc root w) :
    ((T n ≠ none ∨ allocSucceeds pmmAlloc w = true) ∧
      ∃ w' T' p, sv39SetupTable pmmAlloc errNew w (slot t i) = (w', .ok errNew) ∧
        EntriesRep w'.mem root T' E ∧ T' n = some p ∧ (∀ n', n' ≠ n → T' n' = T n') ∧
        (T n ≠ none → w' = w)) ∨
    ((T n = none ∧ allocSucceeds pmmAlloc w = false) ∧
      ∃ w' e, sv39SetupTable pmmAlloc errNew w (slot t i) =
          (w', .error (errPush e .pagingSetupTable)) ∧ EntriesRep w'.mem root T E) := by
  rcases hn : T n with _ | p
  · rcases halloc : allocSucceeds pmmAlloc w with _ | _
    · right
      exact ⟨⟨rfl, rfl⟩, sv39SetupTable_of_fails h hpar hi ht hn hok halloc errNew⟩
    · left
      obtain ⟨w', p, hsetup, hrep⟩ := sv39SetupTable_of_succeeds h hpar hi ht hn hok halloc errNew
      refine ⟨Or.inr rfl, w', _, p, hsetup, hrep, Function.update_self .., ?_, by simp⟩
      intro n' hne
      exact Function.update_of_ne hne _ _
  · left
    exact ⟨Or.inl (by simp), w, T, p, sv39SetupTable_of_some h hpar ht hn errNew, h, hn,
      fun _ _ => rfl, fun _ => rfl⟩

/-- What `tablesAvailable` says once the level-1 table is there.
Source: none: infrastructure
Kind: L -/
theorem tablesAvailable_eq (h : EntriesRep w.mem root T E) {va : Addr} {w' : World σ}
    {T' : TableNode → Option Addr} (hafter : afterL1 pmmAlloc w root va = w')
    (hsame : T (.l1 (vpn va 2)) ≠ none → w' = w)
    (hor : T (.l1 (vpn va 2)) ≠ none ∨ allocSucceeds pmmAlloc w = true)
    (hl0 : T' (.l0 (vpn va 2) (vpn va 1)) = T (.l0 (vpn va 2) (vpn va 1))) :
    tablesAvailable pmmAlloc w root va =
      ((T' (.l0 (vpn va 2) (vpn va 1))).isSome || allocSucceeds pmmAlloc w') := by
  have h2 := h.valid_link (n := .l1 (vpn va 2)) rfl (vpn_lt va 2 le_rfl) h.root_eq
  unfold tablesAvailable
  rcases ht : T (.l1 (vpn va 2)) with _ | t
  · -- the level-1 table was missing, so the level-0 table is
    have hl0none : T (.l0 (vpn va 2) (vpn va 1)) = none := by
      rw [Option.eq_none_iff_forall_ne_some]
      intro q hq
      obtain ⟨-, t, ht', -⟩ := h.link_some rfl hq
      rw [ht] at ht'
      cases ht'
    rw [ht] at h2 hor
    have hsucc := hor.resolve_left (fun hne => hne rfl)
    simp [h2, hafter, hsucc, hl0, hl0none]
  · have hww : w' = w := hsame (by simp [ht])
    subst hww
    have hpage := h.page (by simp) ht
    have hlink := h.entry_link rfl h.root_eq ht
    have h1 := h.valid_link (n := .l0 (vpn va 2) (vpn va 1)) rfl (vpn_lt va 1 (by norm_num)) ht
    have hentry : tableEntry w'.mem root (vpn va 2) = sv39TableEntry t := hlink
    simp only [hentry, sv39PteValid_tableEntry, sv39PtePpnToPaddr_tableEntry hpage, h1, hl0, if_true]

/-- **`sv39_map`**: it maps an unmapped page when its table allocations succeed, and otherwise says
why not and changes no mapping, even if it has set up a table.
Source: `paging.c` `sv39_map`, `sv39_map_small_page`
Kind: P
Fidelity: exact -/
theorem sv39Map_entries (h : EntriesRep w.mem root T E) (hroot : root ≠ 0) {va pa : Addr}
    (hva : PageAligned va) (hpa : PageAligned pa) (flags : BitVec 64)
    (hok : PmmCallsOk pmmAlloc root w va) :
    ∃ w' e T', sv39Map pmmAlloc w root va pa flags .page = (w', e) ∧
      ((E (pageIndex va) = none ∧ tablesAvailable pmmAlloc w root va = true ∧
          e = GrouperError.ok.errval ∧
          EntriesRep w'.mem root T'
            (Function.update E (pageIndex va) (some (sv39LeafEntry pa flags)))) ∨
        (E (pageIndex va) ≠ none ∧ e = GrouperError.pagingMappingExists.errval ∧
          EntriesRep w'.mem root T' E) ∨
        (E (pageIndex va) = none ∧ tablesAvailable pmmAlloc w root va = false ∧
          (∃ e', e = errPush e' .pagingSetupTable) ∧ EntriesRep w'.mem root T' E)) := by
  have hmap : sv39Map pmmAlloc w root va pa flags .page =
      sv39MapSmallPage pmmAlloc w root va pa flags := by
    rw [sv39Map, if_neg hroot]
  have halign : (!isAligned va (sv39PageSizes 0) || !isAligned pa (sv39PageSizes 0)) = false := by
    rw [(isAligned_page_iff va).mpr hva, (isAligned_page_iff pa).mpr hpa]
    rfl
  have h2 := h.valid_link (n := .l1 (vpn va 2)) rfl (vpn_lt va 2 le_rfl) h.root_eq
  rw [hmap]
  unfold sv39MapSmallPage
  simp only [halign, Bool.false_eq_true, if_false]
  rcases sv39SetupTable_spec h (n := .l1 (vpn va 2)) rfl (vpn_lt va 2 le_rfl) h.root_eq hok.1 with
    ⟨hor, w₁, T₁, p₁, hsetup, h₁, hp₁, hother, hsame⟩ | ⟨⟨hnone, hfail⟩, w', e', hsetup, h₁⟩
  · -- the level-1 table is there: go on with the level-0 table
    have hafter : afterL1 pmmAlloc w root va = w₁ := by rw [afterL1, hsetup]
    have hok₂ := hok.2
    rw [hafter] at hok₂
    have havail := tablesAvailable_eq h hafter hsame hor (hother _ (by simp))
    have hpage₁ := h₁.page (by simp) hp₁
    simp only [hsetup, h₁.entry_link rfl h₁.root_eq hp₁, sv39PtePpnToPaddr_tableEntry hpage₁]
    rcases sv39SetupTable_spec h₁ (n := .l0 (vpn va 2) (vpn va 1)) rfl (vpn_lt va 1 (by norm_num))
        hp₁ hok₂ with
      ⟨hor₂, w₂, T₂, p₂, hsetup₂, h₂, hp₂, hother₂, -⟩ | ⟨⟨hnone₂, hfail₂⟩, w', e', hsetup₂, h₂⟩
    · have hpage₂ := h₂.page (by simp) hp₂
      have hp₁' : T₂ (.l1 (vpn va 2)) = some p₁ := by rw [hother₂ _ (by simp), hp₁]
      have hvalid := h₂.valid_leaf (vpn_lt va 0 (by norm_num)) hp₂
      rw [tableEntry] at hvalid
      simp only [hsetup₂, h₂.entry_link rfl hp₁' hp₂, shift_tableEntry hpage₂, hvalid]
      have havail' : tablesAvailable pmmAlloc w root va = true := by
        rw [havail]
        rcases hor₂ with hne | hsucc
        · rw [Option.isSome_iff_ne_none.mpr hne, Bool.true_or]
        · rw [hsucc, Bool.or_true]
      rcases hE : E (pageIndex va) with _ | y
      · rw [pageIndex] at hE
        simp only [hE, Option.isSome_none, Bool.false_eq_true, if_false]
        refine ⟨_, _, T₂, rfl, Or.inl ⟨trivial, havail', rfl, ?_⟩⟩
        have hset := h₂.setLeaf (v := sv39LeafEntry pa flags) hp₂ (vpn_lt va 0 (by norm_num))
        rwa [if_pos (sv39PteValid_leafEntry pa flags)] at hset
      · rw [pageIndex] at hE
        simp only [hE, Option.isSome_some, if_true]
        exact ⟨_, _, T₂, rfl, Or.inr (Or.inl ⟨by simp, errPush_errNew _, h₂⟩)⟩
    · simp only [hsetup₂]
      refine ⟨_, _, T₁, rfl, Or.inr (Or.inr ⟨?_, ?_, ⟨e', rfl⟩, h₂⟩)⟩
      · rcases hE : E (pageIndex va) with _ | y
        · rfl
        · have := (h₁.tables_of_leaf hE).2
          simp [hnone₂] at this
      · rw [havail, hnone₂, hfail₂]
        rfl
  · simp only [hsetup]
    refine ⟨_, _, T, rfl, Or.inr (Or.inr ⟨?_, ?_, ⟨e', rfl⟩, h₁⟩)⟩
    · rcases hE : E (pageIndex va) with _ | y
      · rfl
      · have := (h.tables_of_leaf hE).1
        simp [hnone] at this
    · rw [hnone] at h2
      simp [tablesAvailable, h2, hfail]

/-- **`sv39_unmap`** removes the mapping and returns its physical page, or says there is none and
changes nothing.
Source: `paging.c` `sv39_unmap`
Kind: P
Fidelity: exact -/
theorem sv39Unmap_entries (h : EntriesRep w.mem root T E) (hroot : root ≠ 0) {va : Addr}
    (hva : PageAligned va) :
    (E (pageIndex va) = none ∧
      sv39Unmap w root va = (w, .error GrouperError.pagingMappingDoesntExist.errval)) ∨
    ∃ v w', E (pageIndex va) = some v ∧ sv39Unmap w root va = (w', .ok (sv39PtePpnToPaddr v)) ∧
      EntriesRep w'.mem root T (Function.update E (pageIndex va) none) := by
  have halign : (!isAligned va (sv39PageSizes 0)) = false := by
    rw [(isAligned_page_iff va).mpr hva]
    rfl
  have h2 := h.valid_link (n := .l1 (vpn va 2)) rfl (vpn_lt va 2 le_rfl) h.root_eq
  rw [tableEntry] at h2
  unfold sv39Unmap
  simp only [hroot, halign, Bool.false_eq_true, if_false, h2]
  rcases hE : E (pageIndex va) with _ | v
  · left
    refine ⟨rfl, ?_⟩
    rcases ht : T (.l1 (vpn va 2)) with _ | t
    · simp
    have hpage := h.page (by simp) ht
    have h1 := h.valid_link (n := .l0 (vpn va 2) (vpn va 1)) rfl (vpn_lt va 1 (by norm_num)) ht
    rw [tableEntry] at h1
    simp only [Option.isSome_some, Bool.not_true, Bool.false_eq_true, if_false,
      h.entry_link rfl h.root_eq ht, sv39PteLeaf_tableEntry hpage,
      sv39PtePpnToPaddr_tableEntry hpage, h1]
    rcases ht₁ : T (.l0 (vpn va 2) (vpn va 1)) with _ | t₁
    · simp
    have hpage₁ := h.page (by simp) ht₁
    have h0 := h.valid_leaf (vpn_lt va 0 (by norm_num)) ht₁
    rw [tableEntry] at h0
    rw [pageIndex] at hE
    simp only [Option.isSome_some, Bool.not_true, Bool.false_eq_true, if_false,
      h.entry_link rfl ht ht₁, sv39PteLeaf_tableEntry hpage₁,
      sv39PtePpnToPaddr_tableEntry hpage₁, h0, hE, Option.isSome_none, Bool.not_false, if_true]
  · right
    obtain ⟨-, hvalid, t₁, ht₁, hleaf⟩ := h.leaf_some hE
    obtain ⟨-, t, ht, -⟩ := h.link_some rfl ht₁
    have hpage := h.page (by simp) ht
    have hpage₁ := h.page (by simp) ht₁
    rw [tableEntry] at hleaf
    simp only [ht, Option.isSome_some, Bool.not_true, Bool.false_eq_true, if_false,
      h.entry_link rfl h.root_eq ht, sv39PteLeaf_tableEntry hpage,
      sv39PtePpnToPaddr_tableEntry hpage, h.entry_link rfl ht ht₁, sv39PteValid_tableEntry,
      sv39PteLeaf_tableEntry hpage₁, sv39PtePpnToPaddr_tableEntry hpage₁, hleaf,
      hvalid]
    refine ⟨v, _, rfl, rfl, ?_⟩
    exact h.setLeaf (v := 0) ht₁ (vpn_lt va 0 (by norm_num))

end specs

end Octiron.Kernel
