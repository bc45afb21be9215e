import Octiron.Kernel.PageTrees

/-!
# Page tables that hold mappings

* `Mapping` — a physical page and flags that a leaf can hold.
* `TablesRep m root T A` — memory `m` holds a three-level tree of tables: `T` gives the address of
  each table in use, no two of them the same, and `A` the mapping at each index triple. Every entry
  above the leaves is invalid or links the table `T` has there. By `tablesRep_iff` it is the tree
  of `EntriesRep` with the packed mappings as its entries.
* **Main results**: `sv39Map_spec` and `sv39Unmap_spec`, one call on a represented tree.
-/

namespace Octiron.Kernel

open Octiron.Found
open Octiron.Found.Mem
open Octiron.Kzadhbat

variable {σ : Type}

/-! ## Trees of tables with mappings -/

/-- What a virtual page can be mapped to.
Source: `paging.h` `sv39_map`
Kind: D -/
structure Mapping where
  /-- The physical page. -/
  pa : Addr
  /-- The flags. -/
  flags : BitVec 64
  page : Sv39Page pa
  leafFlags : LeafFlags flags

/-- The leaf entry of a mapping.
Source: `paging.c` `sv39_map_small_page`
Kind: D -/
def Mapping.entry (x : Mapping) : BitVec 64 := sv39LeafEntry x.pa x.flags

/-- **Memory holds the tree of tables `T` with the mappings `A`.**
Source: none: infrastructure
Kind: D -/
structure TablesRep (m : Mem) (root : Addr) (T : TableNode → Option Addr)
    (A : PageIndex → Option Mapping) : Prop where
  root_eq : T .root = some root
  root_aligned : PageAligned root
  page : ∀ {n p}, n ≠ .root → T n = some p → Sv39Page p
  inj : ∀ {n n' p}, T n = some p → T n' = some p → n = n'
  link_some : ∀ {n p u i}, n.parent = some (u, i) → T n = some p →
    i.toNat < 512 ∧ ∃ t, T u = some t ∧ tableEntry m t i = sv39TableEntry p
  link_none : ∀ {n u i t}, n.parent = some (u, i) → i.toNat < 512 → T u = some t → T n = none →
    sv39PteValid (tableEntry m t i) = false
  leaf_some : ∀ {i j k x}, A ⟨i, j, k⟩ = some x →
    k.toNat < 512 ∧ ∃ t, T (.l0 i j) = some t ∧ tableEntry m t k = x.entry
  leaf_none : ∀ {i j k t}, k.toNat < 512 → T (.l0 i j) = some t → A ⟨i, j, k⟩ = none →
    sv39PteValid (tableEntry m t k) = false

/-- The packed mappings.
Source: none: infrastructure
Kind: D -/
def packed (A : PageIndex → Option Mapping) : PageIndex → Option (BitVec 64) :=
  fun i => (A i).map Mapping.entry

section rep

variable {m m' : Mem} {root : Addr} {T : TableNode → Option Addr} {A : PageIndex → Option Mapping}

/-- Source: none: infrastructure. Kind: L -/
theorem packed_update (A : PageIndex → Option Mapping) (i : PageIndex) (x : Option Mapping) :
    packed (Function.update A i x) = Function.update (packed A) i (x.map Mapping.entry) := by
  funext j
  by_cases hj : j = i
  · rw [hj, packed, Function.update_self, Function.update_self]
  · rw [packed, Function.update_of_ne hj, Function.update_of_ne hj, packed]

/-- Source: none: infrastructure. Kind: L -/
@[simp] theorem packed_eq_none_iff {i : PageIndex} : packed A i = none ↔ A i = none := by
  simp [packed]

/-- **Mappings are entries**: the tree with the mappings `A` is the tree with the packed entries.
Source: none: infrastructure
Kind: L -/
theorem tablesRep_iff : TablesRep m root T A ↔ EntriesRep m root T (packed A) := by
  constructor
  · intro h
    refine ⟨h.root_eq, h.root_aligned, h.page, h.inj, h.link_some, h.link_none, ?_, ?_⟩
    · intro i j k v hv
      obtain ⟨x, hx, rfl⟩ := Option.map_eq_some_iff.mp hv
      obtain ⟨hk, t, ht, hleaf⟩ := h.leaf_some hx
      exact ⟨hk, sv39PteValid_leafEntry x.pa x.flags, t, ht, hleaf⟩
    · intro i j k t hk ht hv
      exact h.leaf_none hk ht (packed_eq_none_iff.mp hv)
  · intro h
    refine ⟨h.root_eq, h.root_aligned, h.page, h.inj, h.link_some, h.link_none, ?_, ?_⟩
    · intro i j k x hx
      have hv : packed A ⟨i, j, k⟩ = some x.entry := by rw [packed, hx, Option.map_some]
      obtain ⟨hk, -, t, ht, hleaf⟩ := h.leaf_some hv
      exact ⟨hk, t, ht, hleaf⟩
    · intro i j k t hk ht hx
      exact h.leaf_none hk ht (packed_eq_none_iff.mpr hx)

/-- Source: none: infrastructure. Kind: L -/
theorem TablesRep.entries (h : TablesRep m root T A) : EntriesRep m root T (packed A) :=
  tablesRep_iff.mp h

/-- Source: none: infrastructure. Kind: L -/
theorem TablesRep.aligned (h : TablesRep m root T A) {n : TableNode} {p : Addr}
    (hn : T n = some p) : PageAligned p :=
  h.entries.aligned hn

/-- The representation only reads the entries of the tables in use.
Source: none: infrastructure
Kind: L -/
theorem TablesRep.congr (h : TablesRep m root T A)
    (heq : ∀ n p, T n = some p → PageEq m' m p) : TablesRep m' root T A :=
  tablesRep_iff.mpr (h.entries.congr heq)

/-- **Linking a fresh zeroed table** changes no mapping.
Source: none: infrastructure
Kind: L -/
theorem TablesRep.link (h : TablesRep m root T A) {n u : TableNode} {i : BitVec 64} {t p : Addr}
    (hpar : n.parent = some (u, i)) (hi : i.toNat < 512) (ht : T u = some t) (hn : T n = none)
    (hp : Sv39Page p) (hfresh : ∀ n' q, T n' = some q → q ≠ p) (hzero : PageZero m p) :
    TablesRep (store64 m (slot t i) (sv39TableEntry p)) root (Function.update T n (some p)) A :=
  tablesRep_iff.mpr (h.entries.link hpar hi ht hn hp hfresh hzero)

/-- A zero root holds no mapping.
Source: none: infrastructure
Kind: L -/
theorem tablesRep_zero (hroot : PageAligned root) (hzero : PageZero m root) :
    TablesRep m root (fun n => if n = .root then some root else none) (fun _ => none) :=
  tablesRep_iff.mpr (entriesRep_zero hroot hzero)

/-- **The walk finds the mapping.**
Source: none: infrastructure
Kind: L -/
theorem TablesRep.walk (h : TablesRep m root T A) (va : Addr) :
    sv39Walk m va 2 root = (A (pageIndex va)).map fun x => (0, x.entry) := by
  rw [h.entries.walk va, packed, Option.map_map]
  rfl

end rep

/-! ## One call on a represented tree -/

section specs

variable {pmmAlloc : PmmAlloc σ} {w : World σ} {root : Addr} {T : TableNode → Option Addr}
  {A : PageIndex → Option Mapping}

/-- The tables of the representation are in use.
Source: none: infrastructure
Kind: L -/
theorem TablesRep.tableAt (h : TablesRep w.mem root T A) {n : TableNode} {p : Addr}
    (hn : T n = some p) : TableAt w.mem root n.level p :=
  h.entries.tableAt hn

/-- Every table in use is one of the representation.
Source: none: infrastructure
Kind: L -/
theorem TablesRep.exists_of_tableAt (h : TablesRep w.mem root T A) {level : ℕ} {t : Addr}
    (ht : TableAt w.mem root level t) : ∃ n : TableNode, n.level = level ∧ T n = some t :=
  h.entries.exists_of_tableAt ht

/-- **`sv39_map`**: it maps an unmapped page when its table allocations succeed, and otherwise says
why not and changes no mapping, even if it has set up a table.
Source: `paging.c` `sv39_map`, `sv39_map_small_page`
Kind: P
Fidelity: exact -/
theorem sv39Map_spec (h : TablesRep w.mem root T A) (hroot : root ≠ 0) {va : Addr}
    (hva : PageAligned va) (x : Mapping) (hok : PmmCallsOk pmmAlloc root w va) :
    ∃ w' e T', sv39Map pmmAlloc w root va x.pa x.flags .page = (w', e) ∧
      ((A (pageIndex va) = none ∧ tablesAvailable pmmAlloc w root va = true ∧
          e = GrouperError.ok.errval ∧
          TablesRep w'.mem root T' (Function.update A (pageIndex va) (some x))) ∨
        (A (pageIndex va) ≠ none ∧ e = GrouperError.pagingMappingExists.errval ∧
          TablesRep w'.mem root T' A) ∨
        (A (pageIndex va) = none ∧ tablesAvailable pmmAlloc w root va = false ∧
          (∃ e', e = errPush e' .pagingSetupTable) ∧ TablesRep w'.mem root T' A)) := by
  obtain ⟨w', e, T', hmap, hcases⟩ :=
    sv39Map_entries h.entries hroot hva x.page.aligned x.flags hok
  refine ⟨w', e, T', hmap, ?_⟩
  simp only [packed_eq_none_iff, ne_eq] at hcases
  rcases hcases with ⟨hnone, havail, he, hrep⟩ | ⟨hsome, he, hrep⟩ | ⟨hnone, havail, he, hrep⟩
  · refine Or.inl ⟨hnone, havail, he, tablesRep_iff.mpr ?_⟩
    rw [packed_update]
    exact hrep
  · exact Or.inr (Or.inl ⟨hsome, he, tablesRep_iff.mpr hrep⟩)
  · exact Or.inr (Or.inr ⟨hnone, havail, he, tablesRep_iff.mpr hrep⟩)

/-- **`sv39_unmap`** removes the mapping and returns its physical page, or says there is none and
changes nothing.
Source: `paging.c` `sv39_unmap`
Kind: P
Fidelity: exact -/
theorem sv39Unmap_spec (h : TablesRep w.mem root T A) (hroot : root ≠ 0) {va : Addr}
    (hva : PageAligned va) :
    (A (pageIndex va) = none ∧
      sv39Unmap w root va = (w, .error GrouperError.pagingMappingDoesntExist.errval)) ∨
    ∃ x w', A (pageIndex va) = some x ∧ sv39Unmap w root va = (w', .ok x.pa) ∧
      TablesRep w'.mem root T (Function.update A (pageIndex va) none) := by
  rcases sv39Unmap_entries h.entries hroot hva with ⟨hnone, hunmap⟩ | ⟨v, w', hsome, hunmap, hrep⟩
  · exact Or.inl ⟨packed_eq_none_iff.mp hnone, hunmap⟩
  · obtain ⟨x, hx, rfl⟩ := Option.map_eq_some_iff.mp hsome
    have hpa : sv39PtePpnToPaddr x.entry = x.pa := sv39PtePpnToPaddr_leafEntry x.page x.leafFlags
    refine Or.inr ⟨x, w', hx, by rw [hunmap, hpa], tablesRep_iff.mpr ?_⟩
    rw [packed_update]
    exact hrep

end specs

end Octiron.Kernel
