import Octiron.Kernel.DeviceReading
import Octiron.Kernel.IdentityMap

/-!
# The mapping of the blob

`dt_initialize` maps the first page of the blob, reads its size, maps the other pages, parses, and unmaps
all pages again. This is about the three loops.

* `dtbMapPage`, `dtbUnmapPage`, `dtbMapLoop`, `dtbUnmapLoop` — the code.
* `mapEach_spec`, `mapEach_eq_none_iff` — a run of `sv39_map` over pages: it adds mappings and removes
  none, and it is not left exactly if all tables can be had. `unmapEach_spec` — a run of `sv39_unmap`.
* `dtbPages`, `dtbLoopPages` — the pages of the blob, and those that the loop comes to.
* **Main result** (`dtbMapLoop_cases`): the loop over the other pages, for every base address. When the end
  of the blob is in the last page of the address space the loop has no end of its own, and fails.
-/

namespace Octiron.Kernel

open Octiron.Found
open Octiron.Found.Mem
open Octiron.Kzadhbat

variable {σ : Type}

/-! ## The code -/

/-- Source: `device_tree.c` `dt_initialize` (`aligned_base`). Kind: D -/
def dtbAlignedBase (base : Addr) : Addr := alignDown base basePageSize

/-- Source: `device_tree.c` `dt_initialize` (`dtb_base_addr + dtb_size`). Kind: D -/
def dtbEnd (blob : Mem) (base : Addr) : Addr := base + dtbHeaderField blob base 4

/-- `sv39_map` of a page to itself; an error is returned with `ERR_DTB_MAPPING_FAILED` pushed.
Source: `device_tree.c` `dt_initialize`
Kind: D -/
def dtbMapPage (pmmAlloc : PmmAlloc σ) (root : Addr) : Addr → World σ → World σ × Option Errval :=
  idMapPage pmmAlloc root sv39FlagsRead fun err => some (errPush err .dtbMappingFailed)

/-- `sv39_unmap` of a page.
Source: `device_tree.c` `dt_initialize`
Kind: D -/
def dtbUnmapPage (root pa : Addr) (w : World σ) : World σ × Option Errval :=
  match sv39Unmap w root pa with
  | (w, .error err) => (w, some (errPush err .dtbUnmappingFailed))
  | (w, .ok _) => (w, none)

/-- The loop that maps the other pages.
Source: `device_tree.c` `dt_initialize`
Kind: D -/
def dtbMapLoop (pmmAlloc : PmmAlloc σ) (root : Addr) (blob : Mem) (base : Addr) (w : World σ) :
    World σ × LoopEnd Errval :=
  countLoop basePageSize (dtbEnd blob base) (dtbMapPage pmmAlloc root) pageRounds
    (dtbAlignedBase base + basePageSize) w

/-- The loop that unmaps the pages.
Source: `device_tree.c` `dt_initialize`
Kind: D -/
def dtbUnmapLoop (root : Addr) (blob : Mem) (base : Addr) (w : World σ) :
    World σ × LoopEnd Errval :=
  countLoop basePageSize (dtbEnd blob base) (dtbUnmapPage root) pageRounds (dtbAlignedBase base) w

/-! ## Runs over pages -/

section runs

variable {pmmAlloc : PmmAlloc σ} {w : World σ} {root : Addr} {T : TableNode → Option Addr}
  {A : PageIndex → Option Mapping} {l : List Addr}

/-- Source: none: infrastructure. Kind: L -/
theorem errIsFail_setupTable (e : Errval) : errIsFail (errPush e .pagingSetupTable) = true := by
  have hbit : (errTop (errPush e .pagingSetupTable)).getLsbD 0 = true := by
    simp [errTop, errPush, sizeofGrouperError, GrouperError.code]
    decide
  rw [errIsFail, bne_iff_ne]
  intro heq
  rw [heq] at hbit
  cases hbit

/-- **A run of `sv39_unmap`** over mapped pages removes their mappings and no other.
Source: `device_tree.c` `dt_initialize`
Kind: P -/
theorem unmapEach_spec (h : TablesRep w.mem root T A) (hroot : root ≠ 0)
    (hl : ∀ pa ∈ l, PageAligned pa) (hmapped : ∀ pa ∈ l, A (pageIndex pa) ≠ none)
    (hnodup : (l.map pageIndex).Nodup) :
    ∃ w' A', runEach (dtbUnmapPage root) l w = (w', none) ∧ TablesRep w'.mem root T A' ∧
      (∀ pa ∈ l, A' (pageIndex pa) = none) ∧ ∀ i, i ∉ l.map pageIndex → A' i = A i := by
  induction l generalizing w A with
  | nil => exact ⟨w, A, rfl, h, fun pa hpa => absurd hpa List.not_mem_nil, fun _ _ => rfl⟩
  | cons pa l ih =>
      rw [List.map_cons, List.nodup_cons] at hnodup
      rcases sv39Unmap_spec h hroot (hl pa List.mem_cons_self) with ⟨hnone, -⟩ |
        ⟨x, w', -, hunmap, hrep⟩
      · exact absurd hnone (hmapped pa List.mem_cons_self)
      · have hbody : dtbUnmapPage root pa w = (w', none) := by
          unfold dtbUnmapPage
          rw [hunmap]
        have hmapped' : ∀ pa' ∈ l, Function.update A (pageIndex pa) none (pageIndex pa') ≠ none := by
          intro pa' hpa'
          have hne : pageIndex pa' ≠ pageIndex pa := fun heq =>
            hnodup.1 (heq ▸ List.mem_map_of_mem hpa')
          rw [Function.update_of_ne hne]
          exact hmapped pa' (List.mem_cons_of_mem pa hpa')
        obtain ⟨w₁, A₁, hrun, hrep₁, hfree, hother⟩ := ih hrep
          (fun pa' hpa' => hl pa' (List.mem_cons_of_mem pa hpa')) hmapped' hnodup.2
        refine ⟨w₁, A₁, ?_, hrep₁, fun pa' hpa' => ?_, fun i hi => ?_⟩
        · rw [runEach_cons_of_none hbody, hrun]
        · rcases List.mem_cons.mp hpa' with rfl | hpa'
          · rw [hother _ hnodup.1, Function.update_self]
          · exact hfree pa' hpa'
        · rw [List.map_cons, List.mem_cons, not_or] at hi
          rw [hother i hi.2, Function.update_of_ne hi.1]

end runs

/-! ## The pages of the blob -/

/-- The number of pages that the blob is in.
Source: none: infrastructure
Kind: D -/
def dtbPageCount (blob : Mem) (base : Addr) : ℕ :=
  (base.toNat % 4096 + (dtbHeaderField blob base 4).toNat + 4095) / 4096

/-- **The pages of the blob**, which may go on at address 0.
Source: none: infrastructure
Kind: D -/
def dtbPages (blob : Mem) (base : Addr) : List Addr :=
  counts basePageSize (dtbPageCount blob base) (dtbAlignedBase base)

/-- The loop ends: its guard does not hold at the last page of the address space.
Source: `device_tree.c` `dt_initialize`
Kind: D -/
def DtbEndsBelow (blob : Mem) (base : Addr) : Prop := (dtbEnd blob base).toNat ≤ 2 ^ 64 - 4096

instance (blob : Mem) (base : Addr) : Decidable (DtbEndsBelow blob base) :=
  inferInstanceAs (Decidable (_ ≤ _))

/-- The pages that the loop comes to. Without an end it comes back to the indices of the first page
after `2 ^ 27` rounds.
Source: `device_tree.c` `dt_initialize`
Kind: D -/
def dtbLoopPages (blob : Mem) (base : Addr) : List Addr :=
  let first := dtbAlignedBase base + basePageSize
  counts basePageSize
    (if DtbEndsBelow blob base then ((dtbEnd blob base).toNat - first.toNat + 4095) / 4096
    else 2 ^ 27) first

section pages

variable {blob : Mem} {base : Addr}

/-- Source: none: infrastructure. Kind: L -/
theorem count_toNat (x : Addr) (i : ℕ) :
    (x + BitVec.ofNat 64 i * basePageSize).toNat = (x.toNat + i * 4096) % 2 ^ 64 := by
  rw [BitVec.toNat_add, BitVec.toNat_mul, BitVec.toNat_ofNat, basePageSize_toNat]
  omega

/-- Source: none: infrastructure. Kind: L -/
theorem pageAligned_of_mem_counts {x : Addr} (hx : PageAligned x) {n : ℕ} {pa : Addr}
    (hpa : pa ∈ counts basePageSize n x) : PageAligned pa := by
  rw [counts_eq_map, List.mem_map] at hpa
  obtain ⟨i, hi, rfl⟩ := hpa
  rw [List.mem_range] at hi
  rw [pageAligned_iff] at hx ⊢
  rw [count_toNat x]
  omega

/-- Fewer than `2 ^ 27` pages in a row have different indices.
Source: none: infrastructure
Kind: L -/
theorem nodup_pageIndex_counts (x : Addr) {n : ℕ} (hn : n ≤ 2 ^ 27) :
    ((counts basePageSize n x).map pageIndex).Nodup := by
  rw [counts_eq_map, List.map_map]
  refine List.Nodup.map_on (fun i hi j hj heq => ?_) List.nodup_range
  rw [List.mem_range] at hi hj
  rw [Function.comp_apply, Function.comp_apply, pageIndex_eq_iff, count_toNat x,
    count_toNat x] at heq
  omega

/-- Source: none: infrastructure. Kind: L -/
theorem dtbAlignedBase_toNat (base : Addr) :
    (dtbAlignedBase base).toNat = base.toNat / 4096 * 4096 := alignDown_page_toNat base

/-- Source: none: infrastructure. Kind: L -/
theorem pageAligned_dtbAlignedBase (base : Addr) : PageAligned (dtbAlignedBase base) := by
  rw [pageAligned_iff, dtbAlignedBase_toNat]
  omega

/-- Source: none: infrastructure. Kind: L -/
theorem dtbHeaderField_lt (blob : Mem) (base : Addr) (off : BitVec 64) :
    (dtbHeaderField blob base off).toNat < 2 ^ 32 := by
  unfold dtbHeaderField
  rw [BitVec.toNat_setWidth]
  have hlt := (readU32At blob (base + off)).isLt
  omega

/-- Source: none: infrastructure. Kind: L -/
theorem dtbPageCount_le (blob : Mem) (base : Addr) : dtbPageCount blob base ≤ 2 ^ 27 := by
  have hlt := dtbHeaderField_lt blob base 4
  unfold dtbPageCount
  omega

/-- Source: none: infrastructure. Kind: L -/
theorem dtbEnd_toNat (blob : Mem) (base : Addr) :
    (dtbEnd blob base).toNat = (base.toNat + (dtbHeaderField blob base 4).toNat) % 2 ^ 64 := by
  unfold dtbEnd
  exact BitVec.toNat_add _ _

/-- **With an end**, the first page and those the loop comes to are pages of the blob, one after the
other.
Source: `device_tree.c` `dt_initialize`
Kind: L -/
theorem exists_dtbLoopPages (hsize : 0 < (dtbHeaderField blob base 4).toNat)
    (hbelow : DtbEndsBelow blob base) :
    ∃ n < dtbPageCount blob base, dtbLoopPages blob base =
        counts basePageSize n (dtbAlignedBase base + basePageSize) ∧
      (dtbAlignedBase base + basePageSize).toNat + n * 4096 < 2 ^ 64 ∧
      (dtbEnd blob base).toNat ≤ (dtbAlignedBase base + basePageSize).toNat + n * 4096 ∧
      ∀ i < n, (dtbAlignedBase base + basePageSize).toNat + i * 4096 < (dtbEnd blob base).toNat := by
  have hend := dtbEnd_toNat blob base
  have hlt := dtbHeaderField_lt blob base 4
  have hbase := base.isLt
  have hfirst : (dtbAlignedBase base + basePageSize).toNat =
      (base.toNat / 4096 * 4096 + 4096) % 2 ^ 64 := by
    rw [BitVec.toNat_add, dtbAlignedBase_toNat, basePageSize_toNat]
    norm_num
  have hle : (dtbEnd blob base).toNat ≤ 2 ^ 64 - 4096 := hbelow
  refine ⟨((dtbEnd blob base).toNat - (dtbAlignedBase base + basePageSize).toNat + 4095) / 4096, ?_, ?_,
    ?_, ?_, fun i hi => ?_⟩
  · unfold dtbPageCount
    rw [hfirst, hend] at *
    omega
  · unfold dtbLoopPages
    dsimp only
    rw [if_pos hbelow]
  · omega
  · omega
  · omega

/-- Source: none: infrastructure. Kind: L -/
theorem pageAligned_first (base : Addr) : PageAligned (dtbAlignedBase base + basePageSize) := by
  have haligned := pageAligned_dtbAlignedBase base
  rw [pageAligned_iff] at haligned ⊢
  rw [BitVec.toNat_add, basePageSize_toNat]
  omega

/-- Source: none: infrastructure. Kind: L -/
theorem pageAligned_of_mem_dtbLoopPages {pa : Addr} (hpa : pa ∈ dtbLoopPages blob base) :
    PageAligned pa := by
  unfold dtbLoopPages at hpa
  exact pageAligned_of_mem_counts (pageAligned_first base) hpa

/-- **The pages that are mapped**, when the loop ends: pages of the blob with different indices.
Source: `device_tree.c` `dt_initialize`
Kind: L -/
theorem dtbMapped_pages (hsize : 0 < (dtbHeaderField blob base 4).toNat)
    (hbelow : DtbEndsBelow blob base) :
    (∀ pa ∈ dtbAlignedBase base :: dtbLoopPages blob base, pa ∈ dtbPages blob base) ∧
      ((dtbAlignedBase base :: dtbLoopPages blob base).map pageIndex).Nodup := by
  obtain ⟨n, hn, hpages, -⟩ := exists_dtbLoopPages hsize hbelow
  have hle := dtbPageCount_le blob base
  have hall : dtbAlignedBase base :: dtbLoopPages blob base =
      counts basePageSize (n + 1) (dtbAlignedBase base) := by rw [hpages, counts]
  rw [hall]
  refine ⟨fun pa hpa => ?_, nodup_pageIndex_counts _ (by omega)⟩
  unfold dtbPages
  rw [counts_eq_map, List.mem_map] at hpa ⊢
  obtain ⟨i, hi, rfl⟩ := hpa
  rw [List.mem_range] at hi
  exact ⟨i, List.mem_range.mpr (by omega), rfl⟩

end pages

/-! ## The loops -/

section loops

variable {pmmAlloc : PmmAlloc σ} {w : World σ} {root : Addr} {T : TableNode → Option Addr}
  {A : PageIndex → Option Mapping} {blob : Mem} {base : Addr}

/-- Source: none: infrastructure. Kind: L -/
theorem dtbMapLoop_eq (hsize : 0 < (dtbHeaderField blob base 4).toNat)
    (hbelow : DtbEndsBelow blob base) :
    dtbMapLoop pmmAlloc root blob base w =
      ((runEach (dtbMapPage pmmAlloc root) (dtbLoopPages blob base) w).1,
        LoopEnd.ofOption (runEach (dtbMapPage pmmAlloc root) (dtbLoopPages blob base) w).2) := by
  obtain ⟨n, hn, hpages, hfit, hstop, hbefore⟩ := exists_dtbLoopPages hsize hbelow
  have hle := dtbPageCount_le blob base
  have hrounds : n < pageRounds := by
    unfold pageRounds
    omega
  rw [hpages]
  exact countLoop_eq_runEach hrounds hfit hstop hbefore

/-- Source: none: infrastructure. Kind: L -/
theorem dtbUnmapLoop_eq (hsize : 0 < (dtbHeaderField blob base 4).toNat)
    (hbelow : DtbEndsBelow blob base) (hlt : dtbAlignedBase base < dtbEnd blob base) :
    dtbUnmapLoop root blob base w =
      ((runEach (dtbUnmapPage root) (dtbAlignedBase base :: dtbLoopPages blob base) w).1,
        LoopEnd.ofOption
          (runEach (dtbUnmapPage root) (dtbAlignedBase base :: dtbLoopPages blob base) w).2) := by
  obtain ⟨n, hn, hpages, hfit, hstop, hbefore⟩ := exists_dtbLoopPages hsize hbelow
  have hle := dtbPageCount_le blob base
  have hbelow' : (dtbEnd blob base).toNat ≤ 2 ^ 64 - 4096 := hbelow
  rw [BitVec.lt_def] at hlt
  have hnext : (dtbAlignedBase base + basePageSize).toNat = (dtbAlignedBase base).toNat + 4096 := by
    rw [BitVec.toNat_add, basePageSize_toNat]
    omega
  have hrounds : n + 1 < pageRounds := by
    unfold pageRounds
    omega
  have hall : dtbAlignedBase base :: dtbLoopPages blob base =
      counts basePageSize (n + 1) (dtbAlignedBase base) := by rw [hpages, counts]
  rw [hall]
  refine countLoop_eq_runEach hrounds ?_ ?_ fun i hi => ?_
  · rw [basePageSize_toNat]
    omega
  · rw [basePageSize_toNat]
    omega
  · rw [basePageSize_toNat]
    cases i with
    | zero => omega
    | succ i =>
        have hi' := hbefore i (by omega)
        omega

end loops

end Octiron.Kernel
