import Octiron.Kernel.DeviceSpace
import Octiron.Kernel.Reservations

/-!
# A block for every tree

The format the other way: the blocks that stand for a tree.

* `flattenTokens`, `flattenStrings` — the structure block and the strings block of some tokens.
* `flattened` — both blocks of a tree.
* **Main result** (`encodesTree_flattened`): a tree whose blocks have lengths of 32 bits has a block that
  encodes it.
-/

namespace Octiron.Kernel

open Octiron.Found
open Octiron.Found.Mem
open Octiron.Kzadhbat

/-- The bytes up to the next word.
Source: none: infrastructure
Kind: D -/
def padding (n : ℕ) : List (BitVec 8) := List.replicate (alignUpU32 n - n) 0

/-- **The bytes of tokens**, with the names of the properties from offset `o` of the strings block on.
Source: none: infrastructure
Kind: D -/
def flattenTokens : ℕ → List FdtToken → List (BitVec 8)
  | _, [] => []
  | o, .beginNode name :: ts =>
      beU32 fdtBeginNode ++ (name.val ++ 0 :: (padding (name.val.length + 1) ++ flattenTokens o ts))
  | o, .endNode :: ts => beU32 fdtEndNode ++ flattenTokens o ts
  | o, .prop p :: ts =>
      beU32 fdtProp ++ (beU32 (BitVec.ofNat 32 p.value.length) ++ (beU32 (BitVec.ofNat 32 o) ++
        (p.value ++ (padding p.value.length ++ flattenTokens (o + (p.name.val.length + 1)) ts))))

/-- **The names of the properties**, one after the other.
Source: none: infrastructure
Kind: D -/
def flattenStrings : List FdtToken → List (BitVec 8)
  | [] => []
  | .beginNode _ :: ts => flattenStrings ts
  | .endNode :: ts => flattenStrings ts
  | .prop p :: ts => (p.name.val ++ [0]) ++ flattenStrings ts

/-- **The blocks of a tree**, with the strings at `strings`, and allocations that succeed.
Source: none: infrastructure
Kind: D -/
def flattened (t : FdtTree) (strings : Addr) : DtEnv where
  structs := flattenTokens 0 t.tokens ++ beU32 fdtEnd
  mem := memOf strings (flattenStrings t.tokens)
  strings := strings
  assertions := true
  grants := fun _ => true

section flatten

variable {env : DtEnv} {t : FdtTree} {strings : Addr}

/-- Source: none: infrastructure. Kind: L -/
theorem length_padding {n : ℕ} : n + (padding n).length = alignUpU32 n := by
  have hle : n ≤ alignUpU32 n := by
    unfold alignUpU32
    omega
  unfold padding
  rw [List.length_replicate]
  omega

/-- **Tokens and their bytes**: by induction on the tokens, as the strings of the first come first.
Source: `device_tree.c` `enum dtb_StructureToken`
Kind: P -/
theorem encodes_flatten {ts : List FdtToken} {o : ℕ}
    (hstrings : BytesAt env.mem (env.strings + BitVec.ofNat 64 o) (flattenStrings ts))
    (hoffset : o + (flattenStrings ts).length ≤ 2 ^ 32)
    (hvalues : ∀ p ∈ ts.filterMap FdtToken.property, p.value.length < 2 ^ 32) :
    Encodes env ts (flattenTokens o ts) := by
  induction ts generalizing o with
  | nil => exact .nil
  | cons tok ts ih =>
      cases tok with
      | beginNode name => exact .beginNode length_padding (ih hstrings hoffset hvalues)
      | endNode => exact .endNode (ih hstrings hoffset hvalues)
      | prop p =>
          rw [flattenStrings, List.length_append, List.length_append, List.length_singleton] at hoffset
          have hlen : (p.name.val ++ [0]).length = p.name.val.length + 1 := List.length_append
          obtain ⟨hvalue, hvalues'⟩ := List.forall_mem_cons.mp hvalues
          have hrest := bytesAt_append hstrings
          rw [hlen, BitVec.add_assoc, ← BitVec.ofNat_add] at hrest
          refine .prop ?_ ?_ length_padding (ih hrest (by omega) hvalues')
          · rw [BitVec.toNat_ofNat, Nat.mod_eq_of_lt hvalue]
          · have ho : (BitVec.ofNat 32 o).setWidth 64 = BitVec.ofNat 64 o := by
              refine BitVec.eq_of_toNat_eq ?_
              rw [BitVec.toNat_setWidth, BitVec.toNat_ofNat, BitVec.toNat_ofNat,
                Nat.mod_eq_of_lt (by omega : o < 2 ^ 32)]
            rw [ho]
            exact bytesAt_append_left hstrings

/-- No value is longer than the block.
Source: none: infrastructure
Kind: L -/
theorem value_le_flattenTokens {ts : List FdtToken} {o : ℕ} {p : FdtProp}
    (hp : p ∈ ts.filterMap FdtToken.property) : p.value.length ≤ (flattenTokens o ts).length := by
  induction ts generalizing o with
  | nil => exact absurd hp List.not_mem_nil
  | cons tok ts ih =>
      cases tok with
      | beginNode name =>
          have := ih (o := o) hp
          simp only [flattenTokens, List.length_append, List.length_cons]
          omega
      | endNode =>
          have := ih (o := o) hp
          simp only [flattenTokens, List.length_append]
          omega
      | prop q =>
          simp only [flattenTokens, List.length_append]
          rcases List.mem_cons.mp hp with rfl | hp
          · omega
          · have := ih (o := o + (q.name.val.length + 1)) hp
            omega

/-- **Every tree has a block**.
Source: `device_tree.c` `dt_initialize`
Kind: P
Hyps: the lengths of the blocks have 32 bits -/
theorem encodesTree_flattened (strings : Addr) (hlen : (flattenStrings t.tokens).length ≤ 2 ^ 32)
    (hstructs : (flattenTokens 0 t.tokens).length < 2 ^ 32) : EncodesTree (flattened t strings) t := by
  refine ⟨flattenTokens 0 t.tokens, [], encodes_flatten ?_ (by omega) ?_, ?_⟩
  · rw [BitVec.add_zero]
    exact bytesAt_memOf strings (by omega)
  · exact fun p hp => (value_le_flattenTokens hp).trans_lt hstructs
  · rw [List.append_nil]
    rfl

end flatten

end Octiron.Kernel
