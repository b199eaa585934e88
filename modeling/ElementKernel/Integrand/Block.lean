/-!
Blocks of the element tensor.

A block is one range of degrees of freedom per axis, from the first one to the one past the last.
Blocks are ordered lexicographically.
-/

namespace ElementKernel

abbrev DofBlock := List (Nat × Nat)

namespace DofBlock

def order : DofBlock → DofBlock → Ordering
  | [], [] => .eq
  | [], _ :: _ => .lt
  | _ :: _, [] => .gt
  | a :: as, b :: bs =>
      (compare a.1 b.1).then ((compare a.2 b.2).then (order as bs))

def text (block : DofBlock) : String :=
  "[" ++ ", ".intercalate (block.map fun axis => s!"({axis.1}, {axis.2})") ++ "]"

@[simp] theorem order_self (block : DofBlock) : order block block = .eq := by
  induction block with
  | nil => rfl
  | cons axis rest ih => simp [order, ih]

end DofBlock

end ElementKernel
