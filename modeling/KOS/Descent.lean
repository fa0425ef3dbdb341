import Mathlib

/-! Descents along a relation: a recursion that visits every successor of a node, and the nodes from which
it comes to an end. On a finite type these are the nodes that reach no cycle. Nothing here names a
program. -/

namespace KOS.Descent
open Relation

variable {α : Type*} {r : α → α → Prop}

/-- Every descent from `x` ends within `n` visits. -/
def Ends (r : α → α → Prop) : Nat → α → Prop
  | 0, _ => False
  | n + 1, x => ∀ y, r x y → Ends r n y

theorem Ends.mono {n k : Nat} {x : α} (ends : Ends r n x) (more : n ≤ k) : Ends r k x := by
  induction n generalizing k x with
  | zero => exact ends.elim
  | succ n ih =>
    cases k with
    | zero => omega
    | succ k =>
      intro y step
      exact ih (ends y step) (Nat.le_of_succ_le_succ more)

end KOS.Descent
