/-!
# Delta coding

A column of values, each written as its difference to the one before it, and read back by running sums.
The arithmetic may wrap around: all that is needed of it is that a difference leads from its subtrahend
back to its minuend.
-/

namespace DeltaCoding

variable {α : Type} [Add α] [Sub α]

/-- The differences, the first one to `a`. -/
def deltas (a : α) : List α → List α
  | [] => []
  | x :: xs => (x - a) :: deltas x xs

/-- The running sums, from `a` on. -/
def sums (a : α) : List α → List α
  | [] => []
  | d :: ds => (a + d) :: sums (a + d) ds

theorem sums_deltas (h : ∀ a b : α, a + (b - a) = b) (a : α) (xs : List α) :
    sums a (deltas a xs) = xs := by
  induction xs generalizing a with
  | nil => rfl
  | cons x xs ih => rw [deltas, sums, h, ih]

end DeltaCoding
