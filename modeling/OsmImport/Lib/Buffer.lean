import Mathlib.Data.List.Basic
import Mathlib.Data.Vector.Basic

/-!
# Copies between regions of memory

A region of a fixed size is a vector of its cells. A copy names an offset and a length on both sides; one that
reads or writes outside of a region is undefined, here `none`.
-/

namespace Buffer

variable {α : Type*} {n : ℕ}

/-- The `len` cells of `mem` from `off` on. -/
def slice (mem : List α) (off len : ℕ) : Option (List α) :=
  if off + len ≤ mem.length then some ((mem.drop off).take len) else none

/-- The region with `src` at `off`. -/
def copyIn (b : List.Vector α n) (off : ℕ) (src : List α) : Option (List.Vector α n) :=
  if h : off + src.length ≤ n then
    some ⟨b.toList.take off ++ src ++ b.toList.drop (off + src.length), by
      simp only [List.length_append, List.length_take, List.length_drop, List.Vector.toList_length]
      omega⟩
  else none

theorem slice_eq {mem : List α} {off len : ℕ} (h : off + len ≤ mem.length) :
    slice mem off len = some ((mem.drop off).take len) := if_pos h

/-- A slice up to the end. -/
theorem slice_rest {mem : List α} {off len : ℕ} (h : off + len = mem.length) :
    slice mem off len = some (mem.drop off) := by
  rw [slice_eq h.le, List.take_of_length_le (by simp; omega)]

/-- A copy that fits. Up to the end of the copy, the region holds what it held before it, then the copy. -/
theorem copyIn_spec (b : List.Vector α n) {off : ℕ} {src : List α} (h : off + src.length ≤ n) :
    ∃ b', copyIn b off src = some b' ∧
      b'.toList.take (off + src.length) = b.toList.take off ++ src := by
  refine ⟨_, dif_pos h, ?_⟩
  have hlen : (b.toList.take off ++ src).length = off + src.length := by
    rw [List.length_append, List.length_take, List.Vector.toList_length]
    omega
  rw [List.Vector.toList_mk, ← hlen]
  exact List.take_left

end Buffer
