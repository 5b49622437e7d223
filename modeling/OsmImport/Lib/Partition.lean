import Mathlib.Data.List.Nodup
import Mathlib.Data.List.Perm.Basic
import Mathlib.Data.List.Range

/-!
# A list distributed over classes

The members of a list, collected class by class, are the members of the list in another order.
-/

variable {ι α : Type*} [DecidableEq ι]

/-- One more member in one of the classes. -/
theorem perm_flatMap_cons_one {ks : List ι} (hnd : ks.Nodup) {a : ι} (ha : a ∈ ks) (x : α)
    (F : ι → List α) :
    (ks.flatMap fun i => if i = a then x :: F i else F i).Perm (x :: ks.flatMap F) := by
  induction ks with
  | nil => simp at ha
  | cons k ks ih =>
    obtain ⟨hk, hnd'⟩ := List.nodup_cons.mp hnd
    rw [List.flatMap_cons, List.flatMap_cons]
    by_cases hka : k = a
    · have hrest : (ks.flatMap fun i => if i = a then x :: F i else F i) = ks.flatMap F :=
        List.flatMap_congr fun i hi => if_neg fun h => hk (by rw [hka, ← h]; exact hi)
      rw [if_pos hka, hrest, List.cons_append]
    · have ha' : a ∈ ks := (List.mem_cons.mp ha).resolve_left (Ne.symm hka)
      rw [if_neg hka]
      exact ((ih hnd' ha').append_left (F k)).trans List.perm_middle

/-- Collecting by class permutes the list. -/
theorem perm_flatMap_filter {ks : List ι} (hnd : ks.Nodup) (f : α → ι) {l : List α}
    (h : ∀ x ∈ l, f x ∈ ks) : (ks.flatMap fun i => l.filter fun x => f x = i).Perm l := by
  induction l with
  | nil => simp
  | cons x l ih =>
    have hx := h x List.mem_cons_self
    have heq : (ks.flatMap fun i => (x :: l).filter fun y => f y = i) =
        ks.flatMap fun i => if i = f x then x :: l.filter (fun y => f y = i)
          else l.filter fun y => f y = i := by
      refine List.flatMap_congr fun i _ => ?_
      by_cases hi : i = f x
      · simp [hi]
      · simp [hi, Ne.symm hi]
    rw [heq]
    exact (perm_flatMap_cons_one hnd hx x _).trans
      ((ih fun y hy => h y (List.mem_cons_of_mem _ hy)).cons x)
