import Mathlib.Data.List.Induction
import Mathlib.Data.List.Nodup
import Mathlib.Data.List.Perm.Basic

/-!
# Association lists

Lists of pairs that are read by `List.lookup`, which finds the first pair with a key. Where each key is there
once, the order of the pairs does not matter.
-/

namespace AssocList

variable {κ ν : Type*} [BEq κ] [LawfulBEq κ] [DecidableEq κ] {l l' : List (κ × ν)} {k : κ} {v : ν}

theorem lookup_cons (p : κ × ν) (l : List (κ × ν)) (k : κ) :
    (p :: l).lookup k = if k = p.1 then some p.2 else l.lookup k := by
  rw [List.lookup_cons]
  by_cases hk : k = p.1
  · rw [if_pos hk, hk, beq_self_eq_true]
  · rw [if_neg hk, beq_eq_false_iff_ne.mpr hk]

theorem lookup_eq_none_iff : l.lookup k = none ↔ k ∉ l.map Prod.fst := by
  induction l with
  | nil => simp
  | cons p l ih =>
    rw [lookup_cons, List.map_cons, List.mem_cons, not_or]
    by_cases hk : k = p.1
    · rw [if_pos hk]
      exact iff_of_false (Option.some_ne_none _) fun h => h.1 hk
    · rw [if_neg hk, ih, and_iff_right hk]

theorem lookup_concat (l : List (κ × ν)) (p : κ × ν) (k : κ) :
    (l ++ [p]).lookup k = (l.lookup k).or (if k = p.1 then some p.2 else none) := by
  rw [List.lookup_append, lookup_cons, List.lookup_nil]

/-! ## Unique keys -/

theorem lookup_eq_some_iff_mem (h : (l.map Prod.fst).Nodup) : l.lookup k = some v ↔ (k, v) ∈ l := by
  induction l with
  | nil => simp
  | cons p l ih =>
    obtain ⟨hnew, hrest⟩ := List.nodup_cons.mp h
    rw [lookup_cons, List.mem_cons]
    by_cases hk : k = p.1
    · subst hk
      have hmem : (p.1, v) ∉ l := fun hm => hnew (List.mem_map.mpr ⟨_, hm, rfl⟩)
      rw [if_pos rfl, or_iff_left hmem, Option.some.injEq, Prod.ext_iff, and_iff_right rfl, eq_comm]
    · have hpair : (k, v) ≠ p := by
        rintro rfl
        exact hk rfl
      rw [if_neg hk, ih hrest, or_iff_right hpair]

/-- The order of the pairs does not change what the list holds. -/
theorem lookup_perm (h : l.Perm l') (hl : (l'.map Prod.fst).Nodup) (k : κ) : l.lookup k = l'.lookup k := by
  have hnodup : (l.map Prod.fst).Nodup := (h.map Prod.fst).nodup_iff.mpr hl
  refine Option.ext fun v => ?_
  rw [lookup_eq_some_iff_mem hnodup, lookup_eq_some_iff_mem hl, h.mem_iff]

theorem lookup_reverse (h : (l.map Prod.fst).Nodup) (k : κ) : l.reverse.lookup k = l.lookup k :=
  lookup_perm l.reverse_perm h k

/-! ## Updates -/

/-- The pairs with a key get another value. -/
theorem lookup_overwrite (l : List (κ × ν)) (k : κ) (v : ν) (j : κ) :
    (l.map fun p => if p.1 = k then (k, v) else p).lookup j =
      if j = k then (l.lookup j).map fun _ => v else l.lookup j := by
  induction l with
  | nil => simp
  | cons p l ih =>
    rw [List.map_cons, lookup_cons, lookup_cons, ih]
    by_cases hk : p.1 = k
    · subst hk
      by_cases hj : j = p.1
      · simp only [if_pos hj, Option.map_some, if_true]
      · simp only [if_neg hj, if_true]
    · rw [if_neg hk]
      by_cases hj : j = p.1
      · rw [if_pos hj, if_pos hj, if_neg fun h => hk (hj.symm.trans h)]
      · rw [if_neg hj, if_neg hj]

/-- The pairs with a key are taken out. -/
theorem lookup_without (l : List (κ × ν)) (j k : κ) :
    (l.filter fun p => p.1 != j).lookup k = if k = j then none else l.lookup k := by
  induction l with
  | nil => simp
  | cons p l ih =>
    rw [List.filter_cons, lookup_cons]
    by_cases hp : p.1 = j
    · rw [if_neg (by simp [hp]), ih]
      by_cases hk : k = j
      · rw [if_pos hk, if_pos hk]
      · rw [if_neg hk, if_neg hk, if_neg fun h => hk (h.trans hp)]
    · rw [if_pos (by simp [hp]), lookup_cons, ih]
      by_cases hk : k = p.1
      · rw [if_pos hk, if_pos hk, if_neg fun h => hp (hk.symm.trans h)]
      · rw [if_neg hk, if_neg hk]

end AssocList
