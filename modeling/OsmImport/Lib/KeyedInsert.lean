import Mathlib.Data.List.Basic

/-!
# Inserting rows under a primary key

A table takes a row if the row is valid and its key is not there yet. `keep` is what a sequence of rows
leaves behind when each row is offered on its own, and `firstBad` is the position that a server reports
when it is offered the whole sequence in one transaction. Taking the reported row out and trying again
leads to `keep` (`keep_eraseIdx`), and offering the rows in two batches gives the same as offering them
in one (`keep_append`).
-/

namespace KeyedInsert

variable {α κ : Type*} [DecidableEq κ] (key : α → κ) (ok : α → Bool)

/-- The rows that are taken, with `seen` the keys that are there. -/
def keep (seen : List κ) : List α → List α
  | [] => []
  | a :: l => if ok a = true ∧ key a ∉ seen then a :: keep (key a :: seen) l else keep seen l

/-- The position of the first row that is not taken. -/
def firstBad (seen : List κ) : List α → Option ℕ
  | [] => none
  | a :: l =>
    if ok a = true ∧ key a ∉ seen then (firstBad (key a :: seen) l).map (· + 1) else some 0

variable {key ok}

@[simp] theorem keep_nil (seen : List κ) : keep key ok seen [] = [] := rfl

/-- Only the keys of the valid rows matter. -/
theorem keep_congr {s t : List κ} {l : List α}
    (h : ∀ a ∈ l, ok a = true → (key a ∈ s ↔ key a ∈ t)) : keep key ok s l = keep key ok t l := by
  induction l generalizing s t with
  | nil => rfl
  | cons a l ih =>
    have hl : ∀ b ∈ l, ok b = true → (key b ∈ s ↔ key b ∈ t) :=
      fun b hb => h b (List.mem_cons_of_mem _ hb)
    have hcons : keep key ok (key a :: s) l = keep key ok (key a :: t) l := by
      apply ih
      intro b hb hok
      rw [List.mem_cons, List.mem_cons, hl b hb hok]
    by_cases hok : ok a = true
    · simp only [keep, h a List.mem_cons_self hok, ih hl, hcons]
    · rw [keep, if_neg fun ha => hok ha.1, keep, if_neg fun ha => hok ha.1, ih hl]

theorem keep_sublist (seen : List κ) (l : List α) : (keep key ok seen l).Sublist l := by
  induction l generalizing seen with
  | nil => exact List.Sublist.slnil
  | cons a l ih =>
    unfold keep
    split
    · exact (ih _).cons_cons a
    · exact (ih _).cons a

/-- Two batches, one after the other. -/
theorem keep_append (seen : List κ) (a b : List α) :
    keep key ok seen (a ++ b) =
      keep key ok seen a ++ keep key ok (seen ++ (keep key ok seen a).map key) b := by
  induction a generalizing seen with
  | nil => simp
  | cons x a ih =>
    by_cases hx : ok x = true ∧ key x ∉ seen
    · have hseen : keep key ok (key x :: (seen ++ (keep key ok (key x :: seen) a).map key)) b =
          keep key ok (seen ++ key x :: (keep key ok (key x :: seen) a).map key) b := by
        apply keep_congr
        intro y _ _
        simp only [List.mem_append, List.mem_cons]
        tauto
      rw [List.cons_append, keep, if_pos hx, keep, if_pos hx, ih, List.cons_append, hseen]
      rfl
    · rw [List.cons_append, keep, if_neg hx, keep, if_neg hx, ih]

/-- A sequence without a bad row is taken as it is. -/
theorem keep_of_firstBad_none {seen : List κ} {l : List α} (h : firstBad key ok seen l = none) :
    keep key ok seen l = l := by
  induction l generalizing seen with
  | nil => rfl
  | cons a l ih =>
    unfold firstBad at h
    split at h
    · rename_i ha
      rw [keep, if_pos ha, ih (Option.map_eq_none_iff.mp h)]
    · cases h

theorem firstBad_of_keep {seen : List κ} {l : List α} (h : keep key ok seen l = l) :
    firstBad key ok seen l = none := by
  induction l generalizing seen with
  | nil => rfl
  | cons a l ih =>
    unfold keep at h
    split at h
    · rename_i ha
      rw [firstBad, if_pos ha, ih (List.cons.inj h).2]
      rfl
    · have hlen : (keep key ok seen l).length ≤ l.length := (keep_sublist seen l).length_le
      rw [h, List.length_cons] at hlen
      omega

/-- The reported row is one that is not taken: without it, the same rows are taken. -/
theorem keep_eraseIdx {seen : List κ} {l : List α} {i : ℕ} (h : firstBad key ok seen l = some i) :
    i < l.length ∧ keep key ok seen (l.eraseIdx i) = keep key ok seen l := by
  induction l generalizing seen i with
  | nil => cases h
  | cons a l ih =>
    unfold firstBad at h
    split at h
    · rename_i ha
      obtain ⟨j, hj, rfl⟩ := Option.map_eq_some_iff.mp h
      obtain ⟨hlt, hkeep⟩ := ih hj
      refine ⟨by simpa using hlt, ?_⟩
      rw [List.eraseIdx_cons_succ, keep, if_pos ha, hkeep, keep, if_pos ha]
    · rename_i ha
      obtain rfl := Option.some.inj h
      refine ⟨by simp, ?_⟩
      rw [List.eraseIdx_cons_zero, keep, if_neg ha]

/-- A row that is taken is valid and has a new key. -/
theorem mem_keep {seen : List κ} {l : List α} {a : α} (h : a ∈ keep key ok seen l) :
    a ∈ l ∧ ok a = true ∧ key a ∉ seen := by
  induction l generalizing seen with
  | nil => cases h
  | cons b l ih =>
    unfold keep at h
    split at h
    · rename_i hb
      rcases List.mem_cons.mp h with rfl | h
      · exact ⟨List.mem_cons_self, hb⟩
      · obtain ⟨hl, hok, hk⟩ := ih h
        exact ⟨List.mem_cons_of_mem _ hl, hok, fun hs => hk (List.mem_cons_of_mem _ hs)⟩
    · obtain ⟨hl, h⟩ := ih h
      exact ⟨List.mem_cons_of_mem _ hl, h⟩

/-- Rows whose keys are there are not taken. -/
theorem keep_of_seen {seen : List κ} {l : List α} (h : ∀ a ∈ l, key a ∈ seen) :
    keep key ok seen l = [] :=
  List.eq_nil_iff_forall_not_mem.mpr fun a ha => by
    obtain ⟨hl, -, hk⟩ := mem_keep ha
    exact hk (h a hl)

/-- Rows with different keys do not get in each other's way. -/
theorem keep_eq_filter {seen : List κ} {l : List α} (h : (l.map key).Nodup) :
    keep key ok seen l = l.filter fun a => ok a && decide (key a ∉ seen) := by
  induction l generalizing seen with
  | nil => rfl
  | cons a l ih =>
    rw [List.map_cons, List.nodup_cons] at h
    have hseen : keep key ok (key a :: seen) l = keep key ok seen l := by
      apply keep_congr
      intro b hb _
      have hne : key b ≠ key a := fun hk => h.1 (List.mem_map.mpr ⟨b, hb, hk⟩)
      rw [List.mem_cons, or_iff_right hne]
    by_cases ha : ok a = true ∧ key a ∉ seen
    · rw [keep, if_pos ha, hseen, ih h.2, List.filter_cons_of_pos (by simpa using ha)]
    · rw [keep, if_neg ha, ih h.2, List.filter_cons_of_neg (by simpa using ha)]

/-- In which order they are inserted does not matter. -/
theorem keep_perm {seen : List κ} {l l' : List α} (h : l.Perm l') (hnd : (l.map key).Nodup) :
    (keep key ok seen l).Perm (keep key ok seen l') := by
  rw [keep_eq_filter hnd, keep_eq_filter ((h.map key).nodup_iff.mp hnd)]
  exact h.filter _

/-- A part of them can be inserted beforehand. -/
theorem keep_again {seen : List κ} {a b l : List α} (h : l.Perm (a ++ b)) (hnd : (l.map key).Nodup) :
    (keep key ok seen a ++ keep key ok (seen ++ (keep key ok seen a).map key) l).Perm
      (keep key ok seen l) := by
  have hab : ((a ++ b).map key).Nodup := (h.map key).nodup_iff.mp hnd
  refine ((keep_perm h hnd).append_left _).trans (List.Perm.trans ?_ (keep_perm h hnd).symm)
  rw [keep_append seen, keep_append]
  -- the second time nothing is left of `a`: its keys are there, or its rows are refused again
  have hnone : keep key ok (seen ++ (keep key ok seen a).map key) a = [] := by
    have ha : (a.map key).Nodup := (List.nodup_append.mp (List.map_append ▸ hab)).1
    rw [keep_eq_filter ha, keep_eq_filter ha, List.filter_eq_nil_iff]
    intro x hx hkeep
    simp only [Bool.and_eq_true, decide_eq_true_eq, List.mem_append, List.mem_map, List.mem_filter,
      not_or, not_exists, not_and] at hkeep
    exact hkeep.2.2 x ⟨hx, hkeep.1, hkeep.2.1⟩ rfl
  rw [hnone, List.map_nil, List.append_nil]
  exact List.Perm.refl _

theorem keep_singleton {seen : List κ} {a : α} (ha : ok a = true) (hk : key a ∉ seen) :
    keep key ok seen [a] = [a] := by
  rw [keep, if_pos ⟨ha, hk⟩, keep_nil]

end KeyedInsert
