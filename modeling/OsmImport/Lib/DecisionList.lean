import Mathlib.Data.List.Basic

/-!
# Decision lists

A list of guarded answers: the first guard that holds decides, and a default stands behind them. Two
neighbours can change places unless both of them hold where they are reached (`answer_swap_iff`).
-/

namespace DecisionList

variable {α : Type*}

/-- The answer of the first rule whose guard holds. -/
def answer : List (Bool × α) → α → α
  | [], default => default
  | (guard, a) :: rules, default => if guard then a else answer rules default

@[simp] theorem answer_nil (default : α) : answer [] default = default := rfl

@[simp] theorem answer_cons (guard : Bool) (a : α) (rules : List (Bool × α)) (default : α) :
    answer ((guard, a) :: rules) default = if guard then a else answer rules default := rfl

/-- No guard holds. -/
def Silent (rules : List (Bool × α)) : Prop := ∀ rule ∈ rules, rule.1 = false

theorem answer_append_silent {rules : List (Bool × α)} (h : Silent rules) (rules' : List (Bool × α))
    (default : α) : answer (rules ++ rules') default = answer rules' default := by
  induction rules with
  | nil => rfl
  | cons rule rules ih =>
    obtain ⟨guard, a⟩ := rule
    have hguard : guard = false := h (guard, a) List.mem_cons_self
    rw [List.cons_append, answer_cons, hguard, ih fun r hr => h r (List.mem_cons_of_mem _ hr)]
    rfl

/-- Behind a guard that holds nothing is asked. -/
theorem answer_append_of_not_silent {rules : List (Bool × α)} (h : ¬ Silent rules)
    (rules' rules'' : List (Bool × α)) (default : α) :
    answer (rules ++ rules') default = answer (rules ++ rules'') default := by
  induction rules with
  | nil => exact absurd (fun r hr => absurd hr List.not_mem_nil) h
  | cons rule rules ih =>
    obtain ⟨guard, a⟩ := rule
    rw [List.cons_append, List.cons_append, answer_cons, answer_cons]
    cases guard with
    | true => rfl
    | false =>
      have hrest : ¬ Silent rules := by
        intro hs
        refine h fun r hr => ?_
        rcases List.mem_cons.mp hr with rfl | hr
        · rfl
        · exact hs r hr
      exact ih hrest

/-- Neighbours with different answers can change places unless both are reached and hold. -/
theorem answer_swap_iff (rules rules' : List (Bool × α)) {g g' : Bool} {a a' : α} (hne : a ≠ a')
    (default : α) :
    answer (rules ++ (g, a) :: (g', a') :: rules') default =
        answer (rules ++ (g', a') :: (g, a) :: rules') default ↔
      ¬ (Silent rules ∧ g = true ∧ g' = true) := by
  by_cases hs : Silent rules
  · rw [answer_append_silent hs, answer_append_silent hs]
    simp only [answer_cons, hs, true_and]
    cases g <;> cases g' <;> simp [hne]
  · rw [answer_append_of_not_silent hs _ ((g', a') :: (g, a) :: rules')]
    simp [hs]

end DecisionList
