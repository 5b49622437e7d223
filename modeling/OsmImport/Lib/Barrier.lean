import Mathlib.Data.Finset.Card
import Mathlib.Data.Finset.Range
import Mathlib.Logic.Function.Basic

/-!
# Barriers

A barrier counts arrivals; when all parties have arrived, it is released: the phase ends and the count
starts again. A party waits until the phase in which it arrived has ended. `OneShot` is the invariant of
a barrier at which every party arrives once.
-/

/-- A barrier. -/
structure Barrier where
  arrived : ℕ
  phase : ℕ
deriving DecidableEq, Repr

namespace Barrier

/-- A barrier as it is constructed. -/
def fresh : Barrier := ⟨0, 0⟩

/-- An arrival. -/
def arrive (b : Barrier) : Barrier := { b with arrived := b.arrived + 1 }

/-- The end of a phase. -/
def release (b : Barrier) : Barrier := ⟨0, b.phase + 1⟩

/-- Where a party stands. -/
inductive Status where
  | before
  | waiting (phase : ℕ)
  | passed
deriving DecidableEq, Repr

/-- The parties that wait in the first phase. -/
def waiters (n : ℕ) (status : ℕ → Status) : Finset ℕ :=
  (Finset.range n).filter fun i => status i = .waiting 0

/-- Every party arrives once: in the first phase none has passed, in the second all have arrived. -/
inductive OneShot (n : ℕ) (b : Barrier) (status : ℕ → Status) : Prop where
  | first (hphase : b.phase = 0) (harrived : b.arrived = (waiters n status).card)
      (hstatus : ∀ i < n, status i = .before ∨ status i = .waiting 0)
  | second (hphase : b.phase = 1) (harrived : b.arrived = 0)
      (hstatus : ∀ i < n, status i = .waiting 0 ∨ status i = .passed)

namespace OneShot

variable {n : ℕ} {b : Barrier} {status : ℕ → Status}

theorem fresh (h : ∀ i < n, status i = .before) : OneShot n Barrier.fresh status := by
  refine .first rfl ?_ fun i hi => .inl (h i hi)
  have hempty : waiters n status = ∅ := by
    apply Finset.filter_false_of_mem
    intro i hi
    rw [h i (Finset.mem_range.mp hi)]
    simp
  rw [hempty]
  rfl

/-- A party that has not arrived finds the barrier in its first phase, with arrivals missing. -/
theorem of_before (h : OneShot n b status) {i : ℕ} (hi : i < n) (hb : status i = .before) :
    b.phase = 0 ∧ b.arrived < n := by
  cases h with
  | first hphase harrived hstatus =>
    refine ⟨hphase, ?_⟩
    have hsub : waiters n status ⊂ Finset.range n := by
      refine ⟨Finset.filter_subset .., fun hall => ?_⟩
      have hmem := hall (Finset.mem_range.mpr hi)
      rw [waiters, Finset.mem_filter, hb] at hmem
      exact absurd hmem.2 (by simp)
    have hcard := Finset.card_lt_card hsub
    rw [Finset.card_range] at hcard
    omega
  | second hphase harrived hstatus =>
    rcases hstatus i hi with hw | hw <;> rw [hb] at hw <;> cases hw

/-- A party waits in the first phase, or may go on. -/
theorem of_waiting (h : OneShot n b status) {i p : ℕ} (hi : i < n) (hw : status i = .waiting p) :
    p < b.phase ∨ p = 0 ∧ b.phase = 0 := by
  cases h with
  | first hphase _ hstatus =>
    rcases hstatus i hi with hs | hs
    · rw [hw] at hs
      cases hs
    · rw [hw] at hs
      cases hs
      exact .inr ⟨rfl, hphase⟩
  | second hphase _ hstatus =>
    rcases hstatus i hi with hs | hs
    · rw [hw] at hs
      cases hs
      exact .inl (by omega)
    · rw [hw] at hs
      cases hs

theorem arrive (h : OneShot n b status) {i : ℕ} (hi : i < n) (hb : status i = .before) :
    OneShot n b.arrive (Function.update status i (.waiting b.phase)) := by
  obtain ⟨hphase, -⟩ := h.of_before hi hb
  cases h with
  | first _ harrived hstatus =>
    rw [hphase]
    refine .first hphase ?_ ?_
    · have hins : waiters n (Function.update status i (.waiting 0)) =
          insert i (waiters n status) := by
        ext j
        rw [waiters, waiters, Finset.mem_insert, Finset.mem_filter, Finset.mem_filter,
          Finset.mem_range]
        rcases eq_or_ne j i with rfl | hj
        · simp [hi]
        · simp [hj]
      have hnot : i ∉ waiters n status := by
        rw [waiters, Finset.mem_filter, hb]
        simp
      rw [hins, Finset.card_insert_of_notMem hnot, ← harrived]
      rfl
    · intro j hj
      rcases eq_or_ne j i with rfl | hne
      · exact .inr (Function.update_self ..)
      · rw [Function.update_of_ne hne]
        exact hstatus j hj
  | second hphase' _ _ =>
    rw [hphase] at hphase'
    cases hphase'

theorem wake (h : OneShot n b status) {i p : ℕ} (hw : status i = .waiting p) (hp : p < b.phase) :
    OneShot n b (Function.update status i .passed) := by
  cases h with
  | first hphase _ _ => omega
  | second hphase harrived hstatus =>
    refine .second hphase harrived fun j hj => ?_
    rcases eq_or_ne j i with rfl | hne
    · exact .inr (Function.update_self ..)
    · rw [Function.update_of_ne hne]
      exact hstatus j hj

/-- A full barrier is one at which all parties wait. -/
theorem all_waiting (h : OneShot n b status) (hn : 0 < n) (hall : b.arrived = n) :
    b.phase = 0 ∧ ∀ i < n, status i = .waiting 0 := by
  cases h with
  | first hphase harrived hstatus =>
    refine ⟨hphase, fun i hi => ?_⟩
    have heq : waiters n status = Finset.range n := by
      apply Finset.eq_of_subset_of_card_le (Finset.filter_subset ..)
      rw [Finset.card_range]
      exact (harrived.symm.trans hall).ge
    have hmem := heq.symm ▸ Finset.mem_range.mpr hi
    exact (Finset.mem_filter.mp hmem).2
  | second _ harrived _ => omega

theorem release (h : OneShot n b status) (hn : 0 < n) (hall : b.arrived = n) :
    OneShot n b.release status := by
  obtain ⟨hphase, hwaiting⟩ := h.all_waiting hn hall
  exact .second (congrArg (· + 1) hphase) rfl fun i hi => .inl (hwaiting i hi)

/-- A party that does not stand at the barrier's arrival or departure. -/
theorem congr (h : OneShot n b status) {status' : ℕ → Status} (hs : ∀ i < n, status' i = status i) :
    OneShot n b status' := by
  have hw : waiters n status' = waiters n status := by
    apply Finset.filter_congr
    intro i hi
    rw [hs i (Finset.mem_range.mp hi)]
  cases h with
  | first hphase harrived hstatus =>
    refine .first hphase (by rw [hw, harrived]) fun i hi => ?_
    rw [hs i hi]
    exact hstatus i hi
  | second hphase harrived hstatus =>
    refine .second hphase harrived fun i hi => ?_
    rw [hs i hi]
    exact hstatus i hi

/-- When a party has passed, all have arrived. -/
theorem all_arrived (h : OneShot n b status) {i : ℕ} (hi : i < n) (hp : status i = .passed) :
    b.phase = 1 ∧ ∀ j < n, status j ≠ .before := by
  cases h with
  | first _ _ hstatus => rcases hstatus i hi with hs | hs <;> rw [hp] at hs <;> cases hs
  | second hphase _ hstatus =>
    refine ⟨hphase, fun j hj hb => ?_⟩
    rcases hstatus j hj with hs | hs <;> rw [hb] at hs <;> cases hs

/-- When all parties wait in the first phase, the barrier is full. -/
theorem full (h : OneShot n b status) (hphase : b.phase = 0)
    (hall : ∀ i < n, status i ≠ .before) : b.arrived = n := by
  cases h with
  | first _ harrived hstatus =>
    have heq : waiters n status = Finset.range n := by
      apply Finset.filter_true_of_mem
      intro i hi
      exact (hstatus i (Finset.mem_range.mp hi)).resolve_left (hall i (Finset.mem_range.mp hi))
    rw [harrived, heq, Finset.card_range]
  | second hphase' _ _ =>
    rw [hphase] at hphase'
    cases hphase'

end OneShot

end Barrier
