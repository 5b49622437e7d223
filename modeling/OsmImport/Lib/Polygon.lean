import Mathlib.Algebra.Order.Ring.Defs
import Mathlib.Algebra.Ring.Parity
import Mathlib.Tactic.Linarith
import Mathlib.Tactic.Ring

/-!
# Points in polygons

A ring is the list of its points, with the first one again at the end. A point is inside when it is on an
edge, or when the ray from it to the right crosses an odd number of edges. A crossing is decided without
division, so coordinates may be from any ordered ring.
-/

namespace Polygon

variable {R : Type*}

/-- Consecutive points. -/
def edges (ring : List (R × R)) : List ((R × R) × (R × R)) := ring.zip ring.tail

theorem mem_of_mem_edges {ring : List (R × R)} {e : (R × R) × (R × R)} (h : e ∈ edges ring) :
    e.1 ∈ ring ∧ e.2 ∈ ring := by
  obtain ⟨h1, h2⟩ := List.of_mem_zip h
  exact ⟨h1, List.mem_of_mem_tail h2⟩

variable [LinearOrder R]

/-- The point is in the box of the ring: there are points of the ring that are not right of it, not left
of it, not above it and not below it. -/
structure InBox (ring : List (R × R)) (p : R × R) : Prop where
  left : ∃ q ∈ ring, q.1 ≤ p.1
  right : ∃ q ∈ ring, p.1 ≤ q.1
  below : ∃ q ∈ ring, q.2 ≤ p.2
  above : ∃ q ∈ ring, p.2 ≤ q.2

theorem exists_of_min_le {a b : R × R} {ring : List (R × R)} (ha : a ∈ ring) (hb : b ∈ ring)
    {f : R × R → R} {x : R} (h : min (f a) (f b) ≤ x) : ∃ q ∈ ring, f q ≤ x := by
  rcases min_le_iff.mp h with h | h
  · exact ⟨a, ha, h⟩
  · exact ⟨b, hb, h⟩

theorem exists_of_le_max {a b : R × R} {ring : List (R × R)} (ha : a ∈ ring) (hb : b ∈ ring)
    {f : R × R → R} {x : R} (h : x ≤ max (f a) (f b)) : ∃ q ∈ ring, x ≤ f q := by
  rcases le_max_iff.mp h with h | h
  · exact ⟨a, ha, h⟩
  · exact ⟨b, hb, h⟩

/-- One end of the edge is above the point, and the other one is not. -/
def straddles (p : R × R) (e : (R × R) × (R × R)) : Bool := decide (p.2 < e.1.2) != decide (p.2 < e.2.2)

theorem straddles_iff {p : R × R} {e : (R × R) × (R × R)} : straddles p e = true ↔
    (e.1.2 ≤ p.2 ∧ p.2 < e.2.2) ∨ (e.2.2 ≤ p.2 ∧ p.2 < e.1.2) := by
  unfold straddles
  rcases lt_or_ge p.2 e.1.2 with h1 | h1
  · rcases lt_or_ge p.2 e.2.2 with h2 | h2
    · simp [h1, h2, h1.not_ge, h2.not_ge]
    · simp [h1, h2, h1.not_ge, h2.not_gt]
  · rcases lt_or_ge p.2 e.2.2 with h2 | h2
    · simp [h1, h2, h1.not_gt, h2.not_ge]
    · simp [h1.not_gt, h2.not_gt]

/-- Along a list that ends where it starts, the line is changed sides an even number of times. -/
theorem parity_straddles (p : R × R) (a : R × R) (ring : List (R × R)) :
    Odd ((edges (a :: ring)).countP (straddles p)) ↔
      decide (p.2 < a.2) ≠ decide (p.2 < ((a :: ring).getLast (List.cons_ne_nil a ring)).2) := by
  induction ring generalizing a with
  | nil => exact iff_of_false (by simp [edges]) fun h => h rfl
  | cons b ring ih =>
    have hedges : edges (a :: b :: ring) = (a, b) :: edges (b :: ring) := rfl
    rw [hedges, List.countP_cons, List.getLast_cons (List.cons_ne_nil b ring)]
    specialize ih b
    generalize (b :: ring).getLast _ = last at ih ⊢
    have hab : straddles p (a, b) = (decide (p.2 < a.2) != decide (p.2 < b.2)) := rfl
    rw [hab]
    generalize (edges (b :: ring)).countP (straddles p) = n at ih ⊢
    generalize decide (p.2 < a.2) = above at ih ⊢
    generalize decide (p.2 < b.2) = above' at ih ⊢
    generalize decide (p.2 < last.2) = above'' at ih ⊢
    cases above <;> cases above' <;> cases above'' <;> simp_all [Nat.odd_add_one]

theorem even_straddles {ring : List (R × R)} (hclosed : ring.head? = ring.getLast?) (p : R × R) :
    Even ((edges ring).countP (straddles p)) := by
  cases ring with
  | nil => exact ⟨0, rfl⟩
  | cons a ring =>
    rw [← Nat.not_odd_iff_even, parity_straddles, not_not]
    rw [List.head?_cons, List.getLast?_eq_some_getLast (List.cons_ne_nil a ring)] at hclosed
    rw [← Option.some.inj hclosed]

variable [CommRing R]

/-- The edge is crossed by the ray from the point to the right. -/
def crosses (p : R × R) (e : (R × R) × (R × R)) : Bool :=
  straddles p e &&
    if e.1.2 < e.2.2 then decide ((p.1 - e.1.1) * (e.2.2 - e.1.2) < (e.2.1 - e.1.1) * (p.2 - e.1.2))
    else decide ((e.2.1 - e.1.1) * (p.2 - e.1.2) < (p.1 - e.1.1) * (e.2.2 - e.1.2))

/-- The point is on the edge. -/
def OnEdge (p : R × R) (e : (R × R) × (R × R)) : Prop :=
  (p.1 - e.1.1) * (e.2.2 - e.1.2) = (e.2.1 - e.1.1) * (p.2 - e.1.2) ∧
    min e.1.1 e.2.1 ≤ p.1 ∧ p.1 ≤ max e.1.1 e.2.1 ∧ min e.1.2 e.2.2 ≤ p.2 ∧ p.2 ≤ max e.1.2 e.2.2

/-- The point is in the polygon, or on its boundary. -/
def Inside (ring : List (R × R)) (p : R × R) : Prop :=
  (∃ e ∈ edges ring, OnEdge p e) ∨ Odd ((edges ring).countP (crosses p))

instance (p : R × R) (e : (R × R) × (R × R)) : Decidable (OnEdge p e) :=
  inferInstanceAs (Decidable (_ ∧ _))

instance (ring : List (R × R)) (p : R × R) : Decidable (Inside ring p) :=
  inferInstanceAs (Decidable (_ ∨ _))

theorem inBox_of_onEdge {ring : List (R × R)} {p : R × R} {e : (R × R) × (R × R)} (he : e ∈ edges ring)
    (h : OnEdge p e) : InBox ring p := by
  obtain ⟨h1, h2⟩ := mem_of_mem_edges he
  obtain ⟨-, hx0, hx1, hy0, hy1⟩ := h
  exact ⟨exists_of_min_le (f := Prod.fst) h1 h2 hx0, exists_of_le_max (f := Prod.fst) h1 h2 hx1,
    exists_of_min_le (f := Prod.snd) h1 h2 hy0, exists_of_le_max (f := Prod.snd) h1 h2 hy1⟩

section Ordered

variable [IsStrictOrderedRing R]

/-- A crossed edge has an end that is not left of the point. -/
theorem le_of_crosses {p a b : R × R} (h : crosses p (a, b) = true) : p.1 ≤ max a.1 b.1 := by
  by_contra hlt
  obtain ⟨ha, hb⟩ := max_lt_iff.mp (not_le.mp hlt)
  obtain ⟨hstr, hside⟩ := Bool.and_eq_true_iff.mp h
  dsimp only at hside
  have hpa : 0 ≤ p.1 - a.1 := by linarith
  have hba : b.1 - a.1 ≤ p.1 - a.1 := by linarith
  rcases straddles_iff.mp hstr with ⟨hlow, hhigh⟩ | ⟨hlow, hhigh⟩
  · rw [if_pos (hlow.trans_lt hhigh)] at hside
    have h1 : (b.1 - a.1) * (p.2 - a.2) ≤ (p.1 - a.1) * (p.2 - a.2) :=
      mul_le_mul_of_nonneg_right hba (by linarith)
    have h2 : (p.1 - a.1) * (p.2 - a.2) ≤ (p.1 - a.1) * (b.2 - a.2) :=
      mul_le_mul_of_nonneg_left (by linarith) hpa
    exact absurd (of_decide_eq_true hside) (not_lt.mpr (h1.trans h2))
  · rw [if_neg (hlow.trans hhigh.le).not_gt] at hside
    have h1 : (p.1 - a.1) * (p.2 - a.2) ≤ (b.1 - a.1) * (p.2 - a.2) :=
      mul_le_mul_of_nonpos_right hba (by linarith)
    have h2 : (p.1 - a.1) * (b.2 - a.2) ≤ (p.1 - a.1) * (p.2 - a.2) :=
      mul_le_mul_of_nonneg_left (by linarith) hpa
    exact absurd (of_decide_eq_true hside) (not_lt.mpr (h2.trans h1))

/-- An edge that is right of the point is crossed when it changes sides. -/
theorem crosses_of_right {p a b : R × R} (ha : p.1 < a.1) (hb : p.1 < b.1) :
    crosses p (a, b) = straddles p (a, b) := by
  rw [crosses]
  cases hstr : straddles p (a, b) with
  | false => rfl
  | true =>
    rw [Bool.true_and]
    dsimp only
    rcases straddles_iff.mp hstr with ⟨hlow, hhigh⟩ | ⟨hlow, hhigh⟩
    · rw [if_pos (hlow.trans_lt hhigh)]
      refine decide_eq_true ?_
      nlinarith [mul_pos (sub_pos.mpr ha) (sub_pos.mpr hhigh),
        mul_nonneg (sub_nonneg.mpr hlow) (sub_pos.mpr hb).le]
    · rw [if_neg (hlow.trans hhigh.le).not_gt]
      refine decide_eq_true ?_
      nlinarith [mul_pos (sub_pos.mpr hb) (sub_pos.mpr hhigh),
        mul_nonneg (sub_nonneg.mpr hlow) (sub_pos.mpr ha).le]

/-- **A point inside a closed ring is in the box of the ring.** -/
theorem inBox_of_inside {ring : List (R × R)} (hclosed : ring.head? = ring.getLast?) {p : R × R}
    (h : Inside ring p) : InBox ring p := by
  rcases h with ⟨e, he, hon⟩ | hodd
  · exact inBox_of_onEdge he hon
  obtain ⟨e, he, hcross⟩ := List.countP_pos_iff.mp hodd.pos
  obtain ⟨h1, h2⟩ := mem_of_mem_edges he
  have hstr := straddles_iff.mp (Bool.and_eq_true_iff.mp hcross).1
  refine ⟨?_, exists_of_le_max (f := Prod.fst) h1 h2 (le_of_crosses hcross), ?_, ?_⟩
  · -- if all points were right of it, the crossed edges would be those that change sides
    by_contra hall
    push Not at hall
    have hcount : (edges ring).countP (crosses p) = (edges ring).countP (straddles p) :=
      List.countP_congr fun f hf => by
        obtain ⟨hf1, hf2⟩ := mem_of_mem_edges hf
        rw [crosses_of_right (hall f.1 hf1) (hall f.2 hf2)]
    rw [hcount] at hodd
    exact absurd (even_straddles hclosed p) (Nat.not_even_iff_odd.mpr hodd)
  · rcases hstr with ⟨hlow, -⟩ | ⟨hlow, -⟩
    · exact ⟨e.1, h1, hlow⟩
    · exact ⟨e.2, h2, hlow⟩
  · rcases hstr with ⟨-, hhigh⟩ | ⟨-, hhigh⟩
    · exact ⟨e.2, h2, hhigh.le⟩
    · exact ⟨e.1, h1, hhigh.le⟩

end Ordered

end Polygon
