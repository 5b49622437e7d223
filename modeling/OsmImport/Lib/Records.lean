import Mathlib.Data.List.Basic
import Mathlib.Tactic.Ring

/-!
# Cutting a stream into fixed-width records

A stream of bytes (or of anything) cut into consecutive records of width `w`; an incomplete last
record stays as the remainder. A reader that is handed the stream piece by piece keeps the remainder
between two pieces: `cut_append` is what makes it correct.
-/

namespace Records

variable {β : Type*}

/-- The complete records of width `w`, in order. -/
def cut (w : ℕ) (l : List β) : List (List β) :=
  (List.range (l.length / w)).map fun i => (l.drop (i * w)).take w

/-- What is left behind the last complete record. -/
def remainder (w : ℕ) (l : List β) : List β :=
  l.drop (l.length / w * w)

variable {w : ℕ}

theorem cut_of_lt {l : List β} (h : l.length < w) : cut w l = [] := by
  simp [cut, Nat.div_eq_of_lt h]

theorem remainder_of_lt {l : List β} (h : l.length < w) : remainder w l = l := by
  simp [remainder, Nat.div_eq_of_lt h]

theorem length_remainder (hw : 0 < w) (l : List β) : (remainder w l).length < w := by
  have h := Nat.mod_lt l.length hw
  have hd := Nat.div_add_mod l.length w
  rw [Nat.mul_comm] at hd
  simp only [remainder, List.length_drop]
  omega

/-- The first record, and the records of the rest. -/
theorem cut_record_append (hw : 0 < w) {r : List β} (hr : r.length = w) (l : List β) :
    cut w (r ++ l) = r :: cut w l := by
  have hlen : (r ++ l).length / w = l.length / w + 1 := by
    rw [List.length_append, hr, Nat.add_comm, Nat.add_div_right _ hw]
  unfold cut
  rw [hlen, List.range_succ_eq_map, List.map_cons, List.map_map]
  refine congrArg₂ List.cons ?_ (List.map_congr_left fun i _ => ?_)
  · simp [List.take_left' hr]
  · have h : (i + 1) * w = r.length + i * w := by rw [hr]; ring
    simp only [Function.comp, Nat.succ_eq_add_one, h, List.drop_append, List.drop_eq_nil_of_le
      (Nat.le_add_right r.length (i * w)), List.nil_append, Nat.add_sub_cancel_left]

theorem remainder_record_append (hw : 0 < w) {r : List β} (hr : r.length = w) (l : List β) :
    remainder w (r ++ l) = remainder w l := by
  have hlen : (r ++ l).length / w * w = r.length + l.length / w * w := by
    rw [List.length_append, hr, Nat.add_comm w, Nat.add_div_right _ hw, Nat.succ_mul, Nat.add_comm]
  rw [remainder, hlen, List.drop_append, List.drop_eq_nil_of_le (Nat.le_add_right _ _),
    List.nil_append, Nat.add_sub_cancel_left, remainder]

/-- A stream is shorter than a record, or a record with a stream behind it. -/
theorem record_induction (hw : 0 < w) {P : List β → Prop} (short : ∀ l, l.length < w → P l)
    (record : ∀ r l, r.length = w → P l → P (r ++ l)) (l : List β) : P l := by
  induction h : l.length using Nat.strongRecOn generalizing l with
  | ind n ih =>
    by_cases hlt : l.length < w
    · exact short l hlt
    · have hr : (l.take w).length = w := by simp; omega
      have hd : (l.drop w).length < n := by simp; omega
      rw [← List.take_append_drop w l]
      exact record _ _ hr (ih _ hd _ rfl)

/-- The records of a piece, and then those of the remainder of that piece with the next one. -/
theorem cut_append (hw : 0 < w) (a b : List β) :
    cut w (a ++ b) = cut w a ++ cut w (remainder w a ++ b) := by
  induction a using record_induction hw with
  | short a ha => rw [cut_of_lt ha, remainder_of_lt ha, List.nil_append]
  | record r a hr ih =>
    rw [List.append_assoc, cut_record_append hw hr, cut_record_append hw hr,
      remainder_record_append hw hr, ih, List.cons_append]

/-- The remainder of a piece stands for the piece. -/
theorem remainder_append (hw : 0 < w) (a b : List β) :
    remainder w (a ++ b) = remainder w (remainder w a ++ b) := by
  induction a using record_induction hw with
  | short a ha => rw [remainder_of_lt ha]
  | record r a hr ih =>
    rw [List.append_assoc, remainder_record_append hw hr, remainder_record_append hw hr, ih]

/-- A stream made of whole records is cut into them. -/
theorem cut_flatten (hw : 0 < w) {rs : List (List β)} (h : ∀ r ∈ rs, r.length = w) :
    cut w rs.flatten = rs := by
  induction rs with
  | nil => exact cut_of_lt hw
  | cons r rs ih =>
    rw [List.flatten_cons, cut_record_append hw (h r List.mem_cons_self),
      ih fun r' hr' => h r' (List.mem_cons_of_mem _ hr')]

/-- The complete records of an initial piece of a stream are the first ones of the stream. -/
theorem cut_initial (hw : 0 < w) {a b : List β} (h : a <+: b) : cut w a <+: cut w b := by
  obtain ⟨t, rfl⟩ := h
  exact ⟨_, (cut_append hw a t).symm⟩

end Records
