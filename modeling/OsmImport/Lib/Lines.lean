import Mathlib.Data.List.Basic

/-!
# Lines of a text

The lines that `std::getline` gets from a text, and the texts that consist of some lines.
-/

namespace Lines

/-- The line feed. -/
def LF : UInt8 := 0x0A

/-- The lines that `std::getline` gets, one after another. -/
def getlines : List UInt8 → List (List UInt8)
  | [] => []
  | c :: rest =>
    if c = LF then [] :: getlines rest
    else match getlines rest with
      | [] => [[c]]
      | line :: lines => (c :: line) :: lines

/-- The text consists of the lines: a line feed ends each of them, and the last one may go without if it is
not empty. -/
inductive Consists : List UInt8 → List (List UInt8) → Prop where
  | nil : Consists [] []
  | last {line : List UInt8} (hline : LF ∉ line) (hne : line ≠ []) : Consists line [line]
  | cons {line rest : List UInt8} {lines : List (List UInt8)} (hline : LF ∉ line)
      (hrest : Consists rest lines) : Consists (line ++ LF :: rest) (line :: lines)

variable {line text : List UInt8} {lines : List (List UInt8)}

theorem getlines_append_LF (hline : LF ∉ line) (rest : List UInt8) :
    getlines (line ++ LF :: rest) = line :: getlines rest := by
  induction line with
  | nil =>
    rw [List.nil_append, getlines, if_pos rfl]
  | cons c line ih =>
    rw [List.mem_cons, not_or] at hline
    rw [List.cons_append, getlines, if_neg (Ne.symm hline.1), ih hline.2]

theorem getlines_last (hline : LF ∉ line) (hne : line ≠ []) : getlines line = [line] := by
  induction line with
  | nil => exact absurd rfl hne
  | cons c line ih =>
    rw [List.mem_cons, not_or] at hline
    rw [getlines, if_neg (Ne.symm hline.1)]
    cases line with
    | nil => rfl
    | cons d line => rw [ih hline.2 (List.cons_ne_nil _ _)]

theorem getlines_of_consists (h : Consists text lines) : getlines text = lines := by
  induction h with
  | nil => rfl
  | last hline hne => exact getlines_last hline hne
  | cons hline _ ih => rw [getlines_append_LF hline, ih]

/-! ## Writing -/

/-- Each line with a line feed behind it. -/
def unlines (lines : List (List UInt8)) : List UInt8 := lines.flatMap fun line => line ++ [LF]

theorem consists_unlines (h : ∀ line ∈ lines, LF ∉ line) : Consists (unlines lines) lines := by
  induction lines with
  | nil => exact .nil
  | cons line lines ih =>
    have hcons : unlines (line :: lines) = line ++ LF :: unlines lines := by simp [unlines]
    rw [hcons]
    exact .cons (h line List.mem_cons_self) (ih fun l hl => h l (List.mem_cons_of_mem _ hl))

end Lines
