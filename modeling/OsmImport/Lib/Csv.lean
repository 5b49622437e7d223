import Mathlib.Data.List.Basic

/-!
# Lines of comma-separated values

A line is a list of fields with commas between them. A field may stand in quotes, with each quote in it
doubled, and it has to if it holds a comma or a quote. So a list of fields has many lines, one for each choice
of the fields that are quoted.
-/

namespace Csv

variable {α : Type*} [DecidableEq α]

/-- A field, and whether it is quoted. -/
structure Field (comma quote : α) where
  text : List α
  quoted : Bool
  /-- Outside of quotes there is neither a comma nor a quote. -/
  bare : quoted = false → comma ∉ text ∧ quote ∉ text

variable {comma quote : α}

/-- The text between the quotes. -/
def doubled (quote : α) (text : List α) : List α :=
  text.flatMap fun c => if c = quote then [quote, quote] else [c]

/-- The field as it stands in the line. -/
def Field.encode (f : Field comma quote) : List α :=
  if f.quoted then quote :: (doubled quote f.text ++ [quote]) else f.text

/-- The line. -/
def encodeLine (fields : List (Field comma quote)) : List α :=
  List.intercalate [comma] (fields.map Field.encode)

@[simp] theorem doubled_nil : doubled quote [] = [] := rfl

theorem doubled_cons_quote (text : List α) :
    doubled quote (quote :: text) = quote :: quote :: doubled quote text := by
  rw [doubled, List.flatMap_cons, if_pos rfl]
  rfl

theorem doubled_cons_of_ne {c : α} (h : c ≠ quote) (text : List α) :
    doubled quote (c :: text) = c :: doubled quote text := by
  rw [doubled, List.flatMap_cons, if_neg h]
  rfl

theorem Field.encode_quoted {f : Field comma quote} (h : f.quoted = true) :
    f.encode = quote :: (doubled quote f.text ++ [quote]) := if_pos h

theorem Field.encode_bare {f : Field comma quote} (h : f.quoted = false) : f.encode = f.text := by
  rw [Field.encode, h]
  rfl

theorem encodeLine_singleton (f : Field comma quote) : encodeLine [f] = f.encode := by
  simp [encodeLine, List.intercalate]

theorem encodeLine_cons_cons (f g : Field comma quote) (fields : List (Field comma quote)) :
    encodeLine (f :: g :: fields) = f.encode ++ comma :: encodeLine (g :: fields) := by
  simp [encodeLine, List.intercalate]

end Csv
