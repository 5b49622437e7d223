import OsmImport.Airports.AirportsLoader
import OsmImport.Lib.Csv

/-!
# Lines that are read back

What `parseCsvLineAP` makes of the line of a list of fields, whichever of them are quoted. In a field the loop
has the characters up to there in `field`, and it is inside of quotes exactly if the field is; a quote in the
text is one that it finds doubled, and the last one is not, as a comma or the end follows.
-/

namespace OsmImport

namespace AirportsLoader

open Csv

/-- A field of a line of the airports tables. -/
abbrev CsvField := Csv.Field COMMA QUOTE

section

variable {fields : List Str} {field text rest : Str}

/-! ## Inside of a field -/

/-- Text without commas and quotes is taken as it is. -/
theorem scan_bare (hcomma : COMMA ∉ text) (hquote : QUOTE ∉ text) :
    scan fields field false (text ++ rest) = scan fields (field ++ text) false rest := by
  induction text generalizing field with
  | nil => simp
  | cons c text ih =>
    rw [List.mem_cons, not_or] at hcomma hquote
    rw [List.cons_append, scan, if_neg (Ne.symm hquote.1), if_neg (Ne.symm hcomma.1),
      ih hcomma.2 hquote.2, List.append_assoc, List.singleton_append]

theorem scan_quoted_of_ne {c : UInt8} (hc : c ≠ QUOTE) :
    scan fields field true (c :: rest) = scan fields (field ++ [c]) true rest := by
  rw [scan.eq_def]
  exact if_neg hc

/-- Inside of quotes any text is taken, and each doubled quote once. -/
theorem scan_doubled :
    scan fields field true (doubled QUOTE text ++ rest) = scan fields (field ++ text) true rest := by
  induction text generalizing field with
  | nil => simp
  | cons c text ih =>
    have hfield : field ++ c :: text = (field ++ [c]) ++ text := by simp
    obtain rfl | hc := eq_or_ne c QUOTE
    · rw [doubled_cons_quote, hfield, ← ih]
      rfl
    · rw [doubled_cons_of_ne hc, List.cons_append, scan_quoted_of_ne hc, hfield, ih]

/-- A quote that is not followed by another one closes. -/
theorem scan_close (hrest : ∀ tail, rest ≠ QUOTE :: tail) :
    scan fields field true (QUOTE :: rest) = scan fields field false rest := by
  cases rest with
  | nil => rfl
  | cons d tail =>
    have hd : d ≠ QUOTE := by
      rintro rfl
      exact hrest tail rfl
    rw [scan.eq_def]
    exact if_neg hd

/-! ## The fields of a line -/

/-- A field up to the comma or the end behind it. -/
theorem scan_encode (f : CsvField) (hrest : ∀ tail, rest ≠ QUOTE :: tail) :
    scan fields [] false (f.encode ++ rest) = scan fields f.text false rest := by
  cases hq : f.quoted with
  | true =>
    rw [Field.encode_quoted hq, List.cons_append, List.append_assoc, scan, if_pos rfl, scan_doubled,
      List.nil_append, List.singleton_append, scan_close hrest]
  | false =>
    obtain ⟨hcomma, hquote⟩ := f.bare hq
    rw [Field.encode_bare hq, scan_bare hcomma hquote, List.nil_append]

/-- The fields behind those that are read. -/
theorem scan_encodeLine (f : CsvField) (others : List CsvField) :
    scan fields [] false (encodeLine (f :: others)) = fields ++ (f :: others).map Field.text := by
  induction others generalizing fields f with
  | nil =>
    have hend : scan fields [] false (f.encode ++ []) = scan fields f.text false [] :=
      scan_encode f fun tail h => by cases h
    rw [List.append_nil] at hend
    rw [encodeLine_singleton, hend]
    rfl
  | cons g others ih =>
    have hcomma : ∀ tail, COMMA :: encodeLine (g :: others) ≠ QUOTE :: tail := by
      intro tail h
      cases (List.cons.inj h).1
    rw [encodeLine_cons_cons, scan_encode f hcomma, scan, if_neg (by decide), if_pos rfl, ih,
      List.append_assoc]
    rfl

end

/-- **Parsing inverts encoding.** A line of at least one field is read back as the texts of the fields,
whichever of them are quoted. -/
theorem parseCsvLineAP_encodeLine {fields : List CsvField} (h : fields ≠ []) :
    parseCsvLineAP (encodeLine fields) = fields.map Field.text := by
  obtain ⟨f, others, rfl⟩ := List.exists_cons_of_ne_nil h
  exact scan_encodeLine f others

/-- A comma, quotes and empty fields. -/
theorem parseCsvLineAP_encodeLine_mixed :
    parseCsvLineAP (str "\"a,b\",\"say \"\"hi\"\"\",,\"\",x y") =
      [str "a,b", str "say \"hi\"", [], [], str "x y"] :=
  @parseCsvLineAP_encodeLine [⟨str "a,b", true, by decide⟩, ⟨str "say \"hi\"", true, by decide⟩,
    ⟨[], false, by decide⟩, ⟨[], true, by decide⟩, ⟨str "x y", false, by decide⟩] (List.cons_ne_nil _ _)

-- No line reads as the empty list: the empty line is one empty field.
example : parseCsvLineAP [] = [[]] := rfl

end AirportsLoader

end OsmImport
