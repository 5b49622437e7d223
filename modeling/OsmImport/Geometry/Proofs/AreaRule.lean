import OsmImport.Geometry.Wkb
import OsmImport.Lib.DecisionList

/-!
# Ways that are areas

The comment above `isArea` gives a list of rules, in which the tags that imply an area come before those
that imply a line. The code asks for the latter first. The two differ on closed ways that have both.
-/

namespace OsmImport

open DecisionList

/-- The tags have one of `area_keys`. -/
def areaImplying (tags : Tags) : Bool := area_keys.any fun k => (tags.find k).isSome

/-- The tags have one of `linear_keys` or one of `linear_tag_values`. -/
def linearImplying (tags : Tags) : Bool :=
  (linear_keys.any fun k => (tags.find k).isSome) ||
    linear_tag_values.any fun kv => tags.find kv.1 == some kv.2

/-- The rules before those about implied uses. -/
def explicitRules (is_closed : Bool) (tags : Tags) : List (Bool × Bool) :=
  [(!is_closed, false), (tags.find (str "area") == some (str "yes"), true),
    (tags.find (str "area") == some (str "no"), false)]

/-- The comment above `isArea`. -/
def documentedArea (is_closed : Bool) (tags : Tags) : Bool :=
  answer (explicitRules is_closed tags ++ [(areaImplying tags, true), (linearImplying tags, false)]) false

/-! ## The code as a list of rules -/

/-- A loop over the map that looks for keys of a set. -/
theorem any_key_mem (tags : Tags) (keys : List Str) :
    (tags.entries.any fun kv => decide (kv.1 ∈ keys)) = keys.any fun k => (tags.find k).isSome := by
  rw [Bool.eq_iff_iff, List.any_eq_true, List.any_eq_true]
  constructor
  · rintro ⟨kv, hkv, hk⟩
    exact ⟨kv.1, of_decide_eq_true hk, List.lookup_isSome_iff.mpr ⟨kv, hkv, beq_self_eq_true _⟩⟩
  · rintro ⟨k, hk, hfind⟩
    obtain ⟨kv, hkv, hkey⟩ := List.lookup_isSome_iff.mp hfind
    obtain rfl := eq_of_beq hkey
    exact ⟨kv, hkv, decide_eq_true hk⟩

theorem isArea_eq (is_closed : Bool) (tags : Tags) : isArea is_closed tags =
    answer (explicitRules is_closed tags ++ [(linearImplying tags, false), (areaImplying tags, true)])
      false := by
  unfold isArea linearImplying areaImplying
  rw [any_key_mem, any_key_mem]
  generalize (linear_keys.any fun k => (tags.find k).isSome) = linearKey
  generalize (linear_tag_values.any fun kv => tags.find kv.1 == some kv.2) = linearPair
  generalize (area_keys.any fun k => (tags.find k).isSome) = areaKey
  simp only [explicitRules, List.cons_append, List.nil_append, answer_cons, answer_nil, beq_iff_eq]
  cases linearKey <;> cases linearPair <;> cases areaKey <;> rfl

theorem silent_explicit_iff (is_closed : Bool) (tags : Tags) : Silent (explicitRules is_closed tags) ↔
    is_closed = true ∧ tags.find (str "area") ≠ some (str "yes") ∧
      tags.find (str "area") ≠ some (str "no") := by
  simp [Silent, explicitRules]

/-! ## The order of the rules -/

/-- `isArea` is the documented list of rules unless a closed way without an explicit `area` tag has tags
of both sorts. It does not depend on the order in which the map is iterated over. -/
theorem isArea_documented_iff (is_closed : Bool) (tags : Tags) :
    (isArea is_closed tags = documentedArea is_closed tags ↔
      ¬ ((is_closed = true ∧ tags.find (str "area") ≠ some (str "yes") ∧
        tags.find (str "area") ≠ some (str "no")) ∧
          linearImplying tags = true ∧ areaImplying tags = true)) ∧
    ∀ tags' : Tags, tags'.find = tags.find → isArea is_closed tags' = isArea is_closed tags := by
  constructor
  · rw [isArea_eq, documentedArea, answer_swap_iff _ _ Bool.false_ne_true, silent_explicit_iff]
  · intro tags' hfind
    rw [isArea_eq, isArea_eq]
    simp only [explicitRules, linearImplying, areaImplying, hfind]

/-- A closed way with `man_made=pier` and `leisure=fishing`. -/
def pierTags : Tags := ⟨[(str "man_made", str "pier"), (str "leisure", str "fishing")], by decide⟩

/-- The comment makes it an area, the code does not. -/
theorem pier_not_area : ¬ ∀ (is_closed : Bool) (tags : Tags),
    isArea is_closed tags = documentedArea is_closed tags := by
  intro h
  exact absurd (h true pierTags) (by decide +kernel)

end OsmImport
