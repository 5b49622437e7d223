import OsmImport.Lib.AssocList
import OsmImport.Types

/-!
# Building tags

`tags[k] = v` on the map of the tags. A new key goes to the end of the iteration order, which the standard
leaves open: what is proved about tags is about `find`.
-/

namespace OsmImport

namespace Tags

/-- The pairs behind `tags[k] = v`. -/
def setEntries (entries : List (Str × Str)) (k v : Str) : List (Str × Str) :=
  if entries.any fun kv => kv.1 = k then entries.map fun kv => if kv.1 = k then (k, v) else kv
  else entries ++ [(k, v)]

theorem any_key_iff (entries : List (Str × Str)) (k : Str) :
    (entries.any fun kv => kv.1 = k) = true ↔ k ∈ entries.map Prod.fst := by
  simp [List.any_eq_true]

theorem keys_setEntries (entries : List (Str × Str)) (k v : Str) :
    (setEntries entries k v).map Prod.fst = if k ∈ entries.map Prod.fst then entries.map Prod.fst
      else entries.map Prod.fst ++ [k] := by
  unfold setEntries
  simp only [any_key_iff]
  split
  · rw [List.map_map]
    refine List.map_congr_left fun kv _ => ?_
    by_cases h : kv.1 = k <;> simp [h]
  · rw [List.map_append]
    rfl

/-- `tags[k] = v`. -/
def set (t : Tags) (k v : Str) : Tags where
  entries := setEntries t.entries k v
  nodup := by
    rw [keys_setEntries]
    split
    · exact t.nodup
    · rename_i hk
      exact List.nodup_append.mpr ⟨t.nodup, List.nodup_singleton k, by
        intro a ha b hb
        rw [List.mem_singleton.mp hb]
        rintro rfl
        exact hk ha⟩

/-- The map behind one assignment for each pair. -/
def setAll (t : Tags) (pairs : List (Str × Str)) : Tags := pairs.foldl (fun t kv => t.set kv.1 kv.2) t

theorem find_set (t : Tags) (k v j : Str) : (t.set k v).find j = if j = k then some v else t.find j := by
  unfold find set setEntries
  simp only [any_key_iff]
  split
  · rename_i hk
    rw [AssocList.lookup_overwrite]
    refine ite_congr rfl (fun hj => ?_) fun _ => rfl
    cases hv : t.entries.lookup j with
    | none => exact absurd hk (hj ▸ AssocList.lookup_eq_none_iff.mp hv)
    | some w => rfl
  · rename_i hk
    rw [AssocList.lookup_concat]
    by_cases hj : j = k
    · rw [if_pos hj, if_pos hj, hj, AssocList.lookup_eq_none_iff.mpr hk]
      rfl
    · rw [if_neg hj, if_neg hj, Option.or_none]

/-- The value of the last pair with the key. -/
def lastValue (pairs : List (Str × Str)) (k : Str) : Option Str := pairs.reverse.lookup k

/-- Later pairs win. -/
theorem find_setAll (pairs : List (Str × Str)) (k : Str) :
    (none.setAll pairs).find k = lastValue pairs k := by
  induction pairs using List.reverseRecOn with
  | nil => rfl
  | append_singleton pairs kv ih =>
    have hset : none.setAll (pairs ++ [kv]) = (none.setAll pairs).set kv.1 kv.2 := by
      simp [setAll]
    rw [hset, find_set, ih, lastValue, lastValue, List.reverse_append, List.reverse_singleton,
      List.singleton_append, AssocList.lookup_cons]

/-- The pairs of a map give the map again. -/
theorem find_setAll_entries (t : Tags) (k : Str) : (none.setAll t.entries).find k = t.find k :=
  (find_setAll t.entries k).trans (AssocList.lookup_reverse t.nodup k)

end Tags

end OsmImport
