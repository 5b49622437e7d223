import OsmImport.Lib.AssocList
import Mathlib.Data.List.Basic

/-!
# The last write to a key

A sequence of writes to keys, read back: the value of a key is that of the last write to it. A store
that overwrites in place computes this function.
-/

variable {κ ν : Type*} [DecidableEq κ]

/-- The value that the last pair with key `k` carries, if there is one. -/
def lastWrite (l : List (κ × ν)) (k : κ) : Option ν :=
  l.reverse.lookup k

@[simp] theorem lastWrite_nil (k : κ) : lastWrite ([] : List (κ × ν)) k = none := rfl

theorem lastWrite_append (a b : List (κ × ν)) (k : κ) :
    lastWrite (a ++ b) k = (lastWrite b k).or (lastWrite a k) := by
  simp [lastWrite, List.lookup_append]

theorem lastWrite_concat (l : List (κ × ν)) (p : κ × ν) (k : κ) :
    lastWrite (l ++ [p]) k = if k = p.1 then some p.2 else lastWrite l k := by
  rw [lastWrite, List.reverse_append, List.reverse_singleton, List.singleton_append, AssocList.lookup_cons]
  rfl

/-- A key that is never written has no value. -/
theorem lastWrite_eq_none_iff {l : List (κ × ν)} {k : κ} :
    lastWrite l k = none ↔ k ∉ l.map Prod.fst := by
  rw [lastWrite, AssocList.lookup_eq_none_iff, List.map_reverse, List.mem_reverse]

/-- With every key written at most once, the order of the writes does not matter. -/
theorem lastWrite_perm {a b : List (κ × ν)} (h : a.Perm b) (ha : (a.map Prod.fst).Nodup) (k : κ) :
    lastWrite a k = lastWrite b k := by
  have hb : (b.map Prod.fst).Nodup := (h.map Prod.fst).nodup_iff.mp ha
  rw [lastWrite, lastWrite, AssocList.lookup_reverse ha, AssocList.lookup_reverse hb,
    AssocList.lookup_perm h hb]

/-- Only the writes to the key count. -/
theorem lastWrite_filter (l : List (κ × ν)) (k : κ) :
    lastWrite (l.filter fun p => p.1 = k) k = lastWrite l k := by
  induction l using List.reverseRecOn with
  | nil => rfl
  | append_singleton l p ih =>
    rw [List.filter_append, lastWrite_append, lastWrite_append, ih]
    by_cases h : p.1 = k
    · simp [h]
    · have hp : lastWrite [p] k = none := lastWrite_eq_none_iff.mpr (by simpa using Ne.symm h)
      simp [h, hp]

/-- Keys may be renamed. -/
theorem lastWrite_map_key {κ' : Type*} [DecidableEq κ'] {f : κ → κ'} (hf : Function.Injective f)
    (l : List (κ × ν)) (k : κ) : lastWrite (l.map (Prod.map f id)) (f k) = lastWrite l k := by
  induction l using List.reverseRecOn with
  | nil => rfl
  | append_singleton l p ih =>
    rw [List.map_append, List.map_cons, List.map_nil, lastWrite_concat, lastWrite_concat, ih]
    simp only [Prod.map_fst, Prod.map_snd, hf.eq_iff, id_eq]
