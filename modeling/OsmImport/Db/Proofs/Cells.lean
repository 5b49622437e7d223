import OsmImport.Db.Cells
import OsmImport.Lib.AssocList

/-!
# Statements act on cells

The effect of a statement on a cell is that of its operations, and two databases hold the same tables if
they agree on every cell.
-/

namespace OsmImport

open Replay Postgres KeyedInsert

variable {chk : Checks} {k : Kind} {id : Int64} {key : Str}

/-! ## Rows -/

theorem filter_id_eq_nil {table : List Row} :
    (table.filter fun r => r.id == id) = [] ↔ id ∉ table.map Row.id := by
  rw [List.filter_eq_nil_iff, List.mem_map]
  constructor
  · rintro h ⟨r, hr, rfl⟩
    exact h r hr (beq_self_eq_true _)
  · intro h r hr he
    exact h ⟨r, hr, eq_of_beq he⟩

theorem filter_insertRow (table : List Row) (row : Row) :
    (insertRows chk k table [row]).filter (fun r => r.id == id) =
      if chk.rowOk k row && row.id == id then
        SlotOp.act (table.filter fun r => r.id == id) (.put row)
      else table.filter fun r => r.id == id := by
  unfold insertRows
  rw [List.filter_append]
  by_cases hfits : chk.rowOk k row = true ∧ row.id ∉ table.map Row.id
  · rw [keep_singleton hfits.1 hfits.2, hfits.1, Bool.true_and]
    by_cases hid : row.id = id
    · have hempty : (table.filter fun r => r.id == id) = [] := filter_id_eq_nil.mpr (hid ▸ hfits.2)
      rw [if_pos (beq_iff_eq.mpr hid), hempty]
      simp [hid, SlotOp.act]
    · rw [if_neg (by simpa using hid)]
      simp [hid]
  · rw [keep, if_neg hfits, keep_nil, List.filter_nil, List.append_nil]
    split
    · rename_i h
      rw [Bool.and_eq_true, beq_iff_eq] at h
      obtain ⟨hok, rfl⟩ := h
      have hne : (table.filter fun r => r.id == row.id) ≠ [] :=
        fun he => hfits ⟨hok, filter_id_eq_nil.mp he⟩
      rw [SlotOp.act_put hne]
    · rfl

theorem filter_insertRows (table rows : List Row) :
    (insertRows chk k table rows).filter (fun r => r.id == id) =
      ((rows.filter fun r => chk.rowOk k r && r.id == id).map SlotOp.put).foldl SlotOp.act
        (table.filter fun r => r.id == id) := by
  induction rows generalizing table with
  | nil => rw [insertRows_nil]; rfl
  | cons row rows ih =>
    have hcons : insertRows chk k table (row :: rows) =
        insertRows chk k (insertRows chk k table [row]) rows := insertRows_append [row] rows
    rw [hcons, ih, filter_insertRow, List.filter_cons]
    split <;> rfl

theorem filter_updateRow (table : List Row) (row : Row) :
    (updateRow table row).filter (fun r => r.id == id) =
      if row.id = id then (table.filter fun r => r.id == id).map fun _ => row
      else table.filter fun r => r.id == id := by
  induction table with
  | nil => simp [updateRow]
  | cons r table ih =>
    unfold updateRow at ih ⊢
    rw [List.map_cons, List.filter_cons, ih, List.filter_cons]
    by_cases hrow : row.id = id
    · subst hrow
      by_cases hr : r.id = row.id <;> simp [hr]
    · by_cases hr : r.id = row.id
      · simp [hr, hrow]
      · simp [hr, hrow]

theorem filter_deleteRow (table : List Row) (i : Int64) :
    (table.filter fun r => r.id != i).filter (fun r => r.id == id) =
      if i = id then [] else table.filter fun r => r.id == id := by
  rw [List.filter_filter]
  split
  · rename_i h
    subst h
    simp [List.filter_eq_nil_iff]
  · rename_i h
    refine List.filter_congr fun r _ => ?_
    by_cases hr : r.id = id
    · simp [hr, Ne.symm h]
    · simp [hr]

theorem rowsAt_setRows (db : Database) (j : Kind) (rows : List Row) :
    (db.setRows j rows).rowsAt k id =
      if j = k then rows.filter fun r => r.id == id else db.rowsAt k id := by
  unfold Database.rowsAt
  rw [Database.rows_setRows]
  split
  · rename_i h
    rw [h, Function.update_self]
  · rename_i h
    rw [Function.update_of_ne (Ne.symm h)]

/-- A statement, on the rows with an id. -/
theorem rowsAt_settle (db : Database) (st : Statement) :
    (db.settle chk st).rowsAt k id = (st.rowOps chk k id).foldl SlotOp.act (db.rowsAt k id) := by
  cases st with
  | copy j rows =>
    show (db.setRows j _).rowsAt k id = _
    rw [rowsAt_setRows, Statement.rowOps]
    split
    · rename_i h
      subst h
      exact filter_insertRows ..
    · rfl
  | update j row =>
    show (db.setRows j _).rowsAt k id = _
    rw [rowsAt_setRows, filter_updateRow, Statement.rowOps]
    by_cases hj : j = k
    · subst hj
      by_cases hid : row.id = id
      · simp [hid, SlotOp.act, Database.rowsAt]
      · simp [hid, Database.rowsAt]
    · simp [hj]
  | delete j i =>
    show (db.setRows j _).rowsAt k id = _
    rw [rowsAt_setRows, filter_deleteRow, Statement.rowOps]
    by_cases hj : j = k
    · subst hj
      by_cases hid : i = id
      · simp [hid, SlotOp.act]
      · simp [hid, Database.rowsAt]
    · simp [hj]
  | truncate j =>
    show (db.setRows j _).rowsAt k id = _
    rw [rowsAt_setRows, Statement.rowOps]
    split <;> rfl
  | copyTags j rows => rfl
  | diffTags j i tags => rfl
  | deleteTags j i => rfl
  | setSequence seq => rfl
  | truncateTags j => rfl

/-! ## Tags -/

theorem tagValues_append (a b : List TagRow) :
    tagValues (a ++ b) id key = tagValues a id key ++ tagValues b id key := by
  unfold tagValues
  rw [List.filter_append, List.map_append]

theorem tagValues_cons (r : TagRow) (table : List TagRow) : tagValues (r :: table) id key =
    if r.id = id ∧ r.key_name = key then r.key_value :: tagValues table id key
    else tagValues table id key := by
  unfold tagValues
  rw [List.filter_cons]
  by_cases h : r.id = id ∧ r.key_name = key
  · simp [h]
  · rw [if_neg h, if_neg (by simpa using h)]

theorem tagValues_updateTag (table : List TagRow) (i : Int64) (j v : Str) :
    tagValues (updateTag table i j v) id key =
      if i = id ∧ j = key then (tagValues table id key).map fun _ => v else tagValues table id key := by
  induction table with
  | nil => simp [updateTag, tagValues]
  | cons r table ih =>
    unfold updateTag at ih ⊢
    rw [List.map_cons, tagValues_cons, ih, tagValues_cons]
    by_cases hr : r.id = i ∧ r.key_name = j
    · obtain ⟨rfl, rfl⟩ := hr
      simp only [and_self, if_true]
      split <;> rfl
    · rw [if_neg hr]
      by_cases hcell : i = id ∧ j = key
      · obtain ⟨rfl, rfl⟩ := hcell
        simp [hr]
      · simp [hcell]

theorem tagValues_deleteTag (table : List TagRow) (i : Int64) (j : Str) :
    tagValues (deleteTag table i j) id key =
      if i = id ∧ j = key then [] else tagValues table id key := by
  unfold tagValues deleteTag
  rw [List.filter_filter]
  split
  · rename_i h
    obtain ⟨rfl, rfl⟩ := h
    simp [List.filter_eq_nil_iff]
  · rename_i h
    refine congrArg _ (List.filter_congr fun r _ => ?_)
    by_cases hr : r.id = id ∧ r.key_name = key
    · obtain ⟨rfl, rfl⟩ := hr
      have hne : ¬ (r.id = i ∧ r.key_name = j) := fun he => h ⟨he.1.symm, he.2.symm⟩
      simpa [imp_iff_not_or] using hne
    · have hfalse : (r.id == id && r.key_name == key) = false := by simpa using hr
      rw [hfalse, Bool.false_and]

theorem tagValues_deleteTags (table : List TagRow) (i : Int64) :
    tagValues (table.filter fun r => r.id != i) id key =
      if i = id then [] else tagValues table id key := by
  unfold tagValues
  rw [List.filter_filter]
  split
  · rename_i h
    subst h
    rw [List.map_eq_nil_iff, List.filter_eq_nil_iff]
    intro r _
    by_cases hr : r.id = i <;> simp [hr]
  · rename_i h
    refine congrArg _ (List.filter_congr fun r _ => ?_)
    by_cases hr : r.id = id
    · simp [hr, Ne.symm h]
    · simp [hr]

/-- `existing` has the last value of each key. -/
theorem lookup_existingTags (table : List TagRow) :
    (existingTags table id).lookup key = (tagValues table id key).getLast? := by
  induction table using List.reverseRecOn with
  | nil => rfl
  | append_singleton table r ih =>
    unfold existingTags at ih ⊢
    rw [List.filter_append, tagValues_append]
    by_cases hid : r.id = id
    · have hr : [r].filter (fun r => r.id == id) = [r] := by simp [hid]
      rw [hr, List.foldl_append, List.foldl_cons, List.foldl_nil, AssocList.lookup_concat,
        AssocList.lookup_without, ih]
      by_cases hk : key = r.key_name
      · subst hk
        simp [tagValues, hid]
      · simp [tagValues, hid, hk, Ne.symm hk]
    · have hr : [r].filter (fun r => r.id == id) = [] := by simp [hid]
      have hvalues : tagValues [r] id key = [] := by simp [tagValues, hid]
      rw [hr, List.append_nil, hvalues, List.append_nil, ih]

/-- What a round of `diffTags` makes of the values of its key. -/
def diffValues (x : List Str) (existing : Option Str) (v : Str) : List Str :=
  match existing with
  | none => x ++ [v]
  | some v' => if v' ≠ v then x.map fun _ => v else x

theorem tagValues_diffTag (i : Int64) (table : List TagRow) (existing : List (Str × Str)) (kv : Str × Str) :
    tagValues (diffTag i (table, existing) kv).1 id key =
      if i = id ∧ kv.1 = key then diffValues (tagValues table id key) (existing.lookup key) kv.2
      else tagValues table id key := by
  obtain ⟨j, v⟩ := kv
  unfold diffTag diffValues
  dsimp only
  cases hlookup : existing.lookup j with
  | none =>
    dsimp only
    rw [tagValues_append, tagValues_cons]
    by_cases h : i = id ∧ j = key
    · obtain ⟨rfl, rfl⟩ := h
      simp [hlookup, tagValues]
    · simp [h, tagValues]
  | some v' =>
    dsimp only
    by_cases hv : v' = v
    · rw [if_neg (not_not.mpr hv)]
      by_cases h : i = id ∧ j = key
      · obtain ⟨rfl, rfl⟩ := h
        simp [hlookup, hv]
      · rw [if_neg h]
    · rw [if_pos hv, tagValues_updateTag]
      by_cases h : i = id ∧ j = key
      · obtain ⟨rfl, rfl⟩ := h
        simp [hlookup, hv]
      · rw [if_neg h, if_neg h]

theorem lookup_diffTag (i : Int64) (table : List TagRow) (existing : List (Str × Str)) (kv : Str × Str) :
    (diffTag i (table, existing) kv).2.lookup key = if key = kv.1 then none else existing.lookup key :=
  AssocList.lookup_without existing kv.1 key

/-- The first loop of `diffTags`. -/
theorem tagValues_diffLoop (id : Int64) (key : Str) {entries : List (Str × Str)}
    (hnodup : (entries.map Prod.fst).Nodup) (i : Int64) (table : List TagRow)
    (existing : List (Str × Str)) :
    tagValues (entries.foldl (diffTag i) (table, existing)).1 id key =
      (if i = id then match entries.lookup key with
        | some v => diffValues (tagValues table id key) (existing.lookup key) v
        | none => tagValues table id key
      else tagValues table id key) ∧
    (entries.foldl (diffTag i) (table, existing)).2.lookup key =
      if (entries.lookup key).isSome then none else existing.lookup key := by
  induction entries generalizing table existing with
  | nil =>
    refine ⟨?_, rfl⟩
    split <;> rfl
  | cons kv entries ih =>
    obtain ⟨hnew, hnodup⟩ := List.nodup_cons.mp hnodup
    rw [List.foldl_cons]
    obtain ⟨hvalues, hlookup⟩ := ih hnodup (diffTag i (table, existing) kv).1
      (diffTag i (table, existing) kv).2
    rw [hvalues, hlookup, tagValues_diffTag, lookup_diffTag]
    by_cases hk : key = kv.1
    · have hnone : entries.lookup key = none := AssocList.lookup_eq_none_iff.mpr (hk ▸ hnew)
      subst hk
      rw [hnone, AssocList.lookup_cons, if_pos rfl]
      simp
    · rw [AssocList.lookup_cons, if_neg hk, if_neg hk]
      simp [Ne.symm hk]

/-- The second loop. -/
theorem tagValues_deleteLoop (existing : List (Str × Str)) (i : Int64) (table : List TagRow) :
    tagValues (existing.foldl (fun table kv => deleteTag table i kv.1) table) id key =
      if i = id ∧ (existing.lookup key).isSome then [] else tagValues table id key := by
  induction existing generalizing table with
  | nil => simp
  | cons kv existing ih =>
    rw [List.foldl_cons, ih, tagValues_deleteTag, List.lookup_cons]
    by_cases hk : key = kv.1
    · subst hk
      by_cases hid : i = id <;> simp [hid]
    · have hne : (key == kv.1) = false := by simpa using hk
      have hcell : ¬ (i = id ∧ kv.1 = key) := fun h => hk h.2.symm
      rw [hne, if_neg hcell]

/-- Both loops, on a map that holds the rows of the id. -/
theorem tagValues_diffLoops {table : List TagRow} {i : Int64} {existing entries : List (Str × Str)}
    (hex : ∀ key, existing.lookup key = (tagValues table i key).getLast?)
    (hen : (entries.map Prod.fst).Nodup) (id : Int64) (key : Str) :
    tagValues ((entries.foldl (diffTag i) (table, existing)).2.foldl
        (fun table kv => deleteTag table i kv.1) (entries.foldl (diffTag i) (table, existing)).1) id key =
      if i = id then BagOp.act (tagValues table id key) (.sync (entries.lookup key))
      else tagValues table id key := by
  obtain ⟨hvalues, hlookup⟩ := tagValues_diffLoop id key hen i table existing
  rw [tagValues_deleteLoop, hvalues, hlookup]
  by_cases hid : i = id
  · subst hid
    rw [hex]
    simp only [true_and, if_true]
    generalize tagValues table i key = x
    cases entries.lookup key with
    | none =>
      cases x using List.reverseRecOn with
      | nil => rfl
      | append_singleton x v => simp [BagOp.act]
    | some v =>
      cases x using List.reverseRecOn with
      | nil => rfl
      | append_singleton x w =>
        by_cases hw : w = v <;> simp [BagOp.act, BagOp.syncTo, diffValues, hw]
  · rw [if_neg hid, if_neg fun h => hid h.1, if_neg hid]

/-- `diffTags`. -/
theorem tagValues_diffTags (table : List TagRow) (i : Int64) (tags : Tags) :
    tagValues (diffTags table i tags) id key =
      if i = id then BagOp.act (tagValues table id key) (.sync (tags.find key))
      else tagValues table id key :=
  tagValues_diffLoops (fun _ => lookup_existingTags table) tags.nodup id key

theorem valuesAt_setTags (db : Database) (j : Kind) (rows : List TagRow) :
    (db.setTags j rows).valuesAt k id key =
      if j = k then tagValues rows id key else db.valuesAt k id key := by
  unfold Database.valuesAt
  rw [Database.tags_setTags]
  split
  · rename_i h
    rw [h, Function.update_self]
  · rename_i h
    rw [Function.update_of_ne (Ne.symm h)]

/-- A statement, on the values of a tag. -/
theorem valuesAt_settle (db : Database) (st : Statement) :
    (db.settle chk st).valuesAt k id key =
      (st.tagOps k id key).foldl BagOp.act (db.valuesAt k id key) := by
  cases st with
  | copyTags j rows =>
    show (db.setTags j _).valuesAt k id key = _
    rw [valuesAt_setTags, tagValues_append, Statement.tagOps]
    split
    · rename_i h
      subst h
      rfl
    · rfl
  | diffTags j i tags =>
    show (db.setTags j _).valuesAt k id key = _
    rw [valuesAt_setTags, tagValues_diffTags, Statement.tagOps]
    by_cases hj : j = k
    · subst hj
      by_cases hid : i = id
      · simp [hid, Database.valuesAt]
      · simp [hid, Database.valuesAt]
    · simp [hj]
  | deleteTags j i =>
    show (db.setTags j _).valuesAt k id key = _
    rw [valuesAt_setTags, tagValues_deleteTags, Statement.tagOps]
    by_cases hj : j = k
    · subst hj
      by_cases hid : i = id
      · simp [hid, BagOp.act]
      · simp [hid, Database.valuesAt]
    · simp [hj]
  | truncateTags j =>
    show (db.setTags j _).valuesAt k id key = _
    rw [valuesAt_setTags, Statement.tagOps]
    split <;> rfl
  | copy j rows => rfl
  | update j row => rfl
  | delete j i => rfl
  | setSequence seq => rfl
  | truncate j => rfl

/-! ## Runs of statements -/

theorem rowsAt_foldl (db : Database) (sts : List Statement) :
    (sts.foldl (Database.settle chk) db).rowsAt k id =
      (sts.flatMap (Statement.rowOps chk k id)).foldl SlotOp.act (db.rowsAt k id) := by
  induction sts generalizing db with
  | nil => rfl
  | cons st sts ih => rw [List.foldl_cons, ih, rowsAt_settle, List.flatMap_cons, List.foldl_append]

theorem valuesAt_foldl (db : Database) (sts : List Statement) :
    (sts.foldl (Database.settle chk) db).valuesAt k id key =
      (sts.flatMap (Statement.tagOps k id key)).foldl BagOp.act (db.valuesAt k id key) := by
  induction sts generalizing db with
  | nil => rfl
  | cons st sts ih => rw [List.foldl_cons, ih, valuesAt_settle, List.flatMap_cons, List.foldl_append]

/-! ## Tables -/

/-- The rows of a table, up to their order. -/
theorem rows_perm_iff {a b : Database} :
    (a.rows k).Perm (b.rows k) ↔ ∀ id, (a.rowsAt k id).Perm (b.rowsAt k id) := by
  constructor
  · exact fun h id => h.filter _
  · intro h
    rw [List.perm_iff_count]
    intro r
    have hcount : ∀ l : List Row, l.count r = (l.filter fun r' => r'.id == r.id).count r := by
      intro l
      rw [List.count_filter]
      exact beq_self_eq_true r.id
    rw [hcount (a.rows k), hcount (b.rows k)]
    exact (h r.id).count_eq r

/-- The rows of a tag table, up to their order. -/
theorem tagRows_perm_iff {a b : List TagRow} :
    a.Perm b ↔ ∀ id key, (tagValues a id key).Perm (tagValues b id key) := by
  constructor
  · exact fun h id key => (h.filter _).map _
  · intro h
    rw [List.perm_iff_count]
    intro r
    have hcount : ∀ l : List TagRow,
        l.count r = (tagValues l r.id r.key_name).count r.key_value := by
      intro l
      induction l with
      | nil => rfl
      | cons r' l ih =>
        rw [List.count_cons, tagValues_cons, ih]
        by_cases hcell : r'.id = r.id ∧ r'.key_name = r.key_name
        · rw [if_pos hcell, List.count_cons]
          have heq : (r' == r) = (r'.key_value == r.key_value) := by
            obtain ⟨hid, hkey⟩ := hcell
            cases r
            cases r'
            simp_all
          rw [heq]
        · rw [if_neg hcell, if_neg, Nat.add_zero]
          intro he
          rw [eq_of_beq he] at hcell
          exact hcell ⟨rfl, rfl⟩
    rw [hcount a, hcount b]
    exact (h r.id r.key_name).count_eq r.key_value

/-- The tags of a table, up to their order. -/
theorem tags_perm_iff {a b : Database} :
    (a.tags k).Perm (b.tags k) ↔
      ∀ id key, (a.valuesAt k id key).Perm (b.valuesAt k id key) := tagRows_perm_iff

end OsmImport
