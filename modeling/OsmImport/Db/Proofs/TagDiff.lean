import OsmImport.Db.Proofs.Cells

/-!
# Tag differences

The statements that `diffTags` and `updateNode` send upon their SELECT, for any order in which the two hash
maps are iterated over. They make the tags of an entity the given ones, leave the other entities alone, and
send nothing when the tags are there already.
-/

namespace OsmImport

open Replay

/-- A statement behind the SELECT. -/
inductive TagWrite where
  | insert (k v : Str)
  | update (k v : Str)
  | delete (k : Str)

/-- Its effect on the tag table. -/
def TagWrite.apply (id : Int64) (table : List TagRow) : TagWrite → List TagRow
  | insert k v => table ++ [⟨id, k, v⟩]
  | update k v => updateTag table id k v
  | delete k => deleteTag table id k

/-- The statement for a pair of the tags, if there is one. -/
def writeFor (existing : List (Str × Str)) (kv : Str × Str) : List TagWrite :=
  match existing.lookup kv.1 with
  | none => [.insert kv.1 kv.2]
  | some v => if v ≠ kv.2 then [.update kv.1 kv.2] else []

/-- All statements: the loop over the tags, then the loop over what is left of `existing`. -/
def diffWrites : List (Str × Str) → List (Str × Str) → List TagWrite
  | existing, [] => existing.map fun kv => .delete kv.1
  | existing, kv :: entries =>
    writeFor existing kv ++ diffWrites (existing.filter fun p => p.1 != kv.1) entries

/-- The table behind the statements. -/
def applyWrites (table : List TagRow) (id : Int64) (ws : List TagWrite) : List TagRow :=
  ws.foldl (TagWrite.apply id) table

/-- Each id has at most one row for a key. -/
def UniqueTags (table : List TagRow) : Prop := ∀ id key, (tagValues table id key).length ≤ 1

theorem uniqueTags_iff {table : List TagRow} :
    UniqueTags table ↔ (table.map fun r => (r.id, r.key_name)).Nodup := by
  have hcount : ∀ id key, (tagValues table id key).length =
      (table.map fun r => (r.id, r.key_name)).count (id, key) := by
    intro id key
    rw [tagValues, List.length_map, List.count_eq_countP, List.countP_map, List.countP_eq_length_filter]
    rfl
  rw [List.nodup_iff_count_le_one]
  constructor
  · intro h c
    rw [← hcount]
    exact h c.1 c.2
  · intro h id key
    rw [hcount]
    exact h (id, key)

/-! ## The two loops -/

theorem applyWrites_writeFor (table : List TagRow) (id : Int64) (existing : List (Str × Str))
    (kv : Str × Str) :
    (applyWrites table id (writeFor existing kv), existing.filter fun p => p.1 != kv.1) =
      diffTag id (table, existing) kv := by
  obtain ⟨k, v⟩ := kv
  unfold writeFor diffTag
  dsimp only
  cases existing.lookup k with
  | none => rfl
  | some v' =>
    dsimp only
    split <;> rfl

theorem applyWrites_eq (table : List TagRow) (id : Int64) (existing entries : List (Str × Str)) :
    applyWrites table id (diffWrites existing entries) =
      (entries.foldl (diffTag id) (table, existing)).2.foldl (fun table kv => deleteTag table id kv.1)
        (entries.foldl (diffTag id) (table, existing)).1 := by
  induction entries generalizing table existing with
  | nil =>
    show applyWrites table id (existing.map fun kv => TagWrite.delete kv.1) = _
    unfold applyWrites
    rw [List.foldl_map]
    rfl
  | cons kv entries ih =>
    rw [List.foldl_cons, ← applyWrites_writeFor, diffWrites, applyWrites, List.foldl_append]
    exact ih _ _

/-- The model of `diffTags` is what its statements do. -/
theorem diffTags_eq_writes (table : List TagRow) (id : Int64) (tags : Tags) :
    diffTags table id tags =
      applyWrites table id (diffWrites (existingTags table id) tags.entries) :=
  (applyWrites_eq table id _ _).symm

/-! ## Maps in any order -/

theorem keys_existingTags (table : List TagRow) (id : Int64) :
    ((existingTags table id).map Prod.fst).Nodup := by
  unfold existingTags
  induction table.filter (fun r => r.id == id) using List.reverseRecOn with
  | nil => exact List.nodup_nil
  | append_singleton rows r ih =>
    rw [List.foldl_append, List.foldl_cons, List.foldl_nil, List.map_append]
    generalize rows.foldl (fun existing r =>
      (existing.filter fun p => p.1 != r.key_name) ++ [(r.key_name, r.key_value)]) [] = existing at ih ⊢
    refine List.nodup_append.mpr
      ⟨(List.filter_sublist.map Prod.fst).nodup ih, List.nodup_singleton _, ?_⟩
    intro k hk k' hk'
    obtain ⟨p, hp, rfl⟩ := List.mem_map.mp hk
    rw [List.mem_singleton.mp hk']
    simpa using (List.mem_filter.mp hp).2

/-! ## What the statements establish -/

/-- The values of a cell behind the statements, for a map `existing` that holds the rows of the id. -/
theorem tagValues_applyWrites {table : List TagRow} {id : Int64} {existing entries : List (Str × Str)}
    (hex : ∀ key, existing.lookup key = (tagValues table id key).getLast?)
    (hen : (entries.map Prod.fst).Nodup) (i : Int64) (key : Str) :
    tagValues (applyWrites table id (diffWrites existing entries)) i key =
      if id = i then BagOp.act (tagValues table i key) (.sync (entries.lookup key))
      else tagValues table i key := by
  rw [applyWrites_eq]
  exact tagValues_diffLoops hex hen i key

theorem act_sync_unique {x : List Str} (hx : x.length ≤ 1) (o : Option Str) :
    BagOp.act x (.sync o) = o.toList := by
  cases o with
  | none => rfl
  | some v =>
    rcases x with _ | ⟨w, _ | ⟨w', x⟩⟩
    · rfl
    · by_cases hw : w = v <;> simp [BagOp.act, BagOp.syncTo, hw]
    · simp at hx

/-- No statement touches the rows of another id. -/
theorem filter_applyWrites (table : List TagRow) (id : Int64) (ws : List TagWrite) :
    (applyWrites table id ws).filter (fun r => r.id != id) = table.filter fun r => r.id != id := by
  induction ws generalizing table with
  | nil => rfl
  | cons w ws ih =>
    refine (ih (w.apply id table)).trans ?_
    cases w with
    | insert k v => simp [TagWrite.apply, List.filter_append]
    | update k v =>
      induction table with
      | nil => rfl
      | cons r table ih =>
        simp only [TagWrite.apply, updateTag] at ih ⊢
        rw [List.map_cons, List.filter_cons, List.filter_cons, ih]
        by_cases hr : r.id = id ∧ r.key_name = k
        · simp [hr]
        · rw [if_neg hr]
    | delete k =>
      rw [TagWrite.apply, deleteTag, List.filter_filter]
      refine List.filter_congr fun r _ => ?_
      by_cases hr : r.id = id <;> simp [hr]

/-- The rows that a map is for an id. -/
def rowsFor (id : Int64) (entries : List (Str × Str)) : List TagRow :=
  entries.map fun kv => ⟨id, kv.1, kv.2⟩

theorem tagValues_rowsFor (id : Int64) {entries : List (Str × Str)} (h : (entries.map Prod.fst).Nodup)
    (i : Int64) (key : Str) :
    tagValues (rowsFor id entries) i key = if id = i then (entries.lookup key).toList else [] := by
  induction entries with
  | nil =>
    split <;> rfl
  | cons kv entries ih =>
    obtain ⟨hnew, hrest⟩ := List.nodup_cons.mp h
    show tagValues (⟨id, kv.1, kv.2⟩ :: rowsFor id entries) i key = _
    rw [tagValues_cons, ih hrest, List.lookup_cons]
    by_cases hk : key = kv.1
    · have hnone : entries.lookup key = none := by
        rw [List.lookup_eq_none_iff]
        intro p hp
        have hne : key ≠ p.1 := fun he => hnew (hk ▸ he ▸ List.mem_map_of_mem hp)
        simpa using hne
      subst hk
      rw [hnone]
      by_cases hid : id = i <;> simp [hid]
    · have hne : (key == kv.1) = false := by simpa using hk
      rw [hne, if_neg fun hcell => hk hcell.2.symm]

theorem tagValues_ofId (table : List TagRow) (id i : Int64) (key : Str) :
    tagValues (table.filter fun r => r.id == id) i key =
      if id = i then tagValues table i key else [] := by
  unfold tagValues
  rw [List.filter_filter]
  split
  · rename_i h
    subst h
    refine congrArg _ (List.filter_congr fun r _ => ?_)
    by_cases hr : r.id = id <;> simp [hr]
  · rename_i h
    rw [List.map_eq_nil_iff, List.filter_eq_nil_iff]
    intro r _
    by_cases hr : r.id = i
    · simp [hr, Ne.symm h]
    · simp [hr]

/-- A map that holds the rows of the id already: nothing is sent. -/
theorem diffWrites_eq_nil {existing entries : List (Str × Str)}
    (h : ∀ key, existing.lookup key = entries.lookup key) (hen : (entries.map Prod.fst).Nodup) :
    diffWrites existing entries = [] := by
  induction entries generalizing existing with
  | nil =>
    have hnil : existing = [] := by
      cases existing with
      | nil => rfl
      | cons p existing =>
        have hp := h p.1
        simp at hp
    rw [hnil]
    rfl
  | cons kv entries ih =>
    obtain ⟨hnew, hrest⟩ := List.nodup_cons.mp hen
    have hkv : existing.lookup kv.1 = some kv.2 := by
      rw [h, List.lookup_cons, beq_self_eq_true]
    have hwrite : writeFor existing kv = [] := by simp [writeFor, hkv]
    rw [diffWrites, hwrite, List.nil_append]
    refine ih (fun key => ?_) hrest
    rw [AssocList.lookup_without]
    by_cases hk : key = kv.1
    · rw [if_pos hk, hk, eq_comm, List.lookup_eq_none_iff]
      intro p hp
      have hne : kv.1 ≠ p.1 := fun he => hnew (he ▸ List.mem_map_of_mem hp)
      simpa using hne
    · have hne : (key == kv.1) = false := by simpa using hk
      rw [if_neg hk, h, List.lookup_cons, hne]

/-! ## Every order of iteration -/

/-- What holds behind the statements for an id and its tags. -/
structure Synced (table table' : List TagRow) (id : Int64) (tags : Tags) : Prop where
  own : (table'.filter fun r => r.id == id).Perm (rowsFor id tags.entries)
  others : (table'.filter fun r => r.id != id) = table.filter fun r => r.id != id
  unique : UniqueTags table'

section

variable {table : List TagRow} {id : Int64} {tags : Tags} {existing entries : List (Str × Str)}

theorem lookup_existing (hex : existing.Perm (existingTags table id)) (key : Str) :
    existing.lookup key = (tagValues table id key).getLast? :=
  (AssocList.lookup_perm hex (keys_existingTags table id) key).trans (lookup_existingTags table)

/-- The cells behind the statements, where there was at most one row in each. -/
theorem tagValues_synced (h : UniqueTags table) (hex : existing.Perm (existingTags table id))
    (hen : entries.Perm tags.entries) (i : Int64) (key : Str) :
    tagValues (applyWrites table id (diffWrites existing entries)) i key =
      if id = i then (tags.find key).toList else tagValues table i key := by
  have hkeys : (entries.map Prod.fst).Nodup := (hen.map Prod.fst).nodup_iff.mpr tags.nodup
  rw [tagValues_applyWrites (lookup_existing hex) hkeys, act_sync_unique (h i key),
    AssocList.lookup_perm hen tags.nodup]
  rfl

theorem synced (h : UniqueTags table) (hex : existing.Perm (existingTags table id))
    (hen : entries.Perm tags.entries) :
    Synced table (applyWrites table id (diffWrites existing entries)) id tags := by
  refine ⟨tagRows_perm_iff.mpr fun i key => ?_, filter_applyWrites table id _, fun i key => ?_⟩
  · rw [tagValues_ofId, tagValues_synced h hex hen, tagValues_rowsFor id tags.nodup]
    split <;> exact List.Perm.refl _
  · rw [tagValues_synced h hex hen]
    split
    · cases tags.find key <;> simp
    · exact h i key

end

/-- **The difference of tags.** Whatever the order in which the two maps are iterated over, the statements
make the rows of the id the pairs of the map, change no row of another id and keep `(id, key)` unique; the
table is that of `diffTags` up to the order of its rows, and a second call sends nothing. The tag table may
be any of the four. -/
theorem diffTags_establishes (db : Database) (k : Kind) (h : UniqueTags (db.tags k)) (id : Int64)
    (tags : Tags) {existing entries : List (Str × Str)}
    (hex : existing.Perm (existingTags (db.tags k) id)) (hen : entries.Perm tags.entries) :
    let table' := applyWrites (db.tags k) id (diffWrites existing entries)
    Synced (db.tags k) table' id tags ∧ table'.Perm ((db.exec (.diffTags k id tags)).tags k) ∧
      ∀ existing' entries' : List (Str × Str), existing'.Perm (existingTags table' id) →
        entries'.Perm tags.entries → diffWrites existing' entries' = [] := by
  refine ⟨synced h hex hen, ?_, fun existing' entries' hex' hen' => ?_⟩
  · have hdb : (db.exec (.diffTags k id tags)).tags k = diffTags (db.tags k) id tags :=
      Function.update_self ..
    rw [hdb, diffTags_eq_writes]
    refine tagRows_perm_iff.mpr fun i key => ?_
    rw [tagValues_synced h hex hen, tagValues_synced h (List.Perm.refl _) (List.Perm.refl _)]
  · have hkeys : (entries'.map Prod.fst).Nodup := (hen'.map Prod.fst).nodup_iff.mpr tags.nodup
    refine diffWrites_eq_nil (fun key => ?_) hkeys
    rw [lookup_existing hex', tagValues_synced h hex hen, if_pos rfl, AssocList.lookup_perm hen' tags.nodup,
      Tags.find]
    cases tags.entries.lookup key <;> rfl

/-- The tags of a way before a change, and those of another way. -/
def tagsBefore : List TagRow :=
  [⟨7, str "highway", str "path"⟩, ⟨7, str "lit", str "no"⟩, ⟨8, str "highway", str "path"⟩]

/-- Its tags behind the change: one is new, one has another value, one is gone. -/
def tagsAfter : Tags := ⟨[(str "name", str "Weg"), (str "highway", str "track")], by decide⟩

theorem diffTags_establishes_three : let db : Database := ⟨fun _ => [], fun _ => tagsBefore, none⟩
    let table' := applyWrites tagsBefore 7
      (diffWrites [(str "lit", str "no"), (str "highway", str "path")] tagsAfter.entries.reverse)
    Synced tagsBefore table' 7 tagsAfter ∧ table'.Perm ((db.exec (.diffTags .way 7 tagsAfter)).tags .way) ∧
      ∀ existing' entries' : List (Str × Str), existing'.Perm (existingTags table' 7) →
        entries'.Perm tagsAfter.entries → diffWrites existing' entries' = [] :=
  diffTags_establishes ⟨fun _ => [], fun _ => tagsBefore, none⟩ .way
    (uniqueTags_iff.mpr (by decide +kernel)) 7 tagsAfter (by decide +kernel) (List.reverse_perm _)

end OsmImport
