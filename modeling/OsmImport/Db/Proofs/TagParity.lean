import OsmImport.Db.Proofs.TagDiff
import OsmImport.Db.Proofs.TagRouting

/-!
# Tags of inserts and of updates

An insert keeps the tags whose key and value consist of letters and digits (`allAlphaNum`); an update stores
every tag it is given. The two leave the same tags behind exactly if the filter takes all of them.
-/

namespace OsmImport

open NavDB

/-- Every transaction is accepted. -/
def AcceptsAll (srv : Server) : Prop := ∀ log db txn, srv.respond log db txn = .ok

theorem acceptsAll_acceptAll : AcceptsAll acceptAll := fun _ _ _ => rfl

theorem AcceptsAll.accepting {srv : Server} (h : AcceptsAll srv) : Accepting srv :=
  ⟨fun _ _ _ _ => h .., fun _ _ _ _ => h ..⟩

/-- The tags of an entity. -/
def tagsOf (table : List TagRow) (id : Int64) : List (Str × Str) :=
  (table.filter fun r => r.id == id).map fun r => (r.key_name, r.key_value)

/-- The filter of the inserts takes a tag. -/
def Kept (kv : Str × Str) : Prop := allAlphaNum kv.1 = true ∧ allAlphaNum kv.2 = true

/-- `updateWay` and `updateArea`; the inserts of the two with a flush of the table. -/
structure TagPath where
  kind : Kind
  update : Server → Int64 → Str → Tags → Str → Exec Unit
  insert : Server → Int64 → Str → Tags → Str → Exec Unit

def wayPath : TagPath where
  kind := .way
  update := updateWay
  insert srv id name tags geog := do insertWay srv id name tags geog; flushWays srv

def areaPath : TagPath where
  kind := .area
  update := updateArea
  insert srv id name tags geog := do insertArea srv id name tags geog; flushAreas srv

/-! ## Both paths -/

section

variable {srv : Server} {k : Kind} {s : Session}

theorem tagsOf_rowsFor (id : Int64) (entries : List (Str × Str)) :
    tagsOf (rowsFor id entries) id = entries := by
  have hall : (rowsFor id entries).filter (fun r => r.id == id) = rowsFor id entries := by
    rw [List.filter_eq_self]
    intro r hr
    obtain ⟨kv, -, rfl⟩ := List.mem_map.mp hr
    exact beq_self_eq_true id
  rw [tagsOf, hall, rowsFor, List.map_map]
  exact List.map_id _

/-- The tags behind an update. -/
theorem run_updateIn (h : AcceptsAll srv) (hs : UniqueTags (s.db.tags k)) (id : Int64) (name : Str)
    (tags : Tags) (geog : Option Str) :
    (updateIn srv k id name tags geog).Ends s fun _ s' =>
      (tagsOf (s'.db.tags k) id).Perm tags.entries := by
  apply Prog.ensures_of_run (send_ok (h ..))
  have htags : ((s.committed [.update k ⟨id, name, none, geog⟩, .diffTags k id tags] .ok).db.tags k) =
      diffTags (s.db.tags k) id tags := Function.update_self ..
  have hown := (synced hs (List.Perm.refl (existingTags (s.db.tags k) id))
    (List.Perm.refl tags.entries)).own
  rw [htags, diffTags_eq_writes]
  exact (hown.map _).trans (List.Perm.of_eq (List.map_map.trans (List.map_id _)))

/-- The tags behind an insert and a flush. -/
theorem run_insertFlush (h : Accepting srv) (hs : Idle s) (hk : k ≠ .node) (row : Row)
    (hfresh : tagsOf (s.db.tags k) row.id = []) (tags : Tags) :
    (do insertInto srv k row tags; flush srv k : Exec Unit).Ends s fun _ s' =>
      tagsOf (s'.db.tags k) row.id = tags.entries.filter fun kv => allAlphaNum kv.1 && allAlphaNum kv.2 := by
  have hbuf : (s.buffered k row tags).nav.buf k = [row] := by
    rw [Session.buffered_buf, Function.update_self, hs.1 k, List.nil_append]
  have hfull : full (s.buffered k row tags).nav k = false := by
    cases k <;> simp_all [full, way_buffer_size, WAY_BUFFER_SIZE]
    omega
  have hrun : (do insertInto srv k row tags; flush srv k : Exec Unit).run s =
      .done () ((s.buffered k row tags).flushed k) := by
    rw [Prog.run_bind_done (insertInto_accepting h k row tags s), Session.inserted, hfull]
    exact flush_accepting h k _
  apply Prog.ensures_of_run hrun
  have htags : ((s.buffered k row tags).flushed k).db.tags k = s.db.tags k ++ tagRows row.id tags := by
    rw [Session.flushed_tags (hbuf ▸ List.cons_ne_nil _ _), Function.update_self, Session.buffered_tagBuf,
      Function.update_self, hs.2, List.nil_append]
    rfl
  rw [htags, tagsOf, List.filter_append, List.map_append]
  show tagsOf (s.db.tags k) row.id ++ tagsOf (tagRows row.id tags) row.id = _
  rw [hfresh, List.nil_append]
  exact tagsOf_rowsFor row.id _

end

/-! ## Where they agree -/

theorem filter_same_iff (entries : List (Str × Str)) :
    (∀ kv, kv ∈ entries ↔ kv ∈ entries.filter fun kv => allAlphaNum kv.1 && allAlphaNum kv.2) ↔
      ∀ kv ∈ entries, Kept kv := by
  refine forall_congr' fun kv => ?_
  rw [List.mem_filter, Bool.and_eq_true]
  exact ⟨fun h hkv => (h.mp hkv).2, fun h => ⟨fun hkv => ⟨hkv, h hkv⟩, fun hkv => hkv.1⟩⟩

/-- On both paths, for any earlier tags, any map and any ids: the tags behind the update are those behind
the insert and its flush exactly if every key and value is a text of letters and digits. -/
theorem same_tags_iff {srv : Server} (h : AcceptsAll srv) {path : TagPath}
    (hpath : path ∈ [wayPath, areaPath]) {s t : Session} (hs : UniqueTags (s.db.tags path.kind))
    (ht : Idle t) (id : Int64) {j : Int64} (hfresh : tagsOf (t.db.tags path.kind) j = [])
    (name name' : Str) (tags : Tags) (geog geog' : Str) :
    ∃ s' t', (path.update srv id name tags geog).run s = .done () s' ∧
      (path.insert srv j name' tags geog').run t = .done () t' ∧
      ((∀ kv, kv ∈ tagsOf (s'.db.tags path.kind) id ↔ kv ∈ tagsOf (t'.db.tags path.kind) j) ↔
        ∀ kv ∈ tags.entries, Kept kv) := by
  have hupdate : path.update srv id name tags geog = updateIn srv path.kind id name tags (some geog) := by
    simp only [List.mem_cons, List.not_mem_nil, or_false] at hpath
    rcases hpath with rfl | rfl <;> rfl
  have hinsert : path.kind ≠ .node ∧ path.insert srv j name' tags geog' =
      (do insertInto srv path.kind ⟨j, name', none, some geog'⟩ tags; flush srv path.kind : Exec Unit) := by
    simp only [List.mem_cons, List.not_mem_nil, or_false] at hpath
    rcases hpath with rfl | rfl
    · refine ⟨by decide, ?_⟩
      show (do insertWay srv j name' tags geog'; flushWays srv : Exec Unit) = _
      rw [insertWay_eq]
      rfl
    · refine ⟨by decide, ?_⟩
      show (do insertArea srv j name' tags geog'; flushAreas srv : Exec Unit) = _
      rw [insertArea_eq]
      rfl
  obtain ⟨_, s', hrun, htags⟩ := (run_updateIn h hs id name tags (some geog)).exists
  obtain ⟨_, t', hrun', htags'⟩ :=
    (run_insertFlush h.accepting ht hinsert.1 ⟨j, name', none, some geog'⟩ hfresh tags).exists
  refine ⟨s', t', hupdate ▸ hrun, hinsert.2 ▸ hrun', ?_⟩
  rw [← filter_same_iff]
  refine forall_congr' fun kv => ?_
  rw [htags.mem_iff, htags']

/-- A name with a space in it. -/
def mainStreet : Tags := ⟨[(str "name", str "Main Street")], by decide⟩

theorem same_tags_iff_highway : ∃ s' t',
    (wayPath.update acceptAll 7 [] highwayTag []).run idleSession = .done () s' ∧
    (wayPath.insert acceptAll 7 [] highwayTag []).run idleSession = .done () t' ∧
    ((∀ kv, kv ∈ tagsOf (s'.db.tags .way) 7 ↔ kv ∈ tagsOf (t'.db.tags .way) 7) ↔
      ∀ kv ∈ highwayTag.entries, Kept kv) :=
  same_tags_iff acceptsAll_acceptAll List.mem_cons_self (s := idleSession)
    (t := idleSession) (fun _ _ => Nat.zero_le 1) ⟨fun _ => rfl, fun _ => rfl⟩ 7 (j := 7) rfl [] []
    highwayTag [] []

/-- The update stores the name, the insert does not. -/
theorem name_lost_by_insert : ∃ s' t',
    (wayPath.update acceptAll 7 [] mainStreet []).run idleSession = .done () s' ∧
    (wayPath.insert acceptAll 7 [] mainStreet []).run idleSession = .done () t' ∧
    ¬ ∀ kv, kv ∈ tagsOf (s'.db.tags .way) 7 ↔ kv ∈ tagsOf (t'.db.tags .way) 7 := by
  refine ⟨_, _, rfl, rfl, fun h => ?_⟩
  have hname := (h (str "name", str "Main Street")).mp (by decide +kernel)
  revert hname
  decide +kernel

end OsmImport
