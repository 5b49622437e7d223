import OsmImport.Db.Cells
import OsmImport.Delta.Proofs.Deletes
import OsmImport.Delta.Proofs.WayParity

/-!
# A modified way

`modifyWay` deletes the way from both of its tables, and then sends an UPDATE for the row that it has just
deleted: nothing is reinserted, and the way is lost whatever it was before.
-/

namespace OsmImport

open NavDB DeltaApplier

/-- The rows of a tag table with an id. -/
def Database.tagsAt (db : Database) (k : Kind) (id : Int64) : List TagRow :=
  (db.tags k).filter fun r => r.id == id

/-- The way is in one table, as the entry says and with the geometry `geom`, in its place alone, and
nothing else has changed. -/
structure ReplacedIn (k other : Kind) (w : WayEntry) (geom : Str) (db db' : Database) : Prop where
  row : db'.rowsAt k w.id = [⟨w.id, w.name, none, some geom⟩]
  noRow : db'.rowsAt other w.id = []
  tags : (db'.tagsAt k w.id).Perm (w.tags.entries.map fun kv => ⟨w.id, kv.1, kv.2⟩)
  noTags : db'.tagsAt other w.id = []
  isLocal : ∀ j id, id ≠ w.id → db'.rowsAt j id = db.rowsAt j id

/-- The way is replaced: it is in one of `ways` and `areas`. -/
def Replaced (w : WayEntry) (geom : Str) (db db' : Database) : Prop :=
  ReplacedIn .way .area w geom db db' ∨ ReplacedIn .area .way w geom db db'

/-- The way is in neither table, and the client has nothing buffered that would change that. -/
structure Gone (id : Int64) (s : Session) : Prop where
  idle : ∀ k, s.nav.buf k = []
  way : s.db.rowsAt .way id = []
  area : s.db.rowsAt .area id = []

variable {chk : Checks} {env : Env} {id : Int64} {s : Session}

theorem rowsAt_commit_delete (db : Database) (j k : Kind) (id : Int64) :
    (db.commit [.deleteTags k id, .delete k id]).rowsAt j id =
      if j = k then [] else db.rowsAt j id := by
  rw [commit_delete]
  unfold Database.rowsAt
  dsimp only
  rw [List.filter_filter]
  split
  · rename_i hj
    rw [List.filter_eq_nil_iff]
    intro r _
    simp [hj]
  · rename_i hj
    refine List.filter_congr fun r _ => ?_
    simp [hj]

/-- Behind the two deletes. -/
theorem gone_of_deletes (hidle : ∀ k, s.nav.buf k = []) (id : Int64) :
    Gone id ((s.committed [.deleteTags .way id, .delete .way id] .ok).committed
      [.deleteTags .area id, .delete .area id] .ok) := by
  refine ⟨hidle, ?_, ?_⟩
  · show ((s.db.commit _).commit _).rowsAt .way id = []
    rw [rowsAt_commit_delete, rowsAt_commit_delete]
    rfl
  · show ((s.db.commit _).commit _).rowsAt .area id = []
    rw [rowsAt_commit_delete]
    rfl

/-- An UPDATE of a row that is not there. -/
theorem rowsAt_updateRow {rows : List Row} (row : Row) :
    (updateRow rows row).filter (fun r => r.id == row.id) = [] ↔
      rows.filter (fun r => r.id == row.id) = [] := by
  rw [List.filter_eq_nil_iff, List.filter_eq_nil_iff, updateRow, List.forall_mem_map]
  refine forall₂_congr fun r _ => ?_
  split
  · rename_i h
    simp [h]
  · rfl

theorem Gone.update (h : Gone id s) (k : Kind) (name : Str) (geog : Option Str) (tags : Tags)
    (r : Response) :
    Gone id (s.committed [.update k ⟨id, name, none, geog⟩, .diffTags k id tags] r) := by
  have hrow : ∀ j, s.db.rowsAt j id = [] →
      (s.db.commit [.update k ⟨id, name, none, geog⟩, .diffTags k id tags]).rowsAt j id = [] := by
    intro j hj
    show (Function.update s.db.rows k _ j).filter _ = []
    rcases eq_or_ne j k with rfl | hne
    · rw [Function.update_self]
      exact (rowsAt_updateRow ⟨id, name, none, geog⟩).mpr hj
    · rw [Function.update_of_ne hne]
      exact hj
  exact ⟨h.idle, hrow .way h.way, hrow .area h.area⟩

theorem gone_updateIn (h : Gone id s) (srv : Server) (k : Kind) (name : Str) (tags : Tags)
    (geog : Option Str) : Prog.Ensures (updateIn srv k id name tags geog) s (fun _ => Gone id)
      (fun _ => Gone id) (Gone id) := by
  unfold Prog.Ensures updateIn send
  dsimp only
  have hquiet : ∀ e, Gone id (s.record e) := fun _ => ⟨h.idle, h.way, h.area⟩
  cases srv.respond s.log s.db [.update k ⟨id, name, none, geog⟩, .diffTags k id tags] with
  | ok => exact h.update k name geog tags .ok
  | error e => exact hquiet _
  | died committed =>
    cases committed with
    | true => exact h.update k name geog tags (.died true)
    | false => exact hquiet _

/-- Flushes of empty buffers. -/
theorem run_flush_idle (srv : Server) (hidle : ∀ k, s.nav.buf k = []) :
    (DeltaApplier.flush srv).run s = .done () s := by
  have hvia : ∀ k, (flushViaTemp srv k).run s = .done () s := by
    intro k
    unfold flushViaTemp
    rw [Prog.run_get_bind, hidle]
    rfl
  show (finalize_ways srv >>= fun _ => finalize_roads srv >>= fun _ => finalize_relations srv).run s = _
  have hways : (finalize_ways srv).run s = .done () s := by
    show (flushViaTemp srv .way >>= fun _ => flushViaTemp srv .area).run s = _
    rw [Prog.run_bind_done (hvia .way)]
    exact hvia .area
  have hroads : (finalize_roads srv).run s = .done () s := hvia .road
  rw [Prog.run_bind_done hways, Prog.run_bind_done hroads]
  exact hvia .relation

theorem modifyWay_eq (chk : Checks) (env : Env) {w : WayEntry}
    (h2 : 2 ≤ (w.node_refs.filterMap s.osmmap.select).length) :
    ∃ k geom, (modifyWay (postgres chk) env w).run s = (do
      deleteEntity (postgres chk) w.id .way
      deleteEntity (postgres chk) w.id .area
      updateIn (postgres chk) k w.id w.name w.tags (some geom) : Exec Unit).run s := by
  have hgeom := deltaWayGeom_eq env s.osmmap w
  dsimp only at hgeom
  rw [if_neg (by omega)] at hgeom
  unfold modifyWay
  rw [Prog.run_get_bind, hgeom]
  dsimp only
  rw [isEmpty_toHexLower_lineBytes]
  split
  · exact absurd ‹_› Bool.noConfusion
  · split
    · exact ⟨.area, _, rfl⟩
    · exact ⟨.way, _, rfl⟩

theorem gone_modifyWay (hidle : ∀ k, s.nav.buf k = []) {w : WayEntry}
    (h2 : 2 ≤ (w.node_refs.filterMap s.osmmap.select).length) :
    Gone w.id ((do modifyWay (postgres chk) env w
                   DeltaApplier.flush (postgres chk) : Exec Unit).run s).state := by
  obtain ⟨k, geom, hrun⟩ := modifyWay_eq chk env h2
  have hends : Prog.Ensures (modifyWay (postgres chk) env w) s (fun _ => Gone w.id)
      (fun _ => Gone w.id) (Gone w.id) := by
    unfold Prog.Ensures
    rw [hrun]
    apply Prog.ensures_bind
    apply Prog.ensures_of_run (run_deleteEntity s .way w.id)
    apply Prog.ensures_bind
    apply Prog.ensures_of_run (run_deleteEntity _ .area w.id)
    exact gone_updateIn (gone_of_deletes hidle w.id) _ k w.name w.tags (some geom)
  unfold Prog.Ensures at hends
  rw [Prog.run_bind]
  cases hm : (modifyWay (postgres chk) env w).run s with
  | done _ s' =>
    rw [hm] at hends
    dsimp only
    rw [run_flush_idle _ hends.idle]
    exact hends
  | threw _ s' =>
    rw [hm] at hends
    exact hends
  | died s' =>
    rw [hm] at hends
    exact hends

/-- **A modified way is lost.** Whatever the database, the node store, the geometry and the checks of the
columns are, behind `modifyWay` and a flush neither `ways` nor `areas` has a row of the way, so it is not
replaced. -/
theorem modifyWay_loses_way (chk : Checks) (env : Env) (hs : Idle s) {w : WayEntry}
    (h2 : 2 ≤ (w.node_refs.filterMap s.osmmap.select).length) :
    let s' := ((do modifyWay (postgres chk) env w
                   DeltaApplier.flush (postgres chk) : Exec Unit).run s).state
    s'.db.rowsAt .way w.id = [] ∧ s'.db.rowsAt .area w.id = [] ∧
      ¬ Replaced w (DeltaApplier.buildWayGeom env s.osmmap w).1 s.db s'.db := by
  intro s'
  have h : Gone w.id s' := gone_modifyWay hs.1 h2
  refine ⟨h.way, h.area, ?_⟩
  rintro (hw | ha)
  · exact absurd (hw.row.symm.trans h.way) (List.cons_ne_nil _ _)
  · exact absurd (ha.row.symm.trans h.area) (List.cons_ne_nil _ _)

/-- The corner store, and the row of an open way between two corners. -/
def storedWaySession : Session :=
  { cornerSession with db := cornerSession.db.setRows .way [⟨7, [], none, some (str "old")⟩] }

theorem modifyWay_loses_way_open :
    let s' := ((do modifyWay (postgres .any) plainEnv WayThread.openWay
                   DeltaApplier.flush (postgres .any) : Exec Unit).run storedWaySession).state
    s'.db.rowsAt .way 7 = [] ∧ s'.db.rowsAt .area 7 = [] ∧
      ¬ Replaced WayThread.openWay
        (DeltaApplier.buildWayGeom plainEnv cornerStore WayThread.openWay).1 storedWaySession.db s'.db :=
  modifyWay_loses_way .any plainEnv (s := storedWaySession) ⟨fun _ => rfl, fun _ => rfl⟩ (by decide +kernel)

/-- The way is in the database, its nodes are in the store, and a Modify change removes it. -/
theorem modified_way_disappears : ∃ s',
    (do modifyWay (postgres .any) plainEnv WayThread.openWay
        DeltaApplier.flush (postgres .any) : Exec Unit).run storedWaySession = .done () s' ∧
    (storedWaySession.db.rows .way).map Row.id = [7] ∧
    (WayThread.openWay.node_refs.filterMap storedWaySession.osmmap.select).length = 2 ∧
    s'.db.rows .way = [] ∧ s'.db.rows .area = [] ∧
    ¬ Replaced WayThread.openWay
      (DeltaApplier.buildWayGeom plainEnv cornerStore WayThread.openWay).1 storedWaySession.db s'.db := by
  obtain ⟨s', hrun, hway, harea⟩ : ∃ s', (do
      modifyWay (postgres .any) plainEnv WayThread.openWay
      DeltaApplier.flush (postgres .any) : Exec Unit).run storedWaySession = .done () s' ∧
      s'.db.rows .way = [] ∧ s'.db.rows .area = [] :=
    ⟨_, rfl, by decide +kernel, by decide +kernel⟩
  refine ⟨s', hrun, rfl, by decide +kernel, hway, harea, ?_⟩
  rintro (hw | ha)
  · have hrow := hw.row
    rw [Database.rowsAt, hway] at hrow
    cases hrow
  · have hrow := ha.row
    rw [Database.rowsAt, harea] at hrow
    cases hrow

end OsmImport
