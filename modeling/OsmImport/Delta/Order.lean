import OsmImport.Db.Postgres
import OsmImport.Delta.DeltaApplier
import OsmImport.Store.Proofs.Insert

/-!
# Changes in document order

`Tables.takeEffect` says what a change does when it takes effect at once, before the next change. Two
runs of the applier are to be compared with it: `applyBatched` flushes the buffers at the end, `applyEach`
after every change. `InOrder` is the condition on the steps of the first under which both agree with it.
-/

namespace OsmImport

open NavDB KeyedInsert Postgres DeltaApplier

/-! ## The effect of changes -/

/-- The node store and the tables of rows. -/
structure Tables where
  osmmap : OSMMMap
  rows : Kind → List Row

namespace Tables

def place (t : Tables) (id : Int64) (pos : Coord) : Tables :=
  { t with osmmap := t.osmmap.inserted CHUNK_SIZE 0 ⟨id, pos.1, pos.2⟩ }

def insert (chk : Checks) (t : Tables) (k : Kind) (row : Row) : Tables :=
  { t with rows := Function.update t.rows k (insertRows chk k (t.rows k) [row]) }

def update (t : Tables) (k : Kind) (row : Row) : Tables :=
  { t with rows := Function.update t.rows k (updateRow (t.rows k) row) }

def delete (t : Tables) (k : Kind) (id : Int64) : Tables :=
  { t with rows := Function.update t.rows k ((t.rows k).filter fun r => r.id != id) }

/-- The geometry of the first row. -/
def firstGeog : List Row → Str
  | [] => []
  | r :: _ => r.geog.getD []

/-- The geometry that a way or area has. -/
def geog (t : Tables) (id : Int64) : Str :=
  firstGeog ((t.rows .way ++ t.rows .area).filter fun r => r.id == id)

/-- The geometry of a relation. -/
def relationGeom (env : Env) (t : Tables) (r : RelationEntry) : Str :=
  mergeLinestrings env.g_srid ((r.way_members.map fun m => t.geog m.id).filter fun g => !g.isEmpty)

end Tables

/-- The row of a node. -/
def nodeRow (env : Env) (n : NodeEntry) : Row :=
  ⟨n.id, n.name, some (env.toMercator n.lon n.lat), some (pointWKB env.g_srid n.lon n.lat)⟩

/-- The table of a way. -/
def wayKind (is_closed : Bool) : Kind := if is_closed then .area else .way

/-- The row of a way or area. -/
def wayRow (w : WayEntry) (geom : Str) : Row := ⟨w.id, w.name, none, some geom⟩

/-- The row of a relation. -/
def relationRow (r : RelationEntry) (geom : Str) : Row := ⟨r.id, r.name, none, nullable geom⟩

/-- The row of a road. -/
def roadRow (r : RelationEntry) (geom : Str) : Row := ⟨r.id, r.name, none, some geom⟩

namespace Tables

variable (chk : Checks) (env : Env)

/-- The road of a relation. -/
def insertRoad (t : Tables) (r : RelationEntry) (geom : Str) : Tables :=
  if isRoad r.tags && !geom.isEmpty then t.insert chk .road (roadRow r geom) else t

/-- A change takes effect. An UPDATE has no effect on an id that is not there. -/
def takeEffect (t : Tables) : OSCChange → Tables
  | .node .create n =>
    let t := t.place n.id (env.toMercator n.lon n.lat)
    if n.tags.isEmpty then t else t.insert chk .node (nodeRow env n)
  | .node .modify n =>
    (t.place n.id (env.toMercator n.lon n.lat)).update .node (nodeRow env n)
  | .node .delete n => { t with osmmap := t.osmmap.remove n.id }.delete .node n.id
  | .way .create w =>
    let (geom, is_closed) := DeltaApplier.buildWayGeom env t.osmmap w
    if geom.isEmpty then t else t.insert chk (wayKind is_closed) (wayRow w geom)
  | .way .modify w =>
    let (geom, is_closed) := DeltaApplier.buildWayGeom env t.osmmap w
    if geom.isEmpty then t
    else ((t.delete .way w.id).delete .area w.id).update (wayKind is_closed) (wayRow w geom)
  | .way .delete w => (t.delete .way w.id).delete .area w.id
  | .relation .create r =>
    let geom := t.relationGeom env r
    (t.insert chk .relation (relationRow r geom)).insertRoad chk r geom
  | .relation .modify r =>
    let geom := t.relationGeom env r
    ((t.update .relation (relationRow r geom)).delete .road r.id).insertRoad chk r geom
  | .relation .delete r => (t.delete .relation r.id).delete .road r.id

end Tables

/-! ## The two runs -/

/-- A process behind the construction of its client. -/
def Session.opened (osmmap : OSMMMap) (thread_id : ℕ) (db : Database) : Session :=
  ⟨osmmap, NavDB.fresh thread_id, db, []⟩

/-- Every buffer is flushed. -/
def flushAll (srv : Server) : Exec Unit := do
  finalize_nodes srv
  finalize_ways srv
  finalize_roads srv
  finalize_relations srv

/-- All changes, and one flush at the end. -/
def applyBatched (srv : Server) (env : Env) (cs : List OSCChange) : Exec Unit := do
  Prog.forEach cs (apply srv env)
  flushAll srv

/-- All changes, and a flush behind each. -/
def applyEach (srv : Server) (env : Env) (cs : List OSCChange) : Exec Unit :=
  Prog.forEach cs fun c => do
    apply srv env c
    flushAll srv

/-! ## The condition -/

/-- The node store, and the tables with the buffers put in. -/
def Session.tables (s : Session) (chk : Checks) : Tables := ⟨s.osmmap, s.settled chk⟩

section

variable (chk : Checks)

/-- All values of tags fit. -/
def tagsOk (id : Int64) (tags : Tags) : Bool :=
  tags.entries.all fun kv => chk.tagOk ⟨id, kv.1, kv.2⟩

/-- All values fit of the tags that an insert keeps. -/
def tagRowsOk (id : Int64) (tags : Tags) : Bool := (tagRows id tags).all chk.tagOk

/-- Nothing ends the run: the node store takes the node, and the server has no complaint about a node, a tag
or an update. -/
def Accepted (env : Env) (t : Tables) : OSCChange → Prop
  | .node .create n => t.osmmap.Takes 0 n.id ∧ (n.tags.isEmpty = false →
    chk.rowOk .node (nodeRow env n) = true ∧ n.id ∉ (t.rows .node).map Row.id ∧
      tagRowsOk chk n.id n.tags = true)
  | .node .modify n => t.osmmap.Takes 0 n.id ∧ chk.rowOk .node (nodeRow env n) = true ∧
    tagsOk chk n.id n.tags = true
  | .way .create w => (DeltaApplier.buildWayGeom env t.osmmap w).1 ≠ [] → tagRowsOk chk w.id w.tags = true
  | .way .modify w => (DeltaApplier.buildWayGeom env t.osmmap w).1 ≠ [] →
    chk.rowOk (wayKind (DeltaApplier.buildWayGeom env t.osmmap w).2)
      (wayRow w (DeltaApplier.buildWayGeom env t.osmmap w).1) = true ∧ tagsOk chk w.id w.tags = true
  | .relation .create r => tagRowsOk chk r.id r.tags = true
  | .relation .modify r => chk.rowOk .relation (relationRow r (t.relationGeom env r)) = true ∧
    tagsOk chk r.id r.tags = true
  | _ => True

/-- The ids of the buffered rows that are valid. -/
def validIds (s : Session) (k : Kind) : List Int64 :=
  ((s.nav.buf k).filter (chk.rowOk k)).map Row.id

/-- The ids of the buffered rows that the flush is going to add. -/
def waitingIds (s : Session) (k : Kind) : List Int64 :=
  (keep Row.id (chk.rowOk k) ((s.db.rows k).map Row.id) (s.nav.buf k)).map Row.id

/-- No row that the change reads, updates or deletes waits in a buffer. -/
def NotWaiting (env : Env) (s : Session) : OSCChange → Prop
  | .node .modify n => n.id ∉ waitingIds chk s .node
  | .node .delete n => n.id ∉ validIds chk s .node
  | .way .modify w => (DeltaApplier.buildWayGeom env s.osmmap w).1 ≠ [] →
    w.id ∉ validIds chk s .way ∧ w.id ∉ validIds chk s .area
  | .way .delete w => w.id ∉ validIds chk s .way ∧ w.id ∉ validIds chk s .area
  | .relation .create r => ∀ m ∈ r.way_members, m.id ∉ waitingIds chk s .way
  | .relation .modify r => (∀ m ∈ r.way_members, m.id ∉ waitingIds chk s .way) ∧
    r.id ∉ waitingIds chk s .relation ∧ r.id ∉ validIds chk s .road
  | .relation .delete r => r.id ∉ validIds chk s .relation ∧ r.id ∉ validIds chk s .road
  | _ => True

/-- Each step of the batched run meets the condition. -/
def InOrder (env : Env) : List OSCChange → Session → Prop
  | [], _ => True
  | c :: cs, s => Accepted chk env (s.tables chk) c ∧ NotWaiting chk env s c ∧
    ∀ s', (apply (postgres chk) env c).run s = .done () s' → InOrder env cs s'

end

end OsmImport
