import OsmImport.Delta.DeltaApplier
import OsmImport.Geometry.Multipolygon
import OsmImport.Import.Producer
import OsmImport.Lib.Barrier
import OsmImport.Lib.BlockingQueue

/-!
# The threads of an import

`nodeThread` and `wayThread`, each as the steps that it takes on its own data. What it does to the data
that the threads share, or learns from it, is the `Act` of the step. A call of the database client
leaves transactions behind, and the thread sends them one by one before it does anything else.
-/

namespace OsmImport

open NavDB

/-- The arguments of an import. -/
structure Config where
  node_threads : ℕ
  way_threads : ℕ
  queue_size : ℕ
  node_threads_pos : 0 < node_threads
  way_threads_pos : 0 < way_threads
  queue_size_pos : 0 < queue_size
  use_mercator : Bool
  resume_phase : Resume
  env : Env
  /-- `ST_DumpPoints`. -/
  dumpPoints : Str → List Coord
  /-- In which orders `ORDER BY id` may give the points of one id. -/
  ties : List Coord → List Coord → Prop
  ties_perm : ∀ stored points, ties stored points → points.Perm stored
  ties_exists : ∀ stored, ∃ points, ties stored points
  lz4 : Lz4

/-- The server gives the points of an id in the order of the vertices. -/
def Config.KeepsTies (cfg : Config) : Prop := ∀ stored points, cfg.ties stored points → points = stored

/-- The call of an insert. -/
structure InsertCall where
  kind : Kind
  id : Int64
  name : Str
  tags : Tags
  geog : Str

namespace InsertCall

/-- The row that is buffered. -/
def row (c : InsertCall) : Row :=
  ⟨c.id, c.name, none, match c.kind with
    | .relation => nullable c.geog
    | _ => some c.geog⟩

/-- The call. The import inserts its nodes elsewhere. -/
def run (srv : Server) (c : InsertCall) : Exec Unit :=
  match c.kind with
  | .node => pure ()
  | .way => insertWay srv c.id c.name c.tags c.geog
  | .area => insertArea srv c.id c.name c.tags c.geog
  | .road => insertRoad srv c.id c.name c.tags c.geog
  | .relation => insertRelation srv c.id c.name c.tags c.geog

end InsertCall

/-- What a thread does to the shared data, or learns from it. -/
inductive Act where
  /-- `pop` returns true. -/
  | take (entry : OSMEntry)
  /-- `pop` returns false. -/
  | drained
  /-- `way_q.push` in a node thread. -/
  | forward (entry : OSMEntry)
  /-- `osmmap.insert`, and `insertNode` with it. -/
  | store (node : NodeEntry) (record : Record)
  | select (id : Int64) (pos : Option Coord)
  | getWay (id : Int64) (geog : Str)
  | getWayCoordsMap (ids : List Int64) (points : Int64 → List Coord)
  /-- An insert on behalf of an entry. -/
  | insert (entry : OSMEntry) (call : InsertCall)
  /-- A transaction. -/
  | commit (txn : List Statement)
  /-- The first half of `arrive_and_wait`, in a phase of the barrier. -/
  | arrive (phase : ℕ)
  /-- The second half. -/
  | wake (phase : ℕ)
  /-- Anything else. -/
  | internal

/-- The transactions in a log. -/
def transactions (log : List Event) : List (List Statement) :=
  log.filterMap fun
    | .sent txn _ => some txn
    | _ => none

/-- A session of its own for a client. -/
def Session.alone (nav : NavDB) : Session := ⟨noStore, nav, ⟨fun _ => [], fun _ => [], none⟩, []⟩

/-- What a piece of client code leaves behind in the client, and the transactions that it sends. -/
def NavDB.perform (nav : NavDB) (code : Exec Unit) : NavDB × List (List Statement) :=
  let s := (code.run (Session.alone nav)).state
  (s.nav, transactions s.log)

/-! ## Node threads -/

/-- Where a node thread stands. -/
inductive NodePc where
  | pop
  | item (node : NodeEntry)
  | forwarding (entry : OSMEntry)
  | finalizing
  | arriving
  | waiting (phase : ℕ)
  | destroying
  | done

/-- A node thread. -/
structure NodeThread where
  pc : NodePc
  nav : NavDB
  outbox : List (List Statement)

namespace NodeThread

/-- The thread can be joined. -/
def Ended (t : NodeThread) : Prop := t.pc = .done ∧ t.outbox = []

/-- A call of the client. -/
def call (t : NodeThread) (code : Exec Unit) (pc : NodePc) : NodeThread :=
  ⟨pc, (t.nav.perform code).1, (t.nav.perform code).2⟩

/-- `lon_m`, `lat_m`. -/
def position (cfg : Config) (n : NodeEntry) : Coord :=
  if cfg.use_mercator then cfg.env.toMercator n.lon n.lat else (n.lon, n.lat)

/-- The record that goes to the shard. -/
def record (cfg : Config) (n : NodeEntry) : Record :=
  ⟨n.id, (position cfg n).1, (position cfg n).2⟩

/-- `db.insertNode` on an item. -/
def insertItem (cfg : Config) (n : NodeEntry) : Exec Unit :=
  let pos := position cfg n
  insertNode acceptAll n.id n.name pos.1 pos.2 n.tags (pointWKB cfg.env.g_srid pos.1 pos.2)

/-- `finalize_nodes`, `finalize_tags("node")`. -/
def finalize : Exec Unit := do
  finalize_nodes acceptAll
  finalize_tags acceptAll .node

/-- A step of `nodeThread`. -/
inductive Step (cfg : Config) : NodeThread → Act → NodeThread → Prop where
  | commit {t : NodeThread} {txn : List Statement} {rest : List (List Statement)}
    (ho : t.outbox = txn :: rest) : Step cfg t (.commit txn) { t with outbox := rest }
  | take {t : NodeThread} (n : NodeEntry) (ho : t.outbox = []) (hpc : t.pc = .pop) :
    Step cfg t (.take (.node n)) { t with pc := .item n }
  | takeOther {t : NodeThread} {entry : OSMEntry} (hn : entry.isNode = false) (ho : t.outbox = [])
    (hpc : t.pc = .pop) : Step cfg t (.take entry) { t with pc := .forwarding entry }
  | drained {t : NodeThread} (ho : t.outbox = []) (hpc : t.pc = .pop) :
    Step cfg t .drained { t with pc := .finalizing }
  | store {t : NodeThread} {n : NodeEntry} (ho : t.outbox = []) (hpc : t.pc = .item n) :
    Step cfg t (.store n (record cfg n)) (t.call (insertItem cfg n) .pop)
  | forward {t : NodeThread} {entry : OSMEntry} (ho : t.outbox = []) (hpc : t.pc = .forwarding entry) :
    Step cfg t (.forward entry) { t with pc := .finalizing }
  | finalize {t : NodeThread} (ho : t.outbox = []) (hpc : t.pc = .finalizing) :
    Step cfg t .internal (t.call finalize .arriving)
  | arrive {t : NodeThread} (phase : ℕ) (ho : t.outbox = []) (hpc : t.pc = .arriving) :
    Step cfg t (.arrive phase) { t with pc := .waiting phase }
  | wake {t : NodeThread} {phase : ℕ} (ho : t.outbox = []) (hpc : t.pc = .waiting phase) :
    Step cfg t (.wake phase) { t with pc := .destroying }
  | destroy {t : NodeThread} (ho : t.outbox = []) (hpc : t.pc = .destroying) :
    Step cfg t .internal (t.call (NavDB.destroy acceptAll) .done)

end NodeThread

/-! ## Way threads -/

/-- Where a way thread stands. -/
inductive WayPc where
  | pop
  /-- The loop over `node_refs`, with the coordinates so far. -/
  | locating (way : WayEntry) (refs : List Int64) (coords : List Coord)
  /-- The loop over `way_members`, with the geometries so far. -/
  | collecting (relation : RelationEntry) (members : List RelationMember) (geoms : List Str)
  /-- `buildMultipolygon`. -/
  | assembling (relation : RelationEntry)
  /-- The inserts for an entry, and `finalize_roads` behind them. -/
  | inserting (entry : OSMEntry) (calls : List InsertCall)
  /-- `finalize_ways` before the barrier, for a relation or behind the loop. -/
  | finalizingWays (relation : Option RelationEntry)
  | arriving (relation : Option RelationEntry)
  | waiting (phase : ℕ) (relation : Option RelationEntry)
  | finalizingRelations
  | destroying
  | done

/-- A way thread. -/
structure WayThread where
  pc : WayPc
  nav : NavDB
  outbox : List (List Statement)
  way_phase_done : Bool

namespace WayThread

/-- The thread can be joined. -/
def Ended (t : WayThread) : Prop := t.pc = .done ∧ t.outbox = []

/-- A call of the client. -/
def call (t : WayThread) (code : Exec Unit) (pc : WayPc) : WayThread :=
  { t with pc := pc, nav := (t.nav.perform code).1, outbox := (t.nav.perform code).2 }

/-- `is_multipolygon`. -/
def is_multipolygon (r : RelationEntry) : Bool :=
  r.tags.find (str "type") = some (str "multipolygon") ||
    r.tags.find (str "type") = some (str "boundary")

/-- The work on a relation, behind the barrier. -/
def begin (r : RelationEntry) : WayPc :=
  if is_multipolygon r then .assembling r else .collecting r r.way_members []

/-- The first branch on an entry. -/
def dispatch (cfg : Config) (way_phase_done : Bool) : OSMEntry → WayPc
  | .node n => .inserting (.node n) []
  | .way w => if cfg.resume_phase = .relations then .inserting (.way w) [] else .locating w w.node_refs []
  | .relation r => if way_phase_done then begin r else .finalizingWays (some r)

/-- The insert for a way, if it has a geometry. -/
def wayCalls (cfg : Config) (w : WayEntry) (coords : List Coord) : List InsertCall :=
  let (geog, is_closed) := buildWayGeom cfg.env.g_srid coords false
  if geog.isEmpty then []
  else [⟨if isArea is_closed w.tags then .area else .way, w.id, w.name, w.tags, geog⟩]

/-- The insert for a multipolygon, if its rings can be assembled. -/
def multipolygonCalls (cfg : Config) (r : RelationEntry) (points : Int64 → List Coord) :
    List InsertCall :=
  let geog := buildMultipolygon cfg.env.g_srid r points
  if geog.isEmpty then [] else [⟨.area, -r.id, r.name, r.tags, geog⟩]

/-- The inserts for another relation. -/
def relationCalls (cfg : Config) (r : RelationEntry) (geoms : List Str) : List InsertCall :=
  let rel_geog := if geoms.isEmpty then [] else mergeWayGeoms cfg.env.g_srid geoms
  ⟨.relation, r.id, r.name, r.tags, rel_geog⟩ ::
    if !rel_geog.isEmpty && DeltaApplier.isRoad r.tags then [⟨.road, r.id, r.name, r.tags, rel_geog⟩]
    else []

/-- A step of `wayThread`. -/
inductive Step (cfg : Config) : WayThread → Act → WayThread → Prop where
  | commit {t : WayThread} {txn : List Statement} {rest : List (List Statement)}
    (ho : t.outbox = txn :: rest) : Step cfg t (.commit txn) { t with outbox := rest }
  | take {t : WayThread} (entry : OSMEntry) (ho : t.outbox = []) (hpc : t.pc = .pop) :
    Step cfg t (.take entry) { t with pc := dispatch cfg t.way_phase_done entry }
  | drained {t : WayThread} (ho : t.outbox = []) (hpc : t.pc = .pop) :
    Step cfg t .drained
      { t with pc := if t.way_phase_done then .finalizingRelations else .finalizingWays none }
  | select {t : WayThread} {w : WayEntry} {id : Int64} {refs : List Int64} {coords : List Coord}
    (pos : Option Coord) (ho : t.outbox = []) (hpc : t.pc = .locating w (id :: refs) coords) :
    Step cfg t (.select id pos) { t with pc := .locating w refs (coords ++ pos.toList) }
  | located {t : WayThread} {w : WayEntry} {coords : List Coord} (ho : t.outbox = [])
    (hpc : t.pc = .locating w [] coords) :
    Step cfg t .internal { t with pc := .inserting (.way w) (wayCalls cfg w coords) }
  | getWay {t : WayThread} {r : RelationEntry} {m : RelationMember} {members : List RelationMember}
    {geoms : List Str} (geog : Str) (ho : t.outbox = [])
    (hpc : t.pc = .collecting r (m :: members) geoms) :
    Step cfg t (.getWay m.id geog)
      { t with pc := .collecting r members (if geog.isEmpty then geoms else geoms ++ [geog]) }
  | collected {t : WayThread} {r : RelationEntry} {geoms : List Str} (ho : t.outbox = [])
    (hpc : t.pc = .collecting r [] geoms) :
    Step cfg t .internal { t with pc := .inserting (.relation r) (relationCalls cfg r geoms) }
  | getWayCoordsMap {t : WayThread} {r : RelationEntry} (points : Int64 → List Coord)
    (ho : t.outbox = []) (hpc : t.pc = .assembling r) :
    Step cfg t (.getWayCoordsMap (r.way_members.map RelationMember.id) points)
      { t with pc := .inserting (.relation r) (multipolygonCalls cfg r points) }
  | insert {t : WayThread} {entry : OSMEntry} {c : InsertCall} {calls : List InsertCall}
    (ho : t.outbox = []) (hpc : t.pc = .inserting entry (c :: calls)) :
    Step cfg t (.insert entry c) (t.call (c.run acceptAll) (.inserting entry calls))
  | inserted {t : WayThread} {entry : OSMEntry} (ho : t.outbox = [])
    (hpc : t.pc = .inserting entry []) :
    Step cfg t .internal (t.call (finalize_roads acceptAll) .pop)
  | finalizeWays {t : WayThread} {r : Option RelationEntry} (ho : t.outbox = [])
    (hpc : t.pc = .finalizingWays r) :
    Step cfg t .internal (t.call (finalize_ways acceptAll) (.arriving r))
  | arrive {t : WayThread} {r : Option RelationEntry} (phase : ℕ) (ho : t.outbox = [])
    (hpc : t.pc = .arriving r) : Step cfg t (.arrive phase) { t with pc := .waiting phase r }
  | wakeRelation {t : WayThread} {r : RelationEntry} {phase : ℕ} (ho : t.outbox = [])
    (hpc : t.pc = .waiting phase (some r)) :
    Step cfg t (.wake phase) { t with pc := begin r, way_phase_done := true }
  | wakeDrained {t : WayThread} {phase : ℕ} (ho : t.outbox = [])
    (hpc : t.pc = .waiting phase none) :
    Step cfg t (.wake phase) { t with pc := .finalizingRelations }
  | finalizeRelations {t : WayThread} (ho : t.outbox = []) (hpc : t.pc = .finalizingRelations) :
    Step cfg t .internal (t.call (finalize_relations acceptAll) .destroying)
  | destroy {t : WayThread} (ho : t.outbox = []) (hpc : t.pc = .destroying) :
    Step cfg t .internal (t.call (NavDB.destroy acceptAll) .done)

end WayThread

end OsmImport
