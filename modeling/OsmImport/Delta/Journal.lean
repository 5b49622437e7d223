import OsmImport.Db.Cells
import OsmImport.Db.Proofs.Accepting
import OsmImport.Delta.Order
import OsmImport.Delta.Replicator

/-!
# The transactions of a change file

What the client sends for a file, as a function of the file, the node store and the database, when the
server refuses nothing but rows of a COPY (`Journal`). A process that dies while it applies the file has
committed the first of these transactions.
-/

namespace OsmImport

open NavDB KeyedInsert Postgres

/-- A transaction. -/
abbrev Txn := List Statement

/-! ## Effects -/

/-- The effect of transactions. -/
def effects (chk : Checks) (db : Database) (txns : List Txn) : Database :=
  txns.flatten.foldl (Database.settle chk) db

/-! ## The buffers -/

namespace NavDB

def withBuf (nav : NavDB) (k : Kind) (rows : List Row) : NavDB :=
  { nav with buf := Function.update nav.buf k rows }

def withTagBuf (nav : NavDB) (b : TagBuf) (rows : List TagRow) : NavDB :=
  { nav with tagBuf := Function.update nav.tagBuf b rows }

/-- With an entity in the buffers of its table. -/
def buffered (nav : NavDB) (k : Kind) (row : Row) (tags : Tags) : NavDB :=
  (nav.withTagBuf (bufOf k) (nav.tagBuf (bufOf k) ++ tagRows row.id tags)).withBuf k (nav.buf k ++ [row])

/-- The COPY of the tags of a flush. -/
def sentTags (nav : NavDB) (k : Kind) : List Txn :=
  if (nav.tagBuf (bufOf k)).isEmpty then [] else [[.copyTags k (nav.tagBuf (bufOf k))]]

end NavDB

/-! ## The journal -/

/-- The node store, the client, and the transactions so far. -/
structure Journal where
  osmmap : OSMMMap
  nav : NavDB
  sent : List Txn

namespace Journal

/-- A process behind the construction of its client. -/
def opened (osmmap : OSMMMap) (thread_id : ℕ) : Journal := ⟨osmmap, NavDB.fresh thread_id, []⟩

def send (txn : Txn) (j : Journal) : Journal := { j with sent := j.sent ++ [txn] }

def place (id : Int64) (pos : Coord) (j : Journal) : Journal :=
  { j with osmmap := j.osmmap.inserted CHUNK_SIZE 0 ⟨id, pos.1, pos.2⟩ }

def remove (id : Int64) (j : Journal) : Journal := { j with osmmap := j.osmmap.remove id }

/-- A flush of a table. -/
def flush (k : Kind) (j : Journal) : Journal :=
  if (j.nav.buf k).isEmpty then j
  else ⟨j.osmmap, (j.nav.withTagBuf (bufOf k) []).withBuf k [],
    j.sent ++ [.copy k (j.nav.buf k)] :: j.nav.sentTags k⟩

/-- An insert. -/
def insert (k : Kind) (row : Row) (tags : Tags) (j : Journal) : Journal :=
  if full (j.nav.buffered k row tags) k then { j with nav := j.nav.buffered k row tags }.flush k
  else { j with nav := j.nav.buffered k row tags }

/-- `deleteEntity`. -/
def delete (k : Kind) (id : Int64) : Journal → Journal := send [.deleteTags k id, .delete k id]

/-- `updateWay`, `updateArea` and `updateRelation`. -/
def update (k : Kind) (row : Row) (tags : Tags) : Journal → Journal :=
  send [.update k row, .diffTags k row.id tags]

/-- The road of a relation. -/
def insertRoad (r : RelationEntry) (geom : Str) (j : Journal) : Journal :=
  if DeltaApplier.isRoad r.tags && !geom.isEmpty then j.insert .road (roadRow r geom) r.tags else j

/-- A change, with the geometry that is built for it. -/
def change (env : Env) (geom : Str × Bool) : OSCChange → Journal → Journal
  | .node .create n, j =>
    let j := j.place n.id (env.toMercator n.lon n.lat)
    if n.tags.isEmpty then j else j.insert .node (nodeRow env n) n.tags
  | .node .modify n, j =>
    ((j.place n.id (env.toMercator n.lon n.lat)).send [.update .node (nodeRow env n)]).send
      [.diffTags .node n.id n.tags]
  | .node .delete n, j => (j.remove n.id).delete .node n.id
  | .way .create w, j =>
    if geom.1.isEmpty then j else j.insert (wayKind geom.2) (wayRow w geom.1) w.tags
  | .way .modify w, j =>
    if geom.1.isEmpty then j
    else ((j.delete .way w.id).delete .area w.id).update (wayKind geom.2) (wayRow w geom.1) w.tags
  | .way .delete w, j => (j.delete .way w.id).delete .area w.id
  | .relation .create r, j =>
    (j.insert .relation (relationRow r geom.1) r.tags).insertRoad r geom.1
  | .relation .modify r, j =>
    ((j.update .relation (relationRow r geom.1) r.tags).delete .road r.id).insertRoad r geom.1
  | .relation .delete r, j => (j.delete .relation r.id).delete .road r.id

/-- `flush` of the applier. -/
def finish (j : Journal) : Journal := (((j.flush .way).flush .area).flush .road).flush .relation

end Journal

/-- The geometry that is built for a change, from what is stored; a delete builds none. -/
def geometry (env : Env) (t : Tables) : OSCChange → Str × Bool
  | .way .create w | .way .modify w => DeltaApplier.buildWayGeom env t.osmmap w
  | .relation .create r | .relation .modify r => (t.relationGeom env r, false)
  | _ => ([], false)

section

variable (chk : Checks) (env : Env) (db : Database)

namespace Journal

/-- What a change finds stored. -/
def tables (j : Journal) : Tables := ⟨j.osmmap, (effects chk db j.sent).rows⟩

/-- A change of a file. -/
def next (j : Journal) (c : OSCChange) : Journal := j.change env (geometry env (j.tables chk db) c) c

/-- A whole file. -/
def file (cs : List OSCChange) (j : Journal) : Journal := (cs.foldl (next chk env db) j).finish

end Journal

/-- The transactions of a file that a new process applies. -/
def transactionsOf (osmmap : OSMMMap) (thread_id : ℕ) (cs : List OSCChange) : List Txn :=
  ((Journal.opened osmmap thread_id).file chk env db cs).sent

end

/-! ## Processes that die -/

/-- The server with primary keys; the process may die at any transaction, before it or behind it. -/
structure MayDie (chk : Checks) (srv : Server) : Prop where
  respond : ∀ log db txn, srv.respond log db txn = (postgres chk).respond log db txn ∨
    srv.respond log db txn = .died false ∨
      srv.respond log db txn = .died true ∧ complaints chk db txn = none
  answers : ∀ log db, srv.answers log db = true

theorem mayDie_postgres (chk : Checks) : MayDie chk (postgres chk) :=
  ⟨fun _ _ _ => .inl rfl, fun _ _ => rfl⟩

end OsmImport
