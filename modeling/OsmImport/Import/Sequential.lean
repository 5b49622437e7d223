import OsmImport.Import.Resume
import OsmImport.Lib.LastWrite

/-!
# The import without threads

What an import is for, without threads, queues and buffers: the entries of the file go into the database
one after the other, each with its tags. A way finds the positions of all nodes of the file, a relation
the rows that are in the database when its turn comes.
-/

namespace OsmImport

open NavDB

/-- The insert of a row with its tags. -/
def InsertCall.txn (c : InsertCall) : List Statement :=
  [.copy c.kind [c.row], .copyTags c.kind (tagRows c.id c.tags)]

namespace NodeThread

/-- The row of a node. -/
def row (cfg : Config) (n : NodeEntry) : Row :=
  let pos := position cfg n
  ⟨n.id, n.name, some pos, some (pointWKB cfg.env.g_srid pos.1 pos.2)⟩

/-- Of the nodes, those with tags have a row. -/
def rowsFor (cfg : Config) (n : NodeEntry) : List Row := if n.tags.isEmpty then [] else [row cfg n]

def tagsFor (n : NodeEntry) : List TagRow := if n.tags.isEmpty then [] else tagRows n.id n.tags

end NodeThread

section

variable (chk : Checks) (cfg : Config)

/-- A node. The COPY of nodes has to be accepted as a whole. -/
def Database.addNode (db : Database) (n : NodeEntry) : Database :=
  db.commit [.copy .node (NodeThread.rowsFor cfg n), .copyTags .node (NodeThread.tagsFor n)]

/-- The inserts for an entry. -/
def Database.addCalls (db : Database) (calls : List InsertCall) : Database :=
  (calls.map InsertCall.txn).foldl (Database.offer chk) db

/-- A way, with the positions of nodes. -/
def Database.addWay (pos : Int64 → Option Coord) (db : Database) (w : WayEntry) : Database :=
  db.addCalls chk (WayThread.wayCalls cfg w (w.node_refs.filterMap pos))

/-- A relation. -/
def Database.addRelation (db : Database) (r : RelationEntry) : Database :=
  db.addCalls chk (WayThread.callsFor cfg (geogs db) r)

/-- Ways and relations, one after the other. -/
def Database.addAll (pos : Int64 → Option Coord) (ways : List WayEntry) (relations : List RelationEntry)
    (db : Database) : Database :=
  relations.foldl (Database.addRelation chk cfg) (ways.foldl (Database.addWay chk cfg pos) db)

variable {fmt : Formats} (file : OrderedFile fmt)

/-- The positions of the nodes of a file. -/
def OrderedFile.position : Int64 → Option Coord :=
  lastWrite (file.nodes.map fun n => (n.id, NodeThread.position cfg n))

/-- The import of a file. -/
def OrderedFile.sequential (db : Database) : Database :=
  (file.nodes.foldl (Database.addNode cfg) db).addAll chk cfg (file.position cfg) file.ways file.relations

end

/-- The tables hold the same rows, in any order. The tags of relations and roads are in one of their two
tables, but not in the same. -/
structure SameOutcome (a b : Database) : Prop where
  rows : ∀ k, (a.rows k).Perm (b.rows k)
  tags : ∀ k, k ≠ .relation → k ≠ .road → (a.tags k).Perm (b.tags k)
  sharedTags : (a.tags .relation ++ a.tags .road).Perm (b.tags .relation ++ b.tags .road)
  sequence : a.sequence = b.sequence

/-- A file that an import can keep apart: no two nodes, ways or relations have the same id, no member is
ambiguous, and the node store is large enough. -/
structure OrderedFile.Distinct {fmt : Formats} (file : OrderedFile fmt) (max_id : Int64) : Prop where
  nodes : (file.nodes.map NodeEntry.id).Nodup
  range : ∀ n ∈ file.nodes, 0 ≤ n.id ∧ n.id ≤ max_id
  ways : (file.ways.map WayEntry.id).Nodup
  relations : Unambiguous file.relations

end OsmImport
