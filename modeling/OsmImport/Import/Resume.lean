import OsmImport.Db.Cells
import OsmImport.Import.Observation

/-!
# Resuming an import at its relations

An import that dies in its relation phase leaves some of the transactions of that phase behind. With
`-R relations` the tables of relations and roads are truncated, and a new import skips nodes and ways and
does all of the relations again.
-/

namespace OsmImport

open NavDB

/-- The effect of a transaction of an import: of the rows of a COPY those that fit are in the table when
the rounds of `tryCopyBatch` are over. -/
def Database.offer (chk : Checks) (db : Database) (txn : List Statement) : Database :=
  txn.foldl (Database.settle chk) db

namespace WayThread

/-- `geoms`, with `look` the geometries under an id. -/
def memberGeoms (look : Int64 → List (Option Str)) (members : List RelationMember) : List Str :=
  (members.map fun m => (look m.id).head?.join.getD []).filter fun geog => !geog.isEmpty

/-- `coords_map`. -/
def memberPoints (cfg : Config) (look : Int64 → List (Option Str)) (ids : List Int64) (id : Int64) :
    List Coord :=
  if id ∈ ids then storedPoints cfg.dumpPoints (look id) else []

/-- The inserts for a relation. -/
def callsFor (cfg : Config) (look : Int64 → List (Option Str)) (r : RelationEntry) : List InsertCall :=
  if is_multipolygon r then
    multipolygonCalls cfg r (memberPoints cfg look (r.way_members.map RelationMember.id))
  else relationCalls cfg r (memberGeoms look r.way_members)

end WayThread

/-- No two relations have the same id, and no member names the row that a relation has in `areas`. -/
structure Unambiguous (relations : List RelationEntry) : Prop where
  distinct : (relations.map RelationEntry.id).Nodup
  members : ∀ r ∈ relations, ∀ m ∈ r.way_members, ∀ q ∈ relations, m.id ≠ -q.id

/-- The tag rows of areas that are committed. -/
def committedAreaTags (log : List ImportEvent) : List TagRow :=
  copiedTagRows .area (log.filterMap ImportEvent.committed)

/-- The tables of the relation phase hold the same rows, in any order. -/
structure SameResult (a b : Database) : Prop where
  areas : (a.rows .area).Perm (b.rows .area)
  area_tags : (a.tags .area).Perm (b.tags .area)
  relations : (a.rows .relation).Perm (b.rows .relation)
  roads : (a.rows .road).Perm (b.rows .road)

section

variable {fmt : Formats} (chk : Checks) (cfg : Config) (file : OrderedFile fmt)

/-- The offset files of a fresh import, each of which may have been lost. -/
def OrderedFile.offsetFiles (keep_offset keep_relations_offset : Bool) : Producer.OffsetFiles where
  offset := if keep_offset then (offsetsAfter (file.script cfg)).offset else none
  relations_offset :=
    if keep_relations_offset then (offsetsAfter (file.script cfg)).relations_offset else none

/-- A fresh import of a file that is interrupted in its relation phase: `released` is the state at the end
of the phase of `way_barrier`, `crashed` that of the interruption, and `finished` the end that the import
comes to when it is not interrupted. -/
structure Interrupted where
  fresh : cfg.resume_phase = .nodes
  osmmap : OSMMMap
  db : Database
  before : List ImportEvent
  during : List ImportEvent
  after : List ImportEvent
  released : Import
  crashed : Import
  finished : Import
  release : Trace (Import.Step cfg (Database.offer chk))
    (Import.start cfg osmmap db (file.script cfg)) (before ++ [.waysReleased]) released
  crash : Trace (Import.Step cfg (Database.offer chk)) released during crashed
  finish : Trace (Import.Step cfg (Database.offer chk)) crashed after finished
  ended : finished.script = []

/-- An import with `-R relations` on what `crashed` left in the database, from its start to its end. The
number of its threads may be another. -/
structure Resumed (crashed : Database) where
  cfg' : Config
  resumes : cfg'.resume_phase = .relations
  env : cfg'.env = cfg.env
  dumpPoints : cfg'.dumpPoints = cfg.dumpPoints
  ties : cfg'.ties = cfg.ties
  keep_offset : Bool
  keep_relations_offset : Bool
  osmmap : OSMMMap
  log : List ImportEvent
  finished : Import
  run : Trace (Import.Step cfg' (Database.offer chk))
    (Import.start cfg' osmmap (crashed.commit (resumeTables .relations))
      (Producer.run cfg'.node_threads .relations fmt file.bytes
        (file.offsetFiles cfg keep_offset keep_relations_offset))) log finished
  ended : finished.script = []

end

end OsmImport
