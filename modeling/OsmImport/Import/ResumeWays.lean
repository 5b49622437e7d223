import OsmImport.Import.Resume
import OsmImport.Store.Crash

/-!
# Resuming an import at its ways

An import that dies behind the merge leaves the merged store on disk, and some of the transactions of the
way threads in the database. With `-R ways` the tables of ways and areas are truncated, the store is
opened again, and a new import reads the file from its first way on.
-/

namespace OsmImport

open NavDB OSMMMap

/-- The tag rows of relations and roads that are committed. -/
def committedSharedTags (log : List ImportEvent) : List TagRow :=
  copiedTagRows .relation (log.filterMap ImportEvent.committed) ++
    copiedTagRows .road (log.filterMap ImportEvent.committed)

/-- All tables of rows, and the tags of nodes, ways and areas, hold the same, in any order. -/
structure SameTablesOfWays (a b : Database) : Prop where
  rows : ∀ k, (a.rows k).Perm (b.rows k)
  tags : ∀ k, k ≠ .relation → k ≠ .road → (a.tags k).Perm (b.tags k)

section

variable {fmt : Formats} (chk : Checks) (cfg : Config) (file : OrderedFile fmt)

/-- A fresh import that is interrupted behind the merge: `finished` is the end that it comes to when it is
not interrupted. -/
structure InterruptedWays where
  fresh : cfg.resume_phase = .nodes
  osmmap : OSMMMap
  db : Database
  during : List ImportEvent
  after : List ImportEvent
  crashed : Import
  finished : Import
  crash : Trace (Import.Step cfg (Database.offer chk))
    (Import.start cfg osmmap db (file.script cfg)) during crashed
  merged : crashed.shared.merge_done = true
  finish : Trace (Import.Step cfg (Database.offer chk)) crashed after finished
  ended : finished.script = []

/-- An import with `-R ways` on what an interrupted one left behind, from its start to its end. The number
of its threads may be another; `reached` is what had reached the files of shards that were still open. -/
structure ResumedWays (max_id : Int64) (crashed : Import) where
  cfg' : Config
  resumes : cfg'.resume_phase = .ways
  env : cfg'.env = cfg.env
  dumpPoints : cfg'.dumpPoints = cfg.dumpPoints
  ties : cfg'.ties = cfg.ties
  keep_offset : Bool
  keep_relations_offset : Bool
  reached : ℕ → ℕ
  platform : Platform
  osmmap : OSMMMap
  reopened : openStore platform (crash cfg.lz4 reached crashed.shared.osmmap) max_id cfg'.node_threads false =
    .ok osmmap
  log : List ImportEvent
  finished : Import
  run : Trace (Import.Step cfg' (Database.offer chk))
    (Import.start cfg' osmmap (crashed.shared.db.commit (resumeTables .ways))
      (Producer.run cfg'.node_threads .ways fmt file.bytes
        (file.offsetFiles cfg keep_offset keep_relations_offset))) log finished
  ended : finished.script = []

end

end OsmImport
