import OsmImport.Import.Resume
import OsmImport.Store.Crash

/-!
# Resuming an import at its merge

An import that dies inside `merge()` leaves the tables of the nodes in the database, and on disk a store
with some of the shards merged and the files of the others. With `-R merge` nothing is truncated: the store
is opened with its shards, the node threads get no nodes and only meet at their barrier, and the merge is
done again for the shards that are left.
-/

namespace OsmImport

open OSMMMap

section

variable {fmt : Formats} (chk : Checks) (cfg : Config) (file : OrderedFile fmt)

/-- A fresh import that is interrupted inside its merge: `finished` is the end that it comes to when it is
not interrupted. -/
structure InterruptedMerge where
  fresh : cfg.resume_phase = .nodes
  osmmap : OSMMMap
  db : Database
  during : List ImportEvent
  after : List ImportEvent
  crashed : Import
  finished : Import
  crash : Trace (Import.Step cfg (Database.offer chk))
    (Import.start cfg osmmap db (file.script cfg)) during crashed
  merging : crashed.shared.merging = true
  finish : Trace (Import.Step cfg (Database.offer chk)) crashed after finished
  ended : finished.script = []

/-- An import with `-R merge` on what an interrupted one left behind, from its start to its end: `cp` is how
far its merge was, and `reached` what had reached the files of shards that were still open. The number of
the way threads may be another. -/
structure ResumedMerge (max_id : Int64) (crashed : Import) where
  cfg' : Config
  resumes : cfg'.resume_phase = .merging
  node_threads : cfg'.node_threads = cfg.node_threads
  lz4 : cfg'.lz4 = cfg.lz4
  env : cfg'.env = cfg.env
  dumpPoints : cfg'.dumpPoints = cfg.dumpPoints
  ties : cfg'.ties = cfg.ties
  keep_offset : Bool
  keep_relations_offset : Bool
  cp : CrashPoint
  inside : cp.Inside cfg.node_threads
  reached : ℕ → ℕ
  platform : Platform
  osmmap : OSMMMap
  reopened : openStore platform (crash cfg.lz4 reached (mergeUntil cfg.lz4 crashed.shared.osmmap cp)) max_id
    cfg'.node_threads false = .ok osmmap
  log : List ImportEvent
  finished : Import
  run : Trace (Import.Step cfg' (Database.offer chk))
    (Import.start cfg' osmmap crashed.shared.db
      (Producer.run cfg'.node_threads .merging fmt file.bytes
        (file.offsetFiles cfg keep_offset keep_relations_offset))) log finished
  ended : finished.script = []

end

end OsmImport
