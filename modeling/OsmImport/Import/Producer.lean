import OsmImport.Import.OSMReader

/-!
# The producer

The main thread of an import reads the file and hands its entries to the queues. What it does does not
depend on the other threads, only when it does it: it is a list of actions, some of which wait.
-/

namespace OsmImport

open OSMReader

/-- The values of `-R` that the producer distinguishes; `nodes` is a fresh import. -/
inductive Resume where
  | nodes
  | merging
  | ways
  | relations
deriving DecidableEq, Repr

/-- What the producer does. -/
inductive Action where
  /-- `node_queues[i]->push(entry)`. -/
  | pushNode (i : ℕ) (entry : OSMEntry)
  /-- `node_queues[i]->shutdown()`. -/
  | shutdownNode (i : ℕ)
  | writeResumeOffset (offset : ℕ)
  /-- The loop until `merge_done`. -/
  | waitMerge
  | writeRelationsResumeOffset (offset : ℕ)
  /-- `way_q.push(entry)`. -/
  | pushWay (entry : OSMEntry)
  /-- `w.join()` for the node threads. -/
  | joinNodes
  /-- `way_q.shutdown()`. -/
  | shutdownWay
  /-- `w.join()` for the way threads. -/
  | joinWays

namespace Producer

/-- The variables of the loop: `node_phase`, `rr`, `relations_offset_written`. -/
structure Vars where
  node_phase : Bool
  rr : ℕ
  relations_offset_written : Bool

variable (node_threads : ℕ) (resume_phase : Resume)

/-- `for (auto& nq : node_queues) nq->shutdown()`. -/
def shutdownNodes : List Action := (List.range node_threads).map Action.shutdownNode

/-- The end of the node phase, at the first entry that is no node. -/
def endNodePhase (blob_start : ℕ) (v : Vars) : List Action :=
  if v.node_phase then shutdownNodes node_threads ++ [.writeResumeOffset blob_start, .waitMerge] else []

/-- The offset of the first relation. -/
def noteRelation (blob_start : ℕ) (v : Vars) (entry : OSMEntry) : List Action :=
  if entry.isRelation && !v.relations_offset_written then [.writeRelationsResumeOffset blob_start] else []

/-- The body of the loop over a batch. -/
def step (blob_start : ℕ) (v : Vars) (entry : OSMEntry) : Vars × List Action :=
  if v.node_phase && entry.isNode then
    if resume_phase = .merging then (v, [])
    else ({ v with rr := v.rr + 1 }, [.pushNode (v.rr % node_threads) entry])
  else
    let actions := endNodePhase node_threads blob_start v
    if resume_phase = .relations && entry.isWay then ({ v with node_phase := false }, actions)
    else
      ({ v with
          node_phase := false
          relations_offset_written := v.relations_offset_written || entry.isRelation },
        actions ++ noteRelation blob_start v entry ++ [.pushWay entry])

/-- The loop over a batch. -/
def batchActions (blob_start : ℕ) : Vars → List OSMEntry → Vars × List Action
  | v, [] => (v, [])
  | v, entry :: batch =>
    let (v, actions) := step node_threads resume_phase blob_start v entry
    let (v, rest) := batchActions blob_start v batch
    (v, actions ++ rest)

/-- The loop over the file. -/
def loopActions : Vars → List (ℕ × List OSMEntry) → List Action
  | _, [] => []
  | v, (blob_start, batch) :: blobs =>
    let (v, actions) := batchActions node_threads resume_phase blob_start v batch
    actions ++ loopActions v blobs

/-- `skip_nodes`. -/
def skip_nodes : Bool := resume_phase = .ways || resume_phase = .relations

/-- The variables before the loop. -/
def start : Vars := ⟨!skip_nodes resume_phase, 0, false⟩

/-- The offset files, if they can be read. -/
structure OffsetFiles where
  offset : Option ℕ
  relations_offset : Option ℕ

/-- Where the reader starts. -/
def seekPosition (files : OffsetFiles) : ℕ :=
  match resume_phase with
  | .nodes => 0
  | .merging | .ways => files.offset.getD 0
  | .relations => (files.relations_offset.or files.offset).getD 0

/-- The end: the queues are shut down, and the threads joined. -/
def finish : List Action := shutdownNodes node_threads ++ [.joinNodes, .shutdownWay, .joinWays]

/-- What the producer does with the batches that it reads. If the node threads are skipped, their queues
are shut down first; an exception ends everything. -/
def actions (read : List (ℕ × List OSMEntry) × Ending) : List Action :=
  (if skip_nodes resume_phase then shutdownNodes node_threads else []) ++
    loopActions node_threads resume_phase (start resume_phase) read.1 ++
      if read.2 = .eof then finish node_threads else []

/-- A whole run over a file. -/
def run (fmt : Formats) (file : Bytes) (files : OffsetFiles) : List Action :=
  actions node_threads resume_phase (batches fmt file (seekPosition resume_phase files))

end Producer

/-- The entry that an action hands to the way threads. -/
def Action.pushed : Action → Option OSMEntry
  | .pushWay entry => some entry
  | _ => none

/-- The way threads ignore nodes, and with `skip_ways` ways. -/
def actsOn (skip_ways : Bool) (entry : OSMEntry) : Bool :=
  !entry.isNode && !(skip_ways && entry.isWay)

/-- The entries that the way threads act on, in the order of the queue. -/
def actedOn (resume_phase : Resume) (actions : List Action) : List OSMEntry :=
  (actions.filterMap Action.pushed).filter (actsOn (resume_phase = .relations))

/-- The offsets that are written to the first file. -/
def Action.resumeOffset : Action → Option ℕ
  | .writeResumeOffset offset => some offset
  | _ => none

/-- The offsets that are written to the second file. -/
def Action.relationsOffset : Action → Option ℕ
  | .writeRelationsResumeOffset offset => some offset
  | _ => none

/-- The offset files behind a run; a file is truncated each time it is written. -/
def offsetsAfter (actions : List Action) : Producer.OffsetFiles :=
  ⟨(actions.filterMap Action.resumeOffset).getLast?,
    (actions.filterMap Action.relationsOffset).getLast?⟩

end OsmImport
