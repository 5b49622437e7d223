import OsmImport.Import.Threads
import OsmImport.Lib.Trace

/-!
# The import as a whole

The producer, the node threads and the way threads run side by side: a step of the import is a step of
one of them, and the two barriers have steps of their own. Each operation on a queue, a barrier, the node
store or the database is one step, and a step that would wait is not possible. An insert into the node store
that throws ends the process, so it is no step either.
-/

namespace OsmImport

open NavDB

/-- Which of the threads. -/
inductive Who where
  | node (i : ℕ)
  | way (i : ℕ)
deriving DecidableEq, Repr

/-- What the threads share. -/
structure Shared where
  node_queues : ℕ → BlockingQueue OSMEntry
  way_q : BlockingQueue OSMEntry
  node_barrier : Barrier
  way_barrier : Barrier
  /-- The completion of `node_barrier` has begun. -/
  merging : Bool
  merge_done : Bool
  osmmap : OSMMMap
  db : Database

namespace Shared

/-- The queue that a thread pops. -/
def queue (sh : Shared) : Who → BlockingQueue OSMEntry
  | .node i => sh.node_queues i
  | .way _ => sh.way_q

def setQueue (sh : Shared) (who : Who) (q : BlockingQueue OSMEntry) : Shared :=
  match who with
  | .node i => { sh with node_queues := Function.update sh.node_queues i q }
  | .way _ => { sh with way_q := q }

/-- The barrier at which a thread arrives. -/
def barrier (sh : Shared) : Who → Barrier
  | .node _ => sh.node_barrier
  | .way _ => sh.way_barrier

def setBarrier (sh : Shared) (who : Who) (b : Barrier) : Shared :=
  match who with
  | .node _ => { sh with node_barrier := b }
  | .way _ => { sh with way_barrier := b }

end Shared

/-- The state of an import; `script` is what the producer is still going to do. -/
structure Import where
  script : List Action
  node : ℕ → NodeThread
  way : ℕ → WayThread
  shared : Shared

/-- What happens in an import. -/
inductive ImportEvent where
  | producer (action : Action)
  | thread (who : Who) (act : Act)
  | mergeStarted
  | mergeFinished
  /-- The end of the phase of `way_barrier`. -/
  | waysReleased

section

variable (cfg : Config)

/-- The parties of a barrier. -/
def Config.parties : Who → ℕ
  | .node _ => cfg.node_threads
  | .way _ => cfg.way_threads

/-- The node threads that are launched. -/
def Config.nodeWorkers : ℕ :=
  if Producer.skip_nodes cfg.resume_phase then 0 else cfg.node_threads

/-- The effect of what a thread does. `offer` is the effect of a transaction on the database. -/
def Effect (offer : Database → List Statement → Database) (who : Who) (sh sh' : Shared) : Act → Prop
  | .take entry => ∃ rest, (sh.queue who).items = entry :: rest ∧
    sh' = sh.setQueue who ⟨rest, (sh.queue who).stop⟩
  | .drained => (sh.queue who).items = [] ∧ (sh.queue who).stop = true ∧ sh' = sh
  | .forward entry => sh.way_q.canPush cfg.queue_size = true ∧
    sh' = { sh with way_q := sh.way_q.push entry }
  | .store _ record => ∃ i osmmap, who = .node i ∧ sh.osmmap.insert CHUNK_SIZE i record = .ok osmmap ∧
    sh' = { sh with osmmap := osmmap }
  | .select id pos => pos = sh.osmmap.select id ∧ sh' = sh
  | .getWay id geog => geog = (geogs sh.db id).head?.join.getD [] ∧ sh' = sh
  | .getWayCoordsMap ids points => sh' = sh ∧ ∀ id, if id ∈ ids then
      cfg.ties (storedPoints cfg.dumpPoints (geogs sh.db id)) (points id) else points id = []
  | .insert _ _ => sh' = sh
  | .commit txn => sh' = { sh with db := offer sh.db txn }
  | .arrive phase => phase = (sh.barrier who).phase ∧ (sh.barrier who).arrived < cfg.parties who ∧
    sh' = sh.setBarrier who (sh.barrier who).arrive
  | .wake phase => phase < (sh.barrier who).phase ∧ sh' = sh
  | .internal => sh' = sh

/-- The effect of what the producer does. -/
def Produces (s : Import) (sh' : Shared) : Action → Prop
  | .pushNode i entry => (s.shared.node_queues i).canPush cfg.queue_size = true ∧
    sh' = s.shared.setQueue (.node i) ((s.shared.node_queues i).push entry)
  | .shutdownNode i => sh' = s.shared.setQueue (.node i) (s.shared.node_queues i).shutdown
  | .writeResumeOffset _ => sh' = s.shared
  | .waitMerge => s.shared.merge_done = true ∧ sh' = s.shared
  | .writeRelationsResumeOffset _ => sh' = s.shared
  | .pushWay entry => s.shared.way_q.canPush cfg.queue_size = true ∧
    sh' = { s.shared with way_q := s.shared.way_q.push entry }
  | .joinNodes => (∀ i < cfg.nodeWorkers, (s.node i).Ended) ∧ sh' = s.shared
  | .shutdownWay => sh' = { s.shared with way_q := s.shared.way_q.shutdown }
  | .joinWays => (∀ i < cfg.way_threads, (s.way i).Ended) ∧ sh' = s.shared

/-- A step of an import. -/
inductive Import.Step (offer : Database → List Statement → Database) :
    Import → ImportEvent → Import → Prop where
  | producer {s : Import} {action : Action} {rest : List Action} {sh' : Shared}
    (hscript : s.script = action :: rest) (h : Produces cfg s sh' action) :
    Step offer s (.producer action) { s with script := rest, shared := sh' }
  | node {s : Import} {i : ℕ} {act : Act} {t : NodeThread} {sh' : Shared} (hi : i < cfg.nodeWorkers)
    (h : NodeThread.Step cfg (s.node i) act t)
    (he : Effect cfg offer (.node i) s.shared sh' act) :
    Step offer s (.thread (.node i) act)
      { s with node := Function.update s.node i t, shared := sh' }
  | way {s : Import} {i : ℕ} {act : Act} {t : WayThread} {sh' : Shared} (hi : i < cfg.way_threads)
    (h : WayThread.Step cfg (s.way i) act t) (he : Effect cfg offer (.way i) s.shared sh' act) :
    Step offer s (.thread (.way i) act) { s with way := Function.update s.way i t, shared := sh' }
  | mergeStart {s : Import} (harrived : s.shared.node_barrier.arrived = cfg.node_threads)
    (hm : s.shared.merging = false) :
    Step offer s .mergeStarted { s with shared := { s.shared with merging := true } }
  | mergeFinish {s : Import} (hm : s.shared.merging = true) :
    Step offer s .mergeFinished { s with shared := { s.shared with
      merging := false
      merge_done := true
      osmmap := s.shared.osmmap.merge cfg.lz4
      node_barrier := s.shared.node_barrier.release } }
  | release {s : Import} (harrived : s.shared.way_barrier.arrived = cfg.way_threads) :
    Step offer s .waysReleased { s with shared := { s.shared with
      way_barrier := s.shared.way_barrier.release } }

/-- A node thread is at an insert that throws: the exception ends the process. -/
def Import.Refused (s : Import) : Prop :=
  ∃ i < cfg.nodeWorkers, ∃ n, (s.node i).pc = .item n ∧ (s.node i).outbox = [] ∧
    ∃ e, s.shared.osmmap.insert CHUNK_SIZE i (NodeThread.record cfg n) = .error e

/-- An import before its first step, with the store and the database that it opens. -/
def Import.start (osmmap : OSMMMap) (db : Database) (script : List Action) : Import where
  script := script
  node := fun i => ⟨.pop, NavDB.fresh i, []⟩
  way := fun i => ⟨.pop, NavDB.fresh (cfg.node_threads + i), [], cfg.resume_phase = .relations⟩
  shared := {
    node_queues := fun _ => .empty
    way_q := .empty
    node_barrier := .fresh
    way_barrier := .fresh
    merging := false
    merge_done := Producer.skip_nodes cfg.resume_phase
    osmmap := osmmap
    db := db }

end

end OsmImport
