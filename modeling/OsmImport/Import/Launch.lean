import OsmImport.Import.Args
import OsmImport.Lib.BlockingQueue
import OsmImport.Store.OSMMMap
import Mathlib.Logic.Relation

/-!
# The launch of an import

What `main` makes of arguments that were accepted, whatever their values: the queues, the shards and the
threads, as far as they decide which partial operations are reached. What the threads do to the database
is left out. Of the store the opening and the inserts are kept, which fail where the platform does not grant
what they need.
-/

namespace OsmImport

namespace Launch

variable (a : Args)

/-- With these phases the process ends before it opens the file. -/
def withoutFile : Bool :=
  a.resume_phase = .indexing || a.resume_phase = .airportsLoading || a.resume_phase = .vacuuming

/-- `open_shards_for_write`. -/
def open_shards_for_write : Bool := a.resume_phase = .nodes

/-- What the flags of the producer (`skip_nodes`, `resume_skip_node_emit`) and its comparisons with
`Phase::Relations` distinguish. -/
def resumeOf : Resume :=
  match a.resume_phase with
  | .merging => .merging
  | .ways => .ways
  | .relations => .relations
  | _ => .nodes

/-- `createFile`, unless the import is resumed, and the opening of the store. -/
def openNodes (plat : Platform) (disk : Disk) : Except StoreError OSMMMap := do
  let disk ← if a.resume_phase = .nodes then
      OSMMMap.createFile plat disk a.max_node_id a.node_threads.toNat
    else .ok disk
  OSMMMap.openStore plat disk a.max_node_id a.node_threads.toNat (open_shards_for_write a)

/-- The import comes to its producer, with this store. It does not with a negative count of threads, for which
`shards_` or `way_workers.reserve` throws. -/
def Launches (plat : Platform) (disk : Disk) (osmmap : OSMMMap) : Prop :=
  a.mode = .importing ∧ withoutFile a = false ∧ 0 ≤ a.node_threads ∧ 0 ≤ a.way_threads ∧
    openNodes a plat disk = .ok osmmap

/-- `node_workers`. -/
def nodeWorkers : ℕ := if Producer.skip_nodes (resumeOf a) then 0 else a.node_threads.toNat

/-- Where a node thread stands. -/
inductive Place where
  | popping
  | item (node : NodeEntry)
  | forwarding (entry : OSMEntry)
  /-- At `node_barrier`, or behind it. -/
  | arrived

/-- Where a node thread goes with an entry. -/
def Place.of : OSMEntry → Place
  | .node n => .item n
  | entry => .forwarding entry

/-- The state of an import; `script` is what the producer is still going to do. -/
structure State where
  script : List Action
  node_queues : ℕ → BlockingQueue OSMEntry
  way_q : BlockingQueue OSMEntry
  node : ℕ → Place
  merge_done : Bool
  osmmap : OSMMMap

/-- The state in front of the producer. -/
def start (osmmap : OSMMMap) (script : List Action) : State where
  script := script
  node_queues := fun _ => .empty
  way_q := .empty
  node := fun _ => .popping
  merge_done := Producer.skip_nodes (resumeOf a)
  osmmap := osmmap

/-- A push to a queue does not wait. -/
def canPush (q : BlockingQueue OSMEntry) : Bool := q.canPush a.queue_size.toNat

/-- The effect of what the producer does. A push to a node queue takes a remainder by `node_threads`. -/
def Produces (s s' : State) : Action → Prop
  | .pushNode i entry => a.node_threads ≠ 0 ∧ canPush a (s.node_queues i) = true ∧
    s' = { s with node_queues := Function.update s.node_queues i ((s.node_queues i).push entry) }
  | .shutdownNode i =>
    s' = { s with node_queues := Function.update s.node_queues i (s.node_queues i).shutdown }
  | .writeResumeOffset _ => s' = s
  | .waitMerge => s.merge_done = true ∧ s' = s
  | .writeRelationsResumeOffset _ => s' = s
  | .pushWay entry => canPush a s.way_q = true ∧ s' = { s with way_q := s.way_q.push entry }
  | .joinNodes => (∀ i < nodeWorkers a, s.node i = .arrived ∧ s.merge_done = true) ∧ s' = s
  | .shutdownWay => s' = { s with way_q := s.way_q.shutdown }
  | .joinWays => (0 < a.way_threads → s.way_q.items = []) ∧ s' = s

/-- A step of an import. -/
inductive Step : State → State → Prop where
  | producer {s s' : State} {action : Action} {rest : List Action} (hscript : s.script = action :: rest)
    (h : Produces a s s' action) : Step s { s' with script := rest }
  | take {s : State} {i : ℕ} {entry : OSMEntry} {rest : List OSMEntry} (hi : i < nodeWorkers a)
    (hplace : s.node i = .popping) (hitems : (s.node_queues i).items = entry :: rest) :
    Step s { s with
      node_queues := Function.update s.node_queues i ⟨rest, (s.node_queues i).stop⟩
      node := Function.update s.node i (Place.of entry) }
  /-- `osmmap.insert`, on a shard that is open for writing. If it throws, the process ends. The record has the
  position of the node in the projection of the database. -/
  | insert {s : State} {i : ℕ} {n : NodeEntry} {r : Record} {osmmap : OSMMMap} (hi : i < nodeWorkers a)
    (hplace : s.node i = .item n) (hopen : open_shards_for_write a = true) (hid : r.id = n.id)
    (h : s.osmmap.insert CHUNK_SIZE i r = .ok osmmap) :
    Step s { s with osmmap := osmmap, node := Function.update s.node i .popping }
  | forward {s : State} {i : ℕ} {entry : OSMEntry} (hi : i < nodeWorkers a)
    (hplace : s.node i = .forwarding entry) (h : canPush a s.way_q = true) :
    Step s { s with way_q := s.way_q.push entry, node := Function.update s.node i .arrived }
  | drained {s : State} {i : ℕ} (hi : i < nodeWorkers a) (hplace : s.node i = .popping)
    (hitems : (s.node_queues i).items = []) (hstop : (s.node_queues i).stop = true) :
    Step s { s with node := Function.update s.node i .arrived }
  /-- The last arrival at `node_barrier` merges. Without a node thread there is none. -/
  | merge {s : State} (hpos : 0 < nodeWorkers a) (h : ∀ i < nodeWorkers a, s.node i = .arrived) :
    Step s { s with merge_done := true }
  | takeWay {s : State} {entry : OSMEntry} {rest : List OSMEntry} (hpos : 0 < a.way_threads)
    (hitems : s.way_q.items = entry :: rest) :
    Step s { s with way_q := ⟨rest, s.way_q.stop⟩ }

/-- A push to the queue waits for ever: it is not shut down, and no size is below its bound. -/
def Hangs (q : BlockingQueue OSMEntry) : Prop := q.stop = false ∧ ∀ size : ℕ, ¬ (size : ℤ) < a.queue_size

/-- The next operation of a thread is one that must not be reached. -/
inductive Faulty (s : State) : Prop where
  /-- `rr % args.node_threads`. -/
  | remainder {i : ℕ} {entry : OSMEntry} {rest : List Action}
    (hscript : s.script = .pushNode i entry :: rest) (hzero : a.node_threads = 0)
  | pushNode {i : ℕ} {entry : OSMEntry} {rest : List Action}
    (hscript : s.script = .pushNode i entry :: rest) (hpos : a.node_threads ≠ 0)
    (h : Hangs a (s.node_queues i))
  | pushWay {entry : OSMEntry} {rest : List Action} (hscript : s.script = .pushWay entry :: rest)
    (h : Hangs a s.way_q)
  | forward {i : ℕ} {entry : OSMEntry} (hi : i < nodeWorkers a) (hplace : s.node i = .forwarding entry)
    (h : Hangs a s.way_q)
  /-- `osmmap.insert` on a shard that is not open. -/
  | insert {i : ℕ} {n : NodeEntry} (hi : i < nodeWorkers a) (hplace : s.node i = .item n)
    (hclosed : open_shards_for_write a = false)

/-- The state is reached in some run of an import of the file, with the store and the offsets on disk. -/
def Reaches (plat : Platform) (disk : Disk) (fmt : Formats) (file : Bytes) (files : Producer.OffsetFiles)
    (s : State) : Prop :=
  ∃ osmmap, Launches a plat disk osmmap ∧ Relation.ReflTransGen (Step a)
    (start a osmmap (Producer.run a.node_threads.toNat (resumeOf a) fmt file files)) s

end Launch

end OsmImport
