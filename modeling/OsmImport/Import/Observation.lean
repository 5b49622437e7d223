import OsmImport.Import.Pipeline

/-!
# What is seen of an import

A run of an import is the list of its events. Each thread, each queue and the producer see some of them.
-/

namespace OsmImport

open OSMReader Producer

/-- A file that can be read to its end: first nodes, then ways, then relations. -/
structure OrderedFile (fmt : Formats) where
  bytes : Bytes
  nodes : List NodeEntry
  ways : List WayEntry
  relations : List RelationEntry
  complete : (batches fmt bytes 0).2 = .eof
  ordered : (batches fmt bytes 0).1.flatMap Prod.snd =
    nodes.map .node ++ (ways.map .way ++ relations.map .relation)

/-- Decoders that find one block in every blob. -/
def oneBlockFormats (entries : List OSMEntry) : Formats where
  parseBlobHeader _ := some ⟨str "OSMData", 0⟩
  parseBlob _ := some ⟨some [1], none, none⟩
  uncompress _ _ := none
  parsePrimitiveBlock _ := some entries

theorem batches_oneBlock (entries : List OSMEntry) :
    batches (oneBlockFormats entries) [0, 0, 0, 0] 0 = ([(0, entries)], .eof) := by
  have hblob : readBlob (oneBlockFormats entries) [0, 0, 0, 0] 0 = .ok [1] 4 := by
    simp [readBlob, OSMReader.read, decode, content, oneBlockFormats, Result.bind,
      LittleEndian.ofBytes, str]
    decide
  have hend : readBlob (oneBlockFormats entries) [0, 0, 0, 0] 4 = .eof := by
    simp [readBlob, OSMReader.read, Result.bind]
  have hnext : next (oneBlockFormats entries) [0, 0, 0, 0] 0 = .ok entries 4 := by
    rw [next]
    split
    · simp_all
    · simp_all
    · rename_i hok
      rw [hblob] at hok
      cases hok
      rfl
  have heof : next (oneBlockFormats entries) [0, 0, 0, 0] 4 = .eof := by
    rw [next]
    split <;> simp_all
  have hlast : batches (oneBlockFormats entries) [0, 0, 0, 0] 4 = ([], .eof) := by
    rw [batches]
    split <;> simp_all
  rw [batches_ok hnext, hlast]

/-- A file of a single blob. -/
def OrderedFile.oneBlob (nodes : List NodeEntry) (ways : List WayEntry)
    (relations : List RelationEntry) :
    OrderedFile (oneBlockFormats
      (nodes.map .node ++ (ways.map .way ++ relations.map .relation))) where
  bytes := [0, 0, 0, 0]
  nodes := nodes
  ways := ways
  relations := relations
  complete := by rw [batches_oneBlock]
  ordered := by rw [batches_oneBlock]; simp

/-- What the producer of a fresh import does with the file. -/
def OrderedFile.script {fmt : Formats} (file : OrderedFile fmt) (cfg : Config) : List Action :=
  Producer.run cfg.node_threads .nodes fmt file.bytes ⟨none, none⟩

theorem script_oneBlob (nodes : List NodeEntry) (ways : List WayEntry) (relations : List RelationEntry)
    (cfg : Config) : (OrderedFile.oneBlob nodes ways relations).script cfg = actions cfg.node_threads .nodes
      ([(0, nodes.map .node ++ (ways.map .way ++ relations.map .relation))], .eof) :=
  congrArg (actions _ _) (batches_oneBlock _)

namespace Act

/-- The entry that is taken from a queue. -/
def taken : Act → Option OSMEntry
  | .take entry => some entry
  | _ => none

/-- The node that is inserted into the store. -/
def stored : Act → Option NodeEntry
  | .store node _ => some node
  | _ => none

/-- The phase of an arrival at a barrier. -/
def arrival : Act → Option ℕ
  | .arrive phase => some phase
  | _ => none

/-- What it does to the queue of `who` when it is done by `me`. -/
def queueOp (who me : Who) : Act → Option (BlockingQueue.Op OSMEntry)
  | .take entry => match who, me with
    | .node i, .node j => if j = i then some (.pop entry) else none
    | .way _, .way _ => some (.pop entry)
    | _, _ => none
  | .drained => match who, me with
    | .node i, .node j => if j = i then some .drained else none
    | .way _, .way _ => some .drained
    | _, _ => none
  | .forward entry => match who with
    | .node _ => none
    | .way _ => some (.push entry)
  | _ => none

end Act

/-- What the producer does to the queue of a thread. -/
def Action.queueOp (who : Who) : Action → Option (BlockingQueue.Op OSMEntry)
  | .pushNode j entry => match who with
    | .node i => if j = i then some (.push entry) else none
    | .way _ => none
  | .shutdownNode j => match who with
    | .node i => if j = i then some .shutdown else none
    | .way _ => none
  | .pushWay entry => match who with
    | .node _ => none
    | .way _ => some (.push entry)
  | .shutdownWay => match who with
    | .node _ => none
    | .way _ => some .shutdown
  | _ => none

/-- The beginning and the end of `merge()`. -/
inductive MergeMark where
  | started
  | finished
deriving DecidableEq, Repr

namespace ImportEvent

/-- What the producer does. -/
def action : ImportEvent → Option Action
  | .producer a => some a
  | _ => none

/-- What a thread does. -/
def act (who : Who) : ImportEvent → Option Act
  | .thread me a => if me = who then some a else none
  | _ => none

/-- What happens to the queue of a thread. -/
def queueOp (who : Who) : ImportEvent → Option (BlockingQueue.Op OSMEntry)
  | .producer a => a.queueOp who
  | .thread me a => a.queueOp who me
  | _ => none

/-- What happens to the node store as a whole. -/
def mergeMark : ImportEvent → Option MergeMark
  | .mergeStarted => some .started
  | .mergeFinished => some .finished
  | _ => none

end ImportEvent

/-- What the producer has done. -/
def produced (log : List ImportEvent) : List Action := log.filterMap ImportEvent.action

/-- What a thread has done. -/
def acts (who : Who) (log : List ImportEvent) : List Act := log.filterMap (ImportEvent.act who)

/-- What happened to the queue of a thread. -/
def queueOps (who : Who) (log : List ImportEvent) : List (BlockingQueue.Op OSMEntry) :=
  log.filterMap (ImportEvent.queueOp who)

/-- The marks of `merge()`. -/
def mergeMarks (log : List ImportEvent) : List MergeMark := log.filterMap ImportEvent.mergeMark

/-- The entries that a thread has taken. -/
def takenBy (who : Who) (log : List ImportEvent) : List OSMEntry := (acts who log).filterMap Act.taken

/-- The nodes that a node thread has inserted into its shard. -/
def storedBy (i : ℕ) (log : List ImportEvent) : List NodeEntry :=
  (acts (.node i) log).filterMap Act.stored

/-- The rows that a statement copies to a table. -/
def Statement.copied (k : Kind) : Statement → List Row
  | .copy j rows => if j = k then rows else []
  | _ => []

/-- The rows that transactions copy to a table. -/
def copiedRows (k : Kind) (txns : List (List Statement)) : List Row :=
  txns.flatMap fun txn => txn.flatMap (Statement.copied k)

/-- The tag rows that a statement copies to a tag table. -/
def Statement.copiedTags (k : Kind) : Statement → List TagRow
  | .copyTags j rows => if j = k then rows else []
  | _ => []

/-- The tag rows that transactions copy to a tag table. -/
def copiedTagRows (k : Kind) (txns : List (List Statement)) : List TagRow :=
  txns.flatMap fun txn => txn.flatMap (Statement.copiedTags k)

/-- The transaction that is committed. -/
def Act.committed : Act → Option (List Statement)
  | .commit txn => some txn
  | _ => none

/-- The transaction that is committed. -/
def ImportEvent.committed : ImportEvent → Option (List Statement)
  | .thread _ a => a.committed
  | _ => none

/-- A lookup of the rows of ways. -/
def Act.looksUp : Act → Bool
  | .getWay _ _ | .getWayCoordsMap _ _ => true
  | _ => false

/-- The way in an entry. -/
def OSMEntry.asWay : OSMEntry → Option WayEntry
  | .way w => some w
  | _ => none

/-- The ways that a thread has taken. -/
def waysTakenBy (i : ℕ) (log : List ImportEvent) : List WayEntry :=
  (takenBy (.way i) log).filterMap OSMEntry.asWay

/-- The rows that a thread has committed to a table. -/
def committedBy (who : Who) (k : Kind) (log : List ImportEvent) : List Row :=
  copiedRows k ((acts who log).filterMap Act.committed)

/-- The rows that are built from a way, with the positions of its nodes. -/
def builtRows (cfg : Config) (pos : Int64 → Option Coord) (k : Kind) (w : WayEntry) : List Row :=
  ((WayThread.wayCalls cfg w (w.node_refs.filterMap pos)).filter fun c => c.kind = k).map InsertCall.row

/-- Every row that is built from a way of the file is committed, by the thread that took the way. -/
structure WaysCommitted {fmt : Formats} (cfg : Config) (file : OrderedFile fmt)
    (log : List ImportEvent) (sh : Shared) : Prop where
  taken : ((List.range cfg.way_threads).flatMap fun i => waysTakenBy i log).Perm file.ways
  committed : ∀ i < cfg.way_threads, ∀ k, ((waysTakenBy i log).flatMap
    (builtRows cfg sh.osmmap.select k)).Sublist (committedBy (.way i) k log)
  visible : ∀ w ∈ file.ways, ∀ k, ∀ row ∈ builtRows cfg sh.osmmap.select k w, row ∈ sh.db.rows k

/-- The nodes are in the shards, each in one of them and once. -/
def NodesStored {fmt : Formats} (cfg : Config) (file : OrderedFile fmt) (log : List ImportEvent) : Prop :=
  ((List.range cfg.node_threads).flatMap fun i => storedBy i log).Perm file.nodes

/-- The ways and relations are with the way threads, each with one of them and once. -/
def EntriesTaken {fmt : Formats} (cfg : Config) (file : OrderedFile fmt) (log : List ImportEvent) : Prop :=
  ((List.range cfg.way_threads).flatMap fun i => takenBy (.way i) log).Perm
    (file.ways.map .way ++ file.relations.map .relation)

/-- The merge begins behind all inserts into the store, and has not begun before; a lookup in the store
comes behind its end. -/
def MergeInOrder {fmt : Formats} (cfg : Config) (file : OrderedFile fmt) (before : List ImportEvent) :
    ImportEvent → Prop
  | .mergeStarted => NodesStored cfg file before ∧ mergeMarks before = []
  | .thread _ (.select _ _) => mergeMarks before = [.started, .finished]
  | _ => True

end OsmImport
