import OsmImport.Delta.Replicator

/-!
# The books of a replication run

A tally and a ledger of a run are kept from its log. `Tally` looks at what a run is given: the tables, the
tagged nodes that the files create, and the answers that make `tryCopyBatch` give rows up. `Ledger` looks at
what becomes of it: which changes were applied since the last stored sequence number, which rows went to the
buffers, and which of them are in their tables.
-/

namespace OsmImport

open NavDB

/-! ## What a run is given -/

/-- The change creates a node with tags. -/
def OSCChange.createsTagged : OSCChange → Bool
  | .node .create n => !n.tags.isEmpty
  | _ => false

/-- The rows that `tryCopyBatch` gives up upon the answer to its COPY of `rows`. -/
def givenUp (rows : List Row) : SqlError → List Row
  | .noLine => rows
  | .badLine => []
  | .line n => if n - 1 < 0 ∨ n - 1 ≥ rows.length then rows else rows[(n - 1).toNat]?.toList

/-- What is known of a process and of the file that it applies. -/
structure Tally where
  db : Database
  /-- The tagged nodes that the process has created. -/
  created : ℕ
  /-- The table of the COPY that the last answer refused. -/
  refusedCopy : Option Kind
  /-- A row of the file was given up that is not in its table. -/
  lost : Bool
  /-- Wherever a sequence number was stored, the rows were spared. -/
  sparing : Prop

namespace Tally

def start (db : Database) : Tally := ⟨db, 0, none, false, True⟩

/-- The tagged nodes have filled `node_buf_` a whole number of times, and no row was given up that is not in
its table. -/
def Spares (a : Tally) : Prop := NODE_BUFFER_SIZE ∣ a.created ∧ a.lost = false

/-- A committed statement. -/
def exec (a : Tally) : Statement → Tally
  | .setSequence seq => { a with
      db := a.db.exec (.setSequence seq)
      lost := false
      sparing := a.sparing ∧ a.Spares }
  | st => { a with db := a.db.exec st }

/-- A refused transaction. A COPY that repeats a refused one is that of `tryCopyBatch`. -/
def refuse (a : Tally) (e : SqlError) : List Statement → Tally
  | [.copy k rows] => { a with
      refusedCopy := some k
      lost := a.lost || (decide (a.refusedCopy = some k) && !(givenUp rows e).all (· ∈ a.db.rows k)) }
  | _ => { a with refusedCopy := none }

/-- An event of the log. -/
def step (a : Tally) : Event → Tally
  | .started => { a with created := 0, refusedCopy := none, lost := false }
  | .change c => { a with created := a.created + if c.createsTagged then 1 else 0, refusedCopy := none }
  | .sent txn .ok => txn.foldl exec { a with refusedCopy := none }
  | .sent txn (.died true) => txn.foldl exec { a with refusedCopy := none }
  | .sent txn (.error e) => a.refuse e txn
  | _ => { a with refusedCopy := none }

end Tally

/-- The tally of a run that began with these tables. -/
def tally (db : Database) (log : List Event) : Tally := log.foldl Tally.step (.start db)

/-! ## What becomes of it -/

/-- What is known of a run since the last stored sequence number. -/
structure Ledger where
  tally : Tally
  seq : Int64
  changes : List OSCChange
  pushed : Kind → List Row
  /-- The rows that were put into their table, or that were in it when the server refused them. -/
  stored : Kind → List Row
  /-- The rows that were given up and were not in their table. -/
  missing : Kind → List Row
  pushedTags : TagBuf → List TagRow
  storedTags : TagBuf → List TagRow
  /-- Another transaction than a COPY of rows was refused. -/
  refused : Bool
  durable : Prop

namespace Ledger

/-- Nothing has happened since sequence number `seq`. -/
def start (a : Tally) (seq : Int64) : Ledger :=
  ⟨a, seq, [], fun _ => [], fun _ => [], fun _ => [], fun _ => [], fun _ => [], false, True⟩

/-- Everything up to `seq` is in the database. -/
def Settled (files : Int64 → List OSCChange) (l : Ledger) (seq : Int64) : Prop :=
  seq = l.seq + 1 ∧ l.changes = files seq ∧ (∀ k, (l.pushed k).Perm (l.stored k)) ∧
    (∀ b, l.pushedTags b = l.storedTags b) ∧ l.refused = false

/-- A committed statement. -/
def exec (files : Int64 → List OSCChange) (l : Ledger) : Statement → Ledger
  | .copy k rows => { l with stored := Function.update l.stored k (l.stored k ++ rows) }
  | .copyTags k rows => { l with
      storedTags := Function.update l.storedTags (bufOf k) (l.storedTags (bufOf k) ++ rows) }
  | .setSequence seq => { start l.tally seq with durable := l.durable ∧ l.Settled files seq }
  | _ => l

/-- A refused transaction. The rows that are given up are in the table or missing. -/
def refuse (l : Ledger) (e : SqlError) : List Statement → Ledger
  | [.copy k rows] =>
    if l.tally.refusedCopy = some k then
      let (found, absent) := (givenUp rows e).partition fun row => row ∈ l.tally.db.rows k
      { l with
        stored := Function.update l.stored k (l.stored k ++ found)
        missing := Function.update l.missing k (l.missing k ++ absent) }
    else l
  | _ => { l with refused := true }

/-- What an event says of the file. A process that starts has lost what was applied to the unfinished one. -/
def enter (files : Int64 → List OSCChange) (l : Ledger) : Event → Ledger
  | .started => { start l.tally l.seq with durable := l.durable }
  | .change c => { l with changes := l.changes ++ [c] }
  | .buffered k row => { l with pushed := Function.update l.pushed k (l.pushed k ++ [row]) }
  | .bufferedTags b rows => { l with
      pushedTags := Function.update l.pushedTags b (l.pushedTags b ++ rows) }
  | .sent txn .ok => txn.foldl (exec files) l
  | .sent txn (.died true) => txn.foldl (exec files) l
  | .sent txn (.error e) => l.refuse e txn
  | .sent _ (.died false) => l
  | .asked _ => l

/-- An event of the log. -/
def step (files : Int64 → List OSCChange) (l : Ledger) (e : Event) : Ledger :=
  { l.enter files e with tally := l.tally.step e }

end Ledger

/-- The ledger of a session in a run that began with `l`. -/
def ledger (files : Int64 → List OSCChange) (l : Ledger) (s : Session) : Ledger :=
  s.log.foldl (Ledger.step files) l

end OsmImport
