import OsmImport.Types
import Mathlib.Logic.Function.Basic

/-!
# The database

The tables that the importer fills and the SQL statements that it sends, as functions on the tables.
A table is the list of its rows, new rows at the end. A `geometry` column holds the text that was
written to it.
-/

namespace OsmImport

/-- The tables `nodes`, `ways`, `areas`, `roads` and `relations`, and with them their tag tables. -/
inductive Kind where
  | node
  | way
  | area
  | road
  | relation
deriving DecidableEq, Repr

/-- A row of one of them; `position` is `longitude_m`, `latitude_m`, which only `nodes` has, and
`geog = none` is NULL. -/
structure Row where
  id : Int64
  name : Str
  position : Option Coord
  geog : Option Str
deriving DecidableEq, Repr

/-- A row of a tag table. -/
structure TagRow where
  id : Int64
  key_name : Str
  key_value : Str
deriving DecidableEq, Repr

/-- The database. -/
structure Database where
  rows : Kind → List Row
  tags : Kind → List TagRow
  /-- `osm_replication_state`. -/
  sequence : Option Int64

/-- The SQL statements; `diffTags` stands for the SELECT of that function and the statements that it
sends upon its result. -/
inductive Statement where
  | copy (table : Kind) (rows : List Row)
  | copyTags (table : Kind) (rows : List TagRow)
  | update (table : Kind) (row : Row)
  | diffTags (table : Kind) (id : Int64) (tags : Tags)
  | delete (table : Kind) (id : Int64)
  | deleteTags (table : Kind) (id : Int64)
  | setSequence (seq : Int64)
  | truncate (table : Kind)
  | truncateTags (table : Kind)

/-! ## Tag differences -/

/-- `existing`: the pairs of the rows of `id`; a later row of a key overwrites an earlier one. -/
def existingTags (table : List TagRow) (id : Int64) : List (Str × Str) :=
  (table.filter fun r => r.id == id).foldl
    (fun existing r => (existing.filter fun p => p.1 != r.key_name) ++ [(r.key_name, r.key_value)])
    []

/-- `UPDATE … SET key_value=$3 WHERE id=$1 AND key_name=$2`. -/
def updateTag (table : List TagRow) (id : Int64) (k v : Str) : List TagRow :=
  table.map fun r => if r.id = id ∧ r.key_name = k then { r with key_value := v } else r

/-- `DELETE FROM … WHERE id=$1 AND key_name=$2`. -/
def deleteTag (table : List TagRow) (id : Int64) (k : Str) : List TagRow :=
  table.filter fun r => !(r.id == id && r.key_name == k)

/-- One round of the first loop of `diffTags`: the table and `existing`. -/
def diffTag (id : Int64) (acc : List TagRow × List (Str × Str)) (kv : Str × Str) :
    List TagRow × List (Str × Str) :=
  let (table, existing) := acc
  let (k, v) := kv
  let table := match existing.lookup k with
    | none => table ++ [⟨id, k, v⟩]
    | some v' => if v' ≠ v then updateTag table id k v else table
  (table, existing.filter fun p => p.1 != k)

/-- `diffTags`, on the tag table. -/
def diffTags (table : List TagRow) (id : Int64) (tags : Tags) : List TagRow :=
  let (table, existing) := tags.entries.foldl (diffTag id) (table, existingTags table id)
  existing.foldl (fun table kv => deleteTag table id kv.1) table

/-! ## The effect of statements -/

/-- `UPDATE … WHERE id=$1`: all columns but `id`. -/
def updateRow (table : List Row) (row : Row) : List Row :=
  table.map fun r => if r.id = row.id then row else r

namespace Database

def setRows (db : Database) (k : Kind) (rows : List Row) : Database :=
  { db with rows := Function.update db.rows k rows }

def setTags (db : Database) (k : Kind) (tags : List TagRow) : Database :=
  { db with tags := Function.update db.tags k tags }

/-- The effect of a statement that the server executes. -/
def exec (db : Database) : Statement → Database
  | .copy k rows => db.setRows k (db.rows k ++ rows)
  | .copyTags k tags => db.setTags k (db.tags k ++ tags)
  | .update k row => db.setRows k (updateRow (db.rows k) row)
  | .diffTags k id tags => db.setTags k (OsmImport.diffTags (db.tags k) id tags)
  | .delete k id => db.setRows k ((db.rows k).filter fun r => r.id != id)
  | .deleteTags k id => db.setTags k ((db.tags k).filter fun r => r.id != id)
  | .setSequence seq => { db with sequence := some seq }
  | .truncate k => db.setRows k []
  | .truncateTags k => db.setTags k []

/-- The effect of a committed transaction. -/
def commit (db : Database) (txn : List Statement) : Database := txn.foldl exec db

section

variable (db : Database) (k j : Kind) (rows : List Row) (tags : List TagRow)

@[simp] theorem rows_setRows : (db.setRows k rows).rows = Function.update db.rows k rows := rfl

@[simp] theorem tags_setRows : (db.setRows k rows).tags = db.tags := rfl

@[simp] theorem sequence_setRows : (db.setRows k rows).sequence = db.sequence := rfl

@[simp] theorem rows_setTags : (db.setTags k tags).rows = db.rows := rfl

@[simp] theorem tags_setTags : (db.setTags k tags).tags = Function.update db.tags k tags := rfl

@[simp] theorem sequence_setTags : (db.setTags k tags).sequence = db.sequence := rfl

@[simp] theorem commit_nil : db.commit [] = db := rfl

@[simp] theorem commit_cons (st : Statement) (txn : List Statement) :
    db.commit (st :: txn) = (db.exec st).commit txn := rfl

end

end Database

end OsmImport
