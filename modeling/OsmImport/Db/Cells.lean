import OsmImport.Db.Postgres
import OsmImport.Lib.Replay

/-!
# The cells of the tables

What a table holds under an id, and what a tag table holds under an id and a key. A statement acts on
each of these cells on its own.
-/

namespace OsmImport

open Replay

/-- The values under an id and a key. -/
def tagValues (table : List TagRow) (id : Int64) (key : Str) : List Str :=
  (table.filter fun r => r.id == id && r.key_name == key).map TagRow.key_value

namespace Database

/-- The effect of a statement, that of a COPY of rows as the rounds of `tryCopyBatch` leave it. -/
def settle (chk : Checks) (db : Database) : Statement → Database
  | .copy k rows => db.setRows k (Postgres.insertRows chk k (db.rows k) rows)
  | st => db.exec st

/-- The rows with an id. -/
def rowsAt (db : Database) (k : Kind) (id : Int64) : List Row := (db.rows k).filter fun r => r.id == id

/-- The values of a tag. -/
def valuesAt (db : Database) (k : Kind) (id : Int64) (key : Str) : List Str :=
  tagValues (db.tags k) id key

end Database

namespace Statement

/-- What the statement does to the rows with an id. -/
def rowOps (chk : Checks) (k : Kind) (id : Int64) : Statement → List (SlotOp Row)
  | copy j rows => if j = k then (rows.filter fun r => chk.rowOk k r && r.id == id).map .put else []
  | update j row => if j = k ∧ row.id = id then [.set row] else []
  | delete j i => if j = k ∧ i = id then [.clear] else []
  | truncate j => if j = k then [.clear] else []
  | _ => []

/-- What it does to the values of a tag. -/
def tagOps (k : Kind) (id : Int64) (key : Str) : Statement → List (BagOp Str)
  | copyTags j rows => if j = k then [.add (tagValues rows id key)] else []
  | diffTags j i tags => if j = k ∧ i = id then [.sync (tags.find key)] else []
  | deleteTags j i => if j = k ∧ i = id then [.sync none] else []
  | truncateTags j => if j = k then [.sync none] else []
  | _ => []

end Statement

end OsmImport
