import OsmImport.Db.NavDB
import OsmImport.Lib.KeyedInsert

/-!
# A server with primary keys

The tables of `createSchema`: `id` is the primary key of the five tables of rows, and the columns check
their values (`varchar(256)`, `geometry`). A failed COPY names the line of the first row that does not
fit, and leaves nothing behind.
-/

namespace OsmImport

open KeyedInsert

/-- The checks of the columns. -/
structure Checks where
  rowOk : Kind → Row → Bool
  tagOk : TagRow → Bool

/-- Columns that take every value. -/
def Checks.any : Checks := ⟨fun _ _ => true, fun _ => true⟩

namespace Postgres

variable (chk : Checks)

/-- The error of a statement, if it fails. -/
def complaint (db : Database) : Statement → Option SqlError
  | .copy k rows =>
    (firstBad Row.id (chk.rowOk k) ((db.rows k).map Row.id) rows).map fun i => .line (i + 1)
  | .copyTags _ rows => (rows.findIdx? fun r => !chk.tagOk r).map fun i => .line (i + 1)
  | .update k row => if chk.rowOk k row then none else some .noLine
  | .diffTags _ id tags =>
    if tags.entries.all fun kv => chk.tagOk ⟨id, kv.1, kv.2⟩ then none else some .noLine
  | _ => none

/-- The error of a transaction: that of its first statement that fails. -/
def complaints (db : Database) : List Statement → Option SqlError
  | [] => none
  | st :: txn => (complaint chk db st).or (complaints (db.exec st) txn)

end Postgres

/-- The server. -/
def postgres (chk : Checks) : Server where
  respond _ db txn := match Postgres.complaints chk db txn with
    | none => .ok
    | some e => .error e
  answers _ _ := true

namespace Postgres

/-- What a table holds when rows are inserted one by one, and a row that does not fit is left out. -/
def insertRows (chk : Checks) (k : Kind) (table rows : List Row) : List Row :=
  table ++ keep Row.id (chk.rowOk k) (table.map Row.id) rows

section

variable {chk : Checks} {k : Kind} {table : List Row}

@[simp] theorem insertRows_nil : insertRows chk k table [] = table := by
  simp [insertRows]

theorem insertRows_append (a b : List Row) :
    insertRows chk k table (a ++ b) = insertRows chk k (insertRows chk k table a) b := by
  simp only [insertRows, keep_append, List.map_append, List.append_assoc]

theorem insertRows_of_fits {rows : List Row}
    (h : firstBad Row.id (chk.rowOk k) (table.map Row.id) rows = none) :
    insertRows chk k table rows = table ++ rows := by
  rw [insertRows, keep_of_firstBad_none h]

end

end Postgres

/-- The rows of a table and of its buffer. -/
def Session.settled (s : Session) (chk : Checks) (k : Kind) : List Row :=
  Postgres.insertRows chk k (s.db.rows k) (s.nav.buf k)

end OsmImport
