import OsmImport.Airports.Loaders
import OsmImport.Lib.Csv
import OsmImport.Lib.Stages

/-!
# What the airports tables hold

The downloaded files as tables of fields, the rows that these stand for, and the transactions of a load as
stages on the tables. A server that enforces the schema commits nothing else; PostgreSQL is the one of them
that refuses nothing else.
-/

namespace OsmImport

namespace AirportsLoader

open Lines

/-! ## Files -/

/-- The text is a file of comma-separated values: a header, and a line for each of the records. A field with a
line break in it is outside of this, since the loaders read line by line. -/
def Written (text : Str) (doc : List (List Str)) : Prop :=
  ∃ (header : Str) (records : List (List (Csv.Field COMMA QUOTE))),
    Consists text (header :: records.map Csv.encodeLine) ∧ (∀ r ∈ records, r ≠ []) ∧
      doc = records.map fun r => r.map Csv.Field.text

/-- The fields of the lines of the six files. -/
structure Documents where
  countries : List (List Str)
  regions : List (List Str)
  airports : List (List Str)
  frequencies : List (List Str)
  runways : List (List Str)
  navaids : List (List Str)

/-- The fields of the lines behind the header. -/
def fieldsOf (text : Str) : List (List Str) := (getlines text).tail.map parseCsvLineAP

namespace Files

variable (files : Files)

/-- What the parser finds in the files. -/
def documents : Documents :=
  ⟨fieldsOf files.countries, fieldsOf files.regions, fieldsOf files.airports, fieldsOf files.frequencies,
    fieldsOf files.runways, fieldsOf files.navaids⟩

/-- The files are written from the documents. -/
structure Write (docs : Documents) : Prop where
  countries : Written files.countries docs.countries
  regions : Written files.regions docs.regions
  airports : Written files.airports docs.airports
  frequencies : Written files.frequencies docs.frequencies
  runways : Written files.runways docs.runways
  navaids : Written files.navaids docs.navaids

end Files

/-! ## Rows -/

/-- The lines of a document that are long enough. -/
def linesOf (n : ℕ) (doc : List (List Str)) : List (Line n) := doc.filterMap (longEnough n)

/-- The rows of a document, if each of its lines is read. -/
def recordsOf {n : ℕ} (row : Line n → Option Record) (doc : List (List Str)) : Option (List Record) :=
  (linesOf n doc).mapM row

variable (lib : Library)

namespace Documents

variable (docs : Documents)

/-- The rows for a table; `none` if a line of its file is not read. -/
def rows : Table → Option (List Record)
  | .countries => recordsOf countryRow docs.countries
  | .regions => recordsOf regionRow docs.regions
  | .airports => recordsOf (airportRow lib) docs.airports
  | .tags =>
    some ((linesOf 19 docs.airports).flatMap airportTags ++ (linesOf 20 docs.navaids).flatMap navaidTags)
  | .frequencies => recordsOf (frequencyRow lib) docs.frequencies
  | .runways => recordsOf (runwayRow lib) docs.runways
  | .navaids => recordsOf (navaidRow lib) docs.navaids

end Documents

/-! ## Stages -/

variable (chk : TextChecks)

/-- A COPY, if the table takes its rows. -/
def copyStage (t : Table) (rows : List Record) (db : Tables) : Option Tables :=
  if fits chk t (db t) rows then some (db.exec (.copy t rows)) else none

/-- A COPY of rows that have to be read first. -/
def tableStage (t : Table) (rows : Option (List Record)) (db : Tables) : Option Tables :=
  rows.bind fun rows => copyStage chk t rows db

/-- The transactions of `loadAirportsData`, without the one that changes no table. -/
def stages (docs : Documents) : List (Tables → Option Tables) :=
  [tableStage chk .countries (recordsOf countryRow docs.countries),
    tableStage chk .regions (recordsOf regionRow docs.regions),
    tableStage chk .airports (recordsOf (airportRow lib) docs.airports),
    copyStage chk .tags ((linesOf 19 docs.airports).flatMap airportTags),
    tableStage chk .frequencies (recordsOf (frequencyRow lib) docs.frequencies),
    tableStage chk .runways (recordsOf (runwayRow lib) docs.runways),
    tableStage chk .navaids (recordsOf (navaidRow lib) docs.navaids),
    copyStage chk .tags ((linesOf 20 docs.navaids).flatMap navaidTags)]

/-- The stages behind the downloads; without the files nothing is loaded. -/
def loadStages (files : Option Files) : List (Tables → Option Tables) :=
  match files with
  | none => []
  | some files => stages lib chk files.documents

/-! ## Servers -/

/-- The server commits no COPY that the schema forbids, and none of which it would cut texts; it may refuse
others, and the process may die. -/
def LoadServer.Enforces (srv : LoadServer) : Prop :=
  ∀ log db t rows, (srv.respond log db (.copy t rows) = .ok ∨ srv.respond log db (.copy t rows) = .died true) →
    fits chk t (db t) rows = true

/-- PostgreSQL with the schema. -/
def postgresAirports : LoadServer where
  respond _ db txn := match txn with
    | .copy t rows => if fits chk t (db t) rows then .ok else .error .noLine
    | _ => .ok

/-! ## Lives -/

/-- The airports part of a process: `files` are its downloads, and a resumed one truncates first. -/
structure Life where
  resumed : Bool
  files : Option Files

/-- What the process runs. -/
def Life.program (srv : LoadServer) (life : Life) : Load Unit :=
  if life.resumed then resumeAirports lib srv life.files else loadAirportsData lib srv life.files

/-- The session behind the lives, however each of them ended. -/
def lives (srv : LoadServer) : LoadSession → List Life → LoadSession :=
  List.foldl fun s life => ((life.program lib srv).run s).state

end AirportsLoader

end OsmImport
