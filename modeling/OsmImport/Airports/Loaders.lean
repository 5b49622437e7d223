import OsmImport.Airports.AirportsLoader
import OsmImport.Airports.Tables
import OsmImport.Db.NavDB
import OsmImport.Lib.Decimal
import OsmImport.Lib.Lines

/-!
# Loading the airports tables

`loadAirportsData`: six tables of comma-separated values are downloaded, and each is written by a COPY in a
transaction of its own; the tags of the airports and of the navaids take one more each. A row whose first
field is no number ends the load with an exception, and so does a COPY that the server refuses.
-/

namespace OsmImport

namespace AirportsLoader

open Lines

/-! ## The downloaded files -/

/-- The fields of a line that is long enough. -/
structure Line (n : ℕ) where
  v : List Str
  size : n ≤ v.length

/-- `v[i]`. -/
def Line.field {n : ℕ} (l : Line n) (i : ℕ) (h : i < n := by decide) : Str :=
  l.v.get ⟨i, Nat.lt_of_lt_of_le h l.size⟩

/-- `if (v.size() < n) continue;` -/
def longEnough (n : ℕ) (v : List Str) : Option (Line n) := if h : n ≤ v.length then some ⟨v, h⟩ else none

/-- The rounds of the loop over a file; the first line is a header. -/
def rounds (n : ℕ) (file : Str) : List (Line n) :=
  (getlines file).tail.filterMap fun line => longEnough n (parseCsvLineAP line)

/-! ## Fields -/

/-- `std::stoi`; `none` is an exception. -/
def stoi (s : Str) : Option ℤ := (Decimal.scan s).filter inInteger

/-- What the loader takes from its libraries: `std::stod`, and PROJ. -/
structure Library where
  stod : Str → Option Double
  toMercatorAP : Double → Double → Coord

variable (lib : Library)

/-- `optInt`. -/
def optInt (s : Str) : Option ℤ := if s.isEmpty then none else stoi s

/-- `optDouble`. -/
def optDouble (s : Str) : Option Double := if s.isEmpty then none else lib.stod s

/-- `optStr`. -/
def optStr (s : Str) : Option Str := if s.isEmpty then none else some s

/-- `parseBool`. -/
def parseBool (s : Str) : Bool := s == str "1" || s == str "yes" || s == str "true"

/-- A value that `write_values` gets as a `std::optional`. -/
def cell {α : Type} (f : α → Cell) : Option α → Cell
  | none => .null
  | some a => f a

/-- A field that is an integer or NULL. -/
def intCell (s : Str) : Cell := cell .int (optInt s)

/-- A field that is a number or NULL. -/
def doubleCell (s : Str) : Cell := cell .double (optDouble lib s)

/-- A field that is a text or NULL. -/
def textCell (s : Str) : Cell := cell .text (optStr s)

/-- `pointWKBAP`: a point without an SRID. -/
def pointWKBAP (lon_m lat_m : Double) : Str := toHexLower (1 :: 1 :: 0 :: 0 :: 0 :: wd lon_m ++ wd lat_m)

/-- A projected position and its geometry. -/
structure Place where
  lat_m : Option Double
  lon_m : Option Double
  geog : Option Str

/-- Both coordinates are needed for a place. -/
def place (lat lon : Option Double) : Place :=
  match lat, lon with
  | some lat, some lon =>
    let m := lib.toMercatorAP lon lat
    ⟨some m.2, some m.1, some (pointWKBAP m.1 m.2)⟩
  | _, _ => ⟨none, none, none⟩

/-! ## Rows -/

/-- The row of `loadCountries`. -/
def countryRow (v : Line 4) : Option Record := do
  let id ← stoi (v.field 0)
  return [.int id, textCell (v.field 1), textCell (v.field 2), textCell (v.field 3)]

/-- The row of `loadRegions`. -/
def regionRow (v : Line 6) : Option Record := do
  let id ← stoi (v.field 0)
  return [.int id, textCell (v.field 1), textCell (v.field 2), textCell (v.field 3), textCell (v.field 4),
    textCell (v.field 5)]

/-- The `AirportRow` of a line, as it is written. -/
def airportRow (v : Line 19) : Option Record := do
  let p := place lib (optDouble lib (v.field 4)) (optDouble lib (v.field 5))
  let id ← stoi (v.field 0)
  return [.int id, textCell (v.field 1), textCell (v.field 2), textCell (v.field 3),
    cell .double p.lat_m, cell .double p.lon_m, intCell (v.field 6),
    textCell (v.field 7), textCell (v.field 8), textCell (v.field 9), textCell (v.field 10),
    .bool (parseBool (v.field 11)), textCell (v.field 12), textCell (v.field 13), textCell (v.field 14),
    textCell (v.field 15), cell .text p.geog]

/-- The row of `loadFrequencies`. -/
def frequencyRow (v : Line 6) : Option Record := do
  let id ← stoi (v.field 0)
  return [.int id, intCell (v.field 1), textCell (v.field 2), textCell (v.field 3), textCell (v.field 4),
    doubleCell lib (v.field 5)]

/-- The row of `loadRunways`. -/
def runwayRow (v : Line 20) : Option Record := do
  let le := place lib (optDouble lib (v.field 9)) (optDouble lib (v.field 10))
  let he := place lib (optDouble lib (v.field 15)) (optDouble lib (v.field 16))
  let id ← stoi (v.field 0)
  return [.int id, intCell (v.field 1), textCell (v.field 2), intCell (v.field 3), intCell (v.field 4),
    textCell (v.field 5), .bool (parseBool (v.field 6)), .bool (parseBool (v.field 7)),
    textCell (v.field 8), cell .double le.lat_m, cell .double le.lon_m, intCell (v.field 11),
    doubleCell lib (v.field 12), intCell (v.field 13), cell .text le.geog,
    textCell (v.field 14), cell .double he.lat_m, cell .double he.lon_m, intCell (v.field 17),
    doubleCell lib (v.field 18), intCell (v.field 19), cell .text he.geog]

/-- The `NavaidRow` of a line, as it is written. -/
def navaidRow (v : Line 20) : Option Record := do
  let p := place lib (optDouble lib (v.field 6)) (optDouble lib (v.field 7))
  let dme := place lib (optDouble lib (v.field 12)) (optDouble lib (v.field 13))
  let id ← stoi (v.field 0)
  return [.int id, textCell (v.field 2), textCell (v.field 3), textCell (v.field 4), doubleCell lib (v.field 5),
    cell .double p.lat_m, cell .double p.lon_m, intCell (v.field 8), textCell (v.field 9),
    doubleCell lib (v.field 10), textCell (v.field 11), cell .double dme.lat_m, cell .double dme.lon_m,
    intCell (v.field 14), doubleCell lib (v.field 15), doubleCell lib (v.field 16),
    textCell (v.field 17), textCell (v.field 18), textCell (v.field 19), cell .text p.geog]

/-! ## Tags -/

/-- `AIRPORT_TAG_COLS`. -/
def AIRPORT_TAG_COLS : List (ℕ × Str) :=
  [(16, str "home_link"), (17, str "wikipedia_link"), (18, str "keywords")]

/-- `NAVAID_TAG_COLS`. -/
def NAVAID_TAG_COLS : List (ℕ × Str) :=
  [(1, str "filename"), (15, str "slaved_variation_deg"), (16, str "magnetic_variation_deg")]

/-- The `TagRow`s of a line: one for each of the columns that is there and not empty. -/
def tagRows (cols : List (ℕ × Str)) (ident entity_type : Str) (v : List Str) : List Record :=
  cols.filterMap fun (col, key) =>
    ((v[col]?).filter fun val => !val.isEmpty).map fun val =>
      [.text ident, .text entity_type, .text key, .text val]

/-- The tags of an airport. -/
def airportTags (v : Line 19) : List Record := tagRows AIRPORT_TAG_COLS (v.field 1) (str "airport") v.v

/-- The tags of a navaid go to its airport. -/
def navaidTags (v : Line 20) : List Record := tagRows NAVAID_TAG_COLS (v.field 19) (str "navaid") v.v

/-! ## The server -/

/-- A transaction. -/
inductive Txn where
  /-- `SET synchronous_commit = off`. -/
  | setting
  | copy (t : Table) (rows : List Record)
  | truncate (tables : List Table)

/-- The effect of a transaction. -/
def Tables.exec (db : Tables) : Txn → Tables
  | .setting => db
  | .copy t rows => Function.update db t (db t ++ rows)
  | .truncate tables => fun t => if t ∈ tables then [] else db t

/-- A server: its answers may depend on everything that happened before. -/
structure LoadServer where
  respond : List (Txn × Response) → Tables → Txn → Response

/-- The tables, and the transactions so far. -/
structure LoadSession where
  tables : Tables
  log : List (Txn × Response)

/-- What ends a load. -/
inductive LoadError where
  /-- `std::stoi` throws. -/
  | stoi
  /-- The server refuses a transaction. -/
  | sql

/-- A piece of the loader. -/
abbrev Load (α : Type) := Prog LoadSession LoadError α

variable (srv : LoadServer)

/-- A transaction. -/
def transact (txn : Txn) : Load Unit where
  run s :=
    let r := srv.respond s.log s.tables txn
    match r with
    | .ok => .done () ⟨s.tables.exec txn, s.log ++ [(txn, r)]⟩
    | .error _ => .threw .sql ⟨s.tables, s.log ++ [(txn, r)]⟩
    | .died true => .died ⟨s.tables.exec txn, s.log ++ [(txn, r)]⟩
    | .died false => .died ⟨s.tables, s.log ++ [(txn, r)]⟩

/-- The result of a `std::stoi`. -/
def orThrow {α : Type} : Option α → Load α
  | some a => pure a
  | none => Prog.throw .stoi

/-! ## The loaders -/

/-- `loadCountries`, `loadRegions`, `loadFrequencies` and `loadRunways`: the rows are streamed into the open
transaction, so that nothing of it is left if one of them is not read. -/
def loadTable (t : Table) (n : ℕ) (row : Line n → Option Record) (file : Str) : Load Unit := do
  let rows ← orThrow ((rounds n file).mapM row)
  transact srv (.copy t rows)

/-- `loadAirports` and `loadNavaids`: all lines are read before the first transaction, and the tags have one
of their own. -/
def loadTagged (t : Table) (n : ℕ) (row : Line n → Option Record) (tags : Line n → List Record) (file : Str) :
    Load Unit := do
  let rows ← orThrow ((rounds n file).mapM row)
  transact srv (.copy t rows)
  transact srv (.copy .tags ((rounds n file).flatMap tags))

/-- `loadCountries`. -/
def loadCountries : Str → Load Unit := loadTable srv .countries 4 countryRow

/-- `loadRegions`. -/
def loadRegions : Str → Load Unit := loadTable srv .regions 6 regionRow

/-- `loadAirports`. -/
def loadAirports : Str → Load Unit := loadTagged srv .airports 19 (airportRow lib) airportTags

/-- `loadFrequencies`. -/
def loadFrequencies : Str → Load Unit := loadTable srv .frequencies 6 (frequencyRow lib)

/-- `loadRunways`. -/
def loadRunways : Str → Load Unit := loadTable srv .runways 20 (runwayRow lib)

/-- `loadNavaids`. -/
def loadNavaids : Str → Load Unit := loadTagged srv .navaids 20 (navaidRow lib) navaidTags

/-- The six files. -/
structure Files where
  countries : Str
  regions : Str
  airports : Str
  frequencies : Str
  runways : Str
  navaids : Str

/-- `loadAirportsData`; without `files` a download failed, and nothing is loaded. -/
def loadAirportsData (files : Option Files) : Load Unit :=
  match files with
  | none => pure ()
  | some files => do
    transact srv .setting
    loadCountries srv files.countries
    loadRegions srv files.regions
    loadAirports lib srv files.airports
    loadFrequencies lib srv files.frequencies
    loadRunways lib srv files.runways
    loadNavaids lib srv files.navaids

/-- `truncateForResume("airports")`. -/
def truncateForResume : Load Unit :=
  transact srv (.truncate [.countries, .regions, .airports, .tags, .frequencies, .runways, .navaids])

/-- What `main` does to the airports tables with `-R airports`. -/
def resumeAirports (files : Option Files) : Load Unit := do
  truncateForResume srv
  loadAirportsData lib srv files

end AirportsLoader

end OsmImport
