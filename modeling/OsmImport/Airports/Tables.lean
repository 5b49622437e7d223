import OsmImport.Geometry.Wkb
import OsmImport.Lib.Ewkb

/-!
# The airports tables

The seven tables of `create_airports.sql`, and what their columns take. A row is the list of its cells, in
the order of the columns.
-/

namespace OsmImport

namespace AirportsLoader

/-- The tables. -/
inductive Table where
  | countries
  | regions
  | airports
  | tags
  | frequencies
  | runways
  | navaids
deriving DecidableEq, Repr

/-- A value that is written to a column; a `std::nullopt` is NULL. -/
inductive Cell where
  | null
  | int (i : ℤ)
  | double (x : Double)
  | bool (b : Bool)
  | text (s : Str)
deriving DecidableEq

/-- A row. -/
abbrev Record := List Cell

/-- What the seven tables hold; new rows stand at the end. -/
abbrev Tables := Table → List Record

/-- Tables without rows. -/
def Tables.empty : Tables := fun _ => []

/-- The type of a column. -/
inductive ColumnType where
  | integer
  | double
  | boolean
  | varchar (n : ℕ)
  | geometry
deriving DecidableEq

/-- A column of a table. -/
structure Column where
  name : String
  type : ColumnType
  notNull : Bool
deriving DecidableEq

namespace Column

/-- A column that takes NULL. -/
def plain (name : String) (type : ColumnType) : Column := ⟨name, type, false⟩

/-- A column that is `NOT NULL`, as a primary key is. -/
def required (name : String) (type : ColumnType) : Column := ⟨name, type, true⟩

end Column

open Column ColumnType

/-- The columns of a table; unquoted names are in lower case. -/
def schema : Table → List Column
  | .countries =>
    [required "id" integer, required "code" (varchar 2), plain "name" (varchar 256),
      plain "continent" (varchar 2)]
  | .regions =>
    [required "id" integer, required "code" (varchar 16), plain "local_code" (varchar 16),
      plain "name" (varchar 256), plain "continent" (varchar 2), plain "iso_country" (varchar 2)]
  | .airports =>
    [required "id" integer, required "ident" (varchar 16), plain "type" (varchar 32),
      plain "name" (varchar 256), plain "latitude_m" double, plain "longitude_m" double,
      plain "elevation_ft" integer, plain "continent" (varchar 2), plain "iso_country" (varchar 2),
      plain "iso_region" (varchar 16), plain "municipality" (varchar 256),
      plain "scheduled_service" boolean, plain "icao_code" (varchar 8), plain "iata_code" (varchar 8),
      plain "gps_code" (varchar 8), plain "local_code" (varchar 16), plain "geog" geometry]
  | .tags =>
    [required "airport_ident" (varchar 16), required "entity_type" (varchar 16),
      required "key_name" (varchar 256), plain "key_value" (varchar 256)]
  | .frequencies =>
    [required "id" integer, required "airport_ref" integer, plain "airport_ident" (varchar 16),
      plain "type" (varchar 16), plain "description" (varchar 256), plain "frequency_mhz" double]
  | .runways =>
    [required "id" integer, required "airport_ref" integer, plain "airport_ident" (varchar 16),
      plain "length_ft" integer, plain "width_ft" integer, plain "surface" (varchar 64),
      plain "lighted" boolean, plain "closed" boolean,
      plain "le_ident" (varchar 8), plain "le_latitude_m" double, plain "le_longitude_m" double,
      plain "le_elevation_ft" integer, plain "le_heading_degt" double,
      plain "le_displaced_threshold_ft" integer, plain "le_geog" geometry,
      plain "he_ident" (varchar 8), plain "he_latitude_m" double, plain "he_longitude_m" double,
      plain "he_elevation_ft" integer, plain "he_heading_degt" double,
      plain "he_displaced_threshold_ft" integer, plain "he_geog" geometry]
  | .navaids =>
    [required "id" integer, plain "ident" (varchar 16), plain "name" (varchar 256),
      plain "type" (varchar 16), plain "frequency_khz" double, plain "latitude_m" double,
      plain "longitude_m" double, plain "elevation_ft" integer, plain "iso_country" (varchar 2),
      plain "dme_frequency_khz" double, plain "dme_channel" (varchar 16), plain "dme_latitude_m" double,
      plain "dme_longitude_m" double, plain "dme_elevation_ft" integer,
      plain "slaved_variation_deg" double, plain "magnetic_variation_deg" double,
      plain "usage_type" (varchar 16), plain "power" (varchar 16),
      plain "associated_airport" (varchar 16), plain "geog" geometry]

/-- The columns that the COPY of a table names. -/
def copyColumns : Table → List String
  | .countries => ["id", "code", "name", "continent"]
  | .regions => ["id", "code", "local_code", "name", "continent", "iso_country"]
  | .airports =>
    ["id", "ident", "type", "name", "latitude_m", "longitude_m", "elevation_ft", "continent", "iso_country",
      "iso_region", "municipality", "scheduled_service", "icao_code", "iata_code", "gps_code", "local_code",
      "geog"]
  | .tags => ["airport_ident", "entity_type", "key_name", "key_value"]
  | .frequencies => ["id", "airport_ref", "airport_ident", "type", "description", "frequency_mhz"]
  | .runways =>
    ["id", "airport_ref", "airport_ident", "length_ft", "width_ft", "surface", "lighted", "closed",
      "le_ident", "le_latitude_m", "le_longitude_m", "le_elevation_ft", "le_heading_degt",
      "le_displaced_threshold_ft", "le_geog", "he_ident", "he_latitude_m", "he_longitude_m",
      "he_elevation_ft", "he_heading_degt", "he_displaced_threshold_ft", "he_geog"]
  | .navaids =>
    ["id", "ident", "name", "type", "frequency_khz", "latitude_m", "longitude_m", "elevation_ft",
      "iso_country", "dme_frequency_khz", "dme_channel", "dme_latitude_m", "dme_longitude_m",
      "dme_elevation_ft", "slaved_variation_deg", "magnetic_variation_deg", "usage_type", "power",
      "associated_airport", "geog"]

/-- The columns to which a COPY writes the cells of its rows. -/
def copied (t : Table) : List Column :=
  (copyColumns t).filterMap fun name => (schema t).find? fun c => c.name == name

/-- A COPY writes to all columns of its table, in their order. -/
theorem copied_eq (t : Table) : copied t = schema t := by
  cases t <;> decide

/-- What the server stores as it is in a column of text: the length in characters, the encoding. A text that
is too long only by blanks at its end, which PostgreSQL cuts off, is not stored as it is. -/
structure TextChecks where
  varchar : ℕ → Str → Bool

variable (chk : TextChecks)

/-- `integer` has 32 bits. -/
def inInteger (i : ℤ) : Bool := decide (-2 ^ 31 ≤ i ∧ i < 2 ^ 31)

namespace Column

/-- The column takes the cell. -/
def takes (c : Column) : Cell → Bool
  | .null => !c.notNull
  | .int i => decide (c.type = .integer) && inInteger i
  | .double _ => decide (c.type = .double)
  | .bool _ => decide (c.type = .boolean)
  | .text s => match c.type with
    | .varchar n => chk.varchar n s
    | .geometry => ((Ewkb.unhex s).bind Ewkb.decode).isSome
    | _ => false

end Column

/-- Every column takes its cell, and there is one for each. -/
def recordFits : List Column → Record → Bool
  | [], [] => true
  | c :: columns, cell :: r => c.takes chk cell && recordFits columns r
  | _, _ => false

/-- The primary keys: all tables but `tags` have `id`. -/
def keys (t : Table) (rows : List Record) : List (Option Cell) :=
  match t with
  | .tags => []
  | _ => rows.map List.head?

/-- The server takes the rows of a COPY to what the table holds, and stores them as they are. -/
def fits (t : Table) (table rows : List Record) : Bool :=
  rows.all (recordFits chk (copied t)) && decide (keys t (table ++ rows)).Nodup

end AirportsLoader

end OsmImport
