import OsmImport.Lib.LittleEndian
import OsmImport.Types

/-!
# Geometries as text

The EWKB encoders. The import (`main.cpp`, `OSMReader.cpp`) writes upper case hex digits, the delta path
(`DeltaApplier.cpp`) lower case ones; each has its own copy of the encoders.
-/

namespace OsmImport

open LittleEndian

/-! ## Hex digits -/

/-- The digit for a value below 16; `ten` is the code of the digit 10. -/
def hexDigit (ten : UInt8) (n : UInt8) : UInt8 := if n < 10 then 48 + n else ten + (n - 10)

/-- Two digits a byte. -/
def hex (ten : UInt8) (b : Bytes) : Str :=
  b.flatMap fun x : UInt8 => [hexDigit ten (x >>> 4), hexDigit ten (x &&& 0xF)]

/-- `toHex` of `main.cpp` and `OSMReader.cpp`: `"0123456789ABCDEF"`. -/
def toHexUpper : Bytes → Str := hex 65

/-- `toHex` of `DeltaApplier.cpp`: `std::hex`. -/
def toHexLower : Bytes → Str := hex 97

/-- `n` and `fromHexChar`: 0 for anything else. -/
def fromHexChar (c : UInt8) : UInt8 :=
  if 48 ≤ c ∧ c ≤ 57 then c - 48
  else if 97 ≤ c ∧ c ≤ 102 then c - 97 + 10
  else if 65 ≤ c ∧ c ≤ 70 then c - 65 + 10
  else 0

/-- `fromHex`: an odd last digit is dropped. -/
def fromHex : Str → Bytes
  | a :: b :: rest => (fromHexChar a <<< 4 ||| fromHexChar b) :: fromHex rest
  | _ => []

/-! ## Encoders -/

/-- `wu32`, `writeUint32` and `writeLE32`. -/
def wu32 (v : ℕ) : Bytes := toBytes 4 v

/-- `wd`, `wf64` and `writeDouble`. -/
def wd (v : Double) : Bytes := toBytes 8 v.bits.toNat

/-- The coordinates of points. -/
def points (coords : List Coord) : Bytes := coords.flatMap fun p => wd p.1 ++ wd p.2

/-- `pointWKB`. -/
def pointWKB (g_srid : ℕ) (lon lat : Double) : Str :=
  toHexUpper (1 :: wu32 0x20000001 ++ wu32 g_srid ++ wd lon ++ wd lat)

/-- The first and the last point agree. -/
def closes (coords : List Coord) : Bool :=
  match coords.head?, coords.getLast? with
  | some a, some b => a.eq b
  | _, _ => false

/-- The bytes of a one-ring polygon or of a linestring. -/
def lineBytes (g_srid : ℕ) (polygon : Bool) (coords : List Coord) : Bytes :=
  if polygon then
    1 :: wu32 0x20000003 ++ wu32 g_srid ++ wu32 1 ++ wu32 coords.length ++ points coords
  else 1 :: wu32 0x20000002 ++ wu32 g_srid ++ wu32 coords.length ++ points coords

/-- `buildWayGeom` of `main.cpp`: the text and the new value of `is_closed`. -/
def buildWayGeom (g_srid : ℕ) (coords : List Coord) (is_closed : Bool) : Str × Bool :=
  if coords.length < 2 then ([], is_closed)
  else
    let is_closed := decide (coords.length ≥ 4) && closes coords
    (toHexUpper (lineBytes g_srid is_closed coords), is_closed)

/-- `buildLineWKB` of `DeltaApplier.cpp`. -/
def buildLineWKB (g_srid : ℕ) (pts : List Coord) (closed : Bool) : Str :=
  if pts.length < 2 then []
  else toHexLower (lineBytes g_srid (closed && decide (pts.length ≥ 4)) pts)

/-- `isLinear`: a linestring or a multilinestring, going by the low 16 bits of the type. -/
def isLinear (b : Bytes) : Bool :=
  if b.length < 5 then false
  else
    let gtype := ofBytes ((b.drop 1).take 4) % 2 ^ 16
    gtype == 2 || gtype == 5

/-- The bytes of a multilinestring made of encoded parts. -/
def multiLineBytes (g_srid : ℕ) (parts : List Bytes) : Bytes :=
  1 :: wu32 0x20000005 ++ wu32 g_srid ++ wu32 parts.length ++ parts.flatten

/-- `mergeWayGeoms` of `main.cpp`. -/
def mergeWayGeoms (g_srid : ℕ) (wkb_hexes : List Str) : Str :=
  let parts := ((wkb_hexes.filter fun h => !h.isEmpty).map fromHex).filter isLinear
  if parts.isEmpty then [] else toHexUpper (multiLineBytes g_srid parts)

/-- `mergeLinestrings` of `DeltaApplier.cpp`: texts of fewer than ten digits are skipped. -/
def mergeLinestrings (g_srid : ℕ) (hexes : List Str) : Str :=
  if hexes.isEmpty then []
  else
    let parts := ((hexes.filter fun h => decide (h.length ≥ 10)).map fromHex).filter isLinear
    if parts.isEmpty then [] else toHexLower (multiLineBytes g_srid parts)

/-! ## Areas -/

/-- `linear_keys`. -/
def linear_keys : List Str := ["highway", "railway", "waterway", "power", "man_made"].map str

/-- `linear_tag_values`. -/
def linear_tag_values : List (Str × Str) :=
  [("junction", "roundabout"), ("junction", "circular"), ("barrier", "fence"), ("barrier", "wall"),
    ("barrier", "hedge"), ("barrier", "retaining_wall"), ("barrier", "city_wall"),
    ("aeroway", "runway"), ("aeroway", "taxiway"), ("aeroway", "taxilane")].map
    fun kv => (str kv.1, str kv.2)

/-- `area_keys`. -/
def area_keys : List Str :=
  ["building", "building:part", "landuse", "leisure", "natural", "amenity", "shop", "tourism",
    "historic", "military", "boundary", "place", "sport", "landcover"].map str

/-- `isArea`. -/
def isArea (is_closed : Bool) (tags : Tags) : Bool :=
  if !is_closed then false
  else if tags.find (str "area") = some (str "yes") then true
  else if tags.find (str "area") = some (str "no") then false
  else if tags.entries.any fun kv => kv.1 ∈ linear_keys then false
  else if linear_tag_values.any fun kv => tags.find kv.1 == some kv.2 then false
  else tags.entries.any fun kv => kv.1 ∈ area_keys

end OsmImport
