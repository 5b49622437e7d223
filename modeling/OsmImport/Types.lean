import Mathlib.Data.Int.Notation
import Mathlib.Data.List.Nodup
import Mathlib.Tactic.Ring

/-!
# Entries, tags and coordinates

The values that the importer reads, stores and compares. A `std::string` is its bytes, a `double` is
its bit pattern (copied by `memcpy`, compared as IEEE 754 says), an `int64_t` is an `Int64`.
-/

namespace OsmImport

/-- `std::string`. -/
abbrev Str := List UInt8

/-- `std::vector<uint8_t>`. -/
abbrev Bytes := List UInt8

/-- A string literal of the source. -/
def str (s : String) : Str := s.toUTF8.data.toList

/-- `static_cast<size_t>(id)`. -/
def sizeT (id : Int64) : ℕ := id.toUInt64.toNat

/-- An IEEE 754 `double`, as its bit pattern. -/
structure Double where
  /-- The 64 bits: sign, 11 bits of exponent, 52 bits of fraction. -/
  bits : UInt64
deriving DecidableEq, Repr

namespace Double

/-- The bits without the sign. -/
def magnitude (x : Double) : ℕ := x.bits.toNat % 2 ^ 63

/-- Exponent all ones and a fraction that is not zero. -/
def isNaN (x : Double) : Bool := 0x7FF0000000000000 < x.magnitude

/-- The position of a `double` that is not a NaN in the numerical order; both zeros are at 0. -/
def rank (x : Double) : ℤ := if x.bits.toNat < 2 ^ 63 then x.magnitude else -x.magnitude

/-- `a == b`. -/
def eq (a b : Double) : Bool := !a.isNaN && !b.isNaN && a.rank == b.rank

/-- `a <= b`. -/
def le (a b : Double) : Bool := !a.isNaN && !b.isNaN && decide (a.rank ≤ b.rank)

/-- `a < b`. -/
def lt (a b : Double) : Bool := !a.isNaN && !b.isNaN && decide (a.rank < b.rank)

end Double

/-- `std::pair<double,double>`: longitude and latitude, or `x` and `y`. -/
abbrev Coord := Double × Double

/-- `a.first == b.first && a.second == b.second`. -/
def Coord.eq (a b : Coord) : Bool := a.1.eq b.1 && a.2.eq b.2

/-- `std::unordered_map<std::string, std::string>`: the pairs in the order in which the map iterates
over them, each key once. -/
structure Tags where
  /-- The pairs, in iteration order. -/
  entries : List (Str × Str)
  /-- Keys are unique. -/
  nodup : (entries.map Prod.fst).Nodup

namespace Tags

/-- `tags.empty()`. -/
def isEmpty (t : Tags) : Bool := t.entries.isEmpty

/-- `tags.find(k)`: the value, if the key is there. -/
def find (t : Tags) (k : Str) : Option Str := t.entries.lookup k

/-- The map without entries. -/
def none : Tags := ⟨[], List.nodup_nil⟩

end Tags

/-- `NodeEntry`: the fields that the reader fills. -/
structure NodeEntry where
  id : Int64
  name : Str
  tags : Tags
  /-- WGS84 longitude. -/
  lon : Double
  /-- WGS84 latitude. -/
  lat : Double

/-- `WayEntry`. -/
structure WayEntry where
  id : Int64
  name : Str
  tags : Tags
  node_refs : List Int64

/-- `RelationMember`: a member of type way. -/
structure RelationMember where
  id : Int64
  role : Str

/-- `RelationEntry`. -/
structure RelationEntry where
  id : Int64
  name : Str
  tags : Tags
  /-- Only way members are kept. -/
  way_members : List RelationMember

/-- `OSMEntry`. -/
inductive OSMEntry where
  | node (n : NodeEntry)
  | way (w : WayEntry)
  | relation (r : RelationEntry)

/-- `std::holds_alternative<NodeEntry>(entry)`. -/
def OSMEntry.isNode : OSMEntry → Bool
  | .node _ => true
  | _ => false

/-- `std::holds_alternative<WayEntry>(entry)`. -/
def OSMEntry.isWay : OSMEntry → Bool
  | .way _ => true
  | _ => false

/-- `std::holds_alternative<RelationEntry>(entry)`. -/
def OSMEntry.isRelation : OSMEntry → Bool
  | .relation _ => true
  | _ => false

/-- `ChangeType`. -/
inductive ChangeType where
  | create
  | modify
  | delete
deriving DecidableEq, Repr

/-- `OSCChange`: one element of an osmChange document. -/
inductive OSCChange where
  | node (type : ChangeType) (node : NodeEntry)
  | way (type : ChangeType) (way : WayEntry)
  | relation (type : ChangeType) (relation : RelationEntry)

end OsmImport
