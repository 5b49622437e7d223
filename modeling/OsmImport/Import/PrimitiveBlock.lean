import OsmImport.Lib.DeltaCoding
import OsmImport.TagMap

/-!
# Reading a primitive block

`OSMReader::parsePrimitiveBlock`, on the message that protobuf has parsed. An access outside a repeated
field is undefined in the source and no result here. `degrees` is the multiplication of an integer by
`1e-9`.
-/

namespace OsmImport

/-! ## The messages -/

namespace OSMPBF

inductive MemberType where
  | NODE
  | WAY
  | RELATION
deriving DecidableEq, Repr

structure Node where
  id : Int64
  keys : List ℕ
  vals : List ℕ
  lat : Int64
  lon : Int64

structure DenseNodes where
  id : List Int64
  lat : List Int64
  lon : List Int64
  keys_vals : List ℤ

structure Way where
  id : Int64
  keys : List ℕ
  vals : List ℕ
  refs : List Int64

structure Relation where
  id : Int64
  keys : List ℕ
  vals : List ℕ
  roles_sid : List ℤ
  memids : List Int64
  types : List MemberType

structure PrimitiveGroup where
  nodes : List Node
  dense : Option DenseNodes
  ways : List Way
  relations : List Relation

structure PrimitiveBlock where
  stringtable : List Str
  primitivegroup : List PrimitiveGroup
  granularity : Int32
  lat_offset : Int64
  lon_offset : Int64

end OSMPBF

namespace PrimitiveBlock

open OSMPBF DeltaCoding

/-! ## Tags -/

section

variable (strtable : List Str)

/-- `strtable.Get(i)`. -/
def get (i : ℤ) : Option Str := if i < 0 then none else strtable[i.toNat]?

/-- The loop of `getTags`. -/
def getTagsFrom (tags : Tags) : List ℕ → List ℕ → Option Tags
  | [], _ => some tags
  | k :: keys, v :: vals => do
    let key ← get strtable k
    let val ← get strtable v
    getTagsFrom (tags.set key val) keys vals
  | _ :: _, [] => none

/-- `getTags`. -/
def getTags (keys vals : List ℕ) : Option Tags := getTagsFrom strtable .none keys vals

/-- The `while` loop over `keys_vals` from the cursor on, and the step over the delimiter: the tags and
what is behind the cursor. -/
def takeTags (tags : Tags) : List ℤ → Option (Tags × List ℤ)
  | [] => some (tags, [])
  | [k] => if k = 0 then some (tags, []) else none
  | k :: v :: kv =>
    if k = 0 then some (tags, v :: kv)
    else do
      let key ← get strtable k
      let val ← get strtable v
      takeTags (tags.set key val) kv

end

/-- `name`, from the tags. -/
def nameOf (tags : Tags) : Str := (tags.find (str "name")).getD []

/-! ## Entities -/

section

variable (degrees : Int64 → Double) (pb : OSMPBF.PrimitiveBlock)

/-- The entry of a node, from its raw coordinates. -/
def nodeEntry (id lat lon : Int64) (tags : Tags) : NodeEntry :=
  ⟨id, nameOf tags, tags, degrees (pb.lon_offset + pb.granularity.toInt64 * lon),
    degrees (pb.lat_offset + pb.granularity.toInt64 * lat)⟩

/-- The loop over the dense nodes, with `cur_id`, `cur_lat`, `cur_lon` and what is behind `kv_idx`. -/
def denseNodes (cur_id cur_lat cur_lon : Int64) :
    List Int64 → List Int64 → List Int64 → List ℤ → Option (List NodeEntry)
  | [], _, _, _ => some []
  | id :: ids, lat :: lats, lon :: lons, kv => do
    let (tags, kv) ← takeTags pb.stringtable .none kv
    let rest ← denseNodes (cur_id + id) (cur_lat + lat) (cur_lon + lon) ids lats lons kv
    return nodeEntry degrees pb (cur_id + id) (cur_lat + lat) (cur_lon + lon) tags :: rest
  | _ :: _, _, _, _ => none

/-- A regular node. -/
def parseNode (n : Node) : Option NodeEntry := do
  let tags ← getTags pb.stringtable n.keys n.vals
  return nodeEntry degrees pb n.id n.lat n.lon tags

/-- A way. -/
def parseWay (w : Way) : Option WayEntry := do
  let tags ← getTags pb.stringtable w.keys w.vals
  return ⟨w.id, nameOf tags, tags, sums 0 w.refs⟩

/-- The role of a member. -/
def roleOf (sid : ℤ) : Option Str :=
  if sid < pb.stringtable.length then get pb.stringtable sid else some []

/-- The loop over the members, with `cur_memid`. -/
def wayMembers (cur_memid : Int64) :
    List Int64 → List MemberType → List ℤ → Option (List RelationMember)
  | [], _, _ => some []
  | memid :: memids, type :: types, sids =>
    if type = .WAY then do
      let sid ← sids.head?
      let role ← roleOf pb sid
      let rest ← wayMembers (cur_memid + memid) memids types sids.tail
      return ⟨cur_memid + memid, role⟩ :: rest
    else wayMembers (cur_memid + memid) memids types sids.tail
  | _ :: _, [], _ => none

/-- A relation. -/
def parseRelation (r : Relation) : Option RelationEntry := do
  let tags ← getTags pb.stringtable r.keys r.vals
  let members ← wayMembers pb 0 r.memids r.types r.roles_sid
  return ⟨r.id, nameOf tags, tags, members⟩

/-- The dense nodes of a group, if it has any. -/
def parseDense : Option DenseNodes → Option (List NodeEntry)
  | some dense => denseNodes degrees pb 0 0 0 dense.id dense.lat dense.lon dense.keys_vals
  | none => some []

/-- The entries of a group. -/
def parseGroup (group : PrimitiveGroup) : Option (List OSMEntry) := do
  let dense ← parseDense degrees pb group.dense
  let nodes ← group.nodes.mapM (parseNode degrees pb)
  let ways ← group.ways.mapM (parseWay pb)
  let relations ← group.relations.mapM (parseRelation pb)
  return dense.map .node ++ nodes.map .node ++ ways.map .way ++ relations.map .relation

/-- `parsePrimitiveBlock`. -/
def parsePrimitiveBlock : Option (List OSMEntry) :=
  (pb.primitivegroup.mapM (parseGroup degrees pb)).map List.flatten

end

end PrimitiveBlock

end OsmImport
