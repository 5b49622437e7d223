import OsmImport.Lib.Decimal
import OsmImport.TagMap

/-!
# Reading an osmChange document

`startElement` and `endElement`: the handlers that expat calls for the elements of the document. An
exception of `std::stoll` or `std::stod` ends the parse.
-/

namespace OsmImport

namespace OSCReader

/-- The attributes of an element: names and values. -/
abbrev Attrs := List (Str × Str)

/-- What expat delivers. -/
inductive XmlEvent where
  | startElement (name : Str) (attrs : Attrs)
  | endElement (name : Str)

/-- What the parser takes from the C++ library: `std::stod`, and what `std::move` leaves in an entry. -/
structure Library where
  stod : Str → Option Double
  movedNode : NodeEntry → NodeEntry
  movedWay : WayEntry → WayEntry
  movedRelation : RelationEntry → RelationEntry

/-- `ParseState`; `calls` are the arguments of `cb` so far. -/
structure ParseState where
  calls : List OSCChange
  count : ℕ
  cur_change : ChangeType
  in_node : Bool
  in_way : Bool
  in_relation : Bool
  node : NodeEntry
  way : WayEntry
  relation : RelationEntry

/-- `NodeEntry{}`. -/
def emptyNode : NodeEntry := ⟨0, [], .none, ⟨0⟩, ⟨0⟩⟩

/-- `WayEntry{}`. -/
def emptyWay : WayEntry := ⟨0, [], .none, []⟩

/-- `RelationEntry{}`. -/
def emptyRelation : RelationEntry := ⟨0, [], .none, []⟩

/-- The state before the document. -/
def ParseState.initial : ParseState :=
  ⟨[], 0, .create, false, false, false, emptyNode, emptyWay, emptyRelation⟩

/-! ## Attributes -/

/-- `std::stoll`. -/
def stoll (s : Str) : Option Int64 :=
  (Decimal.scan s).bind fun n =>
    if -2 ^ 63 ≤ n ∧ n < 2 ^ 63 then some (Int64.ofInt n) else none

/-- `getAttr`. -/
def getAttr (attrs : Attrs) (key : Str) : Option Str := attrs.lookup key

/-- `getInt64`; `none` is an exception. -/
def getInt64 (attrs : Attrs) (key : Str) : Option Int64 :=
  match getAttr attrs key with
  | some v => stoll v
  | none => some 0

variable (lib : Library)

/-- `getDouble`; `none` is an exception. -/
def getDouble (attrs : Attrs) (key : Str) : Option Double :=
  match getAttr attrs key with
  | some v => lib.stod v
  | none => some ⟨0⟩

/-! ## The handlers -/

/-- A `tag` goes to every entry that is being built. -/
def startTag (s : ParseState) (attrs : Attrs) : ParseState :=
  match getAttr attrs (str "k"), getAttr attrs (str "v") with
  | some k, some v =>
    { s with
      node := if s.in_node then { s.node with tags := s.node.tags.set k v } else s.node
      way := if s.in_way then { s.way with tags := s.way.tags.set k v } else s.way
      relation :=
        if s.in_relation then { s.relation with tags := s.relation.tags.set k v } else s.relation }
  | _, _ => s

/-- A `nd` of a way. -/
def startNd (s : ParseState) (attrs : Attrs) : Option ParseState := do
  let ref ← getInt64 attrs (str "ref")
  return if ref = 0 then s else { s with way.node_refs := s.way.node_refs ++ [ref] }

/-- A `member` of a relation. -/
def startMember (s : ParseState) (attrs : Attrs) : Option ParseState :=
  if getAttr attrs (str "type") = some (str "way") then do
    let ref ← getInt64 attrs (str "ref")
    let role := (getAttr attrs (str "role")).getD []
    return if ref = 0 then s
      else { s with relation.way_members := s.relation.way_members ++ [⟨ref, role⟩] }
  else some s

/-- `startElement`; `none` is an exception. -/
def startElement (s : ParseState) (name : Str) (attrs : Attrs) : Option ParseState :=
  if name = str "create" then some { s with cur_change := .create }
  else if name = str "modify" then some { s with cur_change := .modify }
  else if name = str "delete" then some { s with cur_change := .delete }
  else if name = str "node" then do
    let id ← getInt64 attrs (str "id")
    let lat ← getDouble lib attrs (str "lat")
    let lon ← getDouble lib attrs (str "lon")
    return { s with in_node := true, node := { emptyNode with id := id, lat := lat, lon := lon } }
  else if name = str "way" then do
    let id ← getInt64 attrs (str "id")
    return { s with in_way := true, way := { emptyWay with id := id } }
  else if name = str "relation" then do
    let id ← getInt64 attrs (str "id")
    return { s with in_relation := true, relation := { emptyRelation with id := id } }
  else if name = str "tag" then some (startTag s attrs)
  else if name = str "nd" ∧ s.in_way then startNd s attrs
  else if name = str "member" ∧ s.in_relation then startMember s attrs
  else some s

/-- `node.name`, from the tags. -/
def nameOf (name : Str) (tags : Tags) : Str := (tags.find (str "name")).getD name

/-- `endElement`. -/
def endElement (s : ParseState) (name : Str) : ParseState :=
  if name = str "node" ∧ s.in_node then
    let node := { s.node with name := nameOf s.node.name s.node.tags }
    { s with
      in_node := false
      calls := s.calls ++ [.node s.cur_change node]
      node := lib.movedNode node
      count := s.count + 1 }
  else if name = str "way" ∧ s.in_way then
    let way := { s.way with name := nameOf s.way.name s.way.tags }
    { s with
      in_way := false
      calls := s.calls ++ [.way s.cur_change way]
      way := lib.movedWay way
      count := s.count + 1 }
  else if name = str "relation" ∧ s.in_relation then
    let relation := { s.relation with name := nameOf s.relation.name s.relation.tags }
    { s with
      in_relation := false
      calls := s.calls ++ [.relation s.cur_change relation]
      relation := lib.movedRelation relation
      count := s.count + 1 }
  else s

/-- The handler for an event. -/
def handle (s : ParseState) : XmlEvent → Option ParseState
  | .startElement name attrs => startElement lib s name attrs
  | .endElement name => some (endElement lib s name)

/-- The events of a document, one behind the other. -/
def handleAll (s : ParseState) (events : List XmlEvent) : Option ParseState :=
  events.foldlM (handle lib) s

/-- `parse`: the calls of the callback, and the count that is returned. -/
def parse (events : List XmlEvent) : Option (List OSCChange × ℕ) :=
  (handleAll lib .initial events).map fun s => (s.calls, s.count)

end OSCReader

end OsmImport
