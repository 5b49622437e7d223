import OsmImport.Db.NavDB
import OsmImport.Geometry.Wkb

/-!
# Applying changes

`DeltaApplier`: every change of an osmChange file goes to the node store and to the database client.
The Mercator projection is that of the PROJ library and a parameter, like the SRID.
-/

namespace OsmImport

open NavDB

/-- What the process was started with: `g_srid` and `toMercator`. -/
structure Env where
  g_srid : ℕ
  toMercator : Double → Double → Coord

/-- A projection that changes nothing, and the default SRID. -/
def plainEnv : Env := ⟨3857, fun lon lat => (lon, lat)⟩

namespace DeltaApplier

variable (srv : Server) (env : Env)

/-! ## Geometries -/

/-- `DeltaApplier::buildWayGeom`: the text and `is_closed`. -/
def buildWayGeom (osmmap : OSMMMap) (w : WayEntry) : Str × Bool :=
  let coords := w.node_refs.filterMap osmmap.select
  if coords.length < 2 then ([], false)
  else
    let is_closed := closes coords && decide (coords.length ≥ 4)
    (buildLineWKB env.g_srid coords is_closed, is_closed)

/-- The loop of `buildRelationGeom`: the geometries of the members that have one. -/
def memberGeoms : List RelationMember → Exec (List Str)
  | [] => return []
  | m :: ms => do
    let g ← getWay srv m.id
    let gs ← memberGeoms ms
    return if g.isEmpty then gs else g :: gs

/-- `buildRelationGeom`. -/
def buildRelationGeom (r : RelationEntry) : Exec Str := do
  let geoms ← memberGeoms srv r.way_members
  return mergeLinestrings env.g_srid geoms

/-- `is_road`. -/
def isRoad (tags : Tags) : Bool :=
  tags.find (str "route") = some (str "road") || (tags.find (str "highway")).isSome

/-! ## Nodes -/

/-- `osmmap_.insert(0, …)`; the text of its exception names no line of a COPY. -/
def storeInsert (id : Int64) (pos : Coord) : Exec Unit where
  run s := match s.osmmap.insert CHUNK_SIZE 0 ⟨id, pos.1, pos.2⟩ with
    | .ok osmmap => .done () { s with osmmap := osmmap }
    | .error _ => .threw .noLine s

/-- `createNode`. -/
def createNode (n : NodeEntry) : Exec Unit := do
  let pos := env.toMercator n.lon n.lat
  storeInsert n.id pos
  insertNode srv n.id n.name pos.1 pos.2 n.tags (pointWKB env.g_srid n.lon n.lat)

/-- `modifyNode`. -/
def modifyNode (n : NodeEntry) : Exec Unit := do
  let pos := env.toMercator n.lon n.lat
  storeInsert n.id pos
  updateNode srv n.id n.name pos.1 pos.2 n.tags (pointWKB env.g_srid n.lon n.lat)

/-- `deleteNode`. -/
def deleteNode (id : Int64) : Exec Unit := do
  Prog.modify fun s => { s with osmmap := s.osmmap.remove id }
  deleteEntity srv id .node

/-! ## Ways and areas -/

/-- `createWay`. -/
def createWay (w : WayEntry) : Exec Unit := do
  let s ← Prog.get
  let (geom, is_closed) := buildWayGeom env s.osmmap w
  if geom.isEmpty then return ()
  if is_closed then insertArea srv w.id w.name w.tags geom
  else insertWay srv w.id w.name w.tags geom

/-- `modifyWay`. -/
def modifyWay (w : WayEntry) : Exec Unit := do
  let s ← Prog.get
  let (geom, is_closed) := buildWayGeom env s.osmmap w
  if geom.isEmpty then return ()
  deleteEntity srv w.id .way
  deleteEntity srv w.id .area
  if is_closed then updateArea srv w.id w.name w.tags geom
  else updateWay srv w.id w.name w.tags geom

/-- `deleteWay`. -/
def deleteWay (id : Int64) : Exec Unit := do
  deleteEntity srv id .way
  deleteEntity srv id .area

/-! ## Relations -/

/-- `createRelation`. -/
def createRelation (r : RelationEntry) : Exec Unit := do
  let geom ← buildRelationGeom srv env r
  insertRelation srv r.id r.name r.tags geom
  if isRoad r.tags && !geom.isEmpty then insertRoad srv r.id r.name r.tags geom

/-- `modifyRelation`. -/
def modifyRelation (r : RelationEntry) : Exec Unit := do
  let geom ← buildRelationGeom srv env r
  updateRelation srv r.id r.name r.tags geom
  deleteEntity srv r.id .road
  if isRoad r.tags && !geom.isEmpty then insertRoad srv r.id r.name r.tags geom

/-- `deleteRelation`. -/
def deleteRelation (id : Int64) : Exec Unit := do
  deleteEntity srv id .relation
  deleteEntity srv id .road

/-! ## The dispatcher -/

/-- The operation for a change. -/
def operation : OSCChange → Exec Unit
  | .node .create n => createNode srv env n
  | .node .modify n => modifyNode srv env n
  | .node .delete n => deleteNode srv n.id
  | .way .create w => createWay srv env w
  | .way .modify w => modifyWay srv env w
  | .way .delete w => deleteWay srv w.id
  | .relation .create r => createRelation srv env r
  | .relation .modify r => modifyRelation srv env r
  | .relation .delete r => deleteRelation srv r.id

/-- `apply`. -/
def apply (c : OSCChange) : Exec Unit := do
  Prog.modify fun s => s.record (.change c)
  operation srv env c

/-- `flush`. -/
def flush : Exec Unit := do
  finalize_ways srv
  finalize_roads srv
  finalize_relations srv

end DeltaApplier

end OsmImport
