import OsmImport.Import.Threads

/-!
# Ways and relations as the import stores them

The way branch of `wayThread`, and the relation branch behind the barrier, as programs on one session:
the reads, the inserts and the finalizers of a thread that nothing else disturbs. The cases and the
inserts are those of the steps of the thread.
-/

namespace OsmImport

open NavDB

namespace WayThread

variable (srv : Server) (cfg : Config)

/-- The branch, up to `finalize_roads` behind it. -/
def relationBranch (r : RelationEntry) : Exec Unit := do
  if is_multipolygon r then
    let points ← getWayCoordsMap srv cfg.dumpPoints (r.way_members.map RelationMember.id)
    Prog.forEach (multipolygonCalls cfg r points) (InsertCall.run srv)
  else
    let geoms ← DeltaApplier.memberGeoms srv r.way_members
    Prog.forEach (relationCalls cfg r geoms) (InsertCall.run srv)
  finalize_roads srv

/-- The end of the thread, behind its loop and the barrier. -/
def leave : Exec Unit := do
  finalize_relations srv
  NavDB.destroy srv

/-- A thread that takes one relation. -/
def importRelation (r : RelationEntry) : Exec Unit := do
  relationBranch srv cfg r
  leave srv

/-- The way branch, up to `finalize_roads` behind it. -/
def wayBranch (w : WayEntry) : Exec Unit := do
  let s ← Prog.get
  Prog.forEach (wayCalls cfg w (w.node_refs.filterMap s.osmmap.select)) (InsertCall.run srv)
  finalize_roads srv

/-- A thread that takes one way. -/
def importWay (w : WayEntry) : Exec Unit := do
  wayBranch srv cfg w
  finalize_ways srv
  leave srv

end WayThread

end OsmImport
