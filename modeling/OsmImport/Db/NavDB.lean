import OsmImport.Db.Database
import OsmImport.Lib.Prog
import OsmImport.Store.OSMMMap

/-!
# The database client

`NavDB`: inserts are buffered and flushed by COPY, each flush in one transaction for the rows and one
for the tags; updates, deletes and reads go to the server at once. The server is arbitrary: it may
refuse any transaction, and the process may die while it waits for the answer (`Server`).
-/

namespace OsmImport

/-! ## The server -/

/-- What the code reads from the text of a failed COPY: no `, line `, no number behind it, or the
number. -/
inductive SqlError where
  | noLine
  | badLine
  | line (n : ℤ)
deriving DecidableEq, Repr

/-- The answer to a transaction; `died` is the death of the process before the answer. -/
inductive Response where
  | ok
  | error (e : SqlError)
  | died (committed : Bool)
deriving DecidableEq, Repr

/-- The tag buffers: `tag_buf_` (nodes, roads and relations), `way_tag_buf_`, `area_tag_buf_`. -/
inductive TagBuf where
  | shared
  | way
  | area
deriving DecidableEq, Repr

/-- What happens in a run. -/
inductive Event where
  /-- A process starts. -/
  | started
  /-- A change reaches `DeltaApplier::apply`. -/
  | change (c : OSCChange)
  /-- A row is appended to a buffer. -/
  | buffered (k : Kind) (row : Row)
  /-- Tag rows are appended to a buffer. -/
  | bufferedTags (b : TagBuf) (rows : List TagRow)
  /-- A transaction and its answer. -/
  | sent (txn : List Statement) (r : Response)
  /-- A read, and whether it succeeded. -/
  | asked (ok : Bool)

/-- A server: its answers may depend on everything that happened before. -/
structure Server where
  respond : List Event → Database → List Statement → Response
  answers : List Event → Database → Bool
  /-- The order of the points of an id, which `ORDER BY id` leaves to it. -/
  ties : List Event → Database → Int64 → List Coord → List Coord := fun _ _ _ points => points
  ties_perm : ∀ log db id points, (ties log db id points).Perm points := by
    intros
    exact List.Perm.refl _

/-- A server that accepts everything. -/
def acceptAll : Server where
  respond _ _ _ := .ok
  answers _ _ := true

/-! ## The client -/

/-- `NODE_BUFFER_SIZE`. -/
def NODE_BUFFER_SIZE : ℕ := 20000

/-- `WAY_BUFFER_SIZE`. -/
def WAY_BUFFER_SIZE : ℕ := 10000

/-- A `NavDB`. -/
structure NavDB where
  thread_id : ℕ
  /-- `node_buf_`, `way_buf_`, `area_buf_`, `road_buf_`, `relation_buf_`. -/
  buf : Kind → List Row
  tagBuf : TagBuf → List TagRow

/-- The memory of the process, the node store, the database, and the run so far. -/
structure Session where
  osmmap : OSMMMap
  nav : NavDB
  db : Database
  log : List Event

/-- A piece of the program. -/
abbrev Exec (α : Type) := Prog Session SqlError α

namespace Session

def setBuf (s : Session) (k : Kind) (rows : List Row) : Session :=
  { s with nav := { s.nav with buf := Function.update s.nav.buf k rows } }

def setTagBuf (s : Session) (b : TagBuf) (rows : List TagRow) : Session :=
  { s with nav := { s.nav with tagBuf := Function.update s.nav.tagBuf b rows } }

def record (s : Session) (e : Event) : Session := { s with log := s.log ++ [e] }

/-- The session behind a transaction that the server commits, with its answer. -/
def committed (s : Session) (txn : List Statement) (r : Response) : Session :=
  { s with db := s.db.commit txn }.record (.sent txn r)

end Session

namespace NavDB

/-- A client without buffered rows. -/
def fresh (thread_id : ℕ) : NavDB := ⟨thread_id, fun _ => [], fun _ => []⟩

/-- `way_buffer_size_`. -/
def way_buffer_size (nav : NavDB) : ℕ := WAY_BUFFER_SIZE + nav.thread_id * 137

variable (srv : Server)

/-- A transaction. -/
def send (txn : List Statement) : Exec Unit where
  run s :=
    let r := srv.respond s.log s.db txn
    match r with
    | .ok => .done () (s.committed txn r)
    | .error e => .threw e (s.record (.sent txn r))
    | .died true => .died (s.committed txn r)
    | .died false => .died (s.record (.sent txn r))

/-! ### Tags -/

/-- `allAlphaNum`: `std::isalnum` in the "C" locale. -/
def allAlphaNum (s : Str) : Bool :=
  !s.isEmpty && s.all fun c =>
    (48 ≤ c && c ≤ 57) || (65 ≤ c && c ≤ 90) || (97 ≤ c && c ≤ 122)

/-- The tag rows that are kept of an entity. -/
def tagRows (id : Int64) (tags : Tags) : List TagRow :=
  (tags.entries.filter fun kv => allAlphaNum kv.1 && allAlphaNum kv.2).map
    fun kv => ⟨id, kv.1, kv.2⟩

/-- The body of `addTags`, `addWayTags` and `addAreaTags`. -/
def addTagsTo (b : TagBuf) (id : Int64) (tags : Tags) : Exec Unit :=
  Prog.modify fun s => (s.setTagBuf b (s.nav.tagBuf b ++ tagRows id tags)).record
    (.bufferedTags b (tagRows id tags))

/-- `addTags`. -/
def addTags := addTagsTo .shared

/-- `addWayTags`. -/
def addWayTags := addTagsTo .way

/-- `addAreaTags`. -/
def addAreaTags := addTagsTo .area

/-- The buffer that `finalize_tags_locked` takes for a table. -/
def bufOf : Kind → TagBuf
  | .way => .way
  | .area => .area
  | _ => .shared

/-- `finalize_tags_locked`, and with it `finalize_tags`. -/
def finalize_tags (table : Kind) : Exec Unit := do
  let s ← Prog.get
  let rows := s.nav.tagBuf (bufOf table)
  if rows.isEmpty then return ()
  send srv [.copyTags table rows]
  Prog.modify fun s => s.setTagBuf (bufOf table) []

/-! ### Flushes -/

/-- `flushNodes`. -/
def flushNodes : Exec Unit := do
  let s ← Prog.get
  if (s.nav.buf .node).isEmpty then return ()
  send srv [.copy .node (s.nav.buf .node)]
  finalize_tags srv .node
  Prog.modify fun s => s.setBuf .node []

/-- `tryCopyBatch`. The first argument bounds the rounds of the loop; every round takes a row out of
the buffer. -/
def tryCopyBatch (table : Kind) : ℕ → Exec ℕ
  | 0 => do
    let s ← Prog.get
    return (s.nav.buf table).length
  | n + 1 => do
    let s ← Prog.get
    let buf := s.nav.buf table
    if buf.isEmpty then return 0
    match ← Prog.attempt (send srv [.copy table buf]) with
    | .ok _ => return buf.length
    | .error .noLine => return buf.length
    | .error .badLine => Prog.throw .noLine
    | .error (.line line) =>
      let idx := line - 1
      if idx < 0 ∨ idx ≥ buf.length then return buf.length
      Prog.modify fun s => s.setBuf table (buf.eraseIdx idx.toNat)
      tryCopyBatch table n

/-- `flushViaTemp`. -/
def flushViaTemp (table : Kind) : Exec Unit := do
  let s ← Prog.get
  let buf := s.nav.buf table
  if buf.isEmpty then return ()
  match ← Prog.attempt (send srv [.copy table buf]) with
  | .ok _ => pure ()
  | .error _ => let _ ← tryCopyBatch srv table buf.length
  finalize_tags srv table
  Prog.modify fun s => s.setBuf table []

/-- `flushWays`. -/
def flushWays : Exec Unit := flushViaTemp srv .way

/-- `flushAreas`. -/
def flushAreas : Exec Unit := flushViaTemp srv .area

/-- `flushRoads`. -/
def flushRoads : Exec Unit := flushViaTemp srv .road

/-- `flushRelations`: the steps of `flushViaTemp` on `relation_buf_`. -/
def flushRelations : Exec Unit := flushViaTemp srv .relation

/-! ### Inserts and finalizers -/

/-- `push_back` on a buffer. -/
def pushRow (k : Kind) (row : Row) : Exec Unit :=
  Prog.modify fun s => (s.setBuf k (s.nav.buf k ++ [row])).record (.buffered k row)

/-- `insertNode`. -/
def insertNode (id : Int64) (name : Str) (lon_m lat_m : Double) (tags : Tags) (geog : Str) :
    Exec Unit := do
  if tags.isEmpty then return ()
  addTags id tags
  pushRow .node ⟨id, name, some (lon_m, lat_m), some geog⟩
  let s ← Prog.get
  if (s.nav.buf .node).length ≥ NODE_BUFFER_SIZE then flushNodes srv

/-- `insertWay`. -/
def insertWay (id : Int64) (name : Str) (tags : Tags) (geog : Str) : Exec Unit := do
  addWayTags id tags
  pushRow .way ⟨id, name, none, some geog⟩
  let s ← Prog.get
  if (s.nav.buf .way).length ≥ s.nav.way_buffer_size then flushWays srv

/-- `insertArea`. -/
def insertArea (id : Int64) (name : Str) (tags : Tags) (geog : Str) : Exec Unit := do
  addAreaTags id tags
  pushRow .area ⟨id, name, none, some geog⟩
  let s ← Prog.get
  if (s.nav.buf .area).length > s.nav.way_buffer_size then flushAreas srv

/-- `insertRoad`. -/
def insertRoad (id : Int64) (name : Str) (tags : Tags) (geog : Str) : Exec Unit := do
  addTags id tags
  pushRow .road ⟨id, name, none, some geog⟩
  let s ← Prog.get
  if (s.nav.buf .road).length > s.nav.way_buffer_size then flushRoads srv

/-- `geog.empty() ? std::nullopt : std::make_optional(geog)`. -/
def nullable (geog : Str) : Option Str := if geog.isEmpty then none else some geog

/-- `insertRelation`. -/
def insertRelation (id : Int64) (name : Str) (tags : Tags) (geog : Str) : Exec Unit := do
  addTags id tags
  pushRow .relation ⟨id, name, none, nullable geog⟩
  let s ← Prog.get
  if (s.nav.buf .relation).length > s.nav.way_buffer_size then flushRelations srv

/-- `finalize_nodes`. -/
def finalize_nodes : Exec Unit := flushNodes srv

/-- `finalize_ways`. -/
def finalize_ways : Exec Unit := do
  flushWays srv
  flushAreas srv

/-- `finalize_roads`. -/
def finalize_roads : Exec Unit := flushRoads srv

/-- `finalize_relations`. -/
def finalize_relations : Exec Unit := flushRelations srv

/-- The destructor: all buffers are flushed, and an exception ends that. -/
def destroy : Exec Unit := do
  let _ ← Prog.attempt (do
    flushNodes srv
    flushWays srv
    flushAreas srv
    flushRoads srv
    flushRelations srv)

/-! ### Reads -/

/-- A read of the database; `none` is an exception of the library. -/
def ask {α : Type} (f : Database → α) : Exec (Option α) where
  run s :=
    let ok := srv.answers s.log s.db
    .done (if ok then some (f s.db) else none) (s.record (.asked ok))

/-- The `geog` columns of the rows of an id, `ways` before `areas`. -/
def geogs (db : Database) (id : Int64) : List (Option Str) :=
  ((db.rows .way ++ db.rows .area).filter fun r => r.id == id).map Row.geog

/-- `getWay`. -/
def getWay (id : Int64) : Exec Str := do
  match ← ask srv fun db => geogs db id with
  | some (some geog :: _) => return geog
  | _ => return []

/-- The points of the `geog` columns, in the order of their vertices. `dumpPoints` is `ST_DumpPoints`. -/
def storedPoints (dumpPoints : Str → List Coord) (geogs : List (Option Str)) : List Coord :=
  geogs.flatMap fun geog => (geog.map dumpPoints).getD []

/-- `getWayCoordsMap`: for each id the points of its rows; an id without points is not in the map of the
source. -/
def getWayCoordsMap (dumpPoints : Str → List Coord) (ids : List Int64) :
    Exec (Int64 → List Coord) := do
  if ids.isEmpty then return fun _ => []
  let s ← Prog.get
  match ← ask srv fun db id => srv.ties s.log db id (storedPoints dumpPoints (geogs db id)) with
  | some points => return fun id => if id ∈ ids then points id else []
  | none => return fun _ => []

/-- `getReplicationSequence`. -/
def getReplicationSequence : Exec Int64 := do
  match ← ask srv Database.sequence with
  | some (some seq) => return seq
  | _ => return -1

/-! ### Updates -/

/-- `updateNode`: two transactions. -/
def updateNode (id : Int64) (name : Str) (lon_m lat_m : Double) (tags : Tags) (geog : Str) :
    Exec Unit := do
  send srv [.update .node ⟨id, name, some (lon_m, lat_m), some geog⟩]
  send srv [.diffTags .node id tags]

/-- The body of `updateWay`, `updateArea` and `updateRelation`. -/
def updateIn (table : Kind) (id : Int64) (name : Str) (tags : Tags) (geog : Option Str) : Exec Unit :=
  send srv [.update table ⟨id, name, none, geog⟩, .diffTags table id tags]

/-- `updateWay`. -/
def updateWay (id : Int64) (name : Str) (tags : Tags) (geog : Str) : Exec Unit :=
  updateIn srv .way id name tags (some geog)

/-- `updateArea`. -/
def updateArea (id : Int64) (name : Str) (tags : Tags) (geog : Str) : Exec Unit :=
  updateIn srv .area id name tags (some geog)

/-- `updateRelation`. -/
def updateRelation (id : Int64) (name : Str) (tags : Tags) (geog : Str) : Exec Unit :=
  updateIn srv .relation id name tags (nullable geog)

/-- `deleteEntity`; `type` names a key of its two tables. -/
def deleteEntity (id : Int64) (type : Kind) : Exec Unit :=
  send srv [.deleteTags type id, .delete type id]

/-- `setReplicationSequence`. -/
def setReplicationSequence (seq : Int64) : Exec Unit := send srv [.setSequence seq]

/-! ### Resuming -/

/-- The phases that `truncateForResume` knows, of those that fill the tables of the entities. -/
inductive ResumePhase where
  | ways
  | relations
deriving DecidableEq, Repr

/-- The tables that are truncated. -/
def resumeTables : ResumePhase → List Statement
  | .ways => [.truncate .way, .truncate .area, .truncateTags .way, .truncateTags .area]
  | .relations =>
    [.truncate .relation, .truncate .road, .truncateTags .relation, .truncateTags .road]

/-- `truncateForResume`. -/
def truncateForResume (phase : ResumePhase) : Exec Unit := send srv (resumeTables phase)

end NavDB

end OsmImport
