import OsmImport.Delta.DeltaApplier
import OsmImport.Import.Producer
import OsmImport.Lib.Decimal

/-!
# The command line

`Args` and `parseArgs`, and what the start of `main` makes of them: the SRID of the process and the flags
of a resumed import. An argument that no option knows is skipped, as is an option without its value.
-/

namespace OsmImport

/-- `Mode`. -/
inductive Mode where
  | importing
  | delta
  | poll
deriving DecidableEq, Repr

/-- `Phase`. -/
inductive Phase where
  | nodes
  | merging
  | ways
  | reindexing
  | indexing
  | relations
  | airportsLoading
  | vacuuming
  | done
deriving DecidableEq, Repr

/-- `Args`, with the defaults of its fields. An `int` is an integer. -/
structure Args where
  infile : Str := []
  server : Str := []
  database : Str := []
  user : Str := []
  log_file : Str := str "osm_import.log"
  nodes_file : Str := str "nodes.dat"
  shard_dir : Str := str "."
  max_node_id : Int64 := 20000000000
  verbose : Bool := false
  init_schema : Bool := false
  use_mercator : Bool := true
  queue_size : ℤ := 10000
  node_threads : ℤ := 1
  way_threads : ℤ := 6
  mode : Mode := .importing
  osc_file : Str := []
  replication : Str := str "minute"
  sequence : Int64 := -1
  poll_interval : ℤ := 60
  resume_phase : Phase := .nodes

namespace Args

/-! ## Parsing -/

/-- `safeInt`; `none` is the end of the process. -/
def safeInt (val : Str) : Option ℤ :=
  (Decimal.scan val).filter fun i => decide (-2 ^ 31 ≤ i ∧ i < 2 ^ 31)

/-- `safeInt64`. -/
def safeInt64 (val : Str) : Option Int64 :=
  ((Decimal.scan val).filter fun i => decide (-2 ^ 63 ≤ i ∧ i < 2 ^ 63)).map Int64.ofInt

/-- The values of `--mode`. -/
def modeOf (m : Str) : Option Mode :=
  if m = str "import" then some .importing
  else if m = str "delta" then some .delta
  else if m = str "poll" then some .poll
  else none

/-- The values of `--resume`. -/
def phaseOf (ph : Str) : Option Phase :=
  if ph = str "nodes" then some .nodes
  else if ph = str "merge" then some .merging
  else if ph = str "ways" then some .ways
  else if ph = str "reindex" then some .reindexing
  else if ph = str "relations" then some .relations
  else if ph = str "indexing" then some .indexing
  else if ph = str "airports" then some .airportsLoading
  else if ph = str "vacuum" then some .vacuuming
  else none

/-- `arg == long || arg == short`. -/
def named (arg : Str) (long short : String) : Bool := arg = str long || arg = str short

/-- The options with a value: what the value does, if `arg` is one of them. -/
def valued (arg : Str) : Option (Str → Args → Option Args) :=
  if named arg "--infile" "-i" then some fun val a => some { a with infile := val }
  else if named arg "--server" "-s" then some fun val a => some { a with server := val }
  else if named arg "--database" "-d" then some fun val a => some { a with database := val }
  else if named arg "--user" "-u" then some fun val a => some { a with user := val }
  else if named arg "--nodes-file" "-f" then some fun val a => some { a with nodes_file := val }
  else if named arg "--shard-dir" "-S" then some fun val a => some { a with shard_dir := val }
  else if named arg "--max-node-id" "-n" then
    some fun val a => (safeInt64 val).map fun i => { a with max_node_id := i }
  else if named arg "--log-file" "-l" then some fun val a => some { a with log_file := val }
  else if named arg "--queue-size" "-q" then
    some fun val a => (safeInt val).map fun i => { a with queue_size := i }
  else if named arg "--node-threads" "-t" then
    some fun val a => (safeInt val).map fun i => { a with node_threads := i }
  else if named arg "--way-threads" "-w" then
    some fun val a => (safeInt val).map fun i => { a with way_threads := i }
  else if named arg "--mode" "-m" then some fun val a => (modeOf val).map fun m => { a with mode := m }
  else if named arg "--osc-file" "-o" then
    some fun val a => some { a with osc_file := val, mode := .delta }
  else if named arg "--replication" "-r" then some fun val a => some { a with replication := val }
  else if named arg "--sequence" "-Q" then
    some fun val a => (safeInt64 val).map fun i => { a with sequence := i }
  else if named arg "--poll-interval" "-p" then
    some fun val a => (safeInt val).map fun i => { a with poll_interval := i }
  else if named arg "--resume" "-R" then
    some fun val a => (phaseOf val).map fun ph => { a with resume_phase := ph }
  else none

/-- The options without a value. The help ends the process. -/
def switch (arg : Str) (a : Args) : Option Args :=
  if named arg "--verbose" "-v" then some { a with verbose := true }
  else if named arg "--init" "-I" then some { a with init_schema := true }
  else if named arg "--wgs84" "-L" then some { a with use_mercator := false }
  else if named arg "--help" "-h" then none
  else some a

/-- The loop over the arguments. -/
def parseFrom : List Str → Args → Option Args
  | [], a => some a
  | [arg], a => switch arg a
  | arg :: val :: rest, a =>
    match valued arg with
    | some option => (option val a).bind (parseFrom rest)
    | none => (switch arg a).bind (parseFrom (val :: rest))

/-- The checks behind the loop. -/
def complete (a : Args) : Bool :=
  !(a.server.isEmpty || a.database.isEmpty || a.user.isEmpty) &&
    !(a.mode = .importing && a.infile.isEmpty) && !(a.mode = .delta && a.osc_file.isEmpty)

/-- `parseArgs` on the arguments behind the name of the program. -/
def parseArgs (argv : List Str) : Option Args := (parseFrom argv {}).filter complete

/-! ## The start of a process -/

/-- `g_srid`: `runDelta` is entered before it is set. -/
def g_srid (a : Args) : ℕ :=
  if a.mode ≠ .importing then 3857 else if a.use_mercator then 3857 else 4326

/-- What the process is started with. -/
def env (a : Args) (toMercator : Double → Double → Coord) : Env := ⟨a.g_srid, toMercator⟩

/-- `std::stoi` reads the digits at the front. -/
example : (parseArgs (["-s", "h", "-d", "db", "-u", "u", "-i", "f", "-t", " 2x", "-R"].map str)).map
    Args.node_threads = some 2 := by decide +kernel

end Args

end OsmImport
