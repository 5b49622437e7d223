import OsmImport.Delta.OSCReader
import OsmImport.Delta.Replicator
import OsmImport.Lib.Lines
import OsmImport.Lib.Trace

/-!
# The archive

The servers that `Replicator` follows hold a feed for each granularity: the change files under the paths of
their numbers, and `state.txt` with the number of the last one. Feeds grow and processes poll one of them, in
any order of their steps. `Follower` is what the two are for: a copy that takes the changes of a feed file by
file.
-/

namespace OsmImport

open NavDB Lines

/-- `ReplicationGranularity`. -/
inductive ReplicationGranularity where
  | Minute
  | Hour
  | Day
deriving DecidableEq, Repr

namespace Replicator

/-! ## Documents and their URLs -/

/-- `baseUrl`. -/
def baseUrl : ReplicationGranularity → Str
  | .Minute => str "https://planet.openstreetmap.org/replication/minute"
  | .Hour => str "https://planet.openstreetmap.org/replication/hour"
  | .Day => str "https://planet.openstreetmap.org/replication/day"

/-- `std::setw(3) << std::setfill('0') << i`. -/
def setw3 (i : Int64) : Str := Decimal.padded 3 i.toInt

/-- `sequenceToPath`. -/
def sequenceToPath (seq : Int64) : Str :=
  setw3 (seq / 1000000) ++ str "/" ++ setw3 (seq / 1000 % 1000) ++ str "/" ++ setw3 (seq % 1000)

/-- The URL of `state.txt`. -/
def stateUrl (granularity : ReplicationGranularity) : Str := baseUrl granularity ++ str "/state.txt"

/-- The URL of a change file. -/
def fileUrl (granularity : ReplicationGranularity) (seq : Int64) : Str :=
  baseUrl granularity ++ str "/" ++ sequenceToPath seq ++ str ".osc.gz"

/-- `remoteSequence`, from the content of `state.txt`; `none` is an exception. -/
def remoteSequence (text : Bytes) : Option Int64 :=
  match (getlines text).find? fun line => (str "sequenceNumber=").isPrefixOf line with
  | some line => OSCReader.stoll (line.drop 15)
  | none => none

end Replicator

open Replicator

/-! ## Change files -/

/-- The calls of the callback up to the end of the events or to an exception of a handler, and whether there
was none. -/
def OSCReader.deliver (lib : OSCReader.Library) (s : OSCReader.ParseState) :
    List OSCReader.XmlEvent → List OSCChange × Bool
  | [] => (s.calls, true)
  | e :: events => match OSCReader.handle lib s e with
    | some s => deliver lib s events
    | none => (s.calls, false)

/-- What the reader takes from its libraries: numbers, and what zlib and expat make of a file, which are its
events, and whether it is a whole document. -/
structure ChangeFormat where
  lib : OSCReader.Library
  events : Bytes → List OSCReader.XmlEvent × Bool

/-- `OSCReader::parse`, on a file. -/
def ChangeFormat.read (fmt : ChangeFormat) (file : Bytes) : List OSCChange × Bool :=
  let (events, whole) := fmt.events file
  let (changes, handled) := OSCReader.deliver fmt.lib .initial events
  (changes, handled && whole)

/-! ## The archive and a process -/

/-- The documents by their URLs, and the number of the last file of each feed. -/
structure Archive where
  documents : Str → Option Bytes
  last : ReplicationGranularity → Int64

/-- The file of each number of the feeds. -/
abbrev Feeds := ReplicationGranularity → Int64 → Bytes

namespace Archive

variable (archive : Archive)

/-- `downloadFile`. -/
def downloadFile (url : Str) (arrives : Bool) : Option Bytes :=
  if arrives then archive.documents url else none

/-- A document takes the place of the one under its URL. -/
def put (url : Str) (document : Bytes) : Archive :=
  { archive with documents := Function.update archive.documents url (some document) }

/-- The next file of a feed. -/
def publish (feeds : Feeds) (granularity : ReplicationGranularity) : Archive :=
  let seq := archive.last granularity + 1
  { archive.put (fileUrl granularity seq) (feeds granularity seq) with
    last := Function.update archive.last granularity seq }

/-- Nothing but files of the feeds stands under their URLs, and no `state.txt` is ahead of its feed; the
numbers have successors. -/
structure Faithful (feeds : Feeds) : Prop where
  bounded : ∀ granularity, archive.last granularity < Int64.maxValue
  files : ∀ granularity seq file, archive.documents (fileUrl granularity seq) = some file →
    file = feeds granularity seq ∧ seq ≤ archive.last granularity
  states : ∀ granularity text seq, archive.documents (stateUrl granularity) = some text →
    remoteSequence text = some seq → seq ≤ archive.last granularity

end Archive

/-- The archive, and a process that polls one of its feeds. -/
structure Replication where
  archive : Archive
  poll : PollState

/-- What happens next. -/
inductive ReplicationEvent where
  /-- The next file of a feed is published. -/
  | publish (granularity : ReplicationGranularity)
  /-- A feed gets a new `state.txt`. -/
  | announce (granularity : ReplicationGranularity) (text : Bytes)
  /-- A process starts, with the number of its option `--sequence`, or -1. -/
  | start (boot : Startup) (sequence : Int64)
  /-- The process dies, or it is interrupted between two files. -/
  | stop
  /-- A round of the outer loop of `poll`. -/
  | round (arrives : Bool)
  /-- A round of the inner loop. -/
  | file (arrives : Bool)

/-- The number of the option `--sequence` of a process that starts. -/
def ReplicationEvent.sequence : ReplicationEvent → Option Int64
  | .start _ sequence => if sequence ≥ 0 then some sequence else none
  | _ => none

/-- The numbers of the options `--sequence` in a run. -/
def startNumbers (events : List ReplicationEvent) : List Int64 := events.filterMap ReplicationEvent.sequence

namespace Replication

variable (srv : Server) (env : Env) (fmt : ChangeFormat) (feeds : Feeds)
  (granularity : ReplicationGranularity)

/-- `runDelta`, before the call of `poll`. -/
def startPoll (boot : Startup) (sequence : Int64) (p : PollState) : PollState :=
  match p.phase, boot.opens with
  | .stopped, some osmmap =>
    if sequence ≥ 0 then
      match (setReplicationSequence srv sequence).run (p.session.restarted osmmap) with
      | .done _ s => ⟨s, .waiting⟩
      | .threw _ s => ⟨s, .stopped⟩
      | .died s => ⟨s, .stopped⟩
    else ⟨p.session.restarted osmmap, .waiting⟩
  | _, _ => p

/-- What `remoteSequence` returns. -/
def remote (archive : Archive) (arrives : Bool) : Option Int64 :=
  (archive.downloadFile (stateUrl granularity) arrives).bind remoteSequence

/-- The download of the file that is due. -/
def download (r : Replication) (arrives : Bool) : Download :=
  match r.poll.phase with
  | .applying seq _ => match r.archive.downloadFile (fileUrl granularity seq) arrives with
    | some file => .file (fmt.read file).1 (fmt.read file).2
    | none => .failed
  | _ => .failed

/-- A step of the archive or of the process. -/
inductive Step (r : Replication) : ReplicationEvent → Replication → Prop where
  | publish (feed : ReplicationGranularity) (hlast : r.archive.last feed + 1 < Int64.maxValue) :
    Step r (.publish feed) ⟨r.archive.publish feeds feed, r.poll⟩
  | announce (feed : ReplicationGranularity) (text : Bytes)
      (htext : ∀ seq, remoteSequence text = some seq → seq ≤ r.archive.last feed) :
    Step r (.announce feed text) ⟨r.archive.put (stateUrl feed) text, r.poll⟩
  | start (boot : Startup) (sequence : Int64) :
    Step r (.start boot sequence) ⟨r.archive, startPoll srv boot sequence r.poll⟩
  | stop : Step r .stop ⟨r.archive, pollStep srv env r.poll .stop⟩
  | round (arrives : Bool) :
    Step r (.round arrives)
      ⟨r.archive, pollStep srv env r.poll (.round (remote granularity r.archive arrives))⟩
  | file (arrives : Bool) :
    Step r (.file arrives) ⟨r.archive, pollStep srv env r.poll (.file (r.download fmt granularity arrives))⟩

end Replication

/-- The changes that were applied. -/
def changesOf (log : List Event) : List OSCChange :=
  log.filterMap fun
    | .change c => some c
    | _ => none

/-! ## What it is for -/

/-- A copy of a feed: the number it is at, and the last number of the feed. -/
structure Follower where
  stored : Option Int64
  last : Int64

namespace Follower

/-- What a copy does; `attempt` are changes of the next file that it applies without getting to its end. -/
inductive Label where
  | publish
  | reset (sequence : Int64)
  | attempt (changes : List OSCChange)
  | advance (changes : List OSCChange)

/-- The changes that are applied. -/
def Label.changes : Label → List OSCChange
  | .attempt changes => changes
  | .advance changes => changes
  | _ => []

/-- The changes of a file that is done. -/
def Label.done : Label → List OSCChange
  | .advance changes => changes
  | _ => []

/-- The number that the copy is set to. -/
def Label.sequence : Label → Option Int64
  | .reset sequence => some sequence
  | _ => none

/-- A step; `files` are the changes of each file, and whether it can be read to its end. -/
inductive Step (files : Int64 → List OSCChange × Bool) (f : Follower) : Label → Follower → Prop where
  | publish (hlast : f.last < Int64.maxValue) : Step files f .publish ⟨f.stored, f.last + 1⟩
  | reset (sequence : Int64) (h0 : 0 ≤ sequence) : Step files f (.reset sequence) ⟨some sequence, f.last⟩
  | attempt {stored : Int64} {changes : List OSCChange} (hstored : f.stored = some stored) (h0 : 0 ≤ stored)
      (hlast : stored < f.last) (hchanges : changes <+: (files (stored + 1)).1) :
    Step files f (.attempt changes) f
  | advance {stored : Int64} (hstored : f.stored = some stored) (h0 : 0 ≤ stored) (hlast : stored < f.last)
      (hwhole : (files (stored + 1)).2 = true) :
    Step files f (.advance (files (stored + 1)).1) ⟨some (stored + 1), f.last⟩

end Follower

/-- The changes of the next `n` files behind a number. -/
def Follower.behind (files : Int64 → List OSCChange × Bool) (seq : Int64) : ℕ → List OSCChange
  | 0 => []
  | n + 1 => behind files seq n ++ (files (seq + Int64.ofNat n + 1)).1

/-- The copy that a process keeps of its feed. -/
def Replication.follower (granularity : ReplicationGranularity) (r : Replication) : Follower :=
  ⟨r.poll.session.db.sequence, r.archive.last granularity⟩

/-- The changes of the files of a feed. -/
def ChangeFormat.files (fmt : ChangeFormat) (feeds : Feeds) (granularity : ReplicationGranularity)
    (seq : Int64) : List OSCChange × Bool := fmt.read (feeds granularity seq)

end OsmImport
