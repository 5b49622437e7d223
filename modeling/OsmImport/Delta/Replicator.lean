import OsmImport.Delta.DeltaApplier

/-!
# Replication

`Replicator::poll`: the change files behind the stored sequence number are downloaded and applied one
after another, and the sequence number is stored behind each. What the network does, when the process
dies and when it is started again are inputs (`PollInput`).
-/

namespace OsmImport

open NavDB

/-- The download of a change file: it fails, or the parser delivers the changes and ends, with an
exception if the file is damaged. -/
inductive Download where
  | failed
  | file (changes : List OSCChange) (intact : Bool)

namespace Replicator

variable (srv : Server) (env : Env)

/-- `applyFile`. -/
def applyFile (changes : List OSCChange) (intact : Bool) : Exec Unit := do
  Prog.forEach changes (DeltaApplier.apply srv env)
  if !intact then Prog.throw .noLine
  DeltaApplier.flush srv

/-- `downloadAndApply`. -/
def downloadAndApply (download : Download) (seq : Int64) : Exec Bool := do
  match download with
  | .failed => return false
  | .file changes intact =>
    match ← Prog.attempt (do
      applyFile srv env changes intact
      setReplicationSequence srv seq) with
    | .ok _ => return true
    | .error _ => return false

end Replicator

/-- Where the process is: not running, at the head of the loop of `poll`, or in its inner loop. -/
inductive PollPhase where
  | stopped
  | waiting
  | applying (seq remote : Int64)

/-- A process, running or not, and the database. -/
structure PollState where
  session : Session
  phase : PollPhase

/-- What a process finds that is started: the files of the node store and what the platform grants, the
option `--max-node-id`, and whether the server lets it in. -/
structure Startup where
  platform : Platform
  disk : Disk
  max_node_id : Int64
  connected : Bool

/-- The node store, if the constructors in `runDelta` return. -/
def Startup.opens (boot : Startup) : Option OSMMMap :=
  match runDeltaStore boot.platform boot.disk boot.max_node_id with
  | .ok osmmap => if boot.connected then some osmmap else none
  | .error _ => none

/-- What drives the process. -/
inductive PollInput where
  /-- The process is started; it ends at once where a constructor throws. -/
  | start (boot : Startup)
  /-- The process dies, or it is interrupted between two files. -/
  | stop
  /-- A round of the outer loop, with what `remoteSequence` returns; `none` is its exception. -/
  | round (remote : Option Int64)
  /-- A round of the inner loop. -/
  | file (download : Download)

/-- The session behind the constructors of a new process. -/
def Session.restarted (s : Session) (osmmap : OSMMMap) : Session :=
  { s with osmmap := osmmap, nav := NavDB.fresh 0 }.record .started

/-- One step of `poll`. An input that does not fit the phase has no effect. -/
def pollStep (srv : Server) (env : Env) (p : PollState) : PollInput → PollState
  | .start boot => match p.phase, boot.opens with
    | .stopped, some osmmap => ⟨p.session.restarted osmmap, .waiting⟩
    | _, _ => p
  | .stop => { p with phase := .stopped }
  | .round remote => match p.phase with
    | .waiting => match (getReplicationSequence srv).run p.session with
      | .done loc s => match remote with
        | none => ⟨s, .waiting⟩
        | some remote =>
          if loc < 0 then ⟨s, .stopped⟩
          else if loc ≥ remote then ⟨s, .waiting⟩
          else ⟨s, .applying (loc + 1) remote⟩
      | .threw _ s => ⟨s, .waiting⟩
      | .died s => ⟨s, .stopped⟩
    | _ => p
  | .file download => match p.phase with
    | .applying seq remote =>
      if seq ≤ remote then
        match (Replicator.downloadAndApply srv env download seq).run p.session with
        | .done true s => ⟨s, .applying (seq + 1) remote⟩
        | .done false s => ⟨s, .stopped⟩
        | .threw _ s => ⟨s, .waiting⟩
        | .died s => ⟨s, .stopped⟩
      else ⟨p.session, .waiting⟩
    | _ => p

/-- A run of `poll`, over any number of lives of the process. -/
def runPoll (srv : Server) (env : Env) (p : PollState) (inputs : List PollInput) : PollState :=
  inputs.foldl (pollStep srv env) p

end OsmImport
