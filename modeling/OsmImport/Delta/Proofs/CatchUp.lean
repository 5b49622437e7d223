import OsmImport.Db.Proofs.Settled
import OsmImport.Delta.Proofs.Archive
import OsmImport.Delta.Proofs.NodeReads

/-!
# Catching up with an archive

A willing server may refuse rows of ways, areas, roads and relations, and nothing else. On such a server, and on
a platform with room for the bitmap of the node store, every file that can be read to its end is applied. So
from every state that a run can reach, a process that gets through the constructors comes to the number that
`state.txt` has.
-/

namespace OsmImport

open NavDB Prog Replicator

/-- The server refuses nothing but COPYs of rows into the other tables than `nodes`, and those with an error
that the recovery knows. -/
structure Willing (srv : Server) : Prop where
  accepts : ∀ log db txn, (∀ k rows, txn = [.copy k rows] → k = .node) → srv.respond log db txn = .ok
  recovers : ∀ log db k rows, srv.respond log db [.copy k rows] = .ok ∨
    srv.respond log db [.copy k rows] = .error .noLine ∨ ∃ n, srv.respond log db [.copy k rows] = .error (.line n)
  answers : ∀ log db, srv.answers log db = true

/-! ## Operations -/

/-- On a platform the program ends, and the node store stays on the platform. -/
abbrev Completes (plat : Platform) {α : Type} (m : Exec α) : Prop := TotalOn (fun s => s.osmmap.platform = plat) m

section

variable {srv : Server} (h : Willing srv) {plat : Platform}

include h

theorem Willing.send {txn : List Statement} (htxn : ∀ k rows, txn = [.copy k rows] → k = .node) :
    Completes plat (send srv txn) :=
  fun s hs => ⟨(), _, send_ok (h.accepts s.log s.db txn htxn), hs⟩

theorem Willing.finalize_tags (k : Kind) : Completes plat (finalize_tags srv k) := by
  refine TotalOn.bind ((compositional_totalOn _).get) fun s => ?_
  refine iteInduction (fun _ => (compositional_totalOn _).pure ()) fun _ => ?_
  exact (h.send fun _ _ hk => by cases hk).bind fun _ s hs => ⟨(), _, rfl, hs⟩

/-- A COPY is accepted, or refused with an error that the recovery knows. -/
theorem Willing.attempt_copy (k : Kind) (rows : List Row) (s : Session) :
    ∃ r s', (attempt (NavDB.send srv [.copy k rows])).run s = .done r s' ∧ r ≠ .error .badLine ∧
      s'.osmmap = s.osmmap := by
  rcases h.recovers s.log s.db k rows with hok | herror | ⟨n, herror⟩
  · exact ⟨_, _, run_attempt_done (send_ok hok), nofun, rfl⟩
  · exact ⟨.error .noLine, _, run_attempt_threw (send_error herror), nofun, rfl⟩
  · exact ⟨.error (.line n), _, run_attempt_threw (send_error herror), nofun, rfl⟩

/-- The recovery ends, whatever rows are refused. -/
theorem Willing.tryCopyBatch (k : Kind) (n : ℕ) : Completes plat (NavDB.tryCopyBatch srv k n) := by
  induction n with
  | zero => exact fun s hs => ⟨_, s, rfl, hs⟩
  | succ n ih =>
    refine TotalOn.bind (compositional_totalOn _).get fun s => ?_
    refine iteInduction (fun _ => (compositional_totalOn _).pure _) fun _ => ?_
    intro t ht
    obtain ⟨r, t', hr, hne, ht'⟩ := h.attempt_copy k (s.nav.buf k) t
    rw [← ht'] at ht
    rw [run_bind_done hr]
    rcases r with (_ | _ | line) | _
    · exact ⟨_, t', rfl, ht⟩
    · exact absurd rfl hne
    · dsimp only
      split
      · exact ⟨_, t', rfl, ht⟩
      · rw [run_modify_bind]
        exact ih _ ht
    · exact ⟨_, t', rfl, ht⟩

theorem Willing.flush (k : Kind) : Completes plat (NavDB.flush srv k) := by
  have hend : ∀ k, Completes plat (NavDB.finalize_tags srv k >>= fun _ => modify fun s => s.setBuf k []) :=
    fun k => (h.finalize_tags k).bind fun _ s hs => ⟨(), _, rfl, hs⟩
  have hvia : ∀ k, Completes plat (flushViaTemp srv k) := by
    intro k
    refine TotalOn.bind (compositional_totalOn _).get fun s => ?_
    refine iteInduction (fun _ => (compositional_totalOn _).pure ()) fun _ => ?_
    intro t ht
    obtain ⟨r, t', hr, -, ht'⟩ := h.attempt_copy k (s.nav.buf k) t
    rw [← ht'] at ht
    rw [run_bind_done hr]
    cases r with
    | ok u => exact hend k t' ht
    | error e => exact ((h.tryCopyBatch k _).bind fun _ => hend k) t' ht
  cases k with
  | node =>
    refine TotalOn.bind (compositional_totalOn _).get fun s => ?_
    refine iteInduction (fun _ => (compositional_totalOn _).pure ()) fun _ => ?_
    exact (h.send fun k rows hk => (Statement.copy.inj (List.cons.inj hk).1).1.symm).bind fun _ => hend .node
  | way => exact hvia .way
  | area => exact hvia .area
  | road => exact hvia .road
  | relation => exact hvia .relation

/-- A platform with room for the bitmap lets the operations on these ids end. -/
theorem Willing.pieces {max_id : Int64} (hroom : plat.Roomy max_id 1) :
    Pieces srv (fun _ => True) (fun id => 0 ≤ id ∧ id ≤ max_id) fun m => Completes plat m where
  toCompositional := compositional_totalOn _
  send txn htxn := h.send fun k rows hk => by
    have hplain := htxn (.copy k rows) (hk ▸ List.mem_cons_self)
    exact hplain.elim
  ask _ := fun _ hs => ⟨_, _, rfl, hs⟩
  place id pos hid := by
    intro s hs
    have hmax : ¬ max_id < 0 := Int64.not_lt.mpr (Int64.le_trans hid.1 hid.2)
    have htakes : s.osmmap.Takes 0 id :=
      OSMMMap.takes_of_roomy (hs ▸ hroom) (by decide) (OSMMMap.inRange_of_le hmax hid.1 hid.2)
    exact ⟨(), _, DeltaApplier.run_storeInsert htakes, hs⟩
  remove id _ := by
    intro s hs
    refine ⟨(), _, rfl, ?_⟩
    unfold OSMMMap.remove
    dsimp only
    split
    · exact hs
    · split <;> exact hs
  insertInto k row tags _ := compositional_insertInto (compositional_totalOn _)
    (fun _ hs => ⟨(), _, rfl, hs⟩) (fun _ hs => ⟨(), _, rfl, hs⟩) (h.flush k)
  flush k _ := h.flush k

/-! ## Files -/

/-- A file that can be read to its end is applied, and its number is stored. -/
theorem Willing.downloadAndApply (env : Env) {max_id : Int64} {changes : List OSCChange} (seq : Int64)
    {s : Session} (hroom : s.osmmap.platform.Roomy max_id 1) (hids : NodeIdsIn max_id changes) :
    ∃ s', (downloadAndApply srv env (.file changes true) seq).run s = .done true s' ∧
      Advanced s changes seq s' ∧ s'.osmmap.platform = s.osmmap.platform := by
  have hpieces := h.pieces hroom
  have hchanges : ∀ cs : List OSCChange, NodeIdsIn max_id cs →
      Completes s.osmmap.platform (forEach cs (DeltaApplier.apply srv env)) := by
    intro cs
    induction cs with
    | nil => exact fun _ => (compositional_totalOn _).pure ()
    | cons c cs ih =>
      intro hids
      have hwithin : c.Within (fun _ => True) fun id => 0 ≤ id ∧ id ≤ max_id := by
        rcases c with ⟨type, n⟩ | w | r
        · have hid := hids type n List.mem_cons_self
          cases type with
          | create => exact ⟨hid, fun _ => trivial⟩
          | modify => exact hid
          | delete => exact hid
        · exact ⟨trivial, trivial⟩
        · exact ⟨trivial, trivial⟩
      have happly : Completes s.osmmap.platform (DeltaApplier.apply srv env c) :=
        TotalOn.bind (fun _ hs => ⟨(), _, rfl, hs⟩) fun _ => hpieces.operation c hwithin
      exact happly.bind fun _ => ih fun type n hn => hids type n (List.mem_cons_of_mem _ hn)
  have htotal : Completes s.osmmap.platform
      (do applyFile srv env changes true; setReplicationSequence srv seq : Exec Unit) := by
    refine TotalOn.bind ((hchanges changes hids).bind fun _ => ?_) fun _ => h.send fun _ _ hk => by cases hk
    exact hpieces.flushAll fun _ _ => trivial
  obtain ⟨u, s', hrun, hs'⟩ := htotal s rfl
  have hdone : (Replicator.downloadAndApply srv env (.file changes true) seq).run s = .done true s' := by
    show (attempt _ >>= _).run s = _
    rw [run_bind_done (run_attempt_done hrun)]
    rfl
  have hensures := ensures_downloaded srv env changes true seq s
  unfold Ensures at hensures
  rw [hdone] at hensures
  exact ⟨s', hdone, hensures.1, hs'⟩

end

/-! ## Rounds -/

/-- The process is stopped and started again, looks at `state.txt`, and takes `n` rounds of the inner loop and
the one that ends it. -/
def catchUp (boot : Startup) (n : ℕ) : List ReplicationEvent :=
  [.stop, .start boot (-1), .round true] ++ List.replicate (n + 1) (.file true)

section

variable {srv : Server} {env : Env} {fmt : ChangeFormat} {feeds : Feeds} {g : ReplicationGranularity}

/-- The files behind a number up to the one of `state.txt` are there, they can be read to their ends, and the ids
of their nodes are in `0..max_id`. -/
def Ready (fmt : ChangeFormat) (g : ReplicationGranularity) (archive : Archive) (max_id stored remote : Int64) :
    Prop :=
  ∀ seq, stored < seq → seq ≤ remote → ∃ file, archive.documents (fileUrl g seq) = some file ∧
    (fmt.read file).2 = true ∧ NodeIdsIn max_id (fmt.read file).1

theorem step_file (env : Env) (hsrv : Willing srv) {r : Replication} (h : r.archive.Faithful feeds)
    {max_id stored remote : Int64} (hroom : r.poll.session.osmmap.platform.Roomy max_id 1)
    (hphase : r.poll.phase = .applying (stored + 1) remote) (hdue : stored + 1 ≤ remote) {file : Bytes}
    (hfile : r.archive.documents (fileUrl g (stored + 1)) = some file) (hwhole : (fmt.read file).2 = true)
    (hids : NodeIdsIn max_id (fmt.read file).1) :
    ∃ s, Replication.Step srv env fmt feeds g r (.file true) ⟨r.archive, ⟨s, .applying (stored + 1 + 1) remote⟩⟩ ∧
      Advanced r.poll.session (fmt.files feeds g (stored + 1)).1 (stored + 1) s ∧
      s.osmmap.platform = r.poll.session.osmmap.platform := by
  obtain ⟨rfl, -⟩ := h.files g _ file hfile
  obtain ⟨s, hrun, hs, hplat⟩ := hsrv.downloadAndApply env (stored + 1) hroom hids
  refine ⟨s, ?_, hs, hplat⟩
  have hdownload : r.download fmt g true = .file (fmt.read (feeds g (stored + 1))).1 true := by
    have hthere : r.archive.downloadFile (fileUrl g (stored + 1)) true = some (feeds g (stored + 1)) := hfile
    simp only [Replication.download, hphase, hthere, hwhole]
  have hstep : pollStep srv env r.poll (.file (r.download fmt g true)) =
      ⟨s, .applying (stored + 1 + 1) remote⟩ := by
    simp only [pollStep, hphase, if_pos hdue, hdownload, hrun]
  exact hstep ▸ .file true

/-- The files that are due are applied one after another. -/
theorem run_files (hsrv : Willing srv) {archive : Archive} (h : archive.Faithful feeds)
    {max_id remote stored : Int64} (hready : Ready fmt g archive max_id stored remote) {s : Session}
    (hroom : s.osmmap.platform.Roomy max_id 1) (hseq : s.db.sequence = some stored) (n : ℕ)
    (hn : stored.toInt + n ≤ remote.toInt) :
    ∃ s', s'.osmmap.platform = s.osmmap.platform ∧
      Trace (Replication.Step srv env fmt feeds g) ⟨archive, ⟨s, .applying (stored + 1) remote⟩⟩
        (List.replicate n (.file true)) ⟨archive, ⟨s', .applying (stored + Int64.ofNat n + 1) remote⟩⟩ ∧
      (stored + Int64.ofNat n).toInt = stored.toInt + n ∧
      s'.db.sequence = some (stored + Int64.ofNat n) ∧
      changesOf s'.log = changesOf s.log ++ Follower.behind (fmt.files feeds g) stored n := by
  induction n with
  | zero =>
    have hzero : stored + Int64.ofNat 0 = stored := Int64.add_zero stored
    rw [hzero]
    exact ⟨s, rfl, .nil, by simp, hseq, (List.append_nil _).symm⟩
  | succ n ih =>
    obtain ⟨s', hplat', htrace, hint, hseq', hlog⟩ := ih (by omega)
    have hsucc : stored + Int64.ofNat (n + 1) = stored + Int64.ofNat n + 1 := by
      rw [Int64.ofNat_add, ← Int64.add_assoc]
      rfl
    have hlt : stored + Int64.ofNat n < remote := by
      rw [Int64.lt_iff_toInt_lt]
      omega
    have hint' := toInt_add_one hlt
    have hdue : stored + Int64.ofNat n + 1 ≤ remote := by
      rw [Int64.le_iff_toInt_le]
      omega
    have hbehind : stored < stored + Int64.ofNat n + 1 := by
      rw [Int64.lt_iff_toInt_lt]
      omega
    obtain ⟨file, hfile, hwhole, hids⟩ := hready _ hbehind hdue
    obtain ⟨s'', hstep, hs'', hplat''⟩ := step_file env hsrv
      (r := ⟨archive, ⟨s', .applying (stored + Int64.ofNat n + 1) remote⟩⟩) h (hplat' ▸ hroom) rfl hdue hfile
      hwhole hids
    obtain ⟨hlog'', hseq''⟩ := Prod.mk.inj hs''
    refine ⟨s'', hplat''.trans hplat', ?_, ?_, ?_, ?_⟩
    · rw [List.replicate_succ', hsucc]
      exact htrace.snoc hstep
    · rw [hsucc, hint', hint]
      omega
    · rw [hsucc]
      exact hseq''
    · rw [Follower.behind, ← List.append_assoc, ← hlog]
      exact hlog''

theorem startPoll_plain (srv : Server) {p : PollState} {boot : Startup} {osmmap : OSMMMap}
    (hopens : boot.opens = some osmmap) (hp : p.phase = .stopped) :
    Replication.startPoll srv boot (-1) p = ⟨p.session.restarted osmmap, .waiting⟩ := by
  have hneg : ¬ (-1 : Int64) ≥ 0 := by decide
  simp only [Replication.startPoll, hp, hopens, if_neg hneg]

/-- The node store of a process that starts is on the platform of the start. -/
theorem Startup.platform_of_opens {boot : Startup} {osmmap : OSMMMap} (h : boot.opens = some osmmap) :
    osmmap.platform = boot.platform := by
  unfold Startup.opens at h
  split at h
  · rename_i store hstore
    obtain ⟨-, -, -, -, hplat⟩ := OSMMMap.openStore_sizes hstore
    split at h
    · rwa [← Option.some.inj h]
    · cases h
  · cases h

/-- The last round finds nothing that is due. -/
theorem step_last {r : Replication} {remote : Int64} (hmax : remote < Int64.maxValue)
    (hphase : r.poll.phase = .applying (remote + 1) remote) :
    Replication.Step srv env fmt feeds g r (.file true) ⟨r.archive, ⟨r.poll.session, .waiting⟩⟩ := by
  have hnot : ¬ remote + 1 ≤ remote := by
    rw [Int64.le_iff_toInt_le, toInt_add_one hmax]
    omega
  have hstep : pollStep srv env r.poll (.file (r.download fmt g true)) = ⟨r.poll.session, .waiting⟩ := by
    simp only [pollStep, hphase, if_neg hnot]
  exact hstep ▸ .file true

/-- A process that waits has no file to apply. -/
theorem step_waiting {r : Replication} (hphase : r.poll.phase = .waiting) :
    Replication.Step srv env fmt feeds g r (.file true) r := by
  have hstep : pollStep srv env r.poll (.file (r.download fmt g true)) = r.poll := by
    simp only [pollStep, hphase]
  have hfile : Replication.Step srv env fmt feeds g r (.file true)
    ⟨r.archive, pollStep srv env r.poll (.file (r.download fmt g true))⟩ := .file true
  rwa [hstep] at hfile

/-- A process that is started again, up to the inner loop. -/
theorem run_started (hsrv : Willing srv) {r : Replication} {stored remote : Int64}
    (hstored : r.poll.session.db.sequence = some stored) (h0 : 0 ≤ stored) {text : Bytes}
    (htext : r.archive.documents (stateUrl g) = some text) (hremote : remoteSequence text = some remote)
    {boot : Startup} {osmmap : OSMMMap} (hopens : boot.opens = some osmmap) :
    ∃ s, Trace (Replication.Step srv env fmt feeds g) r [.stop, .start boot (-1), .round true]
        ⟨r.archive, ⟨s, if stored ≥ remote then .waiting else .applying (stored + 1) remote⟩⟩ ∧
      progressOf s = progressOf r.poll.session ∧ s.osmmap = osmmap := by
  let started : Session := r.poll.session.restarted osmmap
  have hstart : Replication.Step srv env fmt feeds g ⟨r.archive, { r.poll with phase := .stopped }⟩
      (.start boot (-1)) ⟨r.archive, ⟨started, .waiting⟩⟩ := by
    have hplain := startPoll_plain srv (p := { r.poll with phase := .stopped }) hopens rfl
    exact hplain ▸ .start boot (-1)
  have hround : pollStep srv env ⟨started, .waiting⟩ (.round (Replication.remote g r.archive true)) =
      ⟨started.record (.asked true), if stored ≥ remote then .waiting else .applying (stored + 1) remote⟩ := by
    have hstate : Replication.remote g r.archive true = some remote := by
      show (r.archive.documents (stateUrl g)).bind remoteSequence = _
      rw [htext]
      exact hremote
    have hrun := run_getReplicationSequence srv (s := started) hstored
    rw [hsrv.answers, if_pos rfl] at hrun
    simp only [pollStep, hstate, hrun, if_neg (Int64.not_lt.mpr h0)]
    split <;> rfl
  refine ⟨started.record (.asked true), ((Trace.nil.snoc .stop).snoc hstart).snoc ?_, ?_, rfl⟩
  · exact hround ▸ .round true
  · refine Prod.ext ?_ rfl
    show changesOf ((r.poll.session.log ++ [.started]) ++ [.asked true]) = _
    rw [changesOf_append, changesOf_append]
    simp [changesOf, progressOf]

/-- A process that is started again comes to the number of `state.txt`. -/
theorem run_catchUp (hsrv : Willing srv) {r : Replication} (h : r.archive.Faithful feeds)
    {stored remote : Int64} {n : ℕ} (hstored : r.poll.session.db.sequence = some stored) (h0 : 0 ≤ stored)
    {text : Bytes} (htext : r.archive.documents (stateUrl g) = some text)
    (hremote : remoteSequence text = some remote) {boot : Startup} {osmmap : OSMMMap}
    (hopens : boot.opens = some osmmap) (hroom : boot.platform.Roomy boot.max_node_id 1)
    (hready : Ready fmt g r.archive boot.max_node_id stored remote) (hn : stored.toInt + n = remote.toInt) :
    ∃ s, Trace (Replication.Step srv env fmt feeds g) r (catchUp boot n) ⟨r.archive, ⟨s, .waiting⟩⟩ ∧
      s.db.sequence = some remote ∧
      changesOf s.log =
        changesOf r.poll.session.log ++ Follower.behind (fmt.files feeds g) stored n := by
  obtain ⟨s, hstarted, hs, rfl⟩ := run_started hsrv hstored h0 htext hremote hopens
  obtain ⟨hlog, hseq⟩ := Prod.mk.inj hs
  rw [hstored] at hseq
  by_cases hup : stored ≥ remote
  · -- there is nothing to apply
    have hzero : n = 0 := by
      have hle := Int64.le_iff_toInt_le.mp hup
      omega
    subst hzero
    have hsame : stored = remote := Int64.toInt_inj.mp (by omega)
    rw [if_pos hup] at hstarted
    exact ⟨s, hstarted.snoc (step_waiting rfl), hsame ▸ hseq, by rw [hlog]; exact (List.append_nil _).symm⟩
  · rw [if_neg hup] at hstarted
    obtain ⟨s', -, hfiles, hint, hseq', hlog'⟩ := run_files (s := s) hsrv h hready
      (Startup.platform_of_opens hopens ▸ hroom) hseq n (by omega)
    have hlast : stored + Int64.ofNat n = remote := Int64.toInt_inj.mp (by omega)
    have hmax : remote < Int64.maxValue :=
      Int64.lt_of_le_of_lt (h.states g text remote htext hremote) (h.bounded g)
    rw [hlast] at hfiles hseq'
    refine ⟨s', ?_, hseq', hlog'.trans (congrArg (· ++ _) hlog)⟩
    rw [catchUp, List.replicate_succ', ← List.append_assoc]
    exact (hstarted.append hfiles).snoc (step_last hmax rfl)

end

theorem willing_choosy : Willing choosy := by
  refine ⟨fun log db txn h => ?_, fun log db k rows => ?_, fun _ _ => rfl⟩
  · unfold choosy
    dsimp only
    split
    · exact absurd (h .relation _ rfl) nofun
    · rfl
  · cases k with
    | relation => exact .inr (.inr ⟨1, rfl⟩)
    | node => exact .inl rfl
    | way => exact .inl rfl
    | area => exact .inl rfl
    | road => exact .inl rfl

/-- What `downloadFile` finds of the one file. -/
theorem ready_published : Ready relationFormat .Minute published 10 0 1 := by
  intro seq hlow hhigh
  have hone : (1 : Int64).toInt = 1 := rfl
  have hzero : (0 : Int64).toInt = 0 := rfl
  rw [Int64.lt_iff_toInt_lt] at hlow
  rw [Int64.le_iff_toInt_le] at hhigh
  obtain rfl : seq = 1 := Int64.toInt_inj.mp (by omega)
  refine ⟨relationFile, ?_, rfl, fun type n hn => ?_⟩
  · rw [published, Archive.put_of_ne (stateUrl_ne_fileUrl _ _ _).symm]
    exact Archive.publish_self beforePublishing.archive relationFeeds .Minute
  · have hn : OSCChange.node type n ∈ [.relation .create ⟨4, [], .none, []⟩] := hn
    cases List.mem_singleton.mp hn

end OsmImport
