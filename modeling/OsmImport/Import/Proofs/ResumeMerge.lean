import OsmImport.Import.Proofs.ResumeWays
import OsmImport.Import.ResumeMerge
import OsmImport.Store.Proofs.MergeCrash

/-!
# Resuming at the merge

Inside the merge the way threads have done nothing, and the tables of the nodes are complete. The import
that is resumed has the same positions of nodes exactly if no record was lost with the shards that were
still open, and then it builds the same tables.
-/

namespace OsmImport

open NavDB OSMReader Producer Postgres OSMMMap

/-! ## Way threads that have taken nothing -/

/-- Without an entry there is nothing to insert. -/
def WayPc.empty : WayPc → Prop
  | .pop => True
  | .finalizingWays r => r = none
  | .arriving r => r = none
  | .waiting _ r => r = none
  | .finalizingRelations => True
  | .destroying => True
  | .done => True
  | _ => False

namespace WayThread

variable {cfg : Config} {nav : NavDB} {flag : Bool} {acts : List Act} {t : WayThread}

theorem inserted_of_idle (h : Trace (Step cfg) ⟨.pop, nav, [], flag⟩ acts t)
    (hnone : ∀ entry, .take entry ∉ acts) : t.pc.empty ∧ acts.filterMap Act.inserted = [] := by
  induction h with
  | nil => exact ⟨trivial, rfl⟩
  | @snoc acts t t' act h hs ih =>
    obtain ⟨hpc, hins⟩ := ih fun entry hmem => hnone entry (List.mem_append_left _ hmem)
    have hstep : act.inserted = none → t'.pc.empty →
        t'.pc.empty ∧ (acts ++ [act]).filterMap Act.inserted = [] := by
      intro hact hempty
      rw [List.filterMap_append, hins, List.filterMap_cons_none hact]
      exact ⟨hempty, rfl⟩
    cases hs with
    | commit _ => exact hstep rfl hpc
    | take entry _ _ => exact absurd (List.mem_append_right _ List.mem_cons_self) (hnone entry)
    | drained _ _ =>
      refine hstep rfl ?_
      cases t.way_phase_done
      · exact rfl
      · trivial
    | select _ _ h => simp [h, WayPc.empty] at hpc
    | located _ h => simp [h, WayPc.empty] at hpc
    | getWay _ _ h => simp [h, WayPc.empty] at hpc
    | collected _ h => simp [h, WayPc.empty] at hpc
    | getWayCoordsMap _ _ h => simp [h, WayPc.empty] at hpc
    | insert _ h => simp [h, WayPc.empty] at hpc
    | inserted _ h => simp [h, WayPc.empty] at hpc
    | finalizeWays _ h => exact hstep rfl (by rw [h] at hpc; exact hpc)
    | arrive _ _ h => exact hstep rfl (by rw [h] at hpc; exact hpc)
    | wakeRelation _ h => simp [h, WayPc.empty] at hpc
    | wakeDrained _ _ => exact hstep rfl trivial
    | finalizeRelations _ _ => exact hstep rfl trivial
    | destroy _ _ => exact hstep rfl trivial

/-- It sends nothing. -/
theorem takesOut_of_idle {α : Type} (a : KeptAccount α) {i : ℕ}
    (h : Trace (Step cfg) ⟨.pop, NavDB.fresh i, [], flag⟩ acts t) (hnone : ∀ entry, .take entry ∉ acts)
    (hempty : a.held (NavDB.fresh i) = []) : takesOut a acts = [] := by
  have hall := conserved a inserting_fresh h
  rw [(inserted_of_idle h hnone).2] at hall
  replace hall : takesOut a acts ++ underway a t = a.held (NavDB.fresh i) ++ [] := hall
  rw [hempty] at hall
  exact (List.append_eq_nil_iff.mp hall).1

end WayThread

/-! ## The tables inside the merge -/

section

variable {cfg : Config} {chk : Checks} {osmmap : OSMMMap} {db : Database} {script : List Action}
  {log : List ImportEvent} {s : Import} (hskip : skip_nodes cfg.resume_phase = false)
  (hs : Justified (Sensible cfg.node_threads cfg.resume_phase) script)
  (h : Trace (Import.Step cfg (Database.offer chk)) (Import.start cfg osmmap db script) log s)
  (hmerging : s.shared.merging = true)
include hskip hs h hmerging

omit hskip hs in
theorem phase_of_merging : s.shared.node_barrier.phase = 0 := by
  cases (node_barrier h).merge with
  | idle hnot _ _ _ => simp [hmerging] at hnot
  | running _ hphase _ _ _ => exact hphase
  | finished hnot _ _ _ => simp [hmerging] at hnot

/-- The tables of ways and relations are as they were. -/
theorem untouched_of_merging {k : Kind} (hk : k ≠ .node) :
    s.shared.db.rows k = db.rows k ∧ s.shared.db.tags k = db.tags k := by
  have hnone : ∀ i entry, .take entry ∉ acts (.way i) log := by
    intro i entry hmem
    have hphase := (merged_of_taken h hs hskip hmem).2
    cases (phase_of_merging h hmerging).symm.trans hphase
  have hcopies := copiesOnly_log (fun i => (NodeThread.onlyNodes_fresh i).copies)
    (fun _ _ => WayThread.inserting_fresh) h
  have hrows : copiedRows k (log.filterMap ImportEvent.committed) = [] := by
    refine List.perm_nil.mp ((perm_committed h _).trans (List.Perm.of_eq ?_))
    rw [List.flatMap_eq_nil_iff.mpr, List.flatMap_eq_nil_iff.mpr]
    · rfl
    · exact fun i _ => WayThread.takesOut_of_idle (rowAccount k) (trace_way h i) (hnone i) rfl
    · exact fun i _ => (NodeThread.onlyNodes (NodeThread.onlyNodes_fresh i) (trace_node h i)).2.1 k hk
  have htags : copiedTagRows k (log.filterMap ImportEvent.committed) = [] := by
    refine List.perm_nil.mp ((perm_committed h _).trans (List.Perm.of_eq ?_))
    rw [List.flatMap_eq_nil_iff.mpr, List.flatMap_eq_nil_iff.mpr]
    · rfl
    · intro i _
      have hall := WayThread.takesOut_of_idle (tagAccount (bufOf k)) (trace_way h i) (hnone i) rfl
      refine List.flatMap_eq_nil_iff.mpr fun txn htxn => List.flatMap_eq_nil_iff.mpr fun st hst => ?_
      have hfrom := List.flatMap_eq_nil_iff.mp (List.flatMap_eq_nil_iff.mp hall txn htxn) st hst
      cases st with
      | copyTags j rows =>
        by_cases hj : j = k
        · subst hj
          rw [show Statement.tagsFrom (bufOf j) (.copyTags j rows) = rows from if_pos rfl] at hfrom
          rw [hfrom]
          exact ite_self _
        · exact if_neg hj
      | _ => rfl
    · exact fun i _ => tagsTo_none ((tags_of_threads h).1 i) hk
  rw [db_eq h, rows_offer k hcopies, tags_offer k hcopies, hrows, htags, insertRows_nil, List.append_nil]
  exact ⟨rfl, rfl⟩

end

/-! ## The node threads of the resumed import -/

theorem sharded_loop (N : ℕ) (v : Vars) (blobs : List (ℕ × List OSMEntry)) :
    (loopActions N .merging v blobs).filterMap Action.sharded = [] := by
  have hshut : (shutdownNodes N).filterMap Action.sharded = [] := shutdownNodes_observed fun _ => rfl
  have hstep : ∀ (b : ℕ) (v : Vars) (entry : OSMEntry),
      (step N .merging b v entry).2.filterMap Action.sharded = [] := by
    intro b v entry
    have hend : (endNodePhase N b v).filterMap Action.sharded = [] := by
      unfold endNodePhase
      split
      · rw [List.filterMap_append, hshut]
        rfl
      · rfl
    have hnote : (noteRelation b v entry).filterMap Action.sharded = [] := by
      unfold noteRelation
      split <;> rfl
    unfold step
    split
    · rfl
    · dsimp only
      rw [if_neg (by simp), List.filterMap_append, List.filterMap_append, hend, hnote]
      rfl
  have hbatch : ∀ (b : ℕ) (v : Vars) (batch : List OSMEntry),
      (batchActions N .merging b v batch).2.filterMap Action.sharded = [] := by
    intro b v batch
    induction batch generalizing v with
    | nil => rfl
    | cons entry batch ih =>
      show ((step N .merging b v entry).2 ++ (batchActions N .merging b _ batch).2).filterMap _ = []
      rw [List.filterMap_append, hstep, ih]
      rfl
  induction blobs generalizing v with
  | nil => rfl
  | cons blob blobs ih =>
    show ((batchActions N .merging blob.1 v blob.2).2 ++ loopActions N .merging _ blobs).filterMap _ = []
    rw [List.filterMap_append, hbatch, ih]
    rfl

/-- No nodes are handed to them. -/
theorem shard_merging (i N : ℕ) (read : List (ℕ × List OSMEntry) × Ending) :
    shard i (actions N .merging read) = [] := by
  rw [shard, actions_observed (fun _ => rfl) rfl, sharded_loop]
  rfl

/-- When the node threads have been joined, the merge is over. -/
theorem phase_of_joined {cfg : Config} {offer : Database → List Statement → Database} {osmmap : OSMMMap}
    {db : Database} {script : List Action} {log : List ImportEvent} {s : Import}
    (hskip : skip_nodes cfg.resume_phase = false)
    (h : Trace (Import.Step cfg offer) (Import.start cfg osmmap db script) log s)
    (hjoin : .joinNodes ∈ script) (hend : s.script = []) :
    s.shared.node_barrier.phase = 1 ∧ ∀ i < cfg.nodeWorkers, (s.node i).status ≠ .before := by
  have hended : ∀ i < cfg.nodeWorkers, (s.node i).Ended := by
    refine (ended_of_joined h).1 ?_
    rw [← List.append_nil (produced log), ← hend, produced_script h]
    exact hjoin
  have hworkers := nodeWorkers_of_nodes hskip
  have hpassed : (s.node 0).status = .passed := by
    rw [NodeThread.status, (hended 0 (hworkers ▸ cfg.node_threads_pos)).1]
  obtain ⟨hphase, hall⟩ := (node_barrier h).oneShot.all_arrived cfg.node_threads_pos hpassed
  exact ⟨hphase, fun i hi => hall i (hworkers ▸ hi)⟩

/-- Only node threads insert into shards. -/
theorem shardOps_none {N : ℕ} {log : List ImportEvent} (hlt : ∀ i act, .thread (.node i) act ∈ log → i < N)
    (hnone : ∀ i < N, storedBy i log = []) : log.filterMap ImportEvent.shardOp = [] := by
  refine List.filterMap_eq_nil_iff.mpr fun e he => ?_
  cases e with
  | thread who act =>
    cases who with
    | way i => cases act <;> rfl
    | node i =>
      cases act with
      | store n record =>
        have hmem : n ∈ storedBy i log := List.mem_filterMap.mpr ⟨_, mem_acts.mpr he, rfl⟩
        rw [hnone i (hlt i _ he)] at hmem
        cases hmem
      | _ => rfl
  | _ => rfl

namespace ResumedMerge

variable {fmt : Formats} {chk : Checks} {cfg : Config} {file : OrderedFile fmt} {max_id : Int64}
  {crashed : Import} (again : ResumedMerge chk cfg file max_id crashed)

/-- What the producer does. -/
def script : List Action := Producer.run again.cfg'.node_threads .merging fmt file.bytes
  (file.offsetFiles cfg again.keep_offset again.keep_relations_offset)

theorem builds : Builds again.cfg' (Database.offer chk) file.ways file.relations again.osmmap
    crashed.shared.db again.script again.log again.finished where
  phase := by simp [again.resumes]
  sensible := by
    rw [again.resumes]
    exact sensible_actions again.cfg'.node_threads_pos _
  handed := by
    rw [again.resumes, script, Producer.run, actedOn_actions, decide_eq_false (by simp)]
    exact (reads_behind_nodes file cfg (.inl rfl) _ _).2
  run := again.run

theorem eof : (batches fmt file.bytes (seekPosition .merging
    (file.offsetFiles cfg again.keep_offset again.keep_relations_offset))).2 = .eof :=
  (reads_behind_nodes file cfg (.inl rfl) _ _).1

theorem skip : skip_nodes again.cfg'.resume_phase = false := by
  rw [again.resumes]
  rfl

theorem joined : again.finished.shared.node_barrier.phase = 1 ∧
    ∀ i < again.cfg'.nodeWorkers, (again.finished.node i).status ≠ .before := by
  refine phase_of_joined again.skip again.run ?_ again.ended
  simp [Producer.run, actions, again.eof, finish]

/-- The node threads store nothing. -/
theorem stored_none {i : ℕ} (hi : i < again.cfg'.nodeWorkers) : storedBy i again.log = [] := by
  have hall := storedBy_eq again.run again.builds.sensible (again.joined.2 i hi)
  rw [Producer.run, shard_merging] at hall
  exact List.map_eq_nil_iff.mp hall

/-- They do not touch the tables of the nodes. -/
theorem node_tables : again.finished.shared.db.rows .node = crashed.shared.db.rows .node ∧
    again.finished.shared.db.tags .node = crashed.shared.db.tags .node := by
  have hcopies := copiesOnly_log (fun i => (NodeThread.onlyNodes_fresh i).copies)
    (fun _ _ => WayThread.inserting_fresh) again.run
  have hquiet : ∀ {α : Type} (a : KeptAccount α) (i : ℕ), i < again.cfg'.nodeWorkers →
      a.held (NavDB.fresh i) = [] → WayThread.takesOut a (acts (.node i) again.log) = [] := by
    intro α a i hi hempty
    have hall := NodeThread.conserved_nodes a (trace_node again.run i)
    rw [show (acts (.node i) again.log).filterMap Act.stored = [] from again.stored_none hi] at hall
    replace hall : WayThread.takesOut a _ ++ _ = a.held (NavDB.fresh i) ++ [] := hall
    rw [hempty] at hall
    exact (List.append_eq_nil_iff.mp hall).1
  have hrows : copiedRows .node (again.log.filterMap ImportEvent.committed) = [] := by
    refine List.perm_nil.mp ((perm_committed again.run _).trans (List.Perm.of_eq ?_))
    rw [List.flatMap_eq_nil_iff.mpr, List.flatMap_eq_nil_iff.mpr]
    · rfl
    · exact fun i _ => (WayThread.buf_node WayThread.inserting_fresh rfl rfl (trace_way again.run i)).2
    · exact fun i hi => hquiet (rowAccount .node) i (List.mem_range.mp hi) rfl
  have htags : copiedTagRows .node (again.log.filterMap ImportEvent.committed) = [] := by
    refine List.perm_nil.mp ((perm_committed again.run _).trans (List.Perm.of_eq ?_))
    rw [List.flatMap_eq_nil_iff.mpr, List.flatMap_eq_nil_iff.mpr]
    · rfl
    · exact fun i _ => tagsTo_none ((tags_of_threads again.run).2 i) (by simp)
    · intro i hi
      refine Eq.trans (tagsTo_from ((tags_of_threads again.run).1 i) fun st hst => ?_)
        (hquiet (tagAccount .shared) i (List.mem_range.mp hi) rfl)
      cases st with
      | copyTags j rows =>
        obtain rfl := hst j rows rfl
        rfl
      | _ => rfl
  rw [db_eq again.run, rows_offer .node hcopies, tags_offer .node hcopies, hrows, htags, insertRows_nil,
    List.append_nil]
  exact ⟨rfl, rfl⟩

/-- Its store is the one that it has opened, merged. -/
theorem store_eq : again.finished.shared.osmmap = merge cfg.lz4 again.osmmap := by
  have hops := shardOps_none (fun i act hmem => (thread_lt again.run hmem).1 i rfl)
    fun i hi => again.stored_none hi
  obtain ⟨st, hrun, -, hmerged⟩ := osmmap_eq again.run
  rw [hops] at hrun
  rw [hmerged again.joined.1, again.lz4, Except.ok.inj (hrun : Except.ok again.osmmap = .ok st)]

end ResumedMerge

/-! ## The comparison -/

/-- The files of the shards that were open at the crash hold all records that were inserted. -/
def ResumedMerge.Complete {fmt : Formats} {chk : Checks} {cfg : Config} {file : OrderedFile fmt}
    {max_id : Int64} (run : InterruptedMerge chk cfg file)
    (again : ResumedMerge chk cfg file max_id run.crashed) : Prop :=
  let disk := crash cfg.lz4 again.reached (mergeUntil cfg.lz4 run.crashed.shared.osmmap again.cp)
  ∀ k, again.cp.closed ≤ k → k < cfg.node_threads →
    diskRecords cfg.lz4 disk k = (storedBy k run.during).map (NodeThread.record cfg)

namespace InterruptedMerge

variable {fmt : Formats} {chk : Checks} {cfg : Config} {file : OrderedFile fmt}
  (run : InterruptedMerge chk cfg file)

include run in
theorem skip : skip_nodes cfg.resume_phase = false := by
  rw [run.fresh]
  rfl

/-- An import that is not interrupted. -/
theorem full : Trace (Import.Step cfg (Database.offer chk))
    (Import.start cfg run.osmmap run.db (file.script cfg)) (run.during ++ run.after) run.finished :=
  run.crash.append run.finish

theorem arrived {i : ℕ} (hi : i < cfg.nodeWorkers) : (run.crashed.node i).status ≠ .before :=
  arrived_of_merging run.crash run.merging hi

theorem arrived_all : ∀ i < cfg.node_threads, (run.crashed.node i).status ≠ .before :=
  fun _ hi => run.arrived ((nodeWorkers_of_nodes run.skip).symm ▸ hi)

/-- The store is the one that the merge has found, merged. -/
theorem store_eq : run.finished.shared.osmmap = merge cfg.lz4 run.crashed.shared.osmmap := by
  have hphase := (phase_of_joined run.skip run.full (by
    simp [OrderedFile.script, Producer.run, actions, Producer.finish,
      show seekPosition .nodes _ = 0 from rfl, file.complete]) run.ended).1
  have hops : run.after.filterMap ImportEvent.shardOp = [] := by
    refine shardOps_none (fun i act hmem => (thread_lt run.full (List.mem_append_right _ hmem)).1 i rfl) ?_
    exact fun i hi => (NodeThread.stored_of_arrived (run.arrived hi) (node_steps run.finish i)).2
  obtain ⟨st, hrun, hzero, -⟩ := osmmap_eq run.crash
  obtain ⟨st', hrun', -, hone⟩ := osmmap_eq run.full
  rw [List.filterMap_append, hops, List.append_nil] at hrun'
  rw [hone hphase, hzero (phase_of_merging run.crash run.merging)]
  exact congrArg (merge cfg.lz4) (Except.ok.inj (hrun'.symm.trans hrun))

/-- The inserts that the merge has found. -/
theorem inserts_eq : runOps CHUNK_SIZE run.osmmap (run.during.filterMap ImportEvent.shardOp) =
    .ok run.crashed.shared.osmmap := by
  obtain ⟨st, hrun, hzero, -⟩ := osmmap_eq run.crash
  rw [hzero (phase_of_merging run.crash run.merging), hrun]

/-- Nothing is added to the tables of the nodes. -/
theorem node_tables : run.finished.shared.db.rows .node = run.crashed.shared.db.rows .node ∧
    run.finished.shared.db.tags .node = run.crashed.shared.db.tags .node := by
  have hcopies := copiesOnly_log (fun i => (NodeThread.onlyNodes_fresh i).copies)
    (fun _ _ => WayThread.inserting_fresh) run.full
  rw [List.filterMap_append] at hcopies
  have hafter := (copiesOnly_append.mp hcopies).2
  obtain ⟨hrows, htags⟩ := nodes_of_arrived run.crash (fun _ hi => run.arrived hi) run.finish
  rw [db_eq run.finish, rows_offer .node hafter, tags_offer .node hafter, hrows, htags, insertRows_nil,
    List.append_nil]
  exact ⟨rfl, rfl⟩

variable {max_id : Int64} (again : ResumedMerge chk cfg file max_id run.crashed)

/-- The resumed import finds the same nodes exactly if no record was lost. -/
theorem same_select_iff (hst : Created max_id cfg.node_threads run.osmmap) (hfile : file.Distinct max_id) :
    again.finished.shared.osmmap.select = run.finished.shared.osmmap.select ↔ again.Complete := by
  have hfit := insertsFit run.fresh run.crash run.arrived_all hfile.range
  have hstored := nodesStored run.fresh run.crash run.arrived_all
  have hmajor : (shardMajor cfg.node_threads (run.during.filterMap ImportEvent.shardOp)).Perm
      (file.nodes.map (NodeThread.record cfg)) := by
    refine List.Perm.trans (List.Perm.of_eq ?_) (hstored.map (NodeThread.record cfg))
    rw [shardMajor, List.map_flatMap]
    exact List.flatMap_congr fun i _ => recordsAt_eq run.crash i
  have hnodup : (((run.during.filterMap ImportEvent.shardOp).filterMap ShardOp.inserted).map
      fun p => p.2.id).Nodup := by
    have hids := ((shardMajor_perm fun p hp => (hfit p hp).1).symm.trans hmajor).map Record.id
    rw [List.map_map, List.map_map] at hids
    exact hids.nodup_iff.mpr hfile.nodes
  obtain ⟨resumed, hopen, -, hiff⟩ := exists_remerged (fresh_of_created hst) CHUNK_SIZE _ hfit
    again.inside again.reached
  rw [← filled_of_run run.inserts_eq] at hopen hiff
  have hon : again.osmmap = resumed.on again.platform := by
    have hreopened := again.reopened
    rw [again.node_threads] at hreopened
    rw [eq_resumed rfl rfl hreopened, eq_resumed rfl rfl hopen]
    rfl
  rw [again.store_eq, run.store_eq, hon, merge_on, funext_iff]
  refine (hiff hnodup).trans (forall_congr' fun k => imp_congr_right fun _ => imp_congr_right fun _ => ?_)
  rw [recordsAt_eq run.crash]

/-- Resumed with the same positions of nodes, an import leaves the same tables. -/
theorem same_outcome (hfile : file.Distinct max_id) (hties : cfg.KeepsTies)
    (hselect : again.finished.shared.osmmap.select = run.finished.shared.osmmap.select) :
    SameOutcome run.finished.shared.db again.finished.shared.db := by
  have huntouched : ∀ k, k ≠ .node → run.crashed.shared.db.rows k = run.db.rows k ∧
      run.crashed.shared.db.tags k = run.db.tags k := fun k hk =>
    untouched_of_merging run.skip (sensible_fresh run.fresh) run.crash run.merging hk
  have hjoin' : .joinWays ∈ again.script := joinWays_mem again.eof
  have hfull := (builds_fresh run.fresh run.full).inserted (joinWays_mem file.complete) run.ended
    hfile.ways hfile.relations hties (d := run.db) fun _ _ => rfl
  have hties' : again.cfg'.KeepsTies := fun stored points h => hties stored points (again.ties ▸ h)
  have hagain := again.builds.inserted hjoin' again.ended hfile.ways hfile.relations hties' (d := run.db)
    fun k hk => (huntouched k (by rcases hk with rfl | rfl <;> nofun)).1
  rw [hselect, wayInserts_congr again.env, relationInserts_congr again.env again.dumpPoints] at hagain
  have hnd := fun k => nodup_wayInserts cfg run.finished.shared.osmmap.select k hfile.ways
  have hnd' : ∀ k, ((rowsOf k (relationInserts cfg (geogs (run.db.addCalls chk
      (wayInserts cfg run.finished.shared.osmmap.select file.ways))) file.relations)).map Row.id).Nodup :=
    fun k => WayThread.nodup_calls k hfile.relations.distinct
  have hbuilt : ∀ k, k = .way ∨ k = .area →
      (run.finished.shared.db.rows k).Perm (again.finished.shared.db.rows k) ∧
      (run.finished.shared.db.tags k).Perm (again.finished.shared.db.tags k) := by
    intro k hk
    obtain ⟨hrows, htags⟩ := huntouched k (by rcases hk with rfl | rfl <;> nofun)
    exact hfull.same hagain hk (hnd k) (hnd' k) hrows.symm htags.symm
  have hcopied : ∀ k, k = .relation ∨ k = .road →
      (run.finished.shared.db.rows k).Perm (again.finished.shared.db.rows k) := by
    intro k hk
    obtain ⟨hperm, hrows⟩ := hfull.copied k hk
    obtain ⟨hperm', hrows'⟩ := hagain.copied k hk
    rw [hrows, hrows', (huntouched k (by rcases hk with rfl | rfl <;> nofun)).1]
    exact insertRows_perm (List.Perm.refl _) (hperm.trans hperm'.symm)
      ((hperm.map Row.id).nodup_iff.mpr (hnd' k))
  have hsequence : run.finished.shared.db.sequence = again.finished.shared.db.sequence := by
    have hcopies := copiesOnly_log (fun i => (NodeThread.onlyNodes_fresh i).copies)
      (fun _ _ => WayThread.inserting_fresh) run.full
    have hcrashed := copiesOnly_log (fun i => (NodeThread.onlyNodes_fresh i).copies)
      (fun _ _ => WayThread.inserting_fresh) run.crash
    have hcopies' := copiesOnly_log (fun i => (NodeThread.onlyNodes_fresh i).copies)
      (fun _ _ => WayThread.inserting_fresh) again.run
    rw [db_eq run.full, sequence_offer hcopies, db_eq again.run, sequence_offer hcopies']
    show run.db.sequence = run.crashed.shared.db.sequence
    rw [db_eq run.crash, sequence_offer hcrashed]
    rfl
  refine ⟨fun k => ?_, fun k hrelation hroad => ?_, ?_, hsequence⟩
  · cases k with
    | node => rw [run.node_tables.1, ← again.node_tables.1]
    | way => exact (hbuilt .way (.inl rfl)).1
    | area => exact (hbuilt .area (.inr rfl)).1
    | relation => exact hcopied .relation (.inl rfl)
    | road => exact hcopied .road (.inr rfl)
  · cases k with
    | node => rw [run.node_tables.2, ← again.node_tables.2]
    | way => exact (hbuilt .way (.inl rfl)).2
    | area => exact (hbuilt .area (.inr rfl)).2
    | relation => exact absurd rfl hrelation
    | road => exact absurd rfl hroad
  · refine hfull.shared.trans ?_
    have hshared := hagain.shared
    rw [(huntouched .relation (by simp)).2, (huntouched .road (by simp)).2] at hshared
    exact hshared.symm

end InterruptedMerge

/-- **Resuming at the merge.** However far the merge was when a fresh import dies in it, the import that is
resumed with `-R merge` finds the same nodes exactly if the files of the shards that were still open hold
all their records; and then it ends with the same tables as one that was not interrupted. -/
theorem resume_merge {fmt : Formats} {chk : Checks} {cfg : Config} {file : OrderedFile fmt} {max_id : Int64}
    (hfile : file.Distinct max_id) (hties : cfg.KeepsTies) (run : InterruptedMerge chk cfg file)
    (hst : Created max_id cfg.node_threads run.osmmap) (again : ResumedMerge chk cfg file max_id run.crashed) :
    (again.finished.shared.osmmap.select = run.finished.shared.osmmap.select ↔ again.Complete) ∧
      (again.Complete → SameOutcome run.finished.shared.db again.finished.shared.db) := by
  have hiff := run.same_select_iff again hst hfile
  exact ⟨hiff, fun hcomplete => run.same_outcome again hfile hties (hiff.mpr hcomplete)⟩

/-- Where the platform has room for its nodes, a fresh import comes to its merge, and can be interrupted
there. -/
theorem exists_interruptedMerge {fmt : Formats} (chk : Checks) {cfg : Config}
    (hphase : cfg.resume_phase = .nodes) (file : OrderedFile fmt) {osmmap : OSMMMap}
    (hroom : HasRoom cfg osmmap (file.script cfg)) (db : Database) :
    ∃ run : InterruptedMerge chk cfg file, run.osmmap = osmmap := by
  have hstart : Trace (Import.Step cfg (Database.offer chk))
    (Import.start cfg osmmap db (file.script cfg)) [] _ := .nil
  obtain ⟨log, s, h, hend⟩ := Import.finishes (sensible_fresh hphase) hroom hstart
  rw [List.nil_append] at h
  obtain ⟨-, -, hmarks⟩ := delivered hphase h hend
  have hmem : .mergeStarted ∈ log := by
    have hstarted : MergeMark.started ∈ mergeMarks log := hmarks ▸ List.mem_cons_self
    obtain ⟨e, he, hmark⟩ := List.mem_filterMap.mp hstarted
    cases e <;> cases hmark
    exact he
  obtain ⟨before, after, rfl⟩ := List.append_of_mem hmem
  rw [List.append_cons] at h
  obtain ⟨crashed, hcrash, hfinish⟩ := h.split
  obtain ⟨mid, -, hstep⟩ := hcrash.last
  cases hstep
  exact ⟨⟨hphase, osmmap, db, _, after, _, s, hcrash, rfl, hfinish, hend⟩, rfl⟩

/-- Every store that a dead merge leaves behind and that opens again is one whose merge can be resumed. -/
theorem exists_resumedMerge {fmt : Formats} (chk : Checks) {cfg : Config} (file : OrderedFile fmt)
    {max_id : Int64} {crashed : Import} {cp : CrashPoint} (inside : cp.Inside cfg.node_threads)
    {reached : ℕ → ℕ} {plat : Platform} {osmmap : OSMMMap}
    (hopen : openStore plat (crash cfg.lz4 reached (mergeUntil cfg.lz4 crashed.shared.osmmap cp)) max_id
      cfg.node_threads false = .ok osmmap) :
    ∃ again : ResumedMerge chk cfg file max_id crashed, again.cp = cp ∧ again.reached = reached := by
  let cfg' : Config := { cfg with resume_phase := .merging }
  let script := Producer.run cfg'.node_threads .merging fmt file.bytes (file.offsetFiles cfg true true)
  have hstart : Trace (Import.Step cfg' (Database.offer chk))
    (Import.start cfg' osmmap crashed.shared.db script) [] _ := .nil
  have hroom : HasRoom cfg' osmmap script := by
    intro i n hmem
    have hshard : .node n ∈ shard i script :=
      List.mem_map.mpr ⟨(i, .node n), List.mem_filter.mpr
        ⟨List.mem_filterMap.mpr ⟨_, hmem, rfl⟩, decide_eq_true rfl⟩, rfl⟩
    have hnone : shard i script = [] := shard_merging ..
    rw [hnone] at hshard
    cases hshard
  obtain ⟨log, s, h, hend⟩ := Import.finishes (sensible_actions cfg'.node_threads_pos _) hroom hstart
  exact ⟨⟨cfg', rfl, rfl, rfl, rfl, rfl, rfl, true, true, cp, inside, reached, plat, osmmap, hopen, log, s, h,
    hend⟩, rfl, rfl⟩

/-- A shard whose input buffer was handed to LZ4, and all of whose frame has reached its file. -/
theorem diskRecords_flushed (lz4 : Lz4) {st : OSMMMap} {i : ℕ} {s : ShardWriter}
    (hs : st.shards[i]? = some (some s)) {reached : ℕ → ℕ}
    (hreached : (lz4.encode (flushInbuf s).chunks).length ≤ reached i) :
    diskRecords lz4 (crash lz4 reached (mergeUntil lz4 st (.closing i true))) i = mergeInput lz4 st i := by
  have hopen : (mergeUntil lz4 st (.closing i true)).shards[i]? = some (some (flushInbuf s)) := by
    have hsame := (mergeFirst_sameShards lz4 st i i le_rfl).1.trans hs
    simp [mergeUntil, flushShard, hsame]
  simp only [diskRecords, crash, hopen, mergeInput, closedFile, hs, List.take_of_length_le hreached]

theorem pond_shard : shard 1 (pondFile.script pondConfig) ≠ [] := by
  rw [pondFile, script_oneBlob]
  decide

/-- The process dies while it closes the second shard, whose file is complete, and the merge of that shard is
done again. -/
theorem resume_merge_pond : ∃ (run : InterruptedMerge Checks.any pondConfig pondFile)
    (again : ResumedMerge Checks.any pondConfig pondFile 10 run.crashed),
    again.cp = .closing 1 true ∧ storedBy 1 run.during ≠ [] ∧
      SameOutcome run.finished.shared.db again.finished.shared.db := by
  obtain ⟨st, hst, hplat⟩ := OSMMMap.created_ten
  obtain ⟨run, rfl⟩ := exists_interruptedMerge Checks.any pond_fresh pondFile (pond_hasRoom hplat) blankDb
  have hfile : pondFile.Distinct 10 := ⟨by decide, by decide, by decide, pond_unambiguous⟩
  have hfit := insertsFit run.fresh run.crash run.arrived_all hfile.range
  have hstored := storedBy_eq run.crash (sensible_fresh pond_fresh) (run.arrived_all 1 (by decide))
  have hstream : streamAt run.crashed.shared.osmmap 1 = some ((recordsAt
      (run.during.filterMap ImportEvent.shardOp) 1).map Record.pack).flatten := by
    rw [filled_of_run run.inserts_eq, streamAt_filled, (fresh_of_created hst).stream 1 (by decide)]
    rfl
  obtain ⟨s, hs, -⟩ := open_of_streamAt hstream
  have hinside : (CrashPoint.closing 1 true).Inside pondConfig.node_threads := Nat.le_succ 1
  obtain ⟨osmmap, hopen, -⟩ := exists_remerged (fresh_of_created hst) CHUNK_SIZE _ hfit
    hinside fun _ => (pondConfig.lz4.encode (flushInbuf s).chunks).length
  rw [← filled_of_run run.inserts_eq] at hopen
  obtain ⟨again, hcp, hreached⟩ := exists_resumedMerge Checks.any pondFile hinside hopen
  refine ⟨run, again, hcp, fun hnil => ?_, (resume_merge hfile pond_ties run hst again).2 fun k hclosed hk => ?_⟩
  · rw [hnil] at hstored
    exact pond_shard hstored.symm
  · rw [hcp] at hclosed
    obtain rfl : k = 1 := by
      have hlt : k < 2 := hk
      simp only [CrashPoint.closed] at hclosed
      omega
    rw [hcp, hreached, diskRecords_flushed pondConfig.lz4 hs le_rfl, mergeInput_of_stream _ hstream,
      recordsAt_eq run.crash]

end OsmImport
