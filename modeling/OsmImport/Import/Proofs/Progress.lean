import OsmImport.Import.Proofs.Delivery

/-!
# No deadlock

A thread that cannot step waits for its queue or its barrier, or has ended. It does not wait for a queue
that was shut down, and when all threads wait for a barrier, the barrier is released. So whatever the
producer waits for, something else can happen.
-/

namespace OsmImport

open NavDB Producer

variable {cfg : Config} {offer : Database → List Statement → Database} {osmmap : OSMMMap}
  {db : Database} {script : List Action} {log : List ImportEvent} {s : Import}

/-- Something can happen, if only an exception. -/
def Live (cfg : Config) (offer : Database → List Statement → Database) (s : Import) : Prop :=
  (∃ e s', Import.Step cfg offer s e s') ∨ s.Refused cfg

/-- The thread has to wait for its queue. -/
def Starved (q : BlockingQueue OSMEntry) : Prop := q.items = [] ∧ q.stop = false

theorem queue_cases (q : BlockingQueue OSMEntry) :
    (∃ entry rest, q.items = entry :: rest) ∨ (q.items = [] ∧ q.stop = true) ∨ Starved q := by
  obtain ⟨items, stop⟩ := q
  cases items with
  | nil => cases stop <;> simp [Starved]
  | cons entry rest => simp

theorem live_node {i : ℕ} {act : Act} {t : NodeThread} {sh' : Shared} (hi : i < cfg.nodeWorkers)
    (ht : NodeThread.Step cfg (s.node i) act t) (he : Effect cfg offer (.node i) s.shared sh' act) :
    Live cfg offer s := .inl ⟨_, _, .node hi ht he⟩

theorem live_way {i : ℕ} {act : Act} {t : WayThread} {sh' : Shared} (hi : i < cfg.way_threads)
    (ht : WayThread.Step cfg (s.way i) act t) (he : Effect cfg offer (.way i) s.shared sh' act) :
    Live cfg offer s := .inl ⟨_, _, .way hi ht he⟩

/-- A node thread steps, or waits, or has ended. -/
theorem node_progress {i : ℕ} (hi : i < cfg.nodeWorkers)
    (ho : NodeThread.Orderly (acts (.node i) log) (s.node i))
    (hb : Barrier.OneShot cfg.node_threads s.shared.node_barrier fun i => (s.node i).status) :
    Live cfg offer s ∨ (s.node i).Ended ∨ Starved (s.shared.node_queues i) ∨
      (s.node i).status = .waiting 0 ∧ s.shared.node_barrier.phase = 0 := by
  cases hout : (s.node i).outbox with
  | cons txn rest => exact .inl (live_node hi (.commit hout) rfl)
  | nil =>
    cases hpc : (s.node i).pc with
    | pop =>
      rcases queue_cases (s.shared.node_queues i) with ⟨entry, rest, hitems⟩ | ⟨hitems, hstop⟩ | hst
      · cases hn : entry.isNode with
        | true =>
          cases entry with
          | node n => exact .inl (live_node hi (.take n hout hpc) ⟨rest, hitems, rfl⟩)
          | way w => cases hn
          | relation r => cases hn
        | false => exact .inl (live_node hi (.takeOther hn hout hpc) ⟨rest, hitems, rfl⟩)
      · exact .inl (live_node hi (.drained hout hpc) ⟨hitems, hstop, rfl⟩)
      · exact .inr (.inr (.inl hst))
    | item n =>
      cases hins : s.shared.osmmap.insert CHUNK_SIZE i (NodeThread.record cfg n) with
      | ok osmmap => exact .inl (live_node hi (.store hout hpc) ⟨i, osmmap, rfl, hins, rfl⟩)
      | error e => exact .inl (.inr ⟨i, hi, n, hpc, hout, e, hins⟩)
    | forwarding entry => exact absurd hpc (ho.holds entry)
    | finalizing => exact .inl (live_node hi (.finalize hout hpc) rfl)
    | arriving =>
      have hbefore : (s.node i).status = .before := by simp [NodeThread.status, hpc]
      have hlt := (hb.of_before (hi.trans_le nodeWorkers_le) hbefore).2
      exact .inl (live_node hi (.arrive _ hout hpc) ⟨rfl, hlt, rfl⟩)
    | waiting p =>
      have hwaiting : (s.node i).status = .waiting p := by simp [NodeThread.status, hpc]
      rcases hb.of_waiting (hi.trans_le nodeWorkers_le) hwaiting with hp | ⟨rfl, hphase⟩
      · exact .inl (live_node hi (.wake hout hpc) ⟨hp, rfl⟩)
      · exact .inr (.inr (.inr ⟨hwaiting, hphase⟩))
    | destroying => exact .inl (live_node hi (.destroy hout hpc) rfl)
    | done => exact .inr (.inl ⟨hpc, hout⟩)

/-- With the ways skipped, there is no barrier to wait for. -/
theorem passed_of_skip (hphase : cfg.resume_phase = .relations)
    (h : Trace (Import.Step cfg offer) (Import.start cfg osmmap db script) log s) (i : ℕ) :
    (s.way i).way_phase_done = true ∧ (s.way i).status = .passed := by
  refine (trace_way h i).invariant
    (I := fun _ t => t.way_phase_done = true ∧ t.status = .passed) ?_ ?_
  · have hflag : decide (cfg.resume_phase = .relations) = true := by simp [hphase]
    rw [hflag]
    exact ⟨rfl, rfl⟩
  · rintro _ t act t' - ⟨hflag, hstatus⟩ hstep
    have hmoves := hstep.moves
    have hflag' : t'.way_phase_done = true := by
      cases hstep with
      | wakeRelation _ _ => rfl
      | _ => exact hflag
    refine ⟨hflag', ?_⟩
    cases act with
    | arrive p =>
      rw [hstatus] at hmoves
      cases hmoves.1
    | wake p =>
      rw [hstatus] at hmoves
      cases hmoves.1
    | _ => exact (show t'.status = t.status from hmoves).trans hstatus

/-- The server has an answer to `getWayCoordsMap`. -/
theorem exists_points (cfg : Config) (db : Database) (ids : List Int64) :
    ∃ points : Int64 → List Coord, ∀ id, if id ∈ ids then
      cfg.ties (storedPoints cfg.dumpPoints (geogs db id)) (points id) else points id = [] := by
  choose order horder using cfg.ties_exists
  refine ⟨fun id => if id ∈ ids then order (storedPoints cfg.dumpPoints (geogs db id)) else [], fun id => ?_⟩
  by_cases hid : id ∈ ids
  · simpa only [if_pos hid] using horder _
  · simp only [if_neg hid]

/-- A way thread steps, or waits, or has ended. -/
theorem way_progress {i : ℕ} (hi : i < cfg.way_threads)
    (hb : (s.way i).status = .passed ∨
      Barrier.OneShot cfg.way_threads s.shared.way_barrier fun i => (s.way i).status) :
    Live cfg offer s ∨ (s.way i).Ended ∨ Starved s.shared.way_q ∨
      (s.way i).status = .waiting 0 ∧ s.shared.way_barrier.phase = 0 := by
  cases hout : (s.way i).outbox with
  | cons txn rest => exact .inl (live_way hi (.commit hout) rfl)
  | nil =>
    cases hpc : (s.way i).pc with
    | pop =>
      rcases queue_cases s.shared.way_q with ⟨entry, rest, hitems⟩ | ⟨hitems, hstop⟩ | hst
      · exact .inl (live_way hi (.take entry hout hpc) ⟨rest, hitems, rfl⟩)
      · exact .inl (live_way hi (.drained hout hpc) ⟨hitems, hstop, rfl⟩)
      · exact .inr (.inr (.inl hst))
    | locating w refs coords =>
      cases refs with
      | nil => exact .inl (live_way hi (.located hout hpc) rfl)
      | cons id refs => exact .inl (live_way hi (.select _ hout hpc) ⟨rfl, rfl⟩)
    | collecting r members geoms =>
      cases members with
      | nil => exact .inl (live_way hi (.collected hout hpc) rfl)
      | cons m members => exact .inl (live_way hi (.getWay _ hout hpc) ⟨rfl, rfl⟩)
    | assembling r =>
      obtain ⟨points, hpoints⟩ := exists_points cfg s.shared.db (r.way_members.map RelationMember.id)
      exact .inl (live_way hi (.getWayCoordsMap points hout hpc) ⟨rfl, hpoints⟩)
    | inserting entry calls =>
      cases calls with
      | nil => exact .inl (live_way hi (.inserted hout hpc) rfl)
      | cons c calls => exact .inl (live_way hi (.insert hout hpc) rfl)
    | finalizingWays r => exact .inl (live_way hi (.finalizeWays hout hpc) rfl)
    | arriving r =>
      have hbefore : (s.way i).status = .before := by simp [WayThread.status, hpc]
      rcases hb with hb | hb
      · rw [hbefore] at hb
        cases hb
      · exact .inl (live_way hi (.arrive _ hout hpc) ⟨rfl, (hb.of_before hi hbefore).2, rfl⟩)
    | waiting p r =>
      have hwaiting : (s.way i).status = .waiting p := by simp [WayThread.status, hpc]
      have hwake : p < s.shared.way_barrier.phase → Live cfg offer s := by
        intro hp
        cases r with
        | none => exact live_way hi (.wakeDrained hout hpc) ⟨hp, rfl⟩
        | some r => exact live_way hi (.wakeRelation hout hpc) ⟨hp, rfl⟩
      rcases hb with hb | hb
      · rw [hwaiting] at hb
        cases hb
      · rcases hb.of_waiting hi hwaiting with hp | ⟨rfl, hphase⟩
        · exact .inl (hwake hp)
        · exact .inr (.inr (.inr ⟨hwaiting, hphase⟩))
    | finalizingRelations => exact .inl (live_way hi (.finalizeRelations hout hpc) rfl)
    | destroying => exact .inl (live_way hi (.destroy hout hpc) rfl)
    | done => exact .inr (.inl ⟨hpc, hout⟩)

/-- When `way_q` is shut down or not empty, the way threads can go on until they have ended. -/
theorem ways_progress
    (h : Trace (Import.Step cfg offer) (Import.start cfg osmmap db script) log s) (hq : ¬ Starved s.shared.way_q) :
    Live cfg offer s ∨ ∀ i < cfg.way_threads, (s.way i).Ended := by
  by_contra hnot
  push Not at hnot
  obtain ⟨hlive, i, hi, hended⟩ := hnot
  have hb : (∀ j, (s.way j).status = .passed) ∨
      Barrier.OneShot cfg.way_threads s.shared.way_barrier fun i => (s.way i).status := by
    by_cases hphase : cfg.resume_phase = .relations
    · exact .inl fun j => (passed_of_skip hphase h j).2
    · exact .inr (way_oneShot hphase h)
  have hcases : ∀ j < cfg.way_threads, (s.way j).Ended ∨
      (s.way j).status = .waiting 0 ∧ s.shared.way_barrier.phase = 0 := by
    intro j hj
    rcases way_progress hj (hb.imp_left fun hpassed => hpassed j) with hl | he | hst | hw
    · exact absurd hl hlive
    · exact .inl he
    · exact absurd hst hq
    · exact .inr hw
  obtain ⟨hwaiting, hphase⟩ := (hcases i hi).resolve_left hended
  rcases hb with hpassed | hb
  · rw [hpassed i] at hwaiting
    cases hwaiting
  · refine hlive (.inl ⟨_, _, .release (hb.full hphase fun j hj => ?_)⟩)
    rcases hcases j hj with ⟨hdone, -⟩ | ⟨hw, -⟩
    · simp [WayThread.status, hdone]
    · simp [hw]

section

variable (h : Trace (Import.Step cfg offer) (Import.start cfg osmmap db script) log s)
  (hs : Justified (Sensible cfg.node_threads cfg.resume_phase) script)
include h hs

/-- When their queues are shut down, the node threads run to their end. -/
theorem nodes_progress (hshut : ∀ i < cfg.node_threads, .shutdownNode i ∈ produced log) :
    Live cfg offer s ∨ ∀ i < cfg.nodeWorkers, (s.node i).Ended := by
  by_contra hnot
  push Not at hnot
  obtain ⟨hlive, i, hi, hended⟩ := hnot
  have hb := node_barrier h
  have hcases : ∀ j < cfg.nodeWorkers, (s.node j).Ended ∨
      (s.node j).status = .waiting 0 ∧ s.shared.node_barrier.phase = 0 := by
    intro j hj
    have hstop := (BlockingQueue.stop_iff (trace_queue h (.node j))).mpr
      (mem_shutdown_node.mpr (hshut j (hj.trans_le nodeWorkers_le)))
    rcases node_progress hj (orderly_node h hs j) hb.oneShot with hl | he | hst | hw
    · exact absurd hl hlive
    · exact .inl he
    · exact absurd hstop (by simp [Shared.queue, hst.2])
    · exact .inr hw
  obtain ⟨-, hphase⟩ := (hcases i hi).resolve_left hended
  -- in the first phase nobody has ended, so all wait, and the merge can go on
  have hworkers : cfg.nodeWorkers = cfg.node_threads := nodeWorkers_of_pos (Nat.zero_lt_of_lt hi)
  have hall : ∀ j < cfg.node_threads, (s.node j).status ≠ .before := by
    intro j hj
    rcases hcases j (hworkers.symm ▸ hj) with ⟨hdone, -⟩ | ⟨hw, -⟩
    · simp [NodeThread.status, hdone]
    · simp [hw]
  have hfull := hb.oneShot.full hphase hall
  cases hm : s.shared.merging with
  | false => exact hlive (.inl ⟨_, _, .mergeStart hfull hm⟩)
  | true => exact hlive (.inl ⟨_, _, .mergeFinish hm⟩)

/-- An import that has not come to its end can go on. -/
theorem progress (hscript : s.script ≠ []) : Live cfg offer s := by
  obtain ⟨action, rest, hrest⟩ := List.exists_cons_of_ne_nil hscript
  have hsens : Sensible cfg.node_threads cfg.resume_phase (produced log) action :=
    hs (produced log) action rest (by rw [← hrest, produced_script h])
  have hproducer : ∀ sh', Produces cfg s sh' action → Live cfg offer s :=
    fun sh' hp => .inl ⟨_, _, .producer hrest hp⟩
  cases action with
  | pushNode i entry =>
    obtain ⟨hskip, hi, -, hshut⟩ := hsens
    have hworker : i < cfg.nodeWorkers := (nodeWorkers_of_nodes hskip).symm ▸ hi
    cases hpush : (s.shared.node_queues i).canPush cfg.queue_size with
    | true => exact hproducer _ ⟨hpush, rfl⟩
    | false =>
      obtain ⟨hitems, hstop⟩ := BlockingQueue.nonempty_of_blocked cfg.queue_size_pos hpush
      have hloop : (s.node i).status ≠ .before → False := by
        intro hstatus
        have horderly := orderly_node h hs i
        have hdrained := horderly.drained (NodeThread.inLoop_of_status hstatus).1
        exact hitems (queue_of_drained h hs hdrained).1
      rcases node_progress hworker (orderly_node h hs i) (node_barrier h).oneShot with
        hl | ⟨hdone, -⟩ | hst | ⟨hw, -⟩
      · exact hl
      · exact (hloop (by simp [NodeThread.status, hdone])).elim
      · exact absurd hst.1 hitems
      · exact (hloop (by simp [hw])).elim
  | shutdownNode i => exact hproducer _ rfl
  | writeResumeOffset offset => exact hproducer _ rfl
  | waitMerge =>
    rcases nodes_progress h hs hsens with hl | hended
    · exact hl
    · refine hproducer _ ⟨?_, rfl⟩
      cases hskip : skip_nodes cfg.resume_phase with
      | true =>
        cases (node_barrier h).merge with
        | idle _ _ hd _ => exact hd.trans hskip
        | running _ _ hd _ _ => exact hd.trans hskip
        | finished _ _ hd _ => exact hd
      | false =>
        have hzero : 0 < cfg.nodeWorkers := (nodeWorkers_of_nodes hskip).symm ▸ cfg.node_threads_pos
        have hpassed : (s.node 0).status = .passed := by
          simp [NodeThread.status, (hended 0 hzero).1]
        have hphase := ((node_barrier h).oneShot.all_arrived cfg.node_threads_pos hpassed).1
        cases (node_barrier h).merge with
        | idle _ hzero _ _ => omega
        | running _ hzero _ _ _ => omega
        | finished _ _ hd _ => exact hd
  | writeRelationsResumeOffset offset => exact hproducer _ rfl
  | pushWay entry =>
    cases hpush : s.shared.way_q.canPush cfg.queue_size with
    | true => exact hproducer _ ⟨hpush, rfl⟩
    | false =>
      obtain ⟨hitems, hstop⟩ := BlockingQueue.nonempty_of_blocked cfg.queue_size_pos hpush
      rcases ways_progress h fun hst => hitems hst.1 with hl | hended
      · exact hl
      · have hdrained := (WayThread.placed (trace_way h 0)).leftLoop
          (by rw [(hended 0 cfg.way_threads_pos).1]; rfl)
        exact absurd (queue_of_drained h hs hdrained).1 hitems
  | joinNodes =>
    rcases nodes_progress h hs hsens with hl | hended
    · exact hl
    · exact hproducer _ ⟨hended, rfl⟩
  | shutdownWay => exact hproducer _ rfl
  | joinWays =>
    have hstop : s.shared.way_q.stop = true :=
      (BlockingQueue.stop_iff (trace_queue h (.way 0))).mpr (mem_shutdown_way.mpr hsens.2)
    have hq : ¬ Starved s.shared.way_q := by
      rintro ⟨-, hfalse⟩
      rw [hfalse] at hstop
      cases hstop
    rcases ways_progress h hq with hl | hended
    · exact hl
    · exact hproducer _ ⟨hended, rfl⟩

end

end OsmImport
