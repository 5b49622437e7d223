import OsmImport.Import.Proofs.Barriers
import OsmImport.Import.Proofs.Queues
import OsmImport.Lib.Partition

/-!
# What is delivered

A node thread at the barrier has inserted what the producer pushed to its queue, and a way thread takes
its first entry behind the merge.
-/

namespace OsmImport

open BlockingQueue Producer

variable {cfg : Config} {offer : Database → List Statement → Database} {osmmap : OSMMMap}
  {db : Database} {script : List Action} {log : List ImportEvent} {s : Import}

/-- The entries that a script pushes to a node queue. -/
def shard (i : ℕ) (script : List Action) : List OSMEntry :=
  ((script.filterMap Action.sharded).filter fun p => p.1 = i).map Prod.snd

theorem shard_append (i : ℕ) (a b : List Action) : shard i (a ++ b) = shard i a ++ shard i b := by
  simp [shard]

theorem pushed_shard (i : ℕ) (log : List ImportEvent) :
    (queueOps (.node i) log).filterMap Op.pushed = shard i (produced log) := by
  rw [queueOps, shard, produced, List.filterMap_filterMap, List.filterMap_filterMap,
    List.filter_filterMap, List.map_filterMap]
  apply List.filterMap_congr
  intro e _
  cases e with
  | producer a =>
    cases a with
    | pushNode j entry =>
      by_cases hji : j = i <;>
        simp [ImportEvent.queueOp, Action.queueOp, ImportEvent.action, Action.sharded, hji, Op.pushed]
    | _ =>
      simp [ImportEvent.queueOp, Action.queueOp, ImportEvent.action, Action.sharded, Op.pushed]
  | thread me a =>
    cases me <;> cases a <;>
      simp [ImportEvent.queueOp, Act.queueOp, ImportEvent.action, Op.pushed]
  | _ => rfl

/-- The producer waits until the merge is over. -/
theorem merge_done_of_waited
    (h : Trace (Import.Step cfg offer) (Import.start cfg osmmap db script) log s)
    (hw : .waitMerge ∈ produced log) : s.shared.merge_done = true := by
  induction h with
  | nil => cases hw
  | snoc _ hstep ih =>
    rw [produced_append] at hw
    cases hstep with
    | @producer action _ _ _ hp =>
      rcases List.mem_append.mp hw with hw | hw
      · rw [hp.barriers.merge_done]
        exact ih hw
      · obtain rfl : Action.waitMerge = action := List.mem_singleton.mp hw
        rw [hp.barriers.merge_done]
        exact hp.1
    | node _ _ he =>
      have hdone := ih ((List.mem_append.mp hw).resolve_right nofun)
      rcases he.barriers with hsame | ⟨rfl, -, rfl⟩
      · exact hsame.merge_done.trans hdone
      · exact hdone
    | way _ _ he =>
      have hdone := ih ((List.mem_append.mp hw).resolve_right nofun)
      rcases he.barriers with hsame | ⟨rfl, -, rfl⟩
      · exact hsame.merge_done.trans hdone
      · exact hdone
    | mergeStart _ _ => exact ih ((List.mem_append.mp hw).resolve_right nofun)
    | mergeFinish _ => rfl
    | release _ => exact ih ((List.mem_append.mp hw).resolve_right nofun)

section

variable (h : Trace (Import.Step cfg offer) (Import.start cfg osmmap db script) log s)
  (hs : Justified (Sensible cfg.node_threads cfg.resume_phase) script)
include h hs

/-- Once a node queue is shut down, everything was pushed to it. -/
theorem shard_of_shutdown {i : ℕ} (hshut : .shutdownNode i ∈ produced log) :
    shard i (produced log) = shard i script := by
  have hscript := produced_script h
  have hrest : shard i s.script = [] := by
    rw [shard, List.map_eq_nil_iff, List.filter_eq_nil_iff]
    rintro ⟨j, entry⟩ hmem
    obtain ⟨a, ha, hsharded⟩ := List.mem_filterMap.mp hmem
    cases a <;> cases hsharded
    rw [decide_eq_true_eq]
    rintro rfl
    rw [← hscript] at hs
    refine (hs.not_mem (a := .pushNode j entry) fun mid hP => ?_) ha
    exact hP.2.2.2 (List.mem_append_left mid hshut)
  rw [← hscript, shard_append, hrest, List.append_nil]

/-- At the barrier, a node thread has inserted its share. -/
theorem storedBy_eq {i : ℕ} (hstatus : (s.node i).status ≠ .before) :
    (storedBy i log).map .node = shard i script := by
  obtain ⟨hloop, hhand⟩ := NodeThread.inLoop_of_status hstatus
  have horderly := orderly_node h hs i
  obtain ⟨hitems, hstop⟩ := queue_of_drained h hs (horderly.drained hloop)
  have htrace := trace_queue h (.node i)
  have hshut := mem_shutdown_node.mp ((stop_iff htrace).mp hstop)
  have htaken : takenBy (.node i) log = (storedBy i log).map .node := by
    rw [takenBy, horderly.taken, hhand, List.append_nil, storedBy]
  rw [← htaken, ← shard_of_shutdown h hs hshut, ← pushed_shard, pushed_eq htrace, hitems,
    List.append_nil, popped_node]

/-- Before a way thread takes its first entry, the merge is over. -/
theorem merged_of_taken (hskip : skip_nodes cfg.resume_phase = false) {i : ℕ} {entry : OSMEntry}
    (ht : .take entry ∈ acts (.way i) log) :
    mergeMarks log = [.started, .finished] ∧ s.shared.node_barrier.phase = 1 := by
  have hpop : entry ∈ (queueOps (.way i) log).filterMap Op.popped := by
    rw [popped_way]
    exact List.mem_map.mpr ⟨(i, entry), List.mem_filterMap.mpr ⟨_, mem_acts.mp ht, rfl⟩, rfl⟩
  have hpush : entry ∈ (produced log).filterMap Action.pushed := by
    rw [← pushed_way h hs i, pushed_eq (trace_queue h (.way i))]
    exact List.mem_append_left _ hpop
  obtain ⟨a, ha, hentry⟩ := List.mem_filterMap.mp hpush
  cases a <;> cases hentry
  obtain ⟨pre, post, hsplit⟩ := List.append_of_mem ha
  have hwait := (sensible_produced h hs pre _ post hsplit).1.resolve_left (by simp [hskip])
  have hdone := merge_done_of_waited h (hsplit ▸ List.mem_append_left _ hwait)
  cases (node_barrier h).merge with
  | idle _ _ hd _ => simp [hd, hskip] at hdone
  | running _ _ hd _ _ => simp [hd, hskip] at hdone
  | finished _ hphase _ hmarks => exact ⟨hmarks, hphase⟩

end

/-! ## The end -/

theorem NodeThread.Ended.not_step {t t' : NodeThread} {act : Act} (h : t.Ended) :
    ¬ NodeThread.Step cfg t act t' := by
  obtain ⟨hdone, hout⟩ := h
  intro hs
  cases hs <;> simp_all

theorem WayThread.Ended.not_step {t t' : WayThread} {act : Act} (h : t.Ended) :
    ¬ WayThread.Step cfg t act t' := by
  obtain ⟨hdone, hout⟩ := h
  intro hs
  cases hs <;> simp_all

/-- Threads that were joined have ended. -/
theorem ended_of_joined
    (h : Trace (Import.Step cfg offer) (Import.start cfg osmmap db script) log s) :
    (.joinNodes ∈ produced log → ∀ i < cfg.nodeWorkers, (s.node i).Ended) ∧
      (.joinWays ∈ produced log → ∀ i < cfg.way_threads, (s.way i).Ended) := by
  induction h with
  | nil => exact ⟨nofun, nofun⟩
  | snoc _ hstep ih =>
    rw [produced_append]
    cases hstep with
    | @producer action _ _ _ hp =>
      constructor
      · intro hj
        rcases List.mem_append.mp hj with hj | hj
        · exact ih.1 hj
        · obtain rfl : Action.joinNodes = action := List.mem_singleton.mp hj
          exact hp.1
      · intro hj
        rcases List.mem_append.mp hj with hj | hj
        · exact ih.2 hj
        · obtain rfl : Action.joinWays = action := List.mem_singleton.mp hj
          exact hp.1
    | @node i _ t _ hi ht _ =>
      refine ⟨fun hj => ?_, fun hj => ih.2 ((List.mem_append.mp hj).resolve_right nofun)⟩
      exact absurd ht (ih.1 ((List.mem_append.mp hj).resolve_right nofun) i hi).not_step
    | @way i _ t _ hi ht _ =>
      refine ⟨fun hj => ih.1 ((List.mem_append.mp hj).resolve_right nofun), fun hj => ?_⟩
      exact absurd ht (ih.2 ((List.mem_append.mp hj).resolve_right nofun) i hi).not_step
    | mergeStart _ _ => simpa [produced, ImportEvent.action, List.filterMap_cons] using ih
    | mergeFinish _ => simpa [produced, ImportEvent.action, List.filterMap_cons] using ih
    | release _ => simpa [produced, ImportEvent.action, List.filterMap_cons] using ih

section

variable (h : Trace (Import.Step cfg offer) (Import.start cfg osmmap db script) log s)
  (hs : Justified (Sensible cfg.node_threads cfg.resume_phase) script)
include h hs

omit hs in
/-- Who has taken something is one of the way threads. -/
theorem takenByWay_lt {p : ℕ × OSMEntry} (hmem : p ∈ log.filterMap ImportEvent.takenByWay) :
    p.1 < cfg.way_threads := by
  obtain ⟨e, he, hj⟩ := List.mem_filterMap.mp hmem
  cases e with
  | thread me a =>
    cases me <;> cases a <;> cases hj
    exact (thread_lt h he).2 _ rfl
  | _ => cases hj

/-- What the way threads have taken, when one of them has found `way_q` drained. -/
theorem taken_ways {i : ℕ} (hi : .drained ∈ acts (.way i) log) :
    ((List.range cfg.way_threads).flatMap fun i => takenBy (.way i) log).Perm
      ((produced log).filterMap Action.pushed) := by
  obtain ⟨hitems, -⟩ := queue_of_drained h hs hi
  have hpopped : (log.filterMap ImportEvent.takenByWay).map Prod.snd =
      (produced log).filterMap Action.pushed := by
    rw [← pushed_way h hs i, pushed_eq (trace_queue h (.way i)), hitems, List.append_nil, popped_way]
  rw [← hpopped]
  have hperm := perm_flatMap_filter (List.nodup_range (n := cfg.way_threads)) Prod.fst
    (l := log.filterMap ImportEvent.takenByWay) ?_
  · have hmap := hperm.map Prod.snd
    rw [List.map_flatMap] at hmap
    simpa only [takenBy_way] using hmap
  · exact fun p hmem => List.mem_range.mpr (takenByWay_lt h hmem)

end

end OsmImport
