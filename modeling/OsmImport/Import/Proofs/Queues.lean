import OsmImport.Import.Proofs.NodeThread
import OsmImport.Import.Proofs.Projection
import OsmImport.Import.Proofs.Script

/-!
# The queues of an import

The producer acts in order, so the node threads see nothing but nodes, nothing is pushed to a queue
that was shut down, and a queue that a thread has found drained stays empty.
-/

namespace OsmImport

open BlockingQueue

variable {cfg : Config} {offer : Database → List Statement → Database} {osmmap : OSMMMap}
  {db : Database} {script : List Action} {log : List ImportEvent} {s : Import}

theorem mem_acts {who : Who} {a : Act} : a ∈ acts who log ↔ .thread who a ∈ log := by
  constructor
  · intro h
    obtain ⟨e, he, ha⟩ := List.mem_filterMap.mp h
    cases e with
    | thread me b =>
      simp only [ImportEvent.act, Option.ite_none_right_eq_some, Option.some.injEq] at ha
      obtain ⟨rfl, rfl⟩ := ha
      exact he
    | _ => cases ha
  · intro h
    exact List.mem_filterMap.mpr ⟨_, h, if_pos rfl⟩

theorem mem_produced {a : Action} : a ∈ produced log ↔ .producer a ∈ log := by
  constructor
  · intro h
    obtain ⟨e, he, ha⟩ := List.mem_filterMap.mp h
    cases e with
    | producer b =>
      obtain rfl := Option.some.inj ha
      exact he
    | _ => cases ha
  · intro h
    exact List.mem_filterMap.mpr ⟨_, h, rfl⟩

/-- What a thread takes is what is popped from its queue, if it has the queue for itself. -/
theorem popped_node (i : ℕ) (log : List ImportEvent) :
    (queueOps (.node i) log).filterMap Op.popped = takenBy (.node i) log := by
  rw [queueOps, takenBy, acts, List.filterMap_filterMap, List.filterMap_filterMap]
  apply List.filterMap_congr
  intro e _
  cases e with
  | producer a =>
    cases a <;> simp [ImportEvent.queueOp, Action.queueOp, ImportEvent.act, Op.popped]
  | thread me a =>
    cases me with
    | node j =>
      by_cases hji : j = i <;> cases a <;>
        simp [ImportEvent.queueOp, Act.queueOp, ImportEvent.act, hji, Op.popped, Act.taken]
    | way j => cases a <;> simp [ImportEvent.queueOp, Act.queueOp, ImportEvent.act]
  | _ => rfl

/-- The entries that way threads take, with the thread that takes them. -/
def ImportEvent.takenByWay : ImportEvent → Option (ℕ × OSMEntry)
  | .thread (.way i) (.take entry) => some (i, entry)
  | _ => none

theorem popped_way (k : ℕ) (log : List ImportEvent) : (queueOps (.way k) log).filterMap Op.popped =
    (log.filterMap ImportEvent.takenByWay).map Prod.snd := by
  rw [queueOps, List.filterMap_filterMap, List.map_filterMap]
  apply List.filterMap_congr
  intro e _
  cases e with
  | producer a =>
    cases a <;> simp [ImportEvent.queueOp, Action.queueOp, ImportEvent.takenByWay, Op.popped]
  | thread me a =>
    cases me <;> cases a <;>
      simp [ImportEvent.queueOp, Act.queueOp, ImportEvent.takenByWay, Op.popped]
  | _ => rfl

theorem takenBy_way (i : ℕ) (log : List ImportEvent) : takenBy (.way i) log =
    ((log.filterMap ImportEvent.takenByWay).filter fun p => p.1 = i).map Prod.snd := by
  rw [takenBy, acts, List.filterMap_filterMap, List.filter_filterMap, List.map_filterMap]
  apply List.filterMap_congr
  intro e _
  cases e with
  | producer a => rfl
  | thread me a =>
    cases me with
    | node j => cases a <;> simp [ImportEvent.act, ImportEvent.takenByWay]
    | way j =>
      by_cases hji : j = i <;> cases a <;>
        simp [ImportEvent.act, ImportEvent.takenByWay, Act.taken, hji]
  | _ => rfl

/-- The queue is shut down by the producer. -/
theorem producer_of_shutdown {who : Who} (h : .shutdown ∈ queueOps who log) :
    ∃ a, .producer a ∈ log ∧ a.queueOp who = some .shutdown := by
  obtain ⟨e, he, hop⟩ := List.mem_filterMap.mp h
  cases e with
  | producer a => exact ⟨a, he, hop⟩
  | thread me a =>
    cases who <;> cases me <;> cases a <;> simp [ImportEvent.queueOp, Act.queueOp] at hop
  | _ => cases hop

theorem mem_shutdown_node {i : ℕ} :
    .shutdown ∈ queueOps (.node i) log ↔ .shutdownNode i ∈ produced log := by
  rw [mem_produced]
  constructor
  · intro h
    obtain ⟨a, ha, hop⟩ := producer_of_shutdown h
    cases a <;> simp [Action.queueOp] at hop
    subst hop
    exact ha
  · intro h
    exact List.mem_filterMap.mpr ⟨_, h, if_pos rfl⟩

theorem mem_shutdown_way {k : ℕ} :
    .shutdown ∈ queueOps (.way k) log ↔ .shutdownWay ∈ produced log := by
  rw [mem_produced]
  constructor
  · intro h
    obtain ⟨a, ha, hop⟩ := producer_of_shutdown h
    cases a <;> simp [Action.queueOp] at hop
    exact ha
  · intro h
    exact List.mem_filterMap.mpr ⟨_, h, rfl⟩

theorem drained_mem_queueOps {who : Who} (h : .drained ∈ acts who log) :
    .drained ∈ queueOps who log := by
  refine List.mem_filterMap.mpr ⟨_, mem_acts.mp h, ?_⟩
  cases who with
  | node i => exact if_pos rfl
  | way i => rfl

/-- What is pushed to a node queue comes from the producer. -/
theorem pushed_node {i : ℕ} {entry : OSMEntry} (hmem : .push entry ∈ queueOps (.node i) log) :
    .pushNode i entry ∈ produced log := by
  obtain ⟨e, he, hop⟩ := List.mem_filterMap.mp hmem
  rw [mem_produced]
  cases e with
  | producer a =>
    cases a <;> simp [ImportEvent.queueOp, Action.queueOp] at hop
    obtain ⟨rfl, rfl⟩ := hop
    exact he
  | thread me a =>
    cases me <;> cases a <;> simp [ImportEvent.queueOp, Act.queueOp] at hop
  | _ => cases hop

section

variable (h : Trace (Import.Step cfg offer) (Import.start cfg osmmap db script) log s)
  (hs : Justified (Sensible cfg.node_threads cfg.resume_phase) script)
include h

theorem bounded_queue (who : Who) : (s.shared.queue who).Bounded cfg.queue_size :=
  bounded_run (trace_queue h who)

/-- The numbers of the threads. -/
theorem thread_lt {who : Who} {a : Act} (hmem : .thread who a ∈ log) :
    (∀ i, who = .node i → i < cfg.nodeWorkers) ∧ ∀ i, who = .way i → i < cfg.way_threads := by
  induction h with
  | nil => cases hmem
  | snoc _ hstep ih =>
    rcases List.mem_append.mp hmem with hmem | hmem
    · exact ih hmem
    · have heq := List.mem_singleton.mp hmem
      cases hstep with
      | node hi _ _ =>
        injection heq with hwho _
        subst hwho
        exact ⟨fun _ he => Who.node.inj he ▸ hi, nofun⟩
      | way hi _ _ =>
        injection heq with hwho _
        subst hwho
        exact ⟨nofun, fun _ he => Who.way.inj he ▸ hi⟩
      | producer _ _ => cases heq
      | mergeStart _ _ => cases heq
      | mergeFinish _ => cases heq
      | release _ => cases heq

include hs

theorem sensible_produced :
    Justified (Sensible cfg.node_threads cfg.resume_phase) (produced log) := by
  rw [← produced_script h] at hs
  exact (justified_append.mp hs).1

theorem isNode_of_takenBy {i : ℕ} {entry : OSMEntry} (hmem : entry ∈ takenBy (.node i) log) :
    entry.isNode = true := by
  rw [← popped_node] at hmem
  have hpushed := List.mem_append_left (s.shared.queue (.node i)).items hmem
  rw [← pushed_eq (trace_queue h (.node i))] at hpushed
  obtain ⟨op, hop, hentry⟩ := List.mem_filterMap.mp hpushed
  cases op with
  | push x =>
    obtain rfl := Option.some.inj hentry
    obtain ⟨pre, post, hsplit⟩ := List.append_of_mem (pushed_node hop)
    exact (sensible_produced h hs pre _ post hsplit).2.2.1
  | _ => cases hentry

theorem orderly_node (i : ℕ) : NodeThread.Orderly (acts (.node i) log) (s.node i) :=
  NodeThread.orderly (trace_node h i) fun _ hentry => isNode_of_takenBy h hs hentry

theorem not_forward {who : Who} {entry : OSMEntry} : .thread who (.forward entry) ∉ log := by
  intro hmem
  cases who with
  | node i => exact (orderly_node h hs i).forwards entry (mem_acts.mpr hmem)
  | way i =>
    have hnone : .forward entry ∉ acts (.way i) log :=
      (trace_way h i).invariant (I := fun tr _ => .forward entry ∉ tr) List.not_mem_nil
        fun tr t a t' _ hnot hstep hm => by
          rcases List.mem_append.mp hm with hm | hm
          · exact hnot hm
          · rw [← List.mem_singleton.mp hm] at hstep
            cases hstep
    exact hnone (mem_acts.mpr hmem)

/-- What is pushed to `way_q` comes from the producer. -/
theorem pushed_way (k : ℕ) : (queueOps (.way k) log).filterMap Op.pushed =
    (produced log).filterMap Action.pushed := by
  rw [queueOps, produced, List.filterMap_filterMap, List.filterMap_filterMap]
  apply List.filterMap_congr
  intro e he
  cases e with
  | producer a =>
    cases a <;> simp [ImportEvent.queueOp, Action.queueOp, ImportEvent.action, Op.pushed, Action.pushed]
  | thread me a =>
    cases a with
    | forward entry => exact absurd he (not_forward h hs)
    | _ => cases me <;> simp [ImportEvent.queueOp, Act.queueOp, ImportEvent.action, Op.pushed]
  | _ => rfl

theorem disciplined (who : Who) : Disciplined (queueOps who log) := by
  have hsens : Justified _ log := justified_filterMap.mp (sensible_produced h hs)
  refine justified_filterMap.mpr fun pre e post hlog op hop x hx => ?_
  subst hx
  have hmem : e ∈ log := hlog ▸ List.mem_append_right pre List.mem_cons_self
  cases e with
  | producer a =>
    have ha := hsens pre _ post hlog a rfl
    cases who with
    | node i =>
      cases a <;> simp [ImportEvent.queueOp, Action.queueOp] at hop
      obtain ⟨rfl, rfl⟩ := hop
      exact fun hshut => ha.2.2.2 (mem_shutdown_node.mp hshut)
    | way k =>
      cases a <;> simp [ImportEvent.queueOp, Action.queueOp] at hop
      exact fun hshut => ha.2 (mem_shutdown_way.mp hshut)
  | thread me a =>
    cases a with
    | forward entry => exact absurd hmem (not_forward h hs)
    | _ => cases who <;> cases me <;> simp [ImportEvent.queueOp, Act.queueOp] at hop
  | _ => cases hop

/-- A queue that a thread has found drained is empty and shut down. -/
theorem queue_of_drained {who : Who} (hd : .drained ∈ acts who log) :
    (s.shared.queue who).items = [] ∧ (s.shared.queue who).stop = true :=
  of_drained (trace_queue h who) (disciplined h hs who) (drained_mem_queueOps hd)

end

end OsmImport
