import OsmImport.Import.Observation

/-!
# An import, part by part

What a run of the import looks like from each of its parts: the producer works off its script, each
thread takes the steps of its own code, and each queue sees the operations of a queue.
-/

namespace OsmImport

namespace Shared

theorem queue_setQueue_self (sh : Shared) (who : Who) (q : BlockingQueue OSMEntry) :
    (sh.setQueue who q).queue who = q := by
  cases who with
  | node i => exact Function.update_self ..
  | way i => rfl

theorem queue_setBarrier (sh : Shared) (who me : Who) (b : Barrier) :
    (sh.setBarrier me b).queue who = sh.queue who := by
  cases me <;> cases who <;> rfl

/-- The node queues are different queues. -/
theorem queue_setQueue_node (sh : Shared) {i j : ℕ} (h : j ≠ i) (q : BlockingQueue OSMEntry) :
    (sh.setQueue (.node j) q).queue (.node i) = sh.queue (.node i) :=
  Function.update_of_ne (Ne.symm h) ..

end Shared

section

variable {cfg : Config} {offer : Database → List Statement → Database}

/-- What a thread does to a queue is an operation on it. -/
theorem Effect.queue {me : Who} {sh sh' : Shared} {act : Act} (h : Effect cfg offer me sh sh' act)
    (who : Who) : (act.queueOp who me = none ∧ sh'.queue who = sh.queue who) ∨
      ∃ op, act.queueOp who me = some op ∧
        BlockingQueue.Step cfg.queue_size (sh.queue who) op (sh'.queue who) := by
  cases act with
  | take entry =>
    obtain ⟨rest, hitems, rfl⟩ := h
    cases who with
    | node i =>
      cases me with
      | node j =>
        by_cases hji : j = i
        · subst hji
          rw [Shared.queue_setQueue_self]
          exact .inr ⟨.pop entry, if_pos rfl, .pop hitems⟩
        · exact .inl ⟨if_neg hji, sh.queue_setQueue_node hji _⟩
      | way j => exact .inl ⟨rfl, rfl⟩
    | way i =>
      cases me with
      | node j => exact .inl ⟨rfl, rfl⟩
      | way j => exact .inr ⟨.pop entry, rfl, .pop hitems⟩
  | drained =>
    obtain ⟨hitems, hstop, rfl⟩ := h
    cases who with
    | node i =>
      cases me with
      | node j =>
        by_cases hji : j = i
        · subst hji
          exact .inr ⟨.drained, if_pos rfl, .drained hitems hstop⟩
        · exact .inl ⟨if_neg hji, rfl⟩
      | way j => exact .inl ⟨rfl, rfl⟩
    | way i =>
      cases me with
      | node j => exact .inl ⟨rfl, rfl⟩
      | way j => exact .inr ⟨.drained, rfl, .drained hitems hstop⟩
  | forward entry =>
    obtain ⟨hpush, rfl⟩ := h
    cases who with
    | node i => exact .inl ⟨rfl, rfl⟩
    | way i => exact .inr ⟨.push entry, rfl, .push hpush⟩
  | store n record =>
    obtain ⟨i, m, -, -, rfl⟩ := h
    exact .inl ⟨rfl, by cases who <;> rfl⟩
  | select id pos =>
    obtain ⟨-, rfl⟩ := h
    exact .inl ⟨rfl, rfl⟩
  | getWay id geog =>
    obtain ⟨-, rfl⟩ := h
    exact .inl ⟨rfl, rfl⟩
  | getWayCoordsMap ids points =>
    obtain ⟨rfl, -⟩ := h
    exact .inl ⟨rfl, rfl⟩
  | insert entry call =>
    obtain rfl := h
    exact .inl ⟨rfl, rfl⟩
  | commit txn =>
    obtain rfl := h
    exact .inl ⟨rfl, by cases who <;> rfl⟩
  | arrive phase =>
    obtain ⟨-, -, rfl⟩ := h
    exact .inl ⟨rfl, sh.queue_setBarrier ..⟩
  | wake phase =>
    obtain ⟨-, rfl⟩ := h
    exact .inl ⟨rfl, rfl⟩
  | internal =>
    obtain rfl := h
    exact .inl ⟨rfl, rfl⟩

/-- What the producer does to a queue is an operation on it. -/
theorem Produces.queue {s : Import} {sh' : Shared} {action : Action} (h : Produces cfg s sh' action)
    (who : Who) : (action.queueOp who = none ∧ sh'.queue who = s.shared.queue who) ∨
      ∃ op, action.queueOp who = some op ∧
        BlockingQueue.Step cfg.queue_size (s.shared.queue who) op (sh'.queue who) := by
  cases action with
  | pushNode j entry =>
    obtain ⟨hpush, rfl⟩ := h
    cases who with
    | node i =>
      by_cases hji : j = i
      · subst hji
        rw [Shared.queue_setQueue_self]
        exact .inr ⟨.push entry, if_pos rfl, .push hpush⟩
      · exact .inl ⟨if_neg hji, s.shared.queue_setQueue_node hji _⟩
    | way i => exact .inl ⟨rfl, rfl⟩
  | shutdownNode j =>
    obtain rfl := h
    cases who with
    | node i =>
      by_cases hji : j = i
      · subst hji
        rw [Shared.queue_setQueue_self]
        exact .inr ⟨.shutdown, if_pos rfl, .shutdown⟩
      · exact .inl ⟨if_neg hji, s.shared.queue_setQueue_node hji _⟩
    | way i => exact .inl ⟨rfl, rfl⟩
  | writeResumeOffset offset =>
    obtain rfl := h
    exact .inl ⟨rfl, rfl⟩
  | waitMerge =>
    obtain ⟨-, rfl⟩ := h
    exact .inl ⟨rfl, rfl⟩
  | writeRelationsResumeOffset offset =>
    obtain rfl := h
    exact .inl ⟨rfl, rfl⟩
  | pushWay entry =>
    obtain ⟨hpush, rfl⟩ := h
    cases who with
    | node i => exact .inl ⟨rfl, rfl⟩
    | way i => exact .inr ⟨.push entry, rfl, .push hpush⟩
  | joinNodes =>
    obtain ⟨-, rfl⟩ := h
    exact .inl ⟨rfl, rfl⟩
  | shutdownWay =>
    obtain rfl := h
    cases who with
    | node i => exact .inl ⟨rfl, rfl⟩
    | way i => exact .inr ⟨.shutdown, rfl, .shutdown⟩
  | joinWays =>
    obtain ⟨-, rfl⟩ := h
    exact .inl ⟨rfl, rfl⟩

variable {osmmap : OSMMMap} {db : Database} {script : List Action} {log : List ImportEvent} {s : Import}

theorem produced_append (a b : List ImportEvent) : produced (a ++ b) = produced a ++ produced b :=
  List.filterMap_append

theorem acts_append (who : Who) (a b : List ImportEvent) :
    acts who (a ++ b) = acts who a ++ acts who b := List.filterMap_append

/-- The producer works off its script. -/
theorem produced_script (h : Trace (Import.Step cfg offer) (Import.start cfg osmmap db script) log s) :
    produced log ++ s.script = script := by
  induction h with
  | nil => rfl
  | snoc _ hs ih =>
    rw [produced_append, ← ih, List.append_assoc]
    cases hs with
    | producer hscript _ => rw [hscript]; rfl
    | node _ _ _ => rfl
    | way _ _ _ => rfl
    | mergeStart _ _ => rfl
    | mergeFinish _ => rfl
    | release _ => rfl

section

variable {s₀ : Import} (h : Trace (Import.Step cfg offer) s₀ log s) (i : ℕ)
include h

/-- A thread takes steps of its own, from any state on. -/
theorem node_steps : Trace (NodeThread.Step cfg) (s₀.node i) (acts (.node i) log) (s.node i) := by
  refine h.project (fun s => s.node i) (ImportEvent.act (.node i)) ?_
  intro _ s _ s' _ hs
  cases hs with
  | @node j act t _ _ hstep _ =>
    by_cases hji : j = i
    · subst hji
      refine .inr ⟨act, if_pos rfl, ?_⟩
      show NodeThread.Step cfg (s.node j) act (Function.update s.node j t j)
      rw [Function.update_self]
      exact hstep
    · refine .inl ⟨if_neg (by simpa using hji), ?_⟩
      exact Function.update_of_ne (Ne.symm hji) ..
  | producer _ _ => exact .inl ⟨rfl, rfl⟩
  | way _ _ _ => exact .inl ⟨rfl, rfl⟩
  | mergeStart _ _ => exact .inl ⟨rfl, rfl⟩
  | mergeFinish _ => exact .inl ⟨rfl, rfl⟩
  | release _ => exact .inl ⟨rfl, rfl⟩

theorem way_steps : Trace (WayThread.Step cfg) (s₀.way i) (acts (.way i) log) (s.way i) := by
  refine h.project (fun s => s.way i) (ImportEvent.act (.way i)) ?_
  intro _ s _ s' _ hs
  cases hs with
  | @way j act t _ _ hstep _ =>
    by_cases hji : j = i
    · subst hji
      refine .inr ⟨act, if_pos rfl, ?_⟩
      show WayThread.Step cfg (s.way j) act (Function.update s.way j t j)
      rw [Function.update_self]
      exact hstep
    · refine .inl ⟨if_neg (by simpa using hji), ?_⟩
      exact Function.update_of_ne (Ne.symm hji) ..
  | producer _ _ => exact .inl ⟨rfl, rfl⟩
  | node _ _ _ => exact .inl ⟨rfl, rfl⟩
  | mergeStart _ _ => exact .inl ⟨rfl, rfl⟩
  | mergeFinish _ => exact .inl ⟨rfl, rfl⟩
  | release _ => exact .inl ⟨rfl, rfl⟩

end

theorem trace_node (h : Trace (Import.Step cfg offer) (Import.start cfg osmmap db script) log s)
    (i : ℕ) : Trace (NodeThread.Step cfg) ⟨.pop, NavDB.fresh i, []⟩ (acts (.node i) log) (s.node i) :=
  node_steps h i

theorem trace_way (h : Trace (Import.Step cfg offer) (Import.start cfg osmmap db script) log s)
    (i : ℕ) : Trace (WayThread.Step cfg)
      ⟨.pop, NavDB.fresh (cfg.node_threads + i), [], cfg.resume_phase = .relations⟩
        (acts (.way i) log) (s.way i) :=
  way_steps h i

theorem trace_queue (h : Trace (Import.Step cfg offer) (Import.start cfg osmmap db script) log s)
    (who : Who) : Trace (BlockingQueue.Step cfg.queue_size) .empty (queueOps who log)
      (s.shared.queue who) := by
  have hstart : (Import.start cfg osmmap db script).shared.queue who = .empty := by
    cases who <;> rfl
  rw [← hstart]
  refine h.project (fun s => s.shared.queue who) (ImportEvent.queueOp who) ?_
  intro _ s _ s' _ hs
  have hsame : ∀ sh : Shared, sh.node_queues = s.shared.node_queues → sh.way_q = s.shared.way_q →
      sh.queue who = s.shared.queue who := by
    intro sh hnode hway
    cases who with
    | node i => exact congrFun hnode i
    | way i => exact hway
  cases hs with
  | producer _ hp => exact hp.queue who
  | node _ _ he => exact he.queue who
  | way _ _ he => exact he.queue who
  | mergeStart _ _ => exact .inl ⟨rfl, hsame _ rfl rfl⟩
  | mergeFinish _ => exact .inl ⟨rfl, hsame _ rfl rfl⟩
  | release _ => exact .inl ⟨rfl, hsame _ rfl rfl⟩

end

/-! ## The store and the database -/

section

variable {cfg : Config} {offer : Database → List Statement → Database} {s : Import}

/-- What a thread does to the store and to the database. -/
theorem Effect.data {me : Who} {sh sh' : Shared} {act : Act} (h : Effect cfg offer me sh sh' act) :
    ((∀ n r, act ≠ .store n r) → sh'.osmmap = sh.osmmap) ∧
      sh'.db = act.committed.elim sh.db (offer sh.db) := by
  cases act with
  | store n r =>
    obtain ⟨j, m, -, -, rfl⟩ := h
    exact ⟨fun hn => absurd rfl (hn n r), rfl⟩
  | take entry =>
    obtain ⟨rest, -, rfl⟩ := h
    cases me <;> exact ⟨fun _ => rfl, rfl⟩
  | drained =>
    obtain ⟨-, -, rfl⟩ := h
    exact ⟨fun _ => rfl, rfl⟩
  | forward entry =>
    obtain ⟨-, rfl⟩ := h
    exact ⟨fun _ => rfl, rfl⟩
  | select id pos =>
    obtain ⟨-, rfl⟩ := h
    exact ⟨fun _ => rfl, rfl⟩
  | getWay id geog =>
    obtain ⟨-, rfl⟩ := h
    exact ⟨fun _ => rfl, rfl⟩
  | getWayCoordsMap ids points =>
    obtain ⟨rfl, -⟩ := h
    exact ⟨fun _ => rfl, rfl⟩
  | arrive phase =>
    obtain ⟨-, -, rfl⟩ := h
    cases me <;> exact ⟨fun _ => rfl, rfl⟩
  | wake phase =>
    obtain ⟨-, rfl⟩ := h
    exact ⟨fun _ => rfl, rfl⟩
  | _ =>
    obtain rfl := h
    exact ⟨fun _ => rfl, rfl⟩

theorem Produces.data {sh' : Shared} {action : Action} (h : Produces cfg s sh' action) :
    sh'.osmmap = s.shared.osmmap ∧ sh'.db = s.shared.db := by
  cases action with
  | pushNode i entry =>
    obtain ⟨-, rfl⟩ := h
    exact ⟨rfl, rfl⟩
  | waitMerge =>
    obtain ⟨-, rfl⟩ := h
    exact ⟨rfl, rfl⟩
  | pushWay entry =>
    obtain ⟨-, rfl⟩ := h
    exact ⟨rfl, rfl⟩
  | joinNodes =>
    obtain ⟨-, rfl⟩ := h
    exact ⟨rfl, rfl⟩
  | joinWays =>
    obtain ⟨-, rfl⟩ := h
    exact ⟨rfl, rfl⟩
  | _ =>
    obtain rfl := h
    exact ⟨rfl, rfl⟩

end

end OsmImport
