import OsmImport.Import.Proofs.ImportResult
import OsmImport.Import.Proofs.StoredNodes

/-!
# Behind the merge

When the merge is over, the node threads have nothing to store and nothing to send: the node store and
the tables of the nodes do not change any more.
-/

namespace OsmImport

open NavDB

/-! ## A node thread that has arrived -/

namespace NodeThread

variable {cfg : Config} {t₀ t : NodeThread} {acts : List Act}

/-- It has nothing to send. -/
theorem outbox_of_arrived (h₀ : t₀.OnlyNodes) (hpc : t₀.pc = .pop) (h : Trace (Step cfg) t₀ acts t)
    (hstatus : t.status ≠ .before) : t.outbox = [] := by
  induction h with
  | nil => simp [status, hpc] at hstatus
  | @snoc acts t t' act h hs ih =>
    cases hs with
    | commit ho =>
      have hout := ih hstatus
      rw [ho] at hout
      cases hout
    | arrive _ ho _ => exact ho
    | wake ho _ => exact ho
    | destroy _ hdestroying =>
      have hempty := emptied h₀ hpc h (by rw [hdestroying]; rfl)
      have honly := (onlyNodes h₀ h).1
      show (t.nav.perform _).2 = []
      rw [perform_of_run (run_destroy accepting_acceptAll _), Session.flushAll_empty]
      · rfl
      · intro k _
        by_cases hk : k = .node
        · subst hk
          exact hempty.1
        · exact honly.buf hk
    | take _ _ _ => simp [status] at hstatus
    | takeOther _ _ _ => simp [status] at hstatus
    | drained _ _ => simp [status] at hstatus
    | store _ _ => simp [status, call] at hstatus
    | forward _ _ => simp [status] at hstatus
    | finalize _ _ => simp [status, call] at hstatus

/-- Nothing is on its way. -/
theorem underway_of_arrived (h₀ : t₀.OnlyNodes) (hpc : t₀.pc = .pop) (h : Trace (Step cfg) t₀ acts t)
    (hstatus : t.status ≠ .before) :
    underway (rowAccount .node) t = [] ∧ underway (tagAccount .shared) t = [] := by
  have hfinal : t.pc.finalized = true := by
    unfold status at hstatus
    split at hstatus
    · rename_i hpc
      rw [hpc]
      rfl
    · rename_i hpc
      rw [hpc]
      rfl
    · rename_i hpc
      rw [hpc]
      rfl
    · exact absurd rfl hstatus
  obtain ⟨hbuf, htags⟩ := emptied h₀ hpc h hfinal
  have hout := outbox_of_arrived h₀ hpc h hstatus
  rw [underway, underway, hout]
  exact ⟨hbuf, htags⟩

/-- From then on it stores nothing. -/
theorem stored_of_arrived (hstatus : t₀.status ≠ .before) (h : Trace (Step cfg) t₀ acts t) :
    t.status ≠ .before ∧ acts.filterMap Act.stored = [] := by
  induction h with
  | nil => exact ⟨hstatus, rfl⟩
  | @snoc acts t t' act h hs ih =>
    obtain ⟨hpast, hnone⟩ := ih
    have hquiet : act.stored = none → t'.status ≠ .before →
        t'.status ≠ .before ∧ (acts ++ [act]).filterMap Act.stored = [] := by
      intro hst hnext
      rw [List.filterMap_append, hnone, List.filterMap_cons_none hst]
      exact ⟨hnext, rfl⟩
    cases hs with
    | commit _ => exact hquiet rfl hpast
    | take _ _ hpc => simp [status, hpc] at hpast
    | takeOther _ _ hpc => simp [status, hpc] at hpast
    | drained _ hpc => simp [status, hpc] at hpast
    | store _ hpc => simp [status, hpc] at hpast
    | forward _ hpc => simp [status, hpc] at hpast
    | finalize _ hpc => simp [status, hpc] at hpast
    | arrive _ _ hpc => simp [status, hpc] at hpast
    | wake _ _ => exact hquiet rfl (by simp [status])
    | destroy _ _ => exact hquiet rfl (by simp [status, call])

end NodeThread

/-! ## The import -/

section

variable {cfg : Config} {offer : Database → List Statement → Database} {osmmap : OSMMMap} {db : Database}
  {script : List Action} {log log' : List ImportEvent} {s s' : Import}
  (h : Trace (Import.Step cfg offer) (Import.start cfg osmmap db script) log s)
include h

/-- Where the merge is running, all node threads have arrived. -/
theorem arrived_of_merging (hmerging : s.shared.merging = true) {i : ℕ} (hi : i < cfg.nodeWorkers) :
    (s.node i).status ≠ .before := by
  obtain ⟨hone, hmerge⟩ := node_barrier h
  cases hmerge with
  | idle hnot _ _ _ => simp [hmerging] at hnot
  | finished hnot _ _ _ => simp [hmerging] at hnot
  | running _ _ _ harrived _ =>
    have hwaiting : (s.node i).status = .waiting 0 :=
      (hone.all_waiting cfg.node_threads_pos harrived).2 i (hi.trans_le nodeWorkers_le)
    rw [hwaiting]
    exact nofun

/-- When the node threads have arrived, nothing is added to the tables of the nodes any more. -/
theorem nodes_of_arrived (harrived : ∀ i < cfg.nodeWorkers, (s.node i).status ≠ .before)
    (h' : Trace (Import.Step cfg offer) s log' s') :
    copiedRows .node (log'.filterMap ImportEvent.committed) = [] ∧
      copiedTagRows .node (log'.filterMap ImportEvent.committed) = [] := by
  have hall := h.append h'
  have hnode : ∀ i < cfg.nodeWorkers,
      WayThread.takesOut (rowAccount .node) (acts (.node i) log') = [] ∧
        WayThread.takesOut (tagAccount .shared) (acts (.node i) log') = [] := by
    intro i hi
    have hpast := harrived i hi
    obtain ⟨hrows, htags⟩ :=
      NodeThread.underway_of_arrived (NodeThread.onlyNodes_fresh i) rfl (trace_node h i) hpast
    have hstored := (NodeThread.stored_of_arrived hpast (node_steps h' i)).2
    have hrowsAll := NodeThread.conserved_nodes (rowAccount .node) (node_steps h' i)
    have htagsAll := NodeThread.conserved_nodes (tagAccount .shared) (node_steps h' i)
    rw [hrows, hstored] at hrowsAll
    rw [htags, hstored] at htagsAll
    exact ⟨(List.append_eq_nil_iff.mp hrowsAll).1, (List.append_eq_nil_iff.mp htagsAll).1⟩
  have hevent : ∀ txn ∈ log'.filterMap ImportEvent.committed,
      txn.flatMap (Statement.copied .node) = [] ∧ txn.flatMap (Statement.copiedTags .node) = [] := by
    intro txn htxn
    obtain ⟨e, he, hc⟩ := List.mem_filterMap.mp htxn
    cases e with
    | thread who act =>
      have hact : txn ∈ (acts who log').filterMap Act.committed :=
        List.mem_filterMap.mpr ⟨act, mem_acts.mpr he, hc⟩
      obtain ⟨htagsNode, htagsWay⟩ := tags_of_threads hall
      have hsub : txn ∈ (acts who (log ++ log')).filterMap Act.committed := by
        rw [acts_append, List.filterMap_append]
        exact List.mem_append_right _ hact
      cases who with
      | way i =>
        have hrows := (WayThread.buf_node WayThread.inserting_fresh rfl rfl (trace_way hall i)).2
        refine ⟨List.flatMap_eq_nil_iff.mp hrows txn hsub, ?_⟩
        exact List.flatMap_eq_nil_iff.mp (tagsTo_none (htagsWay i) (k := .node) (by simp)) txn hsub
      | node i =>
        have hi := (thread_lt hall (List.mem_append_right log he)).1 i rfl
        obtain ⟨hrows, htags⟩ := hnode i hi
        refine ⟨List.flatMap_eq_nil_iff.mp hrows txn hact, ?_⟩
        have hfrom : txn.flatMap (Statement.tagsFrom .shared) = [] :=
          List.flatMap_eq_nil_iff.mp htags txn hact
        rw [List.flatMap_eq_nil_iff] at hfrom ⊢
        intro st hst
        cases st with
        | copyTags k rows =>
          obtain rfl := htagsNode i txn hsub k rows hst
          exact hfrom _ hst
        | _ => rfl
    | _ => cases hc
  exact ⟨List.flatMap_eq_nil_iff.mpr fun txn htxn => (hevent txn htxn).1,
    List.flatMap_eq_nil_iff.mpr fun txn htxn => (hevent txn htxn).2⟩

end

section

variable {cfg : Config} {offer : Database → List Statement → Database} {osmmap : OSMMMap} {db : Database}
  {script : List Action} {log log' : List ImportEvent} {s s' : Import}
  (hskip : Producer.skip_nodes cfg.resume_phase = false)
  (h : Trace (Import.Step cfg offer) (Import.start cfg osmmap db script) log s)
  (hdone : s.shared.merge_done = true)
include hskip h hdone

theorem marks_of_merged : mergeMarks log = [.started, .finished] := by
  cases (node_barrier h).merge with
  | idle _ _ hnot _ => simp [hdone, hskip] at hnot
  | running _ _ hnot _ _ => simp [hdone, hskip] at hnot
  | finished _ _ _ hmarks => exact hmarks

variable (h' : Trace (Import.Step cfg offer) s log' s')
include h'

/-- The phase of the barrier does not change any more. -/
theorem phase_of_merged : s'.shared.node_barrier.phase = 1 := by
  have hmarks : mergeMarks (log ++ log') = [.started, .finished] ++ mergeMarks log' := by
    rw [mergeMarks_append, marks_of_merged hskip h hdone]
  cases (node_barrier (h.append h')).merge with
  | idle _ _ _ hnone => cases hnone.symm.trans hmarks
  | running _ _ _ _ hone => cases hone.symm.trans hmarks
  | finished _ hphase _ _ => exact hphase

/-- All node threads have arrived. -/
theorem arrived_of_merged {i : ℕ} (hi : i < cfg.nodeWorkers) : (s'.node i).status ≠ .before := by
  intro hbefore
  have hzero := ((node_barrier (h.append h')).oneShot.of_before (hi.trans_le nodeWorkers_le) hbefore).1
  cases hzero.symm.trans (phase_of_merged hskip h hdone h')

/-- The store does not change any more. -/
theorem store_of_merged : s'.shared.osmmap = s.shared.osmmap := by
  induction h' with
  | nil => rfl
  | @snoc log' s' s'' e h' hstep ih =>
    refine Eq.trans ?_ ih
    cases hstep with
    | producer _ hp => exact hp.data.1
    | node hi ht he =>
      refine he.data.1 ?_
      rintro n r rfl
      have harrived := arrived_of_merged hskip h hdone h' hi
      cases ht with
      | store _ hpc => simp [NodeThread.status, hpc] at harrived
    | way _ ht he =>
      refine he.data.1 ?_
      rintro n r rfl
      cases ht
    | mergeStart _ _ => rfl
    | mergeFinish hm =>
      cases (node_barrier (h.append h')).merge with
      | idle hf _ _ _ => exact absurd (hf.symm.trans hm) Bool.false_ne_true
      | running _ hzero _ _ _ => cases hzero.symm.trans (phase_of_merged hskip h hdone h')
      | finished hf _ _ _ => exact absurd (hf.symm.trans hm) Bool.false_ne_true
    | release _ => rfl

/-- Nothing is added to the tables of the nodes. -/
theorem nodes_of_merged : copiedRows .node (log'.filterMap ImportEvent.committed) = [] ∧
    copiedTagRows .node (log'.filterMap ImportEvent.committed) = [] :=
  nodes_of_arrived h (fun _ hi => arrived_of_merged hskip h hdone .nil hi) h'

end

end OsmImport
