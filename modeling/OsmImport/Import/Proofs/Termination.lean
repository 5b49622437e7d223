import OsmImport.Import.Proofs.Progress
import OsmImport.Store.Proofs.Insert
import OsmImport.Store.Proofs.Merge
import Mathlib.Algebra.BigOperators.Group.Finset.Basic
import Mathlib.Algebra.Order.BigOperators.Group.Finset

/-!
# Every import comes to an end

What is left to do in an import: in the script, in the queues, in the threads, and at the barriers. Each
step leaves less of it, or sends one of the transactions that a thread still has to send. Where the platform
has room for the bitmaps, no insert ends the process before.
-/

namespace OsmImport

open Finset Producer

/-- The work on an entry in `way_q`. -/
def OSMEntry.cost : OSMEntry → ℕ
  | .node _ => 2
  | .way w => 4 + w.node_refs.length
  | .relation r => 10 + r.way_members.length

/-- What the producer has to do. -/
def Action.cost : Action → ℕ
  | .pushNode _ entry => entry.cost + 2
  | .pushWay entry => entry.cost + 1
  | _ => 1

/-- What a node thread has to do. -/
def NodePc.cost : NodePc → ℕ
  | .done => 0
  | .destroying => 1
  | .waiting _ => 2
  | .arriving => 5
  | .finalizing => 6
  | .pop => 7
  | .item _ => 8
  | .forwarding entry => 7 + entry.cost

/-- What a way thread has to do. -/
def WayPc.cost : WayPc → ℕ
  | .done => 0
  | .destroying => 1
  | .finalizingRelations => 2
  | .waiting _ none => 3
  | .arriving none => 6
  | .finalizingWays none => 7
  | .pop => 8
  | .inserting _ calls => 9 + calls.length
  | .assembling _ => 11
  | .locating _ refs _ => 11 + refs.length
  | .collecting _ members _ => 12 + members.length
  | .waiting _ (some r) => 13 + r.way_members.length
  | .arriving (some r) => 16 + r.way_members.length
  | .finalizingWays (some r) => 17 + r.way_members.length

/-- The work that an act takes from what the threads share. -/
def Act.takes (me : Who) : Act → ℕ
  | .take entry => match me with
    | .node _ => entry.cost + 1
    | .way _ => entry.cost
  | _ => 0

/-- The work that an act adds to it. -/
def Act.adds : Act → ℕ
  | .forward entry => entry.cost
  | .arrive _ => 2
  | _ => 0

theorem WayPc.cost_begin (r : RelationEntry) :
    (WayThread.begin r).cost ≤ 12 + r.way_members.length := by
  unfold WayThread.begin
  split
  · exact Nat.le_add_right_of_le (by simp [WayPc.cost])
  · exact le_rfl

variable {cfg : Config}

/-- A step of a thread leaves it less to do, or one transaction less to send. -/
theorem NodeThread.Step.cost {t t' : NodeThread} {act : Act} (h : Step cfg t act t') (i : ℕ) :
    t'.pc.cost + act.adds < t.pc.cost + act.takes (.node i) ∨
      t'.pc = t.pc ∧ t'.outbox.length < t.outbox.length ∧ ∃ txn, act = .commit txn := by
  cases h with
  | commit ho => exact .inr ⟨rfl, by simp [ho], _, rfl⟩
  | take _ _ hpc => exact .inl (by simp [hpc, NodePc.cost, Act.adds, Act.takes, OSMEntry.cost])
  | takeOther _ _ hpc =>
    left
    simp only [hpc, NodePc.cost, Act.adds, Act.takes]
    omega
  | drained _ hpc => exact .inl (by simp [hpc, NodePc.cost, Act.adds, Act.takes])
  | store _ hpc => exact .inl (by simp [hpc, NodePc.cost, Act.adds, Act.takes, call])
  | forward _ hpc =>
    left
    simp only [hpc, NodePc.cost, Act.adds, Act.takes]
    omega
  | finalize _ hpc => exact .inl (by simp [hpc, NodePc.cost, Act.adds, Act.takes, call])
  | arrive _ _ hpc => exact .inl (by simp [hpc, NodePc.cost, Act.adds, Act.takes])
  | wake _ hpc => exact .inl (by simp [hpc, NodePc.cost, Act.adds, Act.takes])
  | destroy _ hpc => exact .inl (by simp [hpc, NodePc.cost, Act.adds, Act.takes, call])

/-! A way has at most one row, a relation at most two, a multipolygon at most one. -/

theorem WayThread.length_wayCalls (cfg : Config) (w : WayEntry) (coords : List Coord) :
    (wayCalls cfg w coords).length ≤ 1 := by
  simp only [wayCalls]
  split <;> simp

theorem WayThread.length_relationCalls (cfg : Config) (r : RelationEntry) (geoms : List Str) :
    (relationCalls cfg r geoms).length ≤ 2 := by
  simp only [relationCalls]
  generalize (if geoms.isEmpty then [] else mergeWayGeoms cfg.env.g_srid geoms) = rel_geog
  split <;> simp

theorem WayThread.length_multipolygonCalls (cfg : Config) (r : RelationEntry)
    (points : Int64 → List Coord) : (multipolygonCalls cfg r points).length ≤ 1 := by
  simp only [multipolygonCalls]
  split <;> simp

theorem WayThread.Step.cost {t t' : WayThread} {act : Act} (h : Step cfg t act t') (i : ℕ) :
    t'.pc.cost + act.adds < t.pc.cost + act.takes (.way i) ∨
      t'.pc = t.pc ∧ t'.outbox.length < t.outbox.length ∧ ∃ txn, act = .commit txn := by
  cases h with
  | commit ho => exact .inr ⟨rfl, by simp [ho], _, rfl⟩
  | take entry _ hpc =>
    left
    cases entry with
    | node n => simp [hpc, dispatch, WayPc.cost, Act.adds, Act.takes, OSMEntry.cost]
    | way w =>
      simp only [hpc, dispatch, Act.adds, Act.takes, OSMEntry.cost]
      split <;> simp only [WayPc.cost, List.length_nil] <;> omega
    | relation r =>
      have hbegin := WayPc.cost_begin r
      simp only [hpc, dispatch, Act.adds, Act.takes, OSMEntry.cost]
      split
      · show (begin r).cost + 0 < 8 + _
        omega
      · simp only [WayPc.cost]
        omega
  | drained _ hpc =>
    left
    simp only [hpc, Act.adds, Act.takes]
    split <;> simp [WayPc.cost]
  | select _ _ hpc => exact .inl (by simp [hpc, WayPc.cost, Act.adds, Act.takes])
  | @located w coords _ hpc =>
    have hcalls := WayThread.length_wayCalls cfg w coords
    left
    simp only [hpc, WayPc.cost, Act.adds, Act.takes, List.length_nil]
    omega
  | getWay _ _ hpc => exact .inl (by simp [hpc, WayPc.cost, Act.adds, Act.takes])
  | @collected r geoms _ hpc =>
    have hcalls := WayThread.length_relationCalls cfg r geoms
    left
    simp only [hpc, WayPc.cost, Act.adds, Act.takes, List.length_nil]
    omega
  | @getWayCoordsMap r points _ hpc =>
    have hcalls := WayThread.length_multipolygonCalls cfg r points
    left
    simp only [hpc, WayPc.cost, Act.adds, Act.takes]
    omega
  | insert _ hpc => exact .inl (by simp [hpc, WayPc.cost, Act.adds, Act.takes, call])
  | inserted _ hpc => exact .inl (by simp [hpc, WayPc.cost, Act.adds, Act.takes, call])
  | @finalizeWays r _ hpc =>
    left
    cases r <;> simp only [hpc, WayPc.cost, Act.adds, Act.takes, call] <;> omega
  | @arrive r _ _ hpc =>
    left
    cases r <;> simp only [hpc, WayPc.cost, Act.adds, Act.takes] <;> omega
  | @wakeRelation r _ _ hpc =>
    have hbegin := WayPc.cost_begin r
    left
    rw [hpc]
    show (begin r).cost + 0 < 13 + r.way_members.length + 0
    omega
  | wakeDrained _ hpc => exact .inl (by simp [hpc, WayPc.cost, Act.adds, Act.takes])
  | finalizeRelations _ hpc => exact .inl (by simp [hpc, WayPc.cost, Act.adds, Act.takes, call])
  | destroy _ hpc => exact .inl (by simp [hpc, WayPc.cost, Act.adds, Act.takes, call])

/-! ## The whole import -/

/-- The sum over some threads, when one of them changes. -/
theorem sum_update {α : Type*} (f : α → ℕ) (g : ℕ → α) {n i : ℕ} (hi : i < n) (x : α) :
    ∑ j ∈ range n, f (Function.update g i x j) + f (g i) = ∑ j ∈ range n, f (g j) + f x := by
  have hmem : i ∈ range n := mem_range.mpr hi
  have hrest : ∑ j ∈ (range n).erase i, f (Function.update g i x j) =
      ∑ j ∈ (range n).erase i, f (g j) := by
    apply sum_congr rfl
    intro j hj
    rw [Function.update_of_ne (ne_of_mem_erase hj)]
  rw [← add_sum_erase _ _ hmem, ← add_sum_erase (range n) (fun j => f (g j)) hmem, hrest,
    Function.update_self]
  omega

/-- The work in a node queue; a node thread that takes something else hands it on. -/
def nodeQueueCost (q : BlockingQueue OSMEntry) : ℕ := (q.items.map fun entry => entry.cost + 1).sum

/-- The work in `way_q`. -/
def wayQueueCost (q : BlockingQueue OSMEntry) : ℕ := (q.items.map OSMEntry.cost).sum

/-- The beginning of a merge is still to come. -/
def mergingCost : Bool → ℕ
  | true => 0
  | false => 1

/-- What is left to do in what the threads share. -/
def Shared.cost (cfg : Config) (sh : Shared) : ℕ :=
  ∑ i ∈ range cfg.node_threads, nodeQueueCost (sh.node_queues i) + wayQueueCost sh.way_q +
    2 * sh.node_barrier.arrived + mergingCost sh.merging + 2 * sh.way_barrier.arrived

/-- What is left to do. -/
def Import.cost (cfg : Config) (s : Import) : ℕ :=
  (s.script.map Action.cost).sum + s.shared.cost cfg +
    ∑ i ∈ range cfg.node_threads, (s.node i).pc.cost + ∑ i ∈ range cfg.way_threads, (s.way i).pc.cost

/-- What is left to send. -/
def Import.unsent (cfg : Config) (s : Import) : ℕ :=
  ∑ i ∈ range cfg.node_threads, (s.node i).outbox.length +
    ∑ i ∈ range cfg.way_threads, (s.way i).outbox.length

variable {offer : Database → List Statement → Database}

/-- The number of a thread is one of those that there are. -/
def Config.runs (cfg : Config) : Who → Prop
  | .node i => i < cfg.node_threads
  | .way i => i < cfg.way_threads

theorem Effect.cost {me : Who} {sh sh' : Shared} {act : Act} (h : Effect cfg offer me sh sh' act)
    (hme : cfg.runs me) : sh'.cost cfg + act.takes me = sh.cost cfg + act.adds := by
  cases act with
  | take entry =>
    obtain ⟨rest, hitems, rfl⟩ := h
    cases me with
    | node i =>
      have hsum := sum_update nodeQueueCost sh.node_queues hme ⟨rest, (sh.node_queues i).stop⟩
      have hq : nodeQueueCost (sh.node_queues i) =
          entry.cost + 1 + nodeQueueCost ⟨rest, (sh.node_queues i).stop⟩ := by
        rw [nodeQueueCost, show (sh.node_queues i).items = entry :: rest from hitems]
        rfl
      simp only [Shared.cost, Shared.setQueue, Shared.queue, Act.takes, Act.adds]
      omega
    | way i =>
      have hq : wayQueueCost sh.way_q = entry.cost + wayQueueCost ⟨rest, sh.way_q.stop⟩ := by
        rw [wayQueueCost, show sh.way_q.items = entry :: rest from hitems]
        rfl
      simp only [Shared.cost, Shared.setQueue, Shared.queue, Act.takes, Act.adds]
      omega
  | drained =>
    obtain ⟨-, -, rfl⟩ := h
    rfl
  | forward entry =>
    obtain ⟨-, rfl⟩ := h
    have hq : wayQueueCost (sh.way_q.push entry) = wayQueueCost sh.way_q + entry.cost := by
      simp [wayQueueCost, BlockingQueue.push]
    simp only [Shared.cost, Act.takes, Act.adds]
    omega
  | store n record =>
    obtain ⟨j, m, -, -, rfl⟩ := h
    rfl
  | select id pos =>
    obtain ⟨-, rfl⟩ := h
    rfl
  | getWay id geog =>
    obtain ⟨-, rfl⟩ := h
    rfl
  | getWayCoordsMap ids points =>
    obtain ⟨rfl, -⟩ := h
    rfl
  | insert entry call =>
    obtain rfl := h
    rfl
  | commit txn =>
    obtain rfl := h
    rfl
  | arrive phase =>
    obtain ⟨-, -, rfl⟩ := h
    cases me <;>
      simp only [Shared.cost, Shared.setBarrier, Shared.barrier, Barrier.arrive, Act.takes, Act.adds] <;>
      omega
  | wake phase =>
    obtain ⟨-, rfl⟩ := h
    rfl
  | internal =>
    obtain rfl := h
    rfl

theorem Produces.cost {s : Import} {sh' : Shared} {action : Action} (h : Produces cfg s sh' action) :
    sh'.cost cfg < s.shared.cost cfg + action.cost := by
  have hqueue : ∀ (i : ℕ) (q : BlockingQueue OSMEntry) (c : ℕ),
      nodeQueueCost q ≤ nodeQueueCost (s.shared.node_queues i) + c →
        (s.shared.setQueue (.node i) q).cost cfg ≤ s.shared.cost cfg + c := by
    intro i q c hq
    by_cases hi : i < cfg.node_threads
    · have hsum := sum_update nodeQueueCost s.shared.node_queues hi q
      simp only [Shared.cost, Shared.setQueue]
      omega
    · have hsame : ∑ j ∈ range cfg.node_threads,
          nodeQueueCost (Function.update s.shared.node_queues i q j) =
            ∑ j ∈ range cfg.node_threads, nodeQueueCost (s.shared.node_queues j) := by
        apply sum_congr rfl
        intro j hj
        have hji : j ≠ i := fun hji => hi (hji ▸ mem_range.mp hj)
        rw [Function.update_of_ne hji]
      simp only [Shared.cost, Shared.setQueue]
      omega
  cases action with
  | pushNode i entry =>
    obtain ⟨-, rfl⟩ := h
    have hq := hqueue i ((s.shared.node_queues i).push entry) (entry.cost + 1)
      (by simp [nodeQueueCost, BlockingQueue.push])
    show _ < s.shared.cost cfg + (entry.cost + 2)
    omega
  | shutdownNode i =>
    obtain rfl := h
    exact Nat.lt_succ_of_le (hqueue i _ 0 le_rfl)
  | waitMerge =>
    obtain ⟨-, rfl⟩ := h
    exact Nat.lt_succ_self _
  | pushWay entry =>
    obtain ⟨-, rfl⟩ := h
    have hq : wayQueueCost (s.shared.way_q.push entry) =
        wayQueueCost s.shared.way_q + entry.cost := by
      simp [wayQueueCost, BlockingQueue.push]
    simp only [Shared.cost, Action.cost]
    omega
  | joinNodes =>
    obtain ⟨-, rfl⟩ := h
    exact Nat.lt_succ_self _
  | joinWays =>
    obtain ⟨-, rfl⟩ := h
    exact Nat.lt_succ_self _
  | _ =>
    obtain rfl := h
    exact Nat.lt_succ_self _

/-- Less to do, or as much to do and less to send. -/
theorem Import.cost_lt {osmmap : OSMMMap} {db : Database} {script : List Action}
    {log : List ImportEvent} {s s' : Import} {e : ImportEvent}
    (h : Trace (Import.Step cfg offer) (Import.start cfg osmmap db script) log s)
    (hstep : Import.Step cfg offer s e s') :
    Prod.Lex (· < ·) (· < ·) (s'.cost cfg, s'.unsent cfg) (s.cost cfg, s.unsent cfg) := by
  cases hstep with
  | @producer action rest sh' hscript hp =>
    have hcost := hp.cost
    apply Prod.Lex.left
    simp only [Import.cost, hscript, List.map_cons, List.sum_cons]
    omega
  | @node i act t sh' hi ht he =>
    have hi := hi.trans_le nodeWorkers_le
    have hshared := he.cost hi
    have hsum := sum_update (fun t => t.pc.cost) s.node hi t
    rcases ht.cost i with hlt | ⟨hpc, hout, txn, rfl⟩
    · apply Prod.Lex.left
      simp only [Import.cost]
      omega
    · have hsent := sum_update (fun t => t.outbox.length) s.node hi t
      rw [hpc] at hsum
      have hsame : (Import.cost cfg { s with node := Function.update s.node i t, shared := sh' }) =
          s.cost cfg := by
        simp only [Import.cost, Act.takes, Act.adds] at hshared ⊢
        omega
      rw [hsame]
      apply Prod.Lex.right
      simp only [Import.unsent]
      omega
  | @way i act t sh' hi ht he =>
    have hshared := he.cost hi
    have hsum := sum_update (fun t => t.pc.cost) s.way hi t
    rcases ht.cost i with hlt | ⟨hpc, hout, txn, rfl⟩
    · apply Prod.Lex.left
      simp only [Import.cost]
      omega
    · have hsent := sum_update (fun t => t.outbox.length) s.way hi t
      rw [hpc] at hsum
      have hsame : (Import.cost cfg { s with way := Function.update s.way i t, shared := sh' }) =
          s.cost cfg := by
        simp only [Import.cost, Act.takes, Act.adds] at hshared ⊢
        omega
      rw [hsame]
      apply Prod.Lex.right
      simp only [Import.unsent]
      omega
  | mergeStart harrived hm =>
    apply Prod.Lex.left
    simp [Import.cost, Shared.cost, hm, mergingCost]
  | mergeFinish hm =>
    apply Prod.Lex.left
    have hpos := cfg.node_threads_pos
    cases (node_barrier h).merge with
    | running _ _ _ harrived _ =>
      simp only [Import.cost, Shared.cost, Barrier.release, harrived, hm, mergingCost]
      omega
    | idle hf _ _ _ => simp [hm] at hf
    | finished hf _ _ _ => simp [hm] at hf
  | release harrived =>
    apply Prod.Lex.left
    have hpos := cfg.way_threads_pos
    simp only [Import.cost, Shared.cost, Barrier.release, harrived]
    omega

/-- No import goes on forever. -/
theorem Import.not_infinite (osmmap : OSMMMap) (db : Database) (script : List Action) :
    ¬ ∃ run : ℕ → Import, run 0 = Import.start cfg osmmap db script ∧
      ∀ n, ∃ e, Import.Step cfg offer (run n) e (run (n + 1)) :=
  Trace.not_infinite (Prod.lex Nat.lt_wfRel Nat.lt_wfRel).wf
    (fun _ _ _ _ h hstep => Import.cost_lt h hstep)

/-! ## Inserts that return -/

/-- The platform has room for the ids of the nodes that the producer pushes. -/
def HasRoom (cfg : Config) (osmmap : OSMMMap) (script : List Action) : Prop :=
  ∀ i n, .pushNode i (.node n) ∈ script →
    ∃ max_id, sizeT n.id ≤ sizeT max_id ∧ osmmap.platform.Roomy max_id cfg.node_threads

/-- A producer that skips the nodes pushes none. -/
theorem hasRoom_skip {osmmap : OSMMMap} {script : List Action}
    (hs : Justified (Sensible cfg.node_threads cfg.resume_phase) script)
    (hskip : skip_nodes cfg.resume_phase = true) : HasRoom cfg osmmap script := by
  intro i n hmem
  obtain ⟨pre, post, hsplit⟩ := List.append_of_mem hmem
  exact absurd (hs pre _ post hsplit).1 (by simp [hskip])

section

variable {osmmap : OSMMMap} {db : Database} {script : List Action} {log : List ImportEvent} {s : Import}
  (h : Trace (Import.Step cfg offer) (Import.start cfg osmmap db script) log s)
include h

theorem platform_eq : s.shared.osmmap.platform = osmmap.platform := by
  induction h with
  | nil => rfl
  | snoc _ hstep ih =>
    rw [← ih]
    cases hstep with
    | producer _ hp => exact congrArg OSMMMap.platform hp.data.1
    | @node i act t sh' _ _ he =>
      cases act with
      | store n r =>
        obtain ⟨j, m, -, hins, rfl⟩ := he
        obtain ⟨-, rfl⟩ := OSMMMap.insert_eq_ok.mp hins
        rfl
      | _ => exact congrArg OSMMMap.platform (he.data.1 nofun)
    | way _ ht he =>
      refine congrArg OSMMMap.platform (he.data.1 ?_)
      rintro n r rfl
      cases ht
    | mergeFinish _ => exact OSMMMap.platform_merge _ _
    | mergeStart _ _ => rfl
    | release _ => rfl

theorem not_refused (hs : Justified (Sensible cfg.node_threads cfg.resume_phase) script)
    (hroom : HasRoom cfg osmmap script) : ¬ s.Refused cfg := by
  rintro ⟨i, hi, n, hpc, -, hthrows⟩
  have htaken : .node n ∈ takenBy (.node i) log := by
    rw [takenBy, (orderly_node h hs i).taken, hpc]
    simp [NodePc.inHand]
  have hpushed : .node n ∈ shard i (produced log) := by
    rw [← pushed_shard, BlockingQueue.pushed_eq (trace_queue h (.node i)), popped_node]
    exact List.mem_append_left _ htaken
  have hscript : .pushNode i (.node n) ∈ script := by
    obtain ⟨⟨j, entry⟩, hmem, hentry⟩ := List.mem_map.mp hpushed
    obtain ⟨hmem, hj⟩ := List.mem_filter.mp hmem
    obtain ⟨a, ha, hsharded⟩ := List.mem_filterMap.mp hmem
    cases a <;> cases hsharded
    obtain rfl : entry = .node n := hentry
    obtain rfl : j = i := of_decide_eq_true hj
    exact produced_script h ▸ List.mem_append_left _ ha
  obtain ⟨max_id, hid, hroomy⟩ := hroom i n hscript
  exact OSMMMap.insert_error_iff.mp hthrows
    (OSMMMap.takes_of_roomy (platform_eq h ▸ hroomy) (hi.trans_le nodeWorkers_le) hid)

end

/-- Every run can be finished. -/
theorem Import.finishes {osmmap : OSMMMap} {db : Database} {script : List Action}
    (hs : Justified (Sensible cfg.node_threads cfg.resume_phase) script)
    (hroom : HasRoom cfg osmmap script) {log : List ImportEvent}
    {s : Import} (h : Trace (Import.Step cfg offer) (Import.start cfg osmmap db script) log s) :
    ∃ log' s', Trace (Import.Step cfg offer) (Import.start cfg osmmap db script) (log ++ log') s' ∧
      s'.script = [] :=
  Trace.finishes (Prod.lex Nat.lt_wfRel Nat.lt_wfRel).wf
    (fun _ _ _ _ h hstep => Import.cost_lt h hstep)
    (fun _ _ h => or_iff_not_imp_left.mpr fun hscript =>
      (progress h hs hscript).resolve_right (not_refused h hs hroom)) h

end OsmImport
