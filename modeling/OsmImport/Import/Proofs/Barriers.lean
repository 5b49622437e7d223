import OsmImport.Import.Proofs.NodeThread
import OsmImport.Import.Proofs.Projection
import OsmImport.Import.Proofs.WayThread

/-!
# The barriers and the merge

Every thread arrives at its barrier once, and the merge is what ends the only phase of `node_barrier`:
it has not begun, or it is running while all node threads wait, or it is over.
-/

namespace OsmImport

section

variable {cfg : Config} {offer : Database → List Statement → Database} {osmmap : OSMMMap}
  {db : Database} {script : List Action} {log : List ImportEvent} {s : Import}

/-- What the barriers and the merge are for the threads. -/
structure SameBarriers (sh sh' : Shared) : Prop where
  node_barrier : sh'.node_barrier = sh.node_barrier
  way_barrier : sh'.way_barrier = sh.way_barrier
  merging : sh'.merging = sh.merging
  merge_done : sh'.merge_done = sh.merge_done

theorem SameBarriers.rfl {sh : Shared} : SameBarriers sh sh := ⟨Eq.refl _, Eq.refl _, Eq.refl _, Eq.refl _⟩

/-- Only an arrival changes anything there. -/
theorem Effect.barriers {me : Who} {sh sh' : Shared} {act : Act} (h : Effect cfg offer me sh sh' act) :
    SameBarriers sh sh' ∨ act = .arrive (sh.barrier me).phase ∧
      (sh.barrier me).arrived < cfg.parties me ∧ sh' = sh.setBarrier me (sh.barrier me).arrive := by
  cases act with
  | take entry =>
    obtain ⟨rest, -, rfl⟩ := h
    cases me <;> exact .inl ⟨rfl, rfl, rfl, rfl⟩
  | drained =>
    obtain ⟨-, -, rfl⟩ := h
    exact .inl .rfl
  | forward entry =>
    obtain ⟨-, rfl⟩ := h
    exact .inl ⟨rfl, rfl, rfl, rfl⟩
  | store n record =>
    obtain ⟨j, m, -, -, rfl⟩ := h
    exact .inl ⟨rfl, rfl, rfl, rfl⟩
  | select id pos =>
    obtain ⟨-, rfl⟩ := h
    exact .inl .rfl
  | getWay id geog =>
    obtain ⟨-, rfl⟩ := h
    exact .inl .rfl
  | getWayCoordsMap ids points =>
    obtain ⟨rfl, -⟩ := h
    exact .inl .rfl
  | insert entry call =>
    obtain rfl := h
    exact .inl .rfl
  | commit txn =>
    obtain rfl := h
    exact .inl ⟨rfl, rfl, rfl, rfl⟩
  | arrive phase =>
    obtain ⟨rfl, hlt, rfl⟩ := h
    exact .inr ⟨rfl, hlt, rfl⟩
  | wake phase =>
    obtain ⟨-, rfl⟩ := h
    exact .inl .rfl
  | internal =>
    obtain rfl := h
    exact .inl .rfl

theorem SameBarriers.barrier {sh sh' : Shared} (h : SameBarriers sh sh') (who : Who) :
    sh'.barrier who = sh.barrier who := by
  cases who with
  | node i => exact h.node_barrier
  | way i => exact h.way_barrier

/-- The effect on the barrier of a thread. -/
theorem Effect.oneShot {me : Who} {sh sh' : Shared} {act : Act} (h : Effect cfg offer me sh sh' act)
    {i : ℕ} (hi : i < cfg.parties me) {status : ℕ → Barrier.Status} {moved : Barrier.Status}
    (hb : Barrier.OneShot (cfg.parties me) (sh.barrier me) status) (hm : act.Moves (status i) moved) :
    Barrier.OneShot (cfg.parties me) (sh'.barrier me) (Function.update status i moved) := by
  rcases h.barriers with hsame | ⟨rfl, -, rfl⟩
  · rw [hsame.barrier]
    cases act with
    | arrive phase =>
      obtain ⟨-, hlt, rfl⟩ := h
      have harrived := congrArg Barrier.arrived (hsame.barrier me)
      cases me <;> exact absurd harrived (Nat.succ_ne_self _)
    | wake phase =>
      obtain ⟨hwaiting, rfl⟩ := hm
      exact hb.wake hwaiting h.1
    | _ =>
      obtain rfl := hm
      rw [Function.update_eq_self]
      exact hb
  · obtain ⟨hbefore, rfl⟩ := hm
    have harrive := hb.arrive hi hbefore
    cases me <;> exact harrive

theorem Produces.barriers {sh' : Shared} {action : Action} (h : Produces cfg s sh' action) :
    SameBarriers s.shared sh' := by
  cases action with
  | pushNode i entry =>
    obtain ⟨-, rfl⟩ := h
    exact ⟨rfl, rfl, rfl, rfl⟩
  | waitMerge =>
    obtain ⟨-, rfl⟩ := h
    exact .rfl
  | pushWay entry =>
    obtain ⟨-, rfl⟩ := h
    exact ⟨rfl, rfl, rfl, rfl⟩
  | joinNodes =>
    obtain ⟨-, rfl⟩ := h
    exact .rfl
  | joinWays =>
    obtain ⟨-, rfl⟩ := h
    exact .rfl
  | _ =>
    obtain rfl := h
    exact ⟨rfl, rfl, rfl, rfl⟩

theorem nodeWorkers_of_nodes (h : Producer.skip_nodes cfg.resume_phase = false) :
    cfg.nodeWorkers = cfg.node_threads := by
  rw [Config.nodeWorkers, h]
  rfl

theorem nodeWorkers_of_pos (h : 0 < cfg.nodeWorkers) : cfg.nodeWorkers = cfg.node_threads := by
  cases hskip : Producer.skip_nodes cfg.resume_phase with
  | true =>
    rw [Config.nodeWorkers, hskip] at h
    exact absurd h (Nat.lt_irrefl 0)
  | false => exact nodeWorkers_of_nodes hskip

theorem nodeWorkers_le : cfg.nodeWorkers ≤ cfg.node_threads := by
  unfold Config.nodeWorkers
  split
  · exact Nat.zero_le _
  · exact le_rfl

/-- How far the merge is. -/
inductive Merging (cfg : Config) (log : List ImportEvent) (sh : Shared) : Prop where
  | idle (hmerging : sh.merging = false) (hphase : sh.node_barrier.phase = 0)
    (hdone : sh.merge_done = Producer.skip_nodes cfg.resume_phase) (hmarks : mergeMarks log = [])
  | running (hmerging : sh.merging = true) (hphase : sh.node_barrier.phase = 0)
    (hdone : sh.merge_done = Producer.skip_nodes cfg.resume_phase)
    (harrived : sh.node_barrier.arrived = cfg.node_threads) (hmarks : mergeMarks log = [.started])
  | finished (hmerging : sh.merging = false) (hphase : sh.node_barrier.phase = 1)
    (hdone : sh.merge_done = true) (hmarks : mergeMarks log = [.started, .finished])

theorem mergeMarks_append (a b : List ImportEvent) :
    mergeMarks (a ++ b) = mergeMarks a ++ mergeMarks b := List.filterMap_append

/-- A step that neither merges nor arrives at `node_barrier`. -/
theorem Merging.same {sh sh' : Shared} (h : Merging cfg log sh) {e : ImportEvent}
    (he : e.mergeMark = none) (hnode : sh'.node_barrier = sh.node_barrier)
    (hmerging : sh'.merging = sh.merging) (hdone : sh'.merge_done = sh.merge_done) :
    Merging cfg (log ++ [e]) sh' := by
  have hmarks : mergeMarks (log ++ [e]) = mergeMarks log := by
    rw [mergeMarks_append, mergeMarks, mergeMarks, List.filterMap_cons_none he, List.filterMap_nil,
      List.append_nil]
  cases h with
  | idle h₁ h₂ h₃ h₄ =>
    exact .idle (hmerging.trans h₁) (hnode ▸ h₂) (hdone.trans h₃) (hmarks.trans h₄)
  | running h₁ h₂ h₃ h₄ h₅ =>
    exact .running (hmerging.trans h₁) (hnode ▸ h₂) (hdone.trans h₃) (hnode ▸ h₄) (hmarks.trans h₅)
  | finished h₁ h₂ h₃ h₄ =>
    exact .finished (hmerging.trans h₁) (hnode ▸ h₂) (hdone.trans h₃) (hmarks.trans h₄)

theorem Merging.arrive {sh : Shared} (h : Merging cfg log sh) {i phase : ℕ}
    (hlt : sh.node_barrier.arrived < cfg.node_threads) :
    Merging cfg (log ++ [.thread (.node i) (.arrive phase)])
      (sh.setBarrier (.node i) sh.node_barrier.arrive) := by
  have hmarks : mergeMarks (log ++ [.thread (.node i) (.arrive phase)]) = mergeMarks log := by
    rw [mergeMarks_append]
    exact List.append_nil _
  cases h with
  | idle h₁ h₂ h₃ h₄ => exact .idle h₁ h₂ h₃ (hmarks.trans h₄)
  | running h₁ h₂ h₃ h₄ h₅ => exact absurd h₄ hlt.ne
  | finished h₁ h₂ h₃ h₄ => exact .finished h₁ h₂ h₃ (hmarks.trans h₄)

/-- The node threads arrive once, and then the merge runs once. -/
structure NodeBarrier (cfg : Config) (log : List ImportEvent) (s : Import) : Prop where
  oneShot : Barrier.OneShot cfg.node_threads s.shared.node_barrier fun i => (s.node i).status
  merge : Merging cfg log s.shared

theorem node_barrier (h : Trace (Import.Step cfg offer) (Import.start cfg osmmap db script) log s) :
    NodeBarrier cfg log s := by
  induction h with
  | nil => exact ⟨.fresh fun _ _ => rfl, .idle rfl rfl rfl rfl⟩
  | snoc _ hstep ih =>
    obtain ⟨hone, hmerge⟩ := ih
    cases hstep with
    | producer _ hp =>
      obtain ⟨hnode, -, hmerging, hdone⟩ := hp.barriers
      exact ⟨hnode ▸ hone, hmerge.same rfl hnode hmerging hdone⟩
    | @node i _ t _ hi ht he =>
      have hmoved := he.oneShot (hi.trans_le nodeWorkers_le) hone ht.moves
      refine ⟨hmoved.congr fun j _ => ?_, ?_⟩
      · exact Function.apply_update (fun _ t => NodeThread.status t) _ i t j
      · rcases he.barriers with ⟨hnode, -, hmerging, hdone⟩ | ⟨rfl, hlt, rfl⟩
        · exact hmerge.same rfl hnode hmerging hdone
        · exact hmerge.arrive hlt
    | way _ _ he =>
      rcases he.barriers with ⟨hnode, -, hmerging, hdone⟩ | ⟨rfl, -, rfl⟩
      · exact ⟨hnode ▸ hone, hmerge.same rfl hnode hmerging hdone⟩
      · exact ⟨hone, hmerge.same rfl rfl rfl rfl⟩
    | mergeStart harrived hm =>
      refine ⟨hone, ?_⟩
      cases hmerge with
      | idle h₁ h₂ h₃ h₄ =>
        exact .running rfl h₂ h₃ harrived ((mergeMarks_append ..).trans (by rw [h₄]; rfl))
      | running h₁ h₂ h₃ h₄ h₅ =>
        rw [hm] at h₁
        cases h₁
      | finished h₁ h₂ h₃ h₄ =>
        cases hone with
        | first hphase _ _ =>
          rw [h₂] at hphase
          cases hphase
        | second _ hzero _ => exact absurd (hzero.symm.trans harrived) cfg.node_threads_pos.ne
    | mergeFinish hm =>
      cases hmerge with
      | idle h₁ h₂ h₃ h₄ =>
        rw [hm] at h₁
        cases h₁
      | running h₁ h₂ h₃ h₄ h₅ =>
        refine ⟨hone.release cfg.node_threads_pos h₄, ?_⟩
        refine .finished rfl ?_ rfl ((mergeMarks_append ..).trans (by rw [h₅]; rfl))
        exact congrArg (· + 1) h₂
      | finished h₁ h₂ h₃ h₄ =>
        rw [hm] at h₁
        cases h₁
    | release _ => exact ⟨hone, hmerge.same rfl rfl rfl rfl⟩

/-- The way threads arrive once, unless they skip the ways. -/
theorem way_oneShot (hphase : cfg.resume_phase ≠ .relations)
    (h : Trace (Import.Step cfg offer) (Import.start cfg osmmap db script) log s) :
    Barrier.OneShot cfg.way_threads s.shared.way_barrier fun i => (s.way i).status := by
  induction h with
  | nil =>
    refine .fresh fun i _ => ?_
    show (if decide (cfg.resume_phase = .relations) then Barrier.Status.passed else .before) = .before
    rw [decide_eq_false hphase]
    rfl
  | snoc _ hstep ih =>
    cases hstep with
    | producer _ hp => exact hp.barriers.way_barrier ▸ ih
    | node _ _ he =>
      rcases he.barriers with hsame | ⟨rfl, -, rfl⟩
      · exact hsame.way_barrier ▸ ih
      · exact ih
    | @way i _ t _ hi ht he =>
      refine (he.oneShot hi ih ht.moves).congr fun j _ => ?_
      exact Function.apply_update (fun _ t => WayThread.status t) _ i t j
    | mergeStart _ _ => exact ih
    | mergeFinish _ => exact ih
    | release harrived => exact ih.release cfg.way_threads_pos harrived

end

end OsmImport
