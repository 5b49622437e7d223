import OsmImport.Import.Observation

/-!
# A node thread on its own

A thread that takes nodes only: it inserts each of them before it takes the next, leaves the loop when
its queue is drained, and then arrives at the barrier, once.
-/

namespace OsmImport

/-- How an act moves a thread with respect to the barrier. -/
def Act.Moves (a b : Barrier.Status) : Act → Prop
  | .arrive phase => a = .before ∧ b = .waiting phase
  | .wake phase => a = .waiting phase ∧ b = .passed
  | _ => b = a

/-- Where a node thread stands with respect to the barrier. -/
def NodeThread.status (t : NodeThread) : Barrier.Status :=
  match t.pc with
  | .waiting phase => .waiting phase
  | .destroying | .done => .passed
  | _ => .before

/-- The node that was taken and not yet inserted. -/
def NodePc.inHand : NodePc → List NodeEntry
  | .item n => [n]
  | _ => []

/-- In the loop. -/
def NodePc.inLoop : NodePc → Bool
  | .pop | .item _ | .forwarding _ => true
  | _ => false

namespace NodeThread

variable {cfg : Config} {t t' : NodeThread} {act : Act}

theorem Step.moves (h : Step cfg t act t') : act.Moves t.status t'.status := by
  cases h with
  | commit _ => rfl
  | take _ _ hpc => simp [Act.Moves, status, hpc]
  | takeOther _ _ hpc => simp [Act.Moves, status, hpc]
  | drained _ hpc => simp [Act.Moves, status, hpc]
  | store _ hpc => simp [Act.Moves, status, call, hpc]
  | forward _ hpc => simp [Act.Moves, status, hpc]
  | finalize _ hpc => simp [Act.Moves, status, call, hpc]
  | arrive _ _ hpc => simp [Act.Moves, status, hpc]
  | wake _ hpc => simp [Act.Moves, status, hpc]
  | destroy _ hpc => simp [Act.Moves, status, call, hpc]

/-- A thread that has taken nodes only. -/
structure Orderly (acts : List Act) (t : NodeThread) : Prop where
  taken : acts.filterMap Act.taken = (acts.filterMap Act.stored ++ t.pc.inHand).map .node
  forwards : ∀ entry, .forward entry ∉ acts
  holds : ∀ entry, t.pc ≠ .forwarding entry
  drained : t.pc.inLoop = false → .drained ∈ acts

theorem orderly {nav : NavDB} {acts : List Act} (h : Trace (Step cfg) ⟨.pop, nav, []⟩ acts t)
    (hn : ∀ entry ∈ acts.filterMap Act.taken, entry.isNode = true) : Orderly acts t := by
  induction h with
  | nil => exact ⟨rfl, fun _ => List.not_mem_nil, nofun, nofun⟩
  | @snoc acts t t' act _ hs ih =>
    rw [List.filterMap_append] at hn
    obtain ⟨htaken, hforwards, hholds, hdrained⟩ :=
      ih fun entry hentry => hn entry (List.mem_append_left _ hentry)
    -- an act that neither takes nor inserts, and leaves the thread in the loop or outside it
    have hsame : act.taken = none → act.stored = none → t'.pc.inHand = t.pc.inHand →
        (∀ entry, act ≠ .forward entry) → (∀ entry, t'.pc ≠ .forwarding entry) →
          (t'.pc.inLoop = false → .drained ∈ acts ++ [act]) → Orderly (acts ++ [act]) t' := by
      intro ht hst hhand hf hh hd
      refine ⟨?_, ?_, hh, hd⟩
      · rw [List.filterMap_append, List.filterMap_append, List.filterMap_cons_none ht,
          List.filterMap_cons_none hst, htaken, hhand]
        simp
      · intro entry hmem
        rcases List.mem_append.mp hmem with hmem | hmem
        · exact hforwards entry hmem
        · exact hf entry (List.mem_singleton.mp hmem).symm
    have houter : t.pc.inLoop = false → .drained ∈ acts ++ [act] :=
      fun hl => List.mem_append_left _ (hdrained hl)
    cases hs with
    | commit ho => exact hsame rfl rfl rfl nofun hholds houter
    | take n ho hpc =>
      refine ⟨?_, fun entry => ?_, nofun, nofun⟩
      · rw [List.filterMap_append, List.filterMap_append, htaken, hpc]
        simp [Act.taken, Act.stored, NodePc.inHand, List.filterMap_cons]
      · simp [hforwards entry]
    | takeOther hne ho hpc =>
      have hnode := hn _ (List.mem_append_right _ (List.mem_singleton.mpr rfl))
      rw [hne] at hnode
      cases hnode
    | drained ho hpc =>
      exact hsame rfl rfl (by simp [hpc, NodePc.inHand]) nofun nofun fun _ => by simp
    | store ho hpc =>
      refine ⟨?_, fun entry => ?_, nofun, nofun⟩
      · rw [List.filterMap_append, List.filterMap_append, htaken, hpc]
        simp [Act.taken, Act.stored, NodePc.inHand, List.filterMap_cons, call]
      · simp [hforwards entry]
    | forward ho hpc => exact absurd hpc (hholds _)
    | finalize ho hpc =>
      exact hsame rfl rfl (by simp [hpc, NodePc.inHand, call]) nofun nofun fun _ =>
        houter (by simp [hpc, NodePc.inLoop])
    | arrive phase ho hpc =>
      exact hsame rfl rfl (by simp [hpc, NodePc.inHand]) nofun nofun fun _ =>
        houter (by simp [hpc, NodePc.inLoop])
    | wake ho hpc =>
      exact hsame rfl rfl (by simp [hpc, NodePc.inHand]) nofun nofun fun _ =>
        houter (by simp [hpc, NodePc.inLoop])
    | destroy ho hpc =>
      exact hsame rfl rfl (by simp [hpc, NodePc.inHand, call]) nofun nofun fun _ =>
        houter (by simp [hpc, NodePc.inLoop])

/-- Behind the barrier, or at it, the loop is over. -/
theorem inLoop_of_status (h : t.status ≠ .before) : t.pc.inLoop = false ∧ t.pc.inHand = [] := by
  unfold status at h
  split at h
  · rename_i hpc
    simp [hpc, NodePc.inLoop, NodePc.inHand]
  · rename_i hpc
    simp [hpc, NodePc.inLoop, NodePc.inHand]
  · rename_i hpc
    simp [hpc, NodePc.inLoop, NodePc.inHand]
  · exact absurd rfl h

end NodeThread

end OsmImport
