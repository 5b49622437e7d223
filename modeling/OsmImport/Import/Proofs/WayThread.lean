import OsmImport.Import.Proofs.NodeThread

/-!
# A way thread on its own

The thread works on one entry at a time, and leaves the loop when `way_q` is drained.
-/

namespace OsmImport

variable {cfg : Config} {t t' : WayThread} {act : Act}

/-- Where a way thread stands with respect to the barrier. -/
def WayThread.status (t : WayThread) : Barrier.Status :=
  match t.pc with
  | .finalizingWays _ | .arriving _ => .before
  | .waiting phase _ => .waiting phase
  | .finalizingRelations | .destroying | .done => .passed
  | _ => if t.way_phase_done then .passed else .before

theorem WayThread.Step.moves (h : Step cfg t act t') :
    act.Moves t.status t'.status := by
  have hbegin : ∀ (r : RelationEntry) (nav : NavDB) (out : List (List Statement)),
      WayThread.status ⟨begin r, nav, out, true⟩ = .passed := by
    intro r nav out
    unfold begin
    split <;> rfl
  cases h with
  | commit _ => rfl
  | take entry _ hpc =>
    cases entry with
    | node n => simp [Act.Moves, status, dispatch, hpc]
    | way w =>
      obtain ⟨pc, nav, out, flag⟩ := t
      obtain rfl : pc = .pop := hpc
      show WayThread.status ⟨if cfg.resume_phase = .relations then .inserting (.way w) []
        else .locating w w.node_refs [], nav, out, flag⟩ = _
      split <;> rfl
    | relation r =>
      obtain ⟨pc, nav, out, flag⟩ := t
      obtain rfl : pc = .pop := hpc
      cases flag with
      | false => rfl
      | true => exact hbegin r nav out
  | drained _ hpc =>
    obtain ⟨pc, nav, out, flag⟩ := t
    obtain rfl : pc = .pop := hpc
    cases flag <;> rfl
  | select _ _ hpc => simp [Act.Moves, status, hpc]
  | located _ hpc => simp [Act.Moves, status, hpc]
  | getWay _ _ hpc => simp [Act.Moves, status, hpc]
  | collected _ hpc => simp [Act.Moves, status, hpc]
  | getWayCoordsMap _ _ hpc => simp [Act.Moves, status, hpc]
  | insert _ hpc =>
    simp only [Act.Moves, status, call, hpc]
    rfl
  | inserted _ hpc =>
    simp only [Act.Moves, status, call, hpc]
    rfl
  | finalizeWays _ hpc => simp [Act.Moves, status, call, hpc]
  | arrive _ _ hpc => simp [Act.Moves, status, hpc]
  | wakeRelation _ hpc => exact ⟨by simp [status, hpc], hbegin ..⟩
  | wakeDrained _ hpc => simp [Act.Moves, status, hpc]
  | finalizeRelations _ hpc => simp [Act.Moves, status, call, hpc]
  | destroy _ hpc => simp [Act.Moves, status, call, hpc]

/-- The entry that was taken and is not yet done. -/
def WayPc.inHand : WayPc → List OSMEntry
  | .locating w _ _ => [.way w]
  | .collecting r _ _ => [.relation r]
  | .assembling r => [.relation r]
  | .inserting entry _ => [entry]
  | .finalizingWays r | .arriving r | .waiting _ r => (r.map .relation).toList
  | _ => []

/-- Behind the loop. -/
def WayPc.leftLoop : WayPc → Bool
  | .finalizingWays none | .arriving none | .waiting _ none => true
  | .finalizingRelations | .destroying | .done => true
  | _ => false

@[simp] theorem WayPc.inHand_begin (r : RelationEntry) :
    (WayThread.begin r).inHand = [.relation r] := by
  unfold WayThread.begin
  split <;> rfl

@[simp] theorem WayPc.leftLoop_begin (r : RelationEntry) : (WayThread.begin r).leftLoop = false := by
  unfold WayThread.begin
  split <;> rfl

variable (cfg) in
theorem WayPc.dispatch_facts (flag : Bool) (entry : OSMEntry) :
    (WayThread.dispatch cfg flag entry).inHand = [entry] ∧
      (WayThread.dispatch cfg flag entry).leftLoop = false := by
  cases entry with
  | node n => exact ⟨rfl, rfl⟩
  | way w =>
    simp only [WayThread.dispatch]
    split <;> exact ⟨rfl, rfl⟩
  | relation r =>
    cases flag with
    | false => exact ⟨rfl, rfl⟩
    | true => exact ⟨inHand_begin r, leftLoop_begin r⟩

namespace WayThread

/-- What a thread has done to be where it is. -/
structure Placed (acts : List Act) (t : WayThread) : Prop where
  inHand : ∀ entry ∈ t.pc.inHand, .take entry ∈ acts
  leftLoop : t.pc.leftLoop = true → .drained ∈ acts

theorem placed {nav : NavDB} {flag : Bool} {acts : List Act}
    (h : Trace (Step cfg) ⟨.pop, nav, [], flag⟩ acts t) : Placed acts t := by
  induction h with
  | nil => exact ⟨nofun, nofun⟩
  | @snoc acts t t' act _ hs ih =>
    have hsame : (∀ entry ∈ t'.pc.inHand, entry ∈ t.pc.inHand) →
        (t'.pc.leftLoop = true → t.pc.leftLoop = true) → Placed (acts ++ [act]) t' := by
      intro hhand hleft
      refine ⟨fun entry he => ?_, fun hl => ?_⟩
      · exact List.mem_append_left _ (ih.inHand entry (hhand entry he))
      · exact List.mem_append_left _ (ih.leftLoop (hleft hl))
    cases hs with
    | commit _ => exact hsame (fun _ => id) id
    | take entry _ _ =>
      obtain ⟨hhand, hleft⟩ := WayPc.dispatch_facts cfg t.way_phase_done entry
      refine ⟨fun e he => ?_, fun hl => ?_⟩
      · rw [hhand] at he
        simp [List.mem_singleton.mp he]
      · rw [hleft] at hl
        cases hl
    | drained _ hpc =>
      refine ⟨fun e he => ?_, fun _ => by simp⟩
      dsimp only at he
      split at he <;> cases he
    | select _ _ hpc => exact hsame (by simp [hpc, WayPc.inHand]) nofun
    | located _ hpc => exact hsame (by simp [hpc, WayPc.inHand]) nofun
    | getWay _ _ hpc => exact hsame (by simp [hpc, WayPc.inHand]) nofun
    | collected _ hpc => exact hsame (by simp [hpc, WayPc.inHand]) nofun
    | getWayCoordsMap _ _ hpc => exact hsame (by simp [hpc, WayPc.inHand]) nofun
    | insert _ hpc => exact hsame (by simp [hpc, WayPc.inHand, call]) nofun
    | inserted _ hpc => exact hsame nofun nofun
    | @finalizeWays r _ hpc =>
      cases r <;> exact hsame (by simp [hpc, WayPc.inHand, call]) (by simp [hpc, WayPc.leftLoop, call])
    | @arrive r _ _ hpc =>
      cases r <;> exact hsame (by simp [hpc, WayPc.inHand]) (by simp [hpc, WayPc.leftLoop])
    | wakeRelation _ hpc =>
      refine hsame (fun entry he => ?_) (by simp)
      rw [WayPc.inHand_begin] at he
      rw [hpc]
      exact he
    | wakeDrained _ hpc => exact hsame nofun (by simp [hpc, WayPc.leftLoop])
    | finalizeRelations _ hpc => exact hsame nofun (by simp [hpc, WayPc.leftLoop])
    | destroy _ hpc => exact hsame nofun (by simp [hpc, WayPc.leftLoop])

/-- A thread that starts before the barrier arrives there at most once. -/
theorem arrivals {nav : NavDB} {acts : List Act} (h : Trace (Step cfg) ⟨.pop, nav, [], false⟩ acts t) :
    acts.filterMap Act.arrival = [] ∧ t.status = .before ∨
      (acts.filterMap Act.arrival).length = 1 ∧ t.status ≠ .before := by
  induction h with
  | nil => exact .inl ⟨rfl, rfl⟩
  | @snoc acts t t' act _ hs ih =>
    have hmoves := hs.moves
    rw [List.filterMap_append]
    have hsame : act.arrival = none → t'.status = t.status →
        acts.filterMap Act.arrival ++ [act].filterMap Act.arrival = [] ∧ t'.status = .before ∨
          (acts.filterMap Act.arrival ++ [act].filterMap Act.arrival).length = 1 ∧
            t'.status ≠ .before := by
      intro ha hstatus
      rw [List.filterMap_cons_none ha, List.filterMap_nil, List.append_nil, hstatus]
      exact ih
    cases act with
    | arrive p =>
      obtain ⟨hbefore, hafter⟩ := hmoves
      rcases ih with ⟨hnil, -⟩ | ⟨-, hb⟩
      · refine .inr ⟨by rw [hnil]; rfl, by rw [hafter]; nofun⟩
      · exact absurd hbefore hb
    | wake p =>
      obtain ⟨hwaiting, hafter⟩ := hmoves
      rcases ih with ⟨-, hb⟩ | ⟨hone, -⟩
      · rw [hwaiting] at hb
        cases hb
      · refine .inr ⟨?_, by rw [hafter]; nofun⟩
        rw [List.filterMap_cons_none rfl, List.filterMap_nil, List.append_nil]
        exact hone
    | _ => exact hsame rfl hmoves

/-- Looking up ways. -/
def looksUp : WayPc → Bool
  | .collecting .. | .assembling _ => true
  | _ => false

/-- A thread looks up ways behind the barrier. -/
theorem flag_of_looksUp {nav : NavDB} {flag : Bool} {acts : List Act}
    (h : Trace (Step cfg) ⟨.pop, nav, [], flag⟩ acts t) (hl : looksUp t.pc = true) :
    t.way_phase_done = true := by
  refine h.invariant (I := fun _ t => looksUp t.pc = true → t.way_phase_done = true) nofun ?_ hl
  rintro _ t act t' - ih hs hl
  cases hs with
  | commit _ => exact ih hl
  | take entry _ _ =>
    cases entry with
    | node n => cases hl
    | way w =>
      simp only [dispatch] at hl
      split at hl <;> cases hl
    | relation r =>
      simp only [dispatch] at hl
      split at hl
      · assumption
      · cases hl
  | drained _ _ =>
    dsimp only at hl
    split at hl <;> cases hl
  | getWay _ _ hpc => exact ih (by rw [hpc]; rfl)
  | wakeRelation _ _ => rfl
  | _ => cases hl

end WayThread

end OsmImport
