import OsmImport.Import.Proofs.ResumeOffsets
import OsmImport.Lib.Trace
import Mathlib.Data.List.TakeWhile

/-!
# The order of the producer's actions

What the producer has done before it does something (`Sensible`), for any file: it pushes to no queue
that it has shut down, and waits for the merge or for the node threads only when their queues are shut
down. Of a file that is ordered it pushes the nodes to the node queues in turn, and the rest to `way_q`.
-/

namespace OsmImport

open OSMReader Producer

/-- What comes before an action. -/
def Sensible (node_threads : ℕ) (resume_phase : Resume) (pre : List Action) : Action → Prop
  | .pushNode i entry => skip_nodes resume_phase = false ∧ i < node_threads ∧
    entry.isNode = true ∧ .shutdownNode i ∉ pre
  | .pushWay _ => (skip_nodes resume_phase = true ∨ .waitMerge ∈ pre) ∧ .shutdownWay ∉ pre
  | .waitMerge => ∀ i < node_threads, .shutdownNode i ∈ pre
  | .joinNodes => ∀ i < node_threads, .shutdownNode i ∈ pre
  | .joinWays => .joinNodes ∈ pre ∧ .shutdownWay ∈ pre
  | _ => True

section

variable {N : ℕ} {phase : Resume} {v : Vars} {pre : List Action}

/-- The producer in its loop. -/
structure Underway (N : ℕ) (phase : Resume) (v : Vars) (pre : List Action) : Prop where
  sensible : Justified (Sensible N phase) pre
  opened : v.node_phase = true → skip_nodes phase = false ∧ ∀ i, .shutdownNode i ∉ pre
  merged : v.node_phase = false → skip_nodes phase = true ∨ .waitMerge ∈ pre
  ways : .shutdownWay ∉ pre

theorem mem_shutdownNodes {i : ℕ} (hi : i < N) : .shutdownNode i ∈ shutdownNodes N :=
  List.mem_map.mpr ⟨i, List.mem_range.mpr hi, rfl⟩

theorem sensible_shutdownNodes (h : Justified (Sensible N phase) pre) :
    Justified (Sensible N phase) (pre ++ shutdownNodes N) := by
  rw [justified_append]
  refine ⟨h, ?_⟩
  intro mid a post hsplit
  have ha : a ∈ shutdownNodes N := hsplit ▸ List.mem_append_right mid List.mem_cons_self
  obtain ⟨i, -, rfl⟩ := List.mem_map.mp ha
  trivial

theorem underway_endNodePhase (h : Underway N phase v pre) (blob_start : ℕ) :
    Underway N phase { v with node_phase := false } (pre ++ endNodePhase N blob_start v) := by
  unfold endNodePhase
  split
  · have hshut := sensible_shutdownNodes h.sensible
    rw [← List.append_assoc, List.append_cons]
    refine ⟨?_, nofun, fun _ => .inr (by simp), ?_⟩
    · rw [justified_concat, justified_concat]
      refine ⟨⟨hshut, trivial⟩, fun i hi => ?_⟩
      exact List.mem_append_left _ (List.mem_append_right _ (mem_shutdownNodes hi))
    · intro hmem
      simp [shutdownNodes, h.ways] at hmem
  · rename_i hv
    rw [List.append_nil]
    exact ⟨h.sensible, nofun, fun _ => h.merged (by simpa using hv), h.ways⟩

theorem underway_noteRelation (h : Underway N phase v pre) (hv : v.node_phase = false)
    (blob_start : ℕ) (w : Vars) (entry : OSMEntry) :
    Underway N phase v (pre ++ noteRelation blob_start w entry) := by
  unfold noteRelation
  split
  · refine ⟨?_, fun hf => ?_, fun _ => ?_, ?_⟩
    · exact justified_concat.mpr ⟨h.sensible, trivial⟩
    · rw [hv] at hf
      cases hf
    · exact (h.merged hv).imp_right (List.mem_append_left _)
    · simp [h.ways]
  · rw [List.append_nil]
    exact h

theorem underway_step (hN : 0 < N) (h : Underway N phase v pre) (blob_start : ℕ) (entry : OSMEntry) :
    Underway N phase (step N phase blob_start v entry).1
      (pre ++ (step N phase blob_start v entry).2) := by
  unfold step
  split
  · rename_i hnode
    obtain ⟨hv, hnode⟩ := (Bool.and_eq_true ..).mp hnode
    split
    · rw [List.append_nil]
      exact h
    · obtain ⟨hskip, hopened⟩ := h.opened hv
      refine ⟨?_, fun _ => ⟨hskip, fun i => ?_⟩, fun hf => ?_, ?_⟩
      · exact justified_concat.mpr ⟨h.sensible, hskip, Nat.mod_lt _ hN, hnode, hopened _⟩
      · simp [hopened i]
      · rw [show v.node_phase = false from hf] at hv
        cases hv
      · simp [h.ways]
  · have hend := underway_endNodePhase h blob_start
    dsimp only
    split
    · exact hend
    · have hnote := underway_noteRelation hend rfl blob_start v entry
      rw [List.append_assoc] at hnote
      refine ⟨?_, fun hf => ?_, fun _ => ?_, ?_⟩
      · rw [← List.append_assoc]
        exact justified_concat.mpr ⟨hnote.sensible, hnote.merged rfl, hnote.ways⟩
      · cases hf
      · rw [← List.append_assoc]
        exact (hnote.merged rfl).imp_right (List.mem_append_left _)
      · rw [← List.append_assoc]
        intro hmem
        rcases List.mem_append.mp hmem with hmem | hmem
        · exact hnote.ways hmem
        · simp at hmem

theorem underway_batch (hN : 0 < N) (h : Underway N phase v pre) (blob_start : ℕ)
    (batch : List OSMEntry) : Underway N phase (batchActions N phase blob_start v batch).1
      (pre ++ (batchActions N phase blob_start v batch).2) := by
  induction batch generalizing v pre with
  | nil =>
    rw [show (batchActions N phase blob_start v []).2 = [] from rfl, List.append_nil]
    exact h
  | cons entry batch ih =>
    have hstep := ih (underway_step hN h blob_start entry)
    rw [List.append_assoc] at hstep
    exact hstep

theorem underway_loop (hN : 0 < N) (h : Underway N phase v pre) (blobs : List (ℕ × List OSMEntry)) :
    ∃ v', Underway N phase v' (pre ++ loopActions N phase v blobs) := by
  induction blobs generalizing v pre with
  | nil => exact ⟨v, (List.append_nil pre).symm ▸ h⟩
  | cons b blobs ih =>
    obtain ⟨v', hv'⟩ := ih (underway_batch hN h b.1 b.2)
    rw [List.append_assoc] at hv'
    exact ⟨v', hv'⟩

theorem underway_start : Underway N phase (start phase)
    (if skip_nodes phase then shutdownNodes N else []) := by
  split
  · rename_i hskip
    refine ⟨?_, fun hf => ?_, fun _ => .inl hskip, by simp [shutdownNodes]⟩
    · rw [← List.nil_append (shutdownNodes N)]
      exact sensible_shutdownNodes justified_nil
    · simp [start, hskip] at hf
  · rename_i hskip
    have hskip' : skip_nodes phase = false := by simpa using hskip
    refine ⟨justified_nil, fun _ => ⟨hskip', fun _ => List.not_mem_nil⟩, fun hf => ?_, List.not_mem_nil⟩
    simp [start, hskip] at hf

/-- The producer acts in order, whatever it reads. -/
theorem sensible_actions (hN : 0 < N) (read : List (ℕ × List OSMEntry) × Ending) :
    Justified (Sensible N phase) (actions N phase read) := by
  have hstart : Underway N phase _ _ := underway_start
  obtain ⟨v, hv⟩ := underway_loop hN hstart read.1
  unfold actions
  generalize (if skip_nodes phase then shutdownNodes N else []) ++
    loopActions N phase (start phase) read.1 = pre at hv ⊢
  split
  · have hfinish : pre ++ finish N =
        ((pre ++ shutdownNodes N ++ [.joinNodes]) ++ [.shutdownWay]) ++ [.joinWays] := by
      simp [finish]
    rw [hfinish, justified_concat, justified_concat, justified_concat]
    refine ⟨⟨⟨sensible_shutdownNodes hv.sensible, fun i hi => ?_⟩, trivial⟩, by simp, by simp⟩
    exact List.mem_append_right _ (mem_shutdownNodes hi)
  · rw [List.append_nil]
    exact hv.sensible

end

/-! ## What is pushed -/

/-- The entry that an action hands to a node thread, and to which. -/
def Action.sharded : Action → Option (ℕ × OSMEntry)
  | .pushNode i entry => some (i, entry)
  | _ => none

/-- What the loop of a fresh import pushes for these entries. -/
structure Pushes (v v' : Vars) (entries : List OSMEntry) (acts : List Action) : Prop where
  phase : v'.node_phase = (v.node_phase && entries.all OSMEntry.isNode)
  sharded : (acts.filterMap Action.sharded).map Prod.snd =
    if v.node_phase then entries.takeWhile OSMEntry.isNode else []
  pushed : acts.filterMap Action.pushed =
    if v.node_phase then entries.dropWhile OSMEntry.isNode else entries

section

variable {N : ℕ} {v v' v'' : Vars}

theorem Pushes.nil (v : Vars) : Pushes v v [] [] := by
  constructor <;> simp

theorem Pushes.append {es es' : List OSMEntry} {as as' : List Action} (h : Pushes v v' es as)
    (h' : Pushes v' v'' es' as') : Pushes v v'' (es ++ es') (as ++ as') := by
  have hsplit : (es ++ es').takeWhile OSMEntry.isNode = (if es.all OSMEntry.isNode then
        es ++ es'.takeWhile OSMEntry.isNode else es.takeWhile OSMEntry.isNode) ∧
      (es ++ es').dropWhile OSMEntry.isNode = if es.all OSMEntry.isNode then
        es'.dropWhile OSMEntry.isNode else es.dropWhile OSMEntry.isNode ++ es' := by
    clear h
    induction es with
    | nil => simp
    | cons e es ih =>
      cases he : e.isNode with
      | false => simp [he]
      | true =>
        simp only [List.cons_append, List.takeWhile_cons_of_pos he, List.dropWhile_cons_of_pos he,
          List.all_cons, he, Bool.true_and, ih]
        exact ⟨by split <;> rfl, trivial⟩
  have hall : es.all OSMEntry.isNode = true →
      es.takeWhile OSMEntry.isNode = es ∧ es.dropWhile OSMEntry.isNode = [] := by
    intro hall
    have hmem : ∀ e ∈ es, e.isNode = true := List.all_eq_true.mp hall
    exact ⟨List.takeWhile_eq_self_iff.mpr hmem, List.dropWhile_eq_nil_iff.mpr hmem⟩
  refine ⟨?_, ?_, ?_⟩
  · rw [h'.phase, h.phase, List.all_append, Bool.and_assoc]
  · rw [List.filterMap_append, List.map_append, h.sharded, h'.sharded, h.phase, hsplit.1]
    cases v.node_phase <;> cases hes : es.all OSMEntry.isNode <;> simp [hall, hes]
  · rw [List.filterMap_append, h.pushed, h'.pushed, h.phase, hsplit.2]
    cases v.node_phase <;> cases hes : es.all OSMEntry.isNode <;> simp [hall, hes]

theorem pushes_step (blob_start : ℕ) (v : Vars) (entry : OSMEntry) :
    Pushes v (step N .nodes blob_start v entry).1 [entry] (step N .nodes blob_start v entry).2 := by
  have hend : ∀ {β : Type} {g : Action → Option β}, (∀ i, g (.shutdownNode i) = none) →
      (∀ o, g (.writeResumeOffset o) = none) → g .waitMerge = none →
        (endNodePhase N blob_start v).filterMap g = [] := by
    intro β g hshut hwrite hwait
    unfold endNodePhase
    split
    · rw [List.filterMap_append, shutdownNodes_observed hshut, List.nil_append,
        List.filterMap_cons_none (hwrite _), List.filterMap_cons_none hwait, List.filterMap_nil]
    · rfl
  have hnote : ∀ {β : Type} {g : Action → Option β}, (∀ o, g (.writeRelationsResumeOffset o) = none) →
      (noteRelation blob_start v entry).filterMap g = [] := by
    intro β g hwrite
    unfold noteRelation
    split
    · rw [List.filterMap_cons_none (hwrite _), List.filterMap_nil]
    · rfl
  unfold step
  split
  · rename_i hnode
    obtain ⟨hv, hnode⟩ := (Bool.and_eq_true ..).mp hnode
    constructor <;> simp [hv, hnode, Action.sharded, Action.pushed]
  · rename_i hnode
    have hphase : (v.node_phase && entry.isNode) = false := by simpa using hnode
    have hother : v.node_phase = true → ¬ entry.isNode = true := by
      intro hv
      rw [hv, Bool.true_and] at hphase
      exact Bool.eq_false_iff.mp hphase
    constructor
    · simp [hphase]
    · simp only [reduceCtorEq, decide_false, Bool.false_and, Bool.false_eq_true, if_false]
      rw [List.filterMap_append, List.filterMap_append, hend (fun _ => rfl) (fun _ => rfl) rfl,
        hnote fun _ => rfl]
      split
      · rename_i hv
        rw [List.takeWhile_cons_of_neg (hother hv)]
        rfl
      · rfl
    · simp only [reduceCtorEq, decide_false, Bool.false_and, Bool.false_eq_true, if_false]
      rw [List.filterMap_append, List.filterMap_append, hend (fun _ => rfl) (fun _ => rfl) rfl,
        hnote fun _ => rfl]
      split
      · rename_i hv
        rw [List.dropWhile_cons_of_neg (hother hv)]
        rfl
      · rfl

theorem pushes_batch (blob_start : ℕ) (v : Vars) (batch : List OSMEntry) :
    Pushes v (batchActions N .nodes blob_start v batch).1 batch
      (batchActions N .nodes blob_start v batch).2 := by
  induction batch generalizing v with
  | nil => exact .nil v
  | cons entry batch ih => exact (pushes_step blob_start v entry).append (ih _)

theorem pushes_loop (v : Vars) (blobs : List (ℕ × List OSMEntry)) :
    ∃ v', Pushes v v' (blobs.flatMap Prod.snd) (loopActions N .nodes v blobs) := by
  induction blobs generalizing v with
  | nil => exact ⟨v, .nil v⟩
  | cons b blobs ih =>
    obtain ⟨v', hv'⟩ := ih (batchActions N .nodes b.1 v b.2).1
    exact ⟨v', (pushes_batch b.1 v b.2).append hv'⟩

end

end OsmImport
