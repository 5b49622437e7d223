import OsmImport.Import.Proofs.WaysVisible
import OsmImport.Store.Proofs.NodeStore

/-!
# The nodes that lookups find

The inserts of the node threads are the node phase of the store, and the merge comes behind them. So when
the import is over, `select` finds the nodes of the file, and with `select_agrees` so did the way threads
(`select_import`).
-/

namespace OsmImport

open OSMMMap

/-- What is done to the shards. -/
def ImportEvent.shardOp : ImportEvent → Option ShardOp
  | .thread (.node i) (.store _ record) => some (.insert i record)
  | _ => none

section

variable {cfg : Config} {offer : Database → List Statement → Database} {osmmap : OSMMMap} {db : Database}
  {script : List Action} {log : List ImportEvent} {s : Import}
  (h : Trace (Import.Step cfg offer) (Import.start cfg osmmap db script) log s)
include h

/-- The inserts have returned, and the store is in its node phase or merged. -/
theorem osmmap_eq :
    ∃ st, runOps CHUNK_SIZE osmmap (log.filterMap ImportEvent.shardOp) = .ok st ∧
      (s.shared.node_barrier.phase = 0 → s.shared.osmmap = st) ∧
      (s.shared.node_barrier.phase = 1 → s.shared.osmmap = merge cfg.lz4 st) := by
  induction h with
  | nil => exact ⟨osmmap, rfl, fun _ => rfl, fun h => by cases h⟩
  | @snoc log s s' e h hstep ih =>
    obtain ⟨st, hrun, hzero, hone⟩ := ih
    rw [List.filterMap_append]
    have hsame : e.shardOp = none → s'.shared.osmmap = s.shared.osmmap →
        s'.shared.node_barrier.phase = s.shared.node_barrier.phase →
          ∃ st, runOps CHUNK_SIZE osmmap (log.filterMap ImportEvent.shardOp ++
              [e].filterMap ImportEvent.shardOp) = .ok st ∧
            (s'.shared.node_barrier.phase = 0 → s'.shared.osmmap = st) ∧
            (s'.shared.node_barrier.phase = 1 → s'.shared.osmmap = merge cfg.lz4 st) := by
      intro he hmap hphase
      rw [List.filterMap_cons_none he, List.filterMap_nil, List.append_nil, hmap, hphase]
      exact ⟨st, hrun, hzero, hone⟩
    have hphase : ∀ {who : Who} {act : Act} {sh' : Shared}, Effect cfg offer who s.shared sh' act →
        sh'.node_barrier.phase = s.shared.node_barrier.phase := by
      intro who act sh' he
      rcases he.barriers with hb | ⟨-, -, rfl⟩
      · rw [hb.node_barrier]
      · cases who <;> rfl
    cases hstep with
    | producer _ hp => exact hsame rfl hp.data.1 (by rw [hp.barriers.node_barrier])
    | @node i act t sh' hi ht he =>
      cases act with
      | store n record =>
        have hbefore : (s.node i).status = .before := by
          cases ht with
          | store _ hpc => simp [NodeThread.status, hpc]
        have hphase0 := ((node_barrier h).oneShot.of_before (hi.trans_le nodeWorkers_le) hbefore).1
        obtain ⟨j, m, hj, hins, rfl⟩ := he
        cases hj
        refine ⟨m, ?_, fun _ => rfl, fun hnext => ?_⟩
        · exact runOps_insert hrun (hzero hphase0 ▸ hins)
        · cases hphase0.symm.trans hnext
      | _ => exact hsame rfl (he.data.1 (by simp)) (hphase he)
    | way _ ht he =>
      refine hsame rfl (he.data.1 ?_) (hphase he)
      rintro n r rfl
      cases ht
    | mergeStart _ _ => exact hsame rfl rfl rfl
    | mergeFinish hm =>
      have hphase0 : s.shared.node_barrier.phase = 0 := by
        cases (node_barrier h).merge with
        | idle hf _ _ _ => simp [hm] at hf
        | running _ hzero _ _ _ => exact hzero
        | finished hf _ _ _ => simp [hm] at hf
      refine ⟨st, ?_, fun hnext => absurd hnext (Nat.succ_ne_zero _), fun _ => ?_⟩
      · rw [List.filterMap_cons_none rfl, List.filterMap_nil, List.append_nil, hrun]
      · rw [← hzero hphase0]
    | release _ => exact hsame rfl rfl rfl

/-- A node thread inserts the position of the node. -/
theorem record_of_store {i : ℕ} {n : NodeEntry} {record : Record}
    (hmem : .store n record ∈ acts (.node i) log) : record = NodeThread.record cfg n := by
  refine (trace_node h i).invariant
    (I := fun tr _ => .store n record ∈ tr → record = NodeThread.record cfg n) nofun ?_ hmem
  intro tr t a t' _ ih hstep hmem
  rcases List.mem_append.mp hmem with hmem | hmem
  · exact ih hmem
  · cases List.mem_singleton.mp hmem
    cases hstep
    rfl

theorem recordsAt_eq (i : ℕ) : recordsAt (log.filterMap ImportEvent.shardOp) i =
    (storedBy i log).map (NodeThread.record cfg) := by
  rw [recordsAt, storedBy, acts, List.filterMap_filterMap, List.filterMap_filterMap,
    List.map_filterMap]
  apply List.filterMap_congr
  intro e he
  cases e with
  | thread who act =>
    cases who with
    | way j => cases act <;> rfl
    | node j =>
      cases act with
      | store n record =>
        rw [record_of_store h (mem_acts.mpr he)]
        by_cases hj : j = i <;> simp [ImportEvent.shardOp, ShardOp.recordAt, ImportEvent.act, Act.stored, hj]
      | _ =>
        by_cases hj : j = i <;> simp [ImportEvent.shardOp, ImportEvent.act, Act.stored, hj]
  | _ => rfl

end

/-- At the end of a fresh import, a lookup in the store finds the position of the node of the file. -/
theorem select_import {fmt : Formats} {cfg : Config} {file : OrderedFile fmt}
    {offer : Database → List Statement → Database} {osmmap : OSMMMap} {db : Database}
    {log : List ImportEvent} {s : Import} {max_id : Int64} (hphase : cfg.resume_phase = .nodes)
    (hst : Created max_id cfg.node_threads osmmap)
    (hids : (file.nodes.map NodeEntry.id).Nodup)
    (hrange : ∀ n ∈ file.nodes, 0 ≤ n.id ∧ n.id ≤ max_id)
    (h : Trace (Import.Step cfg offer) (Import.start cfg osmmap db (file.script cfg)) log s)
    (hend : s.script = []) (id : Int64) : s.shared.osmmap.select id =
      lastWrite (file.nodes.map fun n => (n.id, NodeThread.position cfg n)) id := by
  obtain ⟨hstored, -, hmarks⟩ := delivered hphase h hend
  have hone : s.shared.node_barrier.phase = 1 := by
    cases (node_barrier h).merge with
    | idle _ _ _ hm => cases hm.symm.trans hmarks
    | running _ _ _ _ hm => cases hm.symm.trans hmarks
    | finished _ hone _ _ => exact hone
  have hmajor : (shardMajor cfg.node_threads (log.filterMap ImportEvent.shardOp)).Perm
      (file.nodes.map (NodeThread.record cfg)) := by
    refine List.Perm.trans (List.Perm.of_eq ?_) (hstored.map (NodeThread.record cfg))
    rw [shardMajor, List.map_flatMap]
    exact List.flatMap_congr fun i _ => recordsAt_eq h i
  have hin : ∀ i < cfg.node_threads, ∀ r ∈ recordsAt (log.filterMap ImportEvent.shardOp) i,
      InRange max_id r.id := by
    intro i hi r hr
    have hmem : r ∈ shardMajor cfg.node_threads (log.filterMap ImportEvent.shardOp) :=
      List.mem_flatMap.mpr ⟨i, List.mem_range.mpr hi, hr⟩
    obtain ⟨n, hn, rfl⟩ := List.mem_map.mp (hmajor.mem_iff.mp hmem)
    exact inRange_of_le (fresh_of_created hst).covers.nonneg (hrange n hn).1 (hrange n hn).2
  obtain ⟨st, hrun, -, hmerged⟩ := osmmap_eq h
  rw [hmerged hone, filled_of_run hrun, select_merge_fresh cfg.lz4 (fresh_of_created hst) CHUNK_SIZE _ hin]
  have hkeys : (((file.nodes.map (NodeThread.record cfg)).map entry).map Prod.fst).Nodup := by
    rw [List.map_map, List.map_map]
    exact hids
  rw [← lastWrite_perm (hmajor.map entry).symm hkeys, List.map_map]
  rfl

end OsmImport
