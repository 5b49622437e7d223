import OsmImport.Import.Proofs.Termination

/-!
# The pipeline delivers

A fresh import of an ordered file: each node reaches one shard once, each way and each relation one way
thread once, and the merge runs once, between the last insert into the store and the first lookup.
-/

namespace OsmImport

open OSMReader Producer

section

variable {fmt : Formats} (cfg : Config) (file : OrderedFile fmt)

theorem sensible_script : Justified (Sensible cfg.node_threads .nodes) (file.script cfg) :=
  sensible_actions cfg.node_threads_pos _

/-- What the producer pushes of an ordered file. -/
theorem pushes_script :
    ((file.script cfg).filterMap Action.sharded).map Prod.snd = file.nodes.map .node ∧
      (file.script cfg).filterMap Action.pushed =
        file.ways.map .way ++ file.relations.map .relation := by
  obtain ⟨v, hloop⟩ := pushes_loop (N := cfg.node_threads) (start .nodes) (batches fmt file.bytes 0).1
  have hnodes : ∀ e ∈ file.nodes.map OSMEntry.node, e.isNode = true := by
    intro e he
    obtain ⟨n, -, rfl⟩ := List.mem_map.mp he
    rfl
  have hrest : ∀ e ∈ file.ways.map OSMEntry.way ++ file.relations.map OSMEntry.relation,
      e.isNode = false := by
    intro e he
    rcases List.mem_append.mp he with he | he
    · obtain ⟨w, -, rfl⟩ := List.mem_map.mp he
      rfl
    · obtain ⟨r, -, rfl⟩ := List.mem_map.mp he
      rfl
  have hend : ∀ l : List OSMEntry, (∀ e ∈ l, e.isNode = false) →
      l.takeWhile OSMEntry.isNode = [] ∧ l.dropWhile OSMEntry.isNode = l := by
    intro l hl
    cases l with
    | nil => exact ⟨rfl, rfl⟩
    | cons e l =>
      have he := hl e List.mem_cons_self
      exact ⟨List.takeWhile_cons_of_neg (by simp [he]), List.dropWhile_cons_of_neg (by simp [he])⟩
  have hsharded := hloop.sharded
  have hpushed := hloop.pushed
  rw [file.ordered] at hsharded hpushed
  constructor
  · rw [OrderedFile.script, Producer.run, actions_observed (fun _ => rfl) rfl]
    refine hsharded.trans ?_
    rw [List.takeWhile_append_of_pos hnodes, (hend _ hrest).1, List.append_nil]
    rfl
  · rw [OrderedFile.script, Producer.run, actions_observed (fun _ => rfl) rfl]
    refine hpushed.trans ?_
    rw [List.dropWhile_append_of_pos hnodes, (hend _ hrest).2]
    rfl

/-- Ids up to one for which the platform has room. -/
theorem hasRoom_fresh {osmmap : OSMMMap} {max_id : Int64}
    (hroom : osmmap.platform.Roomy max_id cfg.node_threads)
    (hids : ∀ n ∈ file.nodes, sizeT n.id ≤ sizeT max_id) : HasRoom cfg osmmap (file.script cfg) := by
  intro i n hmem
  have hn : .node n ∈ file.nodes.map OSMEntry.node := by
    rw [← (pushes_script cfg file).1]
    exact List.mem_map.mpr ⟨(i, .node n), List.mem_filterMap.mpr ⟨_, hmem, rfl⟩, rfl⟩
  obtain ⟨n', hn', h⟩ := List.mem_map.mp hn
  cases h
  exact ⟨max_id, hids n hn', hroom⟩

/-- The shards of the script are the nodes of the file. -/
theorem shards_script :
    ((List.range cfg.node_threads).flatMap fun i => shard i (file.script cfg)).Perm
      (file.nodes.map .node) := by
  have hperm := perm_flatMap_filter (List.nodup_range (n := cfg.node_threads)) Prod.fst
    (l := (file.script cfg).filterMap Action.sharded) ?_
  · have hmap := hperm.map Prod.snd
    rw [List.map_flatMap, (pushes_script cfg file).1] at hmap
    exact hmap
  · rintro ⟨i, entry⟩ hmem
    obtain ⟨a, ha, hsharded⟩ := List.mem_filterMap.mp hmem
    cases a <;> cases hsharded
    obtain ⟨pre, post, hsplit⟩ := List.append_of_mem ha
    exact List.mem_range.mpr (sensible_script cfg file pre _ post hsplit).2.1

end

section

variable {fmt : Formats} {cfg : Config} {file : OrderedFile fmt}
  {offer : Database → List Statement → Database} {osmmap : OSMMMap} {db : Database}
  {log : List ImportEvent} {s : Import} (hphase : cfg.resume_phase = .nodes)
include hphase

theorem sensible_fresh :
    Justified (Sensible cfg.node_threads cfg.resume_phase) (file.script cfg) := by
  rw [hphase]
  exact sensible_script cfg file

variable (h : Trace (Import.Step cfg offer) (Import.start cfg osmmap db (file.script cfg)) log s)
include h

/-- When no node thread is in its loop any more, the nodes are stored. -/
theorem nodesStored (hall : ∀ i < cfg.node_threads, (s.node i).status ≠ .before) :
    NodesStored cfg file log := by
  have hshards : ((List.range cfg.node_threads).flatMap fun i => storedBy i log).map OSMEntry.node =
      (List.range cfg.node_threads).flatMap fun i => shard i (file.script cfg) := by
    rw [List.map_flatMap]
    apply List.flatMap_congr
    intro i hi
    exact storedBy_eq h (sensible_fresh hphase) (hall i (List.mem_range.mp hi))
  have hperm := hshards ▸ shards_script cfg file
  exact (List.map_perm_map_iff fun _ _ => OSMEntry.node.inj).mp hperm

theorem mergeInOrder : Justified (MergeInOrder cfg file) log := by
  induction h with
  | nil => exact justified_nil
  | @snoc log s s' e h hstep ih =>
    refine justified_concat.mpr ⟨ih, ?_⟩
    have hb := node_barrier h
    cases hstep with
    | mergeStart harrived hm =>
      obtain ⟨hzero, hwaiting⟩ := hb.oneShot.all_waiting cfg.node_threads_pos harrived
      refine ⟨nodesStored hphase h fun i hi => by simp [hwaiting i hi], ?_⟩
      cases hb.merge with
      | idle _ _ _ hmarks => exact hmarks
      | running ht _ _ _ _ =>
        rw [hm] at ht
        cases ht
      | finished _ hone _ _ =>
        rw [hzero] at hone
        cases hone
    | node _ ht _ => cases ht <;> trivial
    | @way i act t sh' hi ht he =>
      cases act with
      | select id pos =>
        have htaken : ∃ entry, .take entry ∈ acts (.way i) log := by
          cases ht with
          | @select w _ refs coords _ _ hpc =>
            refine ⟨.way w, (WayThread.placed (trace_way h i)).inHand _ ?_⟩
            rw [hpc]
            exact List.mem_singleton.mpr rfl
        obtain ⟨entry, hentry⟩ := htaken
        exact (merged_of_taken h (sensible_fresh hphase) (by rw [hphase]; rfl) hentry).1
      | _ => trivial
    | _ => trivial

/-- At the end. -/
theorem delivered (hend : s.script = []) :
    NodesStored cfg file log ∧ EntriesTaken cfg file log ∧ mergeMarks log = [.started, .finished] := by
  have hs : Justified (Sensible cfg.node_threads cfg.resume_phase) (file.script cfg) :=
    sensible_fresh hphase
  have hproduced : produced log = file.script cfg := by
    rw [← produced_script h, hend, List.append_nil]
  have hworkers : cfg.nodeWorkers = cfg.node_threads := by
    rw [Config.nodeWorkers, hphase]
    rfl
  obtain ⟨hnodes, hways⟩ := ended_of_joined h
  have hjoins : .joinNodes ∈ file.script cfg ∧ .joinWays ∈ file.script cfg := by
    rw [OrderedFile.script, Producer.run, actions, show seekPosition .nodes _ = 0 from rfl,
      file.complete, if_pos rfl]
    constructor <;> simp [finish]
  rw [hproduced, hworkers] at hnodes
  rw [hproduced] at hways
  have hpassed : ∀ i < cfg.node_threads, (s.node i).status = .passed := by
    intro i hi
    rw [NodeThread.status, (hnodes hjoins.1 i hi).1]
  refine ⟨nodesStored hphase h fun i hi => by simp [hpassed i hi], ?_, ?_⟩
  · have hleft : (s.way 0).pc.leftLoop = true := by
      rw [(hways hjoins.2 0 cfg.way_threads_pos).1]
      rfl
    have htaken := taken_ways h hs ((WayThread.placed (trace_way h 0)).leftLoop hleft)
    rw [hproduced, (pushes_script cfg file).2] at htaken
    exact htaken
  · have hphase1 := ((node_barrier h).oneShot.all_arrived cfg.node_threads_pos
      (hpassed 0 cfg.node_threads_pos)).1
    cases (node_barrier h).merge with
    | idle _ hzero _ _ => omega
    | running _ hzero _ _ _ => omega
    | finished _ _ _ hmarks => exact hmarks

end

/-- **Exactly once.** In every run of a fresh import no queue holds more than its bound before its
shutdown, the merge starts behind the last insert into the store and has not started before, and every
lookup comes behind its end. The run does not go on forever, and does not get stuck, unless an insert throws;
at its end each node was inserted into one shard once, each way and relation was taken by one way thread
once, and the merge has run once. -/
theorem import_delivers {fmt : Formats} {cfg : Config} (hphase : cfg.resume_phase = .nodes)
    {file : OrderedFile fmt} {offer : Database → List Statement → Database} {osmmap : OSMMMap}
    {db : Database} {log : List ImportEvent} {s : Import}
    (h : Trace (Import.Step cfg offer) (Import.start cfg osmmap db (file.script cfg)) log s) :
    (∀ who, (s.shared.queue who).Bounded cfg.queue_size) ∧
    Justified (MergeInOrder cfg file) log ∧
    (s.script = [] → NodesStored cfg file log ∧ EntriesTaken cfg file log ∧
      mergeMarks log = [.started, .finished]) ∧
    ((¬ ∃ e s', Import.Step cfg offer s e s') → s.script = [] ∨ s.Refused cfg) ∧
    ¬ ∃ run : ℕ → Import, run 0 = Import.start cfg osmmap db (file.script cfg) ∧
      ∀ n, ∃ e, Import.Step cfg offer (run n) e (run (n + 1)) := by
  refine ⟨bounded_queue h, mergeInOrder hphase h, delivered hphase h, fun hstuck => ?_,
    Import.not_infinite osmmap db _⟩
  by_cases hscript : s.script = []
  · exact .inl hscript
  · exact .inr ((progress h (sensible_fresh hphase) hscript).resolve_left hstuck)

/-- An import with two node threads, two way threads and short queues. -/
def smallConfig : Config where
  node_threads := 2
  way_threads := 2
  queue_size := 1
  node_threads_pos := by decide
  way_threads_pos := by decide
  queue_size_pos := by decide
  use_mercator := false
  resume_phase := .nodes
  env := plainEnv
  dumpPoints := fun _ => []
  ties stored points := points = stored
  ties_perm _ _ h := h ▸ List.Perm.refl _
  ties_exists stored := ⟨stored, rfl⟩
  lz4 := .stored

/-- A file with three nodes, two ways and a relation. -/
def smallFile := OrderedFile.oneBlob
  [⟨1, [], .none, ⟨1⟩, ⟨2⟩⟩, ⟨2, [], .none, ⟨3⟩, ⟨4⟩⟩, ⟨3, [], .none, ⟨5⟩, ⟨6⟩⟩]
  [⟨7, [], .none, [1, 2]⟩, ⟨8, [], .none, [2, 3]⟩] [⟨9, [], .none, [⟨7, []⟩, ⟨8, []⟩]⟩]

/-- An empty database. -/
def blankDb : Database := ⟨fun _ => [], fun _ => [], none⟩

theorem small_hasRoom : HasRoom smallConfig noStore (smallFile.script smallConfig) :=
  hasRoom_fresh smallConfig smallFile (OSMMMap.roomy_plain 2) (by decide)

theorem import_delivers_small :
    ∃ log s, Trace (Import.Step smallConfig Database.commit)
        (Import.start smallConfig noStore blankDb (smallFile.script smallConfig)) log s ∧
      s.script = [] ∧ NodesStored smallConfig smallFile log ∧ EntriesTaken smallConfig smallFile log ∧
        mergeMarks log = [.started, .finished] := by
  have hstart : Trace (Import.Step smallConfig Database.commit)
    (Import.start smallConfig noStore blankDb (smallFile.script smallConfig)) [] _ := .nil
  obtain ⟨log, s, h, hend⟩ := Import.finishes (sensible_script smallConfig smallFile) small_hasRoom hstart
  exact ⟨log, s, h, hend, (import_delivers rfl h).2.2.1 hend⟩

end OsmImport
