import OsmImport.Import.Proofs.BehindMerge
import OsmImport.Import.ResumeWays
import OsmImport.Store.Proofs.Resize

/-!
# Resuming at the ways

The store that is opened again finds the same nodes, so the resumed import builds the same rows from ways
and relations. The tables of ways and areas are filled from the beginning; a row of a relation that is
there already is refused when it comes again, but its tags are there twice.
-/

namespace OsmImport

open NavDB OSMReader Producer Postgres KeyedInsert OSMMMap

/-! ## The store that is opened again -/

/-- What the node threads insert is from the file, and fits. -/
theorem insertsFit {fmt : Formats} {chk : Checks} {cfg : Config} {file : OrderedFile fmt} {max_id : Int64}
    {osmmap : OSMMMap} {db : Database} {log : List ImportEvent} {s : Import}
    (hphase : cfg.resume_phase = .nodes)
    (h : Trace (Import.Step cfg (Database.offer chk)) (Import.start cfg osmmap db (file.script cfg)) log s)
    (harrived : ∀ i < cfg.node_threads, (s.node i).status ≠ .before)
    (hrange : ∀ n ∈ file.nodes, 0 ≤ n.id ∧ n.id ≤ max_id) :
    InsertsFit max_id cfg.node_threads (log.filterMap ImportEvent.shardOp) := by
  rintro ⟨i, r⟩ hmem
  obtain ⟨op, hop, hins⟩ := List.mem_filterMap.mp hmem
  obtain ⟨e, he, hshard⟩ := List.mem_filterMap.mp hop
  cases e with
  | thread who act =>
    cases who <;> cases act <;> cases hshard
    rename_i j n record
    cases hins
    have hi := ((thread_lt h he).1 i rfl).trans_le nodeWorkers_le
    obtain rfl := record_of_store h (mem_acts.mpr he)
    refine ⟨hi, hrange n ((nodesStored hphase h harrived).mem_iff.mp ?_)⟩
    exact List.mem_flatMap.mpr ⟨i, List.mem_range.mpr hi, List.mem_filterMap.mpr ⟨_, mem_acts.mpr he, rfl⟩⟩
  | _ => cases hshard

section

variable {fmt : Formats} {chk : Checks} {cfg : Config} {file : OrderedFile fmt} {max_id : Int64}
  (run : InterruptedWays chk cfg file) (hst : Created max_id cfg.node_threads run.osmmap)
  (hrange : ∀ n ∈ file.nodes, 0 ≤ n.id ∧ n.id ≤ max_id)
include hst hrange

/-- The files of the store at a crash behind the merge. -/
theorem InterruptedWays.files : Covers run.crashed.shared.osmmap max_id ∧
    Sized run.crashed.shared.osmmap ∧ NoPadding run.crashed.shared.osmmap max_id := by
  have hskip : skip_nodes cfg.resume_phase = false := by
    rw [run.fresh]
    rfl
  have hfit := insertsFit run.fresh run.crash (fun k hk => arrived_of_merged hskip run.crash run.merged .nil
    ((nodeWorkers_of_nodes hskip).symm ▸ hk)) hrange
  have hf := fresh_of_created hst
  obtain ⟨st, hrun, -, hmerged⟩ := osmmap_eq run.crash
  rw [hmerged (phase_of_merged hskip run.crash run.merged .nil), filled_of_run hrun]
  exact merged_files cfg.lz4 hf hst CHUNK_SIZE hfit

/-- The store that the crash leaves on disk finds the same nodes when it is opened again. -/
theorem InterruptedWays.select_reopened {plat : Platform} {reached : ℕ → ℕ} {n' : ℕ} {st : OSMMMap}
    (hopen : openStore plat (OSMMMap.crash cfg.lz4 reached run.crashed.shared.osmmap) max_id n' false =
      .ok st) :
    st.select = run.crashed.shared.osmmap.select := by
  obtain ⟨hc, hs, hpad⟩ := run.files hst hrange
  obtain rfl := eq_resumed rfl rfl hopen
  funext id
  rw [select_grown hc hs hpad (covers_of_open hopen) rfl rfl]
  split
  · rfl
  · rename_i hin
    exact (select_of_not_inRange hc hin).symm

/-- The platform of the crashed import maps its files again. -/
theorem InterruptedWays.resumes (reached : ℕ → ℕ) :
    run.osmmap.platform.Resumes (OSMMMap.crash cfg.lz4 reached run.crashed.shared.osmmap) max_id := by
  obtain ⟨hc, hs, -⟩ := run.files hst hrange
  have hgrants := (fresh_of_created hst).grants
  obtain ⟨hdsz, hbsz⟩ := sizes_eq hc.bound
  have hdata : run.crashed.shared.osmmap.merged.size = dataSz max_id := by rw [hs.1, hc.data, hdsz]
  have hbits : run.crashed.shared.osmmap.merged_bm.size = bmSz max_id := by rw [hs.2, hc.bits, hbsz]
  exact ⟨⟨_, rfl, hgrants.data.2.serves hdata⟩, _, rfl, hgrants.bmp.2.serves hbits⟩

end

/-! ## The resumed import -/

/-- An import that is resumed at the merge or at the ways reads the ways and relations of the file, to its
end. -/
theorem reads_behind_nodes {fmt : Formats} (file : OrderedFile fmt) (cfg : Config) {phase : Resume}
    (hphase : phase = .merging ∨ phase = .ways) (keep_offset keep_relations_offset : Bool) :
    let read := batches fmt file.bytes
      (seekPosition phase (file.offsetFiles cfg keep_offset keep_relations_offset))
    read.2 = .eof ∧ actedEntries false read.1 = file.ways.map .way ++ file.relations.map .relation := by
  intro read
  have hseek : SkipsNodes fmt file.bytes
      (seekPosition phase (file.offsetFiles cfg keep_offset keep_relations_offset)) := by
    have hpos : seekPosition phase (file.offsetFiles cfg keep_offset keep_relations_offset) =
        ((if keep_offset = true then (offsetsAfter (file.script cfg)).offset else none).getD 0) := by
      rcases hphase with rfl | rfl <;> rfl
    rw [hpos, OrderedFile.script, offsetsAfter_full]
    exact skipsNodes_seek fmt file.bytes
  have hacted := (hseek.facts false).1
  refine ⟨?_, hacted.trans ?_⟩
  · rcases hseek with h | h
    · exact (congrArg (fun pos => (batches fmt file.bytes pos).2) h).trans file.complete
    · exact (ending_firstWith h).trans file.complete
  · rw [actedEntries, file.ordered, List.filter_append, List.filter_append]
    have hnodes : (file.nodes.map OSMEntry.node).filter (actsOn false) = [] := by
      simp [List.filter_eq_nil_iff, actsOn, OSMEntry.isNode]
    have hways : (file.ways.map OSMEntry.way).filter (actsOn false) = file.ways.map .way := by
      simp [List.filter_eq_self, actsOn, OSMEntry.isNode]
    have hrelations : (file.relations.map OSMEntry.relation).filter (actsOn false) =
        file.relations.map .relation := by
      simp [List.filter_eq_self, actsOn, OSMEntry.isNode]
    rw [hnodes, hways, hrelations]
    rfl

namespace ResumedWays

variable {fmt : Formats} {chk : Checks} {cfg : Config} {file : OrderedFile fmt} {max_id : Int64}
  {crashed : Import} (again : ResumedWays chk cfg file max_id crashed)

/-- What the producer does. -/
def script : List Action := Producer.run again.cfg'.node_threads .ways fmt file.bytes
  (file.offsetFiles cfg again.keep_offset again.keep_relations_offset)

theorem builds : Builds again.cfg' (Database.offer chk) file.ways file.relations again.osmmap
    (crashed.shared.db.commit (resumeTables .ways)) again.script again.log again.finished where
  phase := by simp [again.resumes]
  sensible := by
    rw [again.resumes]
    exact sensible_actions again.cfg'.node_threads_pos _
  handed := by
    rw [again.resumes, script, Producer.run, actedOn_actions, decide_eq_false (by simp)]
    exact (reads_behind_nodes file cfg (.inr rfl) _ _).2
  run := again.run

theorem joins : .joinWays ∈ again.script := joinWays_mem (reads_behind_nodes file cfg (.inr rfl) _ _).1

/-- It does not touch the tables of the nodes. -/
theorem node_tables : again.finished.shared.db.rows .node = crashed.shared.db.rows .node ∧
    again.finished.shared.db.tags .node = crashed.shared.db.tags .node := by
  have hskip : skip_nodes again.cfg'.resume_phase = true := by
    rw [again.resumes]
    rfl
  have hworkers : again.cfg'.nodeWorkers = 0 := by rw [Config.nodeWorkers, hskip]; rfl
  have hcopies := copiesOnly_log (fun i => (NodeThread.onlyNodes_fresh i).copies)
    (fun _ _ => WayThread.inserting_fresh) again.run
  have hnone : ∀ {α : Type} (f : List Statement → List α),
      (∀ i, ((acts (.way i) again.log).filterMap Act.committed).flatMap f = []) →
        (again.log.filterMap ImportEvent.committed).flatMap f = [] := by
    intro α f hway
    refine List.perm_nil.mp ((perm_committed again.run f).trans (List.Perm.of_eq ?_))
    rw [hworkers, List.flatMap_eq_nil_iff.mpr fun i _ => hway i]
    rfl
  have hrows : copiedRows .node (again.log.filterMap ImportEvent.committed) = [] :=
    hnone _ fun i => (WayThread.buf_node WayThread.inserting_fresh rfl rfl (trace_way again.run i)).2
  have htags : copiedTagRows .node (again.log.filterMap ImportEvent.committed) = [] :=
    hnone _ fun i => tagsTo_none ((tags_of_threads again.run).2 i) (by simp)
  rw [db_eq again.run, rows_offer .node hcopies, tags_offer .node hcopies, hrows, htags, insertRows_nil,
    List.append_nil]
  exact ⟨rfl, rfl⟩

end ResumedWays

/-! ## The comparison -/

theorem wayInserts_congr {cfg cfg' : Config} (henv : cfg'.env = cfg.env) (pos : Int64 → Option Coord)
    (ways : List WayEntry) : wayInserts cfg' pos ways = wayInserts cfg pos ways := by
  refine List.flatMap_congr fun w _ => ?_
  rw [WayThread.wayCalls, WayThread.wayCalls, henv]

theorem relationInserts_congr {cfg cfg' : Config} (henv : cfg'.env = cfg.env)
    (hdump : cfg'.dumpPoints = cfg.dumpPoints) (look : Int64 → List (Option Str))
    (relations : List RelationEntry) :
    relationInserts cfg' look relations = relationInserts cfg look relations :=
  List.flatMap_congr fun _ _ => WayThread.callsFor_congr henv hdump fun _ _ => rfl

theorem rowsOf_wayInserts_other (cfg : Config) (pos : Int64 → Option Coord) (ways : List WayEntry) {k : Kind}
    (hk : k = .relation ∨ k = .road) : rowsOf k (wayInserts cfg pos ways) = [] := by
  rw [rowsOf_wayInserts, List.flatMap_eq_nil_iff]
  exact fun w _ => builtRows_nil w (by rcases hk with rfl | rfl <;> simp)

/-- What both imports insert: the calls for ways and those for relations. -/
structure Inserted (chk : Checks) (ways relations : List InsertCall) (db : Database)
    (log : List ImportEvent) (s : Import) : Prop where
  rows : ∀ k, k = .way ∨ k = .area → ∃ first second, first.Perm (rowsOf k ways) ∧
    second.Perm (rowsOf k relations) ∧
      s.shared.db.rows k = insertRows chk k (insertRows chk k (db.rows k) first) second
  copied : ∀ k, k = .relation ∨ k = .road →
    (copiedRows k (log.filterMap ImportEvent.committed)).Perm (rowsOf k relations) ∧
      s.shared.db.rows k = insertRows chk k (db.rows k)
        (copiedRows k (log.filterMap ImportEvent.committed))
  tags : ∀ k, k = .way ∨ k = .area →
    (s.shared.db.tags k).Perm (db.tags k ++ callTags k (ways ++ relations))
  shared : (s.shared.db.tags .relation ++ s.shared.db.tags .road).Perm (db.tags .relation ++ db.tags .road ++
    WayThread.gains (tagAccount .shared) (ways ++ relations))

/-- What an import inserts, if the lookups before the relations are those on `d`. -/
theorem Builds.inserted {chk : Checks} {cfg : Config} {ways : List WayEntry} {relations : List RelationEntry}
    {osmmap : OSMMMap} {db d : Database} {script : List Action} {log : List ImportEvent} {s : Import}
    (h : Builds cfg (Database.offer chk) ways relations osmmap db script log s)
    (hjoin : .joinWays ∈ script) (hend : s.script = []) (hways : (ways.map WayEntry.id).Nodup)
    (hrelations : Unambiguous relations) (hties : cfg.KeepsTies)
    (hd : ∀ k, k = .way ∨ k = .area → db.rows k = d.rows k) :
    Inserted chk (wayInserts cfg s.shared.osmmap.select ways)
      (relationInserts cfg (geogs (d.addCalls chk (wayInserts cfg s.shared.osmmap.select ways))) relations)
      db log s := by
  obtain ⟨before, rest, released, rfl, h₀, hrest⟩ := h.split_released hjoin hend
  have hlook := h₀.geogs_between hrest hjoin hend hrelations hties hways hd
  have hcopies := copiesOnly_log (fun i => (NodeThread.onlyNodes_fresh i).copies)
    (fun _ _ => WayThread.inserting_fresh) h.run
  rw [← hlook]
  refine ⟨fun k hk => ?_, fun k hk => ⟨?_, ?_⟩, fun k hk => ?_, ?_⟩
  · obtain ⟨first, second, hfirst, hsecond, hreleased, hfinal⟩ := h₀.rows_all hrest hjoin hend hrelations
      hties (show k ≠ .node by rcases hk with rfl | rfl <;> nofun)
    exact ⟨first, second, hfirst, hsecond, by rw [hfinal, hreleased]⟩
  · have hall := h₀.copied_all hrest hjoin hend hrelations hties
      (show k ≠ .node by rcases hk with rfl | rfl <;> nofun)
    rw [rowsOf_wayInserts_other _ _ _ hk, List.nil_append] at hall
    exact hall
  · rw [db_eq h.run, rows_offer k hcopies]
    rfl
  · exact h₀.tags_perm hrest hjoin hend hrelations hties hk
  · exact h₀.sharedTags_perm hrest hjoin hend hrelations hties

/-- Two imports that insert the same. -/
theorem Inserted.same {chk : Checks} {ways relations : List InsertCall} {db db' : Database}
    {log log' : List ImportEvent} {s s' : Import} (h : Inserted chk ways relations db log s)
    (h' : Inserted chk ways relations db' log' s') {k : Kind} (hk : k = .way ∨ k = .area)
    (hnd : ((rowsOf k ways).map Row.id).Nodup) (hnd' : ((rowsOf k relations).map Row.id).Nodup)
    (hrows : db.rows k = db'.rows k) (htags : db.tags k = db'.tags k) :
    (s.shared.db.rows k).Perm (s'.shared.db.rows k) ∧ (s.shared.db.tags k).Perm (s'.shared.db.tags k) := by
  obtain ⟨first, second, hfirst, hsecond, hfinal⟩ := h.rows k hk
  obtain ⟨first', second', hfirst', hsecond', hfinal'⟩ := h'.rows k hk
  constructor
  · rw [hfinal, hfinal', hrows]
    refine insertRows_perm (insertRows_perm (List.Perm.refl _) (hfirst.trans hfirst'.symm) ?_)
      (hsecond.trans hsecond'.symm) ?_
    · exact (hfirst.map Row.id).nodup_iff.mpr hnd
    · exact (hsecond.map Row.id).nodup_iff.mpr hnd'
  · refine (h.tags k hk).trans ?_
    rw [htags]
    exact (h'.tags k hk).symm

section

variable {fmt : Formats} {chk : Checks} {cfg : Config} {file : OrderedFile fmt} {max_id : Int64}
  (hfile : file.Distinct max_id) (hties : cfg.KeepsTies)
  (run : InterruptedWays chk cfg file) (hst : Created max_id cfg.node_threads run.osmmap)
  (hblank : ∀ k, k = .way ∨ k = .area → run.db.rows k = [] ∧ run.db.tags k = [])
  (again : ResumedWays chk cfg file max_id run.crashed)

/-- An import that is not interrupted. -/
theorem InterruptedWays.full :
    Trace (Import.Step cfg (Database.offer chk))
      (Import.start cfg run.osmmap run.db (file.script cfg)) (run.during ++ run.after) run.finished :=
  run.crash.append run.finish

include hfile hst in
/-- Both imports find the same nodes. -/
theorem InterruptedWays.same_select :
    again.finished.shared.osmmap.select = run.finished.shared.osmmap.select := by
  have hskip : skip_nodes cfg.resume_phase = false := by
    rw [run.fresh]
    rfl
  have hskip' : skip_nodes again.cfg'.resume_phase = true := by
    rw [again.resumes]
    rfl
  rw [(unchanged_of_skip hskip' again.run).2, run.select_reopened hst hfile.range again.reopened,
    store_of_merged hskip run.crash run.merged run.finish]

include hfile hties hst hblank in
/-- Both imports insert the same. -/
theorem InterruptedWays.same_inserts : ∃ ways relations,
    (∀ k, ((rowsOf k ways).map Row.id).Nodup) ∧ (∀ k, ((rowsOf k relations).map Row.id).Nodup) ∧
      Inserted chk ways relations run.db (run.during ++ run.after) run.finished ∧
      Inserted chk ways relations (run.crashed.shared.db.commit (resumeTables .ways)) again.log
        again.finished := by
  have hfull := (builds_fresh run.fresh run.full).inserted (joinWays_mem file.complete) run.ended
    hfile.ways hfile.relations hties (d := run.db) fun _ _ => rfl
  have hties' : again.cfg'.KeepsTies := fun stored points h => hties stored points (again.ties ▸ h)
  have hagain := again.builds.inserted again.joins again.ended hfile.ways hfile.relations hties'
    (d := run.db) fun k hk => by
      rw [(hblank k hk).1]
      rcases hk with rfl | rfl <;> rfl
  rw [run.same_select hfile hst again, wayInserts_congr again.env,
    relationInserts_congr again.env again.dumpPoints] at hagain
  refine ⟨_, _, fun k => nodup_wayInserts cfg _ k hfile.ways, fun k => ?_, hfull, hagain⟩
  exact WayThread.nodup_calls k hfile.relations.distinct

/-- What was committed of the tags of relations and roads before the crash is there once more. -/
theorem InterruptedWays.shared_tags_iff {added : List TagRow} {finished' : Database}
    (hfull : (run.finished.shared.db.tags .relation ++ run.finished.shared.db.tags .road).Perm
      (run.db.tags .relation ++ run.db.tags .road ++ added))
    (hagain : (finished'.tags .relation ++ finished'.tags .road).Perm
      (run.crashed.shared.db.tags .relation ++ run.crashed.shared.db.tags .road ++ added)) :
    (run.finished.shared.db.tags .relation ++ run.finished.shared.db.tags .road).Perm
        (finished'.tags .relation ++ finished'.tags .road) ↔
      committedSharedTags run.during = [] := by
  have hcopies := copiesOnly_log (fun i => (NodeThread.onlyNodes_fresh i).copies)
    (fun _ _ => WayThread.inserting_fresh) run.crash
  have hcrashed : (run.crashed.shared.db.tags .relation ++ run.crashed.shared.db.tags .road).Perm
      (run.db.tags .relation ++ run.db.tags .road ++ committedSharedTags run.during) := by
    rw [db_eq run.crash, tags_offer .relation hcopies, tags_offer .road hcopies]
    exact perm_append_append ..
  have hresumed := hagain.trans (hcrashed.append_right added)
  have hlength := hresumed.length_eq
  constructor
  · intro h
    have hsame := (hfull.symm.trans (h.trans hresumed)).length_eq
    simp only [List.length_append] at hsame
    exact List.length_eq_zero_iff.mp (by omega)
  · intro h
    rw [h, List.append_nil] at hresumed
    exact hfull.trans hresumed.symm

/-- Behind the merge no node is committed any more. -/
theorem InterruptedWays.same_nodes :
    again.finished.shared.db.rows .node = run.finished.shared.db.rows .node ∧
      again.finished.shared.db.tags .node = run.finished.shared.db.tags .node := by
  have hskip : skip_nodes cfg.resume_phase = false := by
    rw [run.fresh]
    rfl
  have hcopies := copiesOnly_log (fun i => (NodeThread.onlyNodes_fresh i).copies)
    (fun _ _ => WayThread.inserting_fresh) run.full
  have hafter : CopiesOnly (run.after.filterMap ImportEvent.committed) := by
    rw [List.filterMap_append] at hcopies
    exact (copiesOnly_append.mp hcopies).2
  obtain ⟨hrows, htags⟩ := nodes_of_merged hskip run.crash run.merged run.finish
  rw [again.node_tables.1, again.node_tables.2, db_eq run.finish, rows_offer .node hafter,
    tags_offer .node hafter, hrows, htags, insertRows_nil, List.append_nil]
  exact ⟨rfl, rfl⟩

section

variable {ways relations : List InsertCall}
  (hfull : Inserted chk ways relations run.db (run.during ++ run.after) run.finished)
  (hagain : Inserted chk ways relations (run.crashed.shared.db.commit (resumeTables .ways)) again.log
    again.finished)
include hfull hagain

/-- The rows of relations and roads that were there at the crash are refused when they come again. -/
theorem InterruptedWays.same_rows {k : Kind} (hk : k = .relation ∨ k = .road)
    (hnd : ((rowsOf k relations).map Row.id).Nodup) :
    (run.finished.shared.db.rows k).Perm (again.finished.shared.db.rows k) := by
  obtain ⟨hcopied, hrows⟩ := hfull.copied k hk
  obtain ⟨hcopied', hrows'⟩ := hagain.copied k hk
  have hcopies := copiesOnly_log (fun i => (NodeThread.onlyNodes_fresh i).copies)
    (fun _ _ => WayThread.inserting_fresh) run.crash
  have hcrashed : (run.crashed.shared.db.commit (resumeTables .ways)).rows k = insertRows chk k
      (run.db.rows k) (copiedRows k (run.during.filterMap ImportEvent.committed)) := by
    have hkept : (run.crashed.shared.db.commit (resumeTables .ways)).rows k =
        run.crashed.shared.db.rows k := by rcases hk with rfl | rfl <;> rfl
    rw [hkept, db_eq run.crash, rows_offer k hcopies]
    rfl
  have hnodup := ((hcopied'.map Row.id).nodup_iff).mpr hnd
  have hsame := hcopied'.trans hcopied.symm
  rw [hrows', hcrashed, hrows]
  rw [List.filterMap_append, copiedRows_append] at hsame ⊢
  simp only [insertRows, List.map_append, List.append_assoc, List.perm_append_left_iff]
  exact ((keep_again hsame hnodup).trans (keep_perm hsame hnodup)).symm

include hblank in
/-- The tables of ways and areas are filled again from the beginning. -/
theorem InterruptedWays.same_truncated {k : Kind} (hk : k = .way ∨ k = .area)
    (hnd : ((rowsOf k ways).map Row.id).Nodup) (hnd' : ((rowsOf k relations).map Row.id).Nodup) :
    (run.finished.shared.db.rows k).Perm (again.finished.shared.db.rows k) ∧
      (run.finished.shared.db.tags k).Perm (again.finished.shared.db.tags k) := by
  have hstart : run.db.rows k = (run.crashed.shared.db.commit (resumeTables .ways)).rows k ∧
      run.db.tags k = (run.crashed.shared.db.commit (resumeTables .ways)).tags k := by
    rw [(hblank k hk).1, (hblank k hk).2]
    rcases hk with rfl | rfl <;> exact ⟨rfl, rfl⟩
  exact hfull.same hagain hk hnd hnd' hstart.1 hstart.2

end

include hfile hties hst hblank in
/-- **Resuming at ways.** However far the way threads are when an import dies behind the merge, the import
that is resumed with `-R ways` ends with the same rows in all tables, and the same tags of nodes, ways and
areas, as one that was not interrupted. The tags of relations and roads are the same exactly if none of
them were committed before. -/
theorem resume_ways :
    SameTablesOfWays run.finished.shared.db again.finished.shared.db ∧
    ((run.finished.shared.db.tags .relation ++ run.finished.shared.db.tags .road).Perm
        (again.finished.shared.db.tags .relation ++ again.finished.shared.db.tags .road) ↔
      committedSharedTags run.during = []) := by
  obtain ⟨ways, relations, hnd, hnd', hfull, hagain⟩ :=
    run.same_inserts hfile hties hst hblank again
  have hnodes := run.same_nodes again
  have hother : ∀ k, k = .relation ∨ k = .road →
      (run.finished.shared.db.rows k).Perm (again.finished.shared.db.rows k) :=
    fun k hk => run.same_rows again hfull hagain hk (hnd' k)
  have htruncated : ∀ k, k = .way ∨ k = .area →
      (run.finished.shared.db.rows k).Perm (again.finished.shared.db.rows k) ∧
      (run.finished.shared.db.tags k).Perm (again.finished.shared.db.tags k) :=
    fun k hk => run.same_truncated hblank again hfull hagain hk (hnd k) (hnd' k)
  refine ⟨⟨fun k => ?_, fun k hrelation hroad => ?_⟩, ?_⟩
  · cases k with
    | node => rw [hnodes.1]
    | way => exact (htruncated .way (.inl rfl)).1
    | area => exact (htruncated .area (.inr rfl)).1
    | relation => exact hother .relation (.inl rfl)
    | road => exact hother .road (.inr rfl)
  · cases k with
    | node => rw [hnodes.2]
    | way => exact (htruncated .way (.inl rfl)).2
    | area => exact (htruncated .area (.inr rfl)).2
    | relation => exact absurd rfl hrelation
    | road => exact absurd rfl hroad
  · exact run.shared_tags_iff hfull.shared hagain.shared

end

/-- When the way phase of a file with ways is over, so is the merge. -/
theorem merged_of_released {fmt : Formats} {chk : Checks} {cfg : Config} {file : OrderedFile fmt}
    {osmmap : OSMMMap} {db : Database} {before rest : List ImportEvent} {released s : Import}
    (hphase : cfg.resume_phase = .nodes)
    (h₀ : Trace (Import.Step cfg (Database.offer chk)) (Import.start cfg osmmap db (file.script cfg))
      (before ++ [.waysReleased]) released)
    (h : Trace (Import.Step cfg (Database.offer chk)) released rest s) (hend : s.script = [])
    (hne : file.ways ≠ []) : released.shared.merge_done = true := by
  have hskip : skip_nodes cfg.resume_phase = false := by
    rw [hphase]
    rfl
  obtain ⟨w, hw⟩ := List.exists_mem_of_ne_nil _ hne
  have htaken := (builds_fresh hphase h₀).waysTaken_released h (joinWays_mem file.complete) hend
  obtain ⟨i, -, hi⟩ := List.mem_flatMap.mp (htaken.mem_iff.mpr hw)
  obtain ⟨entry, hentry, -⟩ := List.mem_filterMap.mp hi
  obtain ⟨a, ha, htake⟩ := List.mem_filterMap.mp hentry
  cases a <;> cases htake
  have hone := (merged_of_taken h₀ (sensible_fresh hphase) hskip ha).2
  cases (node_barrier h₀).merge with
  | idle _ hzero _ _ => cases hzero.symm.trans hone
  | running _ hzero _ _ _ => cases hzero.symm.trans hone
  | finished _ _ hdone _ => exact hdone

/-- If the platform serves the files of the store, an import can be resumed, and comes to its end. -/
theorem exists_resumedWays {fmt : Formats} (chk : Checks) (cfg cfg' : Config) (file : OrderedFile fmt)
    {max_id : Int64} {plat : Platform} {crashed : Import}
    (hserves : plat.Resumes (crash cfg.lz4 (fun _ => 0) crashed.shared.osmmap) max_id)
    (hresumes : cfg'.resume_phase = .ways) (henv : cfg'.env = cfg.env)
    (hdump : cfg'.dumpPoints = cfg.dumpPoints) (hties : cfg'.ties = cfg.ties) :
    Nonempty (ResumedWays chk cfg file max_id crashed) := by
  obtain ⟨osmmap, hopen⟩ := openStore_resume_iff (n := cfg'.node_threads).mpr hserves
  have hstart : Trace (Import.Step cfg' (Database.offer chk))
    (Import.start cfg' osmmap (crashed.shared.db.commit (resumeTables .ways))
      (Producer.run cfg'.node_threads .ways fmt file.bytes (file.offsetFiles cfg true true))) [] _ := .nil
  have hsens : Justified (Sensible cfg'.node_threads cfg'.resume_phase)
      (Producer.run cfg'.node_threads .ways fmt file.bytes (file.offsetFiles cfg true true)) := by
    rw [hresumes]
    exact sensible_actions cfg'.node_threads_pos _
  obtain ⟨log, s, h, hend⟩ := Import.finishes hsens (hasRoom_skip hsens (by rw [hresumes]; rfl)) hstart
  exact ⟨⟨cfg', hresumes, henv, hdump, hties, true, true, _, plat, _, hopen, log, s, h, hend⟩⟩

/-- The process dies between the ways and the relation, with the shore in its table. -/
theorem resume_ways_pond : ∃ (run : InterruptedWays Checks.any pondConfig pondFile)
    (again : ResumedWays Checks.any pondConfig pondFile 10 run.crashed),
    run.after ≠ [] ∧ geogs run.crashed.shared.db shore.id ≠ [] ∧
      SameTablesOfWays run.finished.shared.db again.finished.shared.db := by
  obtain ⟨st, hst, hplat⟩ := OSMMMap.created_ten
  obtain ⟨before, rest, released, finished, h₀, h, hend⟩ :=
    exists_released Checks.any pond_fresh pondFile (pond_hasRoom hplat) blankDb
  let run : InterruptedWays Checks.any pondConfig pondFile :=
    ⟨pond_fresh, st, blankDb, _, rest, released, finished, h₀,
      merged_of_released pond_fresh h₀ h hend (List.cons_ne_nil _ _), h, hend⟩
  have hfile : pondFile.Distinct 10 := ⟨by decide, by decide, by decide, pond_unambiguous⟩
  obtain ⟨again⟩ := exists_resumedWays Checks.any pondConfig { pondConfig with resume_phase := .ways }
    pondFile (run.resumes hst hfile.range _) rfl rfl rfl rfl
  refine ⟨run, again, ?_, ?_, (resume_ways hfile pond_ties run hst (fun _ _ => ⟨rfl, rfl⟩) again).1⟩
  · rintro rfl
    obtain ⟨r, hpc⟩ := (builds_fresh pond_fresh h₀).waiting_released pondConfig.way_threads_pos
    have hended := (builds_fresh pond_fresh h₀).ended h (joinWays_mem pondFile.complete) hend 0
      pondConfig.way_threads_pos
    rw [h.eq_of_nil] at hended
    cases hpc.symm.trans hended.1
  · have hgeogs : geogs released.shared.db 7 = _ :=
      pond_geogs ⟨pond_fresh, st, blankDb, before, [], rest, released, released, finished, h₀, .nil, h, hend⟩
        hst rfl
    exact fun hnil => List.cons_ne_nil _ _ (hgeogs.symm.trans hnil)

end OsmImport
