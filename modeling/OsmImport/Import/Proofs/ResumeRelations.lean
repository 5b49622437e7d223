import OsmImport.Import.Proofs.Released
import OsmImport.Import.Proofs.StoredNodes

/-!
# Resuming at the relations

What an interrupted relation phase has left in the tables is either truncated or, in `areas`, refused when
it comes again. The tags of areas have no key: those that were committed before the interruption are there
twice in the end (`sameResult_iff`).
-/

namespace OsmImport

open NavDB OSMReader Producer Postgres KeyedInsert

/-! ## The rows of relations -/

/-- The id of a relation in a table. -/
def relationKey (k : Kind) (r : RelationEntry) : Int64 := if k = .area then -r.id else r.id

namespace WayThread

variable {cfg cfg' : Config} {look look' : Int64 → List (Option Str)}

/-- A relation has one row in a table at most. -/
theorem rowsOf_callsFor (k : Kind) (r : RelationEntry) :
    ((rowsOf k (callsFor cfg look r)).map Row.id).Sublist [relationKey k r] := by
  have hone : ∀ c : InsertCall, c.IsFor r → ((rowsOf k [c]).map Row.id).Sublist [relationKey k r] := by
    intro c hc
    rw [rowsOf_singleton]
    split
    · rename_i hk
      rcases hc with ⟨hkind, hid⟩ | ⟨hkind, hid⟩
      · rw [relationKey, if_pos (hk ▸ hkind), ← hid]
        exact List.Sublist.refl _
      · rw [relationKey, if_neg (by rintro rfl; rcases hkind with h | h <;> cases hk.symm.trans h), ← hid]
        exact List.Sublist.refl _
    · exact List.nil_sublist _
  unfold callsFor
  split
  · cases hcalls : multipolygonCalls cfg r _ with
    | nil => exact List.nil_sublist _
    | cons c rest =>
      have hlen : (multipolygonCalls cfg r
          (memberPoints cfg look (r.way_members.map RelationMember.id))).length ≤ 1 := by
        simp only [multipolygonCalls]
        split <;> simp
      rw [hcalls, List.length_cons] at hlen
      obtain rfl := List.length_eq_zero_iff.mp (Nat.le_zero.mp (Nat.le_of_succ_le_succ hlen))
      exact hone c (isFor_multipolygonCalls (hcalls ▸ List.mem_cons_self))
  · simp only [relationCalls]
    generalize memberGeoms look r.way_members = geoms
    generalize (if geoms.isEmpty then [] else mergeWayGeoms cfg.env.g_srid geoms) = rel_geog
    rw [← List.singleton_append, rowsOf_append, List.map_append]
    split
    · -- the row in `relations` and that in `roads` are never in one table
      rw [rowsOf_singleton, rowsOf_singleton]
      cases k <;> simp [relationKey, InsertCall.row]
    · rw [show rowsOf k [] = [] from rfl, List.map_nil, List.append_nil]
      exact hone _ (.inr ⟨.inl rfl, rfl⟩)

theorem rowsOf_calls (k : Kind) (relations : List RelationEntry) :
    ((rowsOf k (relations.flatMap (callsFor cfg look))).map Row.id).Sublist
      (relations.map (relationKey k)) := by
  induction relations with
  | nil => exact List.Sublist.slnil
  | cons r relations ih =>
    rw [List.flatMap_cons, rowsOf_append, List.map_append, List.map_cons, ← List.singleton_append]
    exact (rowsOf_callsFor k r).append ih

/-- Relations with different ids have different keys. -/
theorem nodup_calls (k : Kind) {relations : List RelationEntry}
    (h : (relations.map RelationEntry.id).Nodup) :
    ((rowsOf k (relations.flatMap (callsFor cfg look))).map Row.id).Nodup := by
  refine List.Nodup.sublist (rowsOf_calls k relations) ?_
  have hkeys : relations.map (relationKey k) =
      (relations.map RelationEntry.id).map fun id => if k = .area then -id else id := by
    rw [List.map_map]
    rfl
  rw [hkeys]
  refine h.map fun a b hab => ?_
  split at hab
  · exact Int64.neg_inj.mp hab
  · exact hab

/-- The inserts for a relation depend on what is found under the ids of its members. -/
theorem callsFor_congr (henv : cfg'.env = cfg.env) (hdump : cfg'.dumpPoints = cfg.dumpPoints)
    {r : RelationEntry} (hlook : ∀ m ∈ r.way_members, look' m.id = look m.id) :
    callsFor cfg' look' r = callsFor cfg look r := by
  unfold callsFor
  have hpoints : memberPoints cfg' look' (r.way_members.map RelationMember.id) =
      memberPoints cfg look (r.way_members.map RelationMember.id) := by
    funext id
    unfold memberPoints
    split
    · rename_i hid
      obtain ⟨m, hm, rfl⟩ := List.mem_map.mp hid
      rw [hlook m hm, hdump]
    · rfl
  have hgeoms : memberGeoms look' r.way_members = memberGeoms look r.way_members := by
    unfold memberGeoms
    rw [List.map_congr_left fun m hm => by rw [hlook m hm]]
  rw [hpoints, hgeoms, multipolygonCalls, multipolygonCalls, relationCalls, relationCalls, henv]

end WayThread

/-! ## The script of the resumed import -/

section

variable {fmt : Formats} (cfg : Config) (file : OrderedFile fmt)
  (keep_offset keep_relations_offset : Bool)

/-- The resumed import reads to the end of the file, and finds all relations. -/
theorem resume_reads :
    let read := batches fmt file.bytes
      (seekPosition .relations (file.offsetFiles cfg keep_offset keep_relations_offset))
    read.2 = .eof ∧ actedEntries true read.1 = file.relations.map .relation := by
  intro read
  have hseek := seek_relations fmt file.bytes cfg.node_threads keep_offset keep_relations_offset
  have hread : read.2 = (batches fmt file.bytes 0).2 ∧
      actedEntries true read.1 = actedEntries true (batches fmt file.bytes 0).1 := by
    rcases hseek with h | h
    · refine ⟨?_, (h.facts true).1⟩
      rcases h with h | h
      · exact congrArg (fun pos => (batches fmt file.bytes pos).2) h
      · exact ending_firstWith h
    · exact ⟨ending_firstWith h, (relations_facts h).1⟩
  refine ⟨hread.1.trans file.complete, hread.2.trans ?_⟩
  rw [actedEntries, file.ordered, List.filter_append, List.filter_append]
  have hnodes : (file.nodes.map OSMEntry.node).filter (actsOn true) = [] := by
    simp [List.filter_eq_nil_iff, actsOn, OSMEntry.isNode]
  have hways : (file.ways.map OSMEntry.way).filter (actsOn true) = [] := by
    simp [List.filter_eq_nil_iff, actsOn, OSMEntry.isWay, OSMEntry.isNode]
  have hrelations : (file.relations.map OSMEntry.relation).filter (actsOn true) =
      file.relations.map .relation := by
    simp [List.filter_eq_self, actsOn, OSMEntry.isWay, OSMEntry.isNode]
  rw [hnodes, hways, hrelations]
  rfl

/-- It hands the relations to the way threads. -/
theorem resume_pushes (N : ℕ) : ((Producer.run N .relations fmt file.bytes
      (file.offsetFiles cfg keep_offset keep_relations_offset)).filterMap Action.pushed).filterMap
        OSMEntry.asRelation = file.relations := by
  have hacted : actedOn .relations (Producer.run N .relations fmt file.bytes
      (file.offsetFiles cfg keep_offset keep_relations_offset)) = file.relations.map .relation :=
    actedOn_actions.trans (resume_reads cfg file keep_offset keep_relations_offset).2
  have hsame : ∀ l : List OSMEntry,
      (l.filter (actsOn true)).filterMap OSMEntry.asRelation = l.filterMap OSMEntry.asRelation := by
    intro l
    rw [List.filterMap_filter]
    apply List.filterMap_congr
    intro e _
    cases e <;> rfl
  rw [← hsame]
  refine (congrArg (List.filterMap OSMEntry.asRelation) hacted).trans ?_
  rw [List.filterMap_map]
  exact List.filterMap_some

end

/-! ## The resumed import -/

namespace Resumed

variable {fmt : Formats} {chk : Checks} {cfg : Config} {file : OrderedFile fmt} {crashed : Database}
  (again : Resumed chk cfg file crashed)

/-- The import before its first step. -/
def start : Import := Import.start again.cfg' again.osmmap (crashed.commit (resumeTables .relations))
  (Producer.run again.cfg'.node_threads .relations fmt file.bytes
    (file.offsetFiles cfg again.keep_offset again.keep_relations_offset))

theorem sensible : Justified (Sensible again.cfg'.node_threads again.cfg'.resume_phase)
    again.start.script := by
  rw [again.resumes]
  exact sensible_actions again.cfg'.node_threads_pos _

theorem mem_relations {i : ℕ} {r : RelationEntry} (hr : .take (.relation r) ∈ acts (.way i) again.log) :
    r ∈ file.relations := by
  have hpop : .relation r ∈ (queueOps (.way i) again.log).filterMap BlockingQueue.Op.popped := by
    rw [popped_way]
    exact List.mem_map.mpr ⟨(i, _), List.mem_filterMap.mpr ⟨_, mem_acts.mp hr, rfl⟩, rfl⟩
  have hpush : .relation r ∈ (produced again.log).filterMap Action.pushed := by
    rw [← pushed_way again.run again.sensible i, BlockingQueue.pushed_eq (trace_queue again.run (.way i))]
    exact List.mem_append_left _ hpop
  rw [← resume_pushes cfg file again.keep_offset again.keep_relations_offset
    again.cfg'.node_threads, ← produced_script again.run]
  refine List.mem_filterMap.mpr ⟨.relation r, ?_, rfl⟩
  rw [List.filterMap_append]
  exact List.mem_append_left _ hpush

theorem phase (hrelations : Unambiguous file.relations) (hties : cfg.KeepsTies) :
    RelationPhase again.cfg' (Database.offer chk) file.relations again.start again.log again.finished where
  start := ⟨fun i => NodeThread.onlyNodes_fresh i,
    fun _ _ => ⟨.inl ⟨rfl, decide_eq_true again.resumes⟩, rfl, fun _ => rfl, rfl⟩⟩
  run := again.run
  unambiguous := hrelations
  ties := fun stored points h => hties stored points (again.ties ▸ h)
  hand := fun _ _ _ hr => absurd hr List.not_mem_nil
  skip := fun _ _ _ _ => again.resumes
  taken := fun _ _ _ hr => again.mem_relations hr

theorem threads_ended : ∀ i < again.cfg'.way_threads, (again.finished.way i).Ended := by
  refine (ended_of_joined again.run).2 ?_
  rw [← List.append_nil (produced again.log), ← again.ended, produced_script again.run]
  exact joinWays_mem (resume_reads cfg file again.keep_offset again.keep_relations_offset).1

theorem workedOn : ((List.range again.cfg'.way_threads).flatMap
    (OsmImport.workedOn again.start again.log)).Perm file.relations := by
  have hleft : (again.finished.way 0).pc.leftLoop = true := by
    rw [(again.threads_ended 0 again.cfg'.way_threads_pos).1]
    rfl
  have htaken := (taken_ways again.run again.sensible
    ((WayThread.placed (trace_way again.run 0)).leftLoop hleft)).filterMap OSMEntry.asRelation
  rw [← List.append_nil (produced again.log), ← again.ended, produced_script again.run,
    resume_pushes cfg file again.keep_offset again.keep_relations_offset,
    List.filterMap_flatMap] at htaken
  exact htaken

end Resumed

/-! ## The comparison -/

section

variable {fmt : Formats} {chk : Checks} {cfg : Config} {file : OrderedFile fmt}

/-- The inserts for the relations of an interrupted import. -/
def Interrupted.calls (run : Interrupted chk cfg file) : List InsertCall :=
  file.relations.flatMap (WayThread.callsFor cfg (geogs run.released.shared.db))

variable (run : Interrupted chk cfg file) (hrelations : Unambiguous file.relations) (hties : cfg.KeepsTies)
include hrelations hties

theorem Interrupted.phase : RelationPhase cfg (Database.offer chk) file.relations run.released
    (run.during ++ run.after) run.finished :=
  relationPhase run.fresh run.release (run.crash.append run.finish) hrelations hties

theorem Interrupted.crashPhase : RelationPhase cfg (Database.offer chk) file.relations run.released
    run.during run.crashed :=
  relationPhase run.fresh run.release run.crash hrelations hties

/-- What is committed behind the barrier when the import is not interrupted. -/
theorem Interrupted.committed :
    (∀ k, k ≠ .node → (copiedRows k ((run.during ++ run.after).filterMap ImportEvent.committed)).Perm
      (rowsOf k run.calls)) ∧
    (committedAreaTags (run.during ++ run.after)).Perm (WayThread.gains areaTagAccount run.calls) := by
  have htrace := run.release.append (run.crash.append run.finish)
  refine (run.phase hrelations hties).committed_relations ?_
    (workedOn_released run.fresh run.release (run.crash.append run.finish) run.ended)
  refine (ended_of_joined htrace).2 ?_
  rw [← List.append_nil (produced _), ← run.ended, produced_script htrace]
  exact joinWays_mem file.complete

/-- What the resumed import commits. -/
theorem Interrupted.resumed (again : Resumed chk cfg file run.crashed.shared.db) :
    (∀ k, k ≠ .node → (copiedRows k (again.log.filterMap ImportEvent.committed)).Perm
      (rowsOf k run.calls)) ∧
    (committedAreaTags again.log).Perm (WayThread.gains areaTagAccount run.calls) := by
  have hcalls : file.relations.flatMap
      (WayThread.callsFor again.cfg' (geogs again.start.shared.db)) = run.calls := by
    apply List.flatMap_congr
    intro r hr
    refine WayThread.callsFor_congr again.env again.dumpPoints fun m hm => ?_
    have hstable := (run.crashPhase hrelations hties).geogs_stable (hrelations.members r hr m hm)
    rw [← hstable]
    rfl
  have hall := (again.phase hrelations hties).committed_relations again.threads_ended again.workedOn
  rw [hcalls] at hall
  exact hall

/-- The tags of areas that were committed before the interruption are there once more. -/
theorem Interrupted.area_tags_perm_iff (again : Resumed chk cfg file run.crashed.shared.db) :
    (run.finished.shared.db.tags .area).Perm (again.finished.shared.db.tags .area) ↔
      committedAreaTags run.during = [] := by
  have hfull := (run.committed hrelations hties).2
  have hagain := (run.resumed hrelations hties again).2
  have hfinished : run.finished.shared.db.tags .area = run.released.shared.db.tags .area ++
      committedAreaTags (run.during ++ run.after) := by
    rw [db_eq (run.crash.append run.finish), tags_offer .area (run.phase hrelations hties).copies]
    rfl
  have hcrashed : again.start.shared.db.tags .area = run.released.shared.db.tags .area ++
      committedAreaTags run.during := by
    show run.crashed.shared.db.tags .area = _
    rw [db_eq run.crash, tags_offer .area (run.crashPhase hrelations hties).copies]
    rfl
  have hresumed : again.finished.shared.db.tags .area = again.start.shared.db.tags .area ++
      committedAreaTags again.log := by
    rw [db_eq again.run, tags_offer .area (again.phase hrelations hties).copies]
    rfl
  rw [hfinished, hresumed, hcrashed, List.append_assoc, List.perm_append_left_iff]
  have hsame := hfull.trans hagain.symm
  constructor
  · intro h
    have hlength := h.length_eq
    rw [List.length_append, hsame.length_eq] at hlength
    exact List.length_eq_zero_iff.mp (by omega)
  · intro h
    rw [h, List.nil_append]
    exact hsame

/-- A row of `areas` that is there already is refused. -/
theorem Interrupted.areas_perm (again : Resumed chk cfg file run.crashed.shared.db) :
    (run.finished.shared.db.rows .area).Perm (again.finished.shared.db.rows .area) := by
  have hfull := (run.committed hrelations hties).1 .area nofun
  have hagain := (run.resumed hrelations hties again).1 .area nofun
  have hcrashed : again.start.shared.db.rows .area = insertRows chk .area
      (run.released.shared.db.rows .area)
        (copiedRows .area (run.during.filterMap ImportEvent.committed)) := by
    show run.crashed.shared.db.rows .area = _
    rw [db_eq run.crash, rows_offer .area (run.crashPhase hrelations hties).copies]
  have hnodup : ((copiedRows .area (again.log.filterMap ImportEvent.committed)).map Row.id).Nodup :=
    ((hagain.map Row.id).nodup_iff).mpr (WayThread.nodup_calls .area hrelations.distinct)
  rw [List.filterMap_append, copiedRows_append] at hfull
  have hsame := hagain.trans hfull.symm
  rw [db_eq (run.crash.append run.finish), rows_offer .area (run.phase hrelations hties).copies,
    db_eq (again.phase hrelations hties).run, rows_offer .area (again.phase hrelations hties).copies, hcrashed,
    List.filterMap_append, copiedRows_append]
  simp only [insertRows, List.map_append, List.append_assoc, List.perm_append_left_iff]
  exact ((keep_again hsame hnodup).trans (keep_perm hsame hnodup)).symm

/-- The tables of relations and roads are filled from the beginning. -/
theorem Interrupted.truncated_perm {k : Kind} (hk : k = .relation ∨ k = .road)
    (hblank : run.db.rows k = []) (again : Resumed chk cfg file run.crashed.shared.db) :
    (run.finished.shared.db.rows k).Perm (again.finished.shared.db.rows k) := by
  have hnode : k ≠ .node := by rcases hk with rfl | rfl <;> nofun
  have hfull := (run.committed hrelations hties).1 k hnode
  have hagain := (run.resumed hrelations hties again).1 k hnode
  have hreleased : run.released.shared.db.rows k = [] := by
    have hcopies := copiesOnly_log (fun i => (NodeThread.onlyNodes_fresh i).copies)
      (fun _ _ => WayThread.inserting_fresh) run.release
    have hways := copied_ways run.fresh run.release (run.crash.append run.finish) run.ended hnode
    have hnone : file.ways.flatMap (builtRows cfg run.finished.shared.osmmap.select k) = [] := by
      rw [List.flatMap_eq_nil_iff]
      exact fun w _ => builtRows_nil w (by rcases hk with rfl | rfl <;> simp)
    rw [hnone] at hways
    rw [db_eq run.release, rows_offer k hcopies, List.perm_nil.mp hways, insertRows_nil]
    exact hblank
  have hstart : again.start.shared.db.rows k = [] := by
    rcases hk with rfl | rfl <;> rfl
  have hnodup : ((copiedRows k ((run.during ++ run.after).filterMap
      ImportEvent.committed)).map Row.id).Nodup :=
    ((hfull.map Row.id).nodup_iff).mpr (WayThread.nodup_calls k hrelations.distinct)
  rw [db_eq (run.crash.append run.finish), rows_offer k (run.phase hrelations hties).copies,
    db_eq (again.phase hrelations hties).run, rows_offer k (again.phase hrelations hties).copies, hreleased, hstart]
  exact keep_perm (hfull.trans hagain.symm) hnodup

end

/-- Where the platform has room for its nodes, a fresh import reaches the end of the phase of `way_barrier`,
and its own end. -/
theorem exists_released {fmt : Formats} (chk : Checks) {cfg : Config} (hphase : cfg.resume_phase = .nodes)
    (file : OrderedFile fmt) {osmmap : OSMMMap} (hroom : HasRoom cfg osmmap (file.script cfg))
    (db : Database) :
    ∃ before rest released finished,
      Trace (Import.Step cfg (Database.offer chk)) (Import.start cfg osmmap db (file.script cfg))
        (before ++ [.waysReleased]) released ∧
      Trace (Import.Step cfg (Database.offer chk)) released rest finished ∧ finished.script = [] := by
  have hstart : Trace (Import.Step cfg (Database.offer chk))
    (Import.start cfg osmmap db (file.script cfg)) [] _ := .nil
  obtain ⟨log, s, h, hend⟩ := Import.finishes (sensible_fresh hphase) hroom hstart
  have hdone := (ended_of_joined h).2 (by
    rw [← List.append_nil (produced _), ← hend, produced_script h]
    exact joinWays_mem file.complete) 0 cfg.way_threads_pos
  have hpassed : (s.way 0).status = .passed := by rw [WayThread.status, hdone.1]
  have hone := (way_oneShot (by simp [hphase]) h).all_arrived cfg.way_threads_pos hpassed
  have hmem := mem_released h (by rw [hone.1]; exact Nat.one_ne_zero)
  obtain ⟨before, rest, hlog⟩ := List.append_of_mem hmem
  rw [hlog, List.append_cons] at h
  obtain ⟨released, hreleased, hrest⟩ := h.split
  exact ⟨before, rest, released, s, hreleased, hrest, hend⟩

/-- Every resumed import reaches its end. -/
theorem exists_resumed {fmt : Formats} (chk : Checks) (cfg cfg' : Config) (file : OrderedFile fmt)
    (hresumes : cfg'.resume_phase = .relations) (henv : cfg'.env = cfg.env)
    (hdump : cfg'.dumpPoints = cfg.dumpPoints) (hties : cfg'.ties = cfg.ties) (crashed : Database) :
    Nonempty (Resumed chk cfg file crashed) := by
  have hstart : Trace (Import.Step cfg' (Database.offer chk))
    (Import.start cfg' noStore (crashed.commit (resumeTables .relations))
      (Producer.run cfg'.node_threads .relations fmt file.bytes (file.offsetFiles cfg true true))) [] _ :=
    .nil
  have hsens : Justified (Sensible cfg'.node_threads cfg'.resume_phase)
      (Producer.run cfg'.node_threads .relations fmt file.bytes (file.offsetFiles cfg true true)) := by
    rw [hresumes]
    exact sensible_actions cfg'.node_threads_pos _
  obtain ⟨log, s, h, hend⟩ := Import.finishes hsens (hasRoom_skip hsens (by rw [hresumes]; rfl)) hstart
  exact ⟨⟨cfg', hresumes, henv, hdump, hties, true, true, noStore, log, s, h, hend⟩⟩

/-- **Resuming at relations.** However far the way threads are in the relation phase of a fresh import when
it is interrupted, the resumed import ends with the same rows in `areas`, `area_tags`, `relations` and
`roads` as one that was not interrupted, exactly if no tags of areas were committed in that phase. -/
theorem resume_relations_iff {fmt : Formats} {chk : Checks} {cfg : Config} {file : OrderedFile fmt}
    (hrelations : Unambiguous file.relations) (hties : cfg.KeepsTies) (run : Interrupted chk cfg file)
    (hblank : run.db.rows .relation = [] ∧ run.db.rows .road = [])
    (again : Resumed chk cfg file run.crashed.shared.db) :
    SameResult run.finished.shared.db again.finished.shared.db ↔ committedAreaTags run.during = [] := by
  rw [← run.area_tags_perm_iff hrelations hties again]
  refine ⟨SameResult.area_tags, fun htags => ⟨run.areas_perm hrelations hties again, htags, ?_, ?_⟩⟩
  · exact run.truncated_perm hrelations hties (.inl rfl) hblank.1 again
  · exact run.truncated_perm hrelations hties (.inr rfl) hblank.2 again

/-! ## A pond -/

/-- Three nodes, and the way through them and back. -/
def pondRing : List Coord := [(⟨0⟩, ⟨0⟩), (⟨1⟩, ⟨0⟩), (⟨1⟩, ⟨1⟩), (⟨0⟩, ⟨0⟩)]

def shore : WayEntry := ⟨7, [], .none, [1, 2, 3, 1]⟩

/-- The multipolygon with that way as its outer ring. -/
def pond : RelationEntry :=
  ⟨9, [], ⟨[(str "natural", str "water"), (str "type", str "multipolygon")], by decide⟩,
    [⟨7, str "outer"⟩]⟩

def pondFile := OrderedFile.oneBlob
  [⟨1, [], .none, ⟨0⟩, ⟨0⟩⟩, ⟨2, [], .none, ⟨1⟩, ⟨0⟩⟩, ⟨3, [], .none, ⟨1⟩, ⟨1⟩⟩] [shore] [pond]

/-- The geometry that is looked up is that of the way. -/
def pondConfig : Config := { smallConfig with dumpPoints := fun _ => pondRing }

theorem pond_fresh : pondConfig.resume_phase = .nodes := rfl

theorem pond_unambiguous : Unambiguous pondFile.relations := ⟨by decide, by decide⟩

theorem pond_ties : pondConfig.KeepsTies := fun _ _ h => h

theorem pond_hasRoom {osmmap : OSMMMap} (h : osmmap.platform = .plain) :
    HasRoom pondConfig osmmap (pondFile.script pondConfig) :=
  hasRoom_fresh pondConfig pondFile (h ▸ OSMMMap.roomy_plain 2) (by decide)

theorem resume_relations_at_once :
    ∃ (run : Interrupted Checks.any pondConfig pondFile)
      (again : Resumed Checks.any pondConfig pondFile run.crashed.shared.db),
      run.during = [] ∧ SameResult run.finished.shared.db again.finished.shared.db := by
  have hroom : HasRoom pondConfig noStore (pondFile.script pondConfig) := pond_hasRoom rfl
  obtain ⟨before, rest, released, finished, h₀, h, hend⟩ :=
    exists_released Checks.any pond_fresh pondFile hroom blankDb
  let run : Interrupted Checks.any pondConfig pondFile :=
    ⟨pond_fresh, noStore, blankDb, before, [], rest, released, released, finished, h₀, .nil, h, hend⟩
  obtain ⟨again⟩ := exists_resumed Checks.any pondConfig { pondConfig with resume_phase := .relations }
    pondFile rfl rfl rfl rfl run.crashed.shared.db
  exact ⟨run, again, rfl, (resume_relations_iff pond_unambiguous pond_ties run ⟨rfl, rfl⟩ again).mpr rfl⟩

section

variable (run : Interrupted Checks.any pondConfig pondFile) (hst : OSMMMap.Created 10 2 run.osmmap)
  (hdb : run.db = blankDb)
include hst hdb

/-- The shore is in the database when the relation phase begins. -/
theorem pond_geogs :
    geogs run.released.shared.db 7 = [some (buildWayGeom 3857 pondRing false).1] := by
  have hfull := run.crash.append run.finish
  have hselect := fun id => select_import pond_fresh hst (by decide) (by decide)
    (run.release.append hfull) run.ended id
  have hcoords : shore.node_refs.filterMap run.finished.shared.osmmap.select = pondRing := by
    rw [funext hselect]
    rfl
  have hbuilt : ∀ k, pondFile.ways.flatMap
      (builtRows pondConfig run.finished.shared.osmmap.select k) =
        rowsOf k (WayThread.wayCalls pondConfig shore pondRing) := by
    intro k
    rw [← hcoords]
    exact List.append_nil _
  have hcopies := copiesOnly_log (fun i => (NodeThread.onlyNodes_fresh i).copies)
    (fun _ _ => WayThread.inserting_fresh) run.release
  have hrows : ∀ k, k ≠ .node → run.released.shared.db.rows k =
      insertRows Checks.any k [] (rowsOf k (WayThread.wayCalls pondConfig shore pondRing)) := by
    intro k hk
    have hways := copied_ways pond_fresh run.release hfull run.ended hk
    rw [hbuilt] at hways
    have hstart : run.db.rows k = [] := by rw [hdb]; rfl
    have hone : copiedRows k ((run.before ++ [ImportEvent.waysReleased]).filterMap ImportEvent.committed) =
        rowsOf k (WayThread.wayCalls pondConfig shore pondRing) := by
      cases k with
      | way => exact List.perm_singleton.mp hways
      | _ => exact List.perm_nil.mp hways
    rw [db_eq run.release, rows_offer k hcopies, hone]
    exact congrArg (insertRows Checks.any k · _) hstart
  rw [geogs, hrows .way (by decide), hrows .area (by decide)]
  rfl

/-- Its calls are those for the pond. -/
theorem pond_calls : run.calls = WayThread.multipolygonCalls pondConfig pond
    fun id => if id = 7 then pondRing else [] := by
  have hpoints : WayThread.memberPoints pondConfig (geogs run.released.shared.db)
      (pond.way_members.map RelationMember.id) = fun id => if id = 7 then pondRing else [] := by
    funext id
    have hmem : id ∈ pond.way_members.map RelationMember.id ↔ id = 7 := List.mem_singleton
    rw [WayThread.memberPoints]
    by_cases hid : id = 7
    · rw [if_pos (hmem.mpr hid), if_pos hid, hid, pond_geogs run hst hdb]
      rfl
    · rw [if_neg (mt hmem.mp hid), if_neg hid]
  rw [← hpoints]
  exact List.append_nil _

end

/-- The pond is committed when the import is interrupted, and its tags are there twice in the end. -/
theorem area_tags_twice :
    ∃ (run : Interrupted Checks.any pondConfig pondFile)
      (again : Resumed Checks.any pondConfig pondFile run.crashed.shared.db),
      Unambiguous pondFile.relations ∧ run.db = blankDb ∧
        ¬ SameResult run.finished.shared.db again.finished.shared.db := by
  obtain ⟨st, hst, hplat⟩ := OSMMMap.created_ten
  obtain ⟨before, rest, released, finished, h₀, h, hend⟩ :=
    exists_released Checks.any pond_fresh pondFile (pond_hasRoom hplat) blankDb
  let run : Interrupted Checks.any pondConfig pondFile :=
    ⟨pond_fresh, st, blankDb, before, rest, [], released, finished, finished, h₀, h, .nil, hend⟩
  obtain ⟨again⟩ := exists_resumed Checks.any pondConfig { pondConfig with resume_phase := .relations }
    pondFile rfl rfl rfl rfl run.crashed.shared.db
  refine ⟨run, again, pond_unambiguous, rfl, fun hsame => ?_⟩
  have hnone : committedAreaTags (rest ++ []) = [] := by
    rw [List.append_nil]
    exact (run.area_tags_perm_iff pond_unambiguous pond_ties again).mp hsame.area_tags
  have hall : (committedAreaTags (rest ++ [])).Perm _ := (run.committed pond_unambiguous pond_ties).2
  rw [hnone, pond_calls run hst rfl] at hall
  have htags := List.nil_perm.mp hall
  revert htags
  decide

end OsmImport
