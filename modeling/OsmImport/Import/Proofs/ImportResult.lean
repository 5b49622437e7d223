import OsmImport.Import.Proofs.Sequential
import OsmImport.Import.Proofs.WholeThreads

/-!
# The result of an import

However the threads are scheduled, an import leaves the rows and tags in the database that the
sequential import leaves there (`import_result`).
-/

namespace OsmImport

open NavDB Postgres KeyedInsert

/-! ## What the threads commit -/

/-- The transactions of the threads, each with its thread. -/
def ImportEvent.committedOf : ImportEvent → Option (Who × List Statement)
  | .thread who (.commit txn) => some (who, txn)
  | _ => none

theorem committed_of (who : Who) (log : List ImportEvent) : (acts who log).filterMap Act.committed =
    ((log.filterMap ImportEvent.committedOf).filter fun p => p.1 = who).map Prod.snd := by
  rw [acts, List.filterMap_filterMap, List.filter_filterMap, List.map_filterMap]
  apply List.filterMap_congr
  intro e _
  cases e with
  | thread me a =>
    cases a with
    | commit txn =>
      by_cases hme : me = who <;>
        simp [ImportEvent.act, ImportEvent.committedOf, Act.committed, hme]
    | _ =>
      by_cases hme : me = who <;>
        simp [ImportEvent.act, ImportEvent.committedOf, Act.committed, hme]
  | _ => rfl

theorem committed_eq (log : List ImportEvent) : log.filterMap ImportEvent.committed =
    (log.filterMap ImportEvent.committedOf).map Prod.snd := by
  rw [List.map_filterMap]
  apply List.filterMap_congr
  intro e _
  cases e with
  | thread me a => cases a <;> rfl
  | _ => rfl

/-- The threads of an import. -/
def Config.threads (cfg : Config) : List Who :=
  (List.range cfg.nodeWorkers).map .node ++ (List.range cfg.way_threads).map .way

theorem Config.threads_nodup (cfg : Config) : cfg.threads.Nodup := by
  refine List.nodup_append.mpr ⟨?_, ?_, ?_⟩
  · exact List.nodup_range.map fun _ _ h => Who.node.inj h
  · exact List.nodup_range.map fun _ _ h => Who.way.inj h
  · intro a ha b hb
    obtain ⟨i, -, rfl⟩ := List.mem_map.mp ha
    obtain ⟨j, -, rfl⟩ := List.mem_map.mp hb
    exact nofun

section

variable {cfg : Config} {offer : Database → List Statement → Database} {osmmap : OSMMMap} {db : Database}
  {script : List Action} {log : List ImportEvent} {s : Import}
  (h : Trace (Import.Step cfg offer) (Import.start cfg osmmap db script) log s)
include h

theorem mem_threads {who : Who} {a : Act} (hmem : .thread who a ∈ log) : who ∈ cfg.threads := by
  obtain ⟨hnode, hway⟩ := thread_lt h hmem
  cases who with
  | node i =>
    exact List.mem_append_left _ (List.mem_map.mpr ⟨i, List.mem_range.mpr (hnode i rfl), rfl⟩)
  | way i =>
    exact List.mem_append_right _ (List.mem_map.mpr ⟨i, List.mem_range.mpr (hway i rfl), rfl⟩)

/-- What is committed, thread by thread. -/
theorem perm_committed {α : Type} (f : List Statement → List α) :
    ((log.filterMap ImportEvent.committed).flatMap f).Perm
      (((List.range cfg.nodeWorkers).flatMap fun i =>
          ((acts (.node i) log).filterMap Act.committed).flatMap f) ++
        (List.range cfg.way_threads).flatMap fun i =>
          ((acts (.way i) log).filterMap Act.committed).flatMap f) := by
  have hclasses := perm_flatMap_filter cfg.threads_nodup Prod.fst
    (l := log.filterMap ImportEvent.committedOf) ?_
  · rw [committed_eq, List.flatMap_map]
    refine (hclasses.flatMap_right _).symm.trans (List.Perm.of_eq ?_)
    rw [Config.threads, List.flatMap_append, List.flatMap_append, List.flatMap_map, List.flatMap_map,
      List.flatMap_assoc, List.flatMap_assoc]
    congr 1
    · apply List.flatMap_congr
      intro i _
      rw [committed_of, List.flatMap_map]
    · apply List.flatMap_congr
      intro i _
      rw [committed_of, List.flatMap_map]
  · rintro ⟨who, txn⟩ hmem
    obtain ⟨e, he, hwho⟩ := List.mem_filterMap.mp hmem
    cases e with
    | thread me a =>
      cases a <;> cases hwho
      exact mem_threads h he
    | _ => cases hwho

/-- Tags of nodes come from node threads, and other tags do not. -/
theorem tags_of_threads : (∀ i, TagsTo (· = .node) ((acts (.node i) log).filterMap Act.committed)) ∧
    ∀ i, TagsTo (· ≠ .node) ((acts (.way i) log).filterMap Act.committed) := by
  refine ⟨fun i => ?_, fun i => ?_⟩
  · exact (tagsTo_append.mp (NodeThread.tagsTo_node (NodeThread.onlyNodes_fresh i) rfl (trace_node h i))).1
  · exact (tagsTo_append.mp (WayThread.tagsTo_other WayThread.inserting_fresh rfl rfl (trace_way h i))).1

end

theorem tagsTo_none {P : Kind → Prop} {txns : List (List Statement)} (h : TagsTo P txns) {k : Kind}
    (hk : ¬ P k) : copiedTagRows k txns = [] := by
  refine List.flatMap_eq_nil_iff.mpr fun txn htxn => List.flatMap_eq_nil_iff.mpr fun st hst => ?_
  cases st with
  | copyTags j rows =>
    have hj : j ≠ k := by
      rintro rfl
      exact hk (h txn htxn j rows hst)
    exact if_neg hj
  | _ => rfl

/-- What is taken from a buffer goes to one of its tables. -/
theorem tagsTo_from {P : Kind → Prop} {txns : List (List Statement)} (h : TagsTo P txns)
    {f : Statement → List TagRow} {b : TagBuf}
    (hf : ∀ st, (∀ k rows, st = .copyTags k rows → P k) → f st = Statement.tagsFrom b st) :
    (txns.flatMap fun txn => txn.flatMap f) = txns.flatMap fun txn => txn.flatMap (Statement.tagsFrom b) := by
  refine List.flatMap_congr fun txn htxn => List.flatMap_congr fun st hst => hf st ?_
  rintro k rows rfl
  exact h txn htxn k rows hst

/-! ## The tables of ways and relations -/

/-- The calls for ways, with the positions of nodes. -/
def wayInserts (cfg : Config) (pos : Int64 → Option Coord) (ways : List WayEntry) : List InsertCall :=
  ways.flatMap fun w => WayThread.wayCalls cfg w (w.node_refs.filterMap pos)

/-- The calls for relations, with what is found under an id. -/
def relationInserts (cfg : Config) (look : Int64 → List (Option Str)) (relations : List RelationEntry) :
    List InsertCall := relations.flatMap (WayThread.callsFor cfg look)

theorem rowsOf_wayInserts (cfg : Config) (pos : Int64 → Option Coord) (ways : List WayEntry) (k : Kind) :
    rowsOf k (wayInserts cfg pos ways) = ways.flatMap (builtRows cfg pos k) := rowsOf_flatMap ..

/-- Ways with different ids have rows with different ids. -/
theorem nodup_wayInserts (cfg : Config) (pos : Int64 → Option Coord) {ways : List WayEntry} (k : Kind)
    (h : (ways.map WayEntry.id).Nodup) : ((rowsOf k (wayInserts cfg pos ways)).map Row.id).Nodup := by
  have hcall : ∀ c : InsertCall, ((rowsOf k [c]).map Row.id).Sublist [c.id] := by
    intro c
    rw [rowsOf_singleton]
    split
    · exact List.Sublist.refl _
    · exact List.nil_sublist _
  have hone : ∀ w : WayEntry, ((builtRows cfg pos k w).map Row.id).Sublist [w.id] := by
    intro w
    show ((rowsOf k (WayThread.wayCalls cfg w _)).map Row.id).Sublist _
    simp only [WayThread.wayCalls]
    split
    · exact List.nil_sublist _
    · exact hcall _
  rw [rowsOf_wayInserts]
  refine h.sublist ?_
  clear h
  induction ways with
  | nil => exact List.Sublist.slnil
  | cons w ways ih =>
    rw [List.flatMap_cons, List.map_append, List.map_cons, ← List.singleton_append]
    exact (hone w).append ih

/-- No call is for a node. -/
theorem inserts_kinds (cfg : Config) (pos : Int64 → Option Coord) (look : Int64 → List (Option Str))
    (ways : List WayEntry) (relations : List RelationEntry) :
    ∀ c ∈ wayInserts cfg pos ways ++ relationInserts cfg look relations, c.kind ≠ .node := by
  intro c hc
  rcases List.mem_append.mp hc with hc | hc
  · obtain ⟨w, -, hc⟩ := List.mem_flatMap.mp hc
    rcases WayThread.kind_wayCalls hc with hk | hk <;> simp [hk]
  · obtain ⟨r, -, hc⟩ := List.mem_flatMap.mp hc
    rcases isFor_callsFor hc with ⟨hk, -⟩ | ⟨hk | hk, -⟩ <;> simp [hk]

theorem noNodes {calls : List InsertCall} (h : ∀ c ∈ calls, c.kind ≠ .node) :
    rowsOf .node calls = [] ∧ callTags .node calls = [] := by
  constructor
  · rw [rowsOf, List.map_eq_nil_iff, List.filter_eq_nil_iff]
    exact fun c hc => by simpa using h c hc
  · exact List.flatMap_eq_nil_iff.mpr fun c hc => if_neg (h c hc)

/-- What ways and relations make of a database. -/
theorem addAll_eq {chk : Checks} {cfg : Config} (pos : Int64 → Option Coord) (ways : List WayEntry)
    {relations : List RelationEntry} (hrelations : Unambiguous relations) (db : Database) :
    let between := db.addCalls chk (wayInserts cfg pos ways)
    db.addAll chk cfg pos ways relations =
      between.addCalls chk (relationInserts cfg (geogs between) relations) := by
  rw [Database.addAll, addWays_eq, addRelations_eq _ hrelations.members]
  rfl

theorem perm_append_append {α : Type*} (a b c d : List α) : (a ++ b ++ (c ++ d)).Perm (a ++ c ++ (b ++ d)) := by
  rw [List.append_assoc, List.append_assoc, ← List.append_assoc b, ← List.append_assoc c]
  exact (List.perm_append_comm.append_right d).append_left a

/-- The tags that a statement copies to `relation_tags` and `road_tags`. -/
def Statement.otherTags (st : Statement) : List TagRow :=
  Statement.copiedTags .relation st ++ Statement.copiedTags .road st

theorem perm_otherTags (txns : List (List Statement)) : (copiedTagRows .relation txns ++
    copiedTagRows .road txns).Perm (txns.flatMap fun txn => txn.flatMap Statement.otherTags) :=
  (List.flatMap_append_perm ..).trans (List.Perm.flatMap_left _ fun _ _ => List.flatMap_append_perm ..)

/-- A call that is not for a node fills one of the tables. -/
theorem gains_shared {calls : List InsertCall} (h : ∀ c ∈ calls, c.kind ≠ .node) :
    (callTags .relation calls ++ callTags .road calls).Perm
      (WayThread.gains (tagAccount .shared) calls) := by
  refine (List.flatMap_append_perm ..).trans (List.Perm.of_eq ?_)
  refine List.flatMap_congr fun c hc => ?_
  have hkind := h c hc
  cases hk : c.kind <;> first | exact absurd hk hkind | simp [tagAccount, hk, bufOf, InsertCall.row]

namespace Builds

variable {chk : Checks} {cfg : Config} {ways : List WayEntry} {relations : List RelationEntry}
  {osmmap : OSMMMap} {db : Database} {script : List Action} {before log : List ImportEvent}
  {released s : Import}
  (h₀ : Builds cfg (Database.offer chk) ways relations osmmap db script (before ++ [.waysReleased])
    released)
  (h : Trace (Import.Step cfg (Database.offer chk)) released log s) (hjoin : .joinWays ∈ script)
  (hend : s.script = []) (hrelations : Unambiguous relations) (hties : cfg.KeepsTies)
include h₀ h hjoin hend

theorem ended : ∀ i < cfg.way_threads, (s.way i).Ended := by
  refine (ended_of_joined (h₀.goOn h).run).2 ?_
  rw [← List.append_nil (produced _), ← hend, produced_script (h₀.goOn h).run]
  exact hjoin

include hrelations hties

/-- All inserts of the way threads. -/
theorem inserted_all : ((List.range cfg.way_threads).flatMap fun i =>
      (acts (.way i) (before ++ [.waysReleased] ++ log)).filterMap Act.inserted).Perm
    (wayInserts cfg s.shared.osmmap.select ways ++
      relationInserts cfg (geogs released.shared.db) relations) := by
  have hphase := h₀.relationPhase h hrelations hties
  have hsplit : ((List.range cfg.way_threads).flatMap fun i =>
      (acts (.way i) (before ++ [.waysReleased] ++ log)).filterMap Act.inserted) =
        (List.range cfg.way_threads).flatMap fun i =>
          (waysTakenBy i (before ++ [.waysReleased])).flatMap (fun w =>
            WayThread.wayCalls cfg w (w.node_refs.filterMap s.shared.osmmap.select)) ++
          (workedOn released log i).flatMap (WayThread.callsFor cfg (geogs released.shared.db)) := by
    apply List.flatMap_congr
    intro i hi
    have hi := List.mem_range.mp hi
    rw [acts_append, List.filterMap_append, h₀.inserted_released h hi,
      hphase.inserted_of_ended hi (h₀.ended h hjoin hend i hi)]
  rw [hsplit]
  refine (List.flatMap_append_perm ..).symm.trans (List.Perm.append ?_ ?_)
  · rw [← List.flatMap_assoc]
    exact (h₀.waysTaken_released h hjoin hend).flatMap_right _
  · rw [← List.flatMap_assoc]
    exact (h₀.workedOn_released h hjoin hend).flatMap_right _

/-- What the way threads take out of a tag buffer. -/
theorem tags_all (b : TagBuf) : ((List.range cfg.way_threads).flatMap fun i =>
      WayThread.takesOut (tagAccount b) (acts (.way i) (before ++ [.waysReleased] ++ log))).Perm
    (WayThread.gains (tagAccount b) (wayInserts cfg s.shared.osmmap.select ways ++
      relationInserts cfg (geogs released.shared.db) relations)) := by
  refine List.Perm.trans (List.Perm.of_eq ?_)
    ((h₀.inserted_all h hjoin hend hrelations hties).flatMap_right _)
  rw [List.flatMap_assoc]
  apply List.flatMap_congr
  intro i hi
  exact WayThread.tags_of_ended b (trace_way (h₀.goOn h).run i)
    (h₀.ended h hjoin hend i (List.mem_range.mp hi))

/-- The rows, in the order in which they were committed. -/
theorem rows_all {k : Kind} (hk : k ≠ .node) :
    ∃ first second, first.Perm (rowsOf k (wayInserts cfg s.shared.osmmap.select ways)) ∧
      second.Perm (rowsOf k (relationInserts cfg (geogs released.shared.db) relations)) ∧
      released.shared.db.rows k = insertRows chk k (db.rows k) first ∧
      s.shared.db.rows k = insertRows chk k (released.shared.db.rows k) second := by
  have hphase := h₀.relationPhase h hrelations hties
  have hsecond := (hphase.committed_relations (h₀.ended h hjoin hend)
    (h₀.workedOn_released h hjoin hend)).1 k hk
  refine ⟨copiedRows k ((before ++ [ImportEvent.waysReleased]).filterMap ImportEvent.committed), _, ?_,
    hsecond, ?_, ?_⟩
  · rw [rowsOf_wayInserts]
    exact h₀.copied_ways h hjoin hend hk
  · rw [db_eq h₀.run, rows_offer k (copiesOnly_log (fun i => (NodeThread.onlyNodes_fresh i).copies)
      (fun _ _ => WayThread.inserting_fresh) h₀.run)]
    rfl
  · rw [db_eq h, rows_offer k hphase.copies]

/-- The rows that are committed. -/
theorem copied_all {k : Kind} (hk : k ≠ .node) : (copiedRows k
      ((before ++ [ImportEvent.waysReleased] ++ log).filterMap ImportEvent.committed)).Perm
    (rowsOf k (wayInserts cfg s.shared.osmmap.select ways) ++
      rowsOf k (relationInserts cfg (geogs released.shared.db) relations)) := by
  rw [List.filterMap_append, copiedRows_append, rowsOf_wayInserts]
  refine (h₀.copied_ways h hjoin hend hk).append ?_
  exact ((h₀.relationPhase h hrelations hties).committed_relations (h₀.ended h hjoin hend)
    (h₀.workedOn_released h hjoin hend)).1 k hk

/-- Before the relations, a lookup finds what it finds in the sequential import. -/
theorem geogs_between (hways : (ways.map WayEntry.id).Nodup) {d : Database}
    (hd : ∀ k, k = .way ∨ k = .area → db.rows k = d.rows k) : geogs released.shared.db =
      geogs (d.addCalls chk (wayInserts cfg s.shared.osmmap.select ways)) := by
  have hsame : ∀ k, k = .way ∨ k = .area → ∀ id, released.shared.db.rowsAt k id =
      (d.addCalls chk (wayInserts cfg s.shared.osmmap.select ways)).rowsAt k id := by
    intro k hk id
    have hnode : k ≠ .node := by rcases hk with rfl | rfl <;> nofun
    obtain ⟨first, second, hfirst, -, hreleased, -⟩ := h₀.rows_all h hjoin hend hrelations hties hnode
    rw [Database.rowsAt, Database.rowsAt, hreleased, addCalls_rows, hd k hk]
    refine filter_insertRows_perm hfirst ((hfirst.map Row.id).nodup_iff.mpr ?_) id
    exact nodup_wayInserts cfg _ k hways
  funext id
  rw [geogs_eq, geogs_eq, hsame .way (.inl rfl), hsame .area (.inr rfl)]

/-- The tables of ways and relations hold what the sequential import leaves in them. -/
theorem rows_perm (hways : (ways.map WayEntry.id).Nodup) {d : Database}
    (hd : ∀ k, k = .way ∨ k = .area → db.rows k = d.rows k) {k : Kind} (hk : k ≠ .node)
    (hdk : (db.rows k).Perm (d.rows k)) : (s.shared.db.rows k).Perm
      ((d.addAll chk cfg s.shared.osmmap.select ways relations).rows k) := by
  obtain ⟨first, second, hfirst, hsecond, hreleased, hfinal⟩ := h₀.rows_all h hjoin hend hrelations hties hk
  rw [addAll_eq _ _ hrelations, ← h₀.geogs_between h hjoin hend hrelations hties hways hd, hfinal, hreleased,
    addCalls_rows, addCalls_rows]
  refine insertRows_perm (insertRows_perm hdk hfirst ?_) hsecond ?_
  · exact (hfirst.map Row.id).nodup_iff.mpr (nodup_wayInserts cfg _ k hways)
  · exact (hsecond.map Row.id).nodup_iff.mpr (WayThread.nodup_calls k hrelations.distinct)

omit hjoin hend hrelations hties in
theorem db_tags (k : Kind) : s.shared.db.tags k = db.tags k ++
    copiedTagRows k ((before ++ [ImportEvent.waysReleased] ++ log).filterMap ImportEvent.committed) := by
  have hrun := (h₀.goOn h).run
  rw [db_eq hrun, tags_offer k (copiesOnly_log (fun i => (NodeThread.onlyNodes_fresh i).copies)
    (fun _ _ => WayThread.inserting_fresh) hrun)]
  rfl

/-- The tags of ways and areas. -/
theorem tags_perm {k : Kind} (hk : k = .way ∨ k = .area) : (s.shared.db.tags k).Perm (db.tags k ++
    callTags k (wayInserts cfg s.shared.osmmap.select ways ++
      relationInserts cfg (geogs released.shared.db) relations)) := by
  have hrun := (h₀.goOn h).run
  have hnode : k ≠ .node := by rcases hk with rfl | rfl <;> nofun
  have hbuf : ∀ j, bufOf j = bufOf k ↔ j = k := by
    intro j
    rcases hk with rfl | rfl <;> cases j <;> decide
  have hstatement : Statement.copiedTags k = Statement.tagsFrom (bufOf k) := by
    funext st
    cases st with
    | copyTags j rows => simp only [Statement.copiedTags, Statement.tagsFrom, hbuf]
    | _ => rfl
  rw [h₀.db_tags h]
  refine List.Perm.append_left _ ((perm_committed hrun _).trans ?_)
  have hnone : (List.range cfg.nodeWorkers).flatMap (fun i =>
      copiedTagRows k ((acts (.node i) (before ++ [.waysReleased] ++ log)).filterMap Act.committed)) = [] :=
    List.flatMap_eq_nil_iff.mpr fun i _ => tagsTo_none ((tags_of_threads hrun).1 i) hnode
  show ((List.range cfg.nodeWorkers).flatMap (fun i =>
    copiedTagRows k ((acts (.node i) (before ++ [.waysReleased] ++ log)).filterMap Act.committed)) ++ _).Perm _
  rw [hnone, List.nil_append, hstatement]
  refine (h₀.tags_all h hjoin hend hrelations hties (bufOf k)).trans (List.Perm.of_eq ?_)
  refine List.flatMap_congr fun c _ => ?_
  simp only [tagAccount, hbuf]
  rfl

/-- The tags of relations and roads together. -/
theorem sharedTags_perm : (s.shared.db.tags .relation ++ s.shared.db.tags .road).Perm
    (db.tags .relation ++ db.tags .road ++ WayThread.gains (tagAccount .shared)
      (wayInserts cfg s.shared.osmmap.select ways ++
        relationInserts cfg (geogs released.shared.db) relations)) := by
  have hrun := (h₀.goOn h).run
  rw [h₀.db_tags h, h₀.db_tags h]
  refine (perm_append_append ..).trans (List.Perm.append_left _ ?_)
  refine (perm_otherTags _).trans ((perm_committed hrun _).trans ?_)
  have hnode : (List.range cfg.nodeWorkers).flatMap (fun i =>
      ((acts (.node i) (before ++ [.waysReleased] ++ log)).filterMap Act.committed).flatMap fun txn =>
        txn.flatMap Statement.otherTags) = [] := by
    refine List.flatMap_eq_nil_iff.mpr fun i _ => List.perm_nil.mp ((perm_otherTags _).symm.trans ?_)
    rw [tagsTo_none ((tags_of_threads hrun).1 i) (by decide),
      tagsTo_none ((tags_of_threads hrun).1 i) (by decide)]
    exact List.Perm.refl _
  rw [hnode, List.nil_append]
  refine List.Perm.trans (List.Perm.of_eq ?_) (h₀.tags_all h hjoin hend hrelations hties .shared)
  refine List.flatMap_congr fun i _ => tagsTo_from ((tags_of_threads hrun).2 i) fun st hst => ?_
  cases st with
  | copyTags j rows =>
    have hj := hst j rows rfl
    cases j <;> first | exact absurd rfl hj | simp [Statement.otherTags, Statement.copiedTags,
      Statement.tagsFrom, bufOf]
  | _ => rfl

end Builds

/-- A run that has come to its end has passed the end of the way phase. -/
theorem Builds.split_released {cfg : Config} {offer : Database → List Statement → Database}
    {ways : List WayEntry} {relations : List RelationEntry} {osmmap : OSMMMap} {db : Database}
    {script : List Action} {log : List ImportEvent} {s : Import}
    (h : Builds cfg offer ways relations osmmap db script log s) (hjoin : .joinWays ∈ script)
    (hend : s.script = []) : ∃ before rest released, log = before ++ [.waysReleased] ++ rest ∧
      Builds cfg offer ways relations osmmap db script (before ++ [.waysReleased]) released ∧
        Trace (Import.Step cfg offer) released rest s := by
  have hdone := (ended_of_joined h.run).2 (by
    rw [← List.append_nil (produced _), ← hend, produced_script h.run]
    exact hjoin) 0 cfg.way_threads_pos
  have hpassed : (s.way 0).status = .passed := by rw [WayThread.status, hdone.1]
  have hone := (way_oneShot h.phase h.run).all_arrived cfg.way_threads_pos hpassed
  have hmem := mem_released h.run (by rw [hone.1]; exact Nat.one_ne_zero)
  obtain ⟨before, rest, hlog⟩ := List.append_of_mem hmem
  rw [List.append_cons] at hlog
  obtain ⟨released, hreleased, hrest⟩ := (hlog ▸ h.run).split
  exact ⟨before, rest, released, hlog, ⟨h.phase, h.sensible, h.handed, hreleased⟩, hrest⟩

/-! ## The whole import -/

/-- The COPY of the nodes of a file is accepted. -/
def OrderedFile.NodesFit {fmt : Formats} (file : OrderedFile fmt) (chk : Checks) (cfg : Config)
    (db : Database) : Prop :=
  ∀ n ∈ file.nodes, chk.rowOk .node (NodeThread.row cfg n) = true ∧ n.id ∉ (db.rows .node).map Row.id

section

variable {fmt : Formats} {chk : Checks} {cfg : Config} {file : OrderedFile fmt} {osmmap : OSMMMap}
  {db : Database} {log : List ImportEvent} {s : Import} (hphase : cfg.resume_phase = .nodes)
  (h : Trace (Import.Step cfg (Database.offer chk)) (Import.start cfg osmmap db (file.script cfg)) log s)
  (hend : s.script = [])
include hphase h hend

/-- The rows of nodes, in the order in which they were committed. -/
theorem nodes_committed : ((copiedRows .node (log.filterMap ImportEvent.committed)).Perm
      (file.nodes.flatMap (NodeThread.rowsFor cfg))) ∧
    (copiedTagRows .node (log.filterMap ImportEvent.committed)).Perm
      (file.nodes.flatMap NodeThread.tagsFor) := by
  have hworkers : cfg.nodeWorkers = cfg.node_threads := nodeWorkers_of_nodes (by rw [hphase]; rfl)
  have hended : ∀ i < cfg.nodeWorkers, (s.node i).Ended := by
    refine (ended_of_joined h).1 ?_
    rw [← List.append_nil (produced _), ← hend, produced_script h]
    simp [OrderedFile.script, Producer.run, Producer.actions, Producer.finish,
      show Producer.seekPosition .nodes _ = 0 from rfl, file.complete]
  have hstored := (delivered hphase h hend).1
  rw [NodesStored, ← hworkers] at hstored
  have hthreads : ∀ {α : Type} (f : List Statement → List α) (g : NodeEntry → List α),
      (∀ i, ((acts (.way i) log).filterMap Act.committed).flatMap f = []) →
      (∀ i < cfg.nodeWorkers, ((acts (.node i) log).filterMap Act.committed).flatMap f =
        (storedBy i log).flatMap g) →
      ((log.filterMap ImportEvent.committed).flatMap f).Perm (file.nodes.flatMap g) := by
    intro α f g hway hnode
    refine (perm_committed h f).trans ?_
    rw [List.flatMap_eq_nil_iff.mpr fun i _ => hway i, List.append_nil]
    refine List.Perm.trans (List.Perm.of_eq ?_) (hstored.flatMap_right g)
    rw [List.flatMap_assoc]
    exact List.flatMap_congr fun i hi => hnode i (List.mem_range.mp hi)
  obtain ⟨htagsNode, htagsWay⟩ := tags_of_threads h
  refine ⟨hthreads _ _ (fun i => ?_) fun i hi => ?_, hthreads _ _ (fun i => ?_) fun i hi => ?_⟩
  · exact (WayThread.buf_node WayThread.inserting_fresh rfl rfl (trace_way h i)).2
  · exact (NodeThread.committed_of_ended (trace_node h i) (hended i hi)).1
  · exact tagsTo_none (htagsWay i) (by simp)
  · refine Eq.trans (tagsTo_from (htagsNode i) fun st hst => ?_)
      (NodeThread.committed_of_ended (trace_node h i) (hended i hi)).2
    cases st with
    | copyTags j rows =>
      obtain rfl := hst j rows rfl
      rfl
    | _ => rfl

theorem nodes_result (hids : (file.nodes.map NodeEntry.id).Nodup) (hfit : file.NodesFit chk cfg db) :
    (s.shared.db.rows .node).Perm
      (db.rows .node ++ file.nodes.flatMap (NodeThread.rowsFor cfg)) ∧
    (s.shared.db.tags .node).Perm (db.tags .node ++ file.nodes.flatMap NodeThread.tagsFor) := by
  obtain ⟨hrows, htags⟩ := nodes_committed hphase h hend
  have hcopies := copiesOnly_log (fun i => (NodeThread.onlyNodes_fresh i).copies)
    (fun _ _ => WayThread.inserting_fresh) h
  have hfits : ∀ row ∈ file.nodes.flatMap (NodeThread.rowsFor cfg),
      chk.rowOk .node row = true ∧ row.id ∉ (db.rows .node).map Row.id := by
    intro row hrow
    obtain ⟨n, hn, hrow⟩ := List.mem_flatMap.mp hrow
    unfold NodeThread.rowsFor at hrow
    split at hrow
    · cases hrow
    · obtain rfl := List.mem_singleton.mp hrow
      exact hfit n hn
  have hnodup : ((file.nodes.flatMap (NodeThread.rowsFor cfg)).map Row.id).Nodup := by
    refine hids.sublist ?_
    clear hids hfit hrows htags hfits hphase hend h hcopies
    induction file.nodes with
    | nil => exact List.Sublist.slnil
    | cons n nodes ih =>
      rw [List.flatMap_cons, List.map_append, List.map_cons, ← List.singleton_append]
      refine List.Sublist.append ?_ ih
      unfold NodeThread.rowsFor
      split
      · exact List.nil_sublist _
      · exact List.Sublist.refl _
  constructor
  · rw [db_eq h, rows_offer .node hcopies]
    refine (insertRows_perm (List.Perm.refl _) hrows ((hrows.map Row.id).nodup_iff.mpr hnodup)).trans
      (List.Perm.of_eq ?_)
    show db.rows .node ++ keep Row.id (chk.rowOk .node) ((db.rows .node).map Row.id) _ = _
    rw [keep_eq_filter hnodup, List.filter_eq_self.mpr]
    intro row hrow
    simpa using hfits row hrow
  · rw [db_eq h, tags_offer .node hcopies]
    exact htags.append_left _

section

variable {max_id : Int64} (hst : OSMMMap.Created max_id cfg.node_threads osmmap) (hties : cfg.KeepsTies)
  (hfile : file.Distinct max_id) (hfit : file.NodesFit chk cfg db)
include hst hties hfile hfit

theorem outcome_of_end :
    s.shared.osmmap.select = file.position cfg ∧ SameOutcome s.shared.db (file.sequential chk cfg db) := by
  have hjoin : .joinWays ∈ file.script cfg := joinWays_mem file.complete
  have hpos : s.shared.osmmap.select = file.position cfg :=
    funext (select_import hphase hst hfile.nodes hfile.range h hend)
  obtain ⟨hnodes, hnodeTags⟩ := nodes_result hphase h hend hfile.nodes hfit
  obtain ⟨before, rest, released, rfl, h₀, hrest⟩ := (builds_fresh hphase h).split_released hjoin hend
  have hd : ∀ k, k ≠ .node → (file.nodes.foldl (Database.addNode cfg) db).rows k = db.rows k ∧
      (file.nodes.foldl (Database.addNode cfg) db).tags k = db.tags k := by
    intro k hk
    rw [addNodes_eq]
    exact ⟨Function.update_of_ne hk .., Function.update_of_ne hk ..⟩
  have hlook := h₀.geogs_between hrest hjoin hend hfile.relations hties hfile.ways
    (d := file.nodes.foldl (Database.addNode cfg) db)
    fun k hk => (hd k (by rcases hk with rfl | rfl <;> nofun)).1.symm
  have hseq : file.sequential chk cfg db = (file.nodes.foldl (Database.addNode cfg) db).addCalls chk
      (wayInserts cfg s.shared.osmmap.select file.ways ++
        relationInserts cfg (geogs released.shared.db) file.relations) := by
    rw [OrderedFile.sequential, ← hpos, addAll_eq _ _ hfile.relations, ← hlook, addCalls_append]
  have hkinds := inserts_kinds cfg s.shared.osmmap.select (geogs released.shared.db) file.ways
    file.relations
  refine ⟨hpos, fun k => ?_, fun k hrelation hroad => ?_, ?_, ?_⟩
  · by_cases hk : k = .node
    · subst hk
      rw [hseq, addCalls_rows, (noNodes hkinds).1, insertRows_nil, addNodes_eq]
      exact hnodes.trans (List.Perm.of_eq (by simp))
    · rw [OrderedFile.sequential, ← hpos]
      exact h₀.rows_perm hrest hjoin hend hfile.relations hties hfile.ways
        (fun j hj => (hd j (by rcases hj with rfl | rfl <;> nofun)).1.symm) hk
        (List.Perm.of_eq (hd k hk).1.symm)
  · rw [hseq, addCalls_tags]
    by_cases hk : k = .node
    · subst hk
      rw [(noNodes hkinds).2, List.append_nil, addNodes_eq]
      exact hnodeTags.trans (List.Perm.of_eq (by simp))
    · rw [(hd k hk).2]
      refine h₀.tags_perm hrest hjoin hend hfile.relations hties ?_
      cases k with
      | way => exact .inl rfl
      | area => exact .inr rfl
      | node => exact absurd rfl hk
      | road => exact absurd rfl hroad
      | relation => exact absurd rfl hrelation
  · rw [hseq, addCalls_tags, addCalls_tags, (hd .relation nofun).2, (hd .road nofun).2]
    refine (h₀.sharedTags_perm hrest hjoin hend hfile.relations hties).trans ?_
    exact ((gains_shared hkinds).symm.append_left _).trans (perm_append_append ..)
  · rw [hseq, addCalls_sequence, addNodes_eq, db_eq h, sequence_offer (copiesOnly_log
      (fun i => (NodeThread.onlyNodes_fresh i).copies) (fun _ _ => WayThread.inserting_fresh) h)]
    rfl

/-- **The result of an import.** However its threads are scheduled, and whatever their numbers and the
bounds of the queues, a fresh import that has come to its end has stored the nodes of the file, and leaves in
the database what the sequential import of the file leaves there. -/
theorem import_result :
    s.shared.osmmap.select = file.position cfg ∧ SameOutcome s.shared.db (file.sequential chk cfg db) :=
  outcome_of_end hphase h hend hst hties hfile hfit

end

end

theorem import_result_pond : ∃ st log s, OSMMMap.Created 10 2 st ∧
    Trace (Import.Step pondConfig (Database.offer Checks.any))
      (Import.start pondConfig st blankDb (pondFile.script pondConfig)) log s ∧ s.script = [] ∧
    s.shared.osmmap.select = pondFile.position pondConfig ∧
    SameOutcome s.shared.db (pondFile.sequential Checks.any pondConfig blankDb) := by
  obtain ⟨st, hst, hplat⟩ := OSMMMap.created_ten
  have hstart : Trace (Import.Step pondConfig (Database.offer Checks.any))
    (Import.start pondConfig st blankDb (pondFile.script pondConfig)) [] _ := .nil
  obtain ⟨log, s, h, hend⟩ := Import.finishes (sensible_fresh pond_fresh) (pond_hasRoom hplat) hstart
  refine ⟨st, log, s, hst, h, hend, ?_⟩
  exact import_result pond_fresh h hend hst pond_ties
    ⟨by decide, by decide, by decide, pond_unambiguous⟩ fun n _ => ⟨rfl, List.not_mem_nil⟩

end OsmImport
