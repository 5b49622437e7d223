import OsmImport.Import.Proofs.ExactlyOnce
import OsmImport.Import.Proofs.WayRows

/-!
# Relations see all ways

The store does not change any more when the first way is taken, the way threads arrive at their barrier
once, and behind it the rows of all ways are committed.
-/

namespace OsmImport

open BlockingQueue

/-! ## The store and the database -/

section

variable {cfg : Config} {offer : Database → List Statement → Database} {s : Import} {osmmap : OSMMMap}
  {db : Database} {script : List Action} {log : List ImportEvent}

/-- The database is what the transactions of the threads made of it. -/
theorem db_eq {s₀ : Import} (h : Trace (Import.Step cfg offer) s₀ log s) :
    s.shared.db = (log.filterMap ImportEvent.committed).foldl offer s₀.shared.db := by
  induction h with
  | nil => rfl
  | snoc _ hstep ih =>
    rw [List.filterMap_append, List.foldl_append, ← ih]
    have hthread : ∀ {who : Who} {sh sh' : Shared} {a : Act}, Effect cfg offer who sh sh' a →
        sh'.db = ([ImportEvent.thread who a].filterMap ImportEvent.committed).foldl offer sh.db := by
      intro who sh sh' a he
      rw [he.data.2]
      cases hc : a.committed with
      | none => rw [List.filterMap_cons_none (by exact hc)]; rfl
      | some txn => rw [List.filterMap_cons_some (by exact hc)]; rfl
    cases hstep with
    | producer _ hp => exact hp.data.2
    | node _ _ he => exact hthread he
    | way _ _ he => exact hthread he
    | mergeStart _ _ => rfl
    | mergeFinish _ => rfl
    | release _ => rfl

/-- All of them only append rows. -/
theorem copiesOnly_log {s₀ : Import} (hnode : ∀ i, CopiesOnly (s₀.node i).outbox)
    (hway : ∀ i < cfg.way_threads, (s₀.way i).Inserting) (h : Trace (Import.Step cfg offer) s₀ log s) :
    CopiesOnly (log.filterMap ImportEvent.committed) := by
  induction h with
  | nil => nofun
  | snoc h hstep ih =>
    rw [List.filterMap_append]
    refine copiesOnly_append.mpr ⟨ih, ?_⟩
    intro txn htxn
    obtain ⟨e, he, hc⟩ := List.mem_filterMap.mp htxn
    obtain rfl := List.mem_singleton.mp he
    cases hstep with
    | @node i act t _ _ ht _ =>
      have hout : CopiesOnly ((_ : Import).node i).outbox :=
        (node_steps h i).invariant (I := fun _ t => CopiesOnly t.outbox) (hnode i)
          fun _ _ _ _ _ hi hs => (hs.copies hi).1
      cases act <;> cases hc
      exact (ht.copies hout).2 _ rfl
    | @way i act t _ hi ht _ =>
      cases act <;> cases hc
      exact (ht.inserting (WayThread.inserting (hway i hi) (way_steps h i))).2 _ rfl
    | _ => cases hc

/-- A row that was committed is there, if every transaction is accepted. -/
theorem mem_rows_of_committedBy
    (h : Trace (Import.Step cfg Database.commit) (Import.start cfg osmmap db script) log s) {who : Who}
    {k : Kind} {row : Row} (hrow : row ∈ committedBy who k log) : row ∈ s.shared.db.rows k := by
  have hrows : ∀ (txns : List (List Statement)) (db : Database), CopiesOnly txns →
      (txns.foldl Database.commit db).rows k = db.rows k ++ copiedRows k txns := by
    intro txns
    induction txns with
    | nil => exact fun db _ => (List.append_nil _).symm
    | cons txn txns ih =>
      intro db hc
      obtain ⟨htxn, hrest⟩ := List.forall_mem_cons.mp hc
      rw [List.foldl_cons, ih _ hrest, rows_commit k htxn, copiedRows_cons, List.append_assoc]
  rw [db_eq h, hrows _ _ (copiesOnly_log (fun _ _ hmem => absurd hmem List.not_mem_nil)
    (fun _ _ => WayThread.inserting_fresh) h)]
  apply List.mem_append_right
  obtain ⟨txn, htxn, hmem⟩ := List.mem_flatMap.mp hrow
  obtain ⟨a, ha, hc⟩ := List.mem_filterMap.mp htxn
  exact List.mem_flatMap.mpr ⟨txn, List.mem_filterMap.mpr ⟨_, mem_acts.mp ha, hc⟩, hmem⟩

/-! ## Lookups in the store -/

theorem taken_of_select {i : ℕ}
    (h : Trace (Import.Step cfg offer) (Import.start cfg osmmap db script) log s) {id : Int64}
    {pos : Option Coord} (hmem : .select id pos ∈ acts (.way i) log) :
    ∃ entry, .take entry ∈ acts (.way i) log := by
  refine (trace_way h i).invariant (I := fun tr _ => .select id pos ∈ tr → ∃ entry, .take entry ∈ tr)
    nofun ?_ hmem
  intro tr t a t' htr ih hstep hmem
  rcases List.mem_append.mp hmem with hmem | hmem
  · obtain ⟨entry, hentry⟩ := ih hmem
    exact ⟨entry, List.mem_append_left _ hentry⟩
  · rw [← List.mem_singleton.mp hmem] at hstep ⊢
    cases hstep with
    | @select w _ refs coords _ _ hpc =>
      refine ⟨.way w, List.mem_append_left _ ((WayThread.placed htr).inHand _ ?_)⟩
      rw [hpc]
      exact List.mem_singleton.mpr rfl

/-- Every lookup found what is in the store now. -/
theorem select_agrees (hskip : Producer.skip_nodes cfg.resume_phase = false)
    (hs : Justified (Sensible cfg.node_threads cfg.resume_phase) script)
    (h : Trace (Import.Step cfg offer) (Import.start cfg osmmap db script) log s) {i : ℕ} {id : Int64}
    {pos : Option Coord} (hmem : .select id pos ∈ acts (.way i) log) :
    pos = s.shared.osmmap.select id := by
  induction h with
  | nil => cases hmem
  | @snoc log s s' e h hstep ih =>
    rw [acts_append] at hmem
    -- behind a lookup, no node thread is in its loop, and the merge is over
    have hphase : .select id pos ∈ acts (.way i) log → s.shared.node_barrier.phase = 1 := by
      intro hold
      obtain ⟨entry, hentry⟩ := taken_of_select h hold
      exact (merged_of_taken h hs hskip hentry).2
    have hold : s'.shared.osmmap = s.shared.osmmap → .select id pos ∈ acts (.way i) log →
        pos = s'.shared.osmmap.select id := by
      intro hsame hold
      rw [hsame]
      exact ih hold
    cases hstep with
    | producer _ hp =>
      exact hold hp.data.1 ((List.mem_append.mp hmem).resolve_right List.not_mem_nil)
    | @node j act t sh' hj ht he =>
      have hpre := (List.mem_append.mp hmem).resolve_right List.not_mem_nil
      refine hold (he.data.1 ?_) hpre
      rintro n r rfl
      have hbefore : (s.node j).status = .before := by
        cases ht with
        | store _ hpc => simp [NodeThread.status, hpc]
      have hzero := ((node_barrier h).oneShot.of_before (hj.trans_le nodeWorkers_le) hbefore).1
      rw [hphase hpre] at hzero
      cases hzero
    | @way j act t sh' hj ht he =>
      have hsame : sh'.osmmap = s.shared.osmmap := by
        apply he.data.1
        rintro n r rfl
        cases ht
      rcases List.mem_append.mp hmem with hmem | hmem
      · exact hold hsame hmem
      · have hact : act = .select id pos := by
          have hthread := mem_acts.mp hmem
          simpa [eq_comm] using (ImportEvent.thread.inj (List.mem_singleton.mp hthread)).2
        subst hact
        show pos = sh'.osmmap.select id
        rw [hsame]
        exact he.1
    | mergeStart _ _ => exact hold rfl ((List.mem_append.mp hmem).resolve_right List.not_mem_nil)
    | mergeFinish hm =>
      have hmem := (List.mem_append.mp hmem).resolve_right List.not_mem_nil
      have hone := hphase hmem
      cases (node_barrier h).merge with
      | idle hf _ _ _ => simp [hm] at hf
      | running _ hzero _ _ _ => omega
      | finished hf _ _ _ => simp [hm] at hf
    | release _ => exact hold rfl ((List.mem_append.mp hmem).resolve_right List.not_mem_nil)

/-- Where nodes are skipped, no node thread is launched, and the store stays as it is. -/
theorem unchanged_of_skip (hskip : Producer.skip_nodes cfg.resume_phase = true)
    (h : Trace (Import.Step cfg offer) (Import.start cfg osmmap db script) log s) :
    (∀ i, (s.node i).status = .before) ∧ s.shared.osmmap = osmmap := by
  induction h with
  | nil => exact ⟨fun _ => rfl, rfl⟩
  | @snoc log s s' e h hstep ih =>
    obtain ⟨hnode, hstore⟩ := ih
    cases hstep with
    | producer _ hp => exact ⟨hnode, hp.data.1.trans hstore⟩
    | node hi _ _ =>
      rw [Config.nodeWorkers, hskip] at hi
      exact absurd hi (Nat.not_lt_zero _)
    | way _ ht he =>
      refine ⟨hnode, (he.data.1 ?_).trans hstore⟩
      rintro n r rfl
      cases ht
    | mergeStart _ _ => exact ⟨hnode, hstore⟩
    | mergeFinish hm =>
      -- the merge has not begun: nobody has arrived
      have hb := node_barrier h
      cases hb.merge with
      | idle hf _ _ _ => exact absurd (hf.symm.trans hm) Bool.false_ne_true
      | running _ _ _ harrived _ =>
        have hwaiting := (hb.oneShot.all_waiting cfg.node_threads_pos harrived).2 0 cfg.node_threads_pos
        cases (hnode 0).symm.trans hwaiting
      | finished hf _ _ _ => exact absurd (hf.symm.trans hm) Bool.false_ne_true
    | release _ => exact ⟨hnode, hstore⟩

theorem select_of_skip (hskip : Producer.skip_nodes cfg.resume_phase = true)
    (h : Trace (Import.Step cfg offer) (Import.start cfg osmmap db script) log s) {i : ℕ} {id : Int64}
    {pos : Option Coord} (hmem : .select id pos ∈ acts (.way i) log) :
    pos = s.shared.osmmap.select id := by
  rw [(unchanged_of_skip hskip h).2]
  induction h with
  | nil => cases hmem
  | @snoc log s s' e h hstep ih =>
    rw [acts_append] at hmem
    rcases List.mem_append.mp hmem with hmem | hmem
    · exact ih hmem
    · have hlast := List.mem_singleton.mp (mem_acts.mp hmem)
      cases hstep with
      | way _ _ he =>
        cases hlast
        rw [← (unchanged_of_skip hskip h).2]
        exact he.1
      | _ => cases hlast

end

/-! ## The ways of a file -/

theorem rowsOf_flatMap {α : Type} (k : Kind) (f : α → List InsertCall) (l : List α) :
    rowsOf k (l.flatMap f) = l.flatMap fun a => rowsOf k (f a) := by
  rw [rowsOf, List.filter_flatMap, List.map_flatMap]
  rfl

/-- Ways become ways or areas. -/
theorem builtRows_nil {cfg : Config} {pos : Int64 → Option Coord} {k : Kind} (w : WayEntry)
    (hk : ¬ (k = .way ∨ k = .area)) : builtRows cfg pos k w = [] := by
  rw [builtRows, List.map_eq_nil_iff, List.filter_eq_nil_iff]
  intro c hc hck
  simp only [WayThread.wayCalls] at hc
  split at hc
  · cases hc
  · rw [List.mem_singleton.mp hc, decide_eq_true_eq] at hck
    dsimp only at hck
    split at hck
    · exact hk (.inr hck.symm)
    · exact hk (.inl hck.symm)

theorem asWay_filter (l : List OSMEntry) :
    (l.filter (actsOn false)).filterMap OSMEntry.asWay = l.filterMap OSMEntry.asWay := by
  rw [List.filterMap_filter]
  apply List.filterMap_congr
  intro e _
  cases e <;> rfl

/-- A run that builds ways, of an import from the beginning or with `-R ways`: its script hands these ways
and relations to the way threads. -/
structure Builds (cfg : Config) (offer : Database → List Statement → Database) (ways : List WayEntry)
    (relations : List RelationEntry) (osmmap : OSMMMap) (db : Database) (script : List Action)
    (log : List ImportEvent) (s : Import) : Prop where
  phase : cfg.resume_phase ≠ .relations
  sensible : Justified (Sensible cfg.node_threads cfg.resume_phase) script
  handed : actedOn cfg.resume_phase script = ways.map .way ++ relations.map .relation
  run : Trace (Import.Step cfg offer) (Import.start cfg osmmap db script) log s

namespace Builds

variable {cfg : Config} {offer : Database → List Statement → Database} {ways : List WayEntry}
  {relations : List RelationEntry} {osmmap : OSMMMap} {db : Database} {script : List Action}
  {log log' : List ImportEvent} {s s' : Import}
  (h : Builds cfg offer ways relations osmmap db script log s)
include h

theorem goOn (h' : Trace (Import.Step cfg offer) s log' s') :
    Builds cfg offer ways relations osmmap db script (log ++ log') s' :=
  ⟨h.phase, h.sensible, h.handed, h.run.append h'⟩

/-- What the way threads have taken together, in the order of the queue. -/
theorem taken_initial : ((log.filterMap ImportEvent.takenByWay).map Prod.snd).filter (actsOn false) <+:
    ways.map .way ++ relations.map .relation := by
  have hpushed := pushed_way h.run h.sensible 0
  rw [pushed_eq (trace_queue h.run (.way 0)), popped_way] at hpushed
  rw [← h.handed, actedOn, decide_eq_false h.phase, ← produced_script h.run, List.filterMap_append,
    List.filter_append, ← hpushed, List.filter_append, List.append_assoc]
  exact List.prefix_append ..

theorem trace_thread (i : ℕ) : Trace (WayThread.Step cfg)
    ⟨.pop, NavDB.fresh (cfg.node_threads + i), [], false⟩ (acts (.way i) log) (s.way i) := by
  have htrace := trace_way h.run i
  rw [decide_eq_false h.phase] at htrace
  exact htrace

theorem waysFirst_taken (i : ℕ) : WayThread.WaysFirst (takenBy (.way i) log) := by
  have hfile : WayThread.WaysFirst (ways.map .way ++ relations.map .relation) := by
    refine List.pairwise_append.mpr ⟨?_, ?_, ?_⟩
    · exact List.pairwise_map.mpr (List.pairwise_of_forall fun _ _ hr => Bool.noConfusion hr)
    · exact List.pairwise_map.mpr (List.pairwise_of_forall fun _ _ _ => rfl)
    · intro a ha b hb _
      obtain ⟨r, -, rfl⟩ := List.mem_map.mp hb
      rfl
  have htaken : WayThread.WaysFirst ((log.filterMap ImportEvent.takenByWay).map Prod.snd) := by
    -- nodes are no relations, and no ways
    refine (List.pairwise_filter.mp (hfile.sublist h.taken_initial.sublist)).imp ?_
    intro a b hab ha
    cases b with
    | way w =>
      refine hab ?_ rfl ha
      cases a with
      | relation r => rfl
      | _ => cases ha
    | _ => rfl
  rw [takenBy_way]
  exact htaken.sublist (List.filter_sublist.map _)

/-- Once a thread has taken a relation, all ways are taken. -/
theorem waysTaken {i : ℕ} {r : RelationEntry} (hr : .take (.relation r) ∈ acts (.way i) log) :
    ((List.range cfg.way_threads).flatMap fun i => waysTakenBy i log).Perm ways := by
  have hpopped : .relation r ∈
      ((log.filterMap ImportEvent.takenByWay).map Prod.snd).filter (actsOn false) :=
    List.mem_filter.mpr
      ⟨List.mem_map.mpr ⟨(i, _), List.mem_filterMap.mpr ⟨_, mem_acts.mp hr, rfl⟩, rfl⟩, rfl⟩
  have hprefix : ways.map OSMEntry.way <+:
      ((log.filterMap ImportEvent.takenByWay).map Prod.snd).filter (actsOn false) := by
    rcases List.prefix_or_prefix_of_prefix h.taken_initial (List.prefix_append ..) with hp | hp
    · obtain ⟨w, -, hw⟩ := List.mem_map.mp (hp.subset hpopped)
      cases hw
    · exact hp
  obtain ⟨rest, hrest⟩ := hprefix
  have hperm := perm_flatMap_filter (List.nodup_range (n := cfg.way_threads)) Prod.fst
    (l := log.filterMap ImportEvent.takenByWay) ?_
  · have hmap := (hperm.map Prod.snd).filterMap OSMEntry.asWay
    rw [List.map_flatMap, List.filterMap_flatMap] at hmap
    have hways : ((log.filterMap ImportEvent.takenByWay).map Prod.snd).filterMap OSMEntry.asWay =
        ways := by
      have hrelations : rest.filterMap OSMEntry.asWay = [] := by
        have htail := h.taken_initial
        rw [← hrest, List.prefix_append_right_inj] at htail
        rw [List.filterMap_eq_nil_iff]
        intro e he
        obtain ⟨r, -, rfl⟩ := List.mem_map.mp (htail.subset he)
        rfl
      rw [← asWay_filter, ← hrest, List.filterMap_append, hrelations, List.append_nil,
        List.filterMap_map]
      exact List.filterMap_some
    rw [hways] at hmap
    simpa only [waysTakenBy, takenBy_way] using hmap
  · exact fun p hmem => List.mem_range.mpr (takenByWay_lt h.run hmem)

/-- The lookups of the threads found what is in the store now. -/
theorem select_agrees {i : ℕ} {id : Int64} {pos : Option Coord}
    (hmem : .select id pos ∈ acts (.way i) log) : pos = s.shared.osmmap.select id := by
  cases hskip : Producer.skip_nodes cfg.resume_phase with
  | false => exact OsmImport.select_agrees hskip h.sensible h.run hmem
  | true => exact select_of_skip hskip h.run hmem

/-- Behind the barrier, the rows of the ways that a thread has taken are committed. -/
theorem committed_of_arrived {i : ℕ} (hi : (s.way i).status ≠ .before) (k : Kind) :
    ((waysTakenBy i log).flatMap (builtRows cfg s.shared.osmmap.select k)).Sublist
      (committedBy (.way i) k log) := by
  by_cases hk : k = .way ∨ k = .area
  · have htrace := h.trace_thread i
    have hsettled := WayThread.settled (fun _ => rfl) htrace (h.waysFirst_taken i)
    have hbuilt := WayThread.built h.phase (fun id p hmem => h.select_agrees hmem) htrace
    have htodo : (s.way i).pc.todo cfg s.shared.osmmap.select = [] := by
      have hhand := hsettled.inHand hi
      cases hpc : (s.way i).pc with
      | locating w refs coords =>
        rw [hpc] at hhand
        exact absurd (List.mem_singleton.mpr rfl) (hhand w)
      | inserting entry calls =>
        cases entry with
        | way w =>
          rw [hpc] at hhand
          exact absurd (List.mem_singleton.mpr rfl) (hhand w)
        | _ => rfl
      | _ => rfl
    rw [htodo, List.append_nil] at hbuilt
    have hrows := hsettled.committed hi k hk
    rw [← hbuilt, rowsOf_flatMap] at hrows
    exact hrows
  · have hnil : (waysTakenBy i log).flatMap (builtRows cfg s.shared.osmmap.select k) = [] := by
      rw [List.flatMap_eq_nil_iff]
      exact fun w _ => builtRows_nil w hk
    rw [hnil]
    exact List.nil_sublist _

end Builds

section

variable {fmt : Formats} {cfg : Config} {file : OrderedFile fmt}
  {offer : Database → List Statement → Database} {osmmap : OSMMMap} {db : Database}
  {log : List ImportEvent} {s : Import} (hphase : cfg.resume_phase = .nodes)
  (h : Trace (Import.Step cfg offer) (Import.start cfg osmmap db (file.script cfg)) log s)
include hphase h

/-- An import from the beginning. -/
theorem builds_fresh :
    Builds cfg offer file.ways file.relations osmmap db (file.script cfg) log s where
  phase := by simp [hphase]
  sensible := sensible_fresh hphase
  handed := by
    rw [actedOn, (pushes_script cfg file).2, decide_eq_false (by simp [hphase]), List.filter_eq_self]
    intro e he
    rcases List.mem_append.mp he with he | he
    · obtain ⟨w, -, rfl⟩ := List.mem_map.mp he
      rfl
    · obtain ⟨r, -, rfl⟩ := List.mem_map.mp he
      rfl
  run := h

theorem trace_fresh (i : ℕ) : Trace (WayThread.Step cfg)
    ⟨.pop, NavDB.fresh (cfg.node_threads + i), [], false⟩ (acts (.way i) log) (s.way i) :=
  (builds_fresh hphase h).trace_thread i

theorem waysTaken {i : ℕ} {r : RelationEntry} (hr : .take (.relation r) ∈ acts (.way i) log) :
    ((List.range cfg.way_threads).flatMap fun i => waysTakenBy i log).Perm file.ways :=
  (builds_fresh hphase h).waysTaken hr

theorem committed_of_arrived {i : ℕ} (hi : (s.way i).status ≠ .before) (k : Kind) :
    ((waysTakenBy i log).flatMap (builtRows cfg s.shared.osmmap.select k)).Sublist
      (committedBy (.way i) k log) :=
  (builds_fresh hphase h).committed_of_arrived hi k

end

/-- What is committed when a thread looks up a way. -/
theorem waysCommitted {fmt : Formats} {cfg : Config} {file : OrderedFile fmt} {osmmap : OSMMMap}
    {db : Database} {log : List ImportEvent} {s s' : Import} (hphase : cfg.resume_phase = .nodes)
    (h : Trace (Import.Step cfg Database.commit)
      (Import.start cfg osmmap db (file.script cfg)) log s) {i : ℕ} {act : Act}
    (hstep : Import.Step cfg Database.commit s (.thread (.way i) act) s') (hact : act.looksUp = true) :
    WaysCommitted cfg file log s.shared := by
  cases hstep with
  | way hi ht he =>
    have hpc : WayThread.looksUp (s.way i).pc = true ∧
        ∃ r, .relation r ∈ (s.way i).pc.inHand := by
      cases ht with
      | getWay _ _ hpc => rw [hpc]; exact ⟨rfl, _, List.mem_singleton.mpr rfl⟩
      | getWayCoordsMap _ _ hpc => rw [hpc]; exact ⟨rfl, _, List.mem_singleton.mpr rfl⟩
      | _ => cases hact
    obtain ⟨hlooks, r, hr⟩ := hpc
    have hflag := WayThread.flag_of_looksUp (trace_way h i) hlooks
    have hpassed : (s.way i).status = .passed := by
      unfold WayThread.status
      split <;> simp_all [WayThread.looksUp]
    have harrived := ((way_oneShot (by rw [hphase]; nofun) h).all_arrived hi hpassed).2
    have htaken := waysTaken hphase h ((WayThread.placed (trace_way h i)).inHand _ hr)
    have hcommitted : ∀ j < cfg.way_threads, ∀ k, ((waysTakenBy j log).flatMap
        (builtRows cfg s.shared.osmmap.select k)).Sublist (committedBy (.way j) k log) :=
      fun j hj k => committed_of_arrived hphase h (harrived j hj) k
    refine ⟨htaken, hcommitted, fun w hw k row hrow => ?_⟩
    obtain ⟨j, hj, hwj⟩ := List.mem_flatMap.mp (htaken.mem_iff.mpr hw)
    refine mem_rows_of_committedBy h ((hcommitted j (List.mem_range.mp hj) k).subset ?_)
    exact List.mem_flatMap.mpr ⟨w, hwj, hrow⟩

/-- **Relations see all ways.** In every run of a fresh import whose transactions are accepted, each way
thread arrives at `way_barrier` at most once, and when the run is over, or cannot go on and no insert of a
node throws, exactly once; and when a thread looks up a way for a relation, all ways are taken, and the rows
that are built from them are committed by the threads that took them. -/
theorem relations_see_ways {fmt : Formats} {cfg : Config} (hphase : cfg.resume_phase = .nodes)
    {file : OrderedFile fmt} {osmmap : OSMMMap} {db : Database} {log : List ImportEvent} {s : Import}
    (h : Trace (Import.Step cfg Database.commit)
      (Import.start cfg osmmap db (file.script cfg)) log s) :
    (∀ i, ((acts (.way i) log).filterMap Act.arrival).length ≤ 1) ∧
    ((s.script = [] ∨ (¬ ∃ e s', Import.Step cfg Database.commit s e s') ∧ ¬ s.Refused cfg) →
      ∀ i < cfg.way_threads, ((acts (.way i) log).filterMap Act.arrival).length = 1) ∧
    ∀ i act s', Import.Step cfg Database.commit s (.thread (.way i) act) s' → act.looksUp = true →
      WaysCommitted cfg file log s.shared := by
  refine ⟨fun i => ?_, fun hend i hi => ?_, fun i act s' => waysCommitted hphase h⟩
  · rcases WayThread.arrivals (trace_fresh hphase h i) with ⟨hnil, -⟩ | ⟨hone, -⟩
    · rw [hnil]
      exact Nat.zero_le 1
    · exact hone.le
  · have hscript : s.script = [] := by
      rcases hend with hend | ⟨hstuck, hrefused⟩
      · exact hend
      · by_contra hne
        exact (progress h (sensible_fresh hphase) hne).elim hstuck hrefused
    rcases WayThread.arrivals (trace_fresh hphase h i) with ⟨-, hbefore⟩ | ⟨hone, -⟩
    · have hjoin : .joinWays ∈ produced log := by
        rw [← List.append_nil (produced log), ← hscript, produced_script h, OrderedFile.script,
          Producer.run, Producer.actions, show Producer.seekPosition .nodes _ = 0 from rfl,
          file.complete, if_pos rfl]
        simp [Producer.finish]
      simp [WayThread.status, ((ended_of_joined h).2 hjoin i hi).1] at hbefore
    · exact hone

theorem relations_see_ways_small :
    ∃ log s, Trace (Import.Step smallConfig Database.commit)
        (Import.start smallConfig noStore blankDb (smallFile.script smallConfig)) log s ∧
      s.script = [] ∧ ∀ i < 2, ((acts (.way i) log).filterMap Act.arrival).length = 1 := by
  have hstart : Trace (Import.Step smallConfig Database.commit)
    (Import.start smallConfig noStore blankDb (smallFile.script smallConfig)) [] _ := .nil
  obtain ⟨log, s, h, hend⟩ := Import.finishes (sensible_script smallConfig smallFile) small_hasRoom hstart
  exact ⟨log, s, h, hend, (relations_see_ways rfl h).2.1 (.inl hend)⟩

end OsmImport
