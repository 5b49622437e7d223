import OsmImport.Import.Proofs.RelationPhase

/-!
# The end of the way phase

When the phase of `way_barrier` ends, every way thread waits there with empty buffers. What it has
inserted so far are ways and areas of ways (`Building`), and the relations that it has taken are the one
that it waits with. So the relation phase of a fresh import begins there (`relationPhase`).
-/

namespace OsmImport

open NavDB

/-- On the way to the barrier, or waiting there. -/
def WayPc.atBarrier : WayPc → Bool
  | .finalizingWays _ | .arriving _ | .waiting _ _ => true
  | _ => false

namespace WayThread

variable {cfg : Config} {t₀ t : WayThread} {nav : NavDB} {flag : Bool} {acts : List Act}

theorem flag_of_atBarrier (h : Trace (Step cfg) ⟨.pop, nav, [], flag⟩ acts t)
    (hb : t.pc.atBarrier = true) : t.way_phase_done = false := by
  refine h.invariant (I := fun _ t => t.pc.atBarrier = true → t.way_phase_done = false)
    (by simp [WayPc.atBarrier]) ?_ hb
  intro _ t act t' _ ih hs hb
  have hbegin : ∀ r, (begin r).atBarrier = false := by
    intro r
    unfold begin
    split <;> rfl
  cases hs with
  | commit _ => exact ih hb
  | take entry _ _ =>
    cases entry with
    | node n => cases hb
    | way w =>
      simp only [dispatch] at hb
      split at hb <;> cases hb
    | relation r =>
      simp only [dispatch] at hb
      split at hb
      · rw [hbegin] at hb
        cases hb
      · rename_i hflag
        exact Bool.not_eq_true _ ▸ hflag
  | drained _ _ =>
    dsimp only at hb ⊢
    split at hb
    · cases hb
    · rename_i hflag
      exact Bool.not_eq_true _ ▸ hflag
  | finalizeWays _ hpc => exact ih (by rw [hpc]; rfl)
  | arrive _ _ hpc => exact ih (by rw [hpc]; rfl)
  | wakeRelation _ _ => exact absurd hb (by simp [hbegin])
  | _ => cases hb

/-- Before it works on relations, a thread inserts ways and areas of ways, and takes one relation at
most, with which it goes to the barrier. -/
structure Building (acts : List Act) (t : WayThread) : Prop where
  taken : (acts.filterMap Act.taken).filterMap OSMEntry.asRelation = t.pc.pending
  looks : looksUp t.pc = false
  calls : ∀ c ∈ t.pc.calls, c.kind = .way ∨ c.kind = .area
  ways : ∀ entry c calls, t.pc = .inserting entry (c :: calls) → ∃ w, entry = .way w
  inserted : ∀ c ∈ acts.filterMap Act.inserted, c.kind = .way ∨ c.kind = .area
  insertedWay : acts.filterMap Act.inserted = acts.filterMap Act.insertedWay

/-- A step that takes no entry and makes no insert. -/
theorem Building.quiet {act : Act} {t' : WayThread} (h : Building acts t) (ht : act.taken = none)
    (hi : act.inserted = none) (hw : act.insertedWay = none) (hp : t'.pc.pending = t.pc.pending)
    (hl : looksUp t'.pc = false) (hc : ∀ c ∈ t'.pc.calls, c.kind = .way ∨ c.kind = .area)
    (he : ∀ entry c calls, t'.pc = .inserting entry (c :: calls) → ∃ w, entry = .way w) :
    Building (acts ++ [act]) t' := by
  refine ⟨?_, hl, hc, he, ?_, ?_⟩
  · rw [List.filterMap_append, List.filterMap_cons_none ht, List.filterMap_nil, List.append_nil,
      h.taken, hp]
  · rw [List.filterMap_append, List.filterMap_cons_none hi, List.filterMap_nil, List.append_nil]
    exact h.inserted
  · rw [List.filterMap_append, List.filterMap_append, List.filterMap_cons_none hi,
      List.filterMap_cons_none hw, h.insertedWay]
    rfl

/-- Such a step to a place without calls. -/
theorem Building.idle {act : Act} {t' : WayThread} (h : Building acts t) (ht : act.taken = none)
    (hi : act.inserted = none) (hw : act.insertedWay = none) (hp : t'.pc.pending = t.pc.pending)
    (hl : looksUp t'.pc = false) (hc : t'.pc.calls = []) : Building (acts ++ [act]) t' := by
  refine h.quiet ht hi hw hp hl (by rw [hc]; nofun) fun entry c calls hpc => ?_
  rw [hpc] at hc
  cases hc

/-- What a thread in the way phase does with an entry. -/
theorem dispatch_building (cfg : Config) (entry : OSMEntry) {flag : Bool} (hflag : flag = false) :
    (dispatch cfg flag entry).pending = [entry].filterMap OSMEntry.asRelation ∧
      looksUp (dispatch cfg flag entry) = false := by
  subst hflag
  cases entry with
  | node n => exact ⟨rfl, rfl⟩
  | way w =>
    simp only [dispatch]
    split <;> exact ⟨rfl, rfl⟩
  | relation r => exact ⟨rfl, rfl⟩

theorem building (h : Trace (Step cfg) ⟨.pop, nav, [], false⟩ acts t) (hflag : t.way_phase_done = false) :
    Building acts t := by
  induction h with
  | nil => exact ⟨rfl, rfl, nofun, nofun, nofun, rfl⟩
  | @snoc acts t t' act h hs ih =>
    cases hs with
    | commit _ =>
      have hb := ih hflag
      exact hb.quiet rfl rfl rfl rfl hb.looks hb.calls hb.ways
    | take entry _ hpc =>
      obtain ⟨htaken, -, -, -, hinserted, hways⟩ := ih hflag
      rw [hpc] at htaken
      obtain ⟨hp, hl⟩ := dispatch_building cfg entry hflag
      have hc := calls_dispatch cfg t.way_phase_done entry
      refine ⟨?_, hl, fun c hmem => ?_, fun e c calls he => ?_, ?_, ?_⟩
      · rw [List.filterMap_append, List.filterMap_append, htaken]
        exact hp.symm
      · replace hmem : c ∈ (dispatch cfg t.way_phase_done entry).calls := hmem
        rw [hc] at hmem
        cases hmem
      · rw [show dispatch cfg t.way_phase_done entry = .inserting e (c :: calls) from he] at hc
        cases hc
      · simpa [Act.inserted] using hinserted
      · rw [List.filterMap_append, List.filterMap_append, hways]
        rfl
    | drained _ hpc =>
      have hnext : (if t.way_phase_done then WayPc.finalizingRelations else .finalizingWays none) =
          .finalizingWays none := by
        rw [show t.way_phase_done = false from hflag]
        rfl
      refine (ih hflag).idle rfl rfl rfl ?_ ?_ ?_ <;> dsimp only
      · rw [hnext, hpc]
        rfl
      · rw [hnext]
        rfl
      · rw [hnext]
        rfl
    | select _ _ hpc => exact (ih hflag).idle rfl rfl rfl (by rw [hpc]; rfl) rfl rfl
    | @located w coords _ hpc =>
      refine (ih hflag).quiet rfl rfl rfl (by rw [hpc]; rfl) rfl (fun c hc => kind_wayCalls hc)
        fun entry c calls he => ⟨w, ?_⟩
      exact (WayPc.inserting.inj he).1.symm
    | getWay _ _ hpc =>
      have hl := (ih hflag).looks
      rw [hpc] at hl
      cases hl
    | collected _ hpc =>
      have hl := (ih hflag).looks
      rw [hpc] at hl
      cases hl
    | getWayCoordsMap _ _ hpc =>
      have hl := (ih hflag).looks
      rw [hpc] at hl
      cases hl
    | @insert entry c calls _ hpc =>
      obtain ⟨htaken, -, hcalls, hentry, hinserted, hways⟩ := ih hflag
      obtain ⟨w, rfl⟩ := hentry _ _ _ hpc
      rw [hpc] at htaken hcalls
      obtain ⟨hc, hrest⟩ := List.forall_mem_cons.mp hcalls
      refine ⟨?_, rfl, hrest, ?_, ?_, ?_⟩
      · rw [List.filterMap_append, List.filterMap_cons_none rfl, List.filterMap_nil, List.append_nil]
        exact htaken
      · rintro _ _ _ ⟨⟩
        exact ⟨w, rfl⟩
      · rw [List.filterMap_append]
        exact List.forall_mem_append.mpr ⟨hinserted, by simpa [Act.inserted] using hc⟩
      · rw [List.filterMap_append, List.filterMap_append, hways]
        rfl
    | inserted _ hpc => exact (ih hflag).idle rfl rfl rfl (by rw [hpc]; rfl) rfl rfl
    | finalizeWays _ hpc => exact (ih hflag).idle rfl rfl rfl (by rw [hpc]; rfl) rfl rfl
    | arrive _ _ hpc => exact (ih hflag).idle rfl rfl rfl (by rw [hpc]; rfl) rfl rfl
    | wakeRelation _ _ => cases hflag
    | wakeDrained _ hpc => exact (ih hflag).idle rfl rfl rfl (by rw [hpc]; rfl) rfl rfl
    | finalizeRelations _ hpc => exact (ih hflag).idle rfl rfl rfl (by rw [hpc]; rfl) rfl rfl
    | destroy _ hpc => exact (ih hflag).idle rfl rfl rfl (by rw [hpc]; rfl) rfl rfl

/-- A thread waits with nothing to send, and its ways and areas are flushed. -/
theorem quiet_of_waiting (hnav : ∀ k, nav.buf k = []) (h : Trace (Step cfg) ⟨.pop, nav, [], false⟩ acts t)
    (hfirst : WaysFirst (acts.filterMap Act.taken)) {phase : ℕ} {r : Option RelationEntry}
    (hpc : t.pc = .waiting phase r) : t.outbox = [] ∧ t.nav.buf .way = [] ∧ t.nav.buf .area = [] := by
  induction h with
  | nil => cases hpc
  | @snoc acts t t' act h hs ih =>
    rw [List.filterMap_append] at hfirst
    replace hfirst : WaysFirst (acts.filterMap Act.taken) := (List.pairwise_append.mp hfirst).1
    cases hs with
    | commit ho =>
      have hout := (ih hfirst hpc).1
      rw [ho] at hout
      cases hout
    | take entry _ _ =>
      have hnew := (WayPc.dispatch_facts cfg t.way_phase_done entry).1
      rw [show dispatch cfg t.way_phase_done entry = .waiting phase r from hpc] at hnew
      cases entry with
      | node n => cases r <;> cases hnew
      | way w => cases r <;> cases hnew
      | relation q =>
        simp only [dispatch, begin] at hpc
        split at hpc
        · split at hpc <;> cases hpc
        · cases hpc
    | drained _ _ =>
      dsimp only at hpc
      split at hpc <;> cases hpc
    | arrive _ ho harriving => exact ⟨ho, (settled hnav h hfirst).arriving _ harriving⟩
    | wakeRelation _ _ =>
      replace hpc : begin _ = .waiting phase r := hpc
      unfold begin at hpc
      split at hpc <;> cases hpc
    | _ => cases hpc

/-- The relation phase begins when a thread wakes up. -/
theorem atRelations_of_waiting {i : ℕ} (h : Trace (Step cfg) ⟨.pop, NavDB.fresh i, [], false⟩ acts t)
    (hfirst : WaysFirst (acts.filterMap Act.taken)) {phase : ℕ} {r : Option RelationEntry}
    (hpc : t.pc = .waiting phase r) : t.AtRelations := by
  obtain ⟨hout, hway, harea⟩ := quiet_of_waiting (fun _ => rfl) h hfirst hpc
  have hbuilding := building h (flag_of_atBarrier h (by rw [hpc]; rfl))
  refine ⟨.inr ⟨phase, r, hpc⟩, hout, fun k => ?_, ?_⟩
  · by_cases hk : k = .way ∨ k = .area
    · rcases hk with rfl | rfl
      · exact hway
      · exact harea
    · have hrows := conserved (rowAccount k) inserting_fresh h
      have hnone : rowsOf k (acts.filterMap Act.inserted) = [] := by
        rw [rowsOf, List.map_eq_nil_iff, List.filter_eq_nil_iff]
        intro c hc hck
        rw [decide_eq_true_eq] at hck
        exact hk (hck ▸ hbuilding.inserted c hc)
      rw [gains_rowAccount, hnone] at hrows
      exact (List.append_eq_nil_iff.mp (List.append_eq_nil_iff.mp hrows).2).2
  · exact coupled inserting_fresh (fun _ => rfl) h harea

/-- A thread that has left its loop takes nothing more. -/
theorem left (hl : t₀.pc.leftLoop = true) (h : Trace (Step cfg) t₀ acts t) :
    t.pc.leftLoop = true ∧ ∀ entry, .take entry ∉ acts := by
  induction h with
  | nil => exact ⟨hl, fun _ => List.not_mem_nil⟩
  | @snoc acts t t' act h hs ih =>
    obtain ⟨hleft, hnone⟩ := ih
    have hquiet : t'.pc.leftLoop = true → (∀ entry, act ≠ .take entry) →
        t'.pc.leftLoop = true ∧ ∀ entry, .take entry ∉ acts ++ [act] := by
      intro hl' hact
      refine ⟨hl', fun entry hmem => ?_⟩
      rcases List.mem_append.mp hmem with hmem | hmem
      · exact hnone entry hmem
      · exact hact entry (List.mem_singleton.mp hmem).symm
    cases hs with
    | commit _ => exact hquiet hleft nofun
    | @finalizeWays r _ hpc =>
      rw [hpc] at hleft
      cases r with
      | none => exact hquiet rfl nofun
      | some r => cases hleft
    | @arrive r _ _ hpc =>
      rw [hpc] at hleft
      cases r with
      | none => exact hquiet rfl nofun
      | some r => cases hleft
    | wakeDrained _ _ => exact hquiet rfl nofun
    | finalizeRelations _ _ => exact hquiet rfl nofun
    | destroy _ _ => exact hquiet rfl nofun
    | take _ _ hpc => simp [hpc, WayPc.leftLoop] at hleft
    | drained _ hpc => simp [hpc, WayPc.leftLoop] at hleft
    | select _ _ hpc => simp [hpc, WayPc.leftLoop] at hleft
    | located _ hpc => simp [hpc, WayPc.leftLoop] at hleft
    | getWay _ _ hpc => simp [hpc, WayPc.leftLoop] at hleft
    | collected _ hpc => simp [hpc, WayPc.leftLoop] at hleft
    | getWayCoordsMap _ _ hpc => simp [hpc, WayPc.leftLoop] at hleft
    | insert _ hpc => simp [hpc, WayPc.leftLoop] at hleft
    | inserted _ hpc => simp [hpc, WayPc.leftLoop] at hleft
    | wakeRelation _ hpc => simp [hpc, WayPc.leftLoop] at hleft

theorem pc_of_waiting {phase : ℕ} (h : t.status = .waiting phase) : ∃ r, t.pc = .waiting phase r := by
  obtain ⟨pc, nav, out, flag⟩ := t
  cases pc with
  | waiting p r =>
    cases h
    exact ⟨r, rfl⟩
  | _ => cases flag <;> cases h

end WayThread

/-- Only the end of a phase is the end of a phase. -/
theorem mem_released {cfg : Config} {offer : Database → List Statement → Database} {osmmap : OSMMMap}
    {db : Database} {script : List Action} {log : List ImportEvent} {s : Import}
    (h : Trace (Import.Step cfg offer) (Import.start cfg osmmap db script) log s)
    (hphase : s.shared.way_barrier.phase ≠ 0) : .waysReleased ∈ log := by
  induction h with
  | nil => exact absurd rfl hphase
  | snoc _ hstep ih =>
    have hthread : ∀ {who : Who} {act : Act} {sh sh' : Shared}, Effect cfg offer who sh sh' act →
        sh'.way_barrier.phase = sh.way_barrier.phase := by
      intro who act sh sh' he
      rcases he.barriers with hb | ⟨-, -, rfl⟩
      · rw [hb.way_barrier]
      · cases who <;> rfl
    cases hstep with
    | producer _ hp =>
      rw [hp.barriers.way_barrier] at hphase
      exact List.mem_append_left _ (ih hphase)
    | node _ _ he => exact List.mem_append_left _ (ih (hthread he ▸ hphase))
    | way _ _ he => exact List.mem_append_left _ (ih (hthread he ▸ hphase))
    | mergeStart _ _ => exact List.mem_append_left _ (ih hphase)
    | mergeFinish _ => exact List.mem_append_left _ (ih hphase)
    | release _ => exact List.mem_append_right _ (List.mem_singleton.mpr rfl)

theorem asRelation_filter (l : List OSMEntry) :
    (l.filter (actsOn false)).filterMap OSMEntry.asRelation = l.filterMap OSMEntry.asRelation := by
  rw [List.filterMap_filter]
  apply List.filterMap_congr
  intro e _
  cases e <;> rfl

theorem joinWays_mem {N : ℕ} {phase : Resume} {read : List (ℕ × List OSMEntry) × OSMReader.Ending}
    (h : read.2 = .eof) : .joinWays ∈ Producer.actions N phase read := by
  simp [Producer.actions, h, Producer.finish]

namespace Builds

variable {offer : Database → List Statement → Database} {cfg : Config} {ways : List WayEntry}
  {relations : List RelationEntry} {osmmap : OSMMMap} {db : Database} {script : List Action}
  {before log : List ImportEvent} {released s : Import}

theorem mem_relations (h : Builds cfg offer ways relations osmmap db script log s) {i : ℕ}
    {r : RelationEntry} (hr : .take (.relation r) ∈ acts (.way i) log) : r ∈ relations := by
  have hpopped : .relation r ∈
      ((log.filterMap ImportEvent.takenByWay).map Prod.snd).filter (actsOn false) :=
    List.mem_filter.mpr
      ⟨List.mem_map.mpr ⟨(i, _), List.mem_filterMap.mpr ⟨_, mem_acts.mp hr, rfl⟩, rfl⟩, rfl⟩
  rcases List.mem_append.mp (h.taken_initial.subset hpopped) with hmem | hmem
  · obtain ⟨w, -, hw⟩ := List.mem_map.mp hmem
    cases hw
  · obtain ⟨q, hq, hqr⟩ := List.mem_map.mp hmem
    cases hqr
    exact hq

/-- At its end, all ways and relations are taken. -/
theorem taken_all (h : Builds cfg offer ways relations osmmap db script log s)
    (hjoin : .joinWays ∈ script) (hend : s.script = []) :
    ((List.range cfg.way_threads).flatMap fun i => (takenBy (.way i) log).filter (actsOn false)).Perm
      (ways.map .way ++ relations.map .relation) := by
  have hproduced : produced log = script := by
    rw [← produced_script h.run, hend, List.append_nil]
  have hleft : (s.way 0).pc.leftLoop = true := by
    rw [((ended_of_joined h.run).2 (hproduced ▸ hjoin) 0 cfg.way_threads_pos).1]
    rfl
  have htaken := (taken_ways h.run h.sensible ((WayThread.placed (trace_way h.run 0)).leftLoop hleft)).filter
    (actsOn false)
  rw [hproduced, List.filter_flatMap] at htaken
  refine htaken.trans (List.Perm.of_eq ?_)
  rw [← h.handed, actedOn, decide_eq_false h.phase]

variable (h₀ : Builds cfg offer ways relations osmmap db script (before ++ [.waysReleased]) released)
include h₀

theorem waiting_released {i : ℕ} (hi : i < cfg.way_threads) :
    ∃ r, (released.way i).pc = .waiting 0 r := by
  obtain ⟨s, hs, hstep⟩ := h₀.run.last
  cases hstep with
  | release harrived =>
    have hone := way_oneShot h₀.phase hs
    exact WayThread.pc_of_waiting ((hone.all_waiting cfg.way_threads_pos harrived).2 i hi)

theorem atRelations_released : released.AtRelations cfg := by
  refine ⟨fun i => ?_, fun i hi => ?_⟩
  · exact (NodeThread.onlyNodes (NodeThread.onlyNodes_fresh i) (trace_node h₀.run i)).1
  · obtain ⟨r, hpc⟩ := h₀.waiting_released hi
    exact WayThread.atRelations_of_waiting (h₀.trace_thread i) (h₀.waysFirst_taken i) hpc

theorem building_released {i : ℕ} (hi : i < cfg.way_threads) :
    WayThread.Building (acts (.way i) (before ++ [.waysReleased])) (released.way i) := by
  obtain ⟨r, hpc⟩ := h₀.waiting_released hi
  have htrace := h₀.trace_thread i
  exact WayThread.building htrace (WayThread.flag_of_atBarrier htrace (by rw [hpc]; rfl))

variable (h : Trace (Import.Step cfg offer) released log s)
include h

/-- Behind the barrier no way is taken. -/
theorem not_way_released {i : ℕ} (hi : i < cfg.way_threads) (w : WayEntry) :
    .take (.way w) ∉ acts (.way i) log := by
  intro hmem
  obtain ⟨r, hpc⟩ := h₀.waiting_released hi
  cases r with
  | none => exact (WayThread.left (by rw [hpc]; rfl) (way_steps h i)).2 _ hmem
  | some r =>
    have hr : .relation r ∈ takenBy (.way i) (before ++ [.waysReleased]) := by
      have hplaced := WayThread.placed (h₀.trace_thread i)
      refine List.mem_filterMap.mpr ⟨_, hplaced.inHand (.relation r) ?_, rfl⟩
      rw [hpc]
      exact List.mem_singleton.mpr rfl
    have hfirst := (h₀.goOn h).waysFirst_taken i
    rw [takenBy, acts_append, List.filterMap_append] at hfirst
    have hw : .way w ∈ takenBy (.way i) log := List.mem_filterMap.mpr ⟨_, hmem, rfl⟩
    cases (List.pairwise_append.mp hfirst).2.2 _ hr _ hw rfl

/-- The relation phase. -/
theorem relationPhase (hrelations : Unambiguous relations) (hties : cfg.KeepsTies) :
    RelationPhase cfg offer relations released log s where
  start := h₀.atRelations_released
  run := h
  unambiguous := hrelations
  ties := hties
  hand := by
    intro i hi r hr
    have hplaced := WayThread.placed (h₀.trace_thread i)
    exact h₀.mem_relations (hplaced.inHand _ hr)
  skip := fun i hi w hw => absurd hw (h₀.not_way_released h hi w)
  taken := by
    intro i hi r hr
    refine (h₀.goOn h).mem_relations (i := i) ?_
    rw [acts_append]
    exact List.mem_append_right _ hr

/-- What a thread inserts in the way phase is built from the ways that it takes. -/
theorem inserted_released {i : ℕ} (hi : i < cfg.way_threads) :
    (acts (.way i) (before ++ [.waysReleased])).filterMap Act.inserted =
      (waysTakenBy i (before ++ [.waysReleased])).flatMap fun w =>
        WayThread.wayCalls cfg w (w.node_refs.filterMap s.shared.osmmap.select) := by
  obtain ⟨r, hpc⟩ := h₀.waiting_released hi
  have hselect : ∀ id p, .select id p ∈ acts (.way i) (before ++ [.waysReleased]) →
      p = s.shared.osmmap.select id := by
    intro id p hmem
    refine (h₀.goOn h).select_agrees (i := i) ?_
    rw [acts_append]
    exact List.mem_append_left _ hmem
  have hbuilt := WayThread.built h₀.phase hselect (h₀.trace_thread i)
  rw [hpc] at hbuilt
  rw [(h₀.building_released hi).insertedWay]
  exact (hbuilt.trans (List.append_nil _)).symm

variable (hjoin : .joinWays ∈ script) (hend : s.script = [])
include hjoin hend

/-- The relations that the threads work on are all there are. -/
theorem workedOn_released :
    ((List.range cfg.way_threads).flatMap (workedOn released log)).Perm relations := by
  have htaken := ((h₀.goOn h).taken_all hjoin hend).filterMap OSMEntry.asRelation
  have hrelations : (ways.map OSMEntry.way ++ relations.map OSMEntry.relation).filterMap
      OSMEntry.asRelation = relations := by
    rw [List.filterMap_append, List.filterMap_map, List.filterMap_map]
    have hnone : ways.filterMap (OSMEntry.asRelation ∘ OSMEntry.way) = [] :=
      List.filterMap_eq_nil_iff.mpr fun _ _ => rfl
    rw [hnone]
    exact List.filterMap_some
  rw [hrelations, List.filterMap_flatMap] at htaken
  refine List.Perm.trans (List.Perm.of_eq (List.flatMap_congr fun i hi => ?_)) htaken
  have hbuilding := h₀.building_released (List.mem_range.mp hi)
  rw [asRelation_filter, workedOn, ← hbuilding.taken, takenBy, takenBy,
    acts_append (.way i) (before ++ _) log, List.filterMap_append, List.filterMap_append]

/-- All ways are taken by then. -/
theorem waysTaken_released : ((List.range cfg.way_threads).flatMap fun i =>
    waysTakenBy i (before ++ [.waysReleased])).Perm ways := by
  have htaken := ((h₀.goOn h).taken_all hjoin hend).filterMap OSMEntry.asWay
  have hways : (ways.map OSMEntry.way ++ relations.map OSMEntry.relation).filterMap
      OSMEntry.asWay = ways := by
    rw [List.filterMap_append, List.filterMap_map, List.filterMap_map]
    have hnone : relations.filterMap (OSMEntry.asWay ∘ OSMEntry.relation) = [] :=
      List.filterMap_eq_nil_iff.mpr fun _ _ => rfl
    rw [hnone, List.append_nil]
    exact List.filterMap_some
  rw [hways, List.filterMap_flatMap] at htaken
  refine List.Perm.trans (List.Perm.of_eq (List.flatMap_congr fun i hi => ?_)) htaken
  have hnone : (takenBy (.way i) log).filterMap OSMEntry.asWay = [] := by
    rw [List.filterMap_eq_nil_iff]
    intro e he
    cases e with
    | way w =>
      obtain ⟨act, hact, hw⟩ := List.mem_filterMap.mp he
      cases act <;> cases hw
      exact absurd hact (h₀.not_way_released h (List.mem_range.mp hi) w)
    | _ => rfl
  have hsplit : takenBy (.way i) (before ++ [ImportEvent.waysReleased] ++ log) =
      takenBy (.way i) (before ++ [.waysReleased]) ++ takenBy (.way i) log := by
    rw [takenBy, acts_append (.way i) (before ++ _) log, List.filterMap_append]
    rfl
  rw [asWay_filter, waysTakenBy, hsplit, List.filterMap_append, hnone, List.append_nil]

/-- When the way phase ends, what its ways bring to an account is committed, and nothing else. -/
theorem committed_ways {α : Type} (a : KeptAccount α)
    (hnode : ∀ i, WayThread.takesOut a (acts (.node i) (before ++ [.waysReleased])) = [])
    (hnone : ∀ i < cfg.way_threads, WayThread.underway a (released.way i) = [])
    (hfresh : ∀ i, a.held (NavDB.fresh i) = []) :
    (((before ++ [ImportEvent.waysReleased]).filterMap ImportEvent.committed).flatMap a.sent).Perm
      (ways.flatMap fun w => WayThread.gains a
        (WayThread.wayCalls cfg w (w.node_refs.filterMap s.shared.osmmap.select))) := by
  refine (perm_takesOut a h₀.run hnode).trans ?_
  refine List.Perm.trans (List.Perm.of_eq ?_)
    ((h₀.waysTaken_released h hjoin hend).flatMap_right _)
  rw [List.flatMap_assoc]
  apply List.flatMap_congr
  intro i hi
  have hi := List.mem_range.mp hi
  have hall := WayThread.conserved a WayThread.inserting_fresh (h₀.trace_thread i)
  rw [hnone i hi, List.append_nil, h₀.inserted_released h hi, WayThread.underway,
    List.flatMap_nil, List.nil_append, hfresh, List.nil_append, WayThread.gains,
    List.flatMap_assoc] at hall
  exact hall

/-- When the way phase ends, the rows of all ways are committed, and no others. -/
theorem copied_ways {k : Kind} (hk : k ≠ .node) :
    (copiedRows k ((before ++ [ImportEvent.waysReleased]).filterMap ImportEvent.committed)).Perm
      (ways.flatMap (builtRows cfg s.shared.osmmap.select k)) := by
  have hat := h₀.atRelations_released
  have hrows := h₀.committed_ways h hjoin hend (rowAccount k) ?_ ?_ fun _ => rfl
  · refine hrows.trans (List.Perm.of_eq (List.flatMap_congr fun w _ => ?_))
    exact WayThread.gains_rowAccount k _
  · exact fun i => (NodeThread.onlyNodes (NodeThread.onlyNodes_fresh i) (trace_node h₀.run i)).2.1 k hk
  · intro i hi
    rw [WayThread.underway, (hat.way i hi).outbox]
    exact (hat.way i hi).buf k

end Builds

section

variable {fmt : Formats} {offer : Database → List Statement → Database} {cfg : Config}
  {file : OrderedFile fmt} {osmmap : OSMMMap} {db : Database} {before log : List ImportEvent}
  {released s : Import} (hphase : cfg.resume_phase = .nodes)
  (h₀ : Trace (Import.Step cfg offer) (Import.start cfg osmmap db (file.script cfg))
    (before ++ [.waysReleased]) released) (h : Trace (Import.Step cfg offer) released log s)
include hphase h₀ h

/-- The relation phase of a fresh import. -/
theorem relationPhase (hrelations : Unambiguous file.relations) (hties : cfg.KeepsTies) :
    RelationPhase cfg offer file.relations released log s :=
  (builds_fresh hphase h₀).relationPhase h hrelations hties

/-- The relations that the threads work on are those of the file. -/
theorem workedOn_released (hend : s.script = []) :
    ((List.range cfg.way_threads).flatMap (workedOn released log)).Perm file.relations :=
  (builds_fresh hphase h₀).workedOn_released h (joinWays_mem file.complete) hend

/-- When the way phase ends, the rows of all ways are committed, and no others. -/
theorem copied_ways (hend : s.script = []) {k : Kind} (hk : k ≠ .node) :
    (copiedRows k ((before ++ [ImportEvent.waysReleased]).filterMap ImportEvent.committed)).Perm
      (file.ways.flatMap (builtRows cfg s.shared.osmmap.select k)) :=
  (builds_fresh hphase h₀).copied_ways h (joinWays_mem file.complete) hend hk

end

end OsmImport
