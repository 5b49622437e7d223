import OsmImport.Import.Proofs.WayRows
import OsmImport.Import.Resume

/-!
# A way thread in the relation phase

The phase begins for a thread with empty buffers, at the barrier or, if the ways are skipped, at the queue
(`AtRelations`). From then on it inserts rows for relations only (`Relating`), those that it finds when
it looks up their members (`built_relations`), and when it has ended all of them are committed
(`committed_of_ended`).
-/

namespace OsmImport

open NavDB

/-- The relation in an entry. -/
def OSMEntry.asRelation : OSMEntry → Option RelationEntry
  | .relation r => some r
  | _ => none

/-- An insert for a relation: its row is in `areas` under the negated id, or in another table. -/
def InsertCall.IsFor (c : InsertCall) (r : RelationEntry) : Prop :=
  (c.kind = .area ∧ c.id = -r.id) ∨ ((c.kind = .relation ∨ c.kind = .road) ∧ c.id = r.id)

/-- A lookup finds what `look` says. -/
def Act.Finds (cfg : Config) (look : Int64 → List (Option Str)) : Act → Prop
  | .getWay id geog => geog = (look id).head?.join.getD []
  | .getWayCoordsMap ids points => points = WayThread.memberPoints cfg look ids
  | _ => True

/-- The relation with which a thread waits. -/
def WayPc.pending : WayPc → List RelationEntry
  | .finalizingWays r | .arriving r | .waiting _ r => r.toList
  | _ => []

/-- The calls for the relation in hand. -/
def WayPc.duties (cfg : Config) (look : Int64 → List (Option Str)) : WayPc → List InsertCall
  | .collecting r members geoms =>
    WayThread.relationCalls cfg r (geoms ++ WayThread.memberGeoms look members)
  | .assembling r =>
    WayThread.multipolygonCalls cfg r (WayThread.memberPoints cfg look (r.way_members.map RelationMember.id))
  | .inserting _ calls => calls
  | .finalizingWays r | .arriving r | .waiting _ r => r.toList.flatMap (WayThread.callsFor cfg look)
  | _ => []

namespace WayThread

variable {cfg : Config} {look : Int64 → List (Option Str)} {relations : List RelationEntry}
  {t₀ t t' : WayThread} {acts : List Act}

theorem isFor_multipolygonCalls {r : RelationEntry} {points : Int64 → List Coord} {c : InsertCall}
    (h : c ∈ multipolygonCalls cfg r points) : c.IsFor r :=
  .inl (mem_multipolygonCalls h)

theorem isFor_relationCalls {r : RelationEntry} {geoms : List Str} {c : InsertCall}
    (h : c ∈ relationCalls cfg r geoms) : c.IsFor r :=
  .inr (mem_relationCalls h)

theorem duties_begin (r : RelationEntry) : (begin r).duties cfg look = callsFor cfg look r := by
  unfold begin callsFor
  split <;> rfl

/-- What is to be done for an entry that is taken. -/
theorem duties_dispatch {flag : Bool} {entry : OSMEntry}
    (hskip : ∀ w, entry = .way w → cfg.resume_phase = .relations) :
    (dispatch cfg flag entry).duties cfg look =
      ([entry].filterMap OSMEntry.asRelation).flatMap (callsFor cfg look) := by
  cases entry with
  | node n => rfl
  | way w =>
    have hphase := hskip w rfl
    simp [dispatch, hphase, WayPc.duties, OSMEntry.asRelation]
  | relation r =>
    have hone : ([OSMEntry.relation r].filterMap OSMEntry.asRelation).flatMap (callsFor cfg look) =
      callsFor cfg look r := List.append_nil _
    rw [hone]
    simp only [dispatch]
    split
    · exact duties_begin r
    · exact List.append_nil _

theorem memberGeoms_cons (m : RelationMember) (ms : List RelationMember) :
    memberGeoms look (m :: ms) = (if ((look m.id).head?.join.getD []).isEmpty then []
      else [(look m.id).head?.join.getD []]) ++ memberGeoms look ms := by
  simp only [memberGeoms, List.map_cons, List.filter_cons, Bool.not_eq_true']
  cases ((look m.id).head?.join.getD []).isEmpty <;> rfl

/-- A thread at the beginning of the relation phase. -/
structure AtRelations (t : WayThread) : Prop where
  pc : (t.pc = .pop ∧ t.way_phase_done = true) ∨ ∃ phase r, t.pc = .waiting phase r
  outbox : t.outbox = []
  buf : ∀ k, t.nav.buf k = []
  areaTags : t.nav.tagBuf .area = []

theorem AtRelations.duties (h₀ : t₀.AtRelations) :
    t₀.pc.duties cfg look = t₀.pc.pending.flatMap (callsFor cfg look) := by
  rcases h₀.pc with ⟨hpc, -⟩ | ⟨phase, r, hpc⟩ <;> rw [hpc] <;> rfl

theorem AtRelations.inserting (h₀ : t₀.AtRelations) : t₀.Inserting := by
  refine ⟨fun c hc => ?_, by rw [h₀.outbox]; nofun⟩
  rcases h₀.pc with ⟨hpc, -⟩ | ⟨phase, r, hpc⟩ <;> rw [hpc] at hc <;> cases hc

section

variable (h₀ : t₀.AtRelations) (hskip : ∀ w, .take (.way w) ∈ acts → cfg.resume_phase = .relations)
  (h : Trace (Step cfg) t₀ acts t)
include h₀ hskip h

/-- Ways are not built any more. -/
theorem not_locating (w : WayEntry) (refs : List Int64) (coords : List Coord) :
    t.pc ≠ .locating w refs coords := by
  induction h generalizing w refs coords with
  | nil => rcases h₀.pc with ⟨hpc, -⟩ | ⟨phase, r, hpc⟩ <;> rw [hpc] <;> simp
  | @snoc acts t t' act h hs ih =>
    have ih := ih fun w hw => hskip w (List.mem_append_left _ hw)
    have hbegin : ∀ r, begin r ≠ .locating w refs coords := by
      intro r
      unfold begin
      split <;> simp
    cases hs with
    | commit _ => exact ih w refs coords
    | take entry _ _ =>
      cases entry with
      | node n => simp [dispatch]
      | way w' =>
        have hphase := hskip w' (by simp)
        simp [dispatch, hphase]
      | relation r =>
        simp only [dispatch]
        split
        · exact hbegin r
        · simp
    | drained _ _ =>
      dsimp only
      split <;> simp
    | select _ _ hpc => exact absurd hpc (ih _ _ _)
    | wakeRelation _ _ => exact hbegin _
    | _ => simp [call]

/-- The calls for the relations that were taken are made, or still to be made. -/
theorem built_relations (hfinds : ∀ a ∈ acts, a.Finds cfg look) :
    acts.filterMap Act.inserted ++ t.pc.duties cfg look = t₀.pc.duties cfg look ++
      ((acts.filterMap Act.taken).filterMap OSMEntry.asRelation).flatMap (callsFor cfg look) := by
  induction h with
  | nil => simp
  | @snoc acts t t' act h hs ih =>
    have hskip' : ∀ w, .take (.way w) ∈ acts → cfg.resume_phase = .relations :=
      fun w hw => hskip w (List.mem_append_left _ hw)
    have ih := ih hskip' fun a ha => hfinds a (List.mem_append_left _ ha)
    have hnot := not_locating h₀ hskip' h
    have hact := hfinds act (by simp)
    have hquiet : act.inserted = none → act.taken = none →
        t'.pc.duties cfg look = t.pc.duties cfg look →
          (acts ++ [act]).filterMap Act.inserted ++ t'.pc.duties cfg look = t₀.pc.duties cfg look ++
            (((acts ++ [act]).filterMap Act.taken).filterMap OSMEntry.asRelation).flatMap
              (callsFor cfg look) := by
      intro hi ht hsame
      simp only [List.filterMap_append, List.filterMap_cons_none hi, List.filterMap_cons_none ht,
        List.filterMap_nil, List.append_nil, hsame, ih]
    cases hs with
    | commit _ => exact hquiet rfl rfl rfl
    | take entry _ hpc =>
      rw [hpc] at ih
      show (acts ++ [Act.take entry]).filterMap Act.inserted ++
        (dispatch cfg t.way_phase_done entry).duties cfg look = _
      rw [duties_dispatch fun w hw => hskip w (by simp [hw]), List.filterMap_append, List.filterMap_append,
        List.filterMap_append,
        List.flatMap_append, ← List.append_assoc, ← ih]
      simp [Act.inserted, Act.taken, WayPc.duties]
    | drained _ hpc =>
      refine hquiet rfl rfl ?_
      dsimp only
      rw [hpc]
      split <;> rfl
    | select _ _ hpc => exact absurd hpc (hnot _ _ _)
    | located _ hpc => exact absurd hpc (hnot _ _ _)
    | @getWay r m members geoms geog _ hpc =>
      refine hquiet rfl rfl ?_
      obtain rfl : geog = (look m.id).head?.join.getD [] := hact
      rw [hpc]
      show relationCalls cfg r _ = relationCalls cfg r _
      rw [memberGeoms_cons]
      split <;> simp
    | collected _ hpc =>
      refine hquiet rfl rfl ?_
      rw [hpc]
      show relationCalls cfg _ _ = relationCalls cfg _ _
      rw [memberGeoms, List.map_nil, List.filter_nil, List.append_nil]
    | @getWayCoordsMap r points _ hpc =>
      refine hquiet rfl rfl ?_
      obtain rfl : points = memberPoints cfg look (r.way_members.map RelationMember.id) := hact
      rw [hpc]
      rfl
    | @insert entry c calls _ hpc =>
      rw [hpc] at ih
      rw [List.filterMap_append, List.filterMap_append,
        List.filterMap_cons_none (show (Act.insert entry c).taken = none from rfl), List.filterMap_nil,
        List.append_nil, ← ih, List.append_assoc]
      rfl
    | inserted _ hpc => exact hquiet rfl rfl (by rw [hpc]; rfl)
    | finalizeWays _ hpc => exact hquiet rfl rfl (by rw [hpc]; rfl)
    | arrive _ _ hpc => exact hquiet rfl rfl (by rw [hpc]; rfl)
    | wakeRelation _ hpc =>
      refine hquiet rfl rfl ?_
      rw [hpc]
      exact (duties_begin _).trans (List.append_nil _).symm
    | wakeDrained _ hpc => exact hquiet rfl rfl (by rw [hpc]; rfl)
    | finalizeRelations _ hpc => exact hquiet rfl rfl (by rw [hpc]; rfl)
    | destroy _ hpc => exact hquiet rfl rfl (by rw [hpc]; rfl)

end

/-- What a thread of the relation phase works on. -/
structure Relating (relations : List RelationEntry) (acts : List Act) (t : WayThread) : Prop where
  hand : ∀ r, .relation r ∈ t.pc.inHand → r ∈ relations
  members : ∀ r ms geoms, t.pc = .collecting r ms geoms → ms ⊆ r.way_members
  calls : ∀ c ∈ t.pc.calls, ∃ r ∈ relations, c.IsFor r
  inserted : ∀ c ∈ acts.filterMap Act.inserted, ∃ r ∈ relations, c.IsFor r

theorem Relating.inserted_snoc {act : Act} (h : Relating relations acts t) (hi : act.inserted = none) :
    ∀ c ∈ (acts ++ [act]).filterMap Act.inserted, ∃ r ∈ relations, c.IsFor r := by
  rw [List.filterMap_append, List.filterMap_cons_none hi, List.filterMap_nil, List.append_nil]
  exact h.inserted

/-- A step that takes no relation and makes no insert. -/
theorem Relating.quiet {act : Act} {t' : WayThread} (h : Relating relations acts t)
    (hi : act.inserted = none) (hh : ∀ r, .relation r ∈ t'.pc.inHand → .relation r ∈ t.pc.inHand)
    (hm : ∀ r ms geoms, t'.pc = .collecting r ms geoms → ms ⊆ r.way_members)
    (hc : ∀ c ∈ t'.pc.calls, ∃ r ∈ relations, c.IsFor r) : Relating relations (acts ++ [act]) t' :=
  ⟨fun r hr => h.hand r (hh r hr), hm, hc, h.inserted_snoc hi⟩

/-- The work on a relation begins. -/
theorem Relating.begun {act : Act} {r : RelationEntry} {nav : NavDB} {out : List (List Statement)}
    {flag : Bool} (h : Relating relations acts t) (hi : act.inserted = none) (hr : r ∈ relations) :
    Relating relations (acts ++ [act]) ⟨begin r, nav, out, flag⟩ := by
  refine ⟨fun q hq => ?_, fun q ms geoms hpc => ?_, fun c hc => ?_, h.inserted_snoc hi⟩
  · rw [WayPc.inHand_begin] at hq
    cases List.mem_singleton.mp hq
    exact hr
  · unfold begin at hpc
    split at hpc
    · cases hpc
    · cases hpc
      exact fun m hm => hm
  · unfold begin at hc
    split at hc <;> cases hc

theorem relating (h₀ : t₀.AtRelations) (hskip : ∀ w, .take (.way w) ∈ acts → cfg.resume_phase = .relations)
    (h : Trace (Step cfg) t₀ acts t) (hhand₀ : ∀ r, .relation r ∈ t₀.pc.inHand → r ∈ relations)
    (htaken : ∀ r, .take (.relation r) ∈ acts → r ∈ relations) : Relating relations acts t := by
  induction h with
  | nil =>
    refine ⟨hhand₀, ?_, ?_, by simp⟩
    · rcases h₀.pc with ⟨hpc, -⟩ | ⟨phase, r, hpc⟩ <;> rw [hpc] <;> simp
    · rcases h₀.pc with ⟨hpc, -⟩ | ⟨phase, r, hpc⟩ <;> rw [hpc] <;> simp [WayPc.calls]
  | @snoc acts t t' act h hs ih =>
    have hskip' : ∀ w, .take (.way w) ∈ acts → cfg.resume_phase = .relations :=
      fun w hw => hskip w (List.mem_append_left _ hw)
    have ih := ih hskip' fun r hr => htaken r (List.mem_append_left _ hr)
    have hnot := not_locating h₀ hskip' h
    cases hs with
    | commit _ => exact ih.quiet rfl (fun _ => id) ih.members ih.calls
    | take entry _ _ =>
      cases entry with
      | node n =>
        exact ⟨by simp [dispatch, WayPc.inHand], by simp [dispatch], by simp [dispatch, WayPc.calls],
          ih.inserted_snoc rfl⟩
      | way w =>
        have hphase := hskip w (by simp)
        rw [dispatch, if_pos hphase]
        exact ⟨by simp [WayPc.inHand], by simp, by simp [WayPc.calls],
          ih.inserted_snoc rfl⟩
      | relation r =>
        have hr := htaken r (by simp)
        rw [dispatch]
        split
        · exact ih.begun rfl hr
        · exact ⟨by simpa [WayPc.inHand] using hr, by simp, by simp [WayPc.calls],
            ih.inserted_snoc rfl⟩
    | drained _ hpc =>
      refine ih.quiet rfl ?_ ?_ ?_ <;> dsimp only <;> split <;> simp [WayPc.inHand, WayPc.calls]
    | select _ _ hpc => exact absurd hpc (hnot _ _ _)
    | located _ hpc => exact absurd hpc (hnot _ _ _)
    | @getWay r m members geoms geog _ hpc =>
      refine ih.quiet rfl (by simp [hpc, WayPc.inHand]) ?_ (by simp [WayPc.calls])
      rintro _ _ _ ⟨rfl, rfl, rfl⟩
      exact fun q hq => ih.members _ _ _ hpc (List.mem_cons_of_mem m hq)
    | @collected r geoms _ hpc =>
      refine ih.quiet rfl (by simp [hpc, WayPc.inHand]) (by simp) fun c hc => ⟨r, ?_, isFor_relationCalls hc⟩
      exact ih.hand r (by simp [hpc, WayPc.inHand])
    | @getWayCoordsMap r points _ hpc =>
      refine ih.quiet rfl (by simp [hpc, WayPc.inHand]) (by simp) fun c hc => ⟨r, ?_, isFor_multipolygonCalls hc⟩
      exact ih.hand r (by simp [hpc, WayPc.inHand])
    | @insert entry c calls _ hpc =>
      have hcalls := ih.calls
      rw [hpc] at hcalls
      obtain ⟨hc, hrest⟩ := List.forall_mem_cons.mp hcalls
      refine ⟨fun r hr => ih.hand r (by rw [hpc]; exact hr), by simp [call], hrest, ?_⟩
      rw [List.filterMap_append]
      exact List.forall_mem_append.mpr ⟨ih.inserted, by simpa [Act.inserted] using hc⟩
    | inserted _ _ =>
      exact ih.quiet rfl (by simp [call, WayPc.inHand]) (by simp [call]) (by simp [call, WayPc.calls])
    | finalizeWays _ hpc =>
      exact ih.quiet rfl (by simp [hpc, WayPc.inHand, call]) (by simp [call]) (by simp [call, WayPc.calls])
    | arrive _ _ hpc => exact ih.quiet rfl (by simp [hpc, WayPc.inHand]) (by simp) (by simp [WayPc.calls])
    | @wakeRelation r phase _ hpc => exact ih.begun rfl (ih.hand r (by simp [hpc, WayPc.inHand]))
    | wakeDrained _ _ => exact ih.quiet rfl (by simp [WayPc.inHand]) (by simp) (by simp [WayPc.calls])
    | finalizeRelations _ _ =>
      exact ih.quiet rfl (by simp [call, WayPc.inHand]) (by simp [call]) (by simp [call, WayPc.calls])
    | destroy _ _ =>
      exact ih.quiet rfl (by simp [call, WayPc.inHand]) (by simp [call]) (by simp [call, WayPc.calls])

/-! ## The end of the thread -/

/-- What has ended has nothing in its buffers. -/
theorem emptied (h₀ : t₀.pc ≠ .done) (h : Trace (Step cfg) t₀ acts t) (hdone : t.pc = .done) (k : Kind) :
    t.nav.buf k = [] := by
  refine h.invariant (I := fun _ t => t.pc = .done → t.nav.buf k = []) (absurd · h₀) ?_ hdone
  intro _ t act t' _ ih hs hdone
  cases hs with
  | commit _ => exact ih hdone
  | take entry _ _ =>
    have hleft := (WayPc.dispatch_facts cfg t.way_phase_done entry).2
    rw [show dispatch cfg t.way_phase_done entry = .done from hdone] at hleft
    cases hleft
  | drained _ _ =>
    dsimp only at hdone
    split at hdone <;> cases hdone
  | wakeRelation _ _ =>
    replace hdone : begin _ = .done := hdone
    unfold begin at hdone
    split at hdone <;> cases hdone
  | destroy _ _ =>
    show (t.nav.perform _).1.buf k = []
    rw [perform_of_run (run_destroy accepting_acceptAll _)]
    exact Session.buf_flushAll _ _ (by cases k <;> decide)
  | _ => cases hdone

theorem coupled (h₀ : t₀.Inserting) (hc : t₀.nav.Coupled) (h : Trace (Step cfg) t₀ acts t) :
    t.nav.Coupled := by
  induction h with
  | nil => exact hc
  | @snoc acts t t' act h hs ih =>
    have hflush : ∀ {code : Exec Unit} {ks : List Kind} {pc : WayPc},
        code.run (Session.alone t.nav) = .done () ((Session.alone t.nav).flushAll ks) →
          (t.call code pc).nav.Coupled := by
      intro code ks pc hrun
      show (t.nav.perform code).1.Coupled
      rw [perform_of_run hrun]
      exact Session.coupled_flushAll ih ks
    cases hs with
    | @insert entry c calls _ hpc =>
      have hkind : c.kind ≠ .node := (inserting h₀ h).calls c (by rw [hpc]; exact List.mem_cons_self)
      show (t.nav.perform _).1.Coupled
      rw [perform_of_run (run_insertCall accepting_acceptAll hkind _)]
      exact Session.coupled_inserted (s := Session.alone t.nav) ih _ _ _
    | inserted _ _ => exact hflush (run_finalize_roads accepting_acceptAll _)
    | finalizeWays _ _ => exact hflush (run_finalize_ways accepting_acceptAll _)
    | finalizeRelations _ _ => exact hflush (run_finalize_relations accepting_acceptAll _)
    | destroy _ _ => exact hflush (run_destroy accepting_acceptAll _)
    | _ => exact ih

/-- When it has ended, what a thread inserted in the relation phase is committed. -/
theorem committed_of_ended (h₀ : t₀.AtRelations) (h : Trace (Step cfg) t₀ acts t) (hend : t.Ended) :
    (∀ k, committedRows k acts = rowsOf k (acts.filterMap Act.inserted)) ∧
      takesOut areaTagAccount acts = gains areaTagAccount (acts.filterMap Act.inserted) := by
  obtain ⟨hdone, hout⟩ := hend
  have hpc₀ : t₀.pc ≠ .done := by
    rcases h₀.pc with ⟨hpc, -⟩ | ⟨phase, r, hpc⟩ <;> rw [hpc] <;> nofun
  have hbuf := emptied hpc₀ h hdone
  have htags := coupled h₀.inserting (fun _ => h₀.areaTags) h (hbuf .area)
  constructor
  · intro k
    have hrows := conserved (rowAccount k) h₀.inserting h
    rw [underway, hout, underway, h₀.outbox, gains_rowAccount] at hrows
    simp only [rowAccount, hbuf k, h₀.buf k, List.flatMap_nil, List.append_nil, List.nil_append]
      at hrows
    exact hrows
  · have hrows := conserved areaTagAccount h₀.inserting h
    rw [underway, hout, underway, h₀.outbox] at hrows
    simpa only [areaTagAccount, htags, h₀.areaTags, List.flatMap_nil, List.append_nil, List.nil_append]
      using hrows

end WayThread

end OsmImport
