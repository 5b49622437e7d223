import OsmImport.Import.Proofs.Client
import OsmImport.Import.Proofs.WayThread

/-!
# The rows of a way thread

No row is lost between the entry that it is built from and the transaction that commits it
(`Conserved`). The buffers of ways and areas are empty when the thread arrives at the barrier, and no way
comes behind, so the rows of its ways are committed from then on (`Settled`).
-/

namespace OsmImport

open NavDB

/-- The call of an insert. -/
def Act.inserted : Act → Option InsertCall
  | .insert _ c => some c
  | _ => none

/-- The call of an insert for a way. -/
def Act.insertedWay : Act → Option InsertCall
  | .insert (.way _) c => some c
  | _ => none

/-- The rows of some calls in a table. -/
def rowsOf (k : Kind) (calls : List InsertCall) : List Row :=
  (calls.filter fun c => c.kind = k).map InsertCall.row

theorem rowsOf_append (k : Kind) (a b : List InsertCall) :
    rowsOf k (a ++ b) = rowsOf k a ++ rowsOf k b := by
  simp [rowsOf]

theorem rowsOf_singleton (k : Kind) (c : InsertCall) :
    rowsOf k [c] = if c.kind = k then [c.row] else [] := by
  by_cases hc : c.kind = k <;> simp [rowsOf, hc]

/-- The rows that these acts commit to a table. -/
def committedRows (k : Kind) (acts : List Act) : List Row := copiedRows k (acts.filterMap Act.committed)

theorem committedRows_append (k : Kind) (a b : List Act) :
    committedRows k (a ++ b) = committedRows k a ++ committedRows k b := by
  rw [committedRows, List.filterMap_append, copiedRows_append]
  rfl

/-- The calls for the way in hand, with the positions of its nodes. -/
def WayPc.todo (cfg : Config) (pos : Int64 → Option Coord) : WayPc → List InsertCall
  | .locating w refs coords => WayThread.wayCalls cfg w (coords ++ refs.filterMap pos)
  | .inserting (.way _) calls => calls
  | _ => []

namespace WayThread

variable {cfg : Config} {t₀ t t' : WayThread} {nav : NavDB} {flag : Bool} {acts : List Act}

theorem inserting_fresh : WayThread.Inserting ⟨.pop, nav, [], flag⟩ := ⟨nofun, nofun⟩

theorem inserting (h₀ : t₀.Inserting) (h : Trace (Step cfg) t₀ acts t) : t.Inserting :=
  h.invariant (I := fun _ t => t.Inserting) h₀ fun _ _ _ _ _ ht hs => (hs.inserting ht).1

section

variable {α : Type} (a : KeptAccount α)

/-- What some calls bring in. -/
def gains (calls : List InsertCall) : List α := calls.flatMap fun c => a.gain c.kind c.row c.tags

/-- What these acts take out. -/
def takesOut (acts : List Act) : List α := (acts.filterMap Act.committed).flatMap a.sent

/-- What is on its way in a thread. -/
def underway (t : WayThread) : List α := t.outbox.flatMap a.sent ++ a.held t.nav

theorem takesOut_append (as bs : List Act) : takesOut a (as ++ bs) = takesOut a as ++ takesOut a bs := by
  simp [takesOut]

/-- A call of the client by a thread with nothing to send. -/
theorem underway_call {code : Exec Unit} (pc : WayPc) (hout : t.outbox = []) {extra : List α}
    (hcall : (t.nav.perform code).2.flatMap a.sent ++ a.held (t.nav.perform code).1 =
      a.held t.nav ++ extra) : underway a (t.call code pc) = underway a t ++ extra := by
  rw [underway, underway, hout, List.flatMap_nil, List.nil_append]
  exact hcall

/-- What is inserted is committed, or waits to be sent, or is buffered. -/
theorem conserved (h₀ : t₀.Inserting) (h : Trace (Step cfg) t₀ acts t) :
    takesOut a acts ++ underway a t = underway a t₀ ++ gains a (acts.filterMap Act.inserted) := by
  induction h with
  | nil => exact (List.append_nil _).symm
  | @snoc acts t t' act h hs ih =>
    have hstep : act.inserted = none → takesOut a [act] ++ underway a t' = underway a t →
        takesOut a (acts ++ [act]) ++ underway a t' =
          underway a t₀ ++ gains a ((acts ++ [act]).filterMap Act.inserted) := by
      intro hi hsame
      rw [takesOut_append, List.append_assoc, hsame, ih, List.filterMap_append,
        List.filterMap_cons_none hi, List.filterMap_nil, List.append_nil]
    have hflush : ∀ {code : Exec Unit} {ks : List Kind} {pc : WayPc}, t.outbox = [] →
        code.run (Session.alone t.nav) = .done () ((Session.alone t.nav).flushAll ks) →
          underway a (t.call code pc) = underway a t := by
      intro code ks pc hout hrun
      have hcall := (a.perform_flushes hrun).trans (List.append_nil _).symm
      rw [underway_call a pc hout hcall, List.append_nil]
    cases hs with
    | @commit txn rest ho =>
      refine hstep rfl ?_
      rw [underway, underway, ho, takesOut, List.flatMap_cons, List.append_assoc]
      simp [Act.committed]
    | @insert entry c calls ho hpc =>
      have hc : c.kind ≠ .node := (inserting h₀ h).calls c (by rw [hpc]; exact List.mem_cons_self)
      rw [takesOut_append, List.filterMap_append, gains, List.flatMap_append, ← List.append_assoc]
      have hcall := underway_call a (.inserting entry calls) ho (a.perform_insertCall hc)
      rw [hcall, show takesOut a [Act.insert entry c] = [] from rfl, List.append_nil,
        ← List.append_assoc, ih]
      simp [gains, Act.inserted]
    | inserted ho _ => exact hstep rfl (hflush ho (run_finalize_roads accepting_acceptAll _))
    | finalizeWays ho _ => exact hstep rfl (hflush ho (run_finalize_ways accepting_acceptAll _))
    | finalizeRelations ho _ =>
      exact hstep rfl (hflush ho (run_finalize_relations accepting_acceptAll _))
    | destroy ho _ => exact hstep rfl (hflush ho (run_destroy accepting_acceptAll _))
    | _ => exact hstep rfl rfl

end

theorem gains_rowAccount (k : Kind) (calls : List InsertCall) :
    gains (rowAccount k) calls = rowsOf k calls := by
  induction calls with
  | nil => rfl
  | cons c calls ih =>
    rw [← List.singleton_append, rowsOf_append, rowsOf_singleton, ← ih]
    rfl

theorem todo_begin {pos : Int64 → Option Coord} (r : RelationEntry) : (begin r).todo cfg pos = [] := by
  unfold begin
  split <;> rfl

/-- What is to be done for an entry that is taken. -/
theorem todo_dispatch (hphase : cfg.resume_phase ≠ .relations) {pos : Int64 → Option Coord} (flag : Bool)
    (entry : OSMEntry) : (dispatch cfg flag entry).todo cfg pos =
      ([entry].filterMap OSMEntry.asWay).flatMap fun w => wayCalls cfg w (w.node_refs.filterMap pos) := by
  cases entry with
  | node n => rfl
  | way w => simp [dispatch, hphase, WayPc.todo, OSMEntry.asWay]
  | relation r =>
    simp only [dispatch]
    split
    · exact todo_begin r
    · rfl

/-- The calls for the ways that were taken are made, or still to be made. -/
theorem built (hphase : cfg.resume_phase ≠ .relations) {pos : Int64 → Option Coord}
    (hpos : ∀ id p, .select id p ∈ acts → p = pos id)
    (h : Trace (Step cfg) ⟨.pop, nav, [], flag⟩ acts t) :
    ((acts.filterMap Act.taken).filterMap OSMEntry.asWay).flatMap
        (fun w => wayCalls cfg w (w.node_refs.filterMap pos)) =
      acts.filterMap Act.insertedWay ++ t.pc.todo cfg pos := by
  induction h with
  | nil => rfl
  | @snoc acts t t' act h hs ih =>
    have ih := ih fun id p hmem => hpos id p (List.mem_append_left _ hmem)
    have hquiet : act.taken = none → act.insertedWay = none →
        t'.pc.todo cfg pos = t.pc.todo cfg pos →
          (((acts ++ [act]).filterMap Act.taken).filterMap OSMEntry.asWay).flatMap
            (fun w => wayCalls cfg w (w.node_refs.filterMap pos)) =
              (acts ++ [act]).filterMap Act.insertedWay ++ t'.pc.todo cfg pos := by
      intro ht hi htodo
      simp only [List.filterMap_append, List.filterMap_cons_none ht, List.filterMap_cons_none hi,
        List.filterMap_nil, List.append_nil, htodo, ih]
    cases hs with
    | commit _ => exact hquiet rfl rfl rfl
    | take entry _ hpc =>
      show _ = (acts ++ [Act.take entry]).filterMap Act.insertedWay ++
        (dispatch cfg t.way_phase_done entry).todo cfg pos
      rw [todo_dispatch hphase, List.filterMap_append, List.filterMap_append, List.filterMap_append,
        List.flatMap_append, ih, hpc]
      simp [Act.taken, Act.insertedWay, WayPc.todo]
    | drained _ hpc =>
      refine hquiet rfl rfl ?_
      dsimp only
      rw [hpc]
      split <;> rfl
    | @select w id refs coords p _ hpc =>
      refine hquiet rfl rfl ?_
      rw [hpc, hpos id p (by simp)]
      show wayCalls cfg w _ = wayCalls cfg w _
      congr 1
      rw [List.append_assoc]
      congr 1
      cases hp : pos id <;> simp [hp]
    | located _ hpc => exact hquiet rfl rfl (by rw [hpc]; simp [WayPc.todo])
    | getWay _ _ hpc => exact hquiet rfl rfl (by rw [hpc]; rfl)
    | collected _ hpc => exact hquiet rfl rfl (by rw [hpc]; rfl)
    | getWayCoordsMap _ _ hpc => exact hquiet rfl rfl (by rw [hpc]; rfl)
    | @insert entry c calls _ hpc =>
      rw [hpc] at ih
      cases entry with
      | way w =>
        rw [List.filterMap_append, List.filterMap_append]
        simpa [Act.taken, Act.insertedWay, List.filterMap_cons, WayPc.todo, call] using ih
      | node n => exact hquiet rfl rfl (by rw [hpc]; rfl)
      | relation r => exact hquiet rfl rfl (by rw [hpc]; rfl)
    | @inserted entry _ hpc =>
      refine hquiet rfl rfl ?_
      rw [hpc]
      cases entry <;> rfl
    | finalizeWays _ hpc => exact hquiet rfl rfl (by rw [hpc]; rfl)
    | arrive _ _ hpc => exact hquiet rfl rfl (by rw [hpc]; rfl)
    | wakeRelation _ hpc => exact hquiet rfl rfl (by rw [hpc]; exact todo_begin _)
    | wakeDrained _ hpc => exact hquiet rfl rfl (by rw [hpc]; rfl)
    | finalizeRelations _ hpc => exact hquiet rfl rfl (by rw [hpc]; rfl)
    | destroy _ hpc => exact hquiet rfl rfl (by rw [hpc]; rfl)

/-- No way is taken behind a relation. -/
def WaysFirst (entries : List OSMEntry) : Prop :=
  entries.Pairwise fun a b => a.isRelation = true → b.isWay = false

/-- What holds of a thread with respect to the barrier. -/
structure Settled (acts : List Act) (t : WayThread) : Prop where
  arriving : ∀ r, t.pc = .arriving r → t.nav.buf .way = [] ∧ t.nav.buf .area = []
  inHand : t.status ≠ .before → ∀ w, .way w ∉ t.pc.inHand
  arrived : t.status ≠ .before →
    t.pc.leftLoop = true ∨ ∃ r, .relation r ∈ acts.filterMap Act.taken
  committed : t.status ≠ .before → ∀ k, k = .way ∨ k = .area →
    (rowsOf k (acts.filterMap Act.insertedWay)).Sublist (committedRows k acts)

theorem insertedWay_sublist (acts : List Act) :
    (acts.filterMap Act.insertedWay).Sublist (acts.filterMap Act.inserted) := by
  induction acts with
  | nil => exact List.Sublist.slnil
  | cons a acts ih =>
    cases a with
    | insert entry c =>
      cases entry with
      | way w => exact ih.cons_cons c
      | _ => exact ih.cons c
    | _ => exact ih

theorem exists_relation_snoc (act : Act) (h : ∃ r, .relation r ∈ acts.filterMap Act.taken) :
    ∃ r, .relation r ∈ (acts ++ [act]).filterMap Act.taken := by
  obtain ⟨r, hr⟩ := h
  refine ⟨r, ?_⟩
  rw [List.filterMap_append]
  exact List.mem_append_left _ hr

/-- Behind the barrier nothing is inserted for a way, and what is committed stays committed. -/
theorem Settled.committed_snoc {act : Act} (h : Settled acts t) (hb : t.status ≠ .before)
    (hi : act.insertedWay = none) {k : Kind} (hk : k = .way ∨ k = .area) :
    (rowsOf k ((acts ++ [act]).filterMap Act.insertedWay)).Sublist
      (committedRows k (acts ++ [act])) := by
  rw [List.filterMap_append, List.filterMap_cons_none hi, List.filterMap_nil, List.append_nil,
    committedRows_append]
  exact (h.committed hb k hk).trans (List.sublist_append_left ..)

/-- A step that does not pass the barrier, takes no entry and inserts no row of a way. -/
theorem Settled.quiet {act : Act} (h : Settled acts t) (hstatus : t'.status = t.status)
    (hi : act.insertedWay = none)
    (ha : ∀ r, t'.pc = .arriving r → t.pc = .arriving r ∧ t'.nav = t.nav)
    (hw : ∀ w, .way w ∈ t'.pc.inHand → .way w ∈ t.pc.inHand)
    (hl : t.pc.leftLoop = true → t'.pc.leftLoop = true) : Settled (acts ++ [act]) t' := by
  refine ⟨fun r hr => ?_, fun hb w hmem => ?_, fun hb => ?_, fun hb k hk => ?_⟩
  · obtain ⟨hpc, hnav⟩ := ha r hr
    rw [hnav]
    exact h.arriving r hpc
  · exact h.inHand (hstatus ▸ hb) w (hw w hmem)
  · exact (h.arrived (hstatus ▸ hb)).imp hl (exists_relation_snoc act)
  · exact h.committed_snoc (hstatus ▸ hb) hi hk

/-- Behind the barrier a thread that is still in its loop has taken a relation. -/
theorem Settled.relation_taken (h : Settled acts t) (hb : t.status ≠ .before)
    (hl : t.pc.leftLoop = false) : ∃ r, .relation r ∈ acts.filterMap Act.taken := by
  refine (h.arrived hb).resolve_left ?_
  rw [hl]
  exact Bool.false_ne_true

/-- A step from inside the loop that stays there. Behind the barrier the thread holds no way, so it inserts none. -/
theorem Settled.working {act : Act} (h : Settled acts t) (hl : t.pc.leftLoop = false)
    (hstatus : t'.status ≠ .before → t.status ≠ .before)
    (hi : t.status ≠ .before → act.insertedWay = none) (ha : ∀ r, t'.pc ≠ .arriving r)
    (hw : t.status ≠ .before → ∀ w, .way w ∉ t'.pc.inHand) : Settled (acts ++ [act]) t' where
  arriving r hr := absurd hr (ha r)
  inHand hb := hw (hstatus hb)
  arrived hb := .inr (exists_relation_snoc act (h.relation_taken (hstatus hb) hl))
  committed hb _ hk := h.committed_snoc (hstatus hb) (hi (hstatus hb)) hk

theorem begin_ne_arriving (r : RelationEntry) (relation : Option RelationEntry) :
    begin r ≠ .arriving relation := by
  unfold begin
  split <;> simp

theorem dispatch_ne_arriving (cfg : Config) (flag : Bool) (entry : OSMEntry)
    (relation : Option RelationEntry) : dispatch cfg flag entry ≠ .arriving relation := by
  cases entry with
  | node n => simp [dispatch]
  | way w =>
    simp only [dispatch]
    split <;> simp
  | relation r =>
    simp only [dispatch]
    split
    · exact begin_ne_arriving r relation
    · simp

theorem buf_finalize_ways (nav : NavDB) {k : Kind} (hk : k ∈ [Kind.way, .area]) :
    (nav.perform (finalize_ways acceptAll)).1.buf k = [] := by
  rw [perform_of_run (run_finalize_ways accepting_acceptAll _)]
  exact Session.buf_flushAll _ _ hk

/-- With an empty buffer and nothing to send, the rows of the ways of a thread are committed. -/
theorem committed_of_flushed (hnav : ∀ k, nav.buf k = [])
    (h : Trace (Step cfg) ⟨.pop, nav, [], flag⟩ acts t) (hout : t.outbox = []) {k : Kind}
    (hbuf : t.nav.buf k = []) :
    (rowsOf k (acts.filterMap Act.insertedWay)).Sublist (committedRows k acts) := by
  have hall : committedRows k acts = rowsOf k (acts.filterMap Act.inserted) := by
    have hrows := conserved (rowAccount k) inserting_fresh h
    rw [underway, hout, underway, gains_rowAccount] at hrows
    simp only [rowAccount, hbuf, hnav k, List.flatMap_nil, List.append_nil, List.nil_append] at hrows
    exact hrows
  rw [hall]
  exact ((insertedWay_sublist acts).filter _).map _

theorem settled (hnav : ∀ k, nav.buf k = []) (h : Trace (Step cfg) ⟨.pop, nav, [], false⟩ acts t)
    (hfirst : WaysFirst (acts.filterMap Act.taken)) : Settled acts t := by
  induction h with
  | nil => exact ⟨fun _ hr => (by cases hr), absurd rfl, absurd rfl, absurd rfl⟩
  | @snoc acts t t' act h hs ih =>
    rw [List.filterMap_append] at hfirst
    obtain ⟨hbefore, -, hcross⟩ := List.pairwise_append.mp hfirst
    have ih := ih hbefore
    have hmoves := hs.moves
    cases hs with
    | commit _ => exact ih.quiet rfl rfl (fun r hr => ⟨hr, rfl⟩) (fun _ => id) id
    | take entry _ hpc =>
      have hl : t.pc.leftLoop = false := by rw [hpc]; rfl
      obtain ⟨hnew, -⟩ := WayPc.dispatch_facts cfg t.way_phase_done entry
      refine ih.working hl (hmoves ▸ id) (fun _ => rfl) (fun r => dispatch_ne_arriving cfg _ entry r)
        fun hb w hmem => ?_
      rw [hnew] at hmem
      obtain rfl := List.mem_singleton.mp hmem
      obtain ⟨r, hr⟩ := ih.relation_taken hb hl
      exact Bool.noConfusion (hcross _ hr (.way w) (List.mem_singleton.mpr rfl) rfl)
    | drained _ hpc =>
      refine ih.quiet hmoves rfl (fun r hr => ?_) (fun w hmem => ?_) (fun hl => ?_)
      · dsimp only at hr
        split at hr <;> cases hr
      · dsimp only at hmem
        split at hmem <;> cases hmem
      · rw [hpc] at hl
        cases hl
    | select _ _ hpc =>
      exact ih.quiet hmoves rfl (by simp) (by simp [hpc, WayPc.inHand]) (by simp [hpc, WayPc.leftLoop])
    | located _ hpc =>
      exact ih.quiet hmoves rfl (by simp) (by simp [hpc, WayPc.inHand]) (by simp [hpc, WayPc.leftLoop])
    | getWay _ _ hpc =>
      exact ih.quiet hmoves rfl (by simp) (by simp [WayPc.inHand]) (by simp [hpc, WayPc.leftLoop])
    | collected _ hpc =>
      exact ih.quiet hmoves rfl (by simp) (by simp [WayPc.inHand]) (by simp [hpc, WayPc.leftLoop])
    | getWayCoordsMap _ _ hpc =>
      exact ih.quiet hmoves rfl (by simp) (by simp [WayPc.inHand]) (by simp [hpc, WayPc.leftLoop])
    | @insert entry c calls _ hpc =>
      have hkept : (.inserting entry calls : WayPc).inHand = t.pc.inHand := by rw [hpc]; rfl
      refine ih.working (by rw [hpc]; rfl) (hmoves ▸ id) (fun hb => ?_) (fun _ hr => (by cases hr))
        fun hb w hmem => ih.inHand hb w (hkept ▸ hmem)
      cases entry with
      | way w =>
        refine absurd ?_ (ih.inHand hb w)
        rw [hpc]
        exact List.mem_singleton.mpr rfl
      | _ => rfl
    | inserted _ hpc =>
      exact ih.quiet hmoves rfl (by simp [call]) (by simp [call, WayPc.inHand])
        (by simp [hpc, WayPc.leftLoop])
    | @finalizeWays r _ hpc =>
      have hstatus : (t.call (finalize_ways acceptAll) (.arriving r)).status = .before := rfl
      refine ⟨fun _ _ => ⟨buf_finalize_ways _ (by simp), buf_finalize_ways _ (by simp)⟩, ?_, ?_, ?_⟩
      · exact fun hb => absurd hstatus hb
      · exact fun hb => absurd hstatus hb
      · exact fun hb => absurd hstatus hb
    | @arrive r phase ho hpc =>
      refine ⟨fun _ hr => (by cases hr), fun _ w hmem => ?_, fun _ => ?_, fun _ k hk => ?_⟩
      · cases r with
        | none => cases hmem
        | some r => cases List.mem_singleton.mp hmem
      · cases r with
        | none => exact .inl rfl
        | some r =>
          have htake := (placed h).inHand (.relation r) (by rw [hpc]; exact List.mem_singleton.mpr rfl)
          exact .inr (exists_relation_snoc _ ⟨r, List.mem_filterMap.mpr ⟨_, htake, rfl⟩⟩)
      · have hempty : t.nav.buf k = [] := by
          obtain ⟨hway, harea⟩ := ih.arriving r hpc
          rcases hk with rfl | rfl
          · exact hway
          · exact harea
        have hnone : (Act.arrive phase).insertedWay = none := rfl
        rw [List.filterMap_append, List.filterMap_cons_none hnone, List.filterMap_nil, List.append_nil,
          committedRows_append]
        exact (committed_of_flushed hnav h ho hempty).trans (List.sublist_append_left ..)
    | @wakeRelation r phase _ hpc =>
      have hb : t.status ≠ .before := by simp [hmoves.1]
      refine ih.working (by rw [hpc]; rfl) (fun _ => hb) (fun _ => rfl) (begin_ne_arriving r) fun _ w hmem => ?_
      rw [WayPc.inHand_begin] at hmem
      cases List.mem_singleton.mp hmem
    | wakeDrained _ hpc =>
      have hb : t.status ≠ .before := by simp [hmoves.1]
      exact ⟨fun _ hr => (by cases hr), fun _ _ hmem => absurd hmem List.not_mem_nil, fun _ => .inl rfl,
        fun _ k hk => ih.committed_snoc hb rfl hk⟩
    | finalizeRelations _ hpc =>
      exact ih.quiet hmoves rfl (by simp [call]) (by simp [call, WayPc.inHand]) fun _ => rfl
    | destroy _ hpc => exact ih.quiet hmoves rfl (by simp [call]) (by simp [call, WayPc.inHand]) fun _ => rfl

end WayThread

end OsmImport
