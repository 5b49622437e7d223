import OsmImport.Import.Proofs.RelationThread
import OsmImport.Import.Proofs.WaysVisible
import Mathlib.Data.List.Flatten

/-!
# The relation phase of an import

From the beginning of the phase on (`Import.AtRelations`) only rows of relations are committed, and none
of them is a row that a member names, so all lookups find what is there at the beginning (`finds`). At the
end the rows of all relations are committed, each by the thread that took the relation
(`committed_relations`).
-/

namespace OsmImport

open NavDB Postgres

/-! ## The effect of what is committed -/

section

variable {chk : Checks} (k : Kind) {txn : List Statement}

theorem rows_offer_txn (h : ∀ st ∈ txn, st.isCopy = true) (db : Database) : (db.offer chk txn).rows k =
    insertRows chk k (db.rows k) (txn.flatMap (Statement.copied k)) := by
  induction txn generalizing db with
  | nil => exact insertRows_nil.symm
  | cons st txn ih =>
    show ((db.settle chk st).offer chk txn).rows k = _
    rw [ih fun st hst => h st (List.mem_cons_of_mem _ hst), List.flatMap_cons, insertRows_append]
    congr 1
    cases st with
    | copy j rows =>
      by_cases hj : j = k
      · subst hj
        simp [Database.settle, Statement.copied]
      · simp [Database.settle, Statement.copied, hj, Ne.symm hj]
    | copyTags j rows => simp [Database.settle, Database.exec, Statement.copied]
    | _ => cases h _ List.mem_cons_self

theorem tags_offer_txn (h : ∀ st ∈ txn, st.isCopy = true) (db : Database) : (db.offer chk txn).tags k =
    db.tags k ++ txn.flatMap (Statement.copiedTags k) := by
  induction txn generalizing db with
  | nil => exact (List.append_nil _).symm
  | cons st txn ih =>
    show ((db.settle chk st).offer chk txn).tags k = _
    rw [ih fun st hst => h st (List.mem_cons_of_mem _ hst), List.flatMap_cons, ← List.append_assoc]
    congr 1
    cases st with
    | copy j rows => simp [Database.settle, Statement.copiedTags]
    | copyTags j rows =>
      by_cases hj : j = k
      · subst hj
        simp [Database.settle, Database.exec, Statement.copiedTags]
      · simp [Database.settle, Database.exec, Statement.copiedTags, hj, Ne.symm hj]
    | _ => cases h _ List.mem_cons_self

variable {txns : List (List Statement)}

/-- Transactions of COPY insert their rows one after the other. -/
theorem rows_offer (h : CopiesOnly txns) (db : Database) :
    (txns.foldl (Database.offer chk) db).rows k = insertRows chk k (db.rows k) (copiedRows k txns) := by
  induction txns generalizing db with
  | nil => exact insertRows_nil.symm
  | cons txn txns ih =>
    obtain ⟨htxn, hrest⟩ := List.forall_mem_cons.mp h
    rw [List.foldl_cons, ih hrest, rows_offer_txn k htxn, copiedRows_cons, insertRows_append]

theorem tags_offer (h : CopiesOnly txns) (db : Database) :
    (txns.foldl (Database.offer chk) db).tags k = db.tags k ++ copiedTagRows k txns := by
  induction txns generalizing db with
  | nil => exact (List.append_nil _).symm
  | cons txn txns ih =>
    obtain ⟨htxn, hrest⟩ := List.forall_mem_cons.mp h
    rw [List.foldl_cons, ih hrest, tags_offer_txn k htxn, List.append_assoc]
    rfl

end

/-! ## Node threads -/

namespace NodeThread

variable {cfg : Config} {t₀ t : NodeThread} {acts : List Act}

/-- What is on its way in a thread. -/
def underway {α : Type} (a : KeptAccount α) (t : NodeThread) : List α :=
  t.outbox.flatMap a.sent ++ a.held t.nav

/-- Of an account to which nodes bring nothing, a node thread takes out what was on its way. -/
theorem conserved {α : Type} (a : KeptAccount α) (hnode : ∀ row tags, a.gain .node row tags = [])
    (h : Trace (Step cfg) t₀ acts t) :
    WayThread.takesOut a acts ++ underway a t = underway a t₀ := by
  induction h with
  | nil => rfl
  | @snoc acts t t' act h hs ih =>
    have hcall : ∀ {code : Exec Unit} {s : Session} {pc : NodePc}, t.outbox = [] →
        code.run (Session.alone t.nav) = .done () s → a.total s = a.total (Session.alone t.nav) →
          underway a (t.call code pc) = underway a t := by
      intro code s pc hout hrun htotal
      have hleft := a.perform hrun (htotal.trans (List.append_nil _).symm)
      rw [List.append_nil] at hleft
      rw [underway, underway, hout]
      exact hleft
    have hstep : WayThread.takesOut a [act] ++ underway a t' = underway a t →
        WayThread.takesOut a (acts ++ [act]) ++ underway a t' = underway a t₀ := by
      intro hsame
      rw [WayThread.takesOut_append, List.append_assoc, hsame, ih]
    refine hstep ?_
    cases hs with
    | @commit txn rest ho =>
      rw [underway, underway, ho, List.flatMap_cons, List.append_assoc]
      simp [WayThread.takesOut, Act.committed]
    | @store n ho _ =>
      obtain ⟨row, hrun⟩ := run_insertItem cfg n (Session.alone t.nav)
      refine hcall ho hrun ?_
      split
      · rfl
      · rw [a.inserted, hnode, List.append_nil]
    | finalize ho _ => exact hcall ho (run_finalize _) ((a.tagsFlushed ..).trans (a.flushed ..))
    | destroy ho _ => exact hcall ho (run_destroy accepting_acceptAll _) (a.flushAll ..)
    | _ => rfl

/-- A thread with nothing but nodes in its buffers. -/
structure OnlyNodes (t : NodeThread) : Prop where
  copies : CopiesOnly t.outbox
  rows : ∀ k, k ≠ .node → underway (rowAccount k) t = []
  areaTags : underway areaTagAccount t = []

theorem onlyNodes_fresh (i : ℕ) : OnlyNodes ⟨.pop, NavDB.fresh i, []⟩ := ⟨nofun, fun _ _ => rfl, rfl⟩

theorem onlyNodes (h₀ : t₀.OnlyNodes) (h : Trace (Step cfg) t₀ acts t) : t.OnlyNodes ∧
    (∀ k, k ≠ .node → committedRows k acts = []) ∧ WayThread.takesOut areaTagAccount acts = [] := by
  have hcopies : CopiesOnly t.outbox :=
    h.invariant (I := fun _ t => CopiesOnly t.outbox) h₀.copies fun _ _ _ _ _ hi hs => (hs.copies hi).1
  have hrows : ∀ k, k ≠ .node → committedRows k acts = [] ∧ underway (rowAccount k) t = [] := by
    intro k hk
    have hall := conserved (rowAccount k) (fun _ _ => if_neg (Ne.symm hk)) h
    rw [h₀.rows k hk] at hall
    exact List.append_eq_nil_iff.mp hall
  have htags := conserved areaTagAccount (fun _ _ => rfl) h
  rw [h₀.areaTags] at htags
  obtain ⟨htaken, hunder⟩ := List.append_eq_nil_iff.mp htags
  exact ⟨⟨hcopies, fun k hk => (hrows k hk).2, hunder⟩, fun k hk => (hrows k hk).1, htaken⟩

end NodeThread

/-! ## The phase -/

/-- The beginning of the phase, for the threads. -/
structure Import.AtRelations (cfg : Config) (s : Import) : Prop where
  node : ∀ i, (s.node i).OnlyNodes
  way : ∀ i < cfg.way_threads, (s.way i).AtRelations

/-- A run of the phase, on these relations. -/
structure RelationPhase (cfg : Config) (offer : Database → List Statement → Database)
    (relations : List RelationEntry) (s₀ : Import) (log : List ImportEvent) (s : Import) : Prop where
  start : s₀.AtRelations cfg
  run : Trace (Import.Step cfg offer) s₀ log s
  unambiguous : Unambiguous relations
  ties : cfg.KeepsTies
  hand : ∀ i < cfg.way_threads, ∀ r, .relation r ∈ (s₀.way i).pc.inHand → r ∈ relations
  skip : ∀ i < cfg.way_threads, ∀ w, .take (.way w) ∈ acts (.way i) log → cfg.resume_phase = .relations
  taken : ∀ i < cfg.way_threads, ∀ r, .take (.relation r) ∈ acts (.way i) log → r ∈ relations

namespace RelationPhase

variable {cfg : Config} {offer : Database → List Statement → Database} {relations : List RelationEntry}
  {s₀ s : Import} {log : List ImportEvent}

/-- Steps are only taken by threads that were launched. -/
theorem lt_of_acts (h : Trace (Import.Step cfg offer) s₀ log s) {i : ℕ} {a : Act}
    (ha : a ∈ acts (.way i) log) : i < cfg.way_threads := by
  induction h with
  | nil => cases ha
  | snoc _ hstep ih =>
    rw [acts_append] at ha
    rcases List.mem_append.mp ha with ha | ha
    · exact ih ha
    · have hlast := List.mem_singleton.mp (mem_acts.mp ha)
      cases hstep <;> cases hlast
      assumption

theorem thread (h : RelationPhase cfg offer relations s₀ log s) {i : ℕ} (hi : i < cfg.way_threads) :
    WayThread.Relating relations (acts (.way i) log) (s.way i) :=
  WayThread.relating (h.start.way i hi) (h.skip i hi) (way_steps h.run i) (h.hand i hi) (h.taken i hi)

theorem copies (h : RelationPhase cfg offer relations s₀ log s) :
    CopiesOnly (log.filterMap ImportEvent.committed) :=
  copiesOnly_log (fun i => (h.start.node i).copies) (fun i hi => (h.start.way i hi).inserting) h.run

/-- Only rows of relations are committed. -/
theorem row_isFor (h : RelationPhase cfg offer relations s₀ log s) {k : Kind} (hk : k ≠ .node) {row : Row}
    (hrow : row ∈ copiedRows k (log.filterMap ImportEvent.committed)) :
    ∃ r ∈ relations, ∃ c : InsertCall, c.IsFor r ∧ c.kind = k ∧ c.row = row := by
  obtain ⟨txn, htxn, hmem⟩ := List.mem_flatMap.mp hrow
  obtain ⟨e, he, hc⟩ := List.mem_filterMap.mp htxn
  cases e with
  | thread who act =>
    have hby : row ∈ committedRows k (acts who log) :=
      List.mem_flatMap.mpr ⟨txn, List.mem_filterMap.mpr ⟨act, mem_acts.mpr he, hc⟩, hmem⟩
    cases who with
    | node i =>
      rw [(NodeThread.onlyNodes (h.start.node i) (node_steps h.run i)).2.1 k hk] at hby
      cases hby
    | way i =>
      have hi := lt_of_acts h.run (mem_acts.mpr he)
      have h₀ := h.start.way i hi
      have hall := WayThread.conserved (rowAccount k) h₀.inserting (way_steps h.run i)
      have hnone : WayThread.underway (rowAccount k) (s₀.way i) = [] := by
        rw [WayThread.underway, h₀.outbox]
        exact h₀.buf k
      rw [hnone, List.nil_append, WayThread.gains_rowAccount] at hall
      have hins : row ∈ rowsOf k ((acts (.way i) log).filterMap Act.inserted) :=
        hall ▸ List.mem_append_left _ hby
      obtain ⟨c, hc, hcrow⟩ := List.mem_map.mp hins
      obtain ⟨hc, hkind⟩ := List.mem_filter.mp hc
      obtain ⟨r, hr, hfor⟩ := (h.thread hi).inserted c hc
      exact ⟨r, hr, c, hfor, of_decide_eq_true hkind, hcrow⟩
  | _ => cases hc

end RelationPhase

/-- The rows that a lookup finds under an id. -/
theorem geogs_eq (db : Database) (id : Int64) :
    geogs db id = (db.rowsAt .way id ++ db.rowsAt .area id).map Row.geog := by
  rw [geogs, List.filter_append]
  rfl

namespace RelationPhase

variable {chk : Checks} {cfg : Config} {relations : List RelationEntry} {s₀ s : Import}
  {log : List ImportEvent} (h : RelationPhase cfg (Database.offer chk) relations s₀ log s)
include h

/-- What is under an id that is not that of an area of a relation. -/
theorem geogs_stable {id : Int64} (hid : ∀ r ∈ relations, id ≠ -r.id) :
    geogs s.shared.db id = geogs s₀.shared.db id := by
  have hsame : ∀ k, k = .way ∨ k = .area → s.shared.db.rowsAt k id = s₀.shared.db.rowsAt k id := by
    intro k hk
    have hk' : k ≠ .node := by rcases hk with rfl | rfl <;> nofun
    rw [Database.rowsAt, Database.rowsAt, db_eq h.run, rows_offer k h.copies, insertRows,
      List.filter_append, List.append_right_eq_self, List.filter_eq_nil_iff]
    intro row hrow
    obtain ⟨r, hr, c, hfor, hkind, rfl⟩ := h.row_isFor hk' (KeyedInsert.mem_keep hrow).1
    have hne : c.id ≠ id := by
      rcases hfor with ⟨-, hc⟩ | ⟨hc, -⟩
      · exact hc ▸ (hid r hr).symm
      · rcases hk with rfl | rfl <;> rcases hc with hc | hc <;> cases hkind.symm.trans hc
    simpa [InsertCall.row] using hne
  rw [geogs_eq, geogs_eq, hsame .way (.inl rfl), hsame .area (.inr rfl)]

/-- All lookups find what is there at the beginning. -/
theorem finds {i : ℕ} {a : Act} (ha : a ∈ acts (.way i) log) : a.Finds cfg (geogs s₀.shared.db) := by
  obtain ⟨hstart, hrun, hrelations, hties, hhand, hskip, htaken⟩ := h
  induction hrun with
  | nil => cases ha
  | @snoc log s s' e hrun hstep ih =>
    have hskip' : ∀ i < cfg.way_threads, ∀ w, .take (.way w) ∈ acts (.way i) log →
        cfg.resume_phase = .relations :=
      fun i hi w hw => hskip i hi w (by rw [acts_append]; exact List.mem_append_left _ hw)
    have htaken' : ∀ i < cfg.way_threads, ∀ r, .take (.relation r) ∈ acts (.way i) log →
        r ∈ relations :=
      fun i hi r hr => htaken i hi r (by rw [acts_append]; exact List.mem_append_left _ hr)
    have hphase : RelationPhase cfg (Database.offer chk) relations s₀ log s :=
      ⟨hstart, hrun, hrelations, hties, hhand, hskip', htaken'⟩
    rw [acts_append] at ha
    rcases List.mem_append.mp ha with ha | ha
    · exact ih ha hskip' htaken'
    · have hlast := List.mem_singleton.mp (mem_acts.mp ha)
      cases hstep with
      | @way j act t sh' hj ht he =>
        cases hlast
        obtain ⟨hin, hmembers, -, -⟩ := hphase.thread hj
        have hsame : ∀ r, .relation r ∈ (s.way i).pc.inHand → ∀ m ∈ r.way_members,
            geogs s.shared.db m.id = geogs s₀.shared.db m.id :=
          fun r hr m hm => hphase.geogs_stable (hrelations.members r (hin r hr) m hm)
        cases ht with
        | @getWay r m members geoms geog _ hpc =>
          obtain ⟨rfl, -⟩ := he
          have hm := hmembers r (m :: members) geoms hpc List.mem_cons_self
          show _ = (geogs s₀.shared.db m.id).head?.join.getD []
          rw [hsame r (by simp [hpc, WayPc.inHand]) m hm]
        | @getWayCoordsMap r points _ hpc =>
          obtain ⟨-, hpoints⟩ := he
          show points = _
          funext id
          have hid := hpoints id
          rw [WayThread.memberPoints]
          split at hid
          · rename_i hmem
            obtain ⟨m, hm, rfl⟩ := List.mem_map.mp hmem
            rw [if_pos hmem, hties _ _ hid, hsame r (by simp [hpc, WayPc.inHand]) m hm]
          · rename_i hmem
            rw [if_neg hmem, hid]
        | _ => trivial
      | _ => cases hlast

end RelationPhase

/-! ## What is committed at the end -/

/-- The transactions of the way threads, each with its thread. -/
def ImportEvent.committedByWay : ImportEvent → Option (ℕ × List Statement)
  | .thread (.way i) (.commit txn) => some (i, txn)
  | _ => none

theorem committed_way (i : ℕ) (log : List ImportEvent) : (acts (.way i) log).filterMap Act.committed =
    ((log.filterMap ImportEvent.committedByWay).filter fun p => p.1 = i).map Prod.snd := by
  rw [acts, List.filterMap_filterMap, List.filter_filterMap, List.map_filterMap]
  apply List.filterMap_congr
  intro e _
  cases e with
  | thread me a =>
    cases me with
    | node j => cases a <;> rfl
    | way j =>
      cases a with
      | commit txn =>
        by_cases hji : j = i <;>
          simp [ImportEvent.act, ImportEvent.committedByWay, Act.committed, hji]
      | _ =>
        by_cases hji : j = i <;>
          simp [ImportEvent.act, ImportEvent.committedByWay, Act.committed, hji]
  | _ => rfl

/-- What is taken out of an account, thread by thread. -/
theorem perm_takesOut {α : Type} (a : KeptAccount α) {cfg : Config}
    {offer : Database → List Statement → Database} {s₀ s : Import} {log : List ImportEvent}
    (h : Trace (Import.Step cfg offer) s₀ log s)
    (hnode : ∀ i, WayThread.takesOut a (acts (.node i) log) = []) :
    ((log.filterMap ImportEvent.committed).flatMap a.sent).Perm
      ((List.range cfg.way_threads).flatMap fun i => WayThread.takesOut a (acts (.way i) log)) := by
  have hways : (log.filterMap ImportEvent.committed).flatMap a.sent =
      (log.filterMap ImportEvent.committedByWay).flatMap fun p => a.sent p.2 := by
    have hnone : ∀ i txn, .thread (.node i) (.commit txn) ∈ log → a.sent txn = [] := by
      intro i txn hmem
      refine List.flatMap_eq_nil_iff.mp (hnode i) txn (List.mem_filterMap.mpr ⟨_, mem_acts.mpr hmem, rfl⟩)
    clear h hnode
    induction log with
    | nil => rfl
    | cons e log ih =>
      have ih := ih fun i txn hmem => hnone i txn (List.mem_cons_of_mem _ hmem)
      cases e with
      | thread me act =>
        cases act with
        | commit txn =>
          cases me with
          | node i =>
            have hnil := hnone i txn List.mem_cons_self
            show a.sent txn ++ _ = _
            rw [hnil]
            exact ih
          | way i => exact congrArg (a.sent txn ++ ·) ih
        | _ => cases me <;> exact ih
      | _ => exact ih
  rw [hways]
  have hclasses := perm_flatMap_filter (List.nodup_range (n := cfg.way_threads)) Prod.fst
    (l := log.filterMap ImportEvent.committedByWay) ?_
  · refine (hclasses.flatMap_right _).symm.trans (List.Perm.of_eq ?_)
    rw [List.flatMap_assoc]
    apply List.flatMap_congr
    intro i _
    rw [WayThread.takesOut, committed_way, List.flatMap_map]
  · rintro ⟨i, txn⟩ hmem
    obtain ⟨e, he, hi⟩ := List.mem_filterMap.mp hmem
    cases e with
    | thread me act =>
      cases me <;> cases act <;> cases hi
      exact List.mem_range.mpr (RelationPhase.lt_of_acts h (mem_acts.mpr he))
    | _ => cases hi

/-- The relations that a way thread has worked on, that which it waited with among them. -/
def workedOn (s₀ : Import) (log : List ImportEvent) (i : ℕ) : List RelationEntry :=
  (s₀.way i).pc.pending ++ (takenBy (.way i) log).filterMap OSMEntry.asRelation

namespace RelationPhase

variable {chk : Checks} {cfg : Config} {relations : List RelationEntry} {s₀ s : Import}
  {log : List ImportEvent} (h : RelationPhase cfg (Database.offer chk) relations s₀ log s)
include h

theorem inserted_of_ended {i : ℕ} (hi : i < cfg.way_threads) (hend : (s.way i).Ended) :
    (acts (.way i) log).filterMap Act.inserted =
      (workedOn s₀ log i).flatMap (WayThread.callsFor cfg (geogs s₀.shared.db)) := by
  have hbuilt := WayThread.built_relations (h.start.way i hi) (h.skip i hi) (way_steps h.run i)
    fun a ha => h.finds ha
  rw [hend.1, (h.start.way i hi).duties] at hbuilt
  rw [workedOn, List.flatMap_append]
  exact (List.append_nil _).symm.trans hbuilt

/-- At the end, the rows and the tags of all relations are committed. -/
theorem committed_relations (hend : ∀ i < cfg.way_threads, (s.way i).Ended)
    (hall : ((List.range cfg.way_threads).flatMap (workedOn s₀ log)).Perm relations) :
    let calls := relations.flatMap (WayThread.callsFor cfg (geogs s₀.shared.db))
    (∀ k, k ≠ .node → (copiedRows k (log.filterMap ImportEvent.committed)).Perm (rowsOf k calls)) ∧
      (committedAreaTags log).Perm (WayThread.gains areaTagAccount calls) := by
  intro calls
  have hcalls : ((List.range cfg.way_threads).flatMap fun i =>
      (acts (.way i) log).filterMap Act.inserted).Perm calls := by
    refine List.Perm.trans (List.Perm.of_eq ?_) (hall.flatMap_right _)
    rw [List.flatMap_assoc]
    apply List.flatMap_congr
    intro i hi
    have hi := List.mem_range.mp hi
    exact h.inserted_of_ended hi (hend i hi)
  have hnode := fun i => NodeThread.onlyNodes (h.start.node i) (node_steps h.run i)
  have hway : ∀ i < cfg.way_threads, _ := fun i hi =>
    WayThread.committed_of_ended (h.start.way i hi) (way_steps h.run i) (hend i hi)
  constructor
  · intro k hk
    refine (perm_takesOut (rowAccount k) h.run fun i => (hnode i).2.1 k hk).trans ?_
    refine List.Perm.trans (List.Perm.of_eq ?_) ((hcalls.filter fun c => c.kind = k).map InsertCall.row)
    rw [List.filter_flatMap, List.map_flatMap]
    apply List.flatMap_congr
    intro i hi
    exact (hway i (List.mem_range.mp hi)).1 k
  · refine (perm_takesOut areaTagAccount h.run fun i => (hnode i).2.2).trans ?_
    refine List.Perm.trans (List.Perm.of_eq ?_) (hcalls.flatMap_right _)
    rw [List.flatMap_assoc]
    apply List.flatMap_congr
    intro i hi
    exact (hway i (List.mem_range.mp hi)).2

end RelationPhase

end OsmImport
