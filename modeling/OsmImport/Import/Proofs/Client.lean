import OsmImport.Db.Proofs.Accepting
import OsmImport.Import.Observation

/-!
# What the threads ask of the client

Rows are neither lost nor repeated on the way through the buffers: what the transactions of a call copy,
and what is left in the buffers behind it, is what the buffers held before, and the row of an insert. The
same is true of the tag rows of areas, which have a buffer of their own (`KeptAccount`).
-/

namespace OsmImport

open NavDB

@[simp] theorem copiedRows_nil (k : Kind) : copiedRows k [] = [] := rfl

theorem copiedRows_cons (k : Kind) (txn : List Statement) (txns : List (List Statement)) :
    copiedRows k (txn :: txns) = txn.flatMap (Statement.copied k) ++ copiedRows k txns := rfl

theorem copiedRows_append (k : Kind) (a b : List (List Statement)) :
    copiedRows k (a ++ b) = copiedRows k a ++ copiedRows k b := by
  simp [copiedRows]

theorem transactions_append (a b : List Event) :
    transactions (a ++ b) = transactions a ++ transactions b := by
  simp [transactions]

/-- The rows that a session has copied, and those that are still in its buffer. -/
def Session.offered (s : Session) (k : Kind) : List Row :=
  copiedRows k (transactions s.log) ++ s.nav.buf k

namespace Session

variable (s : Session) (j k : Kind)

theorem log_tagsFlushed : copiedRows k (transactions (s.tagsFlushed j).log) =
    copiedRows k (transactions s.log) := by
  unfold tagsFlushed
  split
  · rfl
  · show copiedRows k (transactions (s.log ++ [_])) = _
    rw [transactions_append, copiedRows_append]
    exact List.append_nil _

theorem offered_flushed : (s.flushed j).offered k = s.offered k := by
  by_cases h : s.nav.buf j = []
  · rw [flushed_empty h]
  · have hlog : copiedRows k (transactions (s.flushed j).log) =
        copiedRows k (transactions s.log) ++ if j = k then s.nav.buf j else [] := by
      rw [flushed_nonempty h]
      show copiedRows k (transactions ((s.committed [.copy j (s.nav.buf j)] .ok).tagsFlushed j).log) = _
      rw [log_tagsFlushed]
      show copiedRows k (transactions (s.log ++ [_])) = _
      rw [transactions_append, copiedRows_append]
      congr 1
      exact (List.append_nil _).trans (List.append_nil _)
    rw [offered, hlog, flushed_buf, offered]
    by_cases hjk : j = k
    · subst hjk
      rw [if_pos rfl, Function.update_self, List.append_nil]
    · rw [if_neg hjk, Function.update_of_ne (Ne.symm hjk), List.append_nil]

theorem offered_buffered (row : Row) (tags : Tags) : (s.buffered j row tags).offered k =
    s.offered k ++ if j = k then [row] else [] := by
  have hlog : transactions (s.buffered j row tags).log = transactions s.log := by
    show transactions ((s.log ++ [_]) ++ [_]) = _
    rw [transactions_append, transactions_append]
    exact (List.append_nil _).trans (List.append_nil _)
  rw [offered, hlog, buffered_buf, offered]
  by_cases hjk : j = k
  · subst hjk
    rw [if_pos rfl, Function.update_self, List.append_assoc]
  · rw [if_neg hjk, Function.update_of_ne (Ne.symm hjk), List.append_nil]

theorem offered_inserted (row : Row) (tags : Tags) : (s.inserted j row tags).offered k =
    s.offered k ++ if j = k then [row] else [] := by
  unfold inserted
  split
  · rw [offered_flushed, offered_buffered]
  · exact offered_buffered ..

end Session

/-! ## What is kept account of -/

/-- What the client holds of something, what a transaction takes out, and what an insert brings in. -/
structure Account (α : Type) where
  held : NavDB → List α
  sent : List Statement → List α
  gain : Kind → Row → Tags → List α

/-- What was sent and what is held. -/
def Account.total {α : Type} (a : Account α) (s : Session) : List α :=
  (transactions s.log).flatMap a.sent ++ a.held s.nav

/-- An account that is kept: only inserts bring something in, and nothing gets lost. -/
structure KeptAccount (α : Type) extends Account α where
  flushed : ∀ (s : Session) (k : Kind), toAccount.total (s.flushed k) = toAccount.total s
  tagsFlushed : ∀ (s : Session) (k : Kind), toAccount.total (s.tagsFlushed k) = toAccount.total s
  inserted : ∀ (s : Session) (k : Kind) (row : Row) (tags : Tags),
    toAccount.total (s.inserted k row tags) = toAccount.total s ++ gain k row tags

/-- The rows of a table. -/
def rowAccount (k : Kind) : KeptAccount Row where
  held nav := nav.buf k
  sent txn := txn.flatMap (Statement.copied k)
  gain j row _ := if j = k then [row] else []
  flushed s j := s.offered_flushed j k
  tagsFlushed s j := by
    show copiedRows k _ ++ (s.tagsFlushed j).nav.buf k = copiedRows k _ ++ s.nav.buf k
    rw [s.log_tagsFlushed j k, Session.tagsFlushed_frame.1]
  inserted s j row tags := s.offered_inserted j k row tags

/-! ## The tags of areas -/

namespace Session

variable (s : Session) (k : Kind)

/-- The tag rows of areas that a session has copied, and those that are still in their buffer. -/
def offeredAreaTags : List TagRow :=
  copiedTagRows .area (transactions s.log) ++ s.nav.tagBuf .area

theorem bufOf_eq_area {k : Kind} : bufOf k = .area ↔ k = .area := by
  cases k <;> decide

theorem offeredAreaTags_tagsFlushed : (s.tagsFlushed k).offeredAreaTags = s.offeredAreaTags := by
  unfold offeredAreaTags
  rw [tagsFlushed_tagBuf]
  by_cases hk : k = .area
  · subst hk
    rw [show bufOf .area = TagBuf.area from rfl, Function.update_self, List.append_nil, tagsFlushed]
    split
    · rename_i h
      rw [show s.nav.tagBuf .area = [] from List.isEmpty_iff.mp h, List.append_nil]
    · show copiedTagRows .area (transactions (s.log ++ [_])) = _
      rw [transactions_append]
      simp [copiedTagRows, transactions, Statement.copiedTags, bufOf]
  · rw [Function.update_of_ne fun h => hk (bufOf_eq_area.mp h.symm), tagsFlushed]
    split
    · rfl
    · show copiedTagRows .area (transactions (s.log ++ [_])) ++ _ = _
      rw [transactions_append]
      simp [copiedTagRows, transactions, Statement.copiedTags, hk]

theorem offeredAreaTags_flushed : (s.flushed k).offeredAreaTags = s.offeredAreaTags := by
  by_cases h : s.nav.buf k = []
  · rw [flushed_empty h]
  · rw [flushed_nonempty h]
    show ((s.committed [.copy k (s.nav.buf k)] .ok).tagsFlushed k).offeredAreaTags = _
    rw [offeredAreaTags_tagsFlushed]
    show copiedTagRows .area (transactions (s.log ++ [_])) ++ _ = _
    rw [transactions_append]
    simp [copiedTagRows, transactions, Statement.copiedTags, offeredAreaTags, committed, record]

theorem offeredAreaTags_inserted (row : Row) (tags : Tags) : (s.inserted k row tags).offeredAreaTags =
    s.offeredAreaTags ++ if k = .area then tagRows row.id tags else [] := by
  have hbuffered : (s.buffered k row tags).offeredAreaTags =
      s.offeredAreaTags ++ if k = .area then tagRows row.id tags else [] := by
    unfold offeredAreaTags
    rw [buffered_tagBuf]
    show copiedTagRows .area (transactions ((s.log ++ [_]) ++ [_])) ++ _ = _
    rw [transactions_append, transactions_append]
    by_cases hk : k = .area
    · subst hk
      simp [transactions, bufOf]
    · rw [Function.update_of_ne fun h => hk (bufOf_eq_area.mp h.symm), if_neg hk]
      simp [transactions]
  unfold inserted
  split
  · rw [offeredAreaTags_flushed, hbuffered]
  · exact hbuffered

end Session

/-- The tag rows of areas. -/
def areaTagAccount : KeptAccount TagRow where
  held nav := nav.tagBuf .area
  sent txn := txn.flatMap (Statement.copiedTags .area)
  gain j row tags := if j = .area then tagRows row.id tags else []
  flushed s k := s.offeredAreaTags_flushed k
  tagsFlushed s k := s.offeredAreaTags_tagsFlushed k
  inserted s k row tags := s.offeredAreaTags_inserted k row tags

/-! ## Calls -/

/-- The calls of the import that insert nothing end with these flushes. -/
def Session.flushAll (s : Session) (ks : List Kind) : Session := ks.foldl Session.flushed s

/-- A call that ends in this session leaves this behind. -/
theorem perform_of_run {nav : NavDB} {code : Exec Unit} {s : Session}
    (h : code.run (Session.alone nav) = .done () s) :
    nav.perform code = (s.nav, transactions s.log) := by
  unfold NavDB.perform
  rw [h]
  rfl

section

variable {α : Type} (a : KeptAccount α)

theorem KeptAccount.flushAll (s : Session) (ks : List Kind) : a.total (s.flushAll ks) = a.total s := by
  induction ks generalizing s with
  | nil => rfl
  | cons k ks ih => exact (ih (s.flushed k)).trans (a.flushed s k)

/-- What a call leaves behind in an account. -/
theorem KeptAccount.perform {nav : NavDB} {code : Exec Unit} {s : Session} {extra : List α}
    (h : code.run (Session.alone nav) = .done () s)
    (ht : a.total s = a.total (Session.alone nav) ++ extra) :
    (nav.perform code).2.flatMap a.sent ++ a.held (nav.perform code).1 = a.held nav ++ extra := by
  rw [perform_of_run h]
  exact ht

/-- A call that ends with flushes moves rows from the buffers into transactions. -/
theorem KeptAccount.perform_flushes {nav : NavDB} {code : Exec Unit} {ks : List Kind}
    (h : code.run (Session.alone nav) = .done () ((Session.alone nav).flushAll ks)) :
    (nav.perform code).2.flatMap a.sent ++ a.held (nav.perform code).1 = a.held nav := by
  rw [a.perform h ((a.flushAll ..).trans (List.append_nil _).symm), List.append_nil]

end

theorem Session.buf_flushAll (s : Session) (ks : List Kind) {k : Kind} (hk : k ∈ ks) :
    (s.flushAll ks).nav.buf k = [] := by
  have hkeep : ∀ (ks : List Kind) (s : Session), s.nav.buf k = [] → (s.flushAll ks).nav.buf k = [] := by
    intro ks
    induction ks with
    | nil => exact fun s h => h
    | cons j ks ih =>
      intro s h
      apply ih (s.flushed j)
      rw [flushed_buf]
      rcases eq_or_ne k j with rfl | hj
      · exact Function.update_self ..
      · rw [Function.update_of_ne hj, h]
  induction ks generalizing s with
  | nil => cases hk
  | cons j ks ih =>
    rcases List.mem_cons.mp hk with rfl | hk
    · apply hkeep ks (s.flushed k)
      rw [flushed_buf, Function.update_self]
    · exact ih (s.flushed j) hk

/-- No tags of areas are buffered without a row. -/
def NavDB.Coupled (nav : NavDB) : Prop := nav.buf .area = [] → nav.tagBuf .area = []

namespace Session

variable {s : Session} (h : s.nav.Coupled)
include h

theorem coupled_flushed (k : Kind) : (s.flushed k).nav.Coupled := by
  by_cases hk : s.nav.buf k = []
  · rwa [flushed_empty hk]
  · unfold NavDB.Coupled
    rw [flushed_buf, flushed_tagBuf hk]
    by_cases harea : k = .area
    · subst harea
      exact fun _ => Function.update_self ..
    · rw [Function.update_of_ne (Ne.symm harea),
        Function.update_of_ne fun hb => harea (bufOf_eq_area.mp hb.symm)]
      exact h

theorem coupled_flushAll (ks : List Kind) : (s.flushAll ks).nav.Coupled := by
  induction ks generalizing s with
  | nil => exact h
  | cons k ks ih => exact ih (coupled_flushed h k)

theorem coupled_inserted (k : Kind) (row : Row) (tags : Tags) :
    (s.inserted k row tags).nav.Coupled := by
  have hbuffered : (s.buffered k row tags).nav.Coupled := by
    unfold NavDB.Coupled
    rw [buffered_buf, buffered_tagBuf]
    by_cases harea : k = .area
    · subst harea
      simp
    · rw [Function.update_of_ne (Ne.symm harea),
        Function.update_of_ne fun hb => harea (bufOf_eq_area.mp hb.symm)]
      exact h
  unfold inserted
  split
  · exact coupled_flushed hbuffered k
  · exact hbuffered

end Session

variable {srv : Server}

theorem run_finalize_ways (h : Accepting srv) (s : Session) :
    (finalize_ways srv).run s = .done () (s.flushAll [.way, .area]) := by
  show (flush srv .way >>= fun _ => flush srv .area).run s = _
  rw [Prog.run_bind_done (flush_accepting h .way s)]
  exact flush_accepting h .area _

theorem run_finalize_roads (h : Accepting srv) (s : Session) :
    (finalize_roads srv).run s = .done () (s.flushAll [.road]) :=
  flush_accepting h .road s

theorem run_finalize_relations (h : Accepting srv) (s : Session) :
    (finalize_relations srv).run s = .done () (s.flushAll [.relation]) :=
  flush_accepting h .relation s

theorem run_destroy (h : Accepting srv) (s : Session) : (NavDB.destroy srv).run s =
    .done () (s.flushAll [.node, .way, .area, .road, .relation]) := by
  have hnode : ∀ s, (flushNodes srv).run s = .done () (s.flushed .node) :=
    flush_accepting h .node
  have hway : ∀ s, (flushWays srv).run s = .done () (s.flushed .way) :=
    flush_accepting h .way
  have harea : ∀ s, (flushAreas srv).run s = .done () (s.flushed .area) :=
    flush_accepting h .area
  have hroad : ∀ s, (flushRoads srv).run s = .done () (s.flushed .road) :=
    flush_accepting h .road
  have hrelation : ∀ s, (flushRelations srv).run s = .done () (s.flushed .relation) :=
    flush_accepting h .relation
  have hall : (do
      flushNodes srv
      flushWays srv
      flushAreas srv
      flushRoads srv
      flushRelations srv : Exec Unit).run s =
        .done () (s.flushAll [.node, .way, .area, .road, .relation]) := by
    rw [Prog.run_bind_done (hnode s), Prog.run_bind_done (hway _), Prog.run_bind_done (harea _),
      Prog.run_bind_done (hroad _)]
    exact hrelation _
  unfold NavDB.destroy
  rw [Prog.run_bind_done (Prog.run_attempt_done hall)]
  rfl

/-- The insert of a row of a way, area, road or relation. -/
theorem run_insertCall (h : Accepting srv) {c : InsertCall} (hc : c.kind ≠ .node) (s : Session) :
    (c.run srv).run s = .done () (s.inserted c.kind c.row c.tags) := by
  have hins := fun k row tags => insertInto_accepting h k row tags s
  obtain ⟨kind, id, name, tags, geog⟩ := c
  cases kind with
  | node => exact absurd rfl hc
  | way =>
    show (insertWay srv id name tags geog).run s = _
    rw [insertWay_eq]
    exact hins ..
  | area =>
    show (insertArea srv id name tags geog).run s = _
    rw [insertArea_eq]
    exact hins ..
  | road =>
    show (insertRoad srv id name tags geog).run s = _
    rw [insertRoad_eq]
    exact hins ..
  | relation =>
    show (insertRelation srv id name tags geog).run s = _
    rw [insertRelation_eq]
    exact hins ..

/-- An insert adds to what is on its way. -/
theorem KeptAccount.perform_insertCall {α : Type} (a : KeptAccount α) {nav : NavDB} {c : InsertCall}
    (hc : c.kind ≠ .node) : (nav.perform (c.run acceptAll)).2.flatMap a.sent ++
      a.held (nav.perform (c.run acceptAll)).1 = a.held nav ++ a.gain c.kind c.row c.tags :=
  a.perform (run_insertCall accepting_acceptAll hc _) (a.inserted ..)

/-! ## Transactions of COPY -/

/-- The statement appends rows. -/
def Statement.isCopy : Statement → Bool
  | .copy _ _ | .copyTags _ _ => true
  | _ => false

/-- Transactions that only append rows. -/
def CopiesOnly (txns : List (List Statement)) : Prop := ∀ txn ∈ txns, ∀ st ∈ txn, st.isCopy = true

theorem copiesOnly_append {a b : List (List Statement)} :
    CopiesOnly (a ++ b) ↔ CopiesOnly a ∧ CopiesOnly b := List.forall_mem_append

/-- What such a transaction appends to a table. -/
theorem rows_commit (k : Kind) {txn : List Statement} (h : ∀ st ∈ txn, st.isCopy = true)
    (db : Database) : (db.commit txn).rows k = db.rows k ++ txn.flatMap (Statement.copied k) := by
  induction txn generalizing db with
  | nil => exact (List.append_nil _).symm
  | cons st txn ih =>
    rw [Database.commit_cons, ih fun st hst => h st (List.mem_cons_of_mem _ hst), List.flatMap_cons,
      ← List.append_assoc]
    congr 1
    cases st with
    | copy j rows =>
      by_cases hj : j = k
      · subst hj
        simp [Database.exec, Statement.copied]
      · simp [Database.exec, Statement.copied, hj, Ne.symm hj]
    | copyTags j rows => simp [Database.exec, Statement.copied]
    | _ => cases h _ List.mem_cons_self

namespace Session

variable {s : Session}

theorem copiesOnly_tagsFlushed (h : CopiesOnly (transactions s.log)) (k : Kind) :
    CopiesOnly (transactions (s.tagsFlushed k).log) := by
  unfold tagsFlushed
  split
  · exact h
  · show CopiesOnly (transactions (s.log ++ [_]))
    rw [transactions_append]
    exact copiesOnly_append.mpr ⟨h, by simp [transactions, CopiesOnly, Statement.isCopy]⟩

theorem copiesOnly_flushed (h : CopiesOnly (transactions s.log)) (k : Kind) :
    CopiesOnly (transactions (s.flushed k).log) := by
  by_cases hk : s.nav.buf k = []
  · rwa [flushed_empty hk]
  · rw [flushed_nonempty hk]
    have hrows : CopiesOnly (transactions (s.committed [.copy k (s.nav.buf k)] .ok).log) := by
      show CopiesOnly (transactions (s.log ++ [_]))
      rw [transactions_append]
      exact copiesOnly_append.mpr ⟨h, by simp [transactions, CopiesOnly, Statement.isCopy]⟩
    exact copiesOnly_tagsFlushed hrows k

theorem copiesOnly_inserted (h : CopiesOnly (transactions s.log)) (k : Kind) (row : Row) (tags : Tags) :
    CopiesOnly (transactions (s.inserted k row tags).log) := by
  have hbuffered : CopiesOnly (transactions (s.buffered k row tags).log) := by
    show CopiesOnly (transactions ((s.log ++ [_]) ++ [_]))
    rw [transactions_append, transactions_append]
    simpa [transactions] using h
  unfold inserted
  split
  · exact copiesOnly_flushed hbuffered k
  · exact hbuffered

theorem copiesOnly_flushAll (h : CopiesOnly (transactions s.log)) (ks : List Kind) :
    CopiesOnly (transactions (s.flushAll ks).log) := by
  induction ks generalizing s with
  | nil => exact h
  | cons k ks ih => exact ih (copiesOnly_flushed h k)

end Session

theorem copiesOnly_alone (nav : NavDB) : CopiesOnly (transactions (Session.alone nav).log) := nofun

theorem perform_flushes_copies {nav : NavDB} {code : Exec Unit} {ks : List Kind}
    (h : code.run (Session.alone nav) = .done () ((Session.alone nav).flushAll ks)) :
    CopiesOnly (nav.perform code).2 := by
  rw [perform_of_run h]
  exact Session.copiesOnly_flushAll (copiesOnly_alone nav) ks

theorem perform_insertCall_copies {nav : NavDB} {c : InsertCall} (hc : c.kind ≠ .node) :
    CopiesOnly (nav.perform (c.run acceptAll)).2 := by
  rw [perform_of_run (run_insertCall accepting_acceptAll hc _)]
  exact Session.copiesOnly_inserted (copiesOnly_alone nav) _ _ _

/-- The insert of a node. -/
theorem run_insertItem (cfg : Config) (n : NodeEntry) (s : Session) :
    ∃ row, (NodeThread.insertItem cfg n).run s =
      .done () (if n.tags.isEmpty then s else s.inserted .node row n.tags) := by
  unfold NodeThread.insertItem
  dsimp only
  rw [insertNode_eq]
  split
  · exact ⟨⟨n.id, n.name, none, none⟩, rfl⟩
  · exact ⟨_, insertInto_accepting accepting_acceptAll ..⟩

theorem run_finalize (s : Session) :
    NodeThread.finalize.run s = .done () ((s.flushed .node).tagsFlushed .node) := by
  show (flush acceptAll .node >>= fun _ => finalize_tags acceptAll .node).run s = _
  rw [Prog.run_bind_done (flush_accepting accepting_acceptAll .node s)]
  exact finalize_tags_ok .node rfl

/-- What a node thread sends. -/
theorem NodeThread.Step.copies {cfg : Config} {t t' : NodeThread} {act : Act} (h : Step cfg t act t')
    (ht : CopiesOnly t.outbox) : CopiesOnly t'.outbox ∧
      ∀ txn, act = .commit txn → ∀ st ∈ txn, st.isCopy = true := by
  cases h with
  | commit ho =>
    rw [ho] at ht
    obtain ⟨htxn, hrest⟩ := List.forall_mem_cons.mp ht
    refine ⟨hrest, ?_⟩
    rintro _ ⟨rfl⟩
    exact htxn
  | @store n _ _ =>
    refine ⟨?_, nofun⟩
    obtain ⟨row, hrun⟩ := run_insertItem cfg n (Session.alone t.nav)
    show CopiesOnly (t.nav.perform _).2
    rw [perform_of_run hrun]
    split
    · exact copiesOnly_alone t.nav
    · exact Session.copiesOnly_inserted (copiesOnly_alone _) _ _ _
  | finalize _ _ =>
    refine ⟨?_, nofun⟩
    show CopiesOnly (t.nav.perform _).2
    rw [perform_of_run (run_finalize _)]
    exact Session.copiesOnly_tagsFlushed (Session.copiesOnly_flushed (copiesOnly_alone _) _) _
  | destroy _ _ => exact ⟨perform_flushes_copies (run_destroy accepting_acceptAll _), nofun⟩
  | _ => exact ⟨ht, nofun⟩

/-- The calls that a way thread still has to make. -/
def WayPc.calls : WayPc → List InsertCall
  | .inserting _ calls => calls
  | _ => []

namespace WayThread

theorem calls_begin (r : RelationEntry) : (begin r).calls = [] := by
  unfold begin
  split <;> rfl

/-- An entry that is taken brings no calls yet. -/
theorem calls_dispatch (cfg : Config) (flag : Bool) (entry : OSMEntry) :
    (dispatch cfg flag entry).calls = [] := by
  cases entry with
  | node n => rfl
  | way w =>
    simp only [dispatch]
    split <;> rfl
  | relation r =>
    simp only [dispatch]
    split
    · exact calls_begin r
    · rfl

section

variable {cfg : Config} {c : InsertCall} {r : RelationEntry}

theorem kind_wayCalls {w : WayEntry} {coords : List Coord} (h : c ∈ wayCalls cfg w coords) :
    c.kind = .way ∨ c.kind = .area := by
  simp only [wayCalls] at h
  split at h
  · cases h
  · rw [List.mem_singleton.mp h]
    dsimp only
    split
    · exact .inr rfl
    · exact .inl rfl

theorem mem_multipolygonCalls {points : Int64 → List Coord} (h : c ∈ multipolygonCalls cfg r points) :
    c.kind = .area ∧ c.id = -r.id := by
  simp only [multipolygonCalls] at h
  split at h
  · cases h
  · obtain rfl := List.mem_singleton.mp h
    exact ⟨rfl, rfl⟩

theorem mem_relationCalls {geoms : List Str} (h : c ∈ relationCalls cfg r geoms) :
    (c.kind = .relation ∨ c.kind = .road) ∧ c.id = r.id := by
  simp only [relationCalls] at h
  generalize (if geoms.isEmpty then [] else mergeWayGeoms cfg.env.g_srid geoms) = rel_geog at h
  rcases List.mem_cons.mp h with rfl | h
  · exact ⟨.inl rfl, rfl⟩
  · split at h
    · obtain rfl := List.mem_singleton.mp h
      exact ⟨.inr rfl, rfl⟩
    · cases h

end

end WayThread

/-- A way thread sends rows, and calls the inserts of tables other than `nodes`. -/
structure WayThread.Inserting (t : WayThread) : Prop where
  calls : ∀ c ∈ t.pc.calls, c.kind ≠ .node
  outbox : CopiesOnly t.outbox

theorem WayThread.Step.inserting {cfg : Config} {t t' : WayThread} {act : Act} (h : Step cfg t act t')
    (ht : t.Inserting) : t'.Inserting ∧ ∀ txn, act = .commit txn → ∀ st ∈ txn, st.isCopy = true := by
  obtain ⟨hcalls, hout⟩ := ht
  cases h with
  | commit ho =>
    rw [ho] at hout
    obtain ⟨htxn, hrest⟩ := List.forall_mem_cons.mp hout
    refine ⟨⟨hcalls, hrest⟩, ?_⟩
    rintro _ ⟨rfl⟩
    exact htxn
  | take entry _ _ =>
    refine ⟨⟨fun c hc => ?_, hout⟩, nofun⟩
    replace hc : c ∈ (dispatch cfg t.way_phase_done entry).calls := hc
    rw [calls_dispatch] at hc
    cases hc
  | drained _ _ =>
    refine ⟨⟨?_, hout⟩, nofun⟩
    dsimp only
    split <;> exact nofun
  | located _ _ =>
    refine ⟨⟨fun c hc => ?_, hout⟩, nofun⟩
    rcases kind_wayCalls hc with hk | hk <;> simp [hk]
  | collected _ _ =>
    refine ⟨⟨fun c hc => ?_, hout⟩, nofun⟩
    rcases (mem_relationCalls hc).1 with hk | hk <;> simp [hk]
  | getWayCoordsMap _ _ _ =>
    refine ⟨⟨fun c hc => ?_, hout⟩, nofun⟩
    simp [(mem_multipolygonCalls hc).1]
  | @insert entry c calls _ hpc =>
    rw [hpc] at hcalls
    obtain ⟨hc, hrest⟩ := List.forall_mem_cons.mp hcalls
    exact ⟨⟨hrest, perform_insertCall_copies hc⟩, nofun⟩
  | inserted _ _ =>
    exact ⟨⟨nofun, perform_flushes_copies (run_finalize_roads accepting_acceptAll _)⟩, nofun⟩
  | finalizeWays _ _ =>
    exact ⟨⟨nofun, perform_flushes_copies (run_finalize_ways accepting_acceptAll _)⟩, nofun⟩
  | wakeRelation _ _ =>
    refine ⟨⟨fun c hc => ?_, hout⟩, nofun⟩
    rw [calls_begin] at hc
    cases hc
  | finalizeRelations _ _ =>
    exact ⟨⟨nofun, perform_flushes_copies (run_finalize_relations accepting_acceptAll _)⟩, nofun⟩
  | destroy _ _ => exact ⟨⟨nofun, perform_flushes_copies (run_destroy accepting_acceptAll _)⟩, nofun⟩
  | _ => exact ⟨⟨nofun, hout⟩, nofun⟩

end OsmImport
