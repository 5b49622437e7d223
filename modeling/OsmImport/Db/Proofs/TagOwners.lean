import OsmImport.Db.Postgres
import OsmImport.Db.Proofs.TagRouting

/-!
# Tags of rows that the server refuses

A flush of ways or areas copies the rows and then the pending tags. When the server refuses the rows,
`tryCopyBatch` takes bad rows out of the row buffer, or gives up, but the tag buffer stays as it is. So
what a flush writes to the tag table belongs to rows that the same flush committed exactly if the server
leaves every pending tag one of its rows (`Spared`).
-/

namespace OsmImport

open NavDB

/-! ## Flushes of a run -/

/-- The calls that store ways and areas. -/
inductive WayCall where
  | insertWay (id : Int64) (name : Str) (tags : Tags) (geog : Str)
  | insertArea (id : Int64) (name : Str) (tags : Tags) (geog : Str)
  | finalize_ways

def WayCall.op : WayCall → NavOp
  | .insertWay id name tags geog => .insertWay id name tags geog
  | .insertArea id name tags geog => .insertArea id name tags geog
  | .finalize_ways => .finalize_ways

/-- A step on any server. -/
def BufStep.exec (srv : Server) : BufStep → Exec Unit
  | .buffer k row tags => Prog.modify fun s => s.buffered k row tags
  | .flush k => NavDB.flush srv k

/-- The flushes of some steps, each with the session in which it starts. -/
def flushesOfSteps (srv : Server) : List BufStep → Session → List (Kind × Session)
  | [], _ => []
  | .buffer k row tags :: bs, s => flushesOfSteps srv bs (s.buffered k row tags)
  | .flush k :: bs, s => (k, s) :: match (NavDB.flush srv k).run s with
    | .done _ s' => flushesOfSteps srv bs s'
    | _ => []

/-- The flushes of a run; an exception and the death of the process end it. -/
def flushesOf (srv : Server) : List NavOp → Session → List (Kind × Session)
  | [], _ => []
  | op :: ops, s => flushesOfSteps srv (op.steps s) s ++ match (op.exec srv).run s with
    | .done _ s' => flushesOf srv ops s'
    | _ => []

/-- A call does its steps, on any server. -/
theorem exec_eq_steps (srv : Server) (op : NavOp) (s : Session) :
    (op.exec srv).run s = (Prog.forEach (op.steps s) (BufStep.exec srv)).run s := by
  have hflush : ∀ (k : Kind) (s : Session), (NavDB.flush srv k).run s =
      (Prog.forEach [BufStep.flush k] (BufStep.exec srv)).run s := by
    intro k s
    show _ = (NavDB.flush srv k >>= fun _ => pure ()).run s
    rw [Prog.run_bind]
    cases (NavDB.flush srv k).run s <;> rfl
  have hinsert : ∀ k row tags, (insertInto srv k row tags).run s =
      (Prog.forEach (BufStep.buffer k row tags :: if full (s.buffered k row tags).nav k then
        [BufStep.flush k] else []) (BufStep.exec srv)).run s := by
    intro k row tags
    have hrun : (insertInto srv k row tags).run s =
        (if full (s.buffered k row tags).nav k then NavDB.flush srv k else pure ()).run
          (s.buffered k row tags) := rfl
    rw [hrun]
    split
    · exact hflush k _
    · rfl
  cases op with
  | insertNode id name lon_m lat_m tags geog =>
    simp only [NavOp.exec, insertNode_eq, NavOp.steps, NavOp.entity]
    by_cases ht : tags.isEmpty
    · simp only [ht, if_true]
      rfl
    · simpa only [ht, if_false, Bool.false_eq_true] using hinsert _ _ _
  | insertWay id name tags geog =>
    show (NavDB.insertWay srv id name tags geog).run s = _
    rw [insertWay_eq]
    exact hinsert _ _ _
  | insertArea id name tags geog =>
    show (NavDB.insertArea srv id name tags geog).run s = _
    rw [insertArea_eq]
    exact hinsert _ _ _
  | insertRoad id name tags geog =>
    show (NavDB.insertRoad srv id name tags geog).run s = _
    rw [insertRoad_eq]
    exact hinsert _ _ _
  | insertRelation id name tags geog =>
    show (NavDB.insertRelation srv id name tags geog).run s = _
    rw [insertRelation_eq]
    exact hinsert _ _ _
  | finalize_nodes => exact hflush .node s
  | finalize_ways =>
    show (flushWays srv >>= fun _ => flushAreas srv).run s =
      (flushWays srv >>= fun _ => Prog.forEach [BufStep.flush .area] (BufStep.exec srv)).run s
    rw [Prog.run_bind, Prog.run_bind]
    cases (flushWays srv).run s with
    | done a s' => exact hflush .area s'
    | threw e s' => rfl
    | died s' => rfl
  | finalize_roads => exact hflush .road s
  | finalize_relations => exact hflush .relation s

/-! ## Tags and their rows -/

/-- Every tag row belongs to one of the rows. -/
def RowsCover (rows : List Row) (tags : List TagRow) : Prop := ∀ t ∈ tags, ∃ r ∈ rows, r.id = t.id

/-- What a flush from `s` to `s'` wrote to the tag table belongs to rows that it committed. -/
def Owned (k : Kind) (s s' : Session) : Prop :=
  ∃ rows tags, s'.db.rows k = s.db.rows k ++ rows ∧ s'.db.tags k = s.db.tags k ++ tags ∧
    RowsCover rows tags

/-- The session of `tryCopyBatch` behind a round in which row `idx` is taken out. -/
def Session.withoutRow (s : Session) (k : Kind) (e : SqlError) (idx : ℕ) : Session :=
  (s.record (.sent [.copy k (s.nav.buf k)] (.error e))).setBuf k ((s.nav.buf k).eraseIdx idx)

/-- The answers of the server in the rounds of `tryCopyBatch` leave every pending tag one of its rows:
the rows that are accepted at last include one, and the rows are not given up. An answer that ends the
flush with an exception keeps the tags from being written. -/
def KeepsTagged (srv : Server) (k : Kind) : ℕ → Session → Prop
  | 0, s => s.nav.tagBuf (bufOf k) = []
  | n + 1, s =>
    if (s.nav.buf k).isEmpty then s.nav.tagBuf (bufOf k) = []
    else match srv.respond s.log s.db [.copy k (s.nav.buf k)] with
      | .ok => RowsCover (s.nav.buf k) (s.nav.tagBuf (bufOf k))
      | .error .noLine => s.nav.tagBuf (bufOf k) = []
      | .error .badLine => True
      | .error (.line line) =>
        if line - 1 < 0 ∨ line - 1 ≥ (s.nav.buf k).length then s.nav.tagBuf (bufOf k) = []
        else KeepsTagged srv k n (s.withoutRow k (.line line) (line - 1).toNat)
      | .died _ => True

/-- The condition on a flush from `s`: if the server refuses the rows at first, then the rounds behind
leave every pending tag one of its rows. -/
def Spared (srv : Server) (k : Kind) (s : Session) : Prop :=
  s.nav.buf k ≠ [] → ∀ e, srv.respond s.log s.db [.copy k (s.nav.buf k)] = .error e →
    KeepsTagged srv k (s.nav.buf k).length (s.record (.sent [.copy k (s.nav.buf k)] (.error e)))

/-- The server accepts every COPY of tags. -/
def AcceptsTags (srv : Server) : Prop :=
  ∀ log db k rows, srv.respond log db [.copyTags k rows] = .ok

/-- Pending tags of ways and areas have a buffered row. -/
def Accompanied (s : Session) : Prop :=
  RowsCover (s.nav.buf .way) (s.nav.tagBuf .way) ∧ RowsCover (s.nav.buf .area) (s.nav.tagBuf .area)

theorem rowsCover_nil_left {tags : List TagRow} : RowsCover [] tags ↔ tags = [] := by
  constructor
  · intro h
    refine List.eq_nil_iff_forall_not_mem.mpr fun t ht => ?_
    obtain ⟨r, hr, -⟩ := h t ht
    exact List.not_mem_nil hr
  · rintro rfl t ht
    exact absurd ht List.not_mem_nil

theorem rowsCover_nil_right (rows : List Row) : RowsCover rows [] := fun _ ht => absurd ht List.not_mem_nil

/-! ## The rows of a flush -/

/-- The rows have been committed, and the tags still wait. -/
structure Copied (k : Kind) (s s' : Session) (rows : List Row) : Prop where
  rows : s'.db.rows k = s.db.rows k ++ rows
  tags : s'.db.tags k = s.db.tags k
  tagBuf : s'.nav.tagBuf = s.nav.tagBuf
  buf : ∀ j, j ≠ k → s'.nav.buf j = s.nav.buf j

variable {srv : Server} {k : Kind}

theorem copied_record (s : Session) (e : Event) : Copied k s (s.record e) [] :=
  ⟨(List.append_nil _).symm, rfl, rfl, fun _ _ => rfl⟩

theorem copied_committed (s : Session) (rows : List Row) (r : Response) :
    Copied k s (s.committed [.copy k rows] r) rows :=
  ⟨Function.update_self .., rfl, rfl, fun _ _ => rfl⟩

theorem copied_withoutRow {s s' : Session} {e : SqlError} {idx : ℕ} {rows : List Row}
    (h : Copied k (s.withoutRow k e idx) s' rows) : Copied k s s' rows :=
  ⟨h.rows, h.tags, h.tagBuf, fun j hj => (h.buf j hj).trans (Function.update_of_ne hj ..)⟩

/-- The rows of a flush end with those that are accepted, and the tags are spared exactly if these
rows cover them. -/
theorem tryCopyBatch_spec (n : ℕ) (s : Session) :
    Prog.Ensures (tryCopyBatch srv k n) s
      (fun _ s' => ∃ rows, Copied k s s' rows ∧
        (KeepsTagged srv k n s ↔ RowsCover rows (s.nav.tagBuf (bufOf k))))
      (fun _ s' => ∃ rows, Copied k s s' rows ∧ KeepsTagged srv k n s)
      (fun s' => ∃ rows, Copied k s s' rows ∧ KeepsTagged srv k n s) := by
  have hsame : ∀ s : Session, Copied k s s [] :=
    fun s => ⟨(List.append_nil _).symm, rfl, rfl, fun _ _ => rfl⟩
  induction n generalizing s with
  | zero => exact ⟨[], hsame s, rowsCover_nil_left.symm⟩
  | succ n ih =>
    apply Prog.ensures_get_bind
    unfold KeepsTagged
    dsimp only
    split
    · exact ⟨[], hsame s, rowsCover_nil_left.symm⟩
    · apply Prog.ensures_bind
      apply Prog.ensures_attempt
      cases hr : srv.respond s.log s.db [.copy k (s.nav.buf k)] with
      | ok =>
        simp only [Prog.Ensures, send, hr]
        exact ⟨_, copied_committed s _ _, Iff.rfl⟩
      | died c =>
        cases c with
        | true =>
          simp only [Prog.Ensures, send, hr]
          exact ⟨_, copied_committed s _ _, trivial⟩
        | false =>
          simp only [Prog.Ensures, send, hr]
          exact ⟨[], copied_record s _, trivial⟩
      | error e =>
        have hsend : (send srv [.copy k (s.nav.buf k)]).run s =
            .threw e (s.record (.sent [.copy k (s.nav.buf k)] (.error e))) := by
          simp only [send, hr]
        simp only [Prog.Ensures, hsend]
        cases e with
        | noLine => exact ⟨[], copied_record s _, rowsCover_nil_left.symm⟩
        | badLine => exact ⟨[], copied_record s _, trivial⟩
        | line line =>
          dsimp only
          by_cases hidx : line - 1 < 0 ∨ line - 1 ≥ (s.nav.buf k).length
          · simp only [hidx, if_true]
            exact ⟨[], copied_record s _, rowsCover_nil_left.symm⟩
          · simp only [hidx, if_false]
            refine (ih (s.withoutRow k (.line line) (line - 1).toNat)).mono ?_ ?_ ?_
            · rintro m s' ⟨rows, hc, hiff⟩
              exact ⟨rows, copied_withoutRow hc, hiff⟩
            · rintro e s' ⟨rows, hc, hk⟩
              exact ⟨rows, copied_withoutRow hc, hk⟩
            · rintro s' ⟨rows, hc, hk⟩
              exact ⟨rows, copied_withoutRow hc, hk⟩

/-! ## A flush -/

/-- A flush that ends in `s'` meets the property under the condition, and, if no COPY of tags is refused,
only under it. -/
def Fair (srv : Server) (k : Kind) (s s' : Session) : Prop :=
  (Spared srv k s → Owned k s s') ∧ (AcceptsTags srv → Owned k s s' → Spared srv k s)

/-- The buffers of a table are empty and the others are as they were. -/
structure BuffersEmptied (k : Kind) (s s' : Session) : Prop where
  self : s'.nav.buf k = []
  other : ∀ j, j ≠ k → s'.nav.buf j = s.nav.buf j
  tagBuf : s'.nav.tagBuf = Function.update s.nav.tagBuf (bufOf k) []

/-- Nothing was written to the tag table. -/
theorem fair_of_no_tags {s s' : Session} {rows : List Row} (hrows : s'.db.rows k = s.db.rows k ++ rows)
    (htags : s'.db.tags k = s.db.tags k) (h : AcceptsTags srv → Spared srv k s) : Fair srv k s s' :=
  ⟨fun _ => ⟨rows, [], hrows, by rw [htags, List.append_nil], rowsCover_nil_right rows⟩,
    fun hacc _ => h hacc⟩

/-- The pending tags were written. -/
theorem fair_of_tags {s s' : Session} {rows : List Row} (hrows : s'.db.rows k = s.db.rows k ++ rows)
    (htags : s'.db.tags k = s.db.tags k ++ s.nav.tagBuf (bufOf k))
    (h : Spared srv k s ↔ RowsCover rows (s.nav.tagBuf (bufOf k))) : Fair srv k s s' := by
  refine ⟨fun hsp => ⟨rows, _, hrows, htags, h.mp hsp⟩, ?_⟩
  rintro - ⟨rows', tags', hrows', htags', hcov⟩
  rw [hrows] at hrows'
  rw [htags] at htags'
  obtain rfl := List.append_cancel_left hrows'
  obtain rfl := List.append_cancel_left htags'
  exact h.mpr hcov

/-- The tags behind the rows. -/
theorem finalize_tags_fair {s s' : Session} {rows : List Row} (hc : Copied k s s' rows)
    (h : Spared srv k s ↔ RowsCover rows (s.nav.tagBuf (bufOf k))) :
    Prog.Ensures (do finalize_tags srv k; Prog.modify fun s => s.setBuf k []) s'
      (fun _ t => Fair srv k s t ∧ BuffersEmptied k s t) (fun _ => Fair srv k s) (Fair srv k s) := by
  apply Prog.ensures_bind
  unfold finalize_tags
  apply Prog.ensures_get_bind
  rw [hc.tagBuf]
  dsimp only
  split
  · rename_i hempty
    have hnil : s.nav.tagBuf (bufOf k) = [] := List.isEmpty_iff.mp hempty
    rw [hnil] at h
    refine ⟨fair_of_no_tags hc.rows hc.tags fun _ => h.mpr (rowsCover_nil_right rows), ?_⟩
    refine ⟨Function.update_self .., fun j hj => ?_, ?_⟩
    · exact (Function.update_of_ne hj ..).trans (hc.buf j hj)
    · rw [← hnil, Function.update_eq_self]
      exact hc.tagBuf
  · apply Prog.ensures_bind
    cases hr : srv.respond s'.log s'.db [.copyTags k (s.nav.tagBuf (bufOf k))] with
    | ok =>
      simp only [Prog.Ensures, send, hr]
      refine ⟨fair_of_tags hc.rows ?_ h, Function.update_self .., fun j hj => ?_, ?_⟩
      · show Function.update s'.db.tags k _ k = _
        rw [Function.update_self, hc.tags]
      · exact (Function.update_of_ne hj ..).trans (hc.buf j hj)
      · exact congrArg (Function.update · (bufOf k) []) hc.tagBuf
    | error e =>
      simp only [Prog.Ensures, send, hr]
      refine fair_of_no_tags hc.rows hc.tags fun hacc => ?_
      rw [hacc] at hr
      cases hr
    | died c =>
      have hnot : ¬ AcceptsTags srv := fun hacc => by
        rw [hacc] at hr
        cases hr
      cases c with
      | true =>
        simp only [Prog.Ensures, send, hr]
        refine fair_of_tags hc.rows ?_ h
        show Function.update s'.db.tags k _ k = _
        rw [Function.update_self, hc.tags]
      | false =>
        simp only [Prog.Ensures, send, hr]
        exact fair_of_no_tags hc.rows hc.tags fun hacc => absurd hacc hnot

/-- A flush of ways or areas, from a session whose pending tags have their rows. -/
theorem flushViaTemp_fair (srv : Server) {s : Session}
    (hs : RowsCover (s.nav.buf k) (s.nav.tagBuf (bufOf k))) :
    Prog.Ensures (flushViaTemp srv k) s (fun _ t => Fair srv k s t ∧ BuffersEmptied k s t)
      (fun _ => Fair srv k s) (Fair srv k s) := by
  apply Prog.ensures_get_bind
  dsimp only
  split
  · rename_i hempty
    have hnil : s.nav.buf k = [] := List.isEmpty_iff.mp hempty
    have htags : s.nav.tagBuf (bufOf k) = [] := rowsCover_nil_left.mp (hnil ▸ hs)
    refine ⟨fair_of_no_tags (List.append_nil _).symm rfl fun _ hne => absurd hnil hne, ?_⟩
    refine ⟨hnil, fun _ _ => rfl, ?_⟩
    rw [← htags, Function.update_eq_self]
  · rename_i hempty
    have hne : s.nav.buf k ≠ [] := fun h => hempty (List.isEmpty_iff.mpr h)
    have hsent : ∀ {r}, srv.respond s.log s.db [.copy k (s.nav.buf k)] = r →
        (∀ e, r ≠ .error e) → Spared srv k s := by
      intro r hr hno _ e he
      exact absurd (hr.symm.trans he) (hno e)
    apply Prog.ensures_bind
    apply Prog.ensures_attempt
    cases hr : srv.respond s.log s.db [.copy k (s.nav.buf k)] with
    | ok =>
      simp only [Prog.Ensures, send, hr]
      have hspared : Spared srv k s := hsent hr fun e => by simp
      exact finalize_tags_fair (copied_committed s _ _) (iff_of_true hspared hs)
    | died c =>
      have hspared : Spared srv k s := hsent hr fun e => by simp
      cases c with
      | true =>
        simp only [Prog.Ensures, send, hr]
        exact fair_of_no_tags (copied_committed s _ _).rows rfl fun _ => hspared
      | false =>
        simp only [Prog.Ensures, send, hr]
        exact fair_of_no_tags (copied_record s _).rows rfl fun _ => hspared
    | error e =>
      have hsend : (send srv [.copy k (s.nav.buf k)]).run s =
          .threw e (s.record (.sent [.copy k (s.nav.buf k)] (.error e))) := by
        simp only [send, hr]
      have hspared : Spared srv k s ↔ KeepsTagged srv k (s.nav.buf k).length
          (s.record (.sent [.copy k (s.nav.buf k)] (.error e))) := by
        refine ⟨fun h => h hne e hr, fun h _ e' he' => ?_⟩
        obtain rfl : e = e' := by simpa [hr] using he'
        exact h
      simp only [Prog.Ensures, hsend]
      apply Prog.ensures_bind
      refine (tryCopyBatch_spec _ _).mono ?_ ?_ ?_
      · rintro n s' ⟨rows, hc, hiff⟩
        exact finalize_tags_fair ⟨hc.rows, hc.tags, hc.tagBuf, hc.buf⟩ (hspared.trans hiff)
      · rintro e' s' ⟨rows, hc, hk⟩
        exact fair_of_no_tags hc.rows hc.tags fun _ => hspared.mpr hk
      · rintro s' ⟨rows, hc, hk⟩
        exact fair_of_no_tags hc.rows hc.tags fun _ => hspared.mpr hk

/-! ## The flushes of a run -/

/-- The step is about ways or areas. -/
def BufStep.OnWays : BufStep → Prop
  | .buffer k _ _ => k = .way ∨ k = .area
  | .flush k => k = .way ∨ k = .area

theorem onWays_steps (c : WayCall) (s : Session) : ∀ b ∈ c.op.steps s, b.OnWays := by
  intro b hb
  cases c with
  | insertWay id name tags geog =>
    rcases List.mem_cons.mp hb with rfl | hb
    · exact .inl rfl
    · split at hb
      · rw [List.mem_singleton.mp hb]
        exact .inl rfl
      · exact absurd hb List.not_mem_nil
  | insertArea id name tags geog =>
    rcases List.mem_cons.mp hb with rfl | hb
    · exact .inr rfl
    · split at hb
      · rw [List.mem_singleton.mp hb]
        exact .inr rfl
      · exact absurd hb List.not_mem_nil
  | finalize_ways =>
    rcases List.mem_cons.mp hb with rfl | hb
    · exact .inl rfl
    · rw [List.mem_singleton.mp hb]
      exact .inr rfl

theorem rowsCover_append {rows : List Row} {tags : List TagRow} (h : RowsCover rows tags) (row : Row)
    (ts : Tags) : RowsCover (rows ++ [row]) (tags ++ tagRows row.id ts) := by
  intro t ht
  rcases List.mem_append.mp ht with ht | ht
  · obtain ⟨r, hr, hid⟩ := h t ht
    exact ⟨r, List.mem_append_left _ hr, hid⟩
  · obtain ⟨kv, -, rfl⟩ := List.mem_map.mp ht
    exact ⟨row, List.mem_append_right _ List.mem_cons_self, rfl⟩

theorem accompanied_buffered {s : Session} (h : Accompanied s) {k : Kind} (hk : k = .way ∨ k = .area)
    (row : Row) (tags : Tags) : Accompanied (s.buffered k row tags) := by
  rcases hk with rfl | rfl
  · exact ⟨rowsCover_append h.1 row tags, h.2⟩
  · exact ⟨h.1, rowsCover_append h.2 row tags⟩

theorem flush_fair (srv : Server) {s : Session} (h : Accompanied s) (hk : k = .way ∨ k = .area) :
    Prog.Ensures (NavDB.flush srv k) s (fun _ t => Fair srv k s t ∧ Accompanied t)
      (fun _ => Fair srv k s) (Fair srv k s) := by
  rcases hk with rfl | rfl
  · refine (flushViaTemp_fair (k := .way) srv h.1).done ?_
    rintro - t ⟨hf, he⟩
    refine ⟨hf, ?_, ?_⟩
    · rw [he.self, he.tagBuf]
      exact rowsCover_nil_right []
    · rw [he.other .area (by decide), he.tagBuf]
      exact h.2
  · refine (flushViaTemp_fair (k := .area) srv h.2).done ?_
    rintro - t ⟨hf, he⟩
    refine ⟨hf, ?_, ?_⟩
    · rw [he.other .way (by decide), he.tagBuf]
      exact h.1
    · rw [he.self, he.tagBuf]
      exact rowsCover_nil_right []

/-- The flush, where it starts, meets the property under its condition. -/
def FairFlush (srv : Server) (f : Kind × Session) : Prop :=
  Fair srv f.1 f.2 ((NavDB.flush srv f.1).run f.2).state

theorem fair_steps (srv : Server) (bs : List BufStep) {s : Session} (h : Accompanied s)
    (hbs : ∀ b ∈ bs, b.OnWays) :
    (∀ f ∈ flushesOfSteps srv bs s, FairFlush srv f) ∧
      ∀ s', (Prog.forEach bs (BufStep.exec srv)).run s = .done () s' → Accompanied s' := by
  induction bs generalizing s with
  | nil =>
    refine ⟨fun f hf => absurd hf List.not_mem_nil, fun s' hs' => ?_⟩
    obtain rfl : s = s' := by simpa [Prog.forEach] using hs'
    exact h
  | cons b bs ih =>
    have hrest : ∀ b ∈ bs, b.OnWays := fun b' hb' => hbs b' (List.mem_cons_of_mem _ hb')
    cases b with
    | buffer k row tags =>
      exact ih (accompanied_buffered h (hbs _ List.mem_cons_self) row tags) hrest
    | flush k =>
      have hfair := flush_fair srv h (hbs _ List.mem_cons_self)
      unfold Prog.Ensures at hfair
      show (∀ f ∈ (k, s) :: _, FairFlush srv f) ∧ ∀ s', (NavDB.flush srv k >>= fun _ =>
        Prog.forEach bs (BufStep.exec srv)).run s = .done () s' → Accompanied s'
      rw [Prog.run_bind]
      cases hrun : (NavDB.flush srv k).run s with
      | done a t =>
        rw [hrun] at hfair
        obtain ⟨hflushes, hend⟩ := ih hfair.2 hrest
        refine ⟨fun f hf => ?_, hend⟩
        rcases List.mem_cons.mp hf with rfl | hf
        · rw [FairFlush, hrun]
          exact hfair.1
        · exact hflushes f hf
      | threw e t =>
        rw [hrun] at hfair
        refine ⟨fun f hf => ?_, fun s' hs' => by simp at hs'⟩
        rw [List.mem_singleton.mp hf, FairFlush, hrun]
        exact hfair
      | died t =>
        rw [hrun] at hfair
        refine ⟨fun f hf => ?_, fun s' hs' => by simp at hs'⟩
        rw [List.mem_singleton.mp hf, FairFlush, hrun]
        exact hfair

theorem fair_run (srv : Server) (calls : List WayCall) {s : Session} (h : Accompanied s) :
    ∀ f ∈ flushesOf srv (calls.map WayCall.op) s, FairFlush srv f := by
  induction calls generalizing s with
  | nil => exact fun f hf => absurd hf List.not_mem_nil
  | cons c calls ih =>
    obtain ⟨hflushes, hend⟩ := fair_steps srv (c.op.steps s) h (onWays_steps c s)
    intro f hf
    rcases List.mem_append.mp hf with hf | hf
    · exact hflushes f hf
    · cases hrun : (c.op.exec srv).run s with
      | done a s' =>
        rw [hrun] at hf
        exact ih (hend s' (exec_eq_steps srv c.op s ▸ hrun)) f hf
      | threw e s' =>
        rw [hrun] at hf
        exact absurd hf List.not_mem_nil
      | died s' =>
        rw [hrun] at hf
        exact absurd hf List.not_mem_nil

theorem accompanied_of_idle {s : Session} (h : Idle s) : Accompanied s := by
  constructor
  · rw [h.2]
    exact rowsCover_nil_right _
  · rw [h.2]
    exact rowsCover_nil_right _

/-- What a flush that ends in `s'` wrote, if it is owned, keeps every tag row with its row. -/
theorem Owned.withRows {s s' : Session} (h : Owned k s s') (hs : RowsCover (s.db.rows k) (s.db.tags k)) :
    RowsCover (s'.db.rows k) (s'.db.tags k) := by
  obtain ⟨rows, tags, hrows, htags, hcov⟩ := h
  rw [hrows, htags]
  intro t ht
  rcases List.mem_append.mp ht with ht | ht
  · obtain ⟨r, hr, hid⟩ := hs t ht
    exact ⟨r, List.mem_append_left _ hr, hid⟩
  · obtain ⟨r, hr, hid⟩ := hcov t ht
    exact ⟨r, List.mem_append_right _ hr, hid⟩

/-- **Owners of tags.** In a run of inserts of ways and areas, on any server, if the answers of the
server spare the tags of every flush, then every flush writes tags only of rows that it committed, and
keeps every tag of its table with a row; and if no COPY of tags is refused, it does so only then. -/
theorem tags_owned {srv : Server} {s : Session} (hs : Idle s) (calls : List WayCall) :
    ((∀ f ∈ flushesOf srv (calls.map WayCall.op) s, Spared srv f.1 f.2) →
      ∀ f ∈ flushesOf srv (calls.map WayCall.op) s,
        Owned f.1 f.2 ((NavDB.flush srv f.1).run f.2).state ∧
        (RowsCover (f.2.db.rows f.1) (f.2.db.tags f.1) →
          RowsCover (((NavDB.flush srv f.1).run f.2).state.db.rows f.1)
            (((NavDB.flush srv f.1).run f.2).state.db.tags f.1))) ∧
    (AcceptsTags srv →
      (∀ f ∈ flushesOf srv (calls.map WayCall.op) s,
        Owned f.1 f.2 ((NavDB.flush srv f.1).run f.2).state) →
      ∀ f ∈ flushesOf srv (calls.map WayCall.op) s, Spared srv f.1 f.2) := by
  have hfair := fair_run srv calls (accompanied_of_idle hs)
  refine ⟨fun h f hf => ?_, fun hacc h f hf => (hfair f hf).2 hacc (h f hf)⟩
  have howned := (hfair f hf).1 (h f hf)
  exact ⟨howned, howned.withRows⟩

/-- An empty text is no geometry. -/
def geometryFits : Checks := ⟨fun _ r => decide (r.geog ≠ some []), fun _ => true⟩

/-- A way without tags is refused beside one with tags that is taken. -/
theorem tags_owned_untagged :
    let calls : List WayCall := [.insertWay 5 [] Tags.none [],
      .insertWay 6 [] highwayTag (str "01"), .finalize_ways]
    ∀ f ∈ flushesOf (postgres geometryFits) (calls.map WayCall.op) idleSession,
      Owned f.1 f.2 ((NavDB.flush (postgres geometryFits) f.1).run f.2).state := by
  intro calls
  have hs : Idle idleSession := ⟨fun _ => rfl, fun _ => rfl⟩
  have hspared : ∀ f ∈ flushesOf (postgres geometryFits) (calls.map WayCall.op) idleSession,
      Spared (postgres geometryFits) f.1 f.2 := by
    intro f hf
    rcases List.mem_cons.mp hf with rfl | hf
    · intro _ e he
      obtain rfl : SqlError.line 1 = e := Response.error.inj he
      show RowsCover [⟨6, [], none, some (str "01")⟩] [⟨6, str "highway", str "a1"⟩]
      intro t ht
      rw [List.mem_singleton.mp ht]
      exact ⟨_, List.mem_cons_self, rfl⟩
    · rcases List.mem_cons.mp hf with rfl | hf
      · exact fun hne => absurd rfl hne
      · exact absurd hf List.not_mem_nil
  exact fun f hf => ((tags_owned hs calls).1 hspared f hf).1

/-- The only way of a run has no geometry: it is not stored, but its tag is. -/
theorem refused_way_leaves_tags :
    let calls : List WayCall := [.insertWay 5 [] highwayTag [], .finalize_ways]
    ∃ f ∈ flushesOf (postgres geometryFits) (calls.map WayCall.op) idleSession, f.1 = .way ∧
      ((NavDB.flush (postgres geometryFits) f.1).run f.2).state.db.rows .way = [] ∧
      ((NavDB.flush (postgres geometryFits) f.1).run f.2).state.db.tags .way =
        [⟨5, str "highway", str "a1"⟩] ∧
      ¬ Owned f.1 f.2 ((NavDB.flush (postgres geometryFits) f.1).run f.2).state := by
  intro calls
  have hnot : ∀ s s' : Session, s.db = idleSession.db → s'.db.rows .way = [] →
      s'.db.tags .way = [⟨5, str "highway", str "a1"⟩] → ¬ Owned .way s s' := by
    rintro s s' hs hrows htags ⟨rows, tags, hr, ht, hcov⟩
    rw [hs, hrows] at hr
    rw [hs, htags] at ht
    have hnil : rows = [] := (List.append_eq_nil_iff.mp hr.symm).2
    have htag : tags = [⟨5, str "highway", str "a1"⟩] := ht.symm
    rw [hnil, htag] at hcov
    exact absurd (rowsCover_nil_left.mp hcov) (by simp)
  refine ⟨(.way, idleSession.buffered .way ⟨5, [], none, some []⟩ highwayTag),
    List.mem_cons_self, rfl, ?_, ?_, hnot _ _ rfl ?_ ?_⟩
  · decide
  · decide
  · decide
  · decide

end OsmImport
