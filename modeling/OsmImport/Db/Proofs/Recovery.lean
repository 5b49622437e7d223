import OsmImport.Db.Proofs.Settled
import OsmImport.Db.Proofs.TagOwners

/-!
# The rounds of `tryCopyBatch`

A round sends what is left of the buffer. It ends the loop, or the error names a row, which is taken out.
On a server that names the first row that does not fit, what is written in the end is what the rows would
leave in the table one by one. In general the loop also ends when an error names no row, and then the
number that it returns is that of the rows that are left, although none was written.
-/

namespace OsmImport

open NavDB KeyedInsert Postgres

/-- The row of a buffer with `len` rows that an error names. -/
def SqlError.row (len : ℕ) : SqlError → Option ℕ
  | .line n => if n - 1 < 0 ∨ n - 1 ≥ len then none else some (n - 1).toNat
  | _ => none

theorem SqlError.row_lt {e : SqlError} {len i : ℕ} (h : e.row len = some i) : i < len := by
  cases e with
  | line n =>
    rw [SqlError.row] at h
    split at h
    · cases h
    · obtain rfl := Option.some.inj h
      omega
  | noLine => cases h
  | badLine => cases h

variable {srv : Server} {k : Kind} {s : Session}

/-! ## One round -/

theorem tryCopyBatch_empty (n : ℕ) (h : s.nav.buf k = []) : (tryCopyBatch srv k n).run s = .done 0 s := by
  cases n with
  | zero =>
    show Outcome.done (s.nav.buf k).length s = _
    rw [h]
    rfl
  | succ n =>
    unfold tryCopyBatch
    rw [Prog.run_get_bind, h]
    rfl

theorem tryCopyBatch_ok (n : ℕ) (hbuf : s.nav.buf k ≠ [])
    (hr : srv.respond s.log s.db [.copy k (s.nav.buf k)] = .ok) :
    (tryCopyBatch srv k (n + 1)).run s =
      .done (s.nav.buf k).length (s.committed [.copy k (s.nav.buf k)] .ok) := by
  rw [tryCopyBatch, Prog.run_get_bind]
  dsimp only
  rw [if_neg (mt List.isEmpty_iff.mp hbuf), Prog.run_bind_done (Prog.run_attempt_done (send_ok hr))]
  rfl

theorem tryCopyBatch_died (n : ℕ) (hbuf : s.nav.buf k ≠ []) {committed : Bool}
    (hr : srv.respond s.log s.db [.copy k (s.nav.buf k)] = .died committed) :
    (tryCopyBatch srv k (n + 1)).run s = .died ((send srv [.copy k (s.nav.buf k)]).run s).state := by
  rw [tryCopyBatch, Prog.run_get_bind]
  dsimp only
  rw [if_neg (mt List.isEmpty_iff.mp hbuf), Prog.run_bind]
  cases committed <;> simp only [Prog.attempt, send, hr, Outcome.state]

/-- A round that is refused, up to what it does with the error. -/
theorem tryCopyBatch_error (n : ℕ) (hbuf : s.nav.buf k ≠ []) {e : SqlError}
    (hr : srv.respond s.log s.db [.copy k (s.nav.buf k)] = .error e) :
    (e = .badLine ∧ (tryCopyBatch srv k (n + 1)).run s =
      .threw .noLine (s.record (.sent [.copy k (s.nav.buf k)] (.error e)))) ∨
    (e ≠ .badLine ∧ e.row (s.nav.buf k).length = none ∧ (tryCopyBatch srv k (n + 1)).run s =
      .done (s.nav.buf k).length (s.record (.sent [.copy k (s.nav.buf k)] (.error e)))) ∨
    ∃ i, e.row (s.nav.buf k).length = some i ∧
      (tryCopyBatch srv k (n + 1)).run s = (tryCopyBatch srv k n).run (s.withoutRow k e i) := by
  have hempty : (s.nav.buf k).isEmpty ≠ true := mt List.isEmpty_iff.mp hbuf
  have hround := Prog.run_attempt_threw (send_error hr)
  rw [tryCopyBatch, Prog.run_get_bind]
  dsimp only
  rw [if_neg hempty, Prog.run_bind_done hround]
  cases e with
  | badLine => exact .inl ⟨rfl, rfl⟩
  | noLine => exact .inr (.inl ⟨(fun h => by cases h), rfl, rfl⟩)
  | line line =>
    dsimp only
    by_cases hidx : line - 1 < 0 ∨ line - 1 ≥ (s.nav.buf k).length
    · rw [if_pos hidx]
      exact .inr (.inl ⟨(fun h => by cases h), if_pos hidx, rfl⟩)
    · rw [if_neg hidx]
      exact .inr (.inr ⟨(line - 1).toNat, if_neg hidx, rfl⟩)

theorem length_withoutRow {e : SqlError} {i : ℕ} (hi : e.row (s.nav.buf k).length = some i) :
    ((s.withoutRow k e i).nav.buf k).length + 1 = (s.nav.buf k).length := by
  have hlt := SqlError.row_lt hi
  show (Function.update s.nav.buf k _ k).length + 1 = _
  rw [Function.update_self, List.length_eraseIdx_of_lt hlt]
  omega

/-- **The loop ends.** It has no more rounds than the buffer has rows, whatever the server answers: a
greater bound changes nothing. -/
theorem tryCopyBatch_rounds (srv : Server) (k : Kind) (s : Session) {n : ℕ}
    (hn : (s.nav.buf k).length ≤ n) :
    (tryCopyBatch srv k n).run s = (tryCopyBatch srv k (s.nav.buf k).length).run s := by
  induction n generalizing s with
  | zero => rw [Nat.le_zero.mp hn]
  | succ n ih =>
    by_cases hbuf : s.nav.buf k = []
    · rw [tryCopyBatch_empty _ hbuf, tryCopyBatch_empty _ hbuf]
    · obtain ⟨m, hm⟩ := Nat.exists_eq_succ_of_ne_zero (mt List.length_eq_zero_iff.mp hbuf)
      rw [hm]
      cases hr : srv.respond s.log s.db [.copy k (s.nav.buf k)] with
      | ok => rw [tryCopyBatch_ok n hbuf hr, tryCopyBatch_ok m hbuf hr]
      | died committed => rw [tryCopyBatch_died n hbuf hr, tryCopyBatch_died m hbuf hr]
      | error e =>
        rcases tryCopyBatch_error n hbuf hr with ⟨rfl, hrun⟩ | ⟨hne, hrow, hrun⟩ | ⟨i, hi, hrun⟩
        · rcases tryCopyBatch_error m hbuf hr with ⟨-, hrun'⟩ | ⟨hne, -⟩ | ⟨i, hi, -⟩
          · rw [hrun, hrun']
          · exact absurd rfl hne
          · cases hi
        · rcases tryCopyBatch_error m hbuf hr with ⟨rfl, -⟩ | ⟨-, -, hrun'⟩ | ⟨i, hi, -⟩
          · exact absurd rfl hne
          · rw [hrun, hrun']
          · rw [hrow] at hi
            cases hi
        · rcases tryCopyBatch_error m hbuf hr with ⟨rfl, -⟩ | ⟨-, hrow, -⟩ | ⟨j, hj, hrun'⟩
          · cases hi
          · rw [hrow] at hi
            cases hi
          · obtain rfl := Option.some.inj (hi.symm.trans hj)
            have hlen := length_withoutRow hi
            rw [hrun, hrun', ih _ (by omega)]
            congr
            omega

/-! ## What is reported -/

/-- A server that gives these replies to what is sent from some event on, whatever it is. -/
def scripted (start : ℕ) (replies : ℕ → Option SqlError) : Server where
  respond log _ _ := (replies (log.length - start)).elim .ok .error
  answers _ _ := true

/-- A reply that names a row of a buffer with `len` rows. -/
def NamesRow (reply : Option SqlError) (len : ℕ) : Prop := ∃ e, reply = some e ∧ e.row len ≠ none

/-- From the reply `i` on, to a buffer with `len` rows: the first reply that names no row of what is left
of the buffer is a success, or all rows are taken out before there is one. -/
def Recovers (replies : ℕ → Option SqlError) : ℕ → ℕ → Prop
  | _, 0 => True
  | i, len + 1 => replies i = none ∨ NamesRow (replies i) (len + 1) ∧ Recovers replies (i + 1) len

/-- The number that `tryCopyBatch` returns is that of the rows that it has committed. -/
def Reports (srv : Server) (k : Kind) (s : Session) : Prop :=
  ∃ m s', (tryCopyBatch srv k (s.nav.buf k).length).run s = .done m s' ∧
    (s'.db.rows k).length = (s.db.rows k).length + m

theorem not_recovers {replies : ℕ → Option SqlError} {i len : ℕ} {e : SqlError}
    (hi : replies i = some e) (hrow : e.row (len + 1) = none) : ¬ Recovers replies i (len + 1) := by
  rintro (h | ⟨⟨e', he, hrow'⟩, -⟩)
  · rw [hi] at h
    cases h
  · rw [hi] at he
    obtain rfl := Option.some.inj he
    exact hrow' hrow

theorem recovers_named {replies : ℕ → Option SqlError} {i len j : ℕ} {e : SqlError}
    (hi : replies i = some e) (hrow : e.row (len + 1) = some j) :
    Recovers replies i (len + 1) ↔ Recovers replies (i + 1) len := by
  constructor
  · rintro (h | ⟨-, h⟩)
    · rw [hi] at h
      cases h
    · exact h
  · intro h
    refine .inr ⟨⟨e, hi, ?_⟩, h⟩
    rw [hrow]
    exact Option.some_ne_none j

theorem reports_iff {replies : ℕ → Option SqlError} {start i : ℕ} (hlog : s.log.length = start + i) :
    Reports (scripted start replies) k s ↔ Recovers replies i (s.nav.buf k).length := by
  induction hlen : (s.nav.buf k).length generalizing s i with
  | zero =>
    refine iff_of_true ⟨0, s, ?_, rfl⟩ trivial
    exact tryCopyBatch_empty _ (List.length_eq_zero_iff.mp hlen)
  | succ len ih =>
    have hbuf : s.nav.buf k ≠ [] := fun h => by simp [h] at hlen
    have hreply : (scripted start replies).respond s.log s.db [.copy k (s.nav.buf k)] =
        (replies i).elim .ok .error := by
      show (replies (s.log.length - start)).elim _ _ = _
      rw [hlog, Nat.add_sub_cancel_left]
    cases hi : replies i with
    | none =>
      rw [hi] at hreply
      have hrun := tryCopyBatch_ok len hbuf hreply
      rw [← hlen] at hrun
      refine iff_of_true ⟨_, _, hrun, ?_⟩ (.inl hi)
      show (Function.update s.db.rows k _ k).length = _
      rw [Function.update_self, List.length_append]
    | some e =>
      rw [hi] at hreply
      unfold Reports
      rw [hlen]
      rcases tryCopyBatch_error len hbuf hreply with ⟨rfl, hrun⟩ | ⟨-, hrow, hrun⟩ | ⟨j, hj, hrun⟩
      · rw [hrun]
        refine iff_of_false ?_ (not_recovers hi rfl)
        rintro ⟨m, s', heq, -⟩
        cases heq
      · -- the loop gives up, with rows in the buffer and none committed
        rw [hrun]
        refine iff_of_false ?_ (not_recovers hi (hlen ▸ hrow))
        rintro ⟨m, s', heq, hcount⟩
        obtain ⟨rfl, rfl⟩ := Outcome.done.inj heq
        have hsame : (s.db.rows k).length = (s.db.rows k).length + (s.nav.buf k).length := hcount
        omega
      · have hless : ((s.withoutRow k e j).nav.buf k).length = len := by
          have hshorter := length_withoutRow hj
          omega
        have hlog' : (s.withoutRow k e j).log.length = start + (i + 1) := by
          show (s.log ++ [_]).length = _
          rw [List.length_append, hlog]
          rfl
        have hnext := ih hlog' hless
        unfold Reports at hnext
        rw [hless] at hnext
        rw [hrun]
        exact hnext.trans (recovers_named hi (hlen ▸ hj)).symm

/-- **What `tryCopyBatch` reports.** Whatever the server replies, the loop ends, and the number that it
returns is that of the rows it has committed if and only if the first reply that names no row of what is
left of the buffer is a success, or every row was named and taken out. -/
theorem tryCopyBatch_reports_iff (k : Kind) (s : Session) (replies : ℕ → Option SqlError) :
    (∀ n, (s.nav.buf k).length ≤ n →
      (tryCopyBatch (scripted s.log.length replies) k n).run s =
        (tryCopyBatch (scripted s.log.length replies) k (s.nav.buf k).length).run s) ∧
    (Reports (scripted s.log.length replies) k s ↔ Recovers replies 0 (s.nav.buf k).length) :=
  ⟨fun _ hn => tryCopyBatch_rounds _ k s hn, reports_iff (Nat.add_zero _).symm⟩

/-- A session with two buffered ways. -/
def twoBuffered : Session := idleSession.setBuf .way [⟨7, [], none, some []⟩, ⟨8, [], none, some []⟩]

/-- The second row is refused, and the first one is accepted. -/
def secondRefused (i : ℕ) : Option SqlError := if i = 0 then some (.line 2) else none

theorem tryCopyBatch_reports_iff_second_refused :
    Reports (scripted twoBuffered.log.length secondRefused) .way twoBuffered :=
  (tryCopyBatch_reports_iff .way twoBuffered secondRefused).2.mpr
    (.inr ⟨⟨.line 2, rfl, by decide⟩, .inl rfl⟩)

/-- A session with a buffered way. -/
def oneBuffered : Session := idleSession.setBuf .way [⟨7, [], none, some []⟩]

/-- The connection is lost: one row is reported, and none is written. -/
theorem lost_row_reported : ∃ s',
    (tryCopyBatch (scripted 0 fun _ => some .noLine) .way 1).run oneBuffered = .done 1 s' ∧
    s'.db.rows .way = [] ∧ ¬ Reports (scripted 0 fun _ => some .noLine) .way oneBuffered := by
  refine ⟨_, rfl, rfl, ?_⟩
  rintro ⟨m, s', hrun, hcount⟩
  obtain ⟨rfl, rfl⟩ := Outcome.done.inj hrun
  exact absurd hcount (by decide)

/-! ## What is kept -/

variable {chk : Checks}

/-- The server takes the tags that wait for the table. -/
def TakesTags (srv : Server) (k : Kind) (s : Session) : Prop :=
  ∀ log db, srv.respond log db [.copyTags k (s.nav.tagBuf (bufOf k))] = .ok

/-- The end of a flush does not touch the rows, and clears the buffer if the tags are taken. -/
theorem finalize_tags_rows (srv : Server) (k : Kind) (s : Session) :
    Prog.Ensures (do finalize_tags srv k; Prog.modify fun s => s.setBuf k []) s
      (fun _ t => t.db.rows = s.db.rows ∧ t.nav.buf k = [])
      (fun _ t => t.db.rows = s.db.rows ∧ ¬ TakesTags srv k s)
      (fun t => t.db.rows = s.db.rows ∧ ¬ TakesTags srv k s) := by
  apply Prog.ensures_bind
  unfold finalize_tags
  apply Prog.ensures_get_bind
  dsimp only
  split
  · exact ⟨rfl, Function.update_self ..⟩
  · apply Prog.ensures_bind
    cases hr : srv.respond s.log s.db [.copyTags k (s.nav.tagBuf (bufOf k))] with
    | ok =>
      simp only [Prog.Ensures, send, hr]
      exact ⟨rfl, Function.update_self ..⟩
    | error e =>
      simp only [Prog.Ensures, send, hr]
      refine ⟨rfl, fun htags => ?_⟩
      rw [htags] at hr
      cases hr
    | died c =>
      have hnot : ¬ TakesTags srv k s := fun htags => by
        rw [htags] at hr
        cases hr
      cases c with
      | true =>
        simp only [Prog.Ensures, send, hr]
        exact ⟨rfl, hnot⟩
      | false =>
        simp only [Prog.Ensures, send, hr]
        exact ⟨rfl, hnot⟩

theorem flushViaTemp_keyed (h : KeyedCopy chk srv) (k : Kind) (s : Session) :
    Prog.Ensures (flushViaTemp srv k) s
      (fun _ t => t.db.rows = Function.update s.db.rows k (s.settled chk k) ∧ t.nav.buf k = [])
      (fun _ t => t.db.rows = Function.update s.db.rows k (s.settled chk k) ∧ ¬ TakesTags srv k s)
      (fun t => t.db.rows = Function.update s.db.rows k (s.settled chk k) ∧ ¬ TakesTags srv k s) := by
  have hend : ∀ {s' : Session}, RowsCopied chk k s s' →
      Prog.Ensures (do finalize_tags srv k; Prog.modify fun s => s.setBuf k []) s'
        (fun _ t => t.db.rows = Function.update s.db.rows k (s.settled chk k) ∧ t.nav.buf k = [])
        (fun _ t => t.db.rows = Function.update s.db.rows k (s.settled chk k) ∧ ¬ TakesTags srv k s)
        (fun t => t.db.rows = Function.update s.db.rows k (s.settled chk k) ∧ ¬ TakesTags srv k s) := by
    intro s' hc
    have htakes : TakesTags srv k s' ↔ TakesTags srv k s := by
      unfold TakesTags
      rw [hc.tagBuf]
    have hspec := finalize_tags_rows srv k s'
    rw [hc.rows, htakes] at hspec
    exact hspec
  apply Prog.ensures_get_bind
  dsimp only
  split
  · rename_i hempty
    have hnil := List.isEmpty_iff.mp hempty
    exact ⟨(rowsCopied_of_empty hnil).rows, hnil⟩
  · apply Prog.ensures_bind
    have hanswer := h s.log s.db k (s.nav.buf k)
    cases hbad : firstBad Row.id (chk.rowOk k) ((s.db.rows k).map Row.id) (s.nav.buf k) with
    | none =>
      rw [hbad] at hanswer
      exact Prog.ensures_of_run (Prog.run_attempt_done (send_ok hanswer)) (hend (rowsCopied_of_fits hbad))
    | some i =>
      rw [hbad] at hanswer
      refine Prog.ensures_of_run (Prog.run_attempt_threw (send_error hanswer)) ?_
      apply Prog.ensures_bind
      have htry := tryCopyBatch_keyed h k (s := s.record
        (.sent [.copy k (s.nav.buf k)] (.error (.line (i + 1))))) (le_refl (s.nav.buf k).length)
      refine htry.mono ?_ (fun _ _ hf => hf.elim) fun _ hf => hf.elim
      rintro _ s' ⟨hc, -⟩
      exact hend ⟨hc.osmmap, hc.rows, hc.buf, hc.tagBuf⟩

theorem flush_eq_viaTemp (hk : k ≠ .node) : flush srv k = flushViaTemp srv k := by
  cases k with
  | node => exact absurd rfl hk
  | way => rfl
  | area => rfl
  | road => rfl
  | relation => rfl

/-- **COPY recovery keeps exactly the acceptable rows.** On a server that answers each COPY of rows as the
primary key and the columns demand, naming the first row that does not fit: the loop of `tryCopyBatch` ends
with a result, behind one COPY more at most than the rows it takes out; whichever way the flush ends, the
table has gained the rows that are chosen in their order, and no other table has changed; and if the
server takes the tags, the flush ends and the buffer is empty. -/
theorem recovery_keeps_acceptable (h : KeyedCopy chk srv) (hk : k ≠ .node) (s : Session) :
    (∀ n, (s.nav.buf k).length ≤ n →
      (tryCopyBatch srv k n).run s = (tryCopyBatch srv k (s.nav.buf k).length).run s) ∧
    (∃ m s', (tryCopyBatch srv k (s.nav.buf k).length).run s = .done m s' ∧ Attempts k s s') ∧
    ((flush srv k).run s).state.db.rows = Function.update s.db.rows k
      (s.db.rows k ++ keep Row.id (chk.rowOk k) ((s.db.rows k).map Row.id) (s.nav.buf k)) ∧
    (TakesTags srv k s → ∃ s', (flush srv k).run s = .done () s' ∧ s'.nav.buf k = []) := by
  refine ⟨fun n hn => tryCopyBatch_rounds srv k s hn, ?_, ?_⟩
  · obtain ⟨m, s', hrun, -, hattempts⟩ := (tryCopyBatch_keyed h k (le_refl (s.nav.buf k).length)).exists
    exact ⟨m, s', hrun, hattempts⟩
  · have hspec := flushViaTemp_keyed h k s
    rw [flush_eq_viaTemp hk]
    unfold Prog.Ensures at hspec
    cases hrun : (flushViaTemp srv k).run s with
    | done _ s' =>
      rw [hrun] at hspec
      exact ⟨hspec.1, fun _ => ⟨s', rfl, hspec.2⟩⟩
    | threw _ s' =>
      rw [hrun] at hspec
      exact ⟨hspec.1, fun htags => absurd htags hspec.2⟩
    | died s' =>
      rw [hrun] at hspec
      exact ⟨hspec.1, fun htags => absurd htags hspec.2⟩

/-- Ways, one of them twice and one without a geometry. -/
def mixedWays : Session :=
  idleSession.setBuf .way [⟨7, [], none, some (str "a")⟩, ⟨7, [], none, some (str "b")⟩,
    ⟨8, [], none, some []⟩, ⟨9, [], none, some (str "c")⟩]

theorem recovery_keeps_acceptable_mixed : ∃ s', (flush (postgres geometryFits) .way).run mixedWays =
    .done () s' ∧ s'.nav.buf .way = [] ∧ (s'.db.rows .way).map Row.id = [7, 9] := by
  obtain ⟨-, -, hrows, hend⟩ :=
    recovery_keeps_acceptable (keyedCopy_postgres geometryFits) (k := .way) (by decide) mixedWays
  obtain ⟨s', hrun, hbuf⟩ := hend fun _ _ => rfl
  refine ⟨s', hrun, hbuf, ?_⟩
  rw [hrun] at hrows
  have hways : s'.db.rows .way = _ := congrFun hrows .way
  rw [hways, Function.update_self]
  decide

end OsmImport
