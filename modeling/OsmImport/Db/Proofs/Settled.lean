import OsmImport.Db.Postgres
import OsmImport.Db.Proofs.Accepting
import OsmImport.Geometry.Proofs.Wkb

/-!
# What the buffers will leave in the tables

`Session.settled` is a table with its buffer put in row by row. A flush does not change it, whether the
COPY succeeds at once or `tryCopyBatch` takes out one row after the other, and an insert adds its row to
it whether the buffer is full or not. `Clean` is what this takes: no COPY of nodes and no COPY of tags is
going to fail, as these are not repeated without the bad row.
-/

namespace OsmImport

open NavDB KeyedInsert Postgres

variable {chk : Checks}

/-- No COPY of nodes or tags fails, and the buffered areas are no lines. -/
structure Clean (chk : Checks) (s : Session) : Prop where
  nodes : firstBad Row.id (chk.rowOk .node) ((s.db.rows .node).map Row.id) (s.nav.buf .node) = none
  tags : ∀ b, ∀ r ∈ s.nav.tagBuf b, chk.tagOk r = true
  areas : ∀ r ∈ s.nav.buf .area, ∀ geog, r.geog = some geog → linearPart geog = none

/-- Behind the rows of a flush: the table is what it was going to be. -/
structure RowsCopied (chk : Checks) (k : Kind) (s s' : Session) : Prop where
  osmmap : s'.osmmap = s.osmmap
  rows : s'.db.rows = Function.update s.db.rows k (s.settled chk k)
  buf : ∃ buf, s'.nav.buf = Function.update s.nav.buf k buf
  tagBuf : s'.nav.tagBuf = s.nav.tagBuf

/-- Behind a flush. -/
structure RowsFlushed (chk : Checks) (k : Kind) (s s' : Session) : Prop where
  osmmap : s'.osmmap = s.osmmap
  rows : s'.db.rows = Function.update s.db.rows k (s.settled chk k)
  buf : s'.nav.buf = Function.update s.nav.buf k []
  tagBuf : ∀ b, s'.nav.tagBuf b = s.nav.tagBuf b ∨ s'.nav.tagBuf b = []

@[simp] theorem settled_setBuf (s : Session) (k : Kind) (rows : List Row) :
    (s.setBuf k rows).settled chk k = insertRows chk k (s.db.rows k) rows := by
  simp [Session.settled, Session.setBuf]

theorem tagsFlushed_osmmap (s : Session) (k : Kind) : (s.tagsFlushed k).osmmap = s.osmmap := by
  unfold Session.tagsFlushed
  split <;> rfl

/-! ## Transactions -/

theorem postgres_ok {log : List Event} {db : Database} {txn : List Statement}
    (h : complaints chk db txn = none) : (postgres chk).respond log db txn = .ok := by
  simp only [postgres, h]

theorem send_postgres {txn : List Statement} {s : Session} (h : complaints chk s.db txn = none) :
    (send (postgres chk) txn).run s = .done () (s.committed txn .ok) :=
  send_ok (postgres_ok h)

theorem send_error {srv : Server} {txn : List Statement} {s : Session} {e : SqlError}
    (h : srv.respond s.log s.db txn = .error e) :
    (send srv txn).run s = .threw e (s.record (.sent txn (.error e))) := by
  simp only [send, h]

theorem complaints_copy {db : Database} {k : Kind} {rows : List Row} :
    complaints chk db [.copy k rows] = none ↔
      firstBad Row.id (chk.rowOk k) ((db.rows k).map Row.id) rows = none := by
  cases h : firstBad Row.id (chk.rowOk k) ((db.rows k).map Row.id) rows <;>
    simp [complaints, complaint, h]

theorem complaints_copy_none {db : Database} {k : Kind} {rows : List Row}
    (h : firstBad Row.id (chk.rowOk k) ((db.rows k).map Row.id) rows = none) :
    complaints chk db [.copy k rows] = none := complaints_copy.mpr h

theorem send_copy_bad {k : Kind} {rows : List Row} {s : Session} {i : ℕ}
    (h : firstBad Row.id (chk.rowOk k) ((s.db.rows k).map Row.id) rows = some i) :
    (send (postgres chk) [.copy k rows]).run s =
      .threw (.line (i + 1)) (s.record (.sent [.copy k rows] (.error (.line (i + 1))))) := by
  have hc : complaints chk s.db [.copy k rows] = some (.line (i + 1)) := by
    simp [complaints, complaint, h]
  have hanswer : (postgres chk).respond s.log s.db [.copy k rows] = .error (.line (i + 1)) := by
    simp only [postgres, hc]
  exact send_error hanswer

theorem complaints_copyTags {db : Database} {k : Kind} {rows : List TagRow} :
    complaints chk db [.copyTags k rows] = none ↔ ∀ r ∈ rows, chk.tagOk r = true := by
  have hnone : (rows.findIdx? fun r => !chk.tagOk r) = none ↔ ∀ r ∈ rows, chk.tagOk r = true := by
    rw [List.findIdx?_eq_none_iff]
    simp
  rw [← hnone]
  cases h : rows.findIdx? fun r => !chk.tagOk r <;> simp [complaints, complaint, h]

/-! ## Flushes -/

/-- A COPY of rows that fit. -/
theorem rowsCopied_of_fits {k : Kind} {s : Session}
    (h : firstBad Row.id (chk.rowOk k) ((s.db.rows k).map Row.id) (s.nav.buf k) = none) :
    RowsCopied chk k s (s.committed [.copy k (s.nav.buf k)] .ok) := by
  refine ⟨rfl, ?_, ⟨s.nav.buf k, (Function.update_eq_self ..).symm⟩, rfl⟩
  rw [Session.settled, insertRows_of_fits h]
  rfl

theorem rowsCopied_of_empty {k : Kind} {s : Session} (h : s.nav.buf k = []) : RowsCopied chk k s s := by
  refine ⟨rfl, ?_, ⟨[], ?_⟩, rfl⟩
  · rw [Session.settled, h, insertRows_nil, Function.update_eq_self]
  · rw [← h, Function.update_eq_self]

/-- Each COPY of rows is answered as the primary key and the checks of the columns demand. -/
def KeyedCopy (chk : Checks) (srv : Server) : Prop :=
  ∀ log db k rows, srv.respond log db [.copy k rows] =
    (firstBad Row.id (chk.rowOk k) ((db.rows k).map Row.id) rows).elim .ok fun i => .error (.line (i + 1))

theorem keyedCopy_postgres (chk : Checks) : KeyedCopy chk (postgres chk) := by
  intro log db k rows
  cases h : firstBad Row.id (chk.rowOk k) ((db.rows k).map Row.id) rows <;>
    simp [postgres, complaints, complaint, h]

/-- What was sent between two sessions is a COPY for each row that was taken out of the buffer, and one
more at most. -/
def Attempts (k : Kind) (s s' : Session) : Prop :=
  ∃ sent : List Event, s'.log = s.log ++ sent ∧ (∀ e ∈ sent, ∃ rows r, e = .sent [.copy k rows] r) ∧
    sent.length + (s'.nav.buf k).length ≤ (s.nav.buf k).length + 1

/-- Every round takes out a row that would not have been kept, and the last one commits the rows that
are kept. -/
theorem tryCopyBatch_keyed {srv : Server} (h : KeyedCopy chk srv) (k : Kind) {n : ℕ} {s : Session}
    (hn : (s.nav.buf k).length ≤ n) :
    (tryCopyBatch srv k n).Ends s fun _ s' => RowsCopied chk k s s' ∧ Attempts k s s' := by
  have hnone : ∀ s, Attempts k s s := fun s => ⟨[], (List.append_nil _).symm, by simp, by simp⟩
  induction n generalizing s with
  | zero => exact ⟨rowsCopied_of_empty (List.length_eq_zero_iff.mp (Nat.le_zero.mp hn)), hnone s⟩
  | succ n ih =>
    apply Prog.ensures_get_bind
    dsimp only
    split
    · rename_i hemp
      exact ⟨rowsCopied_of_empty (List.isEmpty_iff.mp hemp), hnone s⟩
    · apply Prog.ensures_bind
      have hanswer := h s.log s.db k (s.nav.buf k)
      cases hbad : firstBad Row.id (chk.rowOk k) ((s.db.rows k).map Row.id) (s.nav.buf k) with
      | none =>
        rw [hbad] at hanswer
        refine Prog.ensures_of_run (Prog.run_attempt_done (send_ok hanswer)) ⟨rowsCopied_of_fits hbad, ?_⟩
        refine ⟨[_], rfl, fun e he => ⟨_, _, List.mem_singleton.mp he⟩, ?_⟩
        rw [List.length_singleton, Nat.add_comm]
        exact le_rfl
      | some i =>
        rw [hbad] at hanswer
        obtain ⟨hi, hkeep⟩ := keep_eraseIdx hbad
        refine Prog.ensures_of_run (Prog.run_attempt_threw (send_error hanswer)) ?_
        have hidx : ¬ ((i : ℤ) + 1 - 1 < 0 ∨ (i : ℤ) + 1 - 1 ≥ (s.nav.buf k).length) := by omega
        have hnat : ((i : ℤ) + 1 - 1).toNat = i := by omega
        dsimp only
        rw [if_neg hidx, hnat]
        apply Prog.ensures_bind
        apply Prog.ensures_modify
        generalize hs₁ : Session.setBuf _ k _ = s₁
        have hlen : (s₁.nav.buf k).length + 1 = (s.nav.buf k).length := by
          rw [← hs₁]
          show (Function.update s.nav.buf k _ k).length + 1 = _
          rw [Function.update_self, List.length_eraseIdx_of_lt hi]
          omega
        refine (ih (by omega)).done ?_
        rintro m s' ⟨⟨hmap, hrows, ⟨buf, hbuf⟩, htags⟩, sent, hlog, hsent, hcount⟩
        subst hs₁
        refine ⟨⟨hmap, ?_, ⟨buf, hbuf.trans (Function.update_idem ..)⟩, htags⟩,
          .sent [.copy k (s.nav.buf k)] (.error (.line (i + 1))) :: sent, ?_, ?_, ?_⟩
        · rw [hrows, settled_setBuf]
          exact congrArg (Function.update s.db.rows k) (congrArg (s.db.rows k ++ ·) hkeep)
        · exact hlog.trans (List.append_assoc _ _ _)
        · exact List.forall_mem_cons.mpr ⟨⟨_, _, rfl⟩, hsent⟩
        · rw [List.length_cons]
          omega

theorem tryCopyBatch_postgres (k : Kind) {n : ℕ} {s : Session} (hn : (s.nav.buf k).length ≤ n) :
    (tryCopyBatch (postgres chk) k n).Ends s fun _ => RowsCopied chk k s :=
  (tryCopyBatch_keyed (keyedCopy_postgres chk) k hn).done fun _ _ hs' => hs'.1

/-- The tags behind the rows. -/
theorem finalize_tags_postgres {k : Kind} {s s' : Session} (h : Clean chk s)
    (hs' : RowsCopied chk k s s') :
    (do finalize_tags (postgres chk) k; Prog.modify fun s => s.setBuf k []).Ends s'
      fun _ => RowsFlushed chk k s := by
  obtain ⟨hmap, hrows, ⟨buf, hbuf⟩, htags⟩ := hs'
  have hok : ∀ r ∈ s'.nav.tagBuf (bufOf k), chk.tagOk r = true := by
    rw [htags]
    exact h.tags (bufOf k)
  apply Prog.ensures_bind
  apply Prog.ensures_of_run (finalize_tags_ok k (postgres_ok (complaints_copyTags.mpr hok)))
  apply Prog.ensures_modify
  have hframe := s'.tagsFlushed_frame (k := k)
  refine ⟨?_, hframe.2.trans hrows, ?_, ?_⟩
  · show (s'.tagsFlushed k).osmmap = _
    rw [tagsFlushed_osmmap, hmap]
  · show Function.update (s'.tagsFlushed k).nav.buf k [] = _
    rw [hframe.1, hbuf, Function.update_idem]
  · intro b
    show (s'.tagsFlushed k).nav.tagBuf b = _ ∨ (s'.tagsFlushed k).nav.tagBuf b = []
    rw [Session.tagsFlushed_tagBuf, htags]
    rcases eq_or_ne b (bufOf k) with rfl | hb
    · exact .inr (Function.update_self ..)
    · exact .inl (Function.update_of_ne hb ..)

theorem rowsFlushed_of_empty {k : Kind} {s : Session} (h : s.nav.buf k = []) : RowsFlushed chk k s s := by
  have hc : RowsCopied chk k s s := rowsCopied_of_empty h
  refine ⟨hc.osmmap, hc.rows, ?_, fun b => .inl rfl⟩
  rw [← h, Function.update_eq_self]

theorem flushViaTemp_postgres (k : Kind) {s : Session} (h : Clean chk s) :
    (flushViaTemp (postgres chk) k).Ends s fun _ => RowsFlushed chk k s := by
  apply Prog.ensures_get_bind
  dsimp only
  split
  · rename_i hk
    exact rowsFlushed_of_empty (List.isEmpty_iff.mp hk)
  · apply Prog.ensures_bind
    cases hbad : firstBad Row.id (chk.rowOk k) ((s.db.rows k).map Row.id) (s.nav.buf k) with
    | none =>
      have hsend := Prog.run_attempt_done (send_postgres (complaints_copy_none hbad))
      exact Prog.ensures_of_run hsend (finalize_tags_postgres h (rowsCopied_of_fits hbad))
    | some i =>
      refine Prog.ensures_of_run (Prog.run_attempt_threw (send_copy_bad hbad)) ?_
      apply Prog.ensures_bind
      have htry : (tryCopyBatch (postgres chk) k (s.nav.buf k).length).Ends
          (s.record (.sent [.copy k (s.nav.buf k)] (.error (.line (i + 1))))) fun _ => RowsCopied chk k _ :=
        tryCopyBatch_postgres k le_rfl
      refine htry.done fun _ s' hs' => ?_
      exact finalize_tags_postgres h ⟨hs'.osmmap, hs'.rows, hs'.buf, hs'.tagBuf⟩

theorem flushNodes_postgres {s : Session} (h : Clean chk s) :
    (flushNodes (postgres chk)).Ends s fun _ => RowsFlushed chk .node s := by
  apply Prog.ensures_get_bind
  split
  · rename_i hk
    exact rowsFlushed_of_empty (List.isEmpty_iff.mp hk)
  · apply Prog.ensures_bind
    apply Prog.ensures_of_run (send_postgres (complaints_copy_none h.nodes))
    exact finalize_tags_postgres h (rowsCopied_of_fits h.nodes)

theorem flush_postgres (k : Kind) {s : Session} (h : Clean chk s) :
    (flush (postgres chk) k).Ends s fun _ => RowsFlushed chk k s := by
  cases k with
  | node => exact flushNodes_postgres h
  | way => exact flushViaTemp_postgres .way h
  | area => exact flushViaTemp_postgres .area h
  | road => exact flushViaTemp_postgres .road h
  | relation => exact flushViaTemp_postgres .relation h

/-- A flush does not change what a table is going to be. -/
theorem RowsFlushed.settled {k : Kind} {s s' : Session} (h : RowsFlushed chk k s s') :
    s'.settled chk = s.settled chk := by
  funext j
  rw [Session.settled, h.rows, h.buf]
  rcases eq_or_ne j k with rfl | hj
  · rw [Function.update_self, Function.update_self, insertRows_nil]
  · rw [Function.update_of_ne hj, Function.update_of_ne hj, Session.settled]

theorem RowsFlushed.clean {k : Kind} {s s' : Session} (h : RowsFlushed chk k s s') (hs : Clean chk s) :
    Clean chk s' := by
  have hbuf : ∀ j, s'.nav.buf j = s.nav.buf j ∨ s'.nav.buf j = [] := by
    intro j
    rw [h.buf]
    rcases eq_or_ne j k with rfl | hj
    · exact .inr (Function.update_self ..)
    · exact .inl (Function.update_of_ne hj ..)
  constructor
  · rw [h.buf, h.rows]
    rcases eq_or_ne .node k with rfl | hk
    · rw [Function.update_self, Function.update_self]
      rfl
    · rw [Function.update_of_ne hk, Function.update_of_ne hk]
      exact hs.nodes
  · intro b r hr
    rcases h.tagBuf b with hb | hb
    · exact hs.tags b r (hb ▸ hr)
    · rw [hb] at hr
      cases hr
  · intro r hr
    rcases hbuf .area with hb | hb
    · exact hs.areas r (hb ▸ hr)
    · rw [hb] at hr
      cases hr

end OsmImport
