import OsmImport.Db.Proofs.Frame
import OsmImport.Db.Proofs.Recovery

/-!
# A flush that is tried again

A flush that throws leaves the database and the buffers half-changed: its rows may be committed without
its tags, and rows may be missing from the buffer. Flushed again on a server that works, the table gets
the rows that the rest of the buffer leaves in it. `flushNodes` does not get so far when its rows are in
the table already, and a flush without buffered rows does not get to the tags.
-/

namespace OsmImport

open NavDB KeyedInsert Postgres

variable {chk : Checks} {srv : Server} {k : Kind} {s : Session}

/-- The server enforces keys and checks, and may fail whatever it is sent. -/
def Enforcing (chk : Checks) (srv : Server) : Prop :=
  ∀ log db txn, srv.respond log db txn = .ok ∧ complaints chk db txn = none ∨
    ∃ e, srv.respond log db txn = .error e

/-- The columns take the tags that wait for the table. -/
def TagsFit (chk : Checks) (k : Kind) (s : Session) : Prop :=
  ∀ r ∈ s.nav.tagBuf (bufOf k), chk.tagOk r = true

/-- The table takes all buffered nodes; for the other tables there is no such condition. -/
def NodesFit (chk : Checks) (k : Kind) (s : Session) : Prop :=
  k = .node → firstBad Row.id (chk.rowOk k) ((s.db.rows k).map Row.id) (s.nav.buf k) = none

/-! ## A flush on a server that works -/

/-- Behind a flush that was not refused anything for good. -/
structure FlushDone (chk : Checks) (k : Kind) (s t : Session) : Prop where
  rows : t.db.rows = Function.update s.db.rows k (s.settled chk k)
  tags : t.db.tags = Function.update s.db.tags k (s.db.tags k ++ s.nav.tagBuf (bufOf k))

theorem finalize_tags_healthy {s' : Session} (hc : RowsCopied chk k s s')
    (htags : s'.db.tags = s.db.tags) :
    Prog.Ensures (do finalize_tags (postgres chk) k; Prog.modify fun s => s.setBuf k []) s'
      (fun _ t => TagsFit chk k s ∧ FlushDone chk k s t) (fun _ _ => ¬ TagsFit chk k s)
      fun _ => False := by
  apply Prog.ensures_bind
  unfold finalize_tags
  apply Prog.ensures_get_bind
  rw [hc.tagBuf]
  dsimp only
  split
  · rename_i hempty
    have hnil : s.nav.tagBuf (bufOf k) = [] := List.isEmpty_iff.mp hempty
    refine ⟨fun r hr => absurd (hnil ▸ hr) List.not_mem_nil, hc.rows, ?_⟩
    rw [hnil, List.append_nil, Function.update_eq_self]
    exact htags
  · apply Prog.ensures_bind
    by_cases hfit : TagsFit chk k s
    · apply Prog.ensures_of_run (send_postgres (complaints_copyTags.mpr hfit))
      refine ⟨hfit, hc.rows, ?_⟩
      show Function.update s'.db.tags k (s'.db.tags k ++ _) = _
      rw [htags]
    · obtain ⟨e, he⟩ : ∃ e, complaints chk s'.db [.copyTags k (s.nav.tagBuf (bufOf k))] = some e :=
        Option.ne_none_iff_exists'.mp (mt complaints_copyTags.mp hfit)
      have hanswer : (postgres chk).respond s'.log s'.db
          [.copyTags k (s.nav.tagBuf (bufOf k))] = .error e := by
        simp only [postgres, he]
      unfold Prog.Ensures
      rw [send_error hanswer]
      exact hfit

theorem keepsTags_send_copy (rows : List Row) :
    Prog.Keeps (fun s : Session => s.db.tags) (send srv [.copy k rows]) := by
  intro s
  unfold send
  dsimp only
  split <;> rfl

theorem flushViaTemp_healthy (hbuf : s.nav.buf k ≠ []) :
    Prog.Ensures (flushViaTemp (postgres chk) k) s (fun _ t => TagsFit chk k s ∧ FlushDone chk k s t)
      (fun _ _ => ¬ TagsFit chk k s) fun _ => False := by
  apply Prog.ensures_get_bind
  dsimp only
  rw [if_neg (mt List.isEmpty_iff.mp hbuf)]
  apply Prog.ensures_bind
  cases hbad : firstBad Row.id (chk.rowOk k) ((s.db.rows k).map Row.id) (s.nav.buf k) with
  | none =>
    have hsend := Prog.run_attempt_done (send_postgres (complaints_copy_none hbad))
    exact Prog.ensures_of_run hsend (finalize_tags_healthy (rowsCopied_of_fits hbad) rfl)
  | some i =>
    refine Prog.ensures_of_run (Prog.run_attempt_threw (send_copy_bad hbad)) ?_
    apply Prog.ensures_bind
    generalize hs₁ : s.record _ = s₁
    have htry : (tryCopyBatch (postgres chk) k (s.nav.buf k).length).Ends s₁
        fun _ => RowsCopied chk k s₁ := by
      rw [← hs₁]
      exact tryCopyBatch_postgres k le_rfl
    have hkeep := keeps_tryCopyBatch (postgres chk) (f := fun s => s.db.tags) (k := k)
      keepsTags_send_copy (fun _ _ => rfl) (s.nav.buf k).length s₁
    refine htry.withRun.mono ?_ (fun _ _ hf => hf.elim) fun _ hf => hf.elim
    rintro _ s' ⟨hc, hrun⟩
    rw [hrun] at hkeep
    subst hs₁
    exact finalize_tags_healthy ⟨hc.osmmap, hc.rows, hc.buf, hc.tagBuf⟩ hkeep

theorem flushNodes_healthy (hbuf : s.nav.buf .node ≠ []) :
    Prog.Ensures (flushNodes (postgres chk)) s
      (fun _ t => (TagsFit chk .node s ∧ NodesFit chk .node s) ∧ FlushDone chk .node s t)
      (fun _ _ => ¬ (TagsFit chk .node s ∧ NodesFit chk .node s)) fun _ => False := by
  apply Prog.ensures_get_bind
  rw [if_neg (mt List.isEmpty_iff.mp hbuf)]
  apply Prog.ensures_bind
  cases hbad : firstBad Row.id (chk.rowOk .node) ((s.db.rows .node).map Row.id) (s.nav.buf .node) with
  | none =>
    apply Prog.ensures_of_run (send_postgres (complaints_copy_none hbad))
    refine (finalize_tags_healthy (rowsCopied_of_fits hbad) rfl).mono ?_ ?_ fun _ hf => hf
    · rintro _ t ⟨hfit, hflushed⟩
      exact ⟨⟨hfit, fun _ => hbad⟩, hflushed⟩
    · exact fun _ _ hfit h => hfit h.1
  | some i =>
    unfold Prog.Ensures
    rw [send_copy_bad hbad]
    rintro ⟨-, hfit⟩
    rw [hfit rfl] at hbad
    cases hbad

/-- A flush of rows on a server that works. -/
theorem flush_healthy (chk : Checks) (hbuf : s.nav.buf k ≠ []) :
    Prog.Ensures (flush (postgres chk) k) s
      (fun _ t => (TagsFit chk k s ∧ NodesFit chk k s) ∧ FlushDone chk k s t)
      (fun _ _ => ¬ (TagsFit chk k s ∧ NodesFit chk k s)) fun _ => False := by
  by_cases hk : k = .node
  · subst hk
    exact flushNodes_healthy hbuf
  · rw [flush_eq_viaTemp hk]
    refine (flushViaTemp_healthy hbuf).mono ?_ ?_ fun _ hf => hf
    · rintro _ t ⟨hfit, hflushed⟩
      exact ⟨⟨hfit, fun h => absurd h hk⟩, hflushed⟩
    · exact fun _ _ hfit h => hfit h.1

theorem flush_healthy_iff (chk : Checks) (hbuf : s.nav.buf k ≠ []) :
    (∃ t, (flush (postgres chk) k).run s = .done () t) ↔ TagsFit chk k s ∧ NodesFit chk k s := by
  have h := flush_healthy chk hbuf
  unfold Prog.Ensures at h
  cases hrun : (flush (postgres chk) k).run s with
  | done _ t =>
    rw [hrun] at h
    exact iff_of_true ⟨t, rfl⟩ h.1
  | threw _ t =>
    rw [hrun] at h
    exact iff_of_false (by rintro ⟨t, ht⟩; cases ht) h
  | died t =>
    rw [hrun] at h
    exact h.elim

theorem flushDone_of_run {t : Session} (hbuf : s.nav.buf k ≠ [])
    (hrun : (flush (postgres chk) k).run s = .done () t) : FlushDone chk k s t := by
  have h := flush_healthy chk hbuf
  unfold Prog.Ensures at h
  rw [hrun] at h
  exact h.2

theorem flush_empty (srv : Server) (hbuf : s.nav.buf k = []) : (flush srv k).run s = .done () s := by
  by_cases hk : k = .node
  · subst hk
    show (flushNodes srv).run s = _
    unfold flushNodes
    rw [Prog.run_get_bind, hbuf]
    rfl
  · rw [flush_eq_viaTemp hk]
    unfold flushViaTemp
    rw [Prog.run_get_bind, hbuf]
    rfl

/-! ## A flush that throws -/

/-- The rows that the answers to the rounds of `tryCopyBatch` leave in the buffer. -/
def rowsLeft (srv : Server) (k : Kind) : ℕ → Session → List Row
  | 0, s => s.nav.buf k
  | n + 1, s =>
    match srv.respond s.log s.db [.copy k (s.nav.buf k)] with
    | .error e =>
      match e.row (s.nav.buf k).length with
      | some i => rowsLeft srv k n (s.withoutRow k e i)
      | none => s.nav.buf k
    | _ => s.nav.buf k

/-- The rows that the answers to a flush leave in the buffer, if it throws. -/
def leftInBuffer (srv : Server) (k : Kind) (s : Session) : List Row :=
  match srv.respond s.log s.db [.copy k (s.nav.buf k)] with
  | .error e =>
    rowsLeft srv k (s.nav.buf k).length (s.record (.sent [.copy k (s.nav.buf k)] (.error e)))
  | _ => s.nav.buf k

/-- What a flush from `s` that throws leaves behind: the rest of the buffer has been committed or not,
and the tags wait. -/
structure LeftBehind (chk : Checks) (k : Kind) (s s' : Session) (left : List Row) : Prop where
  rows : s'.db.rows = s.db.rows ∨
    firstBad Row.id (chk.rowOk k) ((s.db.rows k).map Row.id) left = none ∧
      s'.db.rows = Function.update s.db.rows k (s.db.rows k ++ left)
  tags : s'.db.tags = s.db.tags
  buf : s'.nav.buf k = left
  tagBuf : s'.nav.tagBuf = s.nav.tagBuf

theorem leftBehind_refl (s : Session) : LeftBehind chk k s s (s.nav.buf k) := ⟨.inl rfl, rfl, rfl, rfl⟩

theorem LeftBehind.record {s' : Session} {left : List Row} (h : LeftBehind chk k s s' left) (e : Event) :
    LeftBehind chk k s (s'.record e) left := ⟨h.rows, h.tags, h.buf, h.tagBuf⟩

theorem leftBehind_committed
    (h : complaints chk s.db [.copy k (s.nav.buf k)] = none) (r : Response) :
    LeftBehind chk k s (s.committed [.copy k (s.nav.buf k)] r) (s.nav.buf k) :=
  ⟨.inr ⟨complaints_copy.mp h, rfl⟩, rfl, rfl, rfl⟩

/-- The rows of the rest of the buffer are committed once. -/
theorem LeftBehind.insertRows_eq {s' : Session} {left : List Row} (h : LeftBehind chk k s s' left) :
    insertRows chk k (s'.db.rows k) left = insertRows chk k (s.db.rows k) left := by
  rcases h.rows with hrows | ⟨hfits, hrows⟩
  · rw [hrows]
  · rw [hrows, Function.update_self, insertRows_of_fits hfits, insertRows, keep_of_seen, List.append_nil]
    intro r hr
    rw [List.map_append]
    exact List.mem_append_right _ (List.mem_map_of_mem hr)

theorem rowsLeft_empty (n : ℕ) (hbuf : s.nav.buf k = []) : rowsLeft srv k n s = [] := by
  cases n with
  | zero => exact hbuf
  | succ n =>
    unfold rowsLeft
    split
    · rename_i e _
      have hrow : e.row (s.nav.buf k).length = none := by
        rw [Option.eq_none_iff_forall_ne_some]
        intro i hi
        have hlt := SqlError.row_lt hi
        rw [hbuf] at hlt
        exact Nat.not_lt_zero i hlt
      rw [hrow]
      exact hbuf
    · exact hbuf

/-- The loop leaves what the answers leave. -/
theorem tryCopyBatch_left (hsrv : Enforcing chk srv) (n : ℕ) (s : Session) :
    Prog.Ensures (tryCopyBatch srv k n) s (fun _ s' => LeftBehind chk k s s' (rowsLeft srv k n s))
      (fun _ s' => LeftBehind chk k s s' (rowsLeft srv k n s) ∧ rowsLeft srv k n s ≠ [])
      fun _ => False := by
  induction n generalizing s with
  | zero => exact leftBehind_refl s
  | succ n ih =>
    unfold Prog.Ensures
    by_cases hbuf : s.nav.buf k = []
    · rw [tryCopyBatch_empty _ hbuf, rowsLeft_empty _ hbuf, ← hbuf]
      exact leftBehind_refl s
    · rcases hsrv s.log s.db [.copy k (s.nav.buf k)] with ⟨hok, hnone⟩ | ⟨e, he⟩
      · have hleft : rowsLeft srv k (n + 1) s = s.nav.buf k := by
          rw [rowsLeft, hok]
        rw [tryCopyBatch_ok n hbuf hok, hleft]
        exact leftBehind_committed hnone .ok
      · rcases tryCopyBatch_error n hbuf he with ⟨rfl, hrun⟩ | ⟨-, hrow, hrun⟩ | ⟨i, hi, hrun⟩
        · have hleft : rowsLeft srv k (n + 1) s = s.nav.buf k := by
            rw [rowsLeft, he]
            rfl
          rw [hrun, hleft]
          exact ⟨(leftBehind_refl s).record _, hbuf⟩
        · have hleft : rowsLeft srv k (n + 1) s = s.nav.buf k := by
            rw [rowsLeft, he]
            dsimp only
            rw [hrow]
          rw [hrun, hleft]
          exact (leftBehind_refl s).record _
        · have hleft : rowsLeft srv k (n + 1) s = rowsLeft srv k n (s.withoutRow k e i) := by
            rw [rowsLeft, he]
            dsimp only
            rw [hi]
          have hsame : ∀ {s' : Session} {left : List Row},
              LeftBehind chk k (s.withoutRow k e i) s' left → LeftBehind chk k s s' left :=
            fun h => ⟨h.rows, h.tags, h.buf, h.tagBuf⟩
          rw [hrun, hleft]
          exact (ih (s.withoutRow k e i)).mono (fun _ _ => hsame) (fun _ _ h => ⟨hsame h.1, h.2⟩)
            fun _ hf => hf

theorem finalize_tags_left (hsrv : Enforcing chk srv) {s' : Session} {left : List Row}
    (h : LeftBehind chk k s s' left) :
    Prog.Ensures (do finalize_tags srv k; Prog.modify fun s => s.setBuf k []) s' (fun _ _ => True)
      (fun _ t => LeftBehind chk k s t left ∧ s.nav.tagBuf (bufOf k) ≠ []) fun _ => False := by
  apply Prog.ensures_bind
  unfold finalize_tags
  apply Prog.ensures_get_bind
  rw [h.tagBuf]
  dsimp only
  split
  · exact trivial
  · rename_i hempty
    apply Prog.ensures_bind
    unfold Prog.Ensures
    rcases hsrv s'.log s'.db [.copyTags k (s.nav.tagBuf (bufOf k))] with ⟨hok, -⟩ | ⟨e, he⟩
    · rw [send_ok hok]
      exact trivial
    · rw [send_error he]
      exact ⟨h.record _, mt List.isEmpty_iff.mpr hempty⟩

theorem flushViaTemp_left (hsrv : Enforcing chk srv) :
    Prog.Ensures (flushViaTemp srv k) s (fun _ _ => True)
      (fun _ t => LeftBehind chk k s t (leftInBuffer srv k s) ∧
        (leftInBuffer srv k s = [] → s.nav.tagBuf (bufOf k) ≠ [])) fun _ => False := by
  apply Prog.ensures_get_bind
  dsimp only
  split
  · exact trivial
  · apply Prog.ensures_bind
    rcases hsrv s.log s.db [.copy k (s.nav.buf k)] with ⟨hok, hnone⟩ | ⟨e, he⟩
    · have hleft : leftInBuffer srv k s = s.nav.buf k := by
        rw [leftInBuffer, hok]
      rw [hleft]
      refine Prog.ensures_of_run (Prog.run_attempt_done (send_ok hok)) ?_
      refine (finalize_tags_left hsrv (leftBehind_committed hnone .ok)).mono (fun _ _ h => h) ?_
        fun _ hf => hf
      exact fun _ t h => ⟨h.1, fun _ => h.2⟩
    · have hleft : leftInBuffer srv k s = rowsLeft srv k (s.nav.buf k).length
          (s.record (.sent [.copy k (s.nav.buf k)] (.error e))) := by
        rw [leftInBuffer, he]
      rw [hleft]
      refine Prog.ensures_of_run (Prog.run_attempt_threw (send_error he)) ?_
      apply Prog.ensures_bind
      have hsame : ∀ {s' : Session} {left : List Row},
          LeftBehind chk k (s.record (.sent [.copy k (s.nav.buf k)] (.error e))) s' left →
          LeftBehind chk k s s' left :=
        fun h => ⟨h.rows, h.tags, h.buf, h.tagBuf⟩
      refine (tryCopyBatch_left hsrv _ _).mono ?_ ?_ fun _ hf => hf
      · intro _ s' h
        exact (finalize_tags_left hsrv (hsame h)).mono (fun _ _ h => h)
          (fun _ t h => ⟨h.1, fun _ => h.2⟩) fun _ hf => hf
      · exact fun _ s' h => ⟨hsame h.1, fun hnil => absurd hnil h.2⟩

theorem flushNodes_left (hsrv : Enforcing chk srv) :
    Prog.Ensures (flushNodes srv) s (fun _ _ => True)
      (fun _ t => LeftBehind chk .node s t (s.nav.buf .node) ∧ t.db.rows .node =
        if srv.respond s.log s.db [.copy .node (s.nav.buf .node)] = Response.ok then
          s.db.rows .node ++ s.nav.buf .node
        else s.db.rows .node) fun _ => False := by
  apply Prog.ensures_get_bind
  split
  · exact trivial
  · apply Prog.ensures_bind
    rcases hsrv s.log s.db [.copy .node (s.nav.buf .node)] with ⟨hok, hnone⟩ | ⟨e, he⟩
    · refine Prog.ensures_of_run (send_ok hok) ?_
      refine ((finalize_tags_left hsrv (leftBehind_committed hnone .ok)).and
        (finalize_tags_rows srv .node _)).mono (fun _ _ _ => trivial) ?_ fun _ hf => hf.1
      rintro _ t ⟨⟨hleft, -⟩, hrows, -⟩
      have hcommitted : (s.committed [.copy .node (s.nav.buf .node)] .ok).db.rows =
          Function.update s.db.rows .node (s.db.rows .node ++ s.nav.buf .node) := rfl
      refine ⟨hleft, ?_⟩
      rw [hrows, if_pos hok, hcommitted, Function.update_self]
    · unfold Prog.Ensures
      rw [send_error he]
      have hrefused : srv.respond s.log s.db [.copy .node (s.nav.buf .node)] ≠ .ok := by
        rw [he]
        exact fun h => by cases h
      refine ⟨(leftBehind_refl s).record _, ?_⟩
      rw [if_neg hrefused]
      rfl

/-! ## The retry -/

/-- The same rows and tag rows in all tables. -/
def SameRowsAndTags (a b : Database) : Prop :=
  ∀ j, (a.rows j).Perm (b.rows j) ∧ (a.tags j).Perm (b.tags j)

/-- The flush from `s` threw and ended in `s₁`. Flushed again on a server that works, it succeeds, and the
tables are those of a first flush from `s` on this server. -/
def Retried (chk : Checks) (k : Kind) (s s₁ : Session) : Prop :=
  ∃ s₂ s', (flush (postgres chk) k).run s₁ = .done () s₂ ∧
    (flush (postgres chk) k).run s = .done () s' ∧ SameRowsAndTags s₂.db s'.db

/-- The columns take the tags; for nodes, the table takes all buffered nodes and it was the COPY of the
nodes that failed; for the others, the answers left some row in the buffer, and the rows they left are
inserted as the whole buffer is. -/
structure RetrySafe (chk : Checks) (srv : Server) (k : Kind) (s : Session) : Prop where
  tags : TagsFit chk k s
  nodes : NodesFit chk k s
  refused : k = .node → srv.respond s.log s.db [.copy k (s.nav.buf k)] ≠ .ok
  left : k ≠ .node → leftInBuffer srv k s ≠ []
  rows : k ≠ .node → (insertRows chk k (s.db.rows k) (leftInBuffer srv k s)).Perm
    (insertRows chk k (s.db.rows k) (s.nav.buf k))

theorem LeftBehind.rows_other {s' : Session} {left : List Row} (h : LeftBehind chk k s s' left) :
    ∀ j, j ≠ k → s'.db.rows j = s.db.rows j := by
  intro j hj
  rcases h.rows with hrows | ⟨-, hrows⟩
  · rw [hrows]
  · rw [hrows, Function.update_of_ne hj]

/-- The tables behind the retry and behind a first flush agree if the rows of the two buffers do, once they
are inserted. -/
theorem LeftBehind.sameRowsAndTags_iff {s₁ s₂ s' : Session} {left : List Row}
    (h : LeftBehind chk k s s₁ left) (hbuf₁ : s₁.nav.buf k ≠ []) (hbuf : s.nav.buf k ≠ [])
    (hrun₂ : (flush (postgres chk) k).run s₁ = .done () s₂)
    (hrun' : (flush (postgres chk) k).run s = .done () s') :
    SameRowsAndTags s₂.db s'.db ↔ (s₁.settled chk k).Perm (s.settled chk k) := by
  have h₂ := flushDone_of_run hbuf₁ hrun₂
  have h' := flushDone_of_run hbuf hrun'
  constructor
  · intro hsame
    have hk := (hsame k).1
    rwa [h₂.rows, h'.rows, Function.update_self, Function.update_self] at hk
  · intro hperm j
    rw [h₂.rows, h'.rows, h₂.tags, h'.tags, h.tags, h.tagBuf]
    refine ⟨?_, .refl _⟩
    by_cases hj : j = k
    · subst hj
      rwa [Function.update_self, Function.update_self]
    · rw [Function.update_of_ne hj, Function.update_of_ne hj, h.rows_other j hj]

theorem LeftBehind.tagsFit {s' : Session} {left : List Row} (h : LeftBehind chk k s s' left) :
    TagsFit chk k s' ↔ TagsFit chk k s := by
  unfold TagsFit
  rw [h.tagBuf]

/-- A retry of nodes that are in the table already fails. -/
theorem not_nodesFit_again {s₁ : Session} (hbuf : s₁.nav.buf .node ≠ [])
    (hrows : s₁.db.rows .node = s.db.rows .node ++ s₁.nav.buf .node) : ¬ NodesFit chk .node s₁ := by
  intro h
  have hkeep := keep_of_firstBad_none (h rfl)
  rw [keep_of_seen] at hkeep
  · exact hbuf hkeep.symm
  · intro r hr
    rw [hrows, List.map_append]
    exact List.mem_append_right _ (List.mem_map_of_mem hr)

theorem retried_nodes_iff {s₁ : Session} (hbuf : s.nav.buf .node ≠ [])
    (h : LeftBehind chk .node s s₁ (s.nav.buf .node))
    (hrows : s₁.db.rows .node =
      if srv.respond s.log s.db [.copy .node (s.nav.buf .node)] = Response.ok then
        s.db.rows .node ++ s.nav.buf .node
      else s.db.rows .node) :
    Retried chk .node s s₁ ↔ RetrySafe chk srv .node s := by
  have hbuf₁ : s₁.nav.buf .node ≠ [] := by
    rw [h.buf]
    exact hbuf
  constructor
  · rintro ⟨s₂, s', h₂, h', -⟩
    obtain ⟨htags, hnodes⟩ := (flush_healthy_iff chk hbuf).mp ⟨s', h'⟩
    refine ⟨htags, hnodes, fun _ hok => ?_, fun hk => absurd rfl hk, fun hk => absurd rfl hk⟩
    rw [if_pos hok, ← h.buf] at hrows
    exact not_nodesFit_again hbuf₁ hrows ((flush_healthy_iff chk hbuf₁).mp ⟨s₂, h₂⟩).2
  · rintro ⟨htags, hnodes, hrefused, -, -⟩
    rw [if_neg (hrefused rfl)] at hrows
    have hnodes₁ : NodesFit chk .node s₁ := by
      intro _
      rw [hrows, h.buf]
      exact hnodes rfl
    obtain ⟨s', h'⟩ := (flush_healthy_iff chk hbuf).mpr ⟨htags, hnodes⟩
    obtain ⟨s₂, h₂⟩ := (flush_healthy_iff chk hbuf₁).mpr ⟨h.tagsFit.mpr htags, hnodes₁⟩
    refine ⟨s₂, s', h₂, h', (h.sameRowsAndTags_iff hbuf₁ hbuf h₂ h').mpr ?_⟩
    rw [Session.settled, Session.settled, hrows, h.buf]

theorem retried_others_iff {s₁ : Session} (hk : k ≠ .node) (hbuf : s.nav.buf k ≠ [])
    (h : LeftBehind chk k s s₁ (leftInBuffer srv k s))
    (htags : leftInBuffer srv k s = [] → s.nav.tagBuf (bufOf k) ≠ []) :
    Retried chk k s s₁ ↔ RetrySafe chk srv k s := by
  have hsettled : s₁.settled chk k = insertRows chk k (s.db.rows k) (leftInBuffer srv k s) := by
    rw [Session.settled, h.buf, h.insertRows_eq]
  have hnodes : ∀ s, NodesFit chk k s := fun _ hk' => absurd hk' hk
  constructor
  · rintro ⟨s₂, s', h₂, h', hsame⟩
    have hfit := ((flush_healthy_iff chk hbuf).mp ⟨s', h'⟩).1
    by_cases hleft : leftInBuffer srv k s = []
    · -- the retry has no rows, and does not come to the tags
      rw [flush_empty _ (h.buf.trans hleft)] at h₂
      obtain ⟨-, rfl⟩ := Outcome.done.inj h₂
      have hlen := (hsame k).2.length_eq
      rw [h.tags, (flushDone_of_run hbuf h').tags, Function.update_self, List.length_append] at hlen
      have hnone : s.nav.tagBuf (bufOf k) = [] := List.eq_nil_of_length_eq_zero (by omega)
      exact absurd hnone (htags hleft)
    · have hbuf₁ : s₁.nav.buf k ≠ [] := by
        rw [h.buf]
        exact hleft
      refine ⟨hfit, hnodes s, fun hk' => absurd hk' hk, fun _ => hleft, fun _ => ?_⟩
      have hperm := (h.sameRowsAndTags_iff hbuf₁ hbuf h₂ h').mp hsame
      rwa [hsettled] at hperm
  · rintro ⟨hfit, -, -, hleft, hperm⟩
    have hbuf₁ : s₁.nav.buf k ≠ [] := by
      rw [h.buf]
      exact hleft hk
    obtain ⟨s', h'⟩ := (flush_healthy_iff chk hbuf).mpr ⟨hfit, hnodes s⟩
    obtain ⟨s₂, h₂⟩ := (flush_healthy_iff chk hbuf₁).mpr ⟨h.tagsFit.mpr hfit, hnodes s₁⟩
    refine ⟨s₂, s', h₂, h', (h.sameRowsAndTags_iff hbuf₁ hbuf h₂ h').mpr ?_⟩
    rw [hsettled]
    exact hperm hk

/-- **When a flush can be tried again.** A flush of any table throws on a server that enforces keys and
checks and may fail otherwise. The retry on a server that works succeeds and leaves the tables as they
would be without the failure if and only if the columns take the tags and, for nodes, the nodes fit and it
was their COPY that failed, and for the other tables, the answers left rows in the buffer, and left those
that the whole buffer would have put into the table. -/
theorem retry_safe_iff (hsrv : Enforcing chk srv) {e : SqlError} {s₁ : Session}
    (hthrew : (flush srv k).run s = .threw e s₁) : Retried chk k s s₁ ↔ RetrySafe chk srv k s := by
  have hbuf : s.nav.buf k ≠ [] := by
    intro hnil
    rw [flush_empty srv hnil] at hthrew
    cases hthrew
  by_cases hk : k = .node
  · subst hk
    have hleft := flushNodes_left (s := s) hsrv
    have hrun : (flushNodes srv).run s = .threw e s₁ := hthrew
    unfold Prog.Ensures at hleft
    rw [hrun] at hleft
    exact retried_nodes_iff hbuf hleft.1 hleft.2
  · have hleft := flushViaTemp_left (k := k) (s := s) hsrv
    rw [flush_eq_viaTemp hk] at hthrew
    unfold Prog.Ensures at hleft
    rw [hthrew] at hleft
    exact retried_others_iff hk hbuf hleft.1 hleft.2

/-- A server that refuses every COPY of tags. -/
def tagsDown : Server where
  respond _ db txn :=
    match txn with
    | [.copyTags _ _] => .error .noLine
    | _ => (postgres .any).respond [] db txn
  answers _ _ := true

theorem enforcing_tagsDown : Enforcing .any tagsDown := by
  intro log db txn
  have hpostgres : (postgres .any).respond [] db txn = .ok ∧ complaints .any db txn = none ∨
      ∃ e, (postgres .any).respond [] db txn = .error e := by
    cases h : complaints .any db txn with
    | none => exact .inl ⟨postgres_ok h, rfl⟩
    | some e => exact .inr ⟨e, by simp only [postgres, h]⟩
  unfold tagsDown
  dsimp only
  split
  · exact .inr ⟨.noLine, rfl⟩
  · exact hpostgres

/-- A buffered row with a tag. -/
def taggedSession (k : Kind) : Session := idleSession.buffered k ⟨7, [], none, some []⟩ highwayTag

theorem retry_safe_iff_way : ∃ s₁,
    (flush tagsDown .way).run (taggedSession .way) = .threw .noLine s₁ ∧
      Retried .any .way (taggedSession .way) s₁ :=
  ⟨_, rfl, (retry_safe_iff enforcing_tagsDown rfl).mpr
    ⟨fun _ _ => rfl, (fun h => by cases h), (fun h => by cases h), (fun _ => by decide),
      fun _ => .refl _⟩⟩

/-- The same with a node: the retry throws, and the tag is never written. -/
theorem nodes_not_retried : ∃ s₁ s₂,
    (flush tagsDown .node).run (taggedSession .node) = .threw .noLine s₁ ∧
    (flush (postgres .any) .node).run s₁ = .threw (.line 1) s₂ ∧ s₂.db.tags .node = [] ∧
    ¬ Retried .any .node (taggedSession .node) s₁ := by
  refine ⟨_, _, rfl, rfl, rfl, ?_⟩
  rintro ⟨s₂, s', h₂, -⟩
  cases h₂

end OsmImport
