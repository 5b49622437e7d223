import OsmImport.Delta.Ledger
import OsmImport.Delta.Proofs.Operations
import Mathlib.Data.List.Perm.Basic

/-!
# The books and the buffers

`Tracking` ties the ledger to the buffers: what a file pushed is stored, missing or still in the buffers. Every
flush keeps that, whatever the server answers.
-/

namespace OsmImport

open NavDB Prog

section

variable (files : Int64 → List OSCChange) (l₀ : Ledger)

@[simp] theorem ledger_record (s : Session) (e : Event) :
    ledger files l₀ (s.record e) = (ledger files l₀ s).step files e := by
  simp [ledger, Session.record]

/-- Whatever the process does next: the stored numbers are settled if the rows were spared, and only then. -/
structure Sound (s : Session) : Prop where
  durable : (ledger files l₀ s).durable ↔ (ledger files l₀ s).tally.sparing
  sequence : s.db.sequence = some (ledger files l₀ s).seq
  tables : (ledger files l₀ s).tally.db = s.db

/-- Behind the file `prev` the changes `cs` are applied so far, and what they buffered is stored, missing or in
the buffers. -/
structure Tracking (prev : Int64) (cs : List OSCChange) (s : Session) : Prop extends Sound files l₀ s where
  progress : (ledger files l₀ s).seq = prev ∧ (ledger files l₀ s).changes = cs
  rows : (ledger files l₀ s).tally.sparing → ∀ k, ((ledger files l₀ s).pushed k).Perm
    ((ledger files l₀ s).stored k ++ ((ledger files l₀ s).missing k ++ s.nav.buf k))
  lost : (ledger files l₀ s).tally.lost = false ↔ ∀ k, (ledger files l₀ s).missing k = []
  tags : (ledger files l₀ s).tally.sparing → ∀ b, (ledger files l₀ s).pushedTags b =
    (ledger files l₀ s).storedTags b ++ s.nav.tagBuf b
  withRow : ∀ b, s.nav.tagBuf b ≠ [] → ∃ k, bufOf k = b ∧ s.nav.buf k ≠ []
  accepted : (ledger files l₀ s).refused = false
  /-- The next COPY of a table is no repeated one. -/
  fresh : ∀ k, (ledger files l₀ s).tally.refusedCopy = some k → s.nav.buf k = []

/-- Inside the flush of table `k`: the `rest` of its rows is still to be copied; `buf` are the buffers
before. -/
structure Flushing (prev : Int64) (k : Kind) (buf : Kind → List Row) (rest : List Row) (cs : List OSCChange)
    (s : Session) : Prop extends Sound files l₀ s where
  progress : (ledger files l₀ s).seq = prev ∧ (ledger files l₀ s).changes = cs
  rows : (ledger files l₀ s).tally.sparing → ∀ j, ((ledger files l₀ s).pushed j).Perm
    ((ledger files l₀ s).stored j ++ ((ledger files l₀ s).missing j ++ if j = k then rest else s.nav.buf j))
  lost : (ledger files l₀ s).tally.lost = false ↔ ∀ k, (ledger files l₀ s).missing k = []
  tags : (ledger files l₀ s).tally.sparing → ∀ b, (ledger files l₀ s).pushedTags b =
    (ledger files l₀ s).storedTags b ++ s.nav.tagBuf b
  withRow : ∀ b, b ≠ bufOf k → s.nav.tagBuf b ≠ [] → ∃ j, bufOf j = b ∧ s.nav.buf j ≠ []
  accepted : (ledger files l₀ s).refused = false
  frame : ∀ j, j ≠ k → s.nav.buf j = buf j
  fresh : ∀ j, j ≠ k → (ledger files l₀ s).tally.refusedCopy = some j → s.nav.buf j = []

end

/-! ## Transactions -/

section

variable {files : Int64 → List OSCChange} {l₀ : Ledger} {prev : Int64} {srv : Server} {cs : List OSCChange}

theorem exec_plain {l : Ledger} {txn : List Statement} (h : ∀ st ∈ txn, st.Plain) :
    txn.foldl (Ledger.exec files) l = l := by
  induction txn with
  | nil => rfl
  | cons st txn ih =>
    have hst : l.exec files st = l := by
      have hp := h st List.mem_cons_self
      cases st <;> first | rfl | exact hp.elim
    rw [List.foldl_cons, hst]
    exact ih fun st hst => h st (List.mem_cons_of_mem _ hst)

theorem tally_plain {a : Tally} {txn : List Statement} (h : ∀ st ∈ txn, st.Plain) :
    txn.foldl Tally.exec a = { a with db := a.db.commit txn } := by
  induction txn generalizing a with
  | nil => rfl
  | cons st txn ih =>
    have hst : a.exec st = { a with db := a.db.exec st } := by
      have hp := h st List.mem_cons_self
      cases st <;> first | rfl | exact hp.elim
    rw [List.foldl_cons, hst, ih fun st hst => h st (List.mem_cons_of_mem _ hst)]
    rfl

theorem sequence_plain {db : Database} {txn : List Statement} (h : ∀ st ∈ txn, st.Plain) :
    (db.commit txn).sequence = db.sequence := by
  induction txn generalizing db with
  | nil => rfl
  | cons st txn ih =>
    have hst : (db.exec st).sequence = db.sequence := by
      have hp := h st List.mem_cons_self
      cases st <;> first | rfl | exact hp.elim
    rw [Database.commit_cons, ih fun st hst => h st (List.mem_cons_of_mem _ hst), hst]

/-- What a refused transaction does not touch. -/
theorem refuse_frame (l : Ledger) (e : SqlError) (txn : List Statement) :
    (l.refuse e txn).durable = l.durable ∧ (l.refuse e txn).seq = l.seq ∧
      (l.tally.refuse e txn).db = l.tally.db ∧ (l.tally.refuse e txn).sparing = l.tally.sparing := by
  unfold Ledger.refuse Tally.refuse
  split
  · split <;> exact ⟨rfl, rfl, rfl, rfl⟩
  · exact ⟨rfl, rfl, rfl, rfl⟩

/-- A refused transaction stores no sequence number. -/
theorem Sound.refuse {s : Session} (h : Sound files l₀ s) (txn : List Statement) (e : SqlError) :
    Sound files l₀ (s.record (.sent txn (.error e))) := by
  obtain ⟨hdurable, hseq, hdb, hsparing⟩ := refuse_frame (ledger files l₀ s) e txn
  refine ⟨?_, ?_, ?_⟩
  · rw [ledger_record]
    show ((ledger files l₀ s).refuse e txn).durable ↔ ((ledger files l₀ s).tally.refuse e txn).sparing
    rw [hdurable, hsparing]
    exact h.durable
  · rw [ledger_record]
    exact h.sequence.trans (congrArg some hseq.symm)
  · rw [ledger_record]
    exact hdb.trans h.tables

/-- An event that the books only note. -/
theorem Sound.note {s : Session} (h : Sound files l₀ s) {e : Event}
    (hl : (ledger files l₀ s).enter files e = ledger files l₀ s)
    (ha : (ledger files l₀ s).tally.step e = { (ledger files l₀ s).tally with refusedCopy := none }) :
    Sound files l₀ (s.record e) := by
  refine ⟨?_, ?_, ?_⟩
  all_goals rw [ledger_record]
  · show ((ledger files l₀ s).enter files e).durable ↔ ((ledger files l₀ s).tally.step e).sparing
    rw [hl, ha]
    exact h.durable
  · show s.db.sequence = some ((ledger files l₀ s).enter files e).seq
    rw [hl]
    exact h.sequence
  · exact (congrArg Tally.db ha).trans h.tables

/-- A committed transaction whose answer is lost is a committed transaction. -/
theorem ledger_died (s : Session) (txn : List Statement) :
    ledger files l₀ (s.committed txn (.died true)) = ledger files l₀ (s.committed txn .ok) := by
  simp only [Session.committed, ledger_record]
  rfl

/-- The ways in which a transaction ends. -/
theorem ensures_send {Q : Unit → Session → Prop} {E : SqlError → Session → Prop} {s : Session}
    {txn : List Statement} (hs : Sound files l₀ s) (hok : Q () (s.committed txn .ok))
    (hsound : Sound files l₀ (s.committed txn .ok))
    (herr : ∀ e, E e (s.record (.sent txn (.error e)))) :
    Ensures (send srv txn) s Q E (Sound files l₀) := by
  unfold Ensures send
  dsimp only
  rcases srv.respond s.log s.db txn with _ | e | _ | _
  · exact hok
  · exact herr e
  · exact hs.note rfl rfl
  · have hl : ledger files l₀ (s.committed txn (.died true)) = ledger files l₀ (s.committed txn .ok) :=
      ledger_died s txn
    refine ⟨?_, ?_, ?_⟩
    · rw [hl]
      exact hsound.durable
    · rw [hl]
      exact hsound.sequence
    · rw [hl]
      exact hsound.tables

/-- The books behind an update or a delete. -/
theorem ledger_plain {s : Session} {txn : List Statement} (h : ∀ st ∈ txn, st.Plain) :
    ledger files l₀ (s.committed txn .ok) = { ledger files l₀ s with
      tally := { (ledger files l₀ s).tally with
        refusedCopy := none
        db := (ledger files l₀ s).tally.db.commit txn } } := by
  rw [Session.committed, ledger_record]
  show { txn.foldl (Ledger.exec files) (ledger files l₀ s) with
    tally := txn.foldl Tally.exec { (ledger files l₀ s).tally with refusedCopy := none } } = _
  rw [exec_plain h, tally_plain h]

/-- An update or a delete: a refused one ends the change. -/
theorem preserves_send {txn : List Statement} (h : ∀ st ∈ txn, st.Plain) :
    Preserves (Tracking files l₀ prev cs) (Sound files l₀) (send srv txn) := by
  intro s hs
  have hl : ledger files l₀ (s.committed txn .ok) = _ := ledger_plain h
  have hok : Tracking files l₀ prev cs (s.committed txn .ok) := by
    refine ⟨⟨?_, ?_, ?_⟩, ?_, ?_, ?_, ?_, hs.withRow, ?_, ?_⟩
    all_goals rw [hl]
    · exact hs.durable
    · exact (sequence_plain h).trans hs.sequence
    · exact congrArg (Database.commit · txn) hs.tables
    · exact hs.progress
    · exact hs.rows
    · exact hs.lost
    · exact hs.tags
    · exact hs.accepted
    · exact fun k hk => nomatch hk
  exact ensures_send hs.toSound hok hok.toSound fun e => hs.toSound.refuse txn e

/-! ## Buffers -/

/-- Each list keeps what it has, and that of `k` gets more. -/
theorem update_append {κ α : Type} [DecidableEq κ] (f : κ → List α) (k : κ) (xs : List α) (j : κ) :
    Function.update f k (f k ++ xs) j = f j ++ if j = k then xs else [] := by
  by_cases h : j = k
  · subst h
    rw [Function.update_self, if_pos rfl]
  · rw [Function.update_of_ne h, if_neg h, List.append_nil]

/-- An entity goes to its buffers. -/
theorem Tracking.buffered {s : Session} (h : Tracking files l₀ prev cs s) (k : Kind) (row : Row)
    (tags : Tags) : Tracking files l₀ prev cs (s.buffered k row tags) := by
  have hl : ledger files l₀ (s.buffered k row tags) =
      ((ledger files l₀ s).step files (.bufferedTags (bufOf k) (tagRows row.id tags))).step files
        (.buffered k row) := by
    simp [ledger, Session.buffered, Session.record, Session.setBuf, Session.setTagBuf]
  refine ⟨⟨?_, ?_, ?_⟩, ?_, ?_, ?_, ?_, ?_, ?_, ?_⟩
  · rw [hl]
    exact h.durable
  · rw [hl]
    exact h.sequence
  · rw [hl]
    exact h.tables
  · rw [hl]
    exact h.progress
  · rw [hl]
    intro hspares j
    show (Function.update (ledger files l₀ s).pushed k ((ledger files l₀ s).pushed k ++ [row]) j).Perm
      ((ledger files l₀ s).stored j ++ ((ledger files l₀ s).missing j ++
        Function.update s.nav.buf k (s.nav.buf k ++ [row]) j))
    have hj := (h.rows hspares j).append_right (if j = k then [row] else [])
    rw [update_append, update_append]
    rwa [List.append_assoc, List.append_assoc] at hj
  · rw [hl]
    exact h.lost
  · rw [hl]
    intro hspares b
    show Function.update (ledger files l₀ s).pushedTags (bufOf k)
        ((ledger files l₀ s).pushedTags (bufOf k) ++ tagRows row.id tags) b =
      (ledger files l₀ s).storedTags b ++ Function.update s.nav.tagBuf (bufOf k)
        (s.nav.tagBuf (bufOf k) ++ tagRows row.id tags) b
    rw [update_append, update_append, h.tags hspares b, List.append_assoc]
  · intro b hb
    show ∃ j, bufOf j = b ∧ Function.update s.nav.buf k (s.nav.buf k ++ [row]) j ≠ []
    by_cases hbk : b = bufOf k
    · exact ⟨k, hbk.symm, by simp⟩
    · obtain ⟨j, hj, hne⟩ := h.withRow b (by
        have hb' : Function.update s.nav.tagBuf (bufOf k)
          (s.nav.tagBuf (bufOf k) ++ tagRows row.id tags) b ≠ [] := hb
        rwa [Function.update_of_ne hbk] at hb')
      refine ⟨j, hj, ?_⟩
      rwa [Function.update_of_ne fun hjk => hbk (hj ▸ congrArg bufOf hjk)]
  · rw [hl]
    exact h.accepted
  · rw [hl]
    exact fun j hj => nomatch hj

/-! ## Flushes -/

/-- A COPY of what is left: the rows are in the table. -/
theorem Flushing.copied {s : Session} {k : Kind} {buf : Kind → List Row} {rest : List Row}
    (h : Flushing files l₀ prev k buf rest cs s) :
    Flushing files l₀ prev k buf [] cs (s.committed [.copy k rest] .ok) := by
  have hl : ledger files l₀ (s.committed [.copy k rest] .ok) =
      (ledger files l₀ s).step files (.sent [.copy k rest] .ok) := by
    rw [Session.committed, ledger_record]
    rfl
  refine ⟨⟨?_, ?_, ?_⟩, ?_, ?_, ?_, ?_, h.withRow, ?_, h.frame, ?_⟩
  all_goals rw [hl]
  · exact h.durable
  · exact h.sequence
  · exact congrArg (Database.commit · [.copy k rest]) h.tables
  · exact h.progress
  · intro hspares j
    have hj := h.rows hspares j
    show ((ledger files l₀ s).pushed j).Perm (Function.update (ledger files l₀ s).stored k
      ((ledger files l₀ s).stored k ++ rest) j ++ ((ledger files l₀ s).missing j ++
        if j = k then [] else s.nav.buf j))
    by_cases hjk : j = k
    · subst hjk
      rw [if_pos rfl] at hj
      rw [Function.update_self, if_pos rfl, List.append_nil, List.append_assoc]
      exact hj.trans (List.perm_append_comm.append_left _)
    · rw [Function.update_of_ne hjk, if_neg hjk]
      rwa [if_neg hjk] at hj
  · exact h.lost
  · exact h.tags
  · exact h.accepted
  · exact fun j _ hj => nomatch hj

/-- The first COPY of a flush is refused: nothing is given up yet. -/
theorem Flushing.refused {s : Session} {k : Kind} {buf : Kind → List Row} {rest : List Row}
    (h : Flushing files l₀ prev k buf rest cs s) (hfirst : (ledger files l₀ s).tally.refusedCopy ≠ some k)
    (e : SqlError) : Flushing files l₀ prev k buf rest cs (s.record (.sent [.copy k rest] (.error e))) ∧
      (ledger files l₀ (s.record (.sent [.copy k rest] (.error e)))).tally.refusedCopy = some k := by
  have hl : ledger files l₀ (s.record (.sent [.copy k rest] (.error e))) =
      { ledger files l₀ s with tally := { (ledger files l₀ s).tally with refusedCopy := some k } } := by
    rw [ledger_record]
    show { (ledger files l₀ s).refuse e [.copy k rest] with
      tally := (ledger files l₀ s).tally.refuse e [.copy k rest] } = _
    simp [Ledger.refuse, Tally.refuse, hfirst]
  refine ⟨⟨h.toSound.refuse _ e, ?_, ?_, ?_, ?_, h.withRow, ?_, h.frame, ?_⟩, ?_⟩
  all_goals rw [hl]
  · exact h.progress
  · exact h.rows
  · exact h.lost
  · exact h.tags
  · exact h.accepted
  · exact fun j hjk hj => absurd (Option.some.inj hj).symm hjk

/-- Nothing is missing behind rows of one table if nothing was before, and there are none. -/
theorem missing_append {missing : Kind → List Row} {k : Kind} {rows : List Row} :
    (∀ j, Function.update missing k (missing k ++ rows) j = []) ↔ (∀ j, missing j = []) ∧ rows = [] := by
  constructor
  · intro h
    have hk := h k
    rw [Function.update_self, List.append_eq_nil_iff] at hk
    refine ⟨fun j => ?_, hk.2⟩
    by_cases hjk : j = k
    · rw [hjk, hk.1]
    · exact (Function.update_of_ne hjk _ _).symm.trans (h j)
  · rintro ⟨h, rfl⟩ j
    rw [List.append_nil, Function.update_eq_self, h]

/-- A COPY of the recovery is refused: the rows that are given up are in the table or missing. -/
theorem Flushing.gaveUp {s : Session} {k : Kind} {buf : Kind → List Row} {rest left : List Row}
    (h : Flushing files l₀ prev k buf rest cs s) (hagain : (ledger files l₀ s).tally.refusedCopy = some k)
    {e : SqlError} (hleft : rest.Perm (givenUp rest e ++ left)) :
    Flushing files l₀ prev k buf left cs (s.record (.sent [.copy k rest] (.error e))) ∧
      (ledger files l₀ (s.record (.sent [.copy k rest] (.error e)))).tally.refusedCopy = some k := by
  have hl : ledger files l₀ (s.record (.sent [.copy k rest] (.error e))) =
      (ledger files l₀ s).step files (.sent [.copy k rest] (.error e)) := ledger_record ..
  let inTable : Row → Bool := fun row => row ∈ (ledger files l₀ s).tally.db.rows k
  have hparts : (givenUp rest e).partition inTable =
      ((givenUp rest e).filter inTable, (givenUp rest e).filter (not ∘ inTable)) := List.partition_eq_filter_filter
  refine ⟨⟨h.toSound.refuse _ e, ?_, ?_, ?_, ?_, h.withRow, ?_, h.frame, ?_⟩, ?_⟩
  all_goals rw [hl]
  all_goals simp only [Ledger.step, Ledger.enter, Ledger.refuse, Tally.step, Tally.refuse, if_pos hagain]
  · exact h.progress
  · intro hspares j
    have hj := h.rows hspares j
    by_cases hjk : j = k
    · subst hjk
      rw [if_pos rfl] at hj
      rw [Function.update_self, Function.update_self, if_pos rfl, hparts]
      have hboth := List.filter_append_perm inTable (givenUp rest e)
      rw [List.perm_iff_count] at *
      intro row
      have hpushed := hj row
      have hgiven := hboth row
      have hrest := hleft row
      simp only [List.count_append, Function.comp_def] at *
      omega
    · rw [Function.update_of_ne hjk, Function.update_of_ne hjk, if_neg hjk]
      rwa [if_neg hjk] at hj
  · rw [hparts, missing_append, Bool.or_eq_false_iff, h.lost, List.filter_eq_nil_iff]
    simp [hagain, inTable]
  · exact h.tags
  · exact h.accepted
  · exact fun j hjk hj => absurd (Option.some.inj hj).symm hjk

theorem Flushing.setBuf {s : Session} {k : Kind} {buf : Kind → List Row} {rest : List Row}
    (h : Flushing files l₀ prev k buf rest cs s) (rows : List Row) :
    Flushing files l₀ prev k buf rest cs (s.setBuf k rows) := by
  have hother : ∀ j, j ≠ k → (s.setBuf k rows).nav.buf j = s.nav.buf j := fun j hj =>
    Function.update_of_ne hj _ _
  refine ⟨⟨h.durable, h.sequence, h.tables⟩, h.progress, fun hspares j => ?_, h.lost, h.tags,
    fun b hbk hb => ?_, h.accepted, fun j hj => (hother j hj).trans (h.frame j hj), fun j hjk hj => ?_⟩
  · by_cases hjk : j = k
    · rw [if_pos hjk]
      exact (if_pos hjk ▸ h.rows hspares j : _)
    · rw [if_neg hjk, hother j hjk]
      exact (if_neg hjk ▸ h.rows hspares j : _)
  · obtain ⟨j, hj, hne⟩ := h.withRow b hbk hb
    exact ⟨j, hj, by rwa [hother j fun hjk => hbk (hj ▸ congrArg bufOf hjk)]⟩
  · exact (hother j hjk).trans (h.fresh j hjk hj)

/-- A row of a list, and the list without it. -/
theorem perm_getElem?_eraseIdx {rows : List Row} {i : ℕ} (hi : i < rows.length) :
    rows.Perm (rows[i]?.toList ++ rows.eraseIdx i) := by
  rw [List.getElem?_eq_getElem hi]
  exact (List.getElem_cons_eraseIdx_perm hi).symm

theorem givenUp_inside {rows : List Row} {n : ℤ} (h : ¬ (n - 1 < 0 ∨ n - 1 ≥ rows.length)) :
    givenUp rows (.line n) = rows[(n - 1).toNat]?.toList := if_neg h

theorem givenUp_outside {rows : List Row} {n : ℤ} (h : n - 1 < 0 ∨ n - 1 ≥ rows.length) :
    givenUp rows (.line n) = rows := if_pos h

/-- The retries of a flush. -/
theorem ensures_tryCopyBatch (k : Kind) (buf : Kind → List Row) (n : ℕ) {s : Session}
    (h : Flushing files l₀ prev k buf (s.nav.buf k) cs s)
    (hagain : (ledger files l₀ s).tally.refusedCopy = some k) (hn : (s.nav.buf k).length ≤ n) :
    Ensures (tryCopyBatch srv k n) s (fun _ => Flushing files l₀ prev k buf [] cs) (fun _ => Sound files l₀)
      (Sound files l₀) := by
  induction n generalizing s with
  | zero =>
    have hempty : s.nav.buf k = [] := List.length_eq_zero_iff.mp (Nat.le_zero.mp hn)
    rw [hempty] at h
    exact h
  | succ n ih =>
    apply ensures_get_bind
    dsimp only
    split
    · rename_i hempty
      rw [List.isEmpty_iff.mp hempty] at h
      exact h
    · refine ensures_bind (ensures_attempt ?_)
      refine ensures_send h.toSound h.copied h.copied.toSound fun e => ?_
      rcases e with _ | _ | line
      · exact (h.gaveUp hagain (by simp [givenUp])).1
      · exact h.toSound.refuse _ _
      · dsimp only
        split
        · rename_i hrange
          exact (h.gaveUp hagain (by rw [givenUp_outside hrange, List.append_nil])).1
        · rename_i hrange
          have hi : (line - 1).toNat < (s.nav.buf k).length := by omega
          have hleft : (s.nav.buf k).Perm (givenUp (s.nav.buf k) (.line line) ++
              (s.nav.buf k).eraseIdx (line - 1).toNat) := by
            rw [givenUp_inside hrange]
            exact perm_getElem?_eraseIdx hi
          obtain ⟨hnext, hagain'⟩ := h.gaveUp hagain hleft
          have hbuf : ((s.record (.sent [.copy k (s.nav.buf k)] (.error (.line line)))).setBuf k
              ((s.nav.buf k).eraseIdx (line - 1).toNat)).nav.buf k =
                (s.nav.buf k).eraseIdx (line - 1).toNat := Function.update_self _ _ _
          refine ih ?_ hagain' ?_
          · rw [hbuf]
            exact hnext.setBuf _
          · rw [hbuf, List.length_eraseIdx_of_lt hi]
            omega

/-- The tags of a flush. -/
theorem ensures_finalize_tags (k : Kind) (buf : Kind → List Row) {s : Session}
    (h : Flushing files l₀ prev k buf [] cs s) :
    Ensures (finalize_tags srv k) s
      (fun _ s' => Flushing files l₀ prev k buf [] cs s' ∧ s'.nav.tagBuf (bufOf k) = [])
      (fun _ => Sound files l₀) (Sound files l₀) := by
  apply ensures_get_bind
  dsimp only
  split
  · rename_i hempty
    exact ⟨h, List.isEmpty_iff.mp hempty⟩
  · generalize htags : s.nav.tagBuf (bufOf k) = rows
    have hl : ledger files l₀ (s.committed [.copyTags k rows] .ok) =
        (ledger files l₀ s).step files (.sent [.copyTags k rows] .ok) := by
      rw [Session.committed, ledger_record]
      rfl
    have hsound : Sound files l₀ (s.committed [.copyTags k rows] .ok) := by
      refine ⟨?_, ?_, ?_⟩
      all_goals rw [hl]
      · exact h.durable
      · exact h.sequence
      · exact congrArg (Database.commit · [.copyTags k rows]) h.tables
    apply ensures_bind
    refine ensures_send h.toSound ?_ hsound fun e => h.toSound.refuse _ e
    apply ensures_modify
    have hset : ledger files l₀ ((s.committed [.copyTags k rows] .ok).setTagBuf (bufOf k) []) =
        (ledger files l₀ s).step files (.sent [.copyTags k rows] .ok) := hl
    refine ⟨⟨⟨hsound.durable, hsound.sequence, hsound.tables⟩, ?_, ?_, ?_, ?_, ?_, ?_, h.frame, ?_⟩, ?_⟩
    · rw [hset]
      exact h.progress
    · rw [hset]
      exact h.rows
    · rw [hset]
      exact h.lost
    · rw [hset]
      intro hspares b
      refine (h.tags hspares b).trans ?_
      show _ = Function.update (ledger files l₀ s).storedTags (bufOf k)
          ((ledger files l₀ s).storedTags (bufOf k) ++ rows) b ++
        Function.update s.nav.tagBuf (bufOf k) [] b
      by_cases hb : b = bufOf k
      · subst hb
        simp [htags]
      · simp only [Function.update_of_ne hb]
    · intro b hbk hb
      refine h.withRow b hbk ?_
      have hb' : Function.update s.nav.tagBuf (bufOf k) [] b ≠ [] := hb
      rwa [Function.update_of_ne hbk] at hb'
    · rw [hset]
      exact h.accepted
    · rw [hset]
      exact fun j _ hj => nomatch hj
    · exact Function.update_self _ _ _

/-- The beginning of a flush. -/
theorem Tracking.flushing {s : Session} (h : Tracking files l₀ prev cs s) (k : Kind) :
    Flushing files l₀ prev k s.nav.buf (s.nav.buf k) cs s := by
  refine ⟨h.toSound, h.progress, fun hspares j => ?_, h.lost, h.tags, fun b _ => h.withRow b, h.accepted,
    fun _ _ => rfl, fun j _ => h.fresh j⟩
  have hj := h.rows hspares j
  split
  · rename_i hjk
    rwa [hjk] at hj ⊢
  · exact hj

/-- The end of a flush. -/
theorem Flushing.clear {s : Session} {k : Kind} {buf : Kind → List Row}
    (h : Flushing files l₀ prev k buf [] cs s) (ht : s.nav.tagBuf (bufOf k) = []) :
    Tracking files l₀ prev cs (s.setBuf k []) ∧ (s.setBuf k []).nav.buf = Function.update buf k [] := by
  have hother : ∀ j, j ≠ k → (s.setBuf k []).nav.buf j = s.nav.buf j := fun j hj =>
    Function.update_of_ne hj _ _
  have hself : (s.setBuf k []).nav.buf k = [] := Function.update_self _ _ _
  refine ⟨⟨⟨h.durable, h.sequence, h.tables⟩, h.progress, fun hspares j => ?_, h.lost, h.tags,
    fun b hb => ?_, h.accepted, fun j hj => ?_⟩, ?_⟩
  · refine (h.rows hspares j).trans (List.Perm.of_eq ?_)
    by_cases hjk : j = k
    · subst hjk
      rw [if_pos rfl, hself]
      rfl
    · rw [if_neg hjk, hother j hjk]
      rfl
  · have hbk : b ≠ bufOf k := fun hbk => hb (hbk ▸ ht)
    obtain ⟨j, hj, hne⟩ := h.withRow b hbk hb
    exact ⟨j, hj, by rwa [hother j fun hjk => hbk (hj ▸ congrArg bufOf hjk)]⟩
  · by_cases hjk : j = k
    · rw [hjk, hself]
    · exact (hother j hjk).trans (h.fresh j hjk hj)
  · funext j
    by_cases hjk : j = k
    · subst hjk
      rw [hself, Function.update_self]
    · rw [hother j hjk, h.frame j hjk, Function.update_of_ne hjk]

/-- What a flush that ends normally has done. -/
def Flushed (files : Int64 → List OSCChange) (l₀ : Ledger) (prev : Int64) (cs : List OSCChange) (k : Kind)
    (s s' : Session) : Prop :=
  Tracking files l₀ prev cs s' ∧ s'.nav.buf = Function.update s.nav.buf k []

theorem flushed_of_empty {s : Session} (h : Tracking files l₀ prev cs s) {k : Kind}
    (hk : (s.nav.buf k).isEmpty = true) : Flushed files l₀ prev cs k s s :=
  ⟨h, by rw [← List.isEmpty_iff.mp hk, Function.update_eq_self]⟩

/-- The steps behind the rows of a flush. -/
theorem ensures_finish {s s' : Session} {k : Kind} (h : Flushing files l₀ prev k s.nav.buf [] cs s') :
    Ensures (finalize_tags srv k >>= fun _ => modify fun s => s.setBuf k []) s'
      (fun _ => Flushed files l₀ prev cs k s) (fun _ => Sound files l₀) (Sound files l₀) := by
  apply ensures_bind
  refine (ensures_finalize_tags k s.nav.buf h).done fun _ t ht => ?_
  exact ensures_modify (ht.1.clear ht.2)

theorem ensures_flushNodes {s : Session} (h : Tracking files l₀ prev cs s) :
    Ensures (flushNodes srv) s (fun _ => Flushed files l₀ prev cs .node s) (fun _ => Sound files l₀)
      (Sound files l₀) := by
  have hcopied := (h.flushing .node).copied
  apply ensures_get_bind
  split
  · exact flushed_of_empty h ‹_›
  · apply ensures_bind
    refine ensures_send h.toSound ?_ hcopied.toSound fun e => h.toSound.refuse _ e
    exact ensures_finish hcopied

theorem ensures_flushViaTemp (k : Kind) {s : Session} (h : Tracking files l₀ prev cs s) :
    Ensures (flushViaTemp srv k) s (fun _ => Flushed files l₀ prev cs k s) (fun _ => Sound files l₀)
      (Sound files l₀) := by
  have hcopied := (h.flushing k).copied
  apply ensures_get_bind
  dsimp only
  split
  · exact flushed_of_empty h ‹_›
  · rename_i hne
    refine ensures_bind (ensures_attempt ?_)
    refine ensures_send h.toSound (ensures_finish hcopied) hcopied.toSound fun e => ?_
    have hfirst : (ledger files l₀ s).tally.refusedCopy ≠ some k := fun hk =>
      hne (List.isEmpty_iff.mpr (h.fresh k hk))
    obtain ⟨hrefused, hagain⟩ := (h.flushing k).refused hfirst e
    apply ensures_bind
    exact (ensures_tryCopyBatch k s.nav.buf _ hrefused hagain le_rfl).done fun _ t ht => ensures_finish ht

theorem ensures_flush (k : Kind) {s : Session} (h : Tracking files l₀ prev cs s) :
    Ensures (NavDB.flush srv k) s (fun _ => Flushed files l₀ prev cs k s) (fun _ => Sound files l₀)
      (Sound files l₀) := by
  cases k with
  | node => exact ensures_flushNodes h
  | way => exact ensures_flushViaTemp .way h
  | area => exact ensures_flushViaTemp .area h
  | road => exact ensures_flushViaTemp .road h
  | relation => exact ensures_flushViaTemp .relation h

end

end OsmImport
