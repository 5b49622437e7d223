import OsmImport.Delta.Journal
import OsmImport.Delta.Proofs.Order

/-!
# Runs follow the journal

Whatever the process does while it applies a change, its session is that of the journal (`Follows`), and
if it dies then the database holds the effect of the first transactions of the journal (`Cut`).
-/

namespace OsmImport

open NavDB KeyedInsert Postgres DeltaApplier

section

variable (chk : Checks) (db : Database)

/-- The session is that of the journal. -/
structure Follows (j : Journal) (s : Session) : Prop where
  osmmap : s.osmmap = j.osmmap
  nav : s.nav = j.nav
  db : s.db = effects chk db j.sent

/-- The database holds the effect of the first transactions. -/
def Cut (j : Journal) (s : Session) : Prop := ∃ p, p <+: j.sent ∧ s.db = effects chk db p

/-- The program does what the journal says, up to an exception. -/
structure KeepsJournal (m : Exec Unit) (j j' : Journal) : Prop where
  grows : j.sent <+: j'.sent
  run : ∀ s, Follows chk db j s → m.Ensures s (fun _ => Follows chk db j') (fun _ _ => True)
    (Cut chk db j')

end

variable {chk : Checks} {db : Database} {srv : Server} {env : Env}

theorem effects_append (a b : List Txn) :
    effects chk db (a ++ b) = effects chk (effects chk db a) b := by
  rw [effects, List.flatten_append, List.foldl_append]
  rfl

theorem effects_singleton (txn : Txn) :
    effects chk db [txn] = txn.foldl (Database.settle chk) db := by
  rw [effects, List.flatten_singleton]

/-! ## Rules -/

theorem Cut.mono {j j' : Journal} {s : Session} (h : Cut chk db j s) (hj : j.sent <+: j'.sent) :
    Cut chk db j' s := by
  obtain ⟨p, hp, hdb⟩ := h
  exact ⟨p, hp.trans hj, hdb⟩

theorem journal_pure (j : Journal) : KeepsJournal chk db (pure ()) j j := ⟨List.prefix_rfl, fun _ hs => hs⟩

theorem KeepsJournal.bind {m m' : Exec Unit} {j₁ j₂ j₃ : Journal} (h : KeepsJournal chk db m j₁ j₂)
    (h' : KeepsJournal chk db m' j₂ j₃) : KeepsJournal chk db (m >>= fun _ => m') j₁ j₃ := by
  refine ⟨h.grows.trans h'.grows, fun s hs => Prog.ensures_bind ?_⟩
  exact (h.run s hs).mono (fun _ s' hs' => h'.run s' hs') (fun _ _ _ => trivial)
    fun _ hcut => hcut.mono h'.grows

theorem journal_modify {f : Session → Session} {j j' : Journal} (hsent : j'.sent = j.sent)
    (h : ∀ s, Follows chk db j s → Follows chk db j' (f s)) :
    KeepsJournal chk db (Prog.modify f) j j' :=
  ⟨hsent ▸ List.prefix_rfl, fun s hs => Prog.ensures_modify (h s hs)⟩

/-- The program goes on with the session. -/
theorem journal_get {f : Session → Exec Unit} {j j' : Journal} (hj : j.sent <+: j'.sent)
    (h : ∀ s, Follows chk db j s → KeepsJournal chk db (f s) j j') : KeepsJournal chk db (Prog.get >>= f) j j' :=
  ⟨hj, fun s hs => Prog.ensures_get_bind ((h s hs).run s hs)⟩

/-! ## Transactions -/

/-- The answers to a transaction. -/
theorem send_mayDie (hsrv : MayDie chk srv) (txn : Txn) (s : Session) :
    (send srv txn).Ensures s
      (fun _ s' => complaints chk s.db txn = none ∧ s' = s.committed txn .ok)
      (fun e s' => complaints chk s.db txn = some e ∧ s' = s.record (.sent txn (.error e)))
      fun s' => s'.db = s.db ∨ complaints chk s.db txn = none ∧ s'.db = s.db.commit txn := by
  rcases hsrv.respond s.log s.db txn with h | h | ⟨h, hok⟩
  · cases hc : complaints chk s.db txn with
    | none => simp only [Prog.Ensures, send, h, postgres, hc, and_self]
    | some e => simp only [Prog.Ensures, send, h, postgres, hc, and_self]
  · simp only [Prog.Ensures, send, h]
    exact .inl rfl
  · simp only [Prog.Ensures, send, h]
    exact .inr ⟨hok, rfl⟩

/-- A transaction without a COPY of rows. -/
theorem journal_send (hsrv : MayDie chk srv) {txn : Txn}
    (h : ∀ db : Database, db.commit txn = txn.foldl (Database.settle chk) db) (j : Journal) :
    KeepsJournal chk db (send srv txn) j (j.send txn) := by
  refine ⟨List.prefix_append _ _, fun s hs => ?_⟩
  have hdb : s.db.commit txn = effects chk db (j.send txn).sent := by
    show _ = effects chk db (j.sent ++ [txn])
    rw [effects_append, effects_singleton, ← hs.db, h]
  refine (send_mayDie hsrv txn s).mono ?_ (fun _ _ _ => trivial) ?_
  · rintro _ _ ⟨-, rfl⟩
    exact ⟨hs.osmmap, hs.nav, hdb⟩
  · rintro s' (hsame | ⟨-, hcommit⟩)
    · exact ⟨j.sent, List.prefix_append _ _, hsame.trans hs.db⟩
    · exact ⟨_, List.prefix_rfl, hcommit.trans hdb⟩

/-! ## Flushes -/

/-- Behind the rows of a flush. -/
structure BufferCopied (chk : Checks) (k : Kind) (s s' : Session) : Prop where
  osmmap : s'.osmmap = s.osmmap
  nav : ∃ rows, s'.nav = s.nav.withBuf k rows
  db : s'.db = s.db.setRows k (s.settled chk k)

/-- The table as it was, or with the rows of the flush. -/
def MayBufferCopied (chk : Checks) (k : Kind) (s s' : Session) : Prop :=
  s'.db = s.db ∨ s'.db = s.db.setRows k (s.settled chk k)

theorem setRows_self (db : Database) (k : Kind) : db.setRows k (db.rows k) = db := by
  unfold Database.setRows
  rw [Function.update_eq_self]

theorem withBuf_self (nav : NavDB) (k : Kind) : nav.withBuf k (nav.buf k) = nav := by
  unfold withBuf
  rw [Function.update_eq_self]

theorem copied_of_fits {k : Kind} {s : Session}
    (h : firstBad Row.id (chk.rowOk k) ((s.db.rows k).map Row.id) (s.nav.buf k) = none) :
    s.db.commit [.copy k (s.nav.buf k)] = s.db.setRows k (s.settled chk k) := by
  rw [Session.settled, insertRows_of_fits h]
  rfl

theorem fits_of_complaints {d : Database} {k : Kind} {rows : List Row}
    (h : complaints chk d [.copy k rows] = none) :
    firstBad Row.id (chk.rowOk k) ((d.rows k).map Row.id) rows = none := by
  cases hbad : firstBad Row.id (chk.rowOk k) ((d.rows k).map Row.id) rows with
  | none => rfl
  | some i => simp [complaints, complaint, hbad] at h

theorem line_of_complaints {d : Database} {k : Kind} {rows : List Row} {e : SqlError}
    (h : complaints chk d [.copy k rows] = some e) :
    ∃ i, firstBad Row.id (chk.rowOk k) ((d.rows k).map Row.id) rows = some i ∧
      e = .line (i + 1) := by
  cases hbad : firstBad Row.id (chk.rowOk k) ((d.rows k).map Row.id) rows with
  | none => simp [complaints, complaint, hbad] at h
  | some i => exact ⟨i, rfl, by simpa [complaints, complaint, hbad] using h.symm⟩

/-- A COPY of the buffer. -/
theorem copy_mayDie (hsrv : MayDie chk srv) (k : Kind) (s : Session) :
    (send srv [.copy k (s.nav.buf k)]).Ensures s (fun _ => BufferCopied chk k s)
      (fun e s' => (∃ i, firstBad Row.id (chk.rowOk k) ((s.db.rows k).map Row.id) (s.nav.buf k) = some i ∧
        e = .line (i + 1)) ∧ s' = s.record (.sent [.copy k (s.nav.buf k)] (.error e)))
      (MayBufferCopied chk k s) := by
  refine (send_mayDie hsrv _ s).mono ?_ ?_ ?_
  · rintro _ _ ⟨hc, rfl⟩
    exact ⟨rfl, ⟨_, (withBuf_self s.nav k).symm⟩, copied_of_fits (fits_of_complaints hc)⟩
  · rintro e _ ⟨hc, rfl⟩
    exact ⟨line_of_complaints hc, rfl⟩
  · rintro s' (hsame | ⟨hc, hcommit⟩)
    · exact .inl hsame
    · exact .inr (hcommit.trans (copied_of_fits (fits_of_complaints hc)))

theorem copied_of_empty {k : Kind} {s : Session} (h : s.nav.buf k = []) : BufferCopied chk k s s := by
  refine ⟨rfl, ⟨_, (withBuf_self s.nav k).symm⟩, ?_⟩
  rw [Session.settled, h, insertRows_nil, setRows_self]

/-- The rounds of `tryCopyBatch`, of which only the last one commits. -/
theorem tryCopyBatch_mayDie (hsrv : MayDie chk srv) (k : Kind) {n : ℕ} {s : Session}
    (hn : (s.nav.buf k).length ≤ n) :
    (tryCopyBatch srv k n).Ensures s (fun _ => BufferCopied chk k s) (fun _ _ => True)
      (MayBufferCopied chk k s) := by
  induction n generalizing s with
  | zero => exact copied_of_empty (List.length_eq_zero_iff.mp (Nat.le_zero.mp hn))
  | succ n ih =>
    apply Prog.ensures_get_bind
    dsimp only
    split
    · rename_i hemp
      exact copied_of_empty (List.isEmpty_iff.mp hemp)
    · apply Prog.ensures_bind
      apply Prog.ensures_attempt
      refine (copy_mayDie hsrv k s).mono (fun _ _ h => h) ?_ fun _ h => h
      rintro _ _ ⟨⟨i, hbad, rfl⟩, rfl⟩
      obtain ⟨hi, hkeep⟩ := keep_eraseIdx hbad
      have hidx : ¬ ((i : ℤ) + 1 - 1 < 0 ∨ (i : ℤ) + 1 - 1 ≥ (s.nav.buf k).length) := by omega
      have hnat : ((i : ℤ) + 1 - 1).toNat = i := by omega
      dsimp only
      rw [if_neg hidx, hnat]
      apply Prog.ensures_bind
      apply Prog.ensures_modify
      have hlen : ((s.nav.buf k).eraseIdx i).length ≤ n := by
        rw [List.length_eraseIdx_of_lt hi]
        omega
      have hsettled : ((s.record (.sent [.copy k (s.nav.buf k)] (.error (.line (i + 1))))).setBuf k
          ((s.nav.buf k).eraseIdx i)).settled chk k = s.settled chk k := by
        rw [settled_setBuf]
        exact congrArg (s.db.rows k ++ ·) hkeep
      refine (ih ?_).mono ?_ (fun _ _ h => h) ?_
      · show (Function.update s.nav.buf k _ k).length ≤ n
        rw [Function.update_self]
        exact hlen
      · rintro _ s' ⟨hmap, ⟨rows, hnav⟩, hdb⟩
        rw [hsettled] at hdb
        refine ⟨hmap, ⟨rows, hnav.trans ?_⟩, hdb⟩
        exact congrArg (NavDB.mk _ · _) (Function.update_idem ..)
      · rintro s' (hdb | hdb)
        · exact .inl hdb
        · rw [hsettled] at hdb
          exact .inr hdb

theorem flush_eq {k : Kind} {j : Journal} (h : j.nav.buf k ≠ []) :
    j.flush k = ⟨j.osmmap, (j.nav.withTagBuf (bufOf k) []).withBuf k [],
      (j.sent ++ [[.copy k (j.nav.buf k)]]) ++ j.nav.sentTags k⟩ := by
  unfold Journal.flush
  rw [if_neg (by simpa using h), List.append_assoc]
  rfl

theorem sent_flush (k : Kind) (j : Journal) : j.sent <+: (j.flush k).sent := by
  unfold Journal.flush
  split
  · exact List.prefix_rfl
  · exact List.prefix_append _ _

theorem effects_copied {k : Kind} {j : Journal} {s s' : Session} (hs : Follows chk db j s)
    (h : s'.db = s.db.setRows k (s.settled chk k)) :
    s'.db = effects chk db (j.sent ++ [[.copy k (j.nav.buf k)]]) := by
  rw [effects_append, ← hs.db, ← hs.nav, h]
  rfl

/-- The tags behind the rows. -/
theorem finalize_copied (hsrv : MayDie chk srv) {k : Kind} {j : Journal} {s s' : Session}
    (hs : Follows chk db j s) (hne : j.nav.buf k ≠ []) (h : BufferCopied chk k s s') :
    (do finalize_tags srv k; Prog.modify fun s => s.setBuf k []).Ensures s'
      (fun _ => Follows chk db (j.flush k)) (fun _ _ => True) (Cut chk db (j.flush k)) := by
  obtain ⟨rows, hnav⟩ := h.nav
  have hdb := effects_copied hs h.db
  have htags : s'.nav.tagBuf (bufOf k) = j.nav.tagBuf (bufOf k) := by
    rw [hnav, ← hs.nav]
    rfl
  have hfinal : (s'.nav.withTagBuf (bufOf k) []).withBuf k [] =
      (j.nav.withTagBuf (bufOf k) []).withBuf k [] := by
    rw [hnav, ← hs.nav]
    exact congrArg (NavDB.mk _ · _) (Function.update_idem ..)
  rw [flush_eq hne]
  apply Prog.ensures_bind
  apply Prog.ensures_get_bind
  dsimp only
  split
  · rename_i hemp
    rw [List.isEmpty_iff] at hemp
    have hsame : s'.nav.withTagBuf (bufOf k) [] = s'.nav := by
      unfold withTagBuf
      rw [← hemp, Function.update_eq_self]
    have hsent : j.nav.sentTags k = [] := by
      unfold sentTags
      rw [← htags, hemp]
      rfl
    rw [hsent, List.append_nil, ← hfinal, hsame]
    exact ⟨h.osmmap.trans hs.osmmap, rfl, hdb⟩
  · rename_i hemp
    have hsent : j.nav.sentTags k = [[.copyTags k (j.nav.tagBuf (bufOf k))]] := by
      unfold sentTags
      rw [← htags, if_neg hemp]
    have heffect : s'.db.commit [.copyTags k (s'.nav.tagBuf (bufOf k))] = effects chk db
        ((j.sent ++ [[.copy k (j.nav.buf k)]]) ++ [[.copyTags k (j.nav.tagBuf (bufOf k))]]) := by
      rw [effects_append, ← hdb, htags]
      rfl
    rw [hsent]
    apply Prog.ensures_bind
    refine (send_mayDie hsrv _ s').mono ?_ (fun _ _ _ => trivial) ?_
    · rintro _ _ ⟨-, rfl⟩
      exact ⟨h.osmmap.trans hs.osmmap, hfinal, heffect⟩
    · rintro s'' (hsame | ⟨-, hcommit⟩)
      · exact ⟨_, List.prefix_append _ _, hsame.trans hdb⟩
      · exact ⟨_, List.prefix_rfl, hcommit.trans heffect⟩

theorem cut_mayCopied {k : Kind} {j : Journal} {s s' : Session} (hs : Follows chk db j s)
    (hne : j.nav.buf k ≠ []) (h : MayBufferCopied chk k s s') : Cut chk db (j.flush k) s' := by
  rw [flush_eq hne]
  rcases h with hsame | hcopied
  · exact ⟨j.sent, (List.prefix_append _ _).trans (List.prefix_append _ _), hsame.trans hs.db⟩
  · exact ⟨_, List.prefix_append _ _, effects_copied hs hcopied⟩

theorem journal_flushViaTemp (hsrv : MayDie chk srv) (k : Kind) (j : Journal) :
    KeepsJournal chk db (flushViaTemp srv k) j (j.flush k) := by
  refine ⟨sent_flush k j, fun s hs => Prog.ensures_get_bind ?_⟩
  dsimp only
  by_cases hemp : (s.nav.buf k).isEmpty
  · rw [if_pos hemp]
    have hflush : j.flush k = j := by
      unfold Journal.flush
      rw [← hs.nav, if_pos hemp]
    rw [hflush]
    exact hs
  · rw [if_neg hemp]
    have hne : j.nav.buf k ≠ [] := by
      rw [← hs.nav]
      simpa using hemp
    apply Prog.ensures_bind
    apply Prog.ensures_attempt
    refine (copy_mayDie hsrv k s).mono ?_ ?_ fun _ => cut_mayCopied hs hne
    · exact fun _ s' hs' => finalize_copied hsrv hs hne hs'
    · rintro e _ ⟨-, rfl⟩
      dsimp only
      apply Prog.ensures_bind
      have hrecord : Follows chk db j (s.record (.sent [.copy k (s.nav.buf k)] (.error e))) :=
        ⟨hs.osmmap, hs.nav, hs.db⟩
      have hbatch := tryCopyBatch_mayDie hsrv k
        (s := s.record (.sent [.copy k (s.nav.buf k)] (.error e))) (le_refl (s.nav.buf k).length)
      refine hbatch.mono ?_ (fun _ _ _ => trivial) fun _ => cut_mayCopied hrecord hne
      exact fun _ s' hs' => finalize_copied hsrv hrecord hne hs'

theorem journal_flush (hsrv : MayDie chk srv) (k : Kind) (j : Journal) :
    KeepsJournal chk db (NavDB.flush srv k) j (j.flush k) := by
  cases k with
  | node =>
    refine ⟨sent_flush .node j, fun s hs => Prog.ensures_get_bind ?_⟩
    by_cases hemp : (s.nav.buf .node).isEmpty
    · rw [if_pos hemp]
      have hflush : j.flush .node = j := by
        unfold Journal.flush
        rw [← hs.nav, if_pos hemp]
      rw [hflush]
      exact hs
    · rw [if_neg hemp]
      have hne : j.nav.buf .node ≠ [] := by
        rw [← hs.nav]
        simpa using hemp
      apply Prog.ensures_bind
      refine (copy_mayDie hsrv .node s).mono ?_ (fun _ _ _ => trivial) fun _ => cut_mayCopied hs hne
      exact fun _ s' hs' => finalize_copied hsrv hs hne hs'
  | way => exact journal_flushViaTemp hsrv .way j
  | area => exact journal_flushViaTemp hsrv .area j
  | road => exact journal_flushViaTemp hsrv .road j
  | relation => exact journal_flushViaTemp hsrv .relation j

theorem sent_insert (k : Kind) (row : Row) (tags : Tags) (j : Journal) :
    j.sent <+: (j.insert k row tags).sent := by
  unfold Journal.insert
  split
  · exact sent_flush k { j with nav := j.nav.buffered k row tags }
  · exact List.prefix_rfl

theorem journal_insertInto (hsrv : MayDie chk srv) (k : Kind) (row : Row) (tags : Tags) (j : Journal) :
    KeepsJournal chk db (insertInto srv k row tags) j (j.insert k row tags) := by
  refine ⟨sent_insert k row tags j, fun s hs => ?_⟩
  have hnav : (s.buffered k row tags).nav = j.nav.buffered k row tags := by
    rw [← hs.nav]
    rfl
  have hb : Follows chk db { j with nav := j.nav.buffered k row tags } (s.buffered k row tags) :=
    ⟨hs.osmmap, hnav, hs.db⟩
  show (if full (s.buffered k row tags).nav k then NavDB.flush srv k else pure ()).Ensures
    (s.buffered k row tags) _ _ _
  unfold Journal.insert
  rw [hnav]
  split
  · exact (journal_flush hsrv k _).run _ hb
  · exact hb

/-! ## Operations -/

theorem journal_deleteEntity (hsrv : MayDie chk srv) (k : Kind) (id : Int64) (j : Journal) :
    KeepsJournal chk db (deleteEntity srv id k) j (j.delete k id) :=
  journal_send hsrv (fun _ => rfl) j

theorem journal_updateIn (hsrv : MayDie chk srv) (k : Kind) (row : Row) (tags : Tags)
    (hrow : row.position = none) (j : Journal) :
    KeepsJournal chk db (updateIn srv k row.id row.name tags row.geog) j (j.update k row tags) := by
  obtain ⟨id, name, position, geog⟩ := row
  cases hrow
  exact journal_send hsrv (fun _ => rfl) j

theorem journal_place (id : Int64) (p : Coord) (j : Journal) :
    KeepsJournal chk db (storeInsert id p) j (j.place id p) := by
  refine ⟨List.prefix_rfl, fun s hs => ensures_storeInsert (fun _ => ⟨?_, hs.nav, hs.db⟩) trivial⟩
  unfold placed
  rw [hs.osmmap]
  rfl

theorem journal_createNode (hsrv : MayDie chk srv) (n : NodeEntry) (geom : Str × Bool) (j : Journal) :
    KeepsJournal chk db (createNode srv env n) j (j.change env geom (.node .create n)) := by
  refine (journal_place _ _ j).bind ?_
  rw [insertNode_eq]
  unfold Journal.change
  dsimp only
  split
  · exact journal_pure _
  · exact journal_insertInto hsrv .node _ _ _

theorem journal_modifyNode (hsrv : MayDie chk srv) (n : NodeEntry) (geom : Str × Bool) (j : Journal) :
    KeepsJournal chk db (modifyNode srv env n) j (j.change env geom (.node .modify n)) := by
  exact (journal_place _ _ j).bind ((journal_send hsrv (fun _ => rfl) _).bind (journal_send hsrv (fun _ => rfl) _))

theorem journal_deleteNode (hsrv : MayDie chk srv) (id : Int64) (j : Journal) :
    KeepsJournal chk db (deleteNode srv id) j ((j.remove id).delete .node id) := by
  have hremove : KeepsJournal chk db (Prog.modify fun s => { s with osmmap := s.osmmap.remove id }) j
      (j.remove id) := by
    refine journal_modify rfl fun s hs => ⟨?_, hs.nav, hs.db⟩
    rw [hs.osmmap]
    rfl
  exact hremove.bind (journal_deleteEntity hsrv .node id _)

theorem journal_createWay (hsrv : MayDie chk srv) (w : WayEntry) (j : Journal) :
    KeepsJournal chk db (createWay srv env w) j
      (j.change env (DeltaApplier.buildWayGeom env j.osmmap w) (.way .create w)) := by
  unfold Journal.change
  dsimp only
  refine journal_get ?_ fun s hs => ?_
  · split
    · exact List.prefix_rfl
    · exact sent_insert ..
  · rw [hs.osmmap]
    generalize DeltaApplier.buildWayGeom env j.osmmap w = way
    obtain ⟨geom, is_closed⟩ := way
    dsimp only
    split
    · exact journal_pure j
    · cases is_closed with
      | false =>
        rw [insertWay_eq]
        exact journal_insertInto hsrv .way _ _ j
      | true =>
        rw [insertArea_eq]
        exact journal_insertInto hsrv .area _ _ j

theorem journal_modifyWay (hsrv : MayDie chk srv) (w : WayEntry) (j : Journal) :
    KeepsJournal chk db (modifyWay srv env w) j
      (j.change env (DeltaApplier.buildWayGeom env j.osmmap w) (.way .modify w)) := by
  unfold Journal.change
  dsimp only
  generalize hgeom : DeltaApplier.buildWayGeom env j.osmmap w = way
  obtain ⟨geom, is_closed⟩ := way
  dsimp only
  have hway : KeepsJournal chk db (deleteEntity srv w.id .way) j (j.delete .way w.id) :=
    journal_deleteEntity hsrv .way w.id j
  have harea : KeepsJournal chk db (deleteEntity srv w.id .area) (j.delete .way w.id)
      ((j.delete .way w.id).delete .area w.id) := journal_deleteEntity hsrv .area w.id _
  have hupdate : KeepsJournal chk db (if is_closed then updateArea srv w.id w.name w.tags geom
      else updateWay srv w.id w.name w.tags geom) ((j.delete .way w.id).delete .area w.id)
      (((j.delete .way w.id).delete .area w.id).update (wayKind is_closed) (wayRow w geom) w.tags) := by
    cases is_closed with
    | false => exact journal_updateIn hsrv .way (wayRow w geom) w.tags rfl _
    | true => exact journal_updateIn hsrv .area (wayRow w geom) w.tags rfl _
  refine journal_get ?_ fun s hs => ?_
  · split
    · exact List.prefix_rfl
    · exact (hway.bind (harea.bind hupdate)).grows
  · rw [hs.osmmap, hgeom]
    dsimp only
    split
    · exact journal_pure j
    · exact hway.bind (harea.bind hupdate)

theorem journal_deleteBoth (hsrv : MayDie chk srv) (id : Int64) (k k' : Kind) (j : Journal) :
    KeepsJournal chk db (do deleteEntity srv id k; deleteEntity srv id k') j
      ((j.delete k id).delete k' id) :=
  (journal_deleteEntity hsrv k id j).bind (journal_deleteEntity hsrv k' id _)

theorem journal_insertRoad (hsrv : MayDie chk srv) (r : RelationEntry) (geom : Str) (j : Journal) :
    KeepsJournal chk db (if isRoad r.tags && !geom.isEmpty then
      insertRoad srv r.id r.name r.tags geom else pure ()) j (j.insertRoad r geom) := by
  unfold Journal.insertRoad
  split
  · rw [insertRoad_eq]
    exact journal_insertInto hsrv .road (roadRow r geom) r.tags j
  · exact journal_pure j

/-! ## Reads -/

theorem ask_mayDie (hsrv : MayDie chk srv) {α : Type} (f : Database → α) :
    ask srv f = ask (postgres chk) f := by
  ext s
  show Outcome.done (if srv.answers s.log s.db then some (f s.db) else none) _ = _
  rw [hsrv.answers]
  rfl

theorem memberGeoms_mayDie (hsrv : MayDie chk srv) (ms : List RelationMember) :
    memberGeoms srv ms = memberGeoms (postgres chk) ms := by
  induction ms with
  | nil => rfl
  | cons m ms ih => rw [memberGeoms, memberGeoms, getWay, getWay, ask_mayDie hsrv, ih]

/-- The geometry of a relation, read from a server that answers. -/
theorem buildRelationGeom_mayDie (hsrv : MayDie chk srv) (r : RelationEntry) (s : Session) :
    Answers (buildRelationGeom srv env r) s ((Tables.mk s.osmmap s.db.rows).relationGeom env r) := by
  unfold buildRelationGeom
  rw [memberGeoms_mayDie hsrv]
  apply Prog.ensures_bind
  refine (memberGeoms_answers r.way_members s).done ?_
  rintro geoms s' ⟨rfl, hsame⟩
  exact ⟨rfl, hsame⟩

theorem journal_relation (hsrv : MayDie chk srv) (r : RelationEntry) {m : Str → Exec Unit} {j j' : Journal}
    (h : KeepsJournal chk db (m ((j.tables chk db).relationGeom env r)) j j') :
    KeepsJournal chk db (buildRelationGeom srv env r >>= m) j j' := by
  refine ⟨h.grows, fun s hs => Prog.ensures_bind ?_⟩
  refine (buildRelationGeom_mayDie hsrv r s).mono ?_ (fun _ _ => False.elim) fun _ => False.elim
  rintro geom s' ⟨rfl, hmap, hnav, hdb⟩
  have hs' : Follows chk db j s' := ⟨hmap.trans hs.osmmap, hnav.trans hs.nav, hdb.trans hs.db⟩
  have htables : Tables.mk s.osmmap s.db.rows = j.tables chk db := by
    rw [hs.osmmap, hs.db]
    rfl
  rw [htables]
  exact h.run s' hs'

theorem journal_createRelation (hsrv : MayDie chk srv) (r : RelationEntry) (j : Journal) :
    KeepsJournal chk db (createRelation srv env r) j (j.next chk env db (.relation .create r)) := by
  refine journal_relation hsrv r ?_
  refine KeepsJournal.bind ?_ (journal_insertRoad hsrv r _ _)
  rw [insertRelation_eq]
  exact journal_insertInto hsrv .relation _ _ j

theorem journal_modifyRelation (hsrv : MayDie chk srv) (r : RelationEntry) (j : Journal) :
    KeepsJournal chk db (modifyRelation srv env r) j (j.next chk env db (.relation .modify r)) := by
  refine journal_relation hsrv r ?_
  refine KeepsJournal.bind (journal_updateIn hsrv .relation (relationRow r _) r.tags rfl j) ?_
  exact (journal_deleteEntity hsrv .road r.id _).bind (journal_insertRoad hsrv r _ _)

/-! ## Files -/

/-- A change. -/
theorem journal_apply (hsrv : MayDie chk srv) (c : OSCChange) (j : Journal) :
    KeepsJournal chk db (DeltaApplier.apply srv env c) j (j.next chk env db c) := by
  have hrecord : KeepsJournal chk db (Prog.modify fun s => s.record (.change c)) j j :=
    journal_modify rfl fun s hs => ⟨hs.osmmap, hs.nav, hs.db⟩
  refine hrecord.bind ?_
  rcases c with ⟨_ | _ | _, n⟩ | ⟨_ | _ | _, w⟩ | ⟨_ | _ | _, r⟩
  · exact journal_createNode hsrv n _ j
  · exact journal_modifyNode hsrv n _ j
  · exact journal_deleteNode hsrv n.id j
  · exact journal_createWay hsrv w j
  · exact journal_modifyWay hsrv w j
  · exact journal_deleteBoth hsrv w.id .way .area j
  · exact journal_createRelation hsrv r j
  · exact journal_modifyRelation hsrv r j
  · exact journal_deleteBoth hsrv r.id .relation .road j

theorem journal_changes (hsrv : MayDie chk srv) (cs : List OSCChange) (j : Journal) :
    KeepsJournal chk db (Prog.forEach cs (DeltaApplier.apply srv env)) j
      (cs.foldl (Journal.next chk env db) j) := by
  induction cs generalizing j with
  | nil => exact journal_pure j
  | cons c cs ih => exact (journal_apply hsrv c j).bind (ih _)

/-- **The journal.** A whole file. -/
theorem journal_applyFile (hsrv : MayDie chk srv) (cs : List OSCChange) (j : Journal) :
    KeepsJournal chk db (Replicator.applyFile srv env cs true) j (j.file chk env db cs) := by
  refine (journal_changes hsrv cs j).bind ?_
  have hways : KeepsJournal chk db (finalize_ways srv) (cs.foldl (Journal.next chk env db) j)
      (((cs.foldl (Journal.next chk env db) j).flush .way).flush .area) :=
    (journal_flush hsrv .way _).bind (journal_flush hsrv .area _)
  exact hways.bind ((journal_flush hsrv .road _).bind (journal_flush hsrv .relation _))

end OsmImport
