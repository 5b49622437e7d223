import OsmImport.Db.Proofs.Cells
import OsmImport.Delta.Proofs.Journal

/-!
# Applying a change file again

The process dies while it applies a file, behind the transactions `p` of the `p ++ q` that the file takes,
and the whole file is applied again. If the second application builds the same geometries, then it sends
the same transactions, and the tables end as if the file had been applied once exactly if every cell stands
its operations again (`Harmless`): the rows are put under a primary key, but tags are added to what is
there.
-/

namespace OsmImport

open NavDB Replay DeltaApplier

/-! ## The condition -/

/-- The tables of ways, areas, roads and relations, and their tags. -/
def SameTables (a b : Database) : Prop :=
  ∀ k, k ≠ .node → (a.rows k).Perm (b.rows k) ∧ (a.tags k).Perm (b.tags k)

section

variable (chk : Checks) (env : Env) (db db' : Database)

/-- Each change of the second application finds what the geometry needs as it was. -/
def SameGeometries : List OSCChange → Journal → Journal → Prop
  | [], _, _ => True
  | c :: cs, j, j' => geometry env (j.tables chk db) c = geometry env (j'.tables chk db') c ∧
    SameGeometries cs (j.next chk env db c) (j'.next chk env db' c)

/-- What transactions do to the rows with an id. -/
def rowOpsOf (txns : List Txn) (k : Kind) (id : Int64) : List (SlotOp Row) :=
  txns.flatten.flatMap (Statement.rowOps chk k id)

/-- What they do to the values of a tag. -/
def tagOpsOf (txns : List Txn) (k : Kind) (id : Int64) (key : Str) : List (BagOp Str) :=
  txns.flatten.flatMap (Statement.tagOps k id key)

/-- The rows of an id are deleted by the file, or updated behind the interruption, or at the interruption
they are those of the last UPDATE; and a tag is removed by the file, or no COPY before the interruption has
it. -/
def Harmless (p q : List Txn) : Prop :=
  ∀ k, k ≠ .node → ∀ id,
    SlotOp.Repeatable (rowOpsOf chk p k id) (rowOpsOf chk q k id) (db.rowsAt k id) ∧
      ∀ key, BagOp.Repeatable (tagOpsOf p k id key) (tagOpsOf q k id key)

end

variable {chk : Checks} {env : Env} {db db' : Database} {srv : Server}

/-! ## The same transactions -/

/-- The journals differ in the node store only. -/
structure Alike (j j' : Journal) : Prop where
  nav : j'.nav = j.nav
  sent : j'.sent = j.sent

theorem Alike.send {j j' : Journal} (h : Alike j j') (txn : Txn) : Alike (j.send txn) (j'.send txn) :=
  ⟨h.nav, congrArg (· ++ [txn]) h.sent⟩

theorem Alike.flush {j j' : Journal} (h : Alike j j') (k : Kind) : Alike (j.flush k) (j'.flush k) := by
  unfold Journal.flush
  rw [h.nav, h.sent]
  split
  · exact h
  · exact ⟨rfl, rfl⟩

theorem Alike.insert {j j' : Journal} (h : Alike j j') (k : Kind) (row : Row) (tags : Tags) :
    Alike (j.insert k row tags) (j'.insert k row tags) := by
  have hb : Alike { j with nav := j.nav.buffered k row tags }
      { j' with nav := j'.nav.buffered k row tags } :=
    ⟨congrArg (NavDB.buffered · k row tags) h.nav, h.sent⟩
  unfold Journal.insert
  rw [h.nav] at hb ⊢
  split
  · exact hb.flush k
  · exact hb

theorem Alike.insertRoad {j j' : Journal} (h : Alike j j') (r : RelationEntry) (geom : Str) :
    Alike (j.insertRoad r geom) (j'.insertRoad r geom) := by
  unfold Journal.insertRoad
  split
  · exact h.insert ..
  · exact h

/-- The transactions of a change depend on its geometry and on the buffers. -/
theorem Alike.change {j j' : Journal} (h : Alike j j') (geom : Str × Bool) (c : OSCChange) :
    Alike (j.change env geom c) (j'.change env geom c) := by
  rcases c with ⟨_ | _ | _, n⟩ | ⟨_ | _ | _, w⟩ | ⟨_ | _ | _, r⟩
  · have hplace : Alike (j.place n.id (env.toMercator n.lon n.lat))
        (j'.place n.id (env.toMercator n.lon n.lat)) := ⟨h.nav, h.sent⟩
    unfold Journal.change
    dsimp only
    split
    · exact hplace
    · exact hplace.insert ..
  · have hplace : Alike (j.place n.id (env.toMercator n.lon n.lat))
        (j'.place n.id (env.toMercator n.lon n.lat)) := ⟨h.nav, h.sent⟩
    exact (hplace.send _).send _
  · have hremove : Alike (j.remove n.id) (j'.remove n.id) := ⟨h.nav, h.sent⟩
    exact hremove.send _
  · unfold Journal.change
    dsimp only
    split
    · exact h
    · exact h.insert ..
  · unfold Journal.change
    dsimp only
    split
    · exact h
    · exact ((h.send _).send _).send _
  · exact (h.send _).send _
  · exact (h.insert ..).insertRoad ..
  · exact ((h.send _).send _).insertRoad ..
  · exact (h.send _).send _

theorem Alike.changes {cs : List OSCChange} {j j' : Journal} (h : Alike j j')
    (hsame : SameGeometries chk env db db' cs j j') :
    Alike (cs.foldl (Journal.next chk env db) j) (cs.foldl (Journal.next chk env db') j') := by
  induction cs generalizing j j' with
  | nil => exact h
  | cons c cs ih =>
    obtain ⟨hgeom, hrest⟩ := hsame
    refine ih ?_ hrest
    unfold Journal.next
    rw [hgeom]
    exact h.change _ c

/-- The second application sends the same transactions. -/
theorem transactionsOf_eq {osmmap osmmap' : OSMMMap} {thread_id : ℕ} {cs : List OSCChange}
    (hsame : SameGeometries chk env db db' cs (.opened osmmap thread_id) (.opened osmmap' thread_id)) :
    transactionsOf chk env db' osmmap' thread_id cs = transactionsOf chk env db osmmap thread_id cs := by
  have hopened : Alike (.opened osmmap thread_id) (.opened osmmap' thread_id) := ⟨rfl, rfl⟩
  exact (((((hopened.changes hsame).flush .way).flush .area).flush .road).flush .relation).sent

/-! ## Cells -/

theorem rowsAt_effects (txns : List Txn) (k : Kind) (id : Int64) :
    (effects chk db txns).rowsAt k id = (rowOpsOf chk txns k id).foldl SlotOp.act (db.rowsAt k id) :=
  rowsAt_foldl db txns.flatten

theorem valuesAt_effects (txns : List Txn) (k : Kind) (id : Int64) (key : Str) :
    (effects chk db txns).valuesAt k id key =
      (tagOpsOf txns k id key).foldl BagOp.act (db.valuesAt k id key) :=
  valuesAt_foldl db txns.flatten

theorem rowOpsOf_append (p q : List Txn) (k : Kind) (id : Int64) :
    rowOpsOf chk (p ++ q) k id = rowOpsOf chk p k id ++ rowOpsOf chk q k id := by
  simp only [rowOpsOf, List.flatten_append, List.flatMap_append]

theorem tagOpsOf_append (p q : List Txn) (k : Kind) (id : Int64) (key : Str) :
    tagOpsOf (p ++ q) k id key = tagOpsOf p k id key ++ tagOpsOf q k id key := by
  simp only [tagOpsOf, List.flatten_append, List.flatMap_append]

/-- The transactions `p`, and then all of them, against all of them once. -/
theorem replay_iff_harmless (p q : List Txn) :
    SameTables (effects chk (effects chk db p) (p ++ q)) (effects chk db (p ++ q)) ↔
      Harmless chk db p q := by
  unfold SameTables Harmless
  refine forall_congr' fun k => imp_congr_right fun _ => ?_
  rw [rows_perm_iff, tags_perm_iff, ← forall_and]
  refine forall_congr' fun id => and_congr ?_ (forall_congr' fun key => ?_)
  · rw [rowsAt_effects, rowsAt_effects, rowsAt_effects, rowOpsOf_append]
    exact SlotOp.replay_iff ..
  · rw [valuesAt_effects, valuesAt_effects, valuesAt_effects, tagOpsOf_append]
    exact BagOp.replay_iff ..

/-! ## Applications -/

theorem follows_opened (osmmap : OSMMMap) (thread_id : ℕ) (db : Database) :
    Follows chk db (.opened osmmap thread_id) (Session.opened osmmap thread_id db) :=
  ⟨rfl, rfl, rfl⟩

/-- A process that dies has committed the first transactions. -/
theorem applyFile_died (hsrv : MayDie chk srv) {osmmap : OSMMMap} {thread_id : ℕ} {cs : List OSCChange}
    {s : Session} (h : (Replicator.applyFile srv env cs true).run (Session.opened osmmap thread_id db) =
      .died s) :
    ∃ p q, p ++ q = transactionsOf chk env db osmmap thread_id cs ∧ s.db = effects chk db p := by
  have hkeeps : KeepsJournal chk db (Replicator.applyFile srv env cs true) (.opened osmmap thread_id) _ :=
    journal_applyFile hsrv cs _
  have hrun := hkeeps.run _ (follows_opened osmmap thread_id db)
  unfold Prog.Ensures at hrun
  rw [h] at hrun
  obtain ⟨p, ⟨q, hq⟩, hdb⟩ := hrun
  exact ⟨p, q, hq, hdb⟩

/-- A file that is applied leaves the effect of its transactions. -/
theorem downloadAndApply_done {osmmap : OSMMMap} {thread_id : ℕ} {cs : List OSCChange} {seq : Int64}
    {s : Session} (h : (Replicator.downloadAndApply (postgres chk) env (.file cs true) seq).run
      (Session.opened osmmap thread_id db) = .done true s) :
    s.db = { effects chk db (transactionsOf chk env db osmmap thread_id cs) with sequence := some seq } := by
  have hsend : ∀ s' : Session, (setReplicationSequence (postgres chk) seq).run s' =
      .done () (s'.committed [.setSequence seq] .ok) := fun s' => send_postgres rfl
  have hrun : (Replicator.downloadAndApply (postgres chk) env (.file cs true) seq).Ensures
      (Session.opened osmmap thread_id db)
      (fun b s' => b = true → s'.db =
        { effects chk db (transactionsOf chk env db osmmap thread_id cs) with sequence := some seq })
      (fun _ _ => True) fun _ => True := by
    apply Prog.ensures_bind
    apply Prog.ensures_attempt
    apply Prog.ensures_bind
    refine ((journal_applyFile (mayDie_postgres chk) cs _).run _ (follows_opened ..)).mono ?_ ?_ ?_
    · rintro _ s' ⟨-, -, hdb⟩
      refine Prog.ensures_of_run (hsend s') fun _ => ?_
      show { s'.db with sequence := some seq } = _
      rw [hdb]
      rfl
    · exact fun _ _ _ hfalse => absurd hfalse (by decide)
    · exact fun _ _ => trivial
  unfold Prog.Ensures at hrun
  rw [h] at hrun
  exact hrun rfl

/-- **Applying a file again.** -/
theorem reapply_iff (chk : Checks) (env : Env) (osmmap osmmap' : OSMMMap) (thread_id : ℕ) (db : Database)
    (cs : List OSCChange) (seq : Int64) {srv : Server} (hsrv : MayDie chk srv) {s₁ s s₂ : Session}
    (hdied : (Replicator.applyFile srv env cs true).run (Session.opened osmmap thread_id db) = .died s₁)
    (honce : (Replicator.downloadAndApply (postgres chk) env (.file cs true) seq).run
      (Session.opened osmmap thread_id db) = .done true s)
    (hsame : SameGeometries chk env db s₁.db cs (.opened osmmap thread_id) (.opened osmmap' thread_id))
    (hagain : (Replicator.downloadAndApply (postgres chk) env (.file cs true) seq).run
      (Session.opened osmmap' thread_id s₁.db) = .done true s₂) :
    ∃ p q, p ++ q = transactionsOf chk env db osmmap thread_id cs ∧ s₁.db = effects chk db p ∧
      (SameTables s₂.db s.db ↔ Harmless chk db p q) := by
  obtain ⟨p, q, hpq, hdb⟩ := applyFile_died hsrv hdied
  refine ⟨p, q, hpq, hdb, ?_⟩
  rw [← replay_iff_harmless, hpq, ← hdb, downloadAndApply_done honce, downloadAndApply_done hagain,
    transactionsOf_eq hsame]
  rfl

/-! ## A relation that is created -/

/-- The process dies behind the transaction that follows on `n` answered ones. -/
def dying (chk : Checks) (n : ℕ) : Server where
  respond log db txn := match Postgres.complaints chk db txn with
    | none => if (log.filter fun e => match e with | .sent _ .ok => true | _ => false).length = n
      then .died true else .ok
    | some e => .error e
  answers _ _ := true

theorem mayDie_dying (chk : Checks) (n : ℕ) : MayDie chk (dying chk n) := by
  refine ⟨fun log db txn => ?_, fun _ _ => rfl⟩
  unfold dying postgres
  dsimp only
  cases Postgres.complaints chk db txn with
  | none =>
    dsimp only
    split
    · exact .inr (.inr ⟨rfl, rfl⟩)
    · exact .inl rfl
  | some e => exact .inl rfl

/-- A relation without ways. -/
def bare : RelationEntry := ⟨7, [], ⟨[(str "ref", str "A7")], by decide⟩, []⟩

/-- Dead behind the COPY of the row, nothing is lost and nothing is doubled. -/
theorem reapply_behind_rows : ∃ s₁ s s₂,
    (Replicator.applyFile (dying .any 0) plainEnv [.relation .create bare] true).run
      (Session.opened noStore 0 emptyDb) = .died s₁ ∧
    (Replicator.downloadAndApply (postgres .any) plainEnv (.file [.relation .create bare] true) 1).run
      (Session.opened noStore 0 emptyDb) = .done true s ∧
    (Replicator.downloadAndApply (postgres .any) plainEnv (.file [.relation .create bare] true) 1).run
      (Session.opened noStore 0 s₁.db) = .done true s₂ ∧
    ∃ p q, p ++ q = transactionsOf .any plainEnv emptyDb noStore 0 [.relation .create bare] ∧
      s₁.db = effects .any emptyDb p ∧ (SameTables s₂.db s.db ↔ Harmless .any emptyDb p q) := by
  refine ⟨_, _, _, rfl, rfl, rfl, ?_⟩
  exact reapply_iff .any plainEnv noStore noStore 0 emptyDb [.relation .create bare] 1 (mayDie_dying .any 0)
    rfl rfl ⟨rfl, trivial⟩ rfl

/-- Dead behind the COPY of the tags: the row is put once, the tag is there twice. -/
theorem tags_doubled : ∃ s₁ s s₂,
    (Replicator.applyFile (dying .any 1) plainEnv [.relation .create bare] true).run
      (Session.opened noStore 0 emptyDb) = .died s₁ ∧
    (Replicator.downloadAndApply (postgres .any) plainEnv (.file [.relation .create bare] true) 1).run
      (Session.opened noStore 0 emptyDb) = .done true s ∧
    (Replicator.downloadAndApply (postgres .any) plainEnv (.file [.relation .create bare] true) 1).run
      (Session.opened noStore 0 s₁.db) = .done true s₂ ∧
    s.db.tags .relation = [⟨7, str "ref", str "A7"⟩] ∧
    s₂.db.tags .relation = [⟨7, str "ref", str "A7"⟩, ⟨7, str "ref", str "A7"⟩] ∧
    ¬ SameTables s₂.db s.db := by
  refine ⟨_, _, _, rfl, rfl, rfl, rfl, rfl, fun h => ?_⟩
  have hlen := (h .relation (by decide)).2.length_eq
  exact absurd hlen (by decide)

end OsmImport
