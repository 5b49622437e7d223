import OsmImport.Delta.Archive
import OsmImport.Db.Proofs.Frame
import OsmImport.Delta.Proofs.OSCRoundTrip
import OsmImport.Delta.Proofs.Operations
import OsmImport.Delta.Proofs.Replication

/-!
# Following an archive

Different files have different URLs, so an archive stays faithful while its feeds grow. A process that polls
it, whatever the network, the server and the system do to it, takes the steps of a copy: it applies changes of
the file behind the stored number, and it stores the next number when it has applied all of them.
-/

namespace OsmImport

open NavDB Prog Replicator

/-! ## URLs -/

/-- The parts before and behind the first `x`. -/
theorem append_cons_cancel {α : Type} {x : α} {a a' r r' : List α} (ha : x ∉ a) (ha' : x ∉ a')
    (h : a ++ x :: r = a' ++ x :: r') : a = a' ∧ r = r' := by
  induction a generalizing a' with
  | nil => cases a' with
    | nil => exact ⟨rfl, (List.cons.inj h).2⟩
    | cons c a' =>
      rw [List.nil_append, List.cons_append] at h
      exact absurd ((List.cons.inj h).1 ▸ List.mem_cons_self) ha'
  | cons c a ih => cases a' with
    | nil =>
      rw [List.nil_append, List.cons_append] at h
      exact absurd ((List.cons.inj h).1 ▸ List.mem_cons_self) ha
    | cons d a' =>
      rw [List.cons_append, List.cons_append] at h
      obtain ⟨rfl, htail⟩ := List.cons.inj h
      obtain ⟨rfl, hr⟩ := ih (fun hx => ha (List.mem_cons_of_mem _ hx))
        (fun hx => ha' (List.mem_cons_of_mem _ hx)) htail
      exact ⟨rfl, hr⟩

theorem tdiv_tdiv_thousand (x : ℤ) : (x.tdiv 1000).tdiv 1000 = x.tdiv 1000000 := by
  rcases le_total 0 x with h | h
  · rw [Int.tdiv_eq_ediv_of_nonneg h, Int.tdiv_eq_ediv_of_nonneg h, Int.tdiv_eq_ediv_of_nonneg (by omega)]
    omega
  · obtain ⟨y, rfl⟩ : ∃ y, x = -y := ⟨-x, by omega⟩
    have hy : 0 ≤ y := by omega
    rw [Int.neg_tdiv, Int.neg_tdiv, Int.neg_tdiv, Int.tdiv_eq_ediv_of_nonneg hy,
      Int.tdiv_eq_ediv_of_nonneg hy, Int.tdiv_eq_ediv_of_nonneg (by omega)]
    omega

/-- A number, from the three parts of its path. -/
theorem toInt_of_parts (x : Int64) :
    x.toInt = 1000 * (1000 * (x / 1000000).toInt + (x / 1000 % 1000).toInt) + (x % 1000).toInt := by
  have hmillions : (x / 1000000).toInt = x.toInt.tdiv 1000000 :=
    Int64.toInt_div_of_ne_right x 1000000 (by decide)
  have hthousands : (x / 1000).toInt = x.toInt.tdiv 1000 := Int64.toInt_div_of_ne_right x 1000 (by decide)
  have hthousand : (1000 : Int64).toInt = 1000 := rfl
  have hlow := Int.mul_tdiv_add_tmod x.toInt 1000
  have hhigh := Int.mul_tdiv_add_tmod (x.toInt.tdiv 1000) 1000
  rw [tdiv_tdiv_thousand] at hhigh
  rw [Int64.toInt_mod, Int64.toInt_mod, hmillions, hthousands, hthousand]
  omega

theorem slash_not_mem_setw3 (i : Int64) : 47 ∉ setw3 i := by
  intro h
  rcases Decimal.mem_padded h with h | h
  · cases h
  · cases h

/-- Different numbers have different paths. -/
theorem sequenceToPath_injective : Function.Injective sequenceToPath := by
  intro a b h
  have hslash : ∀ seq, sequenceToPath seq =
      setw3 (seq / 1000000) ++ 47 :: (setw3 (seq / 1000 % 1000) ++ 47 :: setw3 (seq % 1000)) := by
    intro seq
    rw [sequenceToPath, List.append_assoc, List.append_assoc, List.append_assoc]
    rfl
  rw [hslash, hslash] at h
  obtain ⟨hmillions, h⟩ := append_cons_cancel (slash_not_mem_setw3 _) (slash_not_mem_setw3 _) h
  obtain ⟨hthousands, hlow⟩ := append_cons_cancel (slash_not_mem_setw3 _) (slash_not_mem_setw3 _) h
  apply Int64.toInt_inj.mp
  rw [toInt_of_parts a, toInt_of_parts b, Decimal.padded_injective 3 hmillions,
    Decimal.padded_injective 3 hthousands, Decimal.padded_injective 3 hlow]

/-- The base URLs are told apart by the first letter of their last part. -/
theorem baseUrl_append_inj {g g' : ReplicationGranularity} {x y : Str}
    (h : baseUrl g ++ x = baseUrl g' ++ y) : g = g' ∧ x = y := by
  have hletter : ((baseUrl g ++ x).drop 45).head? = ((baseUrl g' ++ y).drop 45).head? :=
    congrArg (fun url => (url.drop 45).head?) h
  have hg : g = g' := by
    cases g <;> cases g' <;> first | rfl | cases hletter
  subst hg
  exact ⟨rfl, List.append_cancel_left h⟩

theorem fileUrl_inj {g g' : ReplicationGranularity} {seq seq' : Int64} (h : fileUrl g seq = fileUrl g' seq') :
    g = g' ∧ seq = seq' := by
  simp only [fileUrl, List.append_assoc] at h
  obtain ⟨rfl, hrest⟩ := baseUrl_append_inj h
  have hpath := List.append_cancel_right (List.append_cancel_left hrest)
  exact ⟨rfl, sequenceToPath_injective hpath⟩

theorem stateUrl_inj {g g' : ReplicationGranularity} (h : stateUrl g = stateUrl g') : g = g' :=
  (baseUrl_append_inj h).1

/-- `state.txt` is no change file: they end with different letters. -/
theorem stateUrl_ne_fileUrl (g g' : ReplicationGranularity) (seq : Int64) : stateUrl g ≠ fileUrl g' seq := by
  intro h
  have hlast : (stateUrl g).getLast? = (fileUrl g' seq).getLast? := congrArg List.getLast? h
  rw [stateUrl, fileUrl, List.getLast?_append, List.getLast?_append] at hlast
  cases hlast

/-! ## The archive -/

/-- Behind a number that is not the greatest comes the next one. -/
theorem toInt_add_one {a b : Int64} (h : a < b) : (a + 1).toInt = a.toInt + 1 := by
  have hlower := a.le_toInt
  have hupper := b.toInt_le
  have hmax : Int64.maxValue.toInt = 2 ^ 63 - 1 := rfl
  have hone : (1 : Int64).toInt = 1 := rfl
  rw [Int64.lt_iff_toInt_lt] at h
  rw [Int64.toInt_add, hone, Int.bmod_eq_of_le] <;> omega

section

variable {archive : Archive} {feeds : Feeds} {g : ReplicationGranularity}

theorem Archive.put_self (url : Str) (document : Bytes) :
    (archive.put url document).documents url = some document := Function.update_self ..

theorem Archive.put_of_ne {url url' : Str} (h : url' ≠ url) (document : Bytes) :
    (archive.put url document).documents url' = archive.documents url' := Function.update_of_ne h ..

theorem Archive.publish_self (archive : Archive) (feeds : Feeds) (g : ReplicationGranularity) :
    (archive.publish feeds g).documents (fileUrl g (archive.last g + 1)) =
      some (feeds g (archive.last g + 1)) := put_self ..

theorem Archive.publish_of_ne {url : Str} (h : url ≠ fileUrl g (archive.last g + 1)) :
    (archive.publish feeds g).documents url = archive.documents url := put_of_ne h _

/-- A feed does not shrink. -/
theorem Archive.Faithful.last_le_publish (h : archive.Faithful feeds) (g g' : ReplicationGranularity) :
    archive.last g' ≤ (archive.publish feeds g).last g' := by
  show _ ≤ Function.update archive.last g (archive.last g + 1) g'
  by_cases hg : g' = g
  · subst hg
    rw [Function.update_self, Int64.le_iff_toInt_le, toInt_add_one (h.bounded g')]
    omega
  · rw [Function.update_of_ne hg]
    exact Int64.le_refl _

theorem Archive.Faithful.publish (h : archive.Faithful feeds) (hlast : archive.last g + 1 < Int64.maxValue) :
    (archive.publish feeds g).Faithful feeds := by
  constructor
  · intro g'
    show Function.update archive.last g (archive.last g + 1) g' < _
    by_cases hg : g' = g
    · subst hg
      rwa [Function.update_self]
    · rw [Function.update_of_ne hg]
      exact h.bounded g'
  · intro g' seq file hfile
    by_cases hurl : fileUrl g' seq = fileUrl g (archive.last g + 1)
    · obtain ⟨rfl, rfl⟩ := fileUrl_inj hurl
      rw [publish_self] at hfile
      refine ⟨(Option.some.inj hfile).symm, ?_⟩
      show _ ≤ Function.update archive.last g' (archive.last g' + 1) g'
      rw [Function.update_self]
      exact Int64.le_refl _
    · rw [publish_of_ne hurl] at hfile
      obtain ⟨hcontent, hseq⟩ := h.files g' seq file hfile
      exact ⟨hcontent, Int64.le_trans hseq (h.last_le_publish g g')⟩
  · intro g' text seq htext hseq
    rw [publish_of_ne (stateUrl_ne_fileUrl _ _ _)] at htext
    exact Int64.le_trans (h.states g' text seq htext hseq) (h.last_le_publish g g')

theorem Archive.Faithful.announce (h : archive.Faithful feeds) {text : Bytes}
    (htext : ∀ seq, remoteSequence text = some seq → seq ≤ archive.last g) :
    (archive.put (stateUrl g) text).Faithful feeds := by
  refine ⟨h.bounded, ?_, ?_⟩
  · intro g' seq file hfile
    rw [put_of_ne (stateUrl_ne_fileUrl _ _ _).symm] at hfile
    exact h.files g' seq file hfile
  · intro g' text' seq htext' hseq
    by_cases hg : g' = g
    · subst hg
      rw [put_self] at htext'
      obtain rfl := Option.some.inj htext'
      exact htext seq hseq
    · rw [put_of_ne fun hurl => hg (stateUrl_inj hurl)] at htext'
      exact h.states g' text' seq htext' hseq

end

/-! ## Progress -/

/-- The changes so far, and the stored number. -/
def progressOf (s : Session) : List OSCChange × Option Int64 := (changesOf s.log, s.db.sequence)

theorem changesOf_append (log log' : List Event) : changesOf (log ++ log') = changesOf log ++ changesOf log' :=
  List.filterMap_append

/-- A statement that stores no number. -/
def Statement.Unnumbered : Statement → Prop
  | .setSequence _ => False
  | _ => True

theorem sequence_unnumbered {db : Database} {txn : List Statement} (h : ∀ st ∈ txn, st.Unnumbered) :
    (db.commit txn).sequence = db.sequence := by
  induction txn generalizing db with
  | nil => rfl
  | cons st txn ih =>
    rw [Database.commit_cons, ih fun st hst => h st (List.mem_cons_of_mem _ hst)]
    have hst := h st List.mem_cons_self
    cases st <;> first | rfl | exact hst.elim

section

variable {srv : Server} {env : Env}

theorem keeps_progress_send {txn : List Statement} (h : ∀ st ∈ txn, st.Unnumbered) :
    Keeps progressOf (send srv txn) := by
  refine keeps_send (fun s r => Prod.ext ?_ (sequence_unnumbered h)) fun s r => Prod.ext ?_ rfl
  all_goals exact (changesOf_append ..).trans (List.append_nil _)

theorem untouched_progress (k : Kind) : Untouched srv progressOf k where
  copy _ := keeps_progress_send fun st hst => by rw [List.mem_singleton.mp hst]; trivial
  copyTags _ := keeps_progress_send fun st hst => by rw [List.mem_singleton.mp hst]; trivial
  buf _ _ := rfl
  tagBuf _ _ := rfl

theorem pieces_progress (srv : Server) :
    Pieces srv (fun _ => True) (fun _ => True) fun m => Keeps progressOf m where
  toCompositional := compositional_keeps progressOf
  send txn h := keeps_progress_send fun st hst => by
    have hplain := h st hst
    cases st <;> trivial
  ask _ := fun _ => Prod.ext ((changesOf_append ..).trans (List.append_nil _)) rfl
  place id pos _ := DeltaApplier.keeps_storeInsert (fun _ _ => rfl) id pos
  remove _ _ := keeps_modify fun _ => rfl
  insertInto k _ _ _ := compositional_insertInto (compositional_keeps _)
    (keeps_modify fun _ => Prod.ext ((changesOf_append ..).trans (List.append_nil _)) rfl)
    (keeps_modify fun _ => Prod.ext ((changesOf_append ..).trans (List.append_nil _)) rfl)
    (untouched_progress k).flush
  flush k _ := (untouched_progress k).flush

/-! ## Files -/

/-- Behind `s` the changes were applied, and no number was stored. -/
def Applied (s : Session) (changes : List OSCChange) (s' : Session) : Prop :=
  progressOf s' = (changesOf s.log ++ changes, s.db.sequence)

/-- Behind `s` the first of the changes were applied, and no number was stored. -/
def Partly (s : Session) (changes : List OSCChange) (s' : Session) : Prop :=
  ∃ some, some <+: changes ∧ Applied s some s'

/-- Behind `s` the changes were applied and their number was stored. -/
def Advanced (s : Session) (changes : List OSCChange) (seq : Int64) (s' : Session) : Prop :=
  progressOf s' = (changesOf s.log ++ changes, some seq)

theorem Applied.partly {s s' : Session} {changes : List OSCChange} (h : Applied s changes s') :
    Partly s changes s' := ⟨changes, List.prefix_rfl, h⟩

theorem Applied.trans {s s' s'' : Session} {changes changes' : List OSCChange} (h : Applied s changes s')
    (h' : Applied s' changes' s'') : Applied s (changes ++ changes') s'' := by
  obtain ⟨hlog, hseq⟩ := Prod.mk.inj h
  obtain ⟨hlog', hseq'⟩ := Prod.mk.inj h'
  refine Prod.ext ?_ (hseq'.trans hseq)
  rw [← List.append_assoc, ← hlog]
  exact hlog'

theorem applied_of_eq {s s' : Session} (h : progressOf s' = progressOf s) : Applied s [] s' := by
  rw [Applied, List.append_nil]
  exact h

theorem ensures_apply_change (c : OSCChange) (s : Session) :
    Ensures (DeltaApplier.apply srv env c) s (fun _ => Applied s [c]) (fun _ => Applied s [c])
      (Applied s [c]) := by
  have hrecord : Applied s [c] (s.record (.change c)) := Prod.ext (changesOf_append ..) rfl
  have hwithin : c.Within (fun _ => True) fun _ => True := c.within_of_forall (fun _ => trivial) fun _ => trivial
  refine ((pieces_progress srv).operation c hwithin).ensures.mono (fun _ s' h => ?_) (fun _ s' h => ?_)
    fun s' h => ?_
  all_goals exact h.trans hrecord

theorem ensures_applied (changes : List OSCChange) (s : Session) :
    Ensures (forEach changes (DeltaApplier.apply srv env)) s (fun _ => Applied s changes)
      (fun _ => Partly s changes) (Partly s changes) := by
  induction changes generalizing s with
  | nil => exact applied_of_eq rfl
  | cons c changes ih =>
    have hone : ∀ s', Applied s [c] s' → Partly s (c :: changes) s' :=
      fun s' h => ⟨[c], ⟨changes, rfl⟩, h⟩
    refine ensures_bind ((ensures_apply_change c s).mono (fun _ s' h => ?_) (fun _ => hone) hone)
    have hrest : ∀ s'', Partly s' changes s'' → Partly s (c :: changes) s'' := by
      rintro s'' ⟨some, ⟨rest, rfl⟩, h'⟩
      exact ⟨c :: some, ⟨rest, rfl⟩, h.trans h'⟩
    exact (ih s').mono (fun _ s'' h' => h.trans h') (fun _ => hrest) hrest

/-- A file that is applied to its end could be read to its end. -/
theorem ensures_applyFile_progress (changes : List OSCChange) (intact : Bool) (s : Session) :
    Ensures (applyFile srv env changes intact) s (fun _ s' => Applied s changes s' ∧ intact = true)
      (fun _ => Partly s changes) (Partly s changes) := by
  refine ensures_bind ((ensures_applied changes s).done fun _ s' h => ?_)
  cases intact with
  | false => exact h.partly
  | true =>
    have hflush : ∀ s'', progressOf s'' = progressOf s' → Applied s changes s'' := fun s'' hs'' => hs''.trans h
    refine ((pieces_progress srv).flushAll fun _ _ => trivial).ensures.mono
      (fun _ s'' h' => ⟨hflush s'' h', rfl⟩) ?_ ?_
    · exact fun _ s'' h' => (hflush s'' h').partly
    · exact fun s'' h' => (hflush s'' h').partly

theorem ensures_stored (srv : Server) (seq : Int64) (s : Session) :
    Ensures (setReplicationSequence srv seq) s (fun _ => Advanced s [] seq) (fun _ => Applied s [])
      fun s' => Applied s [] s' ∨ Advanced s [] seq s' := by
  have hrecord : ∀ r, changesOf (s.log ++ [.sent [.setSequence seq] r]) = changesOf s.log ++ [] :=
    fun r => changesOf_append ..
  unfold Ensures setReplicationSequence send
  dsimp only
  cases srv.respond s.log s.db [.setSequence seq] with
  | ok => exact Prod.ext (hrecord _) rfl
  | error e => exact Prod.ext (hrecord _) rfl
  | died committed => cases committed with
    | true => exact .inr (Prod.ext (hrecord _) rfl)
    | false => exact .inl (Prod.ext (hrecord _) rfl)

/-- What a process has done with a file, whichever way it ends. -/
theorem ensures_downloaded (srv : Server) (env : Env) (changes : List OSCChange) (intact : Bool) (seq : Int64)
    (s : Session) :
    Ensures (downloadAndApply srv env (.file changes intact) seq) s
      (fun b s' => if b = true then Advanced s changes seq s' ∧ intact = true else Partly s changes s')
      (fun _ _ => False) fun s' => Partly s changes s' ∨ Advanced s changes seq s' ∧ intact = true := by
  refine ensures_bind (ensures_attempt (ensures_bind ?_))
  refine (ensures_applyFile_progress changes intact s).mono (fun _ s' h => ?_) (fun _ _ h => h) fun _ h => .inl h
  obtain ⟨happlied, hintact⟩ := h
  have hadvanced : ∀ s'', Advanced s' [] seq s'' → Advanced s changes seq s'' := by
    intro s'' h'
    rw [Advanced, List.append_nil] at h'
    exact h'.trans (Prod.ext (Prod.mk.inj happlied).1 rfl)
  have hpartly : ∀ s'', Applied s' [] s'' → Partly s changes s'' := by
    intro s'' h'
    have h'' := happlied.trans h'
    rw [List.append_nil] at h''
    exact h''.partly
  refine (ensures_stored srv seq s').mono (fun _ s'' h' => ?_) (fun _ s'' h' => hpartly s'' h') fun s'' h' => ?_
  · exact ⟨hadvanced s'' h', hintact⟩
  · exact h'.imp (hpartly s'') fun h' => ⟨hadvanced s'' h', hintact⟩

/-- The stored number is looked up; without one, or without an answer, it is -1. -/
theorem run_getReplicationSequence_any (srv : Server) (s : Session) :
    ∃ loc s', (getReplicationSequence srv).run s = .done loc s' ∧ progressOf s' = progressOf s ∧
      (0 ≤ loc → s.db.sequence = some loc) := by
  have hasked : ∀ ok, progressOf (s.record (.asked ok)) = progressOf s :=
    fun ok => Prod.ext ((changesOf_append ..).trans (List.append_nil _)) rfl
  cases hseq : s.db.sequence with
  | some seq =>
    refine ⟨_, _, run_getReplicationSequence srv hseq, hasked _, fun h => ?_⟩
    cases ha : srv.answers s.log s.db with
    | false =>
      rw [ha, if_neg Bool.false_ne_true] at h
      exact absurd h (by decide)
    | true => rfl
  | none =>
    have hask : (ask srv Database.sequence).run s =
        .done (if srv.answers s.log s.db then some s.db.sequence else none)
          (s.record (.asked (srv.answers s.log s.db))) := rfl
    refine ⟨-1, s.record (.asked (srv.answers s.log s.db)), ?_, hasked _, fun h => absurd h (by decide)⟩
    unfold getReplicationSequence
    rw [run_bind_done hask, hseq]
    cases srv.answers s.log s.db <;> rfl

end

/-! ## Steps -/

section

variable {srv : Server} {env : Env} {fmt : ChangeFormat} {feeds : Feeds} {g : ReplicationGranularity}

/-- Between two steps: a process that applies files is at the one behind the stored number, and the last one
that it is going to apply is published. -/
structure Following (feeds : Feeds) (g : ReplicationGranularity) (r : Replication) : Prop where
  faithful : r.archive.Faithful feeds
  next : ∀ seq remote, r.poll.phase = .applying seq remote → ∃ stored,
    r.poll.session.db.sequence = some stored ∧ 0 ≤ stored ∧ stored ≤ remote ∧ seq = stored + 1 ∧
      remote ≤ r.archive.last g

/-- The steps of a copy from one state to another, with the same changes; the copy is set to no other numbers
than `starts`. -/
def Followed (fmt : ChangeFormat) (feeds : Feeds) (g : ReplicationGranularity) (starts : List Int64)
    (r r' : Replication) : Prop :=
  ∃ labels, Trace (Follower.Step (fmt.files feeds g)) (r.follower g) labels (r'.follower g) ∧
    changesOf r'.poll.session.log =
      changesOf r.poll.session.log ++ labels.flatMap Follower.Label.changes ∧
    (labels.filterMap Follower.Label.sequence).Sublist starts

theorem followed_none {starts : List Int64} {r r' : Replication}
    (hlast : r'.archive.last g = r.archive.last g)
    (hprogress : progressOf r'.poll.session = progressOf r.poll.session) :
    Followed fmt feeds g starts r r' := by
  obtain ⟨hlog, hseq⟩ := Prod.mk.inj hprogress
  have hsame : r'.follower g = r.follower g := by rw [Replication.follower, hlast, hseq]; rfl
  exact ⟨[], hsame ▸ .nil, by rw [hlog]; simp, List.nil_sublist _⟩

theorem followed_one {starts : List Int64} {r r' : Replication} {l : Follower.Label}
    (hstep : Follower.Step (fmt.files feeds g) (r.follower g) l (r'.follower g))
    (hlog : changesOf r'.poll.session.log = changesOf r.poll.session.log ++ l.changes)
    (hreset : ∀ sequence ∈ l.sequence, starts = [sequence]) : Followed fmt feeds g starts r r' := by
  refine ⟨[l], .snoc .nil hstep, ?_, ?_⟩
  · rw [List.flatMap_singleton]
    exact hlog
  · cases hl : l.sequence with
    | none =>
      rw [List.filterMap_cons_none hl]
      exact List.nil_sublist _
    | some sequence =>
      rw [List.filterMap_cons_some hl, hreset sequence hl]
      exact List.Sublist.refl _

theorem Followed.trans {starts starts' : List Int64} {r r' r'' : Replication}
    (h : Followed fmt feeds g starts r r') (h' : Followed fmt feeds g starts' r' r'') :
    Followed fmt feeds g (starts ++ starts') r r'' := by
  obtain ⟨labels, htrace, hlog, hsub⟩ := h
  obtain ⟨labels', htrace', hlog', hsub'⟩ := h'
  refine ⟨labels ++ labels', htrace.append htrace', ?_, ?_⟩
  · rw [hlog', hlog, List.append_assoc, List.flatMap_append]
  · rw [List.filterMap_append]
    exact hsub.append hsub'

/-- A file that is published. -/
theorem following_publish {r : Replication} (h : Following feeds g r) {feed : ReplicationGranularity}
    (hlast : r.archive.last feed + 1 < Int64.maxValue) :
    Following feeds g ⟨r.archive.publish feeds feed, r.poll⟩ ∧
      Followed fmt feeds g [] r ⟨r.archive.publish feeds feed, r.poll⟩ := by
  constructor
  · refine ⟨h.faithful.publish hlast, fun seq remote hphase => ?_⟩
    obtain ⟨stored, hstored, h0, hle, hseq, hremote⟩ := h.next seq remote hphase
    exact ⟨stored, hstored, h0, hle, hseq, Int64.le_trans hremote (h.faithful.last_le_publish feed g)⟩
  · by_cases hg : g = feed
    · subst hg
      have hnew : (r.archive.publish feeds g).last g = r.archive.last g + 1 := Function.update_self ..
      refine followed_one (l := .publish) ?_ (List.append_nil _).symm fun _ hl => by cases hl
      show Follower.Step _ (r.follower g) .publish ⟨_, (r.archive.publish feeds g).last g⟩
      rw [hnew]
      exact .publish (h.faithful.bounded g)
    · exact followed_none (Function.update_of_ne hg ..) rfl

theorem Following.stopped {r : Replication} (h : Following feeds g r) (s : Session) :
    Following feeds g ⟨r.archive, ⟨s, .stopped⟩⟩ :=
  ⟨h.faithful, fun _ _ hphase => by cases hphase⟩

theorem Following.waiting {r : Replication} (h : Following feeds g r) (s : Session) :
    Following feeds g ⟨r.archive, ⟨s, .waiting⟩⟩ :=
  ⟨h.faithful, fun _ _ hphase => by cases hphase⟩

/-- The option `--sequence` sets the copy to a number. -/
theorem followed_reset {r : Replication} {p : PollState} {s : Session} {sequence : Int64} (h0 : 0 ≤ sequence)
    (hs : progressOf s = progressOf r.poll.session) (hp : Advanced s [] sequence p.session) :
    Followed fmt feeds g [sequence] r ⟨r.archive, p⟩ := by
  obtain ⟨hlog, hseq⟩ := Prod.mk.inj hp
  have hfollower : (⟨r.archive, p⟩ : Replication).follower g = ⟨some sequence, (r.follower g).last⟩ := by
    show (⟨p.session.db.sequence, _⟩ : Follower) = _
    rw [hseq]
    rfl
  refine followed_one (l := .reset sequence) (hfollower ▸ .reset sequence h0) ?_ ?_
  · exact hlog.trans (congrArg (· ++ []) (Prod.mk.inj hs).1)
  · rintro _ ⟨⟩
    rfl

theorem followed_applied_nil {starts : List Int64} {r : Replication} {p : PollState} {s : Session}
    (hs : progressOf s = progressOf r.poll.session) (hp : Applied s [] p.session) :
    Followed fmt feeds g starts r ⟨r.archive, p⟩ := by
  rw [Applied, List.append_nil] at hp
  exact followed_none rfl (hp.trans hs)

theorem Archive.Faithful.following {r : Replication} (h : r.archive.Faithful feeds)
    (hp : r.poll.phase = .stopped) : Following feeds g r := by
  refine ⟨h, fun seq remote hphase => ?_⟩
  rw [hp] at hphase
  cases hphase

theorem following_start {r : Replication} (h : Following feeds g r) (boot : Startup) (sequence : Int64) :
    Following feeds g ⟨r.archive, Replication.startPoll srv boot sequence r.poll⟩ ∧
      Followed fmt feeds g (ReplicationEvent.start boot sequence).sequence.toList r
        ⟨r.archive, Replication.startPoll srv boot sequence r.poll⟩ := by
  unfold Replication.startPoll
  split
  · rename_i osmmap _ _
    have hs : progressOf (r.poll.session.restarted osmmap) = progressOf r.poll.session :=
      Prod.ext ((changesOf_append ..).trans (List.append_nil _)) rfl
    rw [ReplicationEvent.sequence]
    by_cases h0 : sequence ≥ 0
    · rw [if_pos h0, if_pos h0, Option.toList_some]
      have hstored := ensures_stored srv sequence (r.poll.session.restarted osmmap)
      unfold Ensures at hstored
      cases hrun : (setReplicationSequence srv sequence).run (r.poll.session.restarted osmmap) with
      | done u s =>
        rw [hrun] at hstored
        exact ⟨h.waiting _, followed_reset h0 hs hstored⟩
      | threw e s =>
        rw [hrun] at hstored
        exact ⟨h.stopped _, followed_applied_nil hs hstored⟩
      | died s =>
        rw [hrun] at hstored
        rcases hstored with hstored | hstored
        · exact ⟨h.stopped _, followed_applied_nil hs hstored⟩
        · exact ⟨h.stopped _, followed_reset h0 hs hstored⟩
    · rw [if_neg h0, if_neg h0]
      exact ⟨h.waiting _, followed_none rfl hs⟩
  · exact ⟨h, followed_none rfl rfl⟩

/-- A round looks at `state.txt`, which is not ahead of the feed. -/
theorem following_round {r : Replication} (h : Following feeds g r) (arrives : Bool) :
    let p := pollStep srv env r.poll (.round (Replication.remote g r.archive arrives))
    Following feeds g ⟨r.archive, p⟩ ∧ Followed fmt feeds g [] r ⟨r.archive, p⟩ := by
  have hremote : ∀ remote, Replication.remote g r.archive arrives = some remote → remote ≤ r.archive.last g := by
    intro remote hr
    obtain ⟨text, htext, hnumber⟩ := Option.bind_eq_some_iff.mp hr
    cases arrives with
    | false => cases htext
    | true => exact h.faithful.states g text remote htext hnumber
  generalize Replication.remote g r.archive arrives = remote at hremote
  dsimp only
  by_cases hp : r.poll.phase = .waiting
  · obtain ⟨loc, s, hrun, hs, hloc⟩ := run_getReplicationSequence_any srv r.poll.session
    have hfollowed : ∀ phase, Followed fmt feeds g [] r ⟨r.archive, ⟨s, phase⟩⟩ := fun _ => followed_none rfl hs
    simp only [pollStep, hp, hrun]
    cases remote with
    | none => exact ⟨h.waiting _, hfollowed _⟩
    | some remote =>
      by_cases hneg : loc < 0
      · simp only [if_pos hneg]
        exact ⟨h.stopped _, hfollowed _⟩
      · simp only [if_neg hneg]
        by_cases hle : loc ≥ remote
        · simp only [if_pos hle]
          exact ⟨h.waiting _, hfollowed _⟩
        · simp only [if_neg hle]
          refine ⟨⟨h.faithful, fun seq remote' hphase => ?_⟩, hfollowed _⟩
          obtain ⟨rfl, rfl⟩ := PollPhase.applying.inj hphase
          have h0 : 0 ≤ loc := Int64.not_lt.mp hneg
          have hlt : loc < remote := Int64.not_le.mp hle
          exact ⟨loc, (Prod.mk.inj hs).2.trans (hloc h0), h0, Int64.le_of_lt hlt, rfl, hremote remote rfl⟩
  · have hsame : pollStep srv env r.poll (.round remote) = r.poll := by
      cases hphase : r.poll.phase with
      | waiting => exact absurd hphase hp
      | stopped => simp only [pollStep, hphase]
      | applying seq last => simp only [pollStep, hphase]
    rw [hsame]
    exact ⟨h, followed_none rfl rfl⟩

/-- Changes of the file behind the stored number, or all of them, and then its number. -/
theorem followed_file {r : Replication} {p : PollState} {stored : Int64} {intact : Bool}
    (hstored : r.poll.session.db.sequence = some stored) (h0 : 0 ≤ stored) (hlast : stored < r.archive.last g)
    (hintact : (fmt.files feeds g (stored + 1)).2 = intact)
    (hp : Partly r.poll.session (fmt.files feeds g (stored + 1)).1 p.session ∨
      Advanced r.poll.session (fmt.files feeds g (stored + 1)).1 (stored + 1) p.session ∧ intact = true) :
    Followed fmt feeds g [] r ⟨r.archive, p⟩ := by
  rcases hp with ⟨some, hsome, hp⟩ | ⟨hp, rfl⟩
  · obtain ⟨hlog, hseq⟩ := Prod.mk.inj hp
    have hsame : (⟨r.archive, p⟩ : Replication).follower g = r.follower g := by
      show (⟨p.session.db.sequence, _⟩ : Follower) = _
      rw [hseq]
      rfl
    exact followed_one (l := .attempt some) (hsame.symm ▸ .attempt hstored h0 hlast hsome) hlog
      fun _ hl => by cases hl
  · obtain ⟨hlog, hseq⟩ := Prod.mk.inj hp
    have hnext : (⟨r.archive, p⟩ : Replication).follower g = ⟨some (stored + 1), (r.follower g).last⟩ := by
      show (⟨p.session.db.sequence, _⟩ : Follower) = _
      rw [hseq]
      rfl
    exact followed_one (l := .advance _) (hnext.symm ▸ .advance hstored h0 hlast hintact) hlog
      fun _ hl => by cases hl

theorem following_file {r : Replication} (h : Following feeds g r) (arrives : Bool) :
    let p := pollStep srv env r.poll (.file (r.download fmt g arrives))
    Following feeds g ⟨r.archive, p⟩ ∧ Followed fmt feeds g [] r ⟨r.archive, p⟩ := by
  dsimp only
  cases hp : r.poll.phase with
  | stopped =>
    simp only [pollStep, hp]
    exact ⟨h, followed_none rfl rfl⟩
  | waiting =>
    simp only [pollStep, hp]
    exact ⟨h, followed_none rfl rfl⟩
  | applying seq remote =>
    obtain ⟨stored, hstored, h0, hle, rfl, hremote⟩ := h.next seq remote hp
    by_cases hdue : stored + 1 ≤ remote
    · have hsucc : (stored + 1).toInt = stored.toInt + 1 :=
        toInt_add_one (Int64.lt_of_le_of_lt (Int64.le_trans hle hremote) (h.faithful.bounded g))
      have hlt : stored < r.archive.last g := by
        rw [Int64.lt_iff_toInt_lt]
        rw [Int64.le_iff_toInt_le] at hdue hremote
        omega
      cases hd : r.archive.downloadFile (fileUrl g (stored + 1)) arrives with
      | none =>
        have hfailed : r.download fmt g arrives = .failed := by simp only [Replication.download, hp, hd]
        simp only [pollStep, hp, if_pos hdue, hfailed]
        exact ⟨h.stopped _, followed_none rfl rfl⟩
      | some file =>
        have hfile : r.download fmt g arrives = .file (fmt.read file).1 (fmt.read file).2 := by
          simp only [Replication.download, hp, hd]
        have hcontent : file = feeds g (stored + 1) := by
          cases arrives with
          | false => cases hd
          | true => exact (h.faithful.files g _ file hd).1
        subst hcontent
        have hdown := ensures_downloaded srv env (fmt.read (feeds g (stored + 1))).1
          (fmt.read (feeds g (stored + 1))).2 (stored + 1) r.poll.session
        simp only [pollStep, hp, if_pos hdue, hfile]
        unfold Ensures at hdown
        cases hrun : (downloadAndApply srv env (.file (fmt.read (feeds g (stored + 1))).1
            (fmt.read (feeds g (stored + 1))).2) (stored + 1)).run r.poll.session with
        | threw e s =>
          rw [hrun] at hdown
          exact hdown.elim
        | died s =>
          rw [hrun] at hdown
          exact ⟨h.stopped _, followed_file hstored h0 hlt rfl hdown⟩
        | done b s =>
          rw [hrun] at hdown
          cases b with
          | false => exact ⟨h.stopped _, followed_file hstored h0 hlt rfl (.inl hdown)⟩
          | true =>
            refine ⟨⟨h.faithful, fun seq last hphase => ?_⟩, followed_file hstored h0 hlt rfl (.inr hdown)⟩
            obtain ⟨rfl, rfl⟩ := PollPhase.applying.inj hphase
            refine ⟨stored + 1, (Prod.mk.inj hdown.1).2, ?_, hdue, rfl, hremote⟩
            have hzero : (0 : Int64).toInt = 0 := rfl
            rw [Int64.le_iff_toInt_le] at h0 ⊢
            omega
    · simp only [pollStep, hp, if_neg hdue]
      exact ⟨h.waiting _, followed_none rfl rfl⟩

theorem following_step {r r' : Replication} {e : ReplicationEvent} (h : Following feeds g r)
    (hs : Replication.Step srv env fmt feeds g r e r') :
    Following feeds g r' ∧ Followed fmt feeds g e.sequence.toList r r' := by
  cases hs with
  | publish feed hlast => exact following_publish h hlast
  | announce feed text htext =>
    exact ⟨⟨h.faithful.announce htext, h.next⟩, followed_none rfl rfl⟩
  | start boot sequence => exact following_start h boot sequence
  | stop => exact ⟨h.stopped _, followed_none rfl rfl⟩
  | round arrives => exact following_round h arrives
  | file arrives => exact following_file h arrives

theorem startNumbers_concat (events : List ReplicationEvent) (e : ReplicationEvent) :
    startNumbers (events ++ [e]) = startNumbers events ++ e.sequence.toList := by
  rw [startNumbers, List.filterMap_append]
  cases he : e.sequence with
  | none => rw [List.filterMap_cons_none he]; rfl
  | some n => rw [List.filterMap_cons_some he]; rfl

theorem following_run {r₀ r : Replication} {events : List ReplicationEvent} (h₀ : Following feeds g r₀)
    (h : Trace (Replication.Step srv env fmt feeds g) r₀ events r) :
    Following feeds g r ∧ Followed fmt feeds g (startNumbers events) r₀ r := by
  induction h with
  | nil => exact ⟨h₀, followed_none rfl rfl⟩
  | snoc _ hs ih =>
    obtain ⟨hr, hfollowed⟩ := ih
    obtain ⟨hr', hfollowed'⟩ := following_step hr hs
    exact ⟨hr', startNumbers_concat _ _ ▸ hfollowed.trans hfollowed'⟩

end

/-! ## Copies -/

/-- A copy that is not set to another number has done the files behind its first number, in their order, and
no other ones. -/
theorem Follower.in_order {files : Int64 → List OSCChange × Bool} {f f' : Follower}
    {labels : List Follower.Label} {seq : Int64} (hseq : f.stored = some seq)
    (h : Trace (Follower.Step files) f labels f') (hset : labels.filterMap Follower.Label.sequence = []) :
    ∃ n : ℕ, f'.stored = some (seq + Int64.ofNat n) ∧ (seq + Int64.ofNat n).toInt = seq.toInt + n ∧
      (n = 0 ∨ seq + Int64.ofNat n ≤ f'.last) ∧
      labels.flatMap Follower.Label.done = Follower.behind files seq n := by
  induction h with
  | nil =>
    have hzero : seq + Int64.ofNat 0 = seq := Int64.add_zero seq
    exact ⟨0, by rw [hzero, hseq], by rw [hzero]; simp, .inl rfl, rfl⟩
  | snoc _ hs ih =>
    rw [List.filterMap_append, List.append_eq_nil_iff] at hset
    obtain ⟨n, hstored, hint, hlast, hdone⟩ := ih hset.1
    rw [List.flatMap_append, List.flatMap_singleton, hdone]
    cases hs with
    | publish hmax =>
      refine ⟨n, hstored, hint, hlast.imp_right fun hle => ?_, List.append_nil _⟩
      rw [Int64.le_iff_toInt_le] at hle ⊢
      rw [toInt_add_one hmax]
      omega
    | reset sequence h0 => exact absurd hset.2 (by simp [Follower.Label.sequence])
    | attempt => exact ⟨n, hstored, hint, hlast, List.append_nil _⟩
    | advance hs h0 hlt hwhole =>
      obtain rfl := Option.some.inj (hs.symm.trans hstored)
      have hsucc : seq + Int64.ofNat (n + 1) = seq + Int64.ofNat n + 1 := by
        rw [Int64.ofNat_add, ← Int64.add_assoc]
        rfl
      have hint' := toInt_add_one hlt
      refine ⟨n + 1, by rw [hsucc], ?_, .inr ?_, rfl⟩
      · rw [hsucc, hint', hint]
        omega
      · rw [hsucc, Int64.le_iff_toInt_le, hint']
        rw [Int64.lt_iff_toInt_lt] at hlt
        exact hlt

/-- **Following a feed.** In every run of an archive that publishes and of processes that poll it, with any lost
downloads, refusals, deaths, interruptions and starts, the stored number and the applied changes are those of a
copy of the feed. Without a start at another number the files that are done are those behind the first stored
number up to the present one, which is not ahead of the archive. -/
theorem replication_follows {srv : Server} {env : Env} {fmt : ChangeFormat} {feeds : Feeds}
    {g : ReplicationGranularity} {r₀ r : Replication} {events : List ReplicationEvent}
    (hfaithful : r₀.archive.Faithful feeds) (hstopped : r₀.poll.phase = .stopped)
    (h : Trace (Replication.Step srv env fmt feeds g) r₀ events r) :
    (∀ g g' seq seq', fileUrl g seq = fileUrl g' seq' → g = g' ∧ seq = seq') ∧
    ∃ labels, Trace (Follower.Step (fmt.files feeds g)) (r₀.follower g) labels (r.follower g) ∧
      changesOf r.poll.session.log =
        changesOf r₀.poll.session.log ++ labels.flatMap Follower.Label.changes ∧
      (labels.filterMap Follower.Label.sequence).Sublist (startNumbers events) ∧
      ∀ seq, r₀.poll.session.db.sequence = some seq → startNumbers events = [] →
        ∃ n : ℕ, r.poll.session.db.sequence = some (seq + Int64.ofNat n) ∧
          (n = 0 ∨ seq + Int64.ofNat n ≤ r.archive.last g) ∧
          labels.flatMap Follower.Label.done = Follower.behind (fmt.files feeds g) seq n := by
  obtain ⟨-, labels, htrace, hlog, hsub⟩ := following_run (hfaithful.following hstopped) h
  refine ⟨fun _ _ _ _ => fileUrl_inj, labels, htrace, hlog, hsub, fun seq hseq hstarts => ?_⟩
  rw [hstarts, List.sublist_nil] at hsub
  obtain ⟨n, hstored, -, hlast, hdone⟩ := Follower.in_order hseq htrace hsub
  exact ⟨n, hstored, hlast, hdone⟩

/-! ## A file with a relation -/

/-- `<osmChange><create><relation id="4"/></create></osmChange>`, compressed by `gzip`. -/
def relationFile : Bytes :=
  [31, 139, 8, 0, 0, 0, 0, 0, 2, 255, 179, 201, 47, 206, 117, 206, 72, 204, 75, 79, 181, 179, 73, 46, 74, 77, 44, 1,
    210, 69, 169, 57, 137, 37, 153, 249, 121, 10, 153, 41, 182, 74, 38, 74, 250, 118, 54, 250, 48, 41, 125, 132, 114,
    0, 130, 141, 159, 168, 58, 0, 0, 0]

/-- The events of this file. -/
def relationFormat : ChangeFormat where
  lib := OSCReader.zeroLibrary
  events file :=
    if file = relationFile then
      (OSCReader.document (fun _ => str "0") [(.create, [.relation 4 [] [] []])], true)
    else ([], false)

/-- Every file of the feeds is this one. -/
def relationFeeds : Feeds := fun _ _ => relationFile

/-- An archive without files, before the first start of a process. -/
def beforePublishing : Replication := ⟨⟨fun _ => none, fun _ => 0⟩, beforeStart⟩

def stateText : Bytes :=
  str "#Sat Sep 01 09:00:00 UTC 2012
" ++ str "sequenceNumber=1
" ++ str "timestamp=2012-09-01T08\\:59\\:00Z
"

/-- The file and `state.txt` are in the archive. -/
def published : Archive :=
  (beforePublishing.archive.publish relationFeeds .Minute).put (stateUrl .Minute) stateText

/-- A server that refuses the first row of every COPY into `relations`. -/
def choosy : Server where
  respond _ _ txn := match txn with
    | [.copy .relation _] => .error (.line 1)
    | _ => .ok
  answers _ _ := true

theorem faithful_before : beforePublishing.archive.Faithful relationFeeds :=
  ⟨fun _ => (by decide : (0 : Int64) < Int64.maxValue), nofun, nofun⟩

theorem trace_published : Trace (Replication.Step choosy plainEnv relationFormat relationFeeds .Minute)
    beforePublishing [.publish .Minute, .announce .Minute stateText] ⟨published, beforeStart⟩ := by
  refine (Trace.nil.snoc (.publish .Minute (by decide))).snoc (.announce .Minute stateText fun seq hseq => ?_)
  have hone : remoteSequence stateText = some 1 := by decide
  rw [hone] at hseq
  obtain rfl := Option.some.inj hseq
  decide

theorem replication_follows_relation : ∃ r labels,
    Trace (Replication.Step choosy plainEnv relationFormat relationFeeds .Minute) beforePublishing
      [.publish .Minute, .announce .Minute stateText, .start newFiles (-1), .round true, .file true] r ∧
    Trace (Follower.Step (relationFormat.files relationFeeds .Minute)) ⟨some 0, 0⟩ labels
      (r.follower .Minute) ∧
    changesOf r.poll.session.log = labels.flatMap Follower.Label.changes ∧
    labels.filterMap Follower.Label.sequence = [] ∧
    ∃ n : ℕ, r.poll.session.db.sequence = some (0 + Int64.ofNat n) ∧
      (n = 0 ∨ 0 + Int64.ofNat n ≤ r.archive.last .Minute) ∧
      labels.flatMap Follower.Label.done = Follower.behind (relationFormat.files relationFeeds .Minute) 0 n := by
  have h := ((trace_published.snoc (.start newFiles (-1))).snoc (.round true)).snoc (.file true)
  obtain ⟨-, labels, htrace, hlog, hsub, hdone⟩ := replication_follows faithful_before rfl h
  exact ⟨_, labels, h, htrace, hlog, List.sublist_nil.mp hsub, hdone 0 rfl rfl⟩

end OsmImport
