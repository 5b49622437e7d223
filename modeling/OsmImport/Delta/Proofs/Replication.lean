import OsmImport.Db.Postgres
import OsmImport.Db.Proofs.Frame
import OsmImport.Delta.Proofs.Ledger
import OsmImport.Store.Proofs.NodeStore

/-!
# Durability of replication

Every change keeps the `Tracking` of the ledger, whatever the server answers; `flush` empties the buffers of
ways, areas, roads and relations, but not that of the nodes, which holds what is left of the tagged nodes
(`Holds`). So a stored sequence number is settled exactly if the tagged nodes have filled their buffer a whole
number of times and the rows that were given up are in their tables.
-/

namespace OsmImport

open NavDB Prog

variable {files : Int64 → List OSCChange} {l₀ : Ledger} {prev : Int64} {srv : Server} {env : Env}
  {cs : List OSCChange}

/-! ## Changes -/

/-- The program keeps the ledger in step with the buffers. -/
abbrev Tracks (files : Int64 → List OSCChange) (l₀ : Ledger) (prev : Int64) (cs : List OSCChange) {α : Type}
    (m : Exec α) : Prop := Preserves (Tracking files l₀ prev cs) (Sound files l₀) m

theorem tracks_flush (k : Kind) : Tracks files l₀ prev cs (NavDB.flush srv k) :=
  fun _ hs => (ensures_flush k hs).done fun _ _ h => h.1

theorem tracks_insertInto (k : Kind) (row : Row) (tags : Tags) :
    Tracks files l₀ prev cs (insertInto srv k row tags) := by
  intro s hs
  have hflush : Tracks files l₀ prev cs
      (if full (s.buffered k row tags).nav k then NavDB.flush srv k else pure ()) :=
    Preserves.ite (tracks_flush k) (preserves_pure ())
  exact hflush _ (hs.buffered k row tags)

theorem tracking_asked {s : Session} (h : Tracking files l₀ prev cs s) (ok : Bool) :
    Tracking files l₀ prev cs (s.record (.asked ok)) := by
  refine ⟨h.toSound.note rfl rfl, ?_, ?_, ?_, ?_, h.withRow, ?_, ?_⟩
  all_goals rw [ledger_record]
  · exact h.progress
  · exact h.rows
  · exact h.lost
  · exact h.tags
  · exact h.accepted
  · exact fun k hk => nomatch hk

/-- The node store is not in the books. -/
theorem tracking_osmmap {s : Session} (h : Tracking files l₀ prev cs s) (osmmap : OSMMMap) :
    Tracking files l₀ prev cs { s with osmmap := osmmap } :=
  ⟨⟨h.durable, h.sequence, h.tables⟩, h.progress, h.rows, h.lost, h.tags, h.withRow, h.accepted, h.fresh⟩

theorem pieces_tracks : Pieces srv (fun _ => True) (fun _ => True) (Tracks files l₀ prev cs) where
  toCompositional := compositional_preserves _ _
  send _ htxn := preserves_send htxn
  ask _ := fun _ hs => tracking_asked hs _
  place _ _ _ := fun _ hs => DeltaApplier.ensures_storeInsert (fun _ => tracking_osmmap hs _) hs.toSound
  remove _ _ := preserves_modify fun _ hs => tracking_osmmap hs _
  insertInto k row tags _ := tracks_insertInto k row tags
  flush k _ := tracks_flush k

/-! ## Nodes -/

/-- The tagged nodes that the process has created, by the books. -/
def createdSoFar (files : Int64 → List OSCChange) (l₀ : Ledger) (s : Session) : ℕ :=
  (ledger files l₀ s).tally.created

/-- `node_buf_` holds what is left of the tagged nodes behind its flushes. -/
def Holds (files : Int64 → List OSCChange) (l₀ : Ledger) (s : Session) : Prop :=
  (s.nav.buf .node).length = createdSoFar files l₀ s % NODE_BUFFER_SIZE

theorem created_exec (a : Tally) (txn : List Statement) :
    (txn.foldl Tally.exec a).created = a.created := by
  induction txn generalizing a with
  | nil => rfl
  | cons st txn ih =>
    rw [List.foldl_cons, ih]
    cases st <;> rfl

theorem created_refuse (a : Tally) (e : SqlError) (txn : List Statement) :
    (a.refuse e txn).created = a.created := by
  unfold Tally.refuse
  split <;> rfl

/-- Only changes and starts count. -/
theorem createdSoFar_record (s : Session) {e : Event} (hchange : ∀ c, e ≠ .change c) (hstart : e ≠ .started) :
    createdSoFar files l₀ (s.record e) = createdSoFar files l₀ s := by
  unfold createdSoFar
  rw [ledger_record]
  show ((ledger files l₀ s).tally.step e).created = _
  rcases e with _ | c | _ | _ | ⟨txn, _ | e | _ | _⟩ | _
  · exact absurd rfl hstart
  · exact absurd rfl (hchange c)
  · rfl
  · rfl
  · exact created_exec ..
  · exact created_refuse ..
  · rfl
  · exact created_exec ..
  · rfl

theorem keeps_created_send (txn : List Statement) : Keeps (createdSoFar files l₀) (send srv txn) :=
  keeps_send (fun s _ => createdSoFar_record { s with db := s.db.commit txn } (fun _ => nofun) nofun)
    fun s _ => createdSoFar_record s (fun _ => nofun) nofun

theorem untouched_created (k : Kind) : Untouched srv (createdSoFar files l₀) k :=
  ⟨fun _ => keeps_created_send _, fun _ => keeps_created_send _, fun _ _ => rfl, fun _ _ => rfl⟩

theorem pieces_created :
    Pieces srv (fun _ => True) (fun _ => True) fun m => Keeps (createdSoFar files l₀) m where
  toCompositional := compositional_keeps _
  send txn _ := keeps_created_send txn
  ask _ := fun s => createdSoFar_record s (fun _ => nofun) nofun
  place id pos _ := DeltaApplier.keeps_storeInsert (fun _ _ => rfl) id pos
  remove _ _ := keeps_modify fun _ => rfl
  insertInto k _ _ _ := compositional_insertInto (compositional_keeps _)
    (keeps_modify fun s => createdSoFar_record (s.setTagBuf _ _) (fun _ => nofun) nofun)
    (keeps_modify fun s => createdSoFar_record (s.setBuf _ _) (fun _ => nofun) nofun) (untouched_created k).flush
  flush k _ := (untouched_created k).flush

theorem untouched_nodes {k : Kind} (hk : k ≠ .node) : Untouched srv (fun s => s.nav.buf .node) k :=
  untouched_memory (f := fun _ nav => nav.buf .node) (fun _ _ _ => Function.update_of_ne hk.symm _ _)
    fun _ _ _ => rfl

/-- Inserts into the other tables leave `node_buf_` alone. -/
theorem pieces_nodes :
    Pieces srv (fun k => k ≠ .node) (fun _ => True) fun m => Keeps (fun s => s.nav.buf .node) m where
  toCompositional := compositional_keeps _
  send _ _ := keeps_send (fun _ _ => rfl) fun _ _ => rfl
  ask _ := fun _ => rfl
  place id pos _ := DeltaApplier.keeps_storeInsert (fun _ _ => rfl) id pos
  remove _ _ := keeps_modify fun _ => rfl
  insertInto _ _ _ hk := compositional_insertInto (compositional_keeps _) (keeps_modify fun _ => rfl)
    (keeps_modify fun _ => Function.update_of_ne (Ne.symm hk) _ _) (untouched_nodes hk).flush
  flush _ hk := (untouched_nodes hk).flush

/-- A tagged node goes to `node_buf_`, which is empty again when it is full. -/
theorem ensures_insertInto_node {row : Row} {tags : Tags} {s : Session} (h : Tracking files l₀ prev cs s) :
    Ensures (insertInto srv .node row tags) s
      (fun _ s' => (s'.nav.buf .node).length = if (s.nav.buf .node).length + 1 ≥ NODE_BUFFER_SIZE then 0
        else (s.nav.buf .node).length + 1) (fun _ _ => True) fun _ => True := by
  have hlen : ((s.buffered .node row tags).nav.buf .node).length = (s.nav.buf .node).length + 1 := by
    rw [Session.buffered_buf, Function.update_self, List.length_append, List.length_singleton]
  show Ensures (if full (s.buffered .node row tags).nav .node then NavDB.flush srv .node else pure ())
    (s.buffered .node row tags) _ _ _
  unfold full
  dsimp only
  rw [hlen]
  by_cases hfull : (s.nav.buf .node).length + 1 ≥ NODE_BUFFER_SIZE
  · rw [if_pos (decide_eq_true hfull), if_pos hfull]
    refine (ensures_flush .node (h.buffered .node row tags)).mono ?_ (fun _ _ _ => trivial) fun _ _ => trivial
    rintro _ s' ⟨-, hbuf⟩
    rw [hbuf, Function.update_self]
    rfl
  · rw [if_neg (by simpa using hfull), if_neg hfull]
    exact hlen

theorem within_untagged {c : OSCChange} (h : c.createsTagged = false) :
    c.Within (fun k => k ≠ .node) fun _ => True := by
  rcases c with ⟨_ | _ | _, n⟩ | w | r
  · refine ⟨trivial, fun htags => ?_⟩
    simp [OSCChange.createsTagged, htags] at h
  · trivial
  · trivial
  · exact ⟨nofun, nofun⟩
  · exact ⟨nofun, nofun⟩

/-- A change puts at most one row into `node_buf_`, that of the tagged node that it creates. -/
theorem ensures_operation_holds (c : OSCChange) {s : Session} (h : Tracking files l₀ prev cs s) :
    Ensures (DeltaApplier.operation srv env c) s (fun _ s' => (s'.nav.buf .node).length =
      if c.createsTagged then
        if (s.nav.buf .node).length + 1 ≥ NODE_BUFFER_SIZE then 0 else (s.nav.buf .node).length + 1
      else (s.nav.buf .node).length) (fun _ _ => True) fun _ => True := by
  cases hc : c.createsTagged with
  | false =>
    have hkeeps : Keeps (fun s => s.nav.buf .node) (DeltaApplier.operation srv env c) :=
      pieces_nodes.operation c (within_untagged hc)
    refine (hkeeps.ensures (s := s)).mono (fun _ s' hbuf => ?_) (fun _ _ _ => trivial) fun _ _ => trivial
    rw [hbuf]
    rfl
  | true =>
    obtain ⟨n, rfl, htags⟩ : ∃ n, c = .node .create n ∧ n.tags.isEmpty = false := by
      rcases c with ⟨_ | _ | _, n⟩ | w | r
      · exact ⟨n, rfl, by simpa [OSCChange.createsTagged] using hc⟩
      all_goals cases hc
    apply ensures_bind
    refine DeltaApplier.ensures_storeInsert (fun _ => ?_) trivial
    rw [insertNode_eq, if_neg (ne_true_of_eq_false htags)]
    exact ensures_insertInto_node (tracking_osmmap h _)

/-- Behind the changes the ledger is in step with the buffers, and `node_buf_` holds what is left. -/
theorem ensures_apply (c : OSCChange) {s : Session} (h : Tracking files l₀ prev cs s) (hnodes : Holds files l₀ s) :
    Ensures (DeltaApplier.apply srv env c) s
      (fun _ s' => Tracking files l₀ prev (cs ++ [c]) s' ∧ Holds files l₀ s') (fun _ => Sound files l₀)
      (Sound files l₀) := by
  have hc : Tracking files l₀ prev (cs ++ [c]) (s.record (.change c)) := by
    refine ⟨⟨?_, ?_, ?_⟩, ?_, ?_, ?_, ?_, h.withRow, ?_, ?_⟩
    all_goals rw [ledger_record]
    · exact h.durable
    · exact h.sequence
    · exact h.tables
    · exact ⟨h.progress.1, congrArg (· ++ [c]) h.progress.2⟩
    · exact h.rows
    · exact h.lost
    · exact h.tags
    · exact h.accepted
    · exact fun k hk => nomatch hk
  have hcreated : createdSoFar files l₀ (s.record (.change c)) =
      createdSoFar files l₀ s + if c.createsTagged then 1 else 0 := by
    unfold createdSoFar
    rw [ledger_record]
    rfl
  have hwithin : c.Within (fun _ => True) fun _ => True := c.within_of_forall (fun _ => trivial) fun _ => trivial
  have htracks : Preserves (Tracking files l₀ prev (cs ++ [c])) (Sound files l₀)
      (DeltaApplier.operation srv env c) := pieces_tracks.operation c hwithin
  have hcounts : Keeps (createdSoFar files l₀) (DeltaApplier.operation srv env c) :=
    pieces_created.operation c hwithin
  have hall := ((htracks _ hc).and (hcounts.ensures (s := s.record (.change c)))).and
    (ensures_operation_holds c hc)
  refine hall.mono ?_ (fun _ _ h => h.1.1) fun _ h => h.1.1
  rintro _ s' ⟨⟨htracking, hcreated'⟩, hlen⟩
  refine ⟨htracking, ?_⟩
  have hold : (s.nav.buf .node).length = createdSoFar files l₀ s % NODE_BUFFER_SIZE := hnodes
  have hlen : (s'.nav.buf .node).length = if c.createsTagged then
      if (s.nav.buf .node).length + 1 ≥ NODE_BUFFER_SIZE then 0 else (s.nav.buf .node).length + 1
    else (s.nav.buf .node).length := hlen
  unfold Holds
  rw [hlen, hcreated', hcreated]
  unfold NODE_BUFFER_SIZE at hold ⊢
  split
  · split <;> omega
  · exact hold

theorem ensures_changes (changes : List OSCChange) {s : Session} (h : Tracking files l₀ prev cs s)
    (hnodes : Holds files l₀ s) : Ensures (forEach changes (DeltaApplier.apply srv env)) s
      (fun _ s' => Tracking files l₀ prev (cs ++ changes) s' ∧ Holds files l₀ s') (fun _ => Sound files l₀)
      (Sound files l₀) := by
  induction changes generalizing cs s with
  | nil =>
    rw [List.append_nil]
    exact ⟨h, hnodes⟩
  | cons c changes ih =>
    apply ensures_bind
    refine (ensures_apply c h hnodes).done fun _ s' hs' => ?_
    have hrest := ih hs'.1 hs'.2
    rwa [List.append_assoc] at hrest

/-! ## Files -/

/-- What `flush` leaves: only node rows can be left in their buffer. -/
theorem ensures_flushAll {s : Session} (h : Tracking files l₀ prev cs s) (hnodes : Holds files l₀ s) :
    Ensures (DeltaApplier.flush srv) s
      (fun _ s' => (Tracking files l₀ prev cs s' ∧ ∀ k, k ≠ .node → s'.nav.buf k = []) ∧ Holds files l₀ s')
      (fun _ => Sound files l₀) (Sound files l₀) := by
  have hbufs : Ensures (DeltaApplier.flush srv) s
      (fun _ s' => Tracking files l₀ prev cs s' ∧ ∀ k, k ≠ .node → s'.nav.buf k = [])
      (fun _ => Sound files l₀) (Sound files l₀) := by
    apply ensures_bind
    apply ensures_bind
    refine (ensures_flushViaTemp .way h).done fun _ s2 h2 => ?_
    refine (ensures_flushViaTemp .area h2.1).done fun _ s3 h3 => ?_
    apply ensures_bind
    refine (ensures_flushViaTemp .road h3.1).done fun _ s4 h4 => ?_
    refine (ensures_flushViaTemp .relation h4.1).done fun _ s5 h5 => ⟨h5.1, fun k hk => ?_⟩
    rw [h5.2, h4.2, h3.2, h2.2]
    cases k <;> first | rfl | exact absurd rfl hk
  have hnode : Keeps (fun s => s.nav.buf .node) (DeltaApplier.flush srv) := pieces_nodes.flushAll fun _ hk => hk
  have hcreated : Keeps (createdSoFar files l₀) (DeltaApplier.flush srv) :=
    pieces_created.flushAll fun _ _ => trivial
  refine ((hbufs.and hnode.ensures).and hcreated.ensures).mono ?_ (fun _ _ h => h.1.1) fun _ h => h.1.1
  rintro _ s' ⟨⟨htracking, hbuf⟩, hcount⟩
  refine ⟨htracking, ?_⟩
  unfold Holds
  rw [hbuf, hcount]
  exact hnodes

/-- What `applyFile` has done when it ends normally. -/
theorem ensures_applyFile (changes : List OSCChange) (intact : Bool) {s : Session}
    (h : Tracking files l₀ prev [] s) (hnodes : Holds files l₀ s) :
    Ensures (Replicator.applyFile srv env changes intact) s
      (fun _ s' => intact = true ∧ (Tracking files l₀ prev changes s' ∧ ∀ k, k ≠ .node → s'.nav.buf k = []) ∧
        Holds files l₀ s') (fun _ => Sound files l₀) (Sound files l₀) := by
  apply ensures_bind
  refine (ensures_changes changes h hnodes).done fun _ s1 h1 => ?_
  rw [List.nil_append] at h1
  cases intact with
  | false => exact h1.1.toSound
  | true => exact (ensures_flushAll h1.1 h1.2).done fun _ s' hs' => ⟨rfl, hs'⟩

/-- The buffer is empty if the tagged nodes have filled it a whole number of times. -/
theorem Holds.empty_iff {s : Session} (h : Holds files l₀ s) :
    s.nav.buf .node = [] ↔ NODE_BUFFER_SIZE ∣ createdSoFar files l₀ s := by
  have hlen : (s.nav.buf .node).length = createdSoFar files l₀ s % NODE_BUFFER_SIZE := h
  rw [List.eq_nil_iff_length_eq_zero, hlen]
  exact (Nat.dvd_iff_mod_eq_zero ..).symm

/-- Behind a file of which only node rows can be left in a buffer, the rows are spared if all buffers are empty
and nothing is missing. -/
theorem spares_iff {s : Session} (h : Tracking files l₀ prev cs s) (hbuf : ∀ k, k ≠ .node → s.nav.buf k = [])
    (hnodes : Holds files l₀ s) : (ledger files l₀ s).tally.Spares ↔
      ∀ k, s.nav.buf k = [] ∧ (ledger files l₀ s).missing k = [] := by
  rw [Tally.Spares, h.lost, forall_and]
  refine and_congr_left fun _ => ?_
  constructor
  · intro hdvd k
    by_cases hk : k = .node
    · rw [hk]
      exact hnodes.empty_iff.mpr hdvd
    · exact hbuf k hk
  · exact fun hall => hnodes.empty_iff.mp (hall .node)

/-- Rows that are all stored leave none that is missing or in the buffer. -/
theorem perm_stored_iff {pushed stored missing buf : List Row}
    (h : pushed.Perm (stored ++ (missing ++ buf))) : pushed.Perm stored ↔ buf = [] ∧ missing = [] := by
  constructor
  · intro hall
    have hlen := h.length_eq
    rw [hall.length_eq, List.length_append, List.length_append] at hlen
    exact ⟨List.length_eq_zero_iff.mp (by omega), List.length_eq_zero_iff.mp (by omega)⟩
  · rintro ⟨rfl, rfl⟩
    rwa [List.append_nil, List.append_nil] at h

/-- Behind a file of which only node rows can be left in a buffer, everything is settled exactly if the rows
are spared. -/
theorem Tracking.settled_iff {seq : Int64} {s : Session} (h : Tracking files l₀ prev (files seq) s)
    (hseq : seq = prev + 1) (hbuf : ∀ k, k ≠ .node → s.nav.buf k = []) (hnodes : Holds files l₀ s)
    (hsparing : (ledger files l₀ s).tally.sparing) :
    (ledger files l₀ s).Settled files seq ↔ (ledger files l₀ s).tally.Spares := by
  have hrows : (∀ k, ((ledger files l₀ s).pushed k).Perm ((ledger files l₀ s).stored k)) ↔
      ∀ k, s.nav.buf k = [] ∧ (ledger files l₀ s).missing k = [] :=
    forall_congr' fun k => perm_stored_iff (h.rows hsparing k)
  rw [spares_iff h hbuf hnodes, ← hrows]
  refine ⟨fun hset => hset.2.2.1, fun hall => ?_⟩
  refine ⟨by rw [hseq, h.progress.1], h.progress.2, hall, fun b => ?_, h.accepted⟩
  have htags : s.nav.tagBuf b = [] := by
    by_contra hb
    obtain ⟨k, -, hk⟩ := h.withRow b hb
    exact hk (hrows.mp hall k).1
  rw [h.tags hsparing b, htags, List.append_nil]

/-- Storing the sequence number of a file that was applied. -/
theorem ensures_setReplicationSequence {seq : Int64} {s : Session} (h : Tracking files l₀ prev (files seq) s)
    (hseq : seq = prev + 1) (hbuf : ∀ k, k ≠ .node → s.nav.buf k = []) (hnodes : Holds files l₀ s) :
    Ensures (setReplicationSequence srv seq) s
      (fun _ s' => Tracking files l₀ seq [] s' ∧ Holds files l₀ s') (fun _ => Sound files l₀)
      (Sound files l₀) := by
  have hl : ledger files l₀ (s.committed [.setSequence seq] .ok) =
      (ledger files l₀ s).step files (.sent [.setSequence seq] .ok) := by
    rw [Session.committed, ledger_record]
    rfl
  have hempty : (ledger files l₀ s).tally.Spares → ∀ k, s.nav.buf k = [] := fun hspares k =>
    ((spares_iff h hbuf hnodes).mp hspares k).1
  have hdone : Tracking files l₀ seq [] (s.committed [.setSequence seq] .ok) := by
    refine ⟨⟨?_, ?_, ?_⟩, ?_, ?_, ?_, ?_, h.withRow, ?_, ?_⟩
    all_goals rw [hl]
    · show (ledger files l₀ s).durable ∧ (ledger files l₀ s).Settled files seq ↔
        (ledger files l₀ s).tally.sparing ∧ (ledger files l₀ s).tally.Spares
      rw [h.durable]
      exact and_congr_right fun hsparing => h.settled_iff hseq hbuf hnodes hsparing
    · rfl
    · exact congrArg (Database.commit · [.setSequence seq]) h.tables
    · exact ⟨rfl, rfl⟩
    · rintro ⟨-, hspares⟩ k
      exact .of_eq (hempty hspares k).symm
    · exact ⟨fun _ _ => rfl, fun _ => rfl⟩
    · rintro ⟨hsparing, hspares⟩ b
      have hsettled := (h.settled_iff hseq hbuf hnodes hsparing).mpr hspares
      have htags := hsettled.2.2.2.1 b
      rw [h.tags hsparing b, List.append_right_eq_self] at htags
      exact htags.symm
    · rfl
    · exact fun k hk => (Option.some_ne_none k hk.symm).elim
  refine ensures_send h.toSound ⟨hdone, ?_⟩ hdone.toSound fun e => h.toSound.refuse _ e
  unfold Holds createdSoFar
  rw [hl]
  exact hnodes

/-! ## Runs -/

/-- The state of `poll` between two steps. -/
def PollInv (files : Int64 → List OSCChange) (l₀ : Ledger) (p : PollState) : Prop :=
  match p.phase with
  | .stopped => Sound files l₀ p.session
  | .waiting => ∃ prev, Tracking files l₀ prev [] p.session ∧ Holds files l₀ p.session
  | .applying seq _ => ∃ prev, (Tracking files l₀ prev [] p.session ∧ Holds files l₀ p.session) ∧ seq = prev + 1

/-- A file that arrives undamaged is the one of the sequence number that is due. -/
def Delivers (files : Int64 → List OSCChange) (p : PollState) : PollInput → Prop
  | .file (.file changes true) => ∀ seq remote, p.phase = .applying seq remote → changes = files seq
  | _ => True

/-- A property of all steps of a run. -/
def AllSteps (srv : Server) (env : Env) (P : PollState → PollInput → Prop) :
    PollState → List PollInput → Prop
  | _, [] => True
  | p, i :: is => P p i ∧ AllSteps srv env P (pollStep srv env p i) is

/-- A file is applied and its number stored, or the process stops. -/
theorem ensures_downloadAndApply {p : PollState} {seq remote : Int64} {d : Download}
    (h : Tracking files l₀ prev [] p.session) (hnodes : Holds files l₀ p.session) (hseq : seq = prev + 1)
    (hp : p.phase = .applying seq remote) (hfile : Delivers files p (.file d)) :
    Ensures (Replicator.downloadAndApply srv env d seq) p.session
      (fun b s => if b = true then Tracking files l₀ seq [] s ∧ Holds files l₀ s else Sound files l₀ s)
      (fun _ _ => False) (Sound files l₀) := by
  cases d with
  | failed => exact h.toSound
  | file changes intact =>
    refine ensures_bind (ensures_attempt ?_)
    apply ensures_bind
    refine (ensures_applyFile changes intact h hnodes).done ?_
    rintro _ s1 ⟨rfl, ⟨h1, hbuf⟩, hnodes1⟩
    rw [hfile seq remote hp] at h1
    exact ensures_setReplicationSequence h1 hseq hbuf hnodes1

theorem holds_asked {s : Session} (h : Holds files l₀ s) (ok : Bool) : Holds files l₀ (s.record (.asked ok)) := by
  have hcount : createdSoFar files l₀ (s.record (.asked ok)) = createdSoFar files l₀ s :=
    createdSoFar_record s (fun _ => nofun) nofun
  unfold Holds
  rw [hcount]
  exact h

/-- The stored sequence number, or -1. -/
theorem run_getReplicationSequence (srv : Server) {s : Session} {seq : Int64}
    (h : s.db.sequence = some seq) :
    (getReplicationSequence srv).run s = .done (if srv.answers s.log s.db then seq else -1)
      (s.record (.asked (srv.answers s.log s.db))) := by
  have hask : (ask srv Database.sequence).run s =
      .done (if srv.answers s.log s.db then some s.db.sequence else none)
        (s.record (.asked (srv.answers s.log s.db))) := rfl
  unfold getReplicationSequence
  rw [run_bind_done hask, h]
  cases srv.answers s.log s.db <;> rfl

theorem PollInv.sound {p : PollState} (h : PollInv files l₀ p) : Sound files l₀ p.session := by
  unfold PollInv at h
  split at h
  · exact h
  · obtain ⟨prev, h, -⟩ := h
    exact h.toSound
  · obtain ⟨prev, ⟨h, -⟩, -⟩ := h
    exact h.toSound

/-- `poll` begins with a client of its own: nothing is buffered and nothing is pending. -/
theorem tracking_restarted {s : Session} (h : Sound files l₀ s) (osmmap : OSMMMap) :
    Tracking files l₀ (ledger files l₀ s).seq [] (s.restarted osmmap) ∧ Holds files l₀ (s.restarted osmmap) := by
  have hl : ledger files l₀ (s.restarted osmmap) = (ledger files l₀ s).step files .started := by
    rw [Session.restarted, ledger_record]
    rfl
  refine ⟨⟨⟨?_, ?_, ?_⟩, ?_, ?_, ?_, ?_, ?_, ?_, ?_⟩, ?_⟩
  · rw [hl]
    exact h.durable
  · rw [hl]
    exact h.sequence
  · rw [hl]
    exact h.tables
  · rw [hl]
    exact ⟨rfl, rfl⟩
  · rw [hl]
    exact fun _ _ => .refl _
  · rw [hl]
    exact ⟨fun _ _ => rfl, fun _ => rfl⟩
  · rw [hl]
    exact fun _ _ => rfl
  · exact fun b hb => absurd rfl hb
  · rw [hl]
    rfl
  · exact fun _ _ => rfl
  · unfold Holds createdSoFar
    rw [hl]
    rfl

theorem pollInv_start {p : PollState} (h : PollInv files l₀ p) (boot : Startup) :
    PollInv files l₀ (pollStep srv env p (.start boot)) := by
  unfold pollStep
  dsimp only
  split
  · exact ⟨_, tracking_restarted h.sound _⟩
  · exact h

/-- A round asks for the stored number, and goes on to the next file if there is one. -/
theorem pollInv_round {p : PollState} (h : PollInv files l₀ p) (remote : Option Int64) :
    PollInv files l₀ (pollStep srv env p (.round remote)) := by
  cases hp : p.phase with
  | stopped => simpa only [pollStep, hp] using h
  | applying seq remote => simpa only [pollStep, hp] using h
  | waiting =>
    simp only [PollInv, hp] at h
    obtain ⟨prev, h, hnodes⟩ := h
    have hasked := And.intro (tracking_asked h (srv.answers p.session.log p.session.db))
      (holds_asked hnodes (srv.answers p.session.log p.session.db))
    simp only [pollStep, hp, run_getReplicationSequence srv h.sequence, h.progress.1]
    cases remote with
    | none => exact ⟨prev, hasked⟩
    | some remote =>
      cases ha : srv.answers p.session.log p.session.db with
      | false =>
        rw [ha] at hasked
        exact hasked.1.toSound
      | true =>
        rw [ha] at hasked
        simp only [if_true]
        by_cases hneg : prev < 0
        · rw [if_pos hneg]
          exact hasked.1.toSound
        · rw [if_neg hneg]
          by_cases hle : prev ≥ remote
          · rw [if_pos hle]
            exact ⟨prev, hasked⟩
          · rw [if_neg hle]
            exact ⟨prev, hasked, rfl⟩

/-- A file that is applied, or not. -/
theorem pollInv_file {p : PollState} (h : PollInv files l₀ p) (d : Download)
    (hfile : Delivers files p (.file d)) : PollInv files l₀ (pollStep srv env p (.file d)) := by
  cases hp : p.phase with
  | stopped => simpa only [pollStep, hp] using h
  | waiting => simpa only [pollStep, hp] using h
  | applying seq remote =>
    simp only [PollInv, hp] at h
    obtain ⟨prev, ⟨h, hnodes⟩, hseq⟩ := h
    have hrun : Ensures (Replicator.downloadAndApply srv env d seq) p.session _ _ _ :=
      ensures_downloadAndApply h hnodes hseq hp hfile
    simp only [pollStep, hp]
    split
    · unfold Ensures at hrun
      cases hr : (Replicator.downloadAndApply srv env d seq).run p.session with
      | done b s =>
        rw [hr] at hrun
        cases b with
        | true => exact ⟨seq, hrun, rfl⟩
        | false => exact hrun
      | threw e s =>
        rw [hr] at hrun
        exact hrun.elim
      | died s =>
        rw [hr] at hrun
        exact hrun
    · exact ⟨prev, h, hnodes⟩

/-- The step lemma: whatever the input, `poll` keeps its invariant. -/
theorem pollInv_step {p : PollState} (h : PollInv files l₀ p) (i : PollInput) (hfile : Delivers files p i) :
    PollInv files l₀ (pollStep srv env p i) := by
  cases i with
  | stop => exact h.sound
  | start boot => exact pollInv_start h boot
  | round remote => exact pollInv_round h remote
  | file d => exact pollInv_file h d hfile

theorem pollInv_run {p : PollState} (h : PollInv files l₀ p) (inputs : List PollInput)
    (hfile : AllSteps srv env (Delivers files) p inputs) : PollInv files l₀ (runPoll srv env p inputs) := by
  induction inputs generalizing p with
  | nil => exact h
  | cons i inputs ih => exact ih (pollInv_step h i hfile.1) hfile.2

/-- Nothing has happened yet, and the database holds sequence number `s0`. -/
structure PollState.Initial (s0 : Int64) (p : PollState) : Prop where
  phase : p.phase = .stopped
  sequence : p.session.db.sequence = some s0
  log : p.session.log = []

/-- The tally in the ledger is the tally of the run. -/
theorem tally_ledger (files : Int64 → List OSCChange) (db : Database) (seq : Int64) (s : Session) :
    (ledger files (.start (.start db) seq) s).tally = tally db s.log := by
  have hfold : ∀ (log : List Event) (l : Ledger),
      (log.foldl (Ledger.step files) l).tally = log.foldl Tally.step l.tally := by
    intro log
    induction log with
    | nil => exact fun _ => rfl
    | cons e log ih => exact fun l => ih (l.step files e)
  exact hfold s.log _

/-- **Durability of replication.** In a run of `poll`, with any failures, crashes and restarts, every sequence
number that was ever stored is settled exactly if the rows were spared wherever one was stored; and the stored
number is the last of them. -/
theorem replication_durable (srv : Server) (env : Env) (files : Int64 → List OSCChange) {s0 : Int64}
    {p : PollState} (hp : p.Initial s0) (inputs : List PollInput)
    (hfile : AllSteps srv env (Delivers files) p inputs) :
    let final := (runPoll srv env p inputs).session
    let books := ledger files (.start (.start p.session.db) s0) final
    (books.durable ↔ (tally p.session.db final.log).sparing) ∧ final.db.sequence = some books.seq := by
  have hl : ledger files (.start (.start p.session.db) s0) p.session = .start (.start p.session.db) s0 := by
    rw [ledger, hp.log]
    rfl
  have h : PollInv files (.start (.start p.session.db) s0) p := by
    rw [PollInv, hp.phase]
    refine ⟨?_, ?_, ?_⟩
    · rw [hl]
      exact Iff.rfl
    · rw [hl]
      exact hp.sequence
    · rw [hl]
      rfl
  have hsound := (pollInv_run h inputs hfile).sound
  exact ⟨tally_ledger .. ▸ hsound.durable, hsound.sequence⟩

/-! ## A file that is applied again, and a node that is lost -/

/-- A database with sequence number 0 and no rows, before the first start. -/
def beforeStart : PollState :=
  ⟨⟨noStore, NavDB.fresh 0, ⟨fun _ => [], fun _ => [], some 0⟩, []⟩, .stopped⟩

/-- The files of a new store for the ids up to 10, and a server that lets the process in. -/
def newFiles : Startup := ⟨.plain, OSMMMap.blankDisk OSMMMap.emptyDisk 10 1, 10, true⟩

/-- A start, a look at the remote sequence number 1, and its file. -/
def firstFile (c : OSCChange) : List PollInput :=
  [.start newFiles, .round (some 1), .file (.file [c] true)]

/-- PostgreSQL; the first process dies when it stores its number. -/
def dyingOnce : Server where
  respond log db txn := match txn with
    | [.setSequence _] =>
      if (log.filter fun e => match e with | .started => true | _ => false).length = 1 then .died false else .ok
    | _ => match Postgres.complaints .any db txn with
      | some e => .error e
      | none => .ok
  answers _ _ := true

/-- A relation without ways and tags. -/
def bareRelation : RelationEntry := ⟨4, [], .none, []⟩

/-- The row is in its table when the process dies. The next one applies the file again, the key refuses the
row, and nothing is lost. -/
theorem replication_durable_again :
    let final := (runPoll dyingOnce plainEnv beforeStart
      (firstFile (.relation .create bareRelation) ++ firstFile (.relation .create bareRelation))).session
    (ledger (fun _ => [.relation .create bareRelation]) (.start (.start beforeStart.session.db) 0)
      final).durable ∧ final.db.sequence = some 1 ∧ final.db.rows .relation = [⟨4, [], none, none⟩] := by
  have hfile : AllSteps dyingOnce plainEnv (Delivers fun _ => [.relation .create bareRelation]) beforeStart
      (firstFile (.relation .create bareRelation) ++ firstFile (.relation .create bareRelation)) :=
    ⟨trivial, trivial, fun _ _ _ => rfl, trivial, trivial, fun _ _ _ => rfl, trivial⟩
  have h := replication_durable dyingOnce plainEnv (fun _ => [.relation .create bareRelation])
    (show beforeStart.Initial 0 from ⟨rfl, rfl, rfl⟩) _ hfile
  refine ⟨h.1.mpr ?_, h.2, rfl⟩
  exact ⟨trivial, Nat.dvd_zero _, rfl⟩

/-- The tag `shop=yes`. -/
def shopTag : Tags := ⟨[(str "shop", str "yes")], by decide⟩

/-- A created node with a tag waits in `node_buf_` when the sequence number of its file is stored, and
is lost when the process stops. -/
theorem stored_sequence_loses_node :
    let final := runPoll acceptAll plainEnv beforeStart
      (firstFile (.node .create ⟨7, [], shopTag, ⟨1⟩, ⟨2⟩⟩) ++ [.stop, .start newFiles])
    final.session.db.sequence = some 1 ∧ final.session.db.rows .node = [] ∧
      final.session.nav.buf .node = [] ∧
      ¬ (ledger (fun _ => [.node .create ⟨7, [], shopTag, ⟨1⟩, ⟨2⟩⟩])
        (.start (.start beforeStart.session.db) 0) final.session).durable := by
  refine ⟨rfl, rfl, rfl, ?_⟩
  rintro ⟨-, -, -, hpushed, -⟩
  exact absurd (hpushed .node).length_eq (by decide)

end OsmImport
