import OsmImport.Db.Proofs.TagDiff
import OsmImport.Db.Proofs.Retry
import OsmImport.Db.Proofs.TagRouting
import OsmImport.Delta.Proofs.Order
import OsmImport.Delta.Proofs.StoreInsert

/-!
# The tagged nodes

`insertNode` gives a row to the nodes that have tags. `updateNode` neither adds a row nor removes one, so the
table stays that of the tagged nodes as long as no modification gives tags to a node without a row or takes
all tags from a node with one.
-/

namespace OsmImport

open NavDB DeltaApplier Postgres

/-- A change of a node. -/
abbrev NodeChange := ChangeType × NodeEntry

/-- The change of the file. -/
def NodeChange.osc (c : NodeChange) : OSCChange := .node c.1 c.2

/-- The nodes whose current version has tags, behind a change. -/
def taggedAfter (tagged : Int64 → Prop) (c : NodeChange) : Int64 → Prop :=
  match c.1 with
  | .delete => Function.update tagged c.2.id False
  | _ => Function.update tagged c.2.id (c.2.tags.isEmpty = false)

section

variable {tagged : Int64 → Prop} {c : NodeChange}

theorem taggedAfter_self : taggedAfter tagged c c.2.id ↔ c.1 ≠ .delete ∧ c.2.tags.isEmpty = false := by
  obtain ⟨type, n⟩ := c
  cases type <;> simp [taggedAfter]

theorem taggedAfter_of_ne {id : Int64} (h : id ≠ c.2.id) : taggedAfter tagged c id ↔ tagged id := by
  obtain ⟨type, n⟩ := c
  cases type <;> simp [taggedAfter, Function.update_of_ne h]

end

/-- `nodes` has rows for exactly the tagged nodes, and `node_tags` none for a node without a row. -/
structure NodesMatch (db : Database) (tagged : Int64 → Prop) : Prop where
  rows : ∀ id, id ∈ (db.rows .node).map Row.id ↔ tagged id
  tags : ∀ r ∈ db.tags .node, tagged r.id

/-- What a change may do for the table to stay that of the tagged nodes: the node store takes a created or
modified node, a created one has no row yet, and a modified one has a row exactly if it has tags behind the
change. -/
def Steady (osmmap : OSMMMap) (tagged : Int64 → Prop) (c : NodeChange) : Prop :=
  match c.1 with
  | .create => osmmap.Takes 0 c.2.id ∧ ¬ tagged c.2.id
  | .modify => osmmap.Takes 0 c.2.id ∧ (tagged c.2.id ↔ c.2.tags.isEmpty = false)
  | .delete => True

/-- Each change of a run is steady where it comes. -/
def SteadyRun (env : Env) : OSMMMap → (Int64 → Prop) → List NodeChange → Prop
  | _, _, [] => True
  | osmmap, tagged, c :: cs =>
    Steady osmmap tagged c ∧ SteadyRun env (storeAfter env osmmap c.osc) (taggedAfter tagged c) cs

/-- The server accepts what the primary keys allow. -/
def Healthy (srv : Server) : Prop :=
  ∀ log db txn, complaints .any db txn = none → srv.respond log db txn = .ok

theorem healthy_acceptAll : Healthy acceptAll := fun _ _ _ _ => rfl

/-! ## What a change leaves in the tables -/

section

variable {srv : Server} {s : Session}

/-- A flush of all buffers when only nodes are buffered. -/
theorem run_flushAll {s' : Session} (hnode : (NavDB.flush srv .node).run s = .done () s')
    (hbuf : ∀ k, s'.nav.buf k = []) : (flushAll srv).run s = .done () s' := by
  have hrest : ∀ k, (NavDB.flush srv k).run s' = .done () s' := fun k => flush_empty srv (hbuf k)
  have hways : (finalize_ways srv).run s' = .done () s' := by
    show (NavDB.flush srv .way >>= fun _ => NavDB.flush srv .area).run s' = _
    rw [Prog.run_bind_done (hrest .way), hrest .area]
  show (NavDB.flush srv .node >>= fun _ => finalize_ways srv >>= fun _ => NavDB.flush srv .road >>= fun _ =>
    NavDB.flush srv .relation).run s = _
  rw [Prog.run_bind_done hnode, Prog.run_bind_done hways, Prog.run_bind_done (hrest .road),
    hrest .relation]

theorem flushAll_idle (hs : Idle s) : (flushAll srv).run s = .done () s :=
  run_flushAll (flush_empty srv (hs.1 .node)) hs.1

theorem flushed_osmmap (s : Session) (k : Kind) : (s.flushed k).osmmap = s.osmmap := by
  unfold Session.flushed Session.tagsFlushed
  split <;> [rfl; (split <;> rfl)]

/-- The change and the flushes end with empty buffers, the store behind the change and these tables of
nodes. -/
def Leaves (srv : Server) (env : Env) (c : NodeChange) (s : Session) (rows : List Row)
    (tags : List TagRow) : Prop :=
  (do apply srv env c.osc; flushAll srv : Exec Unit).Ends s fun _ s' =>
    Idle s' ∧ s'.osmmap = storeAfter env s.osmmap c.osc ∧ s'.db.rows .node = rows ∧ s'.db.tags .node = tags

theorem deleteNode_leaves (hsrv : Healthy srv) (env : Env) (hs : Idle s) (n : NodeEntry) :
    Leaves srv env (.delete, n) s ((s.db.rows .node).filter fun r => r.id != n.id)
      ((s.db.tags .node).filter fun r => r.id != n.id) := by
  apply Prog.ensures_bind
  apply Prog.ensures_of_run (show (apply srv env (.node .delete n)).run s = .done () _ from
    send_ok (hsrv _ _ _ rfl))
  refine Prog.ensures_of_run (flushAll_idle ?_) ⟨hs, rfl, rfl, rfl⟩
  exact hs

theorem modifyNode_leaves (hsrv : Healthy srv) (env : Env) (hs : Idle s) {n : NodeEntry}
    (htakes : s.osmmap.Takes 0 n.id) :
    Leaves srv env (.modify, n) s (updateRow (s.db.rows .node) (nodeRow env n))
      (diffTags (s.db.tags .node) n.id n.tags) := by
  have hdiff : ∀ db : Database, complaints .any db [.diffTags .node n.id n.tags] = none := by
    intro db
    simp [complaints, complaint, Checks.any]
  have htakes' : (s.record (.change (.node .modify n))).osmmap.Takes 0 n.id := htakes
  apply Prog.ensures_bind
  apply Prog.ensures_bind
  apply Prog.ensures_modify
  apply Prog.ensures_bind
  apply Prog.ensures_of_run (run_storeInsert htakes')
  apply Prog.ensures_bind
  apply Prog.ensures_of_run (send_ok (hsrv _ _ _ rfl))
  apply Prog.ensures_of_run (send_ok (hsrv _ _ _ (hdiff _)))
  refine Prog.ensures_of_run (flushAll_idle ?_) ⟨hs, rfl, rfl, rfl⟩
  exact hs

/-- A flush of nodes whose COPYs are accepted. -/
theorem run_flushNodes (hrows : ∀ log, srv.respond log s.db [.copy .node (s.nav.buf .node)] = .ok)
    (htags : ∀ log db rows, srv.respond log db [.copyTags .node rows] = .ok) :
    (NavDB.flush srv .node).run s = .done () (s.flushed .node) := by
  show (flushNodes srv).run s = _
  unfold flushNodes Session.flushed
  rw [Prog.run_get_bind]
  split
  · rfl
  · rw [Prog.run_bind_done (send_ok (hrows _)), Prog.run_bind_done (finalize_tags_ok .node (htags ..))]
    rfl

/-- A node in the buffer of an idle client, and the flush of it. -/
theorem run_insertInto_node (hsrv : Healthy srv) (hs : Idle s) {row : Row} (tags : Tags)
    (hnew : row.id ∉ (s.db.rows .node).map Row.id) :
    (insertInto srv .node row tags).Ends s fun _ t => (flushAll srv).Ends t fun _ s' =>
      Idle s' ∧ s'.osmmap = s.osmmap ∧ s'.db.rows .node = s.db.rows .node ++ [row] ∧
        s'.db.tags .node = s.db.tags .node ++ tagRows row.id tags := by
  have hbuf : (s.buffered .node row tags).nav.buf .node = [row] := by
    rw [Session.buffered_buf, Function.update_self, hs.1, List.nil_append]
  have hne : (s.buffered .node row tags).nav.buf .node ≠ [] := hbuf ▸ List.cons_ne_nil _ _
  have hfull : full (s.buffered .node row tags).nav .node = false := by
    simp [full, hbuf, NODE_BUFFER_SIZE]
  have hrun : (insertInto srv .node row tags).run s = .done () (s.buffered .node row tags) := by
    have h : (insertInto srv .node row tags).run s =
        (if full (s.buffered .node row tags).nav .node then NavDB.flush srv .node else pure ()).run
          (s.buffered .node row tags) := rfl
    rw [h, hfull]
    rfl
  have hcopy : complaints .any s.db [.copy .node [row]] = none := by
    have hmem : row.id ∉ (s.db.rows .node).map Row.id := hnew
    simp [complaints, complaint, KeyedInsert.firstBad, Checks.any, hmem]
  have hflush : (NavDB.flush srv .node).run (s.buffered .node row tags) =
      .done () ((s.buffered .node row tags).flushed .node) := by
    refine run_flushNodes (fun log => ?_) fun log db rows => hsrv _ _ _ ?_
    · rw [hbuf]
      exact hsrv _ _ _ hcopy
    · exact complaints_copyTags.mpr fun _ _ => rfl
  apply Prog.ensures_of_run hrun
  have hidle : ∀ k, ((s.buffered .node row tags).flushed .node).nav.buf k = [] := by
    intro k
    rw [Session.flushed_buf, Session.buffered_buf]
    rcases eq_or_ne k .node with rfl | hk
    · exact Function.update_self ..
    · rw [Function.update_of_ne hk, Function.update_of_ne hk, hs.1]
  refine Prog.ensures_of_run (run_flushAll hflush hidle) ⟨⟨hidle, fun b => ?_⟩, ?_, ?_, ?_⟩
  · rw [Session.flushed_tagBuf hne, Session.buffered_tagBuf]
    rcases eq_or_ne b (bufOf .node) with rfl | hb
    · exact Function.update_self ..
    · rw [Function.update_of_ne hb, Function.update_of_ne hb, hs.2]
  · exact flushed_osmmap _ _
  · rw [Session.flushed_rows, Function.update_self, hbuf]
    rfl
  · rw [Session.flushed_tags hne, Function.update_self, Session.buffered_tagBuf, Function.update_self, hs.2]
    rfl

theorem createNode_leaves (hsrv : Healthy srv) (env : Env) (hs : Idle s) {n : NodeEntry}
    (htakes : s.osmmap.Takes 0 n.id) (hnew : n.id ∉ (s.db.rows .node).map Row.id) :
    Leaves srv env (.create, n) s
      (if n.tags.isEmpty then s.db.rows .node else s.db.rows .node ++ [nodeRow env n])
      (if n.tags.isEmpty then s.db.tags .node else s.db.tags .node ++ tagRows n.id n.tags) := by
  let pos := env.toMercator n.lon n.lat
  have htakes' : (s.record (.change (.node .create n))).osmmap.Takes 0 n.id := htakes
  have hplaced : Idle (placed (s.record (.change (.node .create n))) n.id pos) := hs
  apply Prog.ensures_bind
  apply Prog.ensures_bind
  apply Prog.ensures_modify
  apply Prog.ensures_bind
  apply Prog.ensures_of_run (run_storeInsert htakes')
  rw [insertNode_eq]
  by_cases hempty : n.tags.isEmpty = true
  · simp only [hempty, if_true]
    apply Prog.ensures_of_run (Prog.run_pure ..)
    exact Prog.ensures_of_run (flushAll_idle hplaced) ⟨hplaced, rfl, rfl, rfl⟩
  · simp only [hempty]
    exact run_insertInto_node hsrv hplaced n.tags hnew

end

/-! ## The invariant -/

section

variable {db db' : Database} {tagged : Int64 → Prop} {n : NodeEntry}

theorem NodesMatch.create (h : NodesMatch db tagged) (env : Env) (hnew : ¬ tagged n.id)
    (hrows : db'.rows .node = if n.tags.isEmpty then db.rows .node else db.rows .node ++ [nodeRow env n])
    (htags : db'.tags .node =
      if n.tags.isEmpty then db.tags .node else db.tags .node ++ tagRows n.id n.tags) :
    NodesMatch db' (taggedAfter tagged (.create, n)) := by
  have hself : taggedAfter tagged (.create, n) n.id ↔ n.tags.isEmpty = false :=
    taggedAfter_self.trans (and_iff_right fun he => by cases he)
  have hrow : ∀ id, id ∈ (db'.rows .node).map Row.id ↔ tagged id ∨ id = n.id ∧ n.tags.isEmpty = false := by
    intro id
    rw [hrows, ← h.rows]
    cases n.tags.isEmpty <;> simp [nodeRow]
  have htag : ∀ r ∈ db'.tags .node, tagged r.id ∨ r.id = n.id ∧ n.tags.isEmpty = false := by
    intro r hr
    rw [htags] at hr
    by_cases hempty : n.tags.isEmpty = true
    · rw [if_pos hempty] at hr
      exact .inl (h.tags r hr)
    · rw [if_neg hempty] at hr
      rcases List.mem_append.mp hr with hr | hr
      · exact .inl (h.tags r hr)
      · obtain ⟨kv, -, rfl⟩ := List.mem_map.mp hr
        exact .inr ⟨rfl, by simpa using hempty⟩
  have hafter : ∀ id, taggedAfter tagged (.create, n) id ↔ tagged id ∨ id = n.id ∧ n.tags.isEmpty = false := by
    intro id
    by_cases hid : id = n.id
    · rw [hid, hself]
      simp [hnew]
    · rw [taggedAfter_of_ne hid]
      simp [hid]
  exact ⟨fun id => (hrow id).trans (hafter id).symm, fun r hr => (hafter r.id).mpr (htag r hr)⟩

/-- The tag rows of other nodes are not touched, and without tags none of the node is left. -/
theorem mem_diffTags {table : List TagRow} {id : Int64} {tags : Tags} {r : TagRow}
    (h : r ∈ diffTags table id tags) : (r.id ≠ id ∧ r ∈ table) ∨ (r.id = id ∧
      (tags.isEmpty = false ∨ ∃ r' ∈ table, r'.id = id)) := by
  by_cases hid : r.id = id
  · refine .inr ⟨hid, ?_⟩
    by_contra hnone
    rw [not_or, Bool.not_eq_false, Tags.isEmpty, List.isEmpty_iff] at hnone
    have hvalues : tagValues (diffTags table id tags) r.id r.key_name = [] := by
      rw [tagValues_diffTags, if_pos hid.symm, Tags.find, hnone.1]
      rfl
    have hmem : r.key_value ∈ tagValues (diffTags table id tags) r.id r.key_name :=
      List.mem_map_of_mem (List.mem_filter.mpr ⟨h, by simp⟩)
    rw [hvalues] at hmem
    exact List.not_mem_nil hmem
  · refine .inl ⟨hid, ?_⟩
    have hmem : r ∈ (diffTags table id tags).filter fun r => r.id != id :=
      List.mem_filter.mpr ⟨h, by simpa using hid⟩
    rw [diffTags_eq_writes, filter_applyWrites] at hmem
    exact (List.mem_filter.mp hmem).1

theorem NodesMatch.modify (h : NodesMatch db tagged) (env : Env)
    (hsteady : tagged n.id ↔ n.tags.isEmpty = false)
    (hrows : db'.rows .node = updateRow (db.rows .node) (nodeRow env n))
    (htags : db'.tags .node = diffTags (db.tags .node) n.id n.tags) :
    NodesMatch db' (taggedAfter tagged (.modify, n)) := by
  have hafter : ∀ id, taggedAfter tagged (.modify, n) id ↔ tagged id := by
    intro id
    by_cases hid : id = n.id
    · rw [hid, hsteady]
      exact taggedAfter_self.trans (and_iff_right fun he => by cases he)
    · exact taggedAfter_of_ne hid
  refine ⟨fun id => by rw [hrows, map_id_updateRow, h.rows, hafter], fun r hr => (hafter _).mpr ?_⟩
  rw [htags] at hr
  rcases mem_diffTags hr with ⟨-, hr⟩ | ⟨hid, hfull | ⟨r', hr', hid'⟩⟩
  · exact h.tags r hr
  · exact hid ▸ hsteady.mpr hfull
  · exact hid.trans hid'.symm ▸ h.tags r' hr'

theorem NodesMatch.delete (h : NodesMatch db tagged)
    (hrows : db'.rows .node = (db.rows .node).filter fun r => r.id != n.id)
    (htags : db'.tags .node = (db.tags .node).filter fun r => r.id != n.id) :
    NodesMatch db' (taggedAfter tagged (.delete, n)) := by
  have hafter : ∀ id, taggedAfter tagged (.delete, n) id ↔ tagged id ∧ id ≠ n.id := by
    intro id
    by_cases hid : id = n.id
    · rw [hid]
      exact taggedAfter_self.trans ⟨fun hd => absurd rfl hd.1, fun hd => absurd rfl hd.2⟩
    · rw [taggedAfter_of_ne hid, and_iff_left hid]
  refine ⟨fun id => ?_, fun r hr => (hafter _).mpr ?_⟩
  · rw [hafter, ← h.rows, hrows]
    simp only [List.mem_map, List.mem_filter, bne_iff_ne]
    constructor
    · rintro ⟨r, ⟨hr, hne⟩, rfl⟩
      exact ⟨⟨r, hr, rfl⟩, hne⟩
    · rintro ⟨⟨r, hr, rfl⟩, hne⟩
      exact ⟨r, ⟨hr, hne⟩, rfl⟩
  · rw [htags] at hr
    obtain ⟨hr, hne⟩ := List.mem_filter.mp hr
    exact ⟨h.tags r hr, by simpa using hne⟩

end

/-! ## Runs -/

/-- A steady change keeps the match, and a node with tags has its row behind it. -/
theorem NodesMatch.step {srv : Server} (hsrv : Healthy srv) (env : Env) {s : Session} (hs : Idle s)
    {tagged : Int64 → Prop} (h : NodesMatch s.db tagged) {c : NodeChange}
    (hc : Steady s.osmmap tagged c) :
    (do apply srv env c.osc; flushAll srv : Exec Unit).Ends s fun _ s' =>
      Idle s' ∧ s'.osmmap = storeAfter env s.osmmap c.osc ∧ NodesMatch s'.db (taggedAfter tagged c) ∧
        (taggedAfter tagged c c.2.id → nodeRow env c.2 ∈ s'.db.rows .node) := by
  obtain ⟨type, n⟩ := c
  cases type with
  | create =>
    have hnew : n.id ∉ (s.db.rows .node).map Row.id := fun hmem =>
      hc.2 ((h.rows n.id).mp hmem)
    refine (createNode_leaves hsrv env hs hc.1 hnew).done fun _ s' hs' => ?_
    obtain ⟨hidle, hstore, hrows, htags⟩ := hs'
    refine ⟨hidle, hstore, h.create env hc.2 hrows htags, fun ht => ?_⟩
    have hfull : n.tags.isEmpty = false := (taggedAfter_self.mp ht).2
    rw [hrows, hfull]
    exact List.mem_append_right _ List.mem_cons_self
  | modify =>
    refine (modifyNode_leaves hsrv env hs hc.1).done fun _ s' hs' => ?_
    obtain ⟨hidle, hstore, hrows, htags⟩ := hs'
    refine ⟨hidle, hstore, h.modify env hc.2 hrows htags, fun ht => ?_⟩
    have hfull : n.tags.isEmpty = false := (taggedAfter_self.mp ht).2
    obtain ⟨r, hr, hid⟩ := List.mem_map.mp ((h.rows n.id).mpr (hc.2.mpr hfull))
    rw [hrows]
    exact List.mem_map.mpr ⟨r, hr, if_pos hid⟩
  | delete =>
    refine (deleteNode_leaves hsrv env hs n).done fun _ s' hs' => ?_
    obtain ⟨hidle, hstore, hrows, htags⟩ := hs'
    refine ⟨hidle, hstore, h.delete hrows htags, fun ht => ?_⟩
    exact absurd rfl (taggedAfter_self.mp ht).1

/-- **The tagged nodes.** From a state in which `nodes` has rows for exactly the tagged nodes and
`node_tags` none for others, a run of steady changes, each with a flush of all buffers behind it, keeps this
in every state that it reaches; behind a change that leaves its node with tags, the row of the node has the
name and the position of that version. -/
theorem nodes_stay_tagged {srv : Server} (hsrv : Healthy srv) (env : Env) {s : Session} (hs : Idle s)
    {tagged : Int64 → Prop} (h : NodesMatch s.db tagged) {cs : List NodeChange}
    (hcs : SteadyRun env s.osmmap tagged cs) :
    ∀ pre post, cs = pre ++ post → ∃ s', (applyEach srv env (pre.map NodeChange.osc)).run s = .done () s' ∧
      Idle s' ∧ NodesMatch s'.db (pre.foldl taggedAfter tagged) ∧
      ∀ init c, pre = init ++ [c] → taggedAfter (init.foldl taggedAfter tagged) c c.2.id →
        nodeRow env c.2 ∈ s'.db.rows .node := by
  intro pre
  induction pre generalizing s tagged cs with
  | nil =>
    intro post _
    exact ⟨s, rfl, hs, h, fun init c hc => by simp at hc⟩
  | cons c pre ih =>
    intro post hpre
    rw [hpre] at hcs
    obtain ⟨_, t, hrun, hidle, hstore, hmatch, hrow⟩ := (h.step hsrv env hs hcs.1).exists
    obtain ⟨s', hrest, hidle', hmatch', hrow'⟩ := ih hidle hmatch (hstore ▸ hcs.2) post rfl
    have hall : (applyEach srv env ((c :: pre).map NodeChange.osc)).run s = .done () s' := by
      show ((do apply srv env c.osc; flushAll srv : Exec Unit) >>=
        fun _ => applyEach srv env (pre.map NodeChange.osc)).run s = _
      rw [Prog.run_bind_done hrun, hrest]
    refine ⟨s', hall, hidle', hmatch', fun init d hinit ht => ?_⟩
    rcases init with _ | ⟨c', init⟩
    · obtain ⟨rfl, rfl⟩ := List.cons.inj hinit
      obtain rfl : t = s' := by
        have hdone : Outcome.done () t = Outcome.done () s' := hrest
        injection hdone
      exact hrow ht
    · obtain ⟨rfl, rfl⟩ := List.cons.inj hinit
      exact hrow' init d rfl ht

/-- A node with the tag `highway=a1`. -/
def crossing : NodeEntry := ⟨5, str "X", highwayTag, ⟨1⟩, ⟨2⟩⟩

/-- A new process with a new store and an empty database. -/
def newSession : Session := Session.opened newStore 0 emptyDb

theorem blank_match : NodesMatch newSession.db fun _ => False :=
  ⟨fun _ => iff_of_false List.not_mem_nil id, fun _ hr => absurd hr List.not_mem_nil⟩

theorem nodes_stay_tagged_crossing : ∃ s',
    (applyEach acceptAll plainEnv [.node .create crossing, .node .modify crossing]).run newSession =
      .done () s' ∧
    NodesMatch s'.db ([(ChangeType.create, crossing), (.modify, crossing)].foldl taggedAfter fun _ => False) := by
  have htakes : ∀ osmmap : OSMMMap, osmmap.platform = .plain → osmmap.Takes 0 crossing.id := fun osmmap h =>
    OSMMMap.takes_of_roomy (h ▸ OSMMMap.roomy_plain 1) (by decide) (by decide)
  have hcs : SteadyRun plainEnv newStore (fun _ => False)
      [(ChangeType.create, crossing), (.modify, crossing)] :=
    ⟨⟨htakes _ rfl, id⟩, ⟨htakes _ rfl, by simp [taggedAfter, crossing, highwayTag, Tags.isEmpty]⟩, trivial⟩
  obtain ⟨s', hrun, -, hmatch, -⟩ := nodes_stay_tagged healthy_acceptAll plainEnv (s := newSession)
    ⟨fun _ => rfl, fun _ => rfl⟩ blank_match hcs _ [] (List.append_nil _).symm
  exact ⟨s', hrun, hmatch⟩

/-- The node without its tag. -/
def plainCrossing : NodeEntry := { crossing with tags := .none }

/-- A node that gets tags by a modification gets no row, and its tags no node. -/
theorem tagged_node_without_row : ∃ s',
    (applyEach acceptAll plainEnv [.node .create plainCrossing, .node .modify crossing]).run newSession =
      .done () s' ∧
    ¬ NodesMatch s'.db
      ([(ChangeType.create, plainCrossing), (.modify, crossing)].foldl taggedAfter fun _ => False) := by
  refine ⟨_, rfl, fun h => ?_⟩
  have htagged : taggedAfter (taggedAfter (fun _ => False) (.create, plainCrossing)) (.modify, crossing) 5 :=
    (taggedAfter_self (c := (.modify, crossing))).mpr ⟨by decide, rfl⟩
  have hrow := (h.rows 5).mpr htagged
  revert hrow
  decide +kernel

end OsmImport
