import OsmImport.Db.Proofs.Accepting

/-!
# Which table the tags end in

Nodes, roads and relations share one tag buffer, and whichever of them is flushed next takes all of it
to its own tag table. The pending tags of each kind of entity are tracked beside the session
(`Pending`); as long as no flush finds pending tags of another kind in its buffer, every tag row ends
in the tag table of its entity, once (`tag_routing`).
-/

namespace OsmImport

open NavDB

/-- The inserts and finalizers. -/
inductive NavOp where
  | insertNode (id : Int64) (name : Str) (lon_m lat_m : Double) (tags : Tags) (geog : Str)
  | insertWay (id : Int64) (name : Str) (tags : Tags) (geog : Str)
  | insertArea (id : Int64) (name : Str) (tags : Tags) (geog : Str)
  | insertRoad (id : Int64) (name : Str) (tags : Tags) (geog : Str)
  | insertRelation (id : Int64) (name : Str) (tags : Tags) (geog : Str)
  | finalize_nodes
  | finalize_ways
  | finalize_roads
  | finalize_relations

namespace NavOp

/-- The call. -/
def exec (srv : Server) : NavOp → Exec Unit
  | .insertNode id name lon_m lat_m tags geog => NavDB.insertNode srv id name lon_m lat_m tags geog
  | .insertWay id name tags geog => NavDB.insertWay srv id name tags geog
  | .insertArea id name tags geog => NavDB.insertArea srv id name tags geog
  | .insertRoad id name tags geog => NavDB.insertRoad srv id name tags geog
  | .insertRelation id name tags geog => NavDB.insertRelation srv id name tags geog
  | .finalize_nodes => NavDB.finalize_nodes srv
  | .finalize_ways => NavDB.finalize_ways srv
  | .finalize_roads => NavDB.finalize_roads srv
  | .finalize_relations => NavDB.finalize_relations srv

/-- The entity that a call inserts, with its table; a node without tags is not stored. -/
def entity : NavOp → Option (Kind × Row × Tags)
  | .insertNode id name lon_m lat_m tags geog =>
    if tags.isEmpty then none else some (.node, ⟨id, name, some (lon_m, lat_m), some geog⟩, tags)
  | .insertWay id name tags geog => some (.way, ⟨id, name, none, some geog⟩, tags)
  | .insertArea id name tags geog => some (.area, ⟨id, name, none, some geog⟩, tags)
  | .insertRoad id name tags geog => some (.road, ⟨id, name, none, some geog⟩, tags)
  | .insertRelation id name tags geog => some (.relation, ⟨id, name, none, nullable geog⟩, tags)
  | _ => none

/-- The tables that a call flushes whatever their buffers hold. -/
def finalizes : NavOp → List Kind
  | .finalize_nodes => [.node]
  | .finalize_ways => [.way, .area]
  | .finalize_roads => [.road]
  | .finalize_relations => [.relation]
  | _ => []

/-- The tag rows that belong to table `k`. -/
def tagsFor (k : Kind) (op : NavOp) : List TagRow :=
  match op.entity with
  | some (j, row, tags) => if j = k then tagRows row.id tags else []
  | none => []

end NavOp

/-! ## Buffering and flushing -/

/-- What the calls are made of. -/
inductive BufStep where
  | buffer (k : Kind) (row : Row) (tags : Tags)
  | flush (k : Kind)

/-- The steps of a call, from the session in which it starts. -/
def NavOp.steps (s : Session) (op : NavOp) : List BufStep :=
  match op.entity with
  | some (k, row, tags) =>
    .buffer k row tags :: if full (s.buffered k row tags).nav k then [.flush k] else []
  | none => op.finalizes.map .flush

/-- The tags in the buffers, by the kind of their entity. -/
abbrev Pending := Kind → List TagRow

namespace BufStep

/-- A step, on the session and on the pending tags. -/
def apply (st : Session × Pending) : BufStep → Session × Pending
  | .buffer k row tags =>
    (st.1.buffered k row tags, Function.update st.2 k (st.2 k ++ tagRows row.id tags))
  | .flush k =>
    (st.1.flushed k,
      if st.1.nav.buf k = [] then st.2 else fun j => if bufOf j = bufOf k then [] else st.2 j)

/-- A flush finds no pending tags of another kind in the tag buffer that it takes. -/
def Routed (st : Session × Pending) : BufStep → Prop
  | .buffer .. => True
  | .flush k => st.1.nav.buf k ≠ [] → ∀ j, j ≠ k → bufOf j = bufOf k → st.2 j = []

end BufStep

/-- All of some steps are routed. -/
def RoutedSteps : List BufStep → Session × Pending → Prop
  | [], _ => True
  | b :: bs, st => b.Routed st ∧ RoutedSteps bs (b.apply st)

/-- The session and the pending tags behind a sequence of calls. -/
def runNavOps (ops : List NavOp) (st : Session × Pending) : Session × Pending :=
  ops.foldl (fun st op => (op.steps st.1).foldl BufStep.apply st) st

/-- All steps of a sequence of calls are routed. -/
def RoutedOps : List NavOp → Session × Pending → Prop
  | [], _ => True
  | op :: ops, st =>
    RoutedSteps (op.steps st.1) st ∧ RoutedOps ops ((op.steps st.1).foldl BufStep.apply st)

/-- On an accepting server, a call does its steps. -/
theorem exec_steps {srv : Server} (h : Accepting srv) (op : NavOp) (st : Session × Pending) :
    (op.exec srv).run st.1 = .done () ((op.steps st.1).foldl BufStep.apply st).1 := by
  have hinsert : ∀ k row tags, (insertInto srv k row tags).run st.1 = .done ()
      ((BufStep.buffer k row tags :: if full (st.1.buffered k row tags).nav k then
        [BufStep.flush k] else []).foldl BufStep.apply st).1 := by
    intro k row tags
    rw [insertInto_accepting h, Session.inserted]
    split <;> rfl
  have hflush : ∀ k, (flush srv k).run st.1 = .done () ([BufStep.flush k].foldl BufStep.apply st).1 :=
    fun k => flush_accepting h k st.1
  cases op with
  | insertNode id name lon_m lat_m tags geog =>
    simp only [NavOp.exec, insertNode_eq, NavOp.steps, NavOp.entity]
    by_cases ht : tags.isEmpty
    · simp [ht, NavOp.finalizes]
    · simpa only [ht, if_false, Bool.false_eq_true] using hinsert _ _ _
  | insertWay id name tags geog =>
    show (NavDB.insertWay srv id name tags geog).run st.1 = _
    rw [insertWay_eq]
    exact hinsert _ _ _
  | insertArea id name tags geog =>
    show (NavDB.insertArea srv id name tags geog).run st.1 = _
    rw [insertArea_eq]
    exact hinsert _ _ _
  | insertRoad id name tags geog =>
    show (NavDB.insertRoad srv id name tags geog).run st.1 = _
    rw [insertRoad_eq]
    exact hinsert _ _ _
  | insertRelation id name tags geog =>
    show (NavDB.insertRelation srv id name tags geog).run st.1 = _
    rw [insertRelation_eq]
    exact hinsert _ _ _
  | finalize_nodes => exact hflush .node
  | finalize_ways =>
    have hway : (flushWays srv).run st.1 = .done () (st.1.flushed .way) := flush_accepting h .way st.1
    show (flushWays srv >>= fun _ => flushAreas srv).run st.1 = _
    rw [Prog.run_bind_done hway]
    exact flush_accepting h .area _
  | finalize_roads => exact hflush .road
  | finalize_relations => exact hflush .relation

theorem run_exec {srv : Server} (h : Accepting srv) (ops : List NavOp) (st : Session × Pending) :
    (Prog.forEach ops (NavOp.exec srv)).run st.1 = .done () (runNavOps ops st).1 := by
  induction ops generalizing st with
  | nil => rfl
  | cons op ops ih =>
    show (op.exec srv >>= fun _ => Prog.forEach ops (NavOp.exec srv)).run st.1 = _
    rw [Prog.run_bind_done (exec_steps h op st)]
    exact ih _

/-! ## The invariant -/

/-- The pending tags that share a buffer. -/
def held (p : Pending) : TagBuf → List TagRow
  | .shared => p .node ++ p .road ++ p .relation
  | .way => p .way
  | .area => p .area

theorem held_update (p : Pending) (k : Kind) (rows : List TagRow) (b : TagBuf) :
    (held (Function.update p k (p k ++ rows)) b).Perm
      (if b = bufOf k then held p b ++ rows else held p b) := by
  have hmid : ∀ a c d : List TagRow, (a ++ rows ++ c ++ d).Perm (a ++ c ++ d ++ rows) := by
    intro a c d
    simp only [List.append_assoc]
    refine List.Perm.append_left a ?_
    rw [← List.append_assoc c d rows]
    exact List.perm_append_comm
  have hmid' : ∀ a c d : List TagRow, (a ++ (c ++ rows) ++ d).Perm (a ++ c ++ d ++ rows) := by
    intro a c d
    simp only [List.append_assoc]
    exact List.Perm.append_left a (List.Perm.append_left c List.perm_append_comm)
  cases b <;> cases k <;> simp only [held, bufOf, Function.update, reduceCtorEq, if_true, if_false,
    dite_false, dite_true, List.Perm.refl]
  · exact hmid _ _ _
  · exact hmid' _ _ _
  · rw [← List.append_assoc]

/-- Pending tags of one kind only. -/
theorem held_of_routed {p : Pending} {k : Kind} (h : ∀ j, j ≠ k → bufOf j = bufOf k → p j = []) :
    held p (bufOf k) = p k := by
  cases k with
  | node => simp [held, bufOf, h .road (by decide) rfl, h .relation (by decide) rfl]
  | way => rfl
  | area => rfl
  | road => simp [held, bufOf, h .node (by decide) rfl, h .relation (by decide) rfl]
  | relation => simp [held, bufOf, h .node (by decide) rfl, h .road (by decide) rfl]

/-- Pending tags are in the tag buffers, together with a buffered row of their entity; with the tag
tables they make up the expected rows. -/
structure TagsTracked (expected : Kind → List TagRow) (st : Session × Pending) : Prop where
  withRow : ∀ k, st.2 k ≠ [] → st.1.nav.buf k ≠ []
  inBuffer : ∀ b, (st.1.nav.tagBuf b).Perm (held st.2 b)
  table : ∀ k, (st.1.db.tags k ++ st.2 k).Perm (expected k)

theorem tracked_buffer {expected : Kind → List TagRow} {st : Session × Pending}
    (h : TagsTracked expected st) (k : Kind) (row : Row) (tags : Tags) :
    TagsTracked (fun j => expected j ++ if k = j then tagRows row.id tags else [])
      ((BufStep.buffer k row tags).apply st) := by
  constructor
  · intro j hj
    show Function.update st.1.nav.buf k (st.1.nav.buf k ++ [row]) j ≠ []
    by_cases hjk : j = k
    · subst hjk
      simp
    · rw [Function.update_of_ne hjk]
      refine h.withRow j ?_
      simpa only [BufStep.apply, Function.update_of_ne hjk] using hj
  · intro b
    refine List.Perm.trans ?_ (held_update st.2 k (tagRows row.id tags) b).symm
    show (Function.update st.1.nav.tagBuf (bufOf k) _ b).Perm _
    by_cases hb : b = bufOf k
    · rw [hb, Function.update_self, if_pos rfl]
      exact (h.inBuffer (bufOf k)).append_right _
    · rw [Function.update_of_ne hb, if_neg hb]
      exact h.inBuffer b
  · intro j
    show (st.1.db.tags j ++ Function.update st.2 k (st.2 k ++ tagRows row.id tags) j).Perm _
    by_cases hjk : j = k
    · subst hjk
      rw [Function.update_self, if_pos rfl, ← List.append_assoc]
      exact (h.table j).append_right _
    · rw [Function.update_of_ne hjk, if_neg (Ne.symm hjk), List.append_nil]
      exact h.table j

theorem tracked_flush {expected : Kind → List TagRow} {st : Session × Pending}
    (h : TagsTracked expected st) {k : Kind} (hr : (BufStep.flush k).Routed st) :
    TagsTracked expected ((BufStep.flush k).apply st) := by
  by_cases hk : st.1.nav.buf k = []
  · have hsame : (BufStep.flush k).apply st = st := by
      simp only [BufStep.apply, Session.flushed_empty hk, hk, if_true]
    rwa [hsame]
  · have hother := hr hk
    have hpend : ((BufStep.flush k).apply st).2 = fun j => if bufOf j = bufOf k then [] else st.2 j := by
      simp only [BufStep.apply, hk, if_false]
    constructor
    · intro j hj
      rw [hpend] at hj
      have hjb : bufOf j ≠ bufOf k := fun hb => hj (if_pos hb)
      have hjk : j ≠ k := fun hb => hjb (congrArg bufOf hb)
      show (st.1.flushed k).nav.buf j ≠ []
      rw [Session.flushed_buf, Function.update_of_ne hjk]
      refine h.withRow j ?_
      simpa only [hjb, if_false] using hj
    · intro b
      rw [hpend]
      show ((st.1.flushed k).nav.tagBuf b).Perm _
      rw [Session.flushed_tagBuf hk]
      by_cases hb : b = bufOf k
      · subst hb
        rw [Function.update_self]
        have hnone : held (fun j => if bufOf j = bufOf k then [] else st.2 j) (bufOf k) = [] := by
          cases k <;> rfl
        rw [hnone]
      · rw [Function.update_of_ne hb]
        refine (h.inBuffer b).trans ?_
        have hsame : held (fun j => if bufOf j = bufOf k then [] else st.2 j) b = held st.2 b := by
          cases b <;> cases k <;> first | rfl | exact absurd rfl hb
        rw [hsame]
    · intro j
      rw [hpend]
      show ((st.1.flushed k).db.tags j ++ if bufOf j = bufOf k then [] else st.2 j).Perm _
      rw [Session.flushed_tags hk]
      by_cases hjk : j = k
      · subst hjk
        rw [Function.update_self, if_pos rfl, List.append_nil]
        refine List.Perm.trans (List.Perm.append_left _ ?_) (h.table j)
        rw [← held_of_routed hother]
        exact h.inBuffer (bufOf j)
      · rw [Function.update_of_ne hjk]
        by_cases hb : bufOf j = bufOf k
        · rw [if_pos hb, ← hother j hjk hb]
          exact h.table j
        · rw [if_neg hb]
          exact h.table j

theorem tracked_steps {expected : Kind → List TagRow} {st : Session × Pending} (bs : List BufStep)
    (hflush : ∀ b ∈ bs, ∃ k, b = .flush k) (h : TagsTracked expected st) (hr : RoutedSteps bs st) :
    TagsTracked expected (bs.foldl BufStep.apply st) := by
  induction bs generalizing st with
  | nil => exact h
  | cons b bs ih =>
    obtain ⟨k, rfl⟩ := hflush b List.mem_cons_self
    exact ih (fun b' hb' => hflush b' (List.mem_cons_of_mem _ hb')) (tracked_flush h hr.1) hr.2

/-- One call adds its tag rows to what is expected. -/
theorem tracked_op {expected : Kind → List TagRow} {st : Session × Pending}
    (h : TagsTracked expected st) (op : NavOp) (hr : RoutedSteps (op.steps st.1) st) :
    TagsTracked (fun k => expected k ++ op.tagsFor k) ((op.steps st.1).foldl BufStep.apply st) := by
  unfold NavOp.steps at *
  unfold NavOp.tagsFor
  cases he : op.entity with
  | none =>
    simp only [he] at hr ⊢
    simp only [List.append_nil]
    refine tracked_steps _ (fun b hb => ?_) h hr
    obtain ⟨k, -, rfl⟩ := List.mem_map.mp hb
    exact ⟨k, rfl⟩
  | some e =>
    obtain ⟨k, row, tags⟩ := e
    simp only [he] at hr ⊢
    rw [List.foldl_cons]
    refine tracked_steps _ (fun b hb => ?_) (tracked_buffer h k row tags) hr.2
    split at hb
    · exact ⟨k, List.mem_singleton.mp hb⟩
    · cases hb

theorem tracked_run {expected : Kind → List TagRow} {st : Session × Pending} (ops : List NavOp)
    (h : TagsTracked expected st) (hr : RoutedOps ops st) :
    TagsTracked (fun k => expected k ++ ops.flatMap (NavOp.tagsFor k)) (runNavOps ops st) := by
  induction ops generalizing expected st with
  | nil =>
    show TagsTracked _ st
    simpa using h
  | cons op ops ih =>
    have hop := ih (tracked_op h op hr.1) hr.2
    simp only [List.append_assoc] at hop
    exact hop

/-- A client that has nothing buffered. -/
def Idle (s : Session) : Prop := (∀ k, s.nav.buf k = []) ∧ ∀ b, s.nav.tagBuf b = []

/-- **Tag routing.** On a server that accepts every COPY, a run of inserts and finalizers in which every
flush finds only tags of its own kind in its tag buffer never fails, and as soon as no rows are
buffered, no tags are, and each tag table has grown by exactly the tag rows of its entities. -/
theorem tag_routing {srv : Server} (hsrv : Accepting srv) {s : Session} (hs : Idle s)
    (ops : List NavOp) (hr : RoutedOps ops (s, fun _ => [])) :
    ∃ s', (Prog.forEach ops (NavOp.exec srv)).run s = .done () s' ∧
      ((∀ k, s'.nav.buf k = []) → (∀ b, s'.nav.tagBuf b = []) ∧
        ∀ k, (s'.db.tags k).Perm (s.db.tags k ++ ops.flatMap (NavOp.tagsFor k))) := by
  have hstart : TagsTracked s.db.tags (s, fun _ => []) :=
    ⟨fun k hk => absurd rfl hk, fun b => by rw [hs.2 b]; cases b <;> rfl, fun k => by simp⟩
  have hend := tracked_run ops hstart hr
  refine ⟨_, run_exec hsrv ops (s, fun _ => []), fun hbuf => ?_⟩
  have hpend : (runNavOps ops (s, fun _ => [])).2 = fun _ => [] := by
    funext k
    by_contra hk
    exact hend.withRow k hk (hbuf k)
  refine ⟨fun b => ?_, fun k => ?_⟩
  · have hb := hend.inBuffer b
    have hnone : held (runNavOps ops (s, fun _ => [])).2 b = [] := by
      rw [hpend]
      cases b <;> rfl
    rw [hnone] at hb
    exact hb.eq_nil
  · have hk := hend.table k
    rwa [hpend, List.append_nil] at hk

/-- An empty database and an idle client. -/
def idleSession : Session :=
  ⟨noStore, NavDB.fresh 0, ⟨fun _ => [], fun _ => [], none⟩, []⟩

/-- The tag `highway=a1`. -/
def highwayTag : Tags := ⟨[(str "highway", str "a1")], by decide⟩

/-- The calls for a way and a node. -/
def wayAndNode : List NavOp :=
  [.insertWay 1 [] highwayTag [], .insertNode 2 [] ⟨0⟩ ⟨0⟩ highwayTag [], .finalize_ways,
    .finalize_nodes]

theorem tag_routing_way_and_node :
    ∃ s', (Prog.forEach wayAndNode (NavOp.exec acceptAll)).run idleSession = .done () s' ∧
      (∀ b, s'.nav.tagBuf b = []) ∧ ∀ k, (s'.db.tags k).Perm
        (idleSession.db.tags k ++ wayAndNode.flatMap (NavOp.tagsFor k)) := by
  have hr : RoutedOps wayAndNode (idleSession, fun _ => []) := by
    refine ⟨⟨trivial, trivial⟩, ⟨trivial, trivial⟩, ⟨?_, ?_, trivial⟩, ⟨?_, trivial⟩, trivial⟩ <;>
      · intro _ j hj hb
        cases j <;> first | rfl | exact absurd rfl hj | cases hb
  obtain ⟨s', hrun, h⟩ := tag_routing accepting_acceptAll
    (s := idleSession) ⟨fun _ => rfl, fun _ => rfl⟩ wayAndNode hr
  refine ⟨s', hrun, h fun k => ?_⟩
  injection (hrun : Outcome.done () _ = Outcome.done () s') with _ hs
  rw [← hs]
  cases k <;> rfl

/-- A road relation as the way threads store it: its tags wait in the shared buffer when the road is
flushed, and both copies end in `road_tags`. -/
theorem road_takes_relation_tags : ∃ s', (Prog.forEach
    [.insertRelation 5 [] highwayTag [], .insertRoad 5 [] highwayTag (str "01"), .finalize_roads,
      .finalize_relations] (NavOp.exec acceptAll)).run idleSession = .done () s' ∧
    (∀ k, s'.nav.buf k = []) ∧ (∀ b, s'.nav.tagBuf b = []) ∧
    s'.db.tags .relation = [] ∧
    s'.db.tags .road = [⟨5, str "highway", str "a1"⟩, ⟨5, str "highway", str "a1"⟩] := by
  refine ⟨_, rfl, ?_, ?_, ?_, ?_⟩
  · intro k
    cases k <;> rfl
  · intro b
    cases b <;> rfl
  · rfl
  · rfl

end OsmImport
