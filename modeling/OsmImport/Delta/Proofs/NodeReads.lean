import OsmImport.Db.Proofs.Frame
import OsmImport.Delta.Proofs.Operations
import OsmImport.Store.Proofs.Guards

/-!
# What way geometries see of changed nodes

In delta mode a created or modified node goes to the shard stream of the store, and `select` reads the
merged file, which only `remove` changes. So a read sees deletes and nothing else
(`select_storeAfter`), and it agrees with the sequence of changes exactly when every node that is
created or modified is already there at the same place.
-/

namespace OsmImport

open NavDB Prog DeltaApplier

/-! ## The store through the changes -/

section

variable (srv : Server) (env : Env)

theorem untouched_store (k : Kind) : Untouched srv Session.osmmap k :=
  untouched_memory (f := fun st _ => st) (fun _ _ _ => rfl) fun _ _ _ => rfl

/-- Only the accesses to the store itself touch it. -/
theorem pieces_store : Pieces srv (fun _ => True) (fun _ => False) fun m => Keeps Session.osmmap m where
  toCompositional := compositional_keeps _
  send _ _ := keeps_send (fun _ _ => rfl) fun _ _ => rfl
  ask _ := fun _ => rfl
  place _ _ hid := hid.elim
  remove _ hid := hid.elim
  insertInto k _ _ _ := compositional_insertInto (compositional_keeps _) (keeps_modify fun _ => rfl)
    (keeps_modify fun _ => rfl) (untouched_store srv k).flush
  flush k _ := (untouched_store srv k).flush

/-- A change that is applied leaves the store as `storeAfter` says. -/
theorem store_apply (c : OSCChange) {s s' : Session}
    (h : (DeltaApplier.apply srv env c).run s = .done () s') : s'.osmmap = storeAfter env s.osmmap c := by
  have h : (DeltaApplier.operation srv env c).run (s.record (.change c)) = .done () s' := h
  have hpieces := pieces_store srv
  show s'.osmmap = storeAfter env (s.record (.change c)).osmmap c
  rcases c with ⟨type, n⟩ | ⟨type, w⟩ | ⟨type, r⟩
  · cases type with
    | create =>
      exact (hpieces.insertNode n.id n.name _ _ n.tags _ fun _ => trivial).done (storeInsert_bind_done h).2
    | modify => exact (hpieces.updateNode n.id n.name _ _ n.tags _).done (storeInsert_bind_done h).2
    | delete => exact (hpieces.deleteEntity n.id .node).done (run_modify_bind _ _ _ ▸ h)
  · exact (hpieces.operation (.way type w) ⟨trivial, trivial⟩).done h
  · exact (hpieces.operation (.relation type r) ⟨trivial, trivial⟩).done h

theorem store_run {cs : List OSCChange} {s s' : Session}
    (h : (forEach cs (DeltaApplier.apply srv env)).run s = .done () s') :
    s'.osmmap = cs.foldl (storeAfter env) s.osmmap := by
  induction cs generalizing s with
  | nil =>
    cases h
    rfl
  | cons c cs ih =>
    have h : (forEach ([c] ++ cs) (DeltaApplier.apply srv env)).run s = .done () s' := h
    obtain ⟨t, hc, hcs⟩ := forEach_done_append h
    have ht : (DeltaApplier.apply srv env c).run s = .done () t := by
      have hbind : (forEach [c] (DeltaApplier.apply srv env)).run s =
        (DeltaApplier.apply srv env c >>= fun _ => pure ()).run s := rfl
      rw [hbind, run_bind] at hc
      cases hr : (DeltaApplier.apply srv env c).run s with
      | done a t' =>
        rw [hr] at hc
        exact hc
      | threw e t' =>
        rw [hr] at hc
        cases hc
      | died t' =>
        rw [hr] at hc
        cases hc
    rw [ih hcs, List.foldl_cons, ← store_apply srv env c ht]

end

/-! ## Reads of the store -/

open OSMMMap

/-- The node changes of a sequence have ids in `0..max_id`. -/
def NodeIdsIn (max_id : Int64) (cs : List OSCChange) : Prop :=
  ∀ type n, OSCChange.node type n ∈ cs → 0 ≤ n.id ∧ n.id ≤ max_id

/-- A read sees the deletes. -/
theorem select_storeAfter (env : Env) {st : OSMMMap} {max_id : Int64} (hc : Covers st max_id)
    {c : OSCChange} (hids : NodeIdsIn max_id [c]) (j : Int64) :
    Covers (storeAfter env st c) max_id ∧ (storeAfter env st c).select j =
      match c with
      | .node .delete n => if j = n.id then none else st.select j
      | _ => st.select j := by
  have hmax : ∀ id : Int64, 0 ≤ id → id ≤ max_id → InRange max_id id := by
    intro id h0 h1
    refine inRange_of_le ?_ h0 h1
    rw [neg_iff]
    have := hc.bound
    omega
  rcases c with ⟨type, n⟩ | w | r
  · cases type with
    | create => exact ⟨⟨hc.data, hc.bits, hc.bound⟩, rfl⟩
    | modify => exact ⟨⟨hc.data, hc.bits, hc.bound⟩, rfl⟩
    | delete =>
      obtain ⟨h0, h1⟩ := hids .delete n (by simp)
      exact ⟨covers_remove hc n.id, select_remove hc (hmax n.id h0 h1) j⟩
  · exact ⟨hc, rfl⟩
  · exact ⟨hc, rfl⟩

/-- A change to the coordinates of a node; `none` for a delete. -/
def nodeEffect (env : Env) : OSCChange → Option (Int64 × Option Coord)
  | .node .delete n => some (n.id, none)
  | .node _ n => some (n.id, some (env.toMercator n.lon n.lat))
  | _ => none

/-- The coordinates of a node after a sequence of changes: those of its last change, or the original
ones. -/
def expectedCoord (env : Env) (st : OSMMMap) (cs : List OSCChange) (id : Int64) : Option Coord :=
  (lastWrite (cs.filterMap (nodeEffect env)) id).getD (st.select id)

theorem expectedCoord_concat (env : Env) (st : OSMMMap) (cs : List OSCChange) (c : OSCChange)
    (id : Int64) : expectedCoord env st (cs ++ [c]) id = match nodeEffect env c with
      | some (j, v) => if id = j then v else expectedCoord env st cs id
      | none => expectedCoord env st cs id := by
  unfold expectedCoord
  rw [List.filterMap_append]
  cases he : nodeEffect env c with
  | none => simp [he]
  | some e =>
    have hone : [c].filterMap (nodeEffect env) = [e] := by simp [he]
    rw [hone, lastWrite_concat]
    by_cases hid : id = e.1 <;> simp [hid]

section

variable (env : Env) {st : OSMMMap} {max_id : Int64}

open Classical in
/-- After some changes a read finds the original coordinates, unless a delete came by. -/
theorem select_foldl_storeAfter (hc : Covers st max_id) (cs : List OSCChange)
    (hids : NodeIdsIn max_id cs) (j : Int64) :
    Covers (cs.foldl (storeAfter env) st) max_id ∧ (cs.foldl (storeAfter env) st).select j =
      if ∃ n, OSCChange.node .delete n ∈ cs ∧ n.id = j then none else st.select j := by
  induction cs using List.reverseRecOn with
  | nil => exact ⟨hc, by simp⟩
  | append_singleton cs c ih =>
    obtain ⟨hcov, hsel⟩ := ih fun type n hn => hids type n (List.mem_append_left _ hn)
    obtain ⟨hcov', hsel'⟩ := select_storeAfter env hcov (c := c) (fun type n hn => hids type n
      (List.mem_append_right _ hn)) j
    rw [List.foldl_append, List.foldl_cons, List.foldl_nil]
    refine ⟨hcov', hsel'.trans ?_⟩
    rcases c with ⟨type, n⟩ | w | r
    · cases type with
      | create => simpa using hsel
      | modify => simpa using hsel
      | delete =>
        dsimp only
        rw [hsel]
        by_cases hj : j = n.id
        · have hex : ∃ m, OSCChange.node .delete m ∈ cs ++ [.node .delete n] ∧ m.id = j :=
            ⟨n, by simp, hj.symm⟩
          rw [if_pos hj, if_pos hex]
        · rw [if_neg hj]
          refine if_congr ?_ rfl rfl
          constructor
          · rintro ⟨m, hm, hmj⟩
            exact ⟨m, List.mem_append_left _ hm, hmj⟩
          · rintro ⟨m, hm, hmj⟩
            rcases List.mem_append.mp hm with hm | hm
            · exact ⟨m, hm, hmj⟩
            · simp only [List.mem_singleton, OSCChange.node.injEq, true_and] at hm
              exact absurd (hm ▸ hmj).symm hj
    · simpa using hsel
    · simpa using hsel

/-- Every created or modified node is already in the store, at the same place, and was not deleted by
an earlier change. -/
def StoreCurrent (st : OSMMMap) (cs : List OSCChange) : Prop :=
  ∀ pre type n post, cs = pre ++ OSCChange.node type n :: post → type ≠ .delete →
    st.select n.id = some (env.toMercator n.lon n.lat) ∧
      ∀ m, OSCChange.node .delete m ∈ pre → m.id ≠ n.id

theorem storeCurrent_initial {pre post : List OSCChange} (h : StoreCurrent env st (pre ++ post)) :
    StoreCurrent env st pre := by
  intro a type n b hsplit hne
  refine h a type n (b ++ post) ?_ hne
  rw [hsplit, List.append_assoc, List.cons_append]

/-- A read after changes of nodes that are current. -/
theorem select_of_storeCurrent (hc : Covers st max_id) (cs : List OSCChange)
    (hids : NodeIdsIn max_id cs) (h : StoreCurrent env st cs) (j : Int64) :
    (cs.foldl (storeAfter env) st).select j = expectedCoord env st cs j := by
  induction cs using List.reverseRecOn with
  | nil => rfl
  | append_singleton cs c ih =>
    have hids' : NodeIdsIn max_id cs := fun type n hn => hids type n (List.mem_append_left _ hn)
    have hcs := ih hids' (storeCurrent_initial env h)
    obtain ⟨hcov, hdel⟩ := select_foldl_storeAfter env hc cs hids' j
    obtain ⟨-, hsel⟩ := select_storeAfter env hcov (c := c) (fun type n hn => hids type n
      (List.mem_append_right _ hn)) j
    rw [List.foldl_append, List.foldl_cons, List.foldl_nil, hsel, expectedCoord_concat]
    -- a created or modified node: the store still has what it had
    have hwrite : ∀ type n, c = .node type n → type ≠ .delete → j = n.id →
        (cs.foldl (storeAfter env) st).select j = some (env.toMercator n.lon n.lat) := by
      intro type n hcn hne hj
      obtain ⟨hst, hno⟩ := h cs type n [] (by rw [hcn]) hne
      have hnodel : ¬ ∃ m, OSCChange.node .delete m ∈ cs ∧ m.id = j := by
        rintro ⟨m, hm, hmj⟩
        exact hno m hm (hmj.trans hj)
      rw [hdel, if_neg hnodel, hj]
      exact hst
    rcases c with ⟨type, n⟩ | w | r
    · cases type with
      | create =>
        simp only [nodeEffect]
        split
        · exact hwrite .create n rfl (by decide) ‹_›
        · exact hcs
      | modify =>
        simp only [nodeEffect]
        split
        · exact hwrite .modify n rfl (by decide) ‹_›
        · exact hcs
      | delete =>
        simp only [nodeEffect, hcs]
    · exact hcs
    · exact hcs

end

/-- **Reads of changed nodes.** For a node store that was opened with one writable shard and a sequence
of changes that is applied without an exception, all reads of node coordinates agree with the changes
before them, at every point of the sequence, if and only if every created or modified node already
stands in the merged file at its coordinates and is not deleted before. -/
theorem read_your_writes_iff (srv : Server) (env : Env) {plat : Platform} {disk : Disk} {max_id : Int64}
    {s s' : Session} (hopen : openStore plat disk max_id 1 true = .ok s.osmmap) (cs : List OSCChange)
    (hids : NodeIdsIn max_id cs)
    (hrun : (forEach cs (DeltaApplier.apply srv env)).run s = .done () s') :
    (∀ pre post, cs = pre ++ post →
      ∃ t, (forEach pre (DeltaApplier.apply srv env)).run s = .done () t ∧
        ∀ ref, t.osmmap.select ref = expectedCoord env s.osmmap pre ref) ↔
      StoreCurrent env s.osmmap cs := by
  have hc : Covers s.osmmap max_id := covers_of_open hopen
  have hpre : ∀ pre post, cs = pre ++ post → NodeIdsIn max_id pre := by
    intro pre post hcs type n hn
    exact hids type n (hcs ▸ List.mem_append_left _ hn)
  constructor
  · intro h pre type n post hcs hne
    have hcs' : cs = (pre ++ [.node type n]) ++ post := by simpa using hcs
    obtain ⟨t, ht, hread⟩ := h (pre ++ [.node type n]) post hcs'
    have hexp : expectedCoord env s.osmmap (pre ++ [.node type n]) n.id =
        some (env.toMercator n.lon n.lat) := by
      rw [expectedCoord_concat]
      cases type with
      | create => simp [nodeEffect]
      | modify => simp [nodeEffect]
      | delete => exact absurd rfl hne
    obtain ⟨-, hsel⟩ := select_foldl_storeAfter env hc _ (hpre _ post hcs') n.id
    have hval := (store_run srv env ht ▸ hread n.id : _ = _)
    rw [hsel, hexp] at hval
    split at hval
    · cases hval
    · rename_i hno
      refine ⟨hval, fun m hm hmid => hno ⟨m, List.mem_append_left _ hm, hmid⟩⟩
  · intro h pre post hcs
    obtain ⟨t, ht, -⟩ := forEach_done_append (hcs ▸ hrun)
    refine ⟨t, ht, fun ref => ?_⟩
    rw [store_run srv env ht]
    exact select_of_storeCurrent env hc pre (hpre pre post hcs)
      (storeCurrent_initial env (hcs ▸ h)) ref

/-- Node 3 at (7, 8), without tags. -/
def nodeThree : NodeEntry := ⟨3, [], Tags.none, ⟨7⟩, ⟨8⟩⟩

/-- A process in delta mode on an opened store, with an empty database. -/
def deltaSession (st : OSMMMap) : Session :=
  ⟨st, NavDB.fresh 0, ⟨fun _ => [], fun _ => [], none⟩, []⟩

/-- The files of a merged store that holds node 3 at (7, 8), with a bitmap sidecar for the shard. -/
def storedNodeThree : Disk where
  data := some ((File.blank 176).write 48 (Record.position ⟨3, ⟨7⟩, ⟨8⟩⟩))
  bmp := some (bitmapSet (File.blank 2) 2 3)
  shardPath := fun _ => none
  shardBmpPath := fun _ => some (File.blank (2 ^ 20))

theorem read_your_writes_same_place : ∃ st s',
    openStore .plain storedNodeThree 10 1 true = .ok st ∧
    (forEach [.node .modify nodeThree] (DeltaApplier.apply acceptAll plainEnv)).run
      (deltaSession st) = .done () s' ∧
    ∀ pre post, [.node .modify nodeThree] = pre ++ post →
      ∃ t, (forEach pre (DeltaApplier.apply acceptAll plainEnv)).run (deltaSession st) =
        .done () t ∧ ∀ ref, t.osmmap.select ref = expectedCoord plainEnv st pre ref := by
  obtain ⟨st, hopen⟩ : ∃ st, openStore .plain storedNodeThree 10 1 true = .ok st := ⟨_, rfl⟩
  have hsel : st.select 3 = some (⟨7⟩, ⟨8⟩) := by
    obtain rfl := Except.ok.inj hopen
    decide
  obtain ⟨s', hrun⟩ : ∃ s', (forEach [.node .modify nodeThree]
      (DeltaApplier.apply acceptAll plainEnv)).run (deltaSession st) = .done () s' := by
    obtain rfl := Except.ok.inj hopen
    exact ⟨_, rfl⟩
  refine ⟨st, s', hopen, hrun,
    (read_your_writes_iff acceptAll plainEnv (s := deltaSession st) hopen _ ?_ hrun).mpr ?_⟩
  · intro type n hn
    simp only [List.mem_singleton, OSCChange.node.injEq] at hn
    rw [hn.2]
    decide
  · intro pre type n post hcs _
    rcases pre with _ | ⟨c, pre⟩
    · simp only [List.nil_append, List.cons.injEq, OSCChange.node.injEq] at hcs
      rw [← hcs.1.2]
      exact ⟨hsel, fun m hm => by cases hm⟩
    · simp at hcs

/-- A created node is not in the store for the ways that come after it. -/
theorem created_node_not_read : ∃ disk st s',
    createFile .plain emptyDisk 10 1 = .ok disk ∧ openStore .plain disk 10 1 true = .ok st ∧
    (forEach [.node .create nodeThree] (DeltaApplier.apply acceptAll plainEnv)).run
      (deltaSession st) = .done () s' ∧
    s'.osmmap.select 3 = none ∧
    expectedCoord plainEnv st [.node .create nodeThree] 3 = some (⟨7⟩, ⟨8⟩) :=
  ⟨_, _, _, rfl, rfl, rfl, by decide, by decide⟩

end OsmImport
