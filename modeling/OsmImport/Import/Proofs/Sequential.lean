import OsmImport.Import.Proofs.ResumeRelations
import OsmImport.Import.Sequential

/-!
# What the sequential import leaves behind

The calls for the entries, in the order of the file, decide what is in the tables. A relation finds what
the ways have left, because no relation has a row that a member of another names.
-/

namespace OsmImport

open NavDB Postgres KeyedInsert

/-- The tag rows of some calls in a tag table. -/
def callTags (k : Kind) (calls : List InsertCall) : List TagRow :=
  calls.flatMap fun c => if c.kind = k then tagRows c.id c.tags else []

/-! ## Calls one by one -/

section

variable {chk : Checks} {cfg : Config}

theorem copiesOnly_txns (calls : List InsertCall) : CopiesOnly (calls.map InsertCall.txn) := by
  intro txn htxn st hst
  obtain ⟨c, -, rfl⟩ := List.mem_map.mp htxn
  rcases List.mem_pair.mp hst with rfl | rfl <;> rfl

theorem copiedRows_txns (k : Kind) (calls : List InsertCall) :
    copiedRows k (calls.map InsertCall.txn) = rowsOf k calls := by
  induction calls with
  | nil => rfl
  | cons c calls ih =>
    rw [List.map_cons, copiedRows_cons, ih, ← List.singleton_append, rowsOf_append, rowsOf_singleton]
    simp [InsertCall.txn, Statement.copied]

theorem copiedTagRows_txns (k : Kind) (calls : List InsertCall) :
    copiedTagRows k (calls.map InsertCall.txn) = callTags k calls := by
  induction calls with
  | nil => rfl
  | cons c calls ih =>
    show c.txn.flatMap (Statement.copiedTags k) ++ copiedTagRows k (calls.map InsertCall.txn) = _
    rw [ih]
    simp [InsertCall.txn, Statement.copiedTags, callTags]

variable (db : Database)

@[simp] theorem addCalls_rows (k : Kind) (calls : List InsertCall) :
    (db.addCalls chk calls).rows k = insertRows chk k (db.rows k) (rowsOf k calls) := by
  rw [Database.addCalls, rows_offer k (copiesOnly_txns calls), copiedRows_txns]

@[simp] theorem addCalls_tags (k : Kind) (calls : List InsertCall) :
    (db.addCalls chk calls).tags k = db.tags k ++ callTags k calls := by
  rw [Database.addCalls, tags_offer k (copiesOnly_txns calls), copiedTagRows_txns]

theorem addCalls_append (a b : List InsertCall) :
    db.addCalls chk (a ++ b) = (db.addCalls chk a).addCalls chk b := by
  rw [Database.addCalls, List.map_append, List.foldl_append]
  rfl

theorem sequence_offer {chk : Checks} {txns : List (List Statement)} (h : CopiesOnly txns) (db : Database) :
    (txns.foldl (Database.offer chk) db).sequence = db.sequence := by
  induction txns generalizing db with
  | nil => rfl
  | cons txn txns ih =>
    obtain ⟨htxn, hrest⟩ := List.forall_mem_cons.mp h
    rw [List.foldl_cons, ih hrest]
    clear ih h hrest
    induction txn generalizing db with
    | nil => rfl
    | cons st txn ih =>
      obtain ⟨hst, htxn⟩ := List.forall_mem_cons.mp htxn
      refine (ih (db.settle chk st) htxn).trans ?_
      cases st with
      | copy j rows => rfl
      | copyTags j rows => rfl
      | _ => cases hst

@[simp] theorem addCalls_sequence (calls : List InsertCall) :
    (db.addCalls chk calls).sequence = db.sequence :=
  sequence_offer (copiesOnly_txns calls) db

/-! ## Nodes -/

theorem addNodes_eq (nodes : List NodeEntry) : nodes.foldl (Database.addNode cfg) db =
    { db with
      rows := Function.update db.rows .node (db.rows .node ++ nodes.flatMap (NodeThread.rowsFor cfg))
      tags := Function.update db.tags .node (db.tags .node ++ nodes.flatMap NodeThread.tagsFor) } := by
  induction nodes generalizing db with
  | nil => simp
  | cons n nodes ih =>
    rw [List.foldl_cons, ih]
    simp [Database.addNode, Database.exec, Function.update_self, List.append_assoc]

/-! ## Ways and relations -/

theorem addWays_eq (pos : Int64 → Option Coord) (ways : List WayEntry) :
    ways.foldl (Database.addWay chk cfg pos) db = db.addCalls chk
      (ways.flatMap fun w => WayThread.wayCalls cfg w (w.node_refs.filterMap pos)) := by
  induction ways generalizing db with
  | nil => rfl
  | cons w ways ih =>
    rw [List.foldl_cons, ih, List.flatMap_cons, addCalls_append]
    rfl

/-- Rows with other ids are not seen by a lookup. -/
theorem geogs_addCalls {calls : List InsertCall} {id : Int64}
    (h : ∀ c ∈ calls, c.kind = .way ∨ c.kind = .area → c.id ≠ id) :
    geogs (db.addCalls chk calls) id = geogs db id := by
  have hsame : ∀ k, k = .way ∨ k = .area → (db.addCalls chk calls).rowsAt k id = db.rowsAt k id := by
    intro k hk
    rw [Database.rowsAt, Database.rowsAt, addCalls_rows, insertRows, List.filter_append,
      List.append_right_eq_self, List.filter_eq_nil_iff]
    intro row hrow
    obtain ⟨c, hc, rfl⟩ := List.mem_map.mp (mem_keep hrow).1
    obtain ⟨hc, hkind⟩ := List.mem_filter.mp hc
    have hne := h c hc (of_decide_eq_true hkind ▸ hk)
    simpa [InsertCall.row] using hne
  rw [geogs_eq, geogs_eq, hsame .way (.inl rfl), hsame .area (.inr rfl)]

/-- No two calls for a relation of the list make a difference to the lookups of its members. -/
theorem isFor_callsFor {look : Int64 → List (Option Str)} {r : RelationEntry} {c : InsertCall}
    (h : c ∈ WayThread.callsFor cfg look r) : c.IsFor r := by
  unfold WayThread.callsFor at h
  split at h
  · exact WayThread.isFor_multipolygonCalls h
  · exact WayThread.isFor_relationCalls h

/-- All relations find what is there before the first of them. -/
theorem addRelations_eq {relations : List RelationEntry}
    (hmembers : ∀ r ∈ relations, ∀ m ∈ r.way_members, ∀ q ∈ relations, m.id ≠ -q.id) :
    relations.foldl (Database.addRelation chk cfg) db =
      db.addCalls chk (relations.flatMap (WayThread.callsFor cfg (geogs db))) := by
  have hall : ∀ (rs : List RelationEntry) (db' : Database), rs ⊆ relations →
      (∀ r ∈ rs, ∀ m ∈ r.way_members, geogs db' m.id = geogs db m.id) →
        rs.foldl (Database.addRelation chk cfg) db' =
          db'.addCalls chk (rs.flatMap (WayThread.callsFor cfg (geogs db))) := by
    intro rs
    induction rs with
    | nil => exact fun _ _ _ => rfl
    | cons r rs ih =>
      intro db' hsub hlook
      obtain ⟨hr, hrs⟩ := List.cons_subset.mp hsub
      obtain ⟨hlook_r, hlook_rs⟩ := List.forall_mem_cons.mp hlook
      have hcalls : WayThread.callsFor cfg (geogs db') r = WayThread.callsFor cfg (geogs db) r :=
        WayThread.callsFor_congr rfl rfl hlook_r
      rw [List.foldl_cons, Database.addRelation, hcalls, List.flatMap_cons, addCalls_append]
      refine ih _ hrs fun q hq m hm => ?_
      rw [geogs_addCalls, hlook_rs q hq m hm]
      intro c hc hkind
      -- the row of `r` in `areas` is not under the id of a member
      rcases isFor_callsFor hc with ⟨-, hid⟩ | ⟨hother, -⟩
      · rw [hid]
        exact Ne.symm (hmembers q (hrs hq) m hm r hr)
      · rcases hkind with hkind | hkind <;> rcases hother with hother | hother <;>
          cases hkind.symm.trans hother
  exact hall relations db (List.Subset.refl _) fun _ _ _ _ => rfl

end

/-! ## What is found under an id -/

section

variable {chk : Checks} {k : Kind} {table table' rows rows' : List Row}

/-- Of rows with different ids, one at most is under an id. -/
theorem filter_id_perm (h : rows.Perm rows') (hnd : (rows.map Row.id).Nodup) (id : Int64) :
    (rows.filter fun r => r.id == id) = rows'.filter fun r => r.id == id := by
  have hperm := h.filter fun r => r.id == id
  have hone : (rows.filter fun r => r.id == id).length ≤ 1 := by
    have hids : ((rows.filter fun r => r.id == id).map Row.id).Nodup :=
      hnd.sublist (List.filter_sublist.map _)
    have hsame : (rows.filter fun r => r.id == id).map Row.id =
        List.replicate (rows.filter fun r => r.id == id).length id := by
      rw [List.eq_replicate_iff]
      refine ⟨List.length_map _, fun x hx => ?_⟩
      obtain ⟨r, hr, rfl⟩ := List.mem_map.mp hx
      exact beq_iff_eq.mp (List.mem_filter.mp hr).2
    rw [hsame] at hids
    exact List.nodup_replicate.mp hids
  rcases hrows : rows.filter fun r => r.id == id with _ | ⟨r, _ | ⟨q, rest⟩⟩
  · rw [hrows] at hperm ⊢
    exact (List.nil_perm.mp hperm).symm
  · rw [hrows] at hperm ⊢
    exact List.singleton_perm.mp hperm
  · rw [hrows] at hone
    simp at hone

/-- The order of inserts makes no difference to what is found under an id. -/
theorem filter_insertRows_perm (h : rows.Perm rows') (hnd : (rows.map Row.id).Nodup) (id : Int64) :
    ((insertRows chk k table rows).filter fun r => r.id == id) =
      (insertRows chk k table rows').filter fun r => r.id == id := by
  rw [insertRows, insertRows, List.filter_append, List.filter_append]
  congr 1
  exact filter_id_perm (keep_perm h hnd) (hnd.sublist ((keep_sublist _ _).map _)) id

theorem insertRows_perm (ht : table.Perm table') (h : rows.Perm rows') (hnd : (rows.map Row.id).Nodup) :
    (insertRows chk k table rows).Perm (insertRows chk k table' rows') := by
  have hkeep : keep Row.id (chk.rowOk k) (table'.map Row.id) rows' =
      keep Row.id (chk.rowOk k) (table.map Row.id) rows' :=
    keep_congr fun a _ _ => ((ht.map Row.id).mem_iff).symm
  rw [insertRows, insertRows, hkeep]
  exact ht.append (keep_perm h hnd)

end

end OsmImport
