import OsmImport.Db.Proofs.Settled
import OsmImport.Delta.Proofs.RelationParity

/-!
# Deletes

Every row stands for an entity (`Represents`): a row of `areas` for a way if its id is positive, and for
a multipolygon or boundary relation if it is negative. A Delete change removes all rows of its entity and
none of another exactly if no area has an id under which the delete path overlooks it, or takes it for
something else (`Separate`).
-/

namespace OsmImport

open NavDB DeltaApplier

/-- What a row stands for. -/
inductive Entity where
  | node (id : Int64)
  | way (id : Int64)
  | relation (id : Int64)
deriving DecidableEq, Repr

/-- The rows of a table, or of its tag table, with this id stand for the entity. In `areas` the ids of
ways are positive and those of relations are negated; 0 is either. -/
def Represents (k : Kind) (id : Int64) : Entity → Prop
  | .node i => k = .node ∧ id = i
  | .way i => k = .way ∧ id = i ∨ k = .area ∧ id = i ∧ 0 ≤ id
  | .relation i => (k = .relation ∨ k = .road) ∧ id = i ∨ k = .area ∧ id = -i ∧ id ≤ 0

instance (k : Kind) (id : Int64) (e : Entity) : Decidable (Represents k id e) := by
  cases e <;> unfold Represents <;> infer_instance

namespace Database

/-- The rows of an entity in a table and in its tag table. -/
def rowsOf (db : Database) (e : Entity) (k : Kind) : List Row × List TagRow :=
  ((db.rows k).filter fun r => Represents k r.id e, (db.tags k).filter fun r => Represents k r.id e)

/-- The ids in a table and in its tag table. -/
def ids (db : Database) (k : Kind) : List Int64 :=
  (db.rows k).map Row.id ++ (db.tags k).map TagRow.id

end Database

/-- The entity is gone, and all other entities are as before. -/
structure DeletedCleanly (e : Entity) (db db' : Database) : Prop where
  complete : ∀ k, db'.rowsOf e k = ([], [])
  isLocal : ∀ e', e' ≠ e → ∀ k, db'.rowsOf e' k = db.rowsOf e' k

/-- The condition on the database before the delete. -/
def Separate (db : Database) : Entity → Prop
  | .node _ => True
  | .way i => i ≤ 0 → i ∉ db.ids .area
  | .relation i => -i ≤ 0 → -i ∉ db.ids .area

/-! ## The rows that are deleted -/

/-- A Delete change of the entity removes the rows with this id. -/
def Removes (k : Kind) (id : Int64) : Entity → Prop
  | .node i => k = .node ∧ id = i
  | .way i => (k = .way ∨ k = .area) ∧ id = i
  | .relation i => (k = .relation ∨ k = .road) ∧ id = i

instance (k : Kind) (id : Int64) (e : Entity) : Decidable (Removes k id e) := by
  cases e <;> unfold Removes <;> infer_instance

/-- The database without these rows. -/
def Database.without (db : Database) (e : Entity) : Database where
  rows k := (db.rows k).filter fun r => ¬ Removes k r.id e
  tags k := (db.tags k).filter fun r => ¬ Removes k r.id e
  sequence := db.sequence

section

variable {α : Type} (p q : α → Prop) [DecidablePred p] [DecidablePred q] (l : List α)

/-- Nothing is left in `p` without the elements in `q`. -/
theorem filter_without_eq_nil :
    (l.filter fun x => ¬ q x).filter (fun x => p x) = [] ↔ ∀ x ∈ l, p x → q x := by
  rw [List.filter_filter, List.filter_eq_nil_iff]
  refine forall₂_congr fun x _ => ?_
  simp only [Bool.and_eq_true, decide_eq_true_eq, not_and, not_not]

/-- Everything is left in `p` without the elements in `q`. -/
theorem filter_without_eq_self :
    (l.filter fun x => ¬ q x).filter (fun x => p x) = l.filter (fun x => p x) ↔
      ∀ x ∈ l, q x → ¬ p x := by
  rw [List.filter_filter]
  constructor
  · intro h x hx hq hp
    have hmem : x ∈ l.filter fun x => p x := List.mem_filter.mpr ⟨hx, decide_eq_true hp⟩
    rw [← h, List.mem_filter, Bool.and_eq_true, decide_eq_true_eq, decide_eq_true_eq] at hmem
    exact hmem.2.2 hq
  · intro h
    refine List.filter_congr fun x hx => ?_
    by_cases hp : p x
    · have hq : ¬ q x := fun hq => h x hx hq hp
      simp [hp, hq]
    · simp [hp]

end

/-- The delete treats the rows with this id as it should: those of the entity go, and no others. -/
def Treated (e : Entity) (k : Kind) (id : Int64) : Prop :=
  (Represents k id e → Removes k id e) ∧ ∀ e', e' ≠ e → Removes k id e → ¬ Represents k id e'

theorem deletedCleanly_iff_treated (db : Database) (e : Entity) :
    DeletedCleanly e db (db.without e) ↔ ∀ k, ∀ id ∈ db.ids k, Treated e k id := by
  have hids : ∀ (k : Kind) (P : Int64 → Prop), (∀ id ∈ db.ids k, P id) ↔
      (∀ r ∈ db.rows k, P r.id) ∧ ∀ r ∈ db.tags k, P r.id := by
    intro k P
    simp only [Database.ids, List.forall_mem_append, List.forall_mem_map]
  have hcomplete : ∀ k, (db.without e).rowsOf e k = ([], []) ↔
      ∀ id ∈ db.ids k, Represents k id e → Removes k id e := by
    intro k
    rw [hids k fun id => Represents k id e → Removes k id e]
    exact Prod.mk.injEq .. ▸ and_congr (filter_without_eq_nil (fun r : Row => Represents k r.id e)
      (fun r => Removes k r.id e) _) (filter_without_eq_nil (fun r : TagRow => Represents k r.id e)
      (fun r => Removes k r.id e) _)
  have hlocal : ∀ e' k, (db.without e).rowsOf e' k = db.rowsOf e' k ↔
      ∀ id ∈ db.ids k, Removes k id e → ¬ Represents k id e' := by
    intro e' k
    rw [hids k fun id => Removes k id e → ¬ Represents k id e']
    exact Prod.mk.injEq .. ▸ and_congr (filter_without_eq_self (fun r : Row => Represents k r.id e')
      (fun r => Removes k r.id e) _) (filter_without_eq_self (fun r : TagRow => Represents k r.id e')
      (fun r => Removes k r.id e) _)
  constructor
  · rintro ⟨hc, hl⟩ k id hid
    exact ⟨(hcomplete k).mp (hc k) id hid, fun e' he' => (hlocal e' k).mp (hl e' he' k) id hid⟩
  · intro h
    exact ⟨fun k => (hcomplete k).mpr fun id hid => (h k id hid).1,
      fun e' he' k => (hlocal e' k).mpr fun id hid => (h k id hid).2 e' he'⟩

/-- A row of `areas` with this id is overlooked or, for a way, taken for the way. -/
def Misplaced (id : Int64) : Entity → Prop
  | .node _ => False
  | .way i => id = i ∧ i ≤ 0
  | .relation i => id = -i ∧ -i ≤ 0

theorem treated_node (i : Int64) (k : Kind) (id : Int64) : Treated (.node i) k id := by
  refine ⟨fun h => h, fun e' he' hrem hrep => ?_⟩
  obtain ⟨rfl, rfl⟩ := hrem
  cases e' with
  | node j => exact he' (by rw [hrep.2])
  | way j => simp [Represents] at hrep
  | relation j => simp [Represents] at hrep

theorem treated_way (i : Int64) (k : Kind) (id : Int64) :
    Treated (.way i) k id ↔ (k = .area → ¬ Misplaced id (.way i)) := by
  constructor
  · rintro ⟨-, hl⟩ rfl ⟨rfl, hi⟩
    exact hl (.relation (-id)) (by simp) ⟨.inr rfl, rfl⟩ (.inr ⟨rfl, (Int64.neg_neg).symm, hi⟩)
  · intro h
    refine ⟨?_, fun e' he' hrem hrep => ?_⟩
    · rintro (⟨rfl, rfl⟩ | ⟨rfl, rfl, -⟩)
      · exact ⟨.inl rfl, rfl⟩
      · exact ⟨.inr rfl, rfl⟩
    · obtain ⟨hk, rfl⟩ := hrem
      cases e' with
      | node j => rcases hk with rfl | rfl <;> simp [Represents] at hrep
      | way j =>
        refine he' ?_
        rcases hrep with ⟨-, rfl⟩ | ⟨-, rfl, -⟩ <;> rfl
      | relation j =>
        rcases hrep with ⟨hj, -⟩ | ⟨rfl, -, hid⟩
        · rcases hk with rfl | rfl <;> simp at hj
        · exact h rfl ⟨rfl, hid⟩

theorem treated_relation (i : Int64) (k : Kind) (id : Int64) :
    Treated (.relation i) k id ↔ (k = .area → ¬ Misplaced id (.relation i)) := by
  constructor
  · rintro ⟨hc, -⟩ rfl ⟨rfl, hi⟩
    rcases hc (.inr ⟨rfl, rfl, hi⟩) with ⟨hk, -⟩
    simp at hk
  · intro h
    refine ⟨?_, fun e' he' hrem hrep => ?_⟩
    · rintro (hrem | ⟨rfl, rfl, hid⟩)
      · exact hrem
      · exact absurd ⟨rfl, hid⟩ (h rfl)
    · obtain ⟨hk, rfl⟩ := hrem
      cases e' with
      | node j => rcases hk with rfl | rfl <;> simp [Represents] at hrep
      | way j => rcases hk with rfl | rfl <;> simp [Represents] at hrep
      | relation j =>
        rcases hrep with ⟨-, rfl⟩ | ⟨rfl, -, -⟩
        · exact he' rfl
        · rcases hk with hk | hk <;> cases hk

/-- On the whole database: no area is misplaced. -/
theorem deletedCleanly_iff (db : Database) (e : Entity) :
    DeletedCleanly e db (db.without e) ↔ Separate db e := by
  rw [deletedCleanly_iff_treated]
  cases e with
  | node i => exact iff_of_true (fun k id _ => treated_node i k id) trivial
  | way i =>
    simp only [treated_way]
    constructor
    · exact fun h hi hid => h .area i hid rfl ⟨rfl, hi⟩
    · rintro h k id hid rfl ⟨rfl, hi⟩
      exact h hi hid
  | relation i =>
    simp only [treated_relation]
    constructor
    · exact fun h hi hid => h .area (-i) hid rfl ⟨rfl, hi⟩
    · rintro h k id hid rfl ⟨rfl, hi⟩
      exact h hi hid

/-! ## The delete path -/

/-- The entity of a Delete change. -/
def OSCChange.deleted : OSCChange → Option Entity
  | .node .delete n => some (.node n.id)
  | .way .delete w => some (.way w.id)
  | .relation .delete r => some (.relation r.id)
  | _ => none

variable {chk : Checks} {env : Env}

theorem update_filter {α : Type} (f : Kind → List α) (key : α → Int64) (k : Kind) (id : Int64) :
    Function.update f k ((f k).filter fun r => key r != id) =
      fun j => (f j).filter fun r => ¬ (j = k ∧ key r = id) := by
  funext j
  rcases eq_or_ne j k with rfl | hj
  · rw [Function.update_self]
    refine List.filter_congr fun r _ => ?_
    by_cases h : key r = id <;> simp [h]
  · rw [Function.update_of_ne hj]
    simp [hj]

/-- The rows with this id are gone from the table and its tag table. -/
theorem commit_delete (db : Database) (k : Kind) (id : Int64) :
    db.commit [.deleteTags k id, .delete k id] =
      { db with
        rows := fun j => (db.rows j).filter fun r => ¬ (j = k ∧ r.id = id)
        tags := fun j => (db.tags j).filter fun r => ¬ (j = k ∧ r.id = id) } := by
  rw [← update_filter db.rows Row.id, ← update_filter db.tags TagRow.id]
  rfl

theorem run_deleteEntity (s : Session) (k : Kind) (id : Int64) :
    (deleteEntity (postgres chk) id k).run s =
      .done () (s.committed [.deleteTags k id, .delete k id] .ok) :=
  send_postgres rfl

/-- Two tables of one entity. -/
theorem ends_deleteTwo (s : Session) {j k : Kind} {id : Int64} {e : Entity}
    (he : ∀ l id', Removes l id' e ↔ (l = j ∨ l = k) ∧ id' = id) :
    (do deleteEntity (postgres chk) id j; deleteEntity (postgres chk) id k : Exec Unit).Ends s
      fun _ s' => s'.db = s.db.without e := by
  apply Prog.ensures_bind
  apply Prog.ensures_of_run (run_deleteEntity s j id)
  apply Prog.ensures_of_run (run_deleteEntity _ k id)
  show (s.db.commit _).commit _ = _
  rw [commit_delete, commit_delete]
  simp only [Database.without, he, List.filter_filter, decide_not, ← Bool.not_or]
  congr 1 <;>
    · funext l
      refine List.filter_congr fun r _ => ?_
      rw [← Bool.decide_or]
      congr 2
      rw [or_comm, ← or_and_right]

theorem apply_deleted {c : OSCChange} {e : Entity} (hc : c.deleted = some e) (s : Session) :
    (apply (postgres chk) env c).Ends s fun _ s' => s'.db = s.db.without e := by
  apply Prog.ensures_bind
  apply Prog.ensures_modify
  cases c with
  | node type n =>
    cases type with
    | delete =>
      obtain rfl := Option.some.inj hc
      apply Prog.ensures_bind
      apply Prog.ensures_modify
      apply Prog.ensures_of_run (run_deleteEntity _ .node n.id)
      exact commit_delete s.db .node n.id
    | _ => cases hc
  | way type w =>
    cases type with
    | delete =>
      obtain rfl := Option.some.inj hc
      exact ends_deleteTwo _ fun _ _ => Iff.rfl
    | _ => cases hc
  | relation type r =>
    cases type with
    | delete =>
      obtain rfl := Option.some.inj hc
      exact ends_deleteTwo _ fun _ _ => Iff.rfl
    | _ => cases hc

/-! ## The deletes of a run -/

/-- The calls of the applier. -/
inductive DeltaCall where
  | apply (c : OSCChange)
  | flush

/-- The changes of a run, each with the session in which `apply` begins; an exception ends the run. -/
def appliedIn (srv : Server) (env : Env) : List DeltaCall → Session → List (OSCChange × Session)
  | [], _ => []
  | .apply c :: calls, s => (c, s) :: match (DeltaApplier.apply srv env c).run s with
    | .done _ s' => appliedIn srv env calls s'
    | _ => []
  | .flush :: calls, s => match (DeltaApplier.flush srv).run s with
    | .done _ s' => appliedIn srv env calls s'
    | _ => []

/-- **Deletes.** In any run of changes and flushes, from any database, a Delete change ends with all rows of
its entity gone and those of all other entities untouched exactly if, before it, `areas` and `area_tags`
hold nothing under the negated id of the relation, or under the id of a way that is not positive. -/
theorem deletes_clean (chk : Checks) (env : Env) (s : Session) (calls : List DeltaCall) :
    ∀ p ∈ appliedIn (postgres chk) env calls s, ∀ e, p.1.deleted = some e →
      ∃ s', (DeltaApplier.apply (postgres chk) env p.1).run p.2 = .done () s' ∧
        (DeletedCleanly e p.2.db s'.db ↔ Separate p.2.db e) := by
  intro p _ e he
  obtain ⟨_, s', hrun, hdb⟩ := (apply_deleted he p.2).exists
  refine ⟨s', hrun, ?_⟩
  rw [hdb]
  exact deletedCleanly_iff p.2.db e

/-- A way and then the lake, as the import stores them. -/
def importLake : Exec Unit := do
  Prog.forEach (WayThread.wayCalls pointsConfig ⟨1, [], .none, [1, 2, 3, 1]⟩ triangle)
    (InsertCall.run acceptAll)
  finalize_ways acceptAll
  WayThread.importRelation acceptAll pointsConfig lake

set_option maxRecDepth 2000 in
theorem run_importLake : ∃ s, importLake.run idleSession = .done () s ∧
    (s.db.rows .way).map Row.id = [1] ∧ (s.db.rows .area).map Row.id = [-7] :=
  ⟨_, rfl, by decide +kernel, by decide +kernel⟩

/-- The way is deleted, and the lake stays. -/
theorem deletes_clean_way : ∃ s s', importLake.run idleSession = .done () s ∧
    (DeltaApplier.apply (postgres .any) plainEnv (.way .delete ⟨1, [], .none, []⟩)).run s = .done () s' ∧
    DeletedCleanly (.way 1) s.db s'.db := by
  obtain ⟨s, hs, -⟩ := run_importLake
  obtain ⟨s', hrun, hiff⟩ := deletes_clean .any plainEnv s [.apply (.way .delete ⟨1, [], .none, []⟩)]
    (.way .delete ⟨1, [], .none, []⟩, s) List.mem_cons_self (.way 1) rfl
  exact ⟨s, s', hs, hrun, hiff.mpr fun hneg => absurd hneg (by decide)⟩

/-- The lake is deleted, and its area stays. -/
theorem lake_survives : ∃ s s', importLake.run idleSession = .done () s ∧
    (DeltaApplier.apply (postgres .any) plainEnv (.relation .delete lake)).run s = .done () s' ∧
    (s'.db.rows .area).map Row.id = [-7] ∧ ¬ DeletedCleanly (.relation 7) s.db s'.db := by
  obtain ⟨s, hs, -, harea⟩ := run_importLake
  have happly : (DeltaApplier.apply (postgres .any) plainEnv (.relation .delete lake)).Ends s _ :=
    apply_deleted rfl s
  obtain ⟨_, s', hrun, hdb⟩ := happly.exists
  refine ⟨s, s', hs, hrun, ?_, fun hclean => ?_⟩
  · have hstay : (s.db.rows .area).filter (fun r => ¬ Removes .area r.id (.relation 7)) =
        s.db.rows .area := List.filter_eq_self.mpr fun r _ => by simp [Removes]
    rw [hdb]
    exact (congrArg (List.map Row.id) hstay).trans harea
  · have hsep := (deletedCleanly_iff s.db (.relation 7)).mp (hdb ▸ hclean)
    refine hsep (by decide) (List.mem_append_left _ ?_)
    rw [harea]
    exact List.mem_cons_self

end OsmImport
