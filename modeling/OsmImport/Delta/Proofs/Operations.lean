import OsmImport.Db.Proofs.Accepting
import OsmImport.Delta.Proofs.StoreInsert

/-!
# What the operations are made of

A property of programs that sequencing keeps holds of every operation of `DeltaApplier`, and of its `flush`, if
it holds of the accesses to the database, the buffers and the node store (`Pieces`). Which tables are inserted
into and which ids go to the node store depends on the change (`OSCChange.Within`).
-/

namespace OsmImport

open NavDB Prog

/-- A statement that is no COPY and stores no sequence number. -/
def Statement.Plain : Statement → Prop
  | .copy .. => False
  | .copyTags .. => False
  | .setSequence _ => False
  | _ => True

/-- The change inserts into these tables only, and touches these ids of the node store only. -/
def OSCChange.Within (kinds : Kind → Prop) (ids : Int64 → Prop) : OSCChange → Prop
  | .node .create n => ids n.id ∧ (n.tags.isEmpty = false → kinds .node)
  | .node _ n => ids n.id
  | .way .. => kinds .way ∧ kinds .area
  | .relation .. => kinds .relation ∧ kinds .road

theorem OSCChange.within_of_forall {kinds : Kind → Prop} {ids : Int64 → Prop} (hkinds : ∀ k, kinds k)
    (hids : ∀ id, ids id) (c : OSCChange) : c.Within kinds ids := by
  rcases c with ⟨_ | _ | _, n⟩ | w | r
  · exact ⟨hids _, fun _ => hkinds _⟩
  · exact hids _
  · exact hids _
  · exact ⟨hkinds _, hkinds _⟩
  · exact ⟨hkinds _, hkinds _⟩

/-- The property holds of the accesses that the operations are made of. -/
structure Pieces (srv : Server) (kinds : Kind → Prop) (ids : Int64 → Prop) (P : ∀ {α : Type}, Exec α → Prop) :
    Prop extends Compositional P where
  send : ∀ txn, (∀ st ∈ txn, st.Plain) → P (send srv txn)
  ask : ∀ {α : Type} (f : Database → α), P (ask srv f)
  place : ∀ id pos, ids id → P (DeltaApplier.storeInsert id pos)
  remove : ∀ id, ids id → P (modify fun s => { s with osmmap := s.osmmap.remove id } : Exec Unit)
  insertInto : ∀ k row tags, kinds k → P (insertInto srv k row tags)
  flush : ∀ k, kinds k → P (NavDB.flush srv k)

/-- An insert is made of pushes and a flush. -/
theorem compositional_insertInto {srv : Server} {P : ∀ {α : Type}, Exec α → Prop} (h : Compositional P)
    {k : Kind} {row : Row} {tags : Tags} (htags : P (addTagsTo (bufOf k) row.id tags)) (hrow : P (pushRow k row))
    (hflush : P (NavDB.flush srv k)) : P (insertInto srv k row tags) := by
  refine h.bind htags fun _ => h.bind hrow fun _ => h.bind h.get fun s => ?_
  exact iteInduction (fun _ => hflush) fun _ => h.pure ()

section

variable {srv : Server} {env : Env} {kinds : Kind → Prop} {ids : Int64 → Prop} {P : ∀ {α : Type}, Exec α → Prop}

namespace Pieces

theorem deleteEntity (h : Pieces srv kinds ids P) (id : Int64) (k : Kind) : P (deleteEntity srv id k) := by
  refine h.send _ fun st hst => ?_
  rcases List.mem_pair.mp hst with rfl | rfl <;> trivial

theorem updateIn (h : Pieces srv kinds ids P) (k : Kind) (id : Int64) (name : Str) (tags : Tags)
    (geog : Option Str) : P (updateIn srv k id name tags geog) := by
  refine h.send _ fun st hst => ?_
  rcases List.mem_pair.mp hst with rfl | rfl <;> trivial

theorem updateNode (h : Pieces srv kinds ids P) (id : Int64) (name : Str) (lon_m lat_m : Double) (tags : Tags)
    (geog : Str) : P (updateNode srv id name lon_m lat_m tags geog) := by
  refine h.bind (h.send _ fun st hst => ?_) fun _ => h.send _ fun st hst => ?_
  · rw [List.mem_singleton.mp hst]
    trivial
  · rw [List.mem_singleton.mp hst]
    trivial

theorem insertNode (h : Pieces srv kinds ids P) (id : Int64) (name : Str) (lon_m lat_m : Double) (tags : Tags)
    (geog : Str) (hk : tags.isEmpty = false → kinds .node) :
    P (insertNode srv id name lon_m lat_m tags geog) := by
  rw [insertNode_eq]
  exact iteInduction (fun _ => h.pure ()) fun htags => h.insertInto _ _ _ (hk (eq_false_of_ne_true htags))

theorem getWay (h : Pieces srv kinds ids P) (id : Int64) : P (getWay srv id) := by
  refine h.bind (h.ask _) fun r => ?_
  rcases r with _ | (_ | ⟨geog | _, rest⟩)
  all_goals exact h.pure _

theorem buildRelationGeom (h : Pieces srv kinds ids P) (r : RelationEntry) :
    P (DeltaApplier.buildRelationGeom srv env r) := by
  have hmembers : ∀ ms : List RelationMember, P (DeltaApplier.memberGeoms srv ms) := by
    intro ms
    induction ms with
    | nil => exact h.pure _
    | cons m ms ih => exact h.bind (h.getWay _) fun g => h.bind ih fun gs => h.pure _
  exact h.bind (hmembers _) fun _ => h.pure _

/-- Every operation keeps what its accesses keep. -/
theorem operation (h : Pieces srv kinds ids P) (c : OSCChange) (hc : c.Within kinds ids) :
    P (DeltaApplier.operation srv env c) := by
  have hroad : ∀ (r : RelationEntry) (geom : Str), kinds .road → P
      (if DeltaApplier.isRoad r.tags && !geom.isEmpty then insertRoad srv r.id r.name r.tags geom
        else pure ()) := by
    intro r geom hk
    rw [insertRoad_eq]
    exact iteInduction (fun _ => h.insertInto _ _ _ hk) fun _ => h.pure ()
  rcases c with ⟨type, n⟩ | ⟨type, w⟩ | ⟨type, r⟩
  · cases type with
    | create => exact h.bind (h.place n.id _ hc.1) fun _ => h.insertNode _ _ _ _ _ _ hc.2
    | modify => exact h.bind (h.place n.id _ hc) fun _ => h.updateNode ..
    | delete => exact h.bind (h.remove n.id hc) fun _ => h.deleteEntity ..
  · obtain ⟨hway, harea⟩ := hc
    cases type with
    | create =>
      refine h.bind h.get fun s => iteInduction (fun _ => h.pure ()) fun _ => iteInduction (fun _ => ?_) fun _ => ?_
      · rw [insertArea_eq]
        exact h.insertInto _ _ _ harea
      · rw [insertWay_eq]
        exact h.insertInto _ _ _ hway
    | modify =>
      refine h.bind h.get fun s => iteInduction (fun _ => h.pure ()) fun _ => ?_
      refine h.bind (h.deleteEntity ..) fun _ => h.bind (h.deleteEntity ..) fun _ => ?_
      exact iteInduction (fun _ => h.updateIn ..) fun _ => h.updateIn ..
    | delete => exact h.bind (h.deleteEntity ..) fun _ => h.deleteEntity ..
  · obtain ⟨hrelation, hkind⟩ := hc
    cases type with
    | create =>
      refine h.bind (h.buildRelationGeom r) fun geom => ?_
      rw [insertRelation_eq]
      exact h.bind (h.insertInto _ _ _ hrelation) fun _ => hroad r geom hkind
    | modify =>
      refine h.bind (h.buildRelationGeom r) fun geom => h.bind (h.updateIn ..) fun _ => ?_
      exact h.bind (h.deleteEntity ..) fun _ => hroad r geom hkind
    | delete => exact h.bind (h.deleteEntity ..) fun _ => h.deleteEntity ..

theorem flushAll (h : Pieces srv kinds ids P) (hkinds : ∀ k, k ≠ .node → kinds k) :
    P (DeltaApplier.flush srv) := by
  have hflush : ∀ k, k ≠ .node → P (NavDB.flush srv k) := fun k hk => h.flush k (hkinds k hk)
  refine h.bind (h.bind (hflush .way (by decide)) fun _ => hflush .area (by decide)) fun _ => ?_
  exact h.bind (hflush .road (by decide)) fun _ => hflush .relation (by decide)

end Pieces

end

end OsmImport
