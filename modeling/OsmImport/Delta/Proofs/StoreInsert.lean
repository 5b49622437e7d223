import OsmImport.Delta.DeltaApplier
import OsmImport.Store.Proofs.Insert

/-!
# The insert of a changed node

The node store takes the position of a created or modified node, or the operation ends with the exception
of `OSMMMap::insert`, before it comes to the database.
-/

namespace OsmImport

open NavDB Prog

/-- The node store behind a change that is applied. -/
def storeAfter (env : Env) (st : OSMMMap) : OSCChange → OSMMMap
  | .node .delete n => st.remove n.id
  | .node _ n => st.inserted CHUNK_SIZE 0
      ⟨n.id, (env.toMercator n.lon n.lat).1, (env.toMercator n.lon n.lat).2⟩
  | _ => st

namespace DeltaApplier

/-- The session behind an insert that returns. -/
def placed (s : Session) (id : Int64) (pos : Coord) : Session :=
  { s with osmmap := s.osmmap.inserted CHUNK_SIZE 0 ⟨id, pos.1, pos.2⟩ }

variable {s s' : Session} {id : Int64} {pos : Coord}

theorem run_storeInsert (h : s.osmmap.Takes 0 id) :
    (storeInsert id pos).run s = .done () (placed s id pos) := by
  have hinsert : s.osmmap.insert CHUNK_SIZE 0 ⟨id, pos.1, pos.2⟩ = _ := OSMMMap.insert_eq_ok.mpr ⟨h, rfl⟩
  unfold storeInsert
  dsimp only
  rw [hinsert]
  rfl

theorem run_storeInsert_refused (h : ¬ s.osmmap.Takes 0 id) :
    (storeInsert id pos).run s = .threw .noLine s := by
  obtain ⟨e, he⟩ : ∃ e, s.osmmap.insert CHUNK_SIZE 0 ⟨id, pos.1, pos.2⟩ = .error e :=
    OSMMMap.insert_error_iff.mpr h
  unfold storeInsert
  dsimp only
  rw [he]

/-- What holds behind an insert that returns and behind the exception holds behind `storeInsert`. -/
theorem ensures_storeInsert {Q : Unit → Session → Prop} {E : SqlError → Session → Prop} {D : Session → Prop}
    (htakes : s.osmmap.Takes 0 id → Q () (placed s id pos)) (hthrows : E .noLine s) :
    Ensures (storeInsert id pos) s Q E D := by
  unfold Ensures
  by_cases h : s.osmmap.Takes 0 id
  · rw [run_storeInsert h]
    exact htakes h
  · rw [run_storeInsert_refused h]
    exact hthrows

/-- What does not look at the node store stays. -/
theorem keeps_storeInsert {γ : Type} {f : Session → γ} (h : ∀ s m, f { s with osmmap := m } = f s)
    (id : Int64) (pos : Coord) : Keeps f (storeInsert id pos) := by
  intro s
  by_cases htakes : s.osmmap.Takes 0 id
  · rw [run_storeInsert htakes]
    exact h s _
  · rw [run_storeInsert_refused htakes]
    rfl

/-- A program that begins with an insert and ends has put the node into the store. -/
theorem storeInsert_bind_done {m : Unit → Exec Unit}
    (h : (storeInsert id pos >>= m).run s = .done () s') :
    s.osmmap.Takes 0 id ∧ (m ()).run (placed s id pos) = .done () s' := by
  by_cases htakes : s.osmmap.Takes 0 id
  · rw [run_bind_done (run_storeInsert htakes)] at h
    exact ⟨htakes, h⟩
  · rw [run_bind, run_storeInsert_refused htakes] at h
    cases h

end DeltaApplier

end OsmImport
