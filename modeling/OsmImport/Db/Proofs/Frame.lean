import OsmImport.Db.Proofs.Accepting

/-!
# What the database client leaves alone

The flush of a table sends COPYs to it and empties its buffers: what these leave alone, the flush leaves
alone (`Untouched.flush`).
-/

namespace OsmImport

namespace NavDB

open Prog

/-- The loop leaves alone what a COPY of rows and a shorter buffer leave alone. -/
theorem keeps_tryCopyBatch (srv : Server) {γ : Type} {f : Session → γ} {k : Kind}
    (hsend : ∀ rows, Keeps f (send srv [.copy k rows])) (hbuf : ∀ s rows, f (s.setBuf k rows) = f s)
    (n : ℕ) : Keeps f (tryCopyBatch srv k n) := by
  induction n with
  | zero => exact keeps_get.bind fun _ => keeps_pure _
  | succ n ih =>
    apply keeps_get.bind
    intro s
    refine Keeps.ite (keeps_pure _) ?_
    apply (hsend _).attempt.bind
    intro r
    rcases r with (_ | _ | line) | _
    · exact keeps_pure _
    · exact keeps_throw _
    · refine Keeps.ite (keeps_pure _) ?_
      exact Keeps.bind (keeps_modify fun s => hbuf s _) fun _ => ih
    · exact keeps_pure _

/-- The part `f` of a session is none that the flush of table `k` is about. -/
structure Untouched (srv : Server) {γ : Type} (f : Session → γ) (k : Kind) : Prop where
  copy : ∀ rows, Keeps f (send srv [.copy k rows])
  copyTags : ∀ rows, Keeps f (send srv [.copyTags k rows])
  buf : ∀ s rows, f (s.setBuf k rows) = f s
  tagBuf : ∀ s rows, f (s.setTagBuf (bufOf k) rows) = f s

namespace Untouched

variable {srv : Server} {γ : Type} {f : Session → γ} {k : Kind}

theorem finalize_tags (h : Untouched srv f k) : Keeps f (finalize_tags srv k) := by
  apply keeps_get.bind
  intro s
  refine Keeps.ite (keeps_pure ()) ?_
  exact (h.copyTags _).bind fun _ => keeps_modify fun s => h.tagBuf s _

/-- The steps behind the rows of a flush. -/
theorem finish (h : Untouched srv f k) :
    Keeps f (NavDB.finalize_tags srv k >>= fun _ => modify fun s => s.setBuf k []) :=
  h.finalize_tags.bind fun _ => keeps_modify fun s => h.buf s _

theorem flushViaTemp (h : Untouched srv f k) : Keeps f (flushViaTemp srv k) := by
  apply keeps_get.bind
  intro s
  refine Keeps.ite (keeps_pure ()) ?_
  apply (h.copy _).attempt.bind
  intro r
  cases r with
  | error e => exact (keeps_tryCopyBatch srv h.copy h.buf _).bind fun _ => h.finish
  | ok u => exact h.finish

theorem flush (h : Untouched srv f k) : Keeps f (NavDB.flush srv k) := by
  cases k with
  | node =>
    apply keeps_get.bind
    intro s
    refine Keeps.ite (keeps_pure ()) ?_
    exact (h.copy _).bind fun _ => h.finish
  | way => exact h.flushViaTemp
  | area => exact h.flushViaTemp
  | road => exact h.flushViaTemp
  | relation => exact h.flushViaTemp

end Untouched

/-! ## Transactions -/

/-- What neither a commit nor the log of transactions touches. -/
theorem keeps_send {srv : Server} {γ : Type} {f : Session → γ} {txn : List Statement}
    (hcommit : ∀ s r, f (s.committed txn r) = f s) (hrecord : ∀ s r, f (s.record (.sent txn r)) = f s) :
    Keeps f (send srv txn) := by
  intro s
  unfold send
  dsimp only
  split
  · exact hcommit s _
  · exact hrecord s _
  · exact hcommit s _
  · exact hrecord s _

/-- The memory of the process but for the buffers of a table. -/
theorem untouched_memory {srv : Server} {γ : Type} {f : OSMMMap → NavDB → γ} {k : Kind}
    (hbuf : ∀ m nav rows, f m { nav with buf := Function.update nav.buf k rows } = f m nav)
    (htagBuf : ∀ m nav rows, f m { nav with tagBuf := Function.update nav.tagBuf (bufOf k) rows } = f m nav) :
    Untouched srv (fun s => f s.osmmap s.nav) k where
  copy _ := keeps_send (fun _ _ => rfl) fun _ _ => rfl
  copyTags _ := keeps_send (fun _ _ => rfl) fun _ _ => rfl
  buf s rows := hbuf s.osmmap s.nav rows
  tagBuf s rows := htagBuf s.osmmap s.nav rows

end NavDB

end OsmImport
