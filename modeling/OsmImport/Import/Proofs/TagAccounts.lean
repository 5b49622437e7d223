import OsmImport.Import.Proofs.Released
import OsmImport.Import.Sequential

/-!
# The accounts of whole threads

What a thread inserts from its beginning to its end is committed, the tags of each buffer as well as the
rows: the buffers are empty in the end. Of the tag buffer that nodes, roads and relations share, a node
thread fills `node_tags` and a way thread the two other tables.
-/

namespace OsmImport

open NavDB

/-! ## The tag buffers -/

/-- The tag rows that a statement takes from a tag buffer. -/
def Statement.tagsFrom (b : TagBuf) : Statement → List TagRow
  | .copyTags k rows => if bufOf k = b then rows else []
  | _ => []

namespace Session

variable (s : Session) (b : TagBuf) (k : Kind)

/-- The tag rows that a session has taken from a buffer, and those that are still there. -/
def offeredTags : List TagRow :=
  (transactions s.log).flatMap (fun txn => txn.flatMap (Statement.tagsFrom b)) ++ s.nav.tagBuf b

theorem offeredTags_tagsFlushed : (s.tagsFlushed k).offeredTags b = s.offeredTags b := by
  unfold offeredTags
  rw [tagsFlushed_tagBuf]
  by_cases hk : bufOf k = b
  · subst hk
    rw [Function.update_self, List.append_nil, tagsFlushed]
    split
    · rename_i h
      rw [List.isEmpty_iff.mp h, List.append_nil]
    · show (transactions (s.log ++ [_])).flatMap _ = _
      rw [transactions_append]
      simp [transactions, Statement.tagsFrom]
  · rw [Function.update_of_ne (Ne.symm hk), tagsFlushed]
    split
    · rfl
    · show (transactions (s.log ++ [_])).flatMap _ ++ _ = _
      rw [transactions_append]
      simp [transactions, Statement.tagsFrom, hk]

theorem offeredTags_flushed : (s.flushed k).offeredTags b = s.offeredTags b := by
  by_cases h : s.nav.buf k = []
  · rw [flushed_empty h]
  · rw [flushed_nonempty h]
    show ((s.committed [.copy k (s.nav.buf k)] .ok).tagsFlushed k).offeredTags b = _
    rw [offeredTags_tagsFlushed]
    show (transactions (s.log ++ [_])).flatMap _ ++ _ = _
    rw [transactions_append]
    simp [transactions, Statement.tagsFrom, offeredTags, committed, record]

theorem offeredTags_inserted (row : Row) (tags : Tags) : (s.inserted k row tags).offeredTags b =
    s.offeredTags b ++ if bufOf k = b then tagRows row.id tags else [] := by
  have hbuffered : (s.buffered k row tags).offeredTags b =
      s.offeredTags b ++ if bufOf k = b then tagRows row.id tags else [] := by
    unfold offeredTags
    rw [buffered_tagBuf]
    show (transactions ((s.log ++ [_]) ++ [_])).flatMap _ ++ _ = _
    rw [transactions_append, transactions_append]
    by_cases hk : bufOf k = b
    · subst hk
      simp [transactions]
    · rw [Function.update_of_ne (Ne.symm hk), if_neg hk]
      simp [transactions]
  unfold inserted
  split
  · rw [offeredTags_flushed, hbuffered]
  · exact hbuffered

end Session

/-- The tag rows of a buffer. -/
def tagAccount (b : TagBuf) : KeptAccount TagRow where
  held nav := nav.tagBuf b
  sent txn := txn.flatMap (Statement.tagsFrom b)
  gain k row tags := if bufOf k = b then tagRows row.id tags else []
  flushed s k := s.offeredTags_flushed b k
  tagsFlushed s k := s.offeredTags_tagsFlushed b k
  inserted s k row tags := s.offeredTags_inserted b k row tags

/-- No tags are in a buffer without a row in one of the tables that share it. -/
def NavDB.CoupledTo (b : TagBuf) (nav : NavDB) : Prop :=
  (∀ k, bufOf k = b → nav.buf k = []) → nav.tagBuf b = []

namespace Session

variable {s : Session} {b : TagBuf} (h : s.nav.CoupledTo b)
include h

theorem coupledTo_flushed (k : Kind) : (s.flushed k).nav.CoupledTo b := by
  by_cases hk : s.nav.buf k = []
  · rwa [flushed_empty hk]
  · intro hempty
    rw [flushed_tagBuf hk]
    by_cases hb : bufOf k = b
    · subst hb
      exact Function.update_self ..
    · rw [Function.update_of_ne (Ne.symm hb)]
      refine h fun j hj => ?_
      have hjk : j ≠ k := by
        rintro rfl
        exact hb hj
      have hrow := hempty j hj
      rwa [flushed_buf, Function.update_of_ne hjk] at hrow

theorem coupledTo_flushAll (ks : List Kind) : (s.flushAll ks).nav.CoupledTo b := by
  induction ks generalizing s with
  | nil => exact h
  | cons k ks ih => exact ih (coupledTo_flushed h k)

theorem coupledTo_inserted (k : Kind) (row : Row) (tags : Tags) :
    (s.inserted k row tags).nav.CoupledTo b := by
  have hbuffered : (s.buffered k row tags).nav.CoupledTo b := by
    intro hempty
    rw [buffered_buf] at hempty
    rw [buffered_tagBuf]
    by_cases hb : bufOf k = b
    · have hrow := hempty k hb
      rw [Function.update_self] at hrow
      exact absurd hrow (by simp)
    · rw [Function.update_of_ne (Ne.symm hb)]
      refine h fun j hj => ?_
      have hjk : j ≠ k := by
        rintro rfl
        exact hb hj
      have hrow := hempty j hj
      rwa [Function.update_of_ne hjk] at hrow
  unfold inserted
  split
  · exact coupledTo_flushed hbuffered k
  · exact hbuffered

end Session

/-! ## Which tag tables are filled -/

/-- These transactions copy tags to the tables of `P` only. -/
def TagsTo (P : Kind → Prop) (txns : List (List Statement)) : Prop :=
  ∀ txn ∈ txns, ∀ k rows, .copyTags k rows ∈ txn → P k

theorem tagsTo_append {P : Kind → Prop} {a b : List (List Statement)} :
    TagsTo P (a ++ b) ↔ TagsTo P a ∧ TagsTo P b := List.forall_mem_append

theorem tagsTo_alone (P : Kind → Prop) (nav : NavDB) :
    TagsTo P (transactions (Session.alone nav).log) := nofun

namespace Session

variable {s : Session} {P : Kind → Prop} (h : TagsTo P (transactions s.log))
include h

theorem tagsTo_tagsFlushed {k : Kind} (hk : P k) : TagsTo P (transactions (s.tagsFlushed k).log) := by
  unfold tagsFlushed
  split
  · exact h
  · show TagsTo P (transactions (s.log ++ [_]))
    rw [transactions_append]
    refine tagsTo_append.mpr ⟨h, ?_⟩
    rintro txn htxn j rows hmem
    obtain rfl := List.mem_singleton.mp htxn
    cases List.mem_singleton.mp hmem
    exact hk

theorem tagsTo_flushed {k : Kind} (hk : P k ∨ s.nav.buf k = []) :
    TagsTo P (transactions (s.flushed k).log) := by
  by_cases hbuf : s.nav.buf k = []
  · rwa [flushed_empty hbuf]
  · rw [flushed_nonempty hbuf]
    have hrows : TagsTo P (transactions (s.committed [.copy k (s.nav.buf k)] .ok).log) := by
      show TagsTo P (transactions (s.log ++ [_]))
      rw [transactions_append]
      refine tagsTo_append.mpr ⟨h, ?_⟩
      rintro txn htxn j rows hmem
      obtain rfl := List.mem_singleton.mp htxn
      cases List.mem_singleton.mp hmem
    exact tagsTo_tagsFlushed hrows (hk.resolve_right hbuf)

theorem tagsTo_flushAll {ks : List Kind} (hks : ∀ k ∈ ks, P k ∨ s.nav.buf k = []) :
    TagsTo P (transactions (s.flushAll ks).log) := by
  induction ks generalizing s with
  | nil => exact h
  | cons k ks ih =>
    obtain ⟨hk, hrest⟩ := List.forall_mem_cons.mp hks
    refine ih (tagsTo_flushed h hk) fun j hj => (hrest j hj).imp_right fun hempty => ?_
    rw [flushed_buf]
    rcases eq_or_ne j k with rfl | hjk
    · exact Function.update_self ..
    · rw [Function.update_of_ne hjk, hempty]

theorem tagsTo_inserted {k : Kind} (hk : P k) (row : Row) (tags : Tags) :
    TagsTo P (transactions (s.inserted k row tags).log) := by
  have hbuffered : TagsTo P (transactions (s.buffered k row tags).log) := by
    show TagsTo P (transactions ((s.log ++ [_]) ++ [_]))
    rw [transactions_append, transactions_append]
    simpa [transactions] using h
  unfold inserted
  split
  · exact tagsTo_flushed hbuffered (.inl hk)
  · exact hbuffered

end Session

end OsmImport
