import OsmImport.Db.NavDB

/-!
# A server that accepts every COPY

On such a server a flush is a function of the session (`Session.flushed`): the rows and the tag rows
are appended to their tables and the buffers are empty. All five inserts buffer the entity and flush
its table when the buffer is full (`insertInto`), and differ in when it is.
-/

namespace OsmImport

open NavDB

/-- Every COPY is accepted. -/
def Accepting (srv : Server) : Prop :=
  (∀ log db k rows, srv.respond log db [.copy k rows] = .ok) ∧
    ∀ log db k rows, srv.respond log db [.copyTags k rows] = .ok

theorem accepting_acceptAll : Accepting acceptAll :=
  ⟨fun _ _ _ _ => rfl, fun _ _ _ _ => rfl⟩

/-- `finalize_tags` when the COPY is accepted. -/
def Session.tagsFlushed (s : Session) (k : Kind) : Session :=
  if (s.nav.tagBuf (bufOf k)).isEmpty then s
  else (s.committed [.copyTags k (s.nav.tagBuf (bufOf k))] .ok).setTagBuf (bufOf k) []

/-- A flush when its transactions are accepted. -/
def Session.flushed (s : Session) (k : Kind) : Session :=
  if (s.nav.buf k).isEmpty then s
  else ((s.committed [.copy k (s.nav.buf k)] .ok).tagsFlushed k).setBuf k []

namespace NavDB

variable {srv : Server}

theorem send_ok {txn : List Statement} {s : Session} (h : srv.respond s.log s.db txn = .ok) :
    (send srv txn).run s = .done () (s.committed txn .ok) := by
  simp only [send, h]

/-- What `truncateForResume` leaves to a resumed import. -/
theorem truncateForResume_ok {phase : ResumePhase} {s : Session}
    (h : srv.respond s.log s.db (resumeTables phase) = .ok) :
    ∃ s', (truncateForResume srv phase).run s = .done () s' ∧ s'.db = s.db.commit (resumeTables phase) :=
  ⟨_, send_ok h, rfl⟩

theorem finalize_tags_ok (k : Kind) {s : Session}
    (h : srv.respond s.log s.db [.copyTags k (s.nav.tagBuf (bufOf k))] = .ok) :
    (finalize_tags srv k).run s = .done () (s.tagsFlushed k) := by
  unfold finalize_tags Session.tagsFlushed
  rw [Prog.run_get_bind]
  dsimp only
  split
  · rfl
  · rw [Prog.run_bind_done (send_ok h)]
    rfl

/-- The flush of a table. -/
def flush (srv : Server) : Kind → Exec Unit
  | .node => flushNodes srv
  | .way => flushWays srv
  | .area => flushAreas srv
  | .road => flushRoads srv
  | .relation => flushRelations srv

theorem flush_accepting (h : Accepting srv) (k : Kind) (s : Session) :
    (flush srv k).run s = .done () (s.flushed k) := by
  have hvia : ∀ k, (flushViaTemp srv k).run s = .done () (s.flushed k) := by
    intro k
    unfold flushViaTemp Session.flushed
    rw [Prog.run_get_bind]
    dsimp only
    split
    · rfl
    · rw [Prog.run_bind_done (Prog.run_attempt_done (send_ok (h.1 ..)))]
      dsimp only
      rw [Prog.run_bind_done (finalize_tags_ok k (h.2 ..))]
      rfl
  cases k with
  | node =>
    show (flushNodes srv).run s = _
    unfold flushNodes Session.flushed
    rw [Prog.run_get_bind]
    split
    · rfl
    · rw [Prog.run_bind_done (send_ok (h.1 ..)),
        Prog.run_bind_done (finalize_tags_ok .node (h.2 ..))]
      rfl
  | way => exact hvia .way
  | area => exact hvia .area
  | road => exact hvia .road
  | relation => exact hvia .relation

/-- The buffer of a table has reached its bound. -/
def full (nav : NavDB) : Kind → Bool
  | .node => decide ((nav.buf .node).length ≥ NODE_BUFFER_SIZE)
  | .way => decide ((nav.buf .way).length ≥ nav.way_buffer_size)
  | k => decide ((nav.buf k).length > nav.way_buffer_size)

/-- The common shape of the inserts. -/
def insertInto (srv : Server) (k : Kind) (row : Row) (tags : Tags) : Exec Unit := do
  addTagsTo (bufOf k) row.id tags
  pushRow k row
  let s ← Prog.get
  if full s.nav k then flush srv k

theorem insertNode_eq (id : Int64) (name : Str) (lon_m lat_m : Double) (tags : Tags) (geog : Str) :
    insertNode srv id name lon_m lat_m tags geog = if tags.isEmpty then pure ()
      else insertInto srv .node ⟨id, name, some (lon_m, lat_m), some geog⟩ tags := by
  simp only [insertNode, insertInto, full, decide_eq_true_eq]
  rfl

theorem insertWay_eq (id : Int64) (name : Str) (tags : Tags) (geog : Str) :
    insertWay srv id name tags geog = insertInto srv .way ⟨id, name, none, some geog⟩ tags := by
  simp only [insertWay, insertInto, full, decide_eq_true_eq]
  rfl

theorem insertArea_eq (id : Int64) (name : Str) (tags : Tags) (geog : Str) :
    insertArea srv id name tags geog = insertInto srv .area ⟨id, name, none, some geog⟩ tags := by
  simp only [insertArea, insertInto, full, decide_eq_true_eq]
  rfl

theorem insertRoad_eq (id : Int64) (name : Str) (tags : Tags) (geog : Str) :
    insertRoad srv id name tags geog = insertInto srv .road ⟨id, name, none, some geog⟩ tags := by
  simp only [insertRoad, insertInto, full, decide_eq_true_eq]
  rfl

theorem insertRelation_eq (id : Int64) (name : Str) (tags : Tags) (geog : Str) :
    insertRelation srv id name tags geog =
      insertInto srv .relation ⟨id, name, none, nullable geog⟩ tags := by
  simp only [insertRelation, insertInto, full, decide_eq_true_eq]
  rfl

end NavDB

/-- The session with an entity in the buffers of its table. -/
def Session.buffered (s : Session) (k : Kind) (row : Row) (tags : Tags) : Session :=
  let s := (s.setTagBuf (bufOf k) (s.nav.tagBuf (bufOf k) ++ tagRows row.id tags)).record
    (.bufferedTags (bufOf k) (tagRows row.id tags))
  (s.setBuf k (s.nav.buf k ++ [row])).record (.buffered k row)

/-- An insert when its transactions are accepted. -/
def Session.inserted (s : Session) (k : Kind) (row : Row) (tags : Tags) : Session :=
  if full (s.buffered k row tags).nav k then (s.buffered k row tags).flushed k
  else s.buffered k row tags

theorem NavDB.insertInto_accepting {srv : Server} (h : Accepting srv) (k : Kind) (row : Row)
    (tags : Tags) (s : Session) :
    (insertInto srv k row tags).run s = .done () (s.inserted k row tags) := by
  have hrun : (insertInto srv k row tags).run s =
      (if full (s.buffered k row tags).nav k then flush srv k else pure ()).run
        (s.buffered k row tags) := rfl
  rw [hrun, Session.inserted]
  split
  · exact flush_accepting h k _
  · rfl

namespace Session

variable (s : Session) (k : Kind) (row : Row) (tags : Tags)

@[simp] theorem buffered_buf :
    (s.buffered k row tags).nav.buf = Function.update s.nav.buf k (s.nav.buf k ++ [row]) := rfl

@[simp] theorem buffered_tagBuf : (s.buffered k row tags).nav.tagBuf =
    Function.update s.nav.tagBuf (bufOf k) (s.nav.tagBuf (bufOf k) ++ tagRows row.id tags) := rfl

@[simp] theorem buffered_db : (s.buffered k row tags).db = s.db := rfl

variable {s k}

theorem flushed_empty (h : s.nav.buf k = []) : s.flushed k = s := by
  simp [flushed, h]

theorem flushed_nonempty (h : s.nav.buf k ≠ []) :
    s.flushed k = ((s.committed [.copy k (s.nav.buf k)] .ok).tagsFlushed k).setBuf k [] := by
  have h' : (s.nav.buf k).isEmpty = false := by simpa using h
  rw [flushed, h']
  rfl

theorem tagsFlushed_tagBuf :
    (s.tagsFlushed k).nav.tagBuf = Function.update s.nav.tagBuf (bufOf k) [] := by
  unfold tagsFlushed
  split
  · rename_i h
    rw [← List.isEmpty_iff.mp h, Function.update_eq_self]
  · rfl

theorem tagsFlushed_tags : (s.tagsFlushed k).db.tags =
    Function.update s.db.tags k (s.db.tags k ++ s.nav.tagBuf (bufOf k)) := by
  unfold tagsFlushed
  split
  · rename_i h
    rw [List.isEmpty_iff.mp h, List.append_nil, Function.update_eq_self]
  · rfl

theorem tagsFlushed_frame :
    (s.tagsFlushed k).nav.buf = s.nav.buf ∧ (s.tagsFlushed k).db.rows = s.db.rows := by
  unfold tagsFlushed
  split <;> exact ⟨rfl, rfl⟩

/-- A flush empties the buffer of its table. -/
theorem flushed_buf : (s.flushed k).nav.buf = Function.update s.nav.buf k [] := by
  by_cases h : s.nav.buf k = []
  · rw [flushed_empty h, ← h, Function.update_eq_self]
  · have hf := (s.committed [.copy k (s.nav.buf k)] .ok).tagsFlushed_frame (k := k)
    rw [flushed_nonempty h]
    show Function.update ((s.committed [.copy k (s.nav.buf k)] .ok).tagsFlushed k).nav.buf k [] = _
    rw [hf.1]
    rfl

/-- A flush appends the buffered rows to the table. -/
theorem flushed_rows :
    (s.flushed k).db.rows = Function.update s.db.rows k (s.db.rows k ++ s.nav.buf k) := by
  by_cases h : s.nav.buf k = []
  · rw [flushed_empty h, h, List.append_nil, Function.update_eq_self]
  · have hf := (s.committed [.copy k (s.nav.buf k)] .ok).tagsFlushed_frame (k := k)
    rw [flushed_nonempty h]
    show ((s.committed [.copy k (s.nav.buf k)] .ok).tagsFlushed k).db.rows = _
    rw [hf.2]
    rfl

theorem flushed_tagBuf (h : s.nav.buf k ≠ []) :
    (s.flushed k).nav.tagBuf = Function.update s.nav.tagBuf (bufOf k) [] := by
  rw [flushed_nonempty h]
  exact tagsFlushed_tagBuf

/-- With the rows, everything in the tag buffer goes to the tag table of the flushed table. -/
theorem flushed_tags (h : s.nav.buf k ≠ []) : (s.flushed k).db.tags =
    Function.update s.db.tags k (s.db.tags k ++ s.nav.tagBuf (bufOf k)) := by
  rw [flushed_nonempty h]
  exact tagsFlushed_tags

end Session

end OsmImport
