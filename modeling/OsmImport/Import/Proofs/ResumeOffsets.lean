import OsmImport.Import.Producer

/-!
# Resume offsets

What the loop hands to the way threads and what it writes to the offset files depends on the batches
alone: all entries that the way threads act on (`pushed_loop`), the position of the first batch with an
entry that is no node (`resumeOffsets_loop`), and that of the first batch with a relation
(`relationsOffsets_loop`). A run from a saved position reads the batches from there on
(`batches_suffix`), and the batches before hold nothing but nodes, or no relation.
-/

namespace OsmImport

open OSMReader Producer

/-! ## Reading from a position on -/

theorem batches_cons {fmt : Formats} {file : Bytes} {pos : ℕ} {b : ℕ × List OSMEntry}
    {bs : List (ℕ × List OSMEntry)} (h : (batches fmt file pos).1 = b :: bs) :
    b.1 = pos ∧ ∃ q, bs = (batches fmt file q).1 ∧
      (batches fmt file pos).2 = (batches fmt file q).2 := by
  cases hn : next fmt file pos with
  | eof =>
    rw [batches] at h
    split at h <;> simp_all
  | error =>
    rw [batches] at h
    split at h <;> simp_all
  | ok batch q =>
    rw [batches_ok hn] at h ⊢
    obtain ⟨rfl, rfl⟩ := List.cons.inj h
    exact ⟨rfl, q, rfl, rfl⟩

/-- A run from a position that was reached reads what the run that reached it read from there on. -/
theorem batches_suffix {fmt : Formats} {file : Bytes} {pos : ℕ} {b : ℕ × List OSMEntry}
    {pre post : List (ℕ × List OSMEntry)} (h : (batches fmt file pos).1 = pre ++ b :: post) :
    batches fmt file b.1 = (b :: post, (batches fmt file pos).2) := by
  induction pre generalizing pos with
  | nil =>
    obtain ⟨hpos, -⟩ := batches_cons h
    rw [hpos]
    exact Prod.ext h rfl
  | cons c pre ih =>
    obtain ⟨-, q, hq, hending⟩ := batches_cons h
    rw [hending]
    exact ih hq.symm

/-! ## What the loop does -/

section

variable {N : ℕ} {phase : Resume}

/-- The entries of a run over these batches that the way threads act on. -/
def actedEntries (skip_ways : Bool) (blobs : List (ℕ × List OSMEntry)) : List OSMEntry :=
  (blobs.flatMap Prod.snd).filter (actsOn skip_ways)

/-- The position of the first batch with such an entry. -/
def firstWith (p : OSMEntry → Bool) (blobs : List (ℕ × List OSMEntry)) : Option ℕ :=
  (blobs.find? fun b => b.2.any p).map Prod.fst

theorem firstWith_cons (p : OSMEntry → Bool) (b : ℕ × List OSMEntry)
    (blobs : List (ℕ × List OSMEntry)) :
    firstWith p (b :: blobs) = if b.2.any p then some b.1 else firstWith p blobs := by
  rw [firstWith, List.find?_cons]
  cases b.2.any p <;> rfl

theorem actedOn_append (a b : List Action) :
    actedOn phase (a ++ b) = actedOn phase a ++ actedOn phase b := by
  rw [actedOn, List.filterMap_append, List.filter_append]
  rfl

theorem shutdownNodes_observed {β : Type} {g : Action → Option β}
    (hg : ∀ i, g (.shutdownNode i) = none) : (shutdownNodes N).filterMap g = [] := by
  rw [List.filterMap_eq_nil_iff]
  intro a ha
  obtain ⟨i, -, rfl⟩ := List.mem_map.mp ha
  exact hg i

theorem actedOn_step (blob_start : ℕ) (v : Vars) (entry : OSMEntry) :
    actedOn phase (step N phase blob_start v entry).2 =
      [entry].filter (actsOn (phase = .relations)) := by
  have hend : actedOn phase (endNodePhase N blob_start v) = [] := by
    unfold endNodePhase
    split
    · rw [actedOn_append, actedOn, shutdownNodes_observed fun _ => rfl]
      rfl
    · rfl
  have hnote : actedOn phase (noteRelation blob_start v entry) = [] := by
    unfold noteRelation
    split <;> rfl
  unfold step
  split
  · rename_i hnode
    have hskip : [entry].filter (actsOn (phase = .relations)) = [] := by
      simp [actsOn, (Bool.and_eq_true _ _ ▸ hnode).2]
    rw [hskip]
    split <;> rfl
  · dsimp only
    split
    · rename_i hway
      rw [hend]
      obtain ⟨hphase, hway⟩ := Bool.and_eq_true _ _ ▸ hway
      simp [actsOn, hphase, hway]
    · rw [actedOn_append, actedOn_append, hend, hnote]
      rfl

theorem actedOn_batch (blob_start : ℕ) (v : Vars) (batch : List OSMEntry) :
    actedOn phase (batchActions N phase blob_start v batch).2 =
      batch.filter (actsOn (phase = .relations)) := by
  induction batch generalizing v with
  | nil => rfl
  | cons entry batch ih =>
    show actedOn phase ((step N phase blob_start v entry).2 ++ _) = _
    rw [actedOn_append, actedOn_step, ih, ← List.filter_append]
    rfl

theorem actedOn_loop (v : Vars) (blobs : List (ℕ × List OSMEntry)) :
    actedOn phase (loopActions N phase v blobs) = actedEntries (phase = .relations) blobs := by
  induction blobs generalizing v with
  | nil => rfl
  | cons b blobs ih =>
    show actedOn phase ((batchActions N phase b.1 v b.2).2 ++ _) = _
    rw [actedOn_append, actedOn_batch, ih, actedEntries, actedEntries, List.flatMap_cons,
      List.filter_append]

/-! ## What the loop writes -/

section

variable {armed : Vars → Bool} {p : OSMEntry → Bool} {g : Action → Option ℕ}

/-- A step writes the offset if it is armed for such an entry, and disarms then. -/
def WritesOnce (N : ℕ) (phase : Resume) (armed : Vars → Bool) (p : OSMEntry → Bool)
    (g : Action → Option ℕ) : Prop :=
  ∀ blob_start v entry,
    (step N phase blob_start v entry).2.filterMap g = (if armed v && p entry then [blob_start] else []) ∧
      armed (step N phase blob_start v entry).1 = (armed v && !p entry)

theorem writes_batch (h : WritesOnce N phase armed p g) (blob_start : ℕ) (v : Vars)
    (batch : List OSMEntry) :
    (batchActions N phase blob_start v batch).2.filterMap g =
        (if armed v && batch.any p then [blob_start] else []) ∧
      armed (batchActions N phase blob_start v batch).1 = (armed v && !batch.any p) := by
  induction batch generalizing v with
  | nil => simp [batchActions]
  | cons entry batch ih =>
    obtain ⟨hstep, harmed⟩ := h blob_start v entry
    obtain ⟨hbatch, hrest⟩ := ih (step N phase blob_start v entry).1
    rw [harmed] at hbatch hrest
    constructor
    · show ((step N phase blob_start v entry).2 ++
        (batchActions N phase blob_start (step N phase blob_start v entry).1 batch).2).filterMap g = _
      rw [List.filterMap_append, hstep, hbatch, List.any_cons]
      cases armed v <;> cases p entry <;> cases batch.any p <;> rfl
    · show armed (batchActions N phase blob_start (step N phase blob_start v entry).1 batch).1 = _
      rw [hrest, List.any_cons, Bool.not_or, Bool.and_assoc]

/-- The loop writes the position of the first batch with such an entry, and no other. -/
theorem writes_loop (h : WritesOnce N phase armed p g) (v : Vars)
    (blobs : List (ℕ × List OSMEntry)) :
    (loopActions N phase v blobs).filterMap g =
      if armed v then (firstWith p blobs).toList else [] := by
  induction blobs generalizing v with
  | nil => simp [loopActions, firstWith]
  | cons b blobs ih =>
    obtain ⟨hbatch, harmed⟩ := writes_batch h b.1 v b.2
    show ((batchActions N phase b.1 v b.2).2 ++
      loopActions N phase (batchActions N phase b.1 v b.2).1 blobs).filterMap g = _
    rw [List.filterMap_append, hbatch, ih, harmed, firstWith_cons]
    cases armed v <;> cases b.2.any p <;> rfl

end

theorem writes_resumeOffset :
    WritesOnce N phase Vars.node_phase (fun entry => !entry.isNode) Action.resumeOffset := by
  intro blob_start v entry
  have hshut : (shutdownNodes N).filterMap Action.resumeOffset = [] :=
    shutdownNodes_observed fun _ => rfl
  unfold step
  split
  · rename_i hnode
    rw [Bool.and_eq_true] at hnode
    split <;> simp [hnode.1, hnode.2, Action.resumeOffset]
  · rename_i hnode
    have hend : (endNodePhase N blob_start v).filterMap Action.resumeOffset =
        if v.node_phase && !entry.isNode then [blob_start] else [] := by
      unfold endNodePhase
      cases hv : v.node_phase with
      | false => rfl
      | true =>
        have he : entry.isNode = false := by simpa [hv] using hnode
        simp [he, hshut, Action.resumeOffset]
    have hflag : (v.node_phase && !!entry.isNode) = false := by simpa using hnode
    have hnote : (noteRelation blob_start v entry).filterMap Action.resumeOffset = [] := by
      unfold noteRelation
      split <;> rfl
    dsimp only
    split
    · exact ⟨hend, hflag.symm⟩
    · refine ⟨?_, hflag.symm⟩
      rw [List.filterMap_append, List.filterMap_append, hend, hnote, List.append_nil]
      exact List.append_nil _

theorem writes_relationsOffset : WritesOnce N phase (fun v => !v.relations_offset_written)
    OSMEntry.isRelation Action.relationsOffset := by
  intro blob_start v entry
  have hshut : (shutdownNodes N).filterMap Action.relationsOffset = [] :=
    shutdownNodes_observed fun _ => rfl
  have hend : (endNodePhase N blob_start v).filterMap Action.relationsOffset = [] := by
    unfold endNodePhase
    split
    · rw [List.filterMap_append, hshut]
      rfl
    · rfl
  have hnote : (noteRelation blob_start v entry).filterMap Action.relationsOffset =
      if !v.relations_offset_written && entry.isRelation then [blob_start] else [] := by
    unfold noteRelation
    cases v.relations_offset_written <;> cases entry.isRelation <;> rfl
  unfold step
  split
  · rename_i hnode
    have hrelation : entry.isRelation = false := by
      cases entry with
      | node n => rfl
      | way w => simp [OSMEntry.isNode] at hnode
      | relation r => simp [OSMEntry.isNode] at hnode
    split <;> simp [hrelation, Action.relationsOffset]
  · dsimp only
    split
    · rename_i hway
      have hrelation : entry.isRelation = false := by
        cases entry with
        | node n => rfl
        | way w => rfl
        | relation r => simp [OSMEntry.isWay] at hway
      simp [hend, hrelation]
    · refine ⟨?_, Bool.not_or ..⟩
      rw [List.filterMap_append, List.filterMap_append, hend, hnote, List.nil_append]
      exact List.append_nil _

end

/-! ## Runs -/

section

variable {N : ℕ} {phase : Resume} {read : List (ℕ × List OSMEntry) × Ending}

/-- What surrounds the loop hands nothing to the way threads and writes nothing. -/
theorem actions_observed {β : Type} {g : Action → Option β} (hshut : ∀ i, g (.shutdownNode i) = none)
    (hfin : [Action.joinNodes, .shutdownWay, .joinWays].filterMap g = []) :
    (actions N phase read).filterMap g =
      (loopActions N phase (start phase) read.1).filterMap g := by
  have hnodes : (shutdownNodes N).filterMap g = [] := shutdownNodes_observed hshut
  have hfinish : (finish N).filterMap g = [] := by
    rw [finish, List.filterMap_append, hnodes, hfin]
    rfl
  rw [actions, List.filterMap_append, List.filterMap_append]
  have h₁ : (if skip_nodes phase then shutdownNodes N else []).filterMap g = [] := by
    split
    · exact hnodes
    · rfl
  have h₂ : (if read.2 = .eof then finish N else []).filterMap g = [] := by
    split
    · exact hfinish
    · rfl
  rw [h₁, h₂, List.nil_append, List.append_nil]

theorem actedOn_actions :
    actedOn phase (actions N phase read) = actedEntries (phase = .relations) read.1 := by
  rw [actedOn, actions_observed (fun _ => rfl) rfl]
  exact actedOn_loop _ _

theorem resumeOffsets_actions : (actions N phase read).filterMap Action.resumeOffset =
    if skip_nodes phase then [] else (firstWith (fun entry => !entry.isNode) read.1).toList := by
  rw [actions_observed (fun _ => rfl) rfl, writes_loop writes_resumeOffset]
  cases h : skip_nodes phase <;> simp [start, h]

theorem relationsOffsets_actions : (actions N phase read).filterMap Action.relationsOffset =
    (firstWith OSMEntry.isRelation read.1).toList := by
  rw [actions_observed (fun _ => rfl) rfl, writes_loop writes_relationsOffset]
  rfl

end

/-! ## Resuming at a saved offset -/

/-- The batches before the first one with such an entry have none, and a run from its position reads
it first. -/
theorem batches_firstWith {fmt : Formats} {file : Bytes} {p : OSMEntry → Bool} {offset : ℕ}
    (h : firstWith p (batches fmt file 0).1 = some offset) :
    ∃ pre, (∀ b ∈ pre, b.2.any p = false) ∧
      (batches fmt file 0).1 = pre ++ (batches fmt file offset).1 ∧
      firstWith p (batches fmt file offset).1 = some offset := by
  obtain ⟨b, hfind, rfl⟩ := Option.map_eq_some_iff.mp h
  obtain ⟨hb, pre, post, hsplit, hpre⟩ := List.find?_eq_some_iff_append.mp hfind
  have hsuffix := congrArg Prod.fst (batches_suffix hsplit)
  refine ⟨pre, fun c hc => by simpa using hpre c hc, hsplit.trans (by rw [hsuffix]), ?_⟩
  rw [hsuffix, firstWith_cons, hb]
  rfl

/-- The run ends in the same way. -/
theorem ending_firstWith {fmt : Formats} {file : Bytes} {p : OSMEntry → Bool} {offset : ℕ}
    (h : firstWith p (batches fmt file 0).1 = some offset) :
    (batches fmt file offset).2 = (batches fmt file 0).2 := by
  obtain ⟨b, hfind, rfl⟩ := Option.map_eq_some_iff.mp h
  obtain ⟨-, pre, post, hsplit, -⟩ := List.find?_eq_some_iff_append.mp hfind
  rw [batches_suffix hsplit]

/-- A run that skips batches acts on the same entries, if it would have acted on none of theirs. -/
theorem actedEntries_skip {skip_ways : Bool} {pre post : List (ℕ × List OSMEntry)}
    (h : ∀ b ∈ pre, ∀ entry ∈ b.2, actsOn skip_ways entry = false) :
    actedEntries skip_ways (pre ++ post) = actedEntries skip_ways post := by
  have hpre : (pre.flatMap Prod.snd).filter (actsOn skip_ways) = [] := by
    rw [List.filter_eq_nil_iff]
    intro entry hentry
    obtain ⟨b, hb, he⟩ := List.mem_flatMap.mp hentry
    rw [h b hb entry he]
    simp
  rw [actedEntries, List.flatMap_append, List.filter_append, hpre]
  rfl

theorem firstWith_skip {p : OSMEntry → Bool} {pre post : List (ℕ × List OSMEntry)}
    (h : ∀ b ∈ pre, b.2.any p = false) : firstWith p (pre ++ post) = firstWith p post := by
  induction pre with
  | nil => rfl
  | cons b pre ih =>
    rw [List.cons_append, firstWith_cons, h b List.mem_cons_self]
    exact ih fun c hc => h c (List.mem_cons_of_mem _ hc)

theorem actsOn_node {skip_ways : Bool} {entry : OSMEntry} (h : entry.isNode = true) :
    actsOn skip_ways entry = false := by
  simp [actsOn, h]

theorem isRelation_of_actsOn (entry : OSMEntry) : actsOn true entry = entry.isRelation := by
  cases entry <;> rfl

/-- The run starts at the beginning or at the position of the first batch that does not consist of
nodes. -/
def SkipsNodes (fmt : Formats) (file : Bytes) (pos : ℕ) : Prop :=
  pos = 0 ∨ firstWith (fun entry => !entry.isNode) (batches fmt file 0).1 = some pos

section

variable {fmt : Formats} {file : Bytes} {pos : ℕ}

theorem SkipsNodes.facts (h : SkipsNodes fmt file pos) (skip_ways : Bool) :
    actedEntries skip_ways (batches fmt file pos).1 =
        actedEntries skip_ways (batches fmt file 0).1 ∧
      firstWith (fun entry => !entry.isNode) (batches fmt file pos).1 =
        firstWith (fun entry => !entry.isNode) (batches fmt file 0).1 ∧
      firstWith OSMEntry.isRelation (batches fmt file pos).1 =
        firstWith OSMEntry.isRelation (batches fmt file 0).1 := by
  rcases h with rfl | h
  · exact ⟨rfl, rfl, rfl⟩
  · obtain ⟨pre, hpre, hall, hfirst⟩ := batches_firstWith h
    have hnodes : ∀ b ∈ pre, ∀ entry ∈ b.2, entry.isNode = true := by
      intro b hb entry hentry
      have hany := hpre b hb
      rw [List.any_eq_false] at hany
      simpa using hany entry hentry
    refine ⟨?_, hfirst.trans h.symm, ?_⟩
    · rw [hall, actedEntries_skip fun b hb entry he => actsOn_node (hnodes b hb entry he)]
    · rw [hall, firstWith_skip]
      intro b hb
      rw [List.any_eq_false]
      intro entry hentry
      cases entry with
      | node n => simp [OSMEntry.isRelation]
      | way w => cases hnodes b hb _ hentry
      | relation r => cases hnodes b hb _ hentry

/-- The same for a run that starts at the position of the first batch with a relation. -/
theorem relations_facts
    (h : firstWith OSMEntry.isRelation (batches fmt file 0).1 = some pos) :
    actedEntries true (batches fmt file pos).1 = actedEntries true (batches fmt file 0).1 ∧
      firstWith OSMEntry.isRelation (batches fmt file pos).1 =
        firstWith OSMEntry.isRelation (batches fmt file 0).1 := by
  obtain ⟨pre, hpre, hall, hfirst⟩ := batches_firstWith h
  refine ⟨?_, hfirst.trans h.symm⟩
  rw [hall, actedEntries_skip]
  intro b hb entry hentry
  rw [isRelation_of_actsOn]
  have hany := hpre b hb
  rw [List.any_eq_false] at hany
  simpa using hany entry hentry

end

theorem offsetsAfter_full (fmt : Formats) (file : Bytes) (N : ℕ) (files : OffsetFiles) :
    offsetsAfter (Producer.run N .nodes fmt file files) =
      ⟨firstWith (fun entry => !entry.isNode) (batches fmt file 0).1,
        firstWith OSMEntry.isRelation (batches fmt file 0).1⟩ := by
  have hlast : ∀ o : Option ℕ, o.toList.getLast? = o := by
    intro o
    cases o <;> rfl
  unfold offsetsAfter Producer.run
  rw [resumeOffsets_actions, relationsOffsets_actions]
  exact congrArg₂ OffsetFiles.mk (hlast _) (hlast _)

/-- What `-R merge` and `-R ways` read, with the offset file of the full run or without one. -/
theorem skipsNodes_seek (fmt : Formats) (file : Bytes) {keep : Bool} :
    SkipsNodes fmt file ((if keep then
      firstWith (fun entry => !entry.isNode) (batches fmt file 0).1 else none).getD 0) := by
  cases keep with
  | false => exact .inl rfl
  | true =>
    cases h : firstWith (fun entry => !entry.isNode) (batches fmt file 0).1 with
    | none => exact .inl rfl
    | some pos => exact .inr h

/-- What `-R relations` reads, with the offset files of the full run or without them. -/
theorem seek_relations (fmt : Formats) (file : Bytes) (N : ℕ)
    (keep_offset keep_relations_offset : Bool) :
    let full := offsetsAfter (Producer.run N .nodes fmt file ⟨none, none⟩)
    let pos := seekPosition .relations ⟨if keep_offset then full.offset else none,
      if keep_relations_offset then full.relations_offset else none⟩
    SkipsNodes fmt file pos ∨ firstWith OSMEntry.isRelation (batches fmt file 0).1 = some pos := by
  intro full pos
  have hfull : full = _ := offsetsAfter_full fmt file N ⟨none, none⟩
  have hpos : pos = ((if keep_relations_offset then full.relations_offset else none).or
    (if keep_offset then full.offset else none)).getD 0 := rfl
  rw [hpos]
  cases hr : if keep_relations_offset then full.relations_offset else none with
  | none =>
    rw [Option.none_or, hfull]
    exact .inl (skipsNodes_seek fmt file)
  | some offset =>
    refine .inr ?_
    split at hr
    · rw [hfull] at hr
      exact hr
    · cases hr

/-- The resumed runs read from where no entry that they act on is skipped. -/
structure Resumable (fmt : Formats) (file : Bytes) (files : OffsetFiles) : Prop where
  nodes : SkipsNodes fmt file (files.offset.getD 0)
  relations : SkipsNodes fmt file (seekPosition .relations files) ∨
    firstWith OSMEntry.isRelation (batches fmt file 0).1 = some (seekPosition .relations files)

theorem resumable_full (fmt : Formats) (file : Bytes) (N : ℕ)
    (keep_offset keep_relations_offset : Bool) :
    Resumable fmt file
      ⟨if keep_offset then (offsetsAfter (Producer.run N .nodes fmt file ⟨none, none⟩)).offset else none,
        if keep_relations_offset then
          (offsetsAfter (Producer.run N .nodes fmt file ⟨none, none⟩)).relations_offset
        else none⟩ := by
  refine ⟨?_, seek_relations fmt file N keep_offset keep_relations_offset⟩
  dsimp only
  rw [offsetsAfter_full]
  exact skipsNodes_seek fmt file

section

variable {fmt : Formats} {file : Bytes} {files : OffsetFiles} {N : ℕ} {phase : Resume}

theorem Resumable.readsRelations (h : Resumable fmt file files) :
    actedEntries true (batches fmt file (seekPosition .relations files)).1 =
        actedEntries true (batches fmt file 0).1 ∧
      firstWith OSMEntry.isRelation (batches fmt file (seekPosition .relations files)).1 =
        firstWith OSMEntry.isRelation (batches fmt file 0).1 := by
  rcases h.relations with hskip | hfound
  · obtain ⟨hacted, -, hfirst⟩ := hskip.facts true
    exact ⟨hacted, hfirst⟩
  · exact relations_facts hfound

/-- The first relation of a resumed run is that of the file. -/
theorem Resumable.firstRelation (h : Resumable fmt file files) :
    firstWith OSMEntry.isRelation (batches fmt file (seekPosition phase files)).1 =
      firstWith OSMEntry.isRelation (batches fmt file 0).1 := by
  cases phase with
  | nodes => rfl
  | merging => exact (h.nodes.facts false).2.2
  | ways => exact (h.nodes.facts false).2.2
  | relations => exact h.readsRelations.2

/-- What a resumed run writes into the first offset file is there already. -/
theorem Resumable.resumeOffset (h : Resumable fmt file files) {action : Action} {offset : ℕ}
    (haction : action ∈ Producer.run N phase fmt file files)
    (hoffset : action.resumeOffset = some offset) :
    firstWith (fun entry => !entry.isNode) (batches fmt file 0).1 = some offset := by
  have hmem : offset ∈ (Producer.run N phase fmt file files).filterMap Action.resumeOffset :=
    List.mem_filterMap.mpr ⟨action, haction, hoffset⟩
  rw [Producer.run, resumeOffsets_actions] at hmem
  cases phase with
  | nodes => simpa [skip_nodes, seekPosition] using hmem
  | merging =>
    rw [show seekPosition .merging files = files.offset.getD 0 from rfl] at hmem
    simpa [skip_nodes, (h.nodes.facts false).2.1] using hmem
  | ways => cases hmem
  | relations => cases hmem

/-- The same for the second one. -/
theorem Resumable.relationsOffset (h : Resumable fmt file files) {action : Action} {offset : ℕ}
    (haction : action ∈ Producer.run N phase fmt file files)
    (hoffset : action.relationsOffset = some offset) :
    firstWith OSMEntry.isRelation (batches fmt file 0).1 = some offset := by
  have hmem : offset ∈ (Producer.run N phase fmt file files).filterMap Action.relationsOffset :=
    List.mem_filterMap.mpr ⟨action, haction, hoffset⟩
  rw [Producer.run, relationsOffsets_actions, h.firstRelation] at hmem
  simpa using hmem

end

theorem filter_actedEntries (blobs : List (ℕ × List OSMEntry)) :
    (actedEntries false blobs).filter OSMEntry.isRelation = actedEntries true blobs := by
  rw [actedEntries, actedEntries, List.filter_filter]
  apply List.filter_congr
  intro entry _
  cases entry <;> rfl

/-- **Resume offsets.** A full run over any file leaves two offset files, and each may be there or not
when the run is resumed. Then `-R merge` and `-R ways` act on exactly the ways and relations of the full
run, `-R relations` on exactly its relations, in the same order, and whatever offset they write is the
one that the full run wrote. -/
theorem resume_offsets (fmt : Formats) (file : Bytes) (N N' : ℕ)
    (keep_offset keep_relations_offset : Bool) :
    let full := Producer.run N .nodes fmt file ⟨none, none⟩
    let files : OffsetFiles :=
      ⟨if keep_offset then (offsetsAfter full).offset else none,
        if keep_relations_offset then (offsetsAfter full).relations_offset else none⟩
    let resumed := fun phase => Producer.run N' phase fmt file files
    actedOn .merging (resumed .merging) = actedOn .nodes full ∧
    actedOn .ways (resumed .ways) = actedOn .nodes full ∧
    actedOn .relations (resumed .relations) = (actedOn .nodes full).filter OSMEntry.isRelation ∧
    ∀ phase, phase ≠ .nodes → ∀ action ∈ resumed phase,
      (∀ offset, action.resumeOffset = some offset → (offsetsAfter full).offset = some offset) ∧
      ∀ offset, action.relationsOffset = some offset →
        (offsetsAfter full).relations_offset = some offset := by
  intro full files resumed
  have hfull : offsetsAfter full = _ := offsetsAfter_full fmt file N ⟨none, none⟩
  have hacted : actedOn .nodes full = actedEntries false (batches fmt file 0).1 := actedOn_actions
  have hfiles : Resumable fmt file files :=
    resumable_full fmt file N keep_offset keep_relations_offset
  rw [hacted, hfull]
  refine ⟨?_, ?_, ?_, ?_⟩
  · exact actedOn_actions.trans (hfiles.nodes.facts false).1
  · exact actedOn_actions.trans (hfiles.nodes.facts false).1
  · rw [filter_actedEntries]
    exact actedOn_actions.trans hfiles.readsRelations.1
  · intro phase _ action haction
    exact ⟨fun _ hoffset => hfiles.resumeOffset haction hoffset,
      fun _ hoffset => hfiles.relationsOffset haction hoffset⟩

end OsmImport
