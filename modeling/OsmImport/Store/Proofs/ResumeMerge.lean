import OsmImport.Store.Proofs.Reopen

/-!
# Resuming the merge with another number of threads

A run with `-R merge` opens the store with the number of node threads that it is given itself, and
`merge()` reads as many shard files. With fewer threads than in the node phase the files of the other
shards stay where they are; with more, files that an earlier import left behind are merged as well.

Nothing is assumed about the ids in such files. Offsets wrap around, so a record with an id that is too
large may land in the slot of another id (`landing`).
-/

namespace OsmImport

namespace OSMMMap

variable {st : OSMMMap} {max_id : Int64} {n : ℕ}

/-! ## Records with any id -/

/-- The slot in which a record lands, and what it puts there. -/
def landing (r : Record) : Option (ℕ × Coord) :=
  if r.id < 0 then none else some (sizeT r.id % 2 ^ 60, (r.lon_m, r.lat_m))

theorem landing_of_inRange (hc : Covers st max_id) {r : Record} (hr : InRange max_id r.id) :
    landing r = some (sizeT r.id, (r.lon_m, r.lat_m)) := by
  have hb := hc.bound
  have hr' : sizeT r.id ≤ sizeT max_id := hr
  have h0 : ¬ r.id < 0 := by rw [neg_iff]; omega
  rw [landing, if_neg h0, Nat.mod_eq_of_lt (by omega)]

theorem offset_eq (r : Record) : sizeMod (sizeT r.id * REC_SIZE) = sizeT r.id % 2 ^ 60 * 16 := by
  simp only [sizeMod, REC_SIZE]
  omega

/-- A write changes the slot in which the record lands. -/
theorem slot_writeToMerged (hc : Covers st max_id) (r : Record) {j : Int64} (hj : InRange max_id j) :
    (writeToMerged st r).slot j = (lastWrite (landing r).toList (sizeT j)).getD (st.slot j) := by
  have hb := hc.bound
  have hj' : sizeT j ≤ sizeT max_id := hj
  unfold writeToMerged landing
  by_cases hneg : r.id < 0
  · rw [if_pos hneg, if_pos hneg]
    rfl
  · rw [if_neg hneg, if_neg hneg, offset_eq]
    dsimp only [Option.toList]
    rw [show lastWrite [(sizeT r.id % 2 ^ 60, (r.lon_m, r.lat_m))] (sizeT j) =
      if sizeT j = sizeT r.id % 2 ^ 60 then some (r.lon_m, r.lat_m) else none from
        lastWrite_concat [] _ _]
    by_cases hslot : sizeT j = sizeT r.id % 2 ^ 60
    · have hfits : ¬ (sizeMod (sizeT r.id % 2 ^ 60 * 16 + REC_SIZE) > st.merged_size) := by
        rw [hc.data, ← hslot]
        simp only [sizeMod, REC_SIZE]
        omega
      rw [if_neg hfits, if_pos hslot, ← hslot]
      obtain ⟨hlon, hlat⟩ := read_position st.merged (sizeT j * 16) r
      simp only [slot, hlon, hlat, Option.getD_some]
    · rw [if_neg hslot, Option.getD_none]
      split
      · rfl
      · have o1 := File.read_write_other st.merged (sizeT r.id % 2 ^ 60 * 16) (sizeT j * 16) 8
          r.position (by rw [Record.length_position]; omega)
        have o2 := File.read_write_other st.merged (sizeT r.id % 2 ^ 60 * 16) (sizeT j * 16 + 8) 8
          r.position (by rw [Record.length_position]; omega)
        simp only [slot, o1, o2]

/-- It sets the bit of the id of the record. -/
theorem bit_writeToMerged (hc : Covers st max_id) (r : Record) {j : Int64} (hj : InRange max_id j) :
    bitmapGet (writeToMerged st r).merged_bm (writeToMerged st r).merged_bm_size j =
      (decide (j = r.id) || bitmapGet st.merged_bm st.merged_bm_size j) := by
  have hb := hc.bound
  have hj' : sizeT j ≤ sizeT max_id := hj
  by_cases hr : InRange max_id r.id
  · have hr' : sizeT r.id ≤ sizeT max_id := hr
    rw [writeToMerged_eq hc hr]
    exact bitmapGet_set (by rw [hc.bits]; omega) j
  · have hne : j ≠ r.id := fun h => hr (h ▸ hj)
    rw [decide_eq_false hne, Bool.false_or]
    unfold writeToMerged
    split
    · rfl
    · dsimp only
      split
      · rfl
      · -- the bit of another id, or none at all
        dsimp only
        by_cases hid : sizeT r.id / 8 < st.merged_bm_size
        · rw [bitmapGet_set hid, decide_eq_false hne, Bool.false_or]
        · rw [bitmapSet, if_pos (Nat.not_lt.mp hid)]

theorem slot_foldl_write (hc : Covers st max_id) (rs : List Record) {j : Int64}
    (hj : InRange max_id j) : (rs.foldl writeToMerged st).slot j =
      (lastWrite (rs.filterMap landing) (sizeT j)).getD (st.slot j) := by
  induction rs using List.reverseRecOn with
  | nil => rfl
  | append_singleton rs r ih =>
    have hone : [r].filterMap landing = (landing r).toList := by
      cases h : landing r <;> simp [h]
    rw [List.foldl_append, List.foldl_cons, List.foldl_nil,
      slot_writeToMerged (covers_foldl_write hc rs) r hj, ih, List.filterMap_append, hone,
      lastWrite_append, Option.getD_or]

theorem bit_foldl_write (hc : Covers st max_id) (rs : List Record) {j : Int64}
    (hj : InRange max_id j) :
    bitmapGet (rs.foldl writeToMerged st).merged_bm (rs.foldl writeToMerged st).merged_bm_size j =
      (decide (j ∈ rs.map Record.id) || bitmapGet st.merged_bm st.merged_bm_size j) := by
  induction rs using List.reverseRecOn with
  | nil => simp
  | append_singleton rs r ih =>
    rw [List.foldl_append, List.foldl_cons, List.foldl_nil,
      bit_writeToMerged (covers_foldl_write hc rs) r hj, ih, ← Bool.or_assoc]
    congr 1
    simp [Bool.or_comm]

/-! ## The rounds of `merge()` -/

/-- One round: what its file puts into the slots, and which bits it sets. -/
theorem mergeShard_memory (hc : Covers st max_id) (lz4 : Lz4) (i : ℕ) {j : Int64}
    (hj : InRange max_id j) :
    Covers (mergeShard lz4 st i) max_id ∧
    (mergeShard lz4 st i).slot j =
      (lastWrite ((mergeInput lz4 st i).filterMap landing) (sizeT j)).getD (st.slot j) ∧
    bitmapGet (mergeShard lz4 st i).merged_bm (mergeShard lz4 st i).merged_bm_size j =
      (decide (j ∈ (mergeInput lz4 st i).map Record.id) ||
        bitmapGet st.merged_bm st.merged_bm_size j) := by
  obtain ⟨h1, -, h3, h4, -⟩ := closeWriter_frame lz4 st i
  have hc' := covers_closeWriter hc lz4 i
  have hpath := closeWriter_shardPath lz4 st i
  have hslot : (closeWriter lz4 st i).slot j = st.slot j := by simp only [slot, h1]
  cases hf : closedFile lz4 st i with
  | none =>
    obtain ⟨hm, hin⟩ := mergeShard_of_missing hf
    rw [hm, hin, hslot, h3, h4]
    exact ⟨hc', rfl, by simp⟩
  | some file =>
    have hin : mergeInput lz4 st i = shardRecords lz4 file := by simp [mergeInput, hf]
    have hcov := covers_foldl_write hc' (shardRecords lz4 file)
    have hs := slot_foldl_write hc' (shardRecords lz4 file) hj
    have hb := bit_foldl_write hc' (shardRecords lz4 file) hj
    rw [hslot] at hs
    rw [h3, h4] at hb
    rw [hin]
    simp only [mergeShard, hpath, hf]
    exact ⟨⟨hcov.data, hcov.bits, hcov.bound⟩, hs, hb⟩

/-- The first `k` rounds, whatever the ids are. -/
theorem mergeFirst_memory (hc : Covers st max_id) (lz4 : Lz4) (k : ℕ) {j : Int64}
    (hj : InRange max_id j) :
    Covers (mergeFirst lz4 st k) max_id ∧
    (mergeFirst lz4 st k).slot j =
      (lastWrite (((List.range k).flatMap (mergeInput lz4 st)).filterMap landing) (sizeT j)).getD
        (st.slot j) ∧
    bitmapGet (mergeFirst lz4 st k).merged_bm (mergeFirst lz4 st k).merged_bm_size j =
      (decide (j ∈ ((List.range k).flatMap (mergeInput lz4 st)).map Record.id) ||
        bitmapGet st.merged_bm st.merged_bm_size j) := by
  induction k with
  | zero => exact ⟨hc, rfl, by simp [mergeFirst]⟩
  | succ k ih =>
    obtain ⟨hck, hslot, hbit⟩ := ih
    have hin : mergeInput lz4 (mergeFirst lz4 st k) k = mergeInput lz4 st k := by
      simp only [mergeInput, (mergeFirst_sameShards lz4 st k).closedFile lz4 le_rfl]
    obtain ⟨h1, h2, h3⟩ := mergeShard_memory hck lz4 k hj
    rw [hin] at h2 h3
    rw [mergeFirst_succ, List.range_succ, List.flatMap_append, List.flatMap_singleton,
      List.filterMap_append, lastWrite_append, List.map_append]
    refine ⟨h1, ?_, ?_⟩
    · rw [h2, hslot, Option.getD_or]
    · rw [h3, hbit, ← Bool.or_assoc, Bool.or_comm (decide _), ← Bool.decide_or]
      simp only [List.mem_append]

theorem mergeShard_shardPath_other (lz4 : Lz4) (st : OSMMMap) {i k : ℕ} (hk : k ≠ i) :
    (mergeShard lz4 st i).shardPath k = st.shardPath k := by
  obtain ⟨-, -, -, -, -, hframe⟩ := closeWriter_frame lz4 st i
  rw [← (hframe k hk).2]
  unfold mergeShard
  dsimp only
  split
  · rfl
  · exact (Function.update_of_ne hk ..).trans (congrFun (foldl_write_shards _ _).2 k)

theorem mergeShard_shardPath_self (lz4 : Lz4) (st : OSMMMap) (i : ℕ) :
    (mergeShard lz4 st i).shardPath i = none := by
  unfold mergeShard
  dsimp only
  split
  · assumption
  · exact Function.update_self ..

/-- The files that are left behind the first `k` rounds are those of the other shards. -/
theorem mergeFirst_shardPath (lz4 : Lz4) (st : OSMMMap) (k i : ℕ) :
    (mergeFirst lz4 st k).shardPath i = if i < k then none else st.shardPath i := by
  by_cases hi : i < k
  · rw [if_pos hi]
    induction k with
    | zero => omega
    | succ k ih =>
      rw [mergeFirst_succ]
      rcases eq_or_ne i k with rfl | hne
      · exact mergeShard_shardPath_self lz4 _ i
      · rw [mergeShard_shardPath_other lz4 _ hne]
        exact ih (by omega)
  · rw [if_neg hi]
    exact (mergeFirst_sameShards lz4 st k i (Nat.not_lt.mp hi)).2

/-! ## Closing the writers -/

/-- The writers of the first `k` shards are closed. -/
def closeFirst (lz4 : Lz4) (st : OSMMMap) (k : ℕ) : OSMMMap :=
  (List.range k).foldl (closeWriter lz4) st

theorem closeFirst_succ (lz4 : Lz4) (st : OSMMMap) (k : ℕ) :
    closeFirst lz4 st (k + 1) = closeWriter lz4 (closeFirst lz4 st k) k := by
  simp [closeFirst, List.range_succ]

theorem closeFirst_spec (lz4 : Lz4) (st : OSMMMap) (k : ℕ) :
    (closeFirst lz4 st k).merged = st.merged ∧ (closeFirst lz4 st k).merged_bm = st.merged_bm ∧
    (∀ i < k, (closeFirst lz4 st k).shardPath i = closedFile lz4 st i) ∧
    SameShardsFrom k (closeFirst lz4 st k) st := by
  induction k with
  | zero => exact ⟨rfl, rfl, fun i hi => absurd hi (by omega), fun i _ => ⟨rfl, rfl⟩⟩
  | succ k ih =>
    obtain ⟨hm, hb, hclosed, hsame⟩ := ih
    obtain ⟨h1, -, h3, -, -, hframe⟩ := closeWriter_frame lz4 (closeFirst lz4 st k) k
    rw [closeFirst_succ]
    refine ⟨h1.trans hm, h3.trans hb, fun i hi => ?_, fun i hi => ?_⟩
    · rcases eq_or_ne i k with rfl | hne
      · rw [closeWriter_shardPath, hsame.closedFile lz4 le_rfl]
      · rw [(hframe i hne).2]
        exact hclosed i (by omega)
    · have hne : i ≠ k := by omega
      exact ⟨(hframe i hne).1.trans (hsame i (by omega)).1,
        (hframe i hne).2.trans (hsame i (by omega)).2⟩

/-- The files that the node phase leaves, once all writers are closed: those of its own shards, and what
was there before. -/
theorem closed_shardPath (lz4 : Lz4) (chunk_size : ℕ) (st : OSMMMap) (ops : List ShardOp) (i : ℕ) :
    (close lz4 (filled chunk_size st ops)).shardPath i =
      if i < st.shards.length then closedFile lz4 (filled chunk_size st ops) i
      else st.shardPath i := by
  obtain ⟨-, -, -, -, hpath, hlen⟩ := filled_frame chunk_size st ops
  obtain ⟨-, -, hclosed, hsame⟩ :=
    closeFirst_spec lz4 (filled chunk_size st ops) (filled chunk_size st ops).shards.length
  rw [hlen] at hclosed hsame
  have hclose : (close lz4 (filled chunk_size st ops)).shardPath =
      (closeFirst lz4 (filled chunk_size st ops) st.shards.length).shardPath := by
    rw [← hlen]
    rfl
  rw [hclose]
  split
  · rename_i hi
    exact hclosed i hi
  · rename_i hi
    rw [(hsame i (Nat.not_lt.mp hi)).2, hpath]

/-! ## The resumed run -/

/-- The records in the file that shard `i` had before the import. -/
def leftover (lz4 : Lz4) (st : OSMMMap) (i : ℕ) : List Record :=
  ((st.shardPath i).map (shardRecords lz4)).getD []

/-- Where the files of an earlier import with the numbers `n` to `n' - 1` put coordinates. -/
def disturbed (lz4 : Lz4) (st : OSMMMap) (n n' : ℕ) : List (ℕ × Coord) :=
  ((List.range' n (n' - n)).flatMap (leftover lz4 st)).filterMap landing

/-- What a merge of the `n` shards is for: no file of them is left, and every id has the coordinates that
were inserted for it, the last ones in shard-major order. -/
def Merges (n : ℕ) (ops : List ShardOp) (merged : OSMMMap) : Prop :=
  (∀ i < n, merged.shardPath i = none) ∧
    ∀ p ∈ ops.filterMap ShardOp.inserted,
      merged.select p.2.id = lastWrite ((shardMajor n ops).map entry) p.2.id

/-- The store that a run with `-R merge` opens behind a node phase whose writers are closed. -/
theorem openStore_closed (hf : Fresh st max_id n) (lz4 : Lz4) (chunk_size : ℕ) (ops : List ShardOp)
    (n' : ℕ) : openStore st.platform (close lz4 (filled chunk_size st ops)) max_id n' false =
      .ok ⟨st.merged, dataSz max_id, st.merged_bm, bmSz max_id, List.replicate n' none,
        (close lz4 (filled chunk_size st ops)).shardPath,
        (close lz4 (filled chunk_size st ops)).shardBmpPath, st.platform⟩ := by
  obtain ⟨hdsz, hbsz⟩ := sizes_eq hf.covers.bound
  obtain ⟨h1, -, h3, -⟩ := filled_frame chunk_size st ops
  obtain ⟨hm, hb, -⟩ :=
    closeFirst_spec lz4 (filled chunk_size st ops) (filled chunk_size st ops).shards.length
  refine openStore_readable (congrArg some (hm.trans h1)) (congrArg some (hb.trans h3)) ?_ ?_
    ⟨hf.grants.data.2, hf.grants.bmp.2⟩ n'
  · rw [hf.sized.1, hf.covers.data, hdsz]
  · rw [hf.sized.2, hf.covers.bits, hbsz]

theorem closedFile_of_closed (lz4 : Lz4) {i : ℕ} (h : ShardClosed st i) :
    closedFile lz4 st i = st.shardPath i := by
  unfold ShardClosed at h
  unfold closedFile
  split
  · rename_i s hs
    simp [hs] at h
  · rfl

/-- What `-R merge` with `n'` threads finds behind the node phase, and what its merge does with it. -/
structure ResumesWith (lz4 : Lz4) (st : OSMMMap) (max_id : Int64) (n n' : ℕ) (ops : List ShardOp)
    (resumed : OSMMMap) : Prop where
  covers : Covers resumed max_id
  length : resumed.shards.length = n'
  input : ∀ i, mergeInput lz4 resumed i = if i < n then recordsAt ops i else leftover lz4 st i
  kept : ∀ i, n' ≤ i → i < n → (merge lz4 resumed).shardPath i ≠ none
  gone : ∀ i < n', (merge lz4 resumed).shardPath i = none

theorem exists_resumes (hf : Fresh st max_id n) (lz4 : Lz4) (chunk_size : ℕ) (ops : List ShardOp)
    (n' : ℕ) : ∃ resumed, openStore st.platform (close lz4 (filled chunk_size st ops)) max_id n' false =
      .ok resumed ∧ ResumesWith lz4 st max_id n n' ops resumed := by
  obtain ⟨hdsz, hbsz⟩ := sizes_eq hf.covers.bound
  have hopened := openStore_closed hf lz4 chunk_size ops n'
  have hfile : ∀ i, i < n → (close lz4 (filled chunk_size st ops)).shardPath i =
      closedFile lz4 (filled chunk_size st ops) i := by
    intro i hi
    rw [closed_shardPath, hf.length, if_pos hi]
  have hstream : ∀ i, i < n →
      streamAt (filled chunk_size st ops) i = some ((recordsAt ops i).map Record.pack).flatten := by
    intro i hi
    rw [streamAt_filled, hf.stream i hi]
    rfl
  refine ⟨_, hopened, ⟨⟨hdsz, hbsz, hf.covers.bound⟩, List.length_replicate, fun i => ?_,
    fun i hi hin => ?_, fun i hi => ?_⟩⟩
  · -- no writer is open, so what is merged are the files on disk
    have hclosed : ShardClosed (OSMMMap.mk st.merged (dataSz max_id) st.merged_bm (bmSz max_id)
        (List.replicate n' none) (close lz4 (filled chunk_size st ops)).shardPath
        (close lz4 (filled chunk_size st ops)).shardBmpPath st.platform) i := by
      by_cases hi : i < n' <;> simp [ShardClosed, hi]
    rw [mergeInput, closedFile_of_closed lz4 hclosed]
    dsimp only
    split
    · rename_i hi
      rw [hfile i hi]
      exact mergeInput_of_stream lz4 (hstream i hi)
    · rename_i hi
      rw [closed_shardPath, hf.length, if_neg hi]
      rfl
  · rw [merge, ← mergeFirst, mergeFirst_shardPath, List.length_replicate, if_neg (Nat.not_lt.mpr hi)]
    dsimp only
    rw [hfile i hin]
    exact closedFile_of_stream (hstream i hin)
  · rw [merge, ← mergeFirst, mergeFirst_shardPath, List.length_replicate, if_pos hi]

/-- A record of the node phase is in the shards. -/
theorem mem_shardMajor {ops : List ShardOp} (hshard : ∀ p ∈ ops.filterMap ShardOp.inserted, p.1 < n)
    {p : ℕ × Record} (hp : p ∈ ops.filterMap ShardOp.inserted) : p.2 ∈ shardMajor n ops :=
  (shardMajor_perm hshard).mem_iff.mpr (List.mem_map_of_mem hp)

theorem exists_lastWrite {rs : List Record} {r : Record} (hr : r ∈ rs) :
    ∃ pos, lastWrite (rs.map entry) r.id = some pos := by
  rw [← Option.ne_none_iff_exists', ne_eq, lastWrite_eq_none_iff, not_not, List.map_map]
  exact List.mem_map.mpr ⟨r, hr, rfl⟩

/-- Records in range land under their ids. -/
theorem lastWrite_landing (hc : Covers st max_id) {rs : List Record}
    (hr : ∀ r ∈ rs, InRange max_id r.id) (j : Int64) :
    lastWrite (rs.filterMap landing) (sizeT j) = lastWrite (rs.map entry) j := by
  have hland : rs.filterMap landing = (rs.map entry).map (Prod.map sizeT id) := by
    rw [List.map_map, ← List.filterMap_eq_map]
    exact List.filterMap_congr fun r h => landing_of_inRange hc (hr r h)
  rw [hland]
  exact lastWrite_map_key (fun a b h => sizeT_inj.mp h) _ j

section

variable {lz4 : Lz4} {ops : List ShardOp} {resumed : OSMMMap} {n' : ℕ}
  (h : ResumesWith lz4 st max_id n n' ops resumed)
include h

/-- With enough threads, the resumed merge reads the shards and then what was left over. -/
theorem ResumesWith.inputs (hn : n ≤ n') : (List.range n').flatMap (mergeInput lz4 resumed) =
    shardMajor n ops ++ (List.range' n (n' - n)).flatMap (leftover lz4 st) := by
  have hsplit : List.range n' = List.range n ++ List.range' n (n' - n) := by
    have h := List.range'_append_1 (s := 0) (m := n) (n := n' - n)
    rw [Nat.zero_add, Nat.add_sub_cancel' hn] at h
    rw [List.range_eq_range', List.range_eq_range', h]
  rw [hsplit, List.flatMap_append, shardMajor]
  congr 1
  · refine List.flatMap_congr fun i hi => ?_
    rw [h.input, if_pos (List.mem_range.mp hi)]
  · refine List.flatMap_congr fun i hi => ?_
    rw [h.input, if_neg (Nat.not_lt.mpr (List.mem_range'_1.mp hi).1)]

theorem ResumesWith.merge_eq : merge lz4 resumed = mergeFirst lz4 resumed n' := by
  rw [merge, ← mergeFirst, h.length]

/-- An id that is found is in range. -/
theorem ResumesWith.inRange_of_select {id : Int64} (hid : (merge lz4 resumed).select id ≠ none) :
    InRange max_id id := by
  have hc : Covers (merge lz4 resumed) max_id := by
    obtain ⟨hs1, hs2, -⟩ := mergeFirst_frame lz4 resumed n'
    rw [h.merge_eq]
    exact ⟨hs1.trans h.covers.data, hs2.trans h.covers.bits, h.covers.bound⟩
  rw [select_eq hc] at hid
  by_contra hout
  exact hid (if_neg fun hin => hout hin.1)

/-- What is found under an inserted id once all shards are merged. -/
theorem ResumesWith.select (hn : n ≤ n')
    (hshard : ∀ p ∈ ops.filterMap ShardOp.inserted, p.1 < n)
    (hrange : ∀ p ∈ ops.filterMap ShardOp.inserted, InRange max_id p.2.id) {p : ℕ × Record}
    (hp : p ∈ ops.filterMap ShardOp.inserted) :
    (merge lz4 resumed).select p.2.id = (lastWrite (disturbed lz4 st n n') (sizeT p.2.id)).or
      (lastWrite ((shardMajor n ops).map entry) p.2.id) := by
  have hall : ∀ r ∈ shardMajor n ops, InRange max_id r.id := by
    intro r hr
    obtain ⟨q, hq, rfl⟩ := List.mem_map.mp ((shardMajor_perm hshard).mem_iff.mp hr)
    exact hrange q hq
  have hmem := mem_shardMajor hshard hp
  obtain ⟨pos, hpos⟩ := exists_lastWrite hmem
  obtain ⟨hc, hslot, hbit⟩ := mergeFirst_memory h.covers lz4 n' (hrange p hp)
  have hset : p.2.id ∈ ((List.range n').flatMap (mergeInput lz4 resumed)).map Record.id := by
    rw [h.inputs hn, List.map_append]
    exact List.mem_append_left _ (List.mem_map_of_mem hmem)
  rw [decide_eq_true hset, Bool.true_or] at hbit
  rw [h.inputs hn, List.filterMap_append, lastWrite_append, lastWrite_landing h.covers hall, hpos]
    at hslot
  rw [h.merge_eq, select_eq hc, if_pos ⟨hrange p hp, hbit⟩, hslot, hpos, disturbed]
  cases lastWrite (((List.range' n (n' - n)).flatMap (leftover lz4 st)).filterMap landing)
      (sizeT p.2.id) with
  | none => simp
  | some pos' => simp

end

/-- **The thread count of a resumed merge.** Behind a node phase with `n` threads, `-R merge` with `n'`
threads merges all shards and finds the inserted coordinates under every inserted id if and only if `n'`
is not smaller than `n`, the inserted ids are in range, and no file of an earlier import with a number
from `n` to `n' - 1` puts other coordinates into the slot of one of them. -/
theorem resume_thread_count_iff (lz4 : Lz4) (chunk_size : ℕ) (hst : Created max_id n st)
    (ops : List ShardOp) (hshard : ∀ p ∈ ops.filterMap ShardOp.inserted, p.1 < n) {st₁ : OSMMMap}
    (hrun : runOps chunk_size st ops = .ok st₁) (n' : ℕ) :
    ∃ resumed, openStore st.platform (close lz4 st₁) max_id n' false = .ok resumed ∧
      (Merges n ops (merge lz4 resumed) ↔ n ≤ n' ∧ ∀ p ∈ ops.filterMap ShardOp.inserted,
        InRange max_id p.2.id ∧ ∀ pos, lastWrite (disturbed lz4 st n n') (sizeT p.2.id) = some pos →
          lastWrite ((shardMajor n ops).map entry) p.2.id = some pos) := by
  obtain rfl := filled_of_run hrun
  have hf := fresh_of_created hst
  obtain ⟨resumed, hopened, h⟩ := exists_resumes hf lz4 chunk_size ops n'
  refine ⟨resumed, hopened, ?_⟩
  constructor
  · rintro ⟨hgone, hsel⟩
    have hn : n ≤ n' := by
      by_contra hlt
      exact h.kept n' le_rfl (Nat.not_le.mp hlt) (hgone n' (Nat.not_le.mp hlt))
    have hrange : ∀ p ∈ ops.filterMap ShardOp.inserted, InRange max_id p.2.id := by
      intro p hp
      obtain ⟨pos, hpos⟩ := exists_lastWrite (mem_shardMajor hshard hp)
      exact h.inRange_of_select (by rw [hsel p hp, hpos]; exact Option.some_ne_none pos)
    refine ⟨hn, fun p hp => ⟨hrange p hp, fun pos hpos => ?_⟩⟩
    rw [← hsel p hp, h.select hn hshard hrange hp, hpos]
    rfl
  · rintro ⟨hn, hall⟩
    refine ⟨fun i hi => h.gone i (hi.trans_le hn), fun p hp => ?_⟩
    rw [h.select hn hshard (fun q hq => (hall q hq).1) hp]
    cases hdist : lastWrite (disturbed lz4 st n n') (sizeT p.2.id) with
    | none => rfl
    | some pos => exact ((hall p hp).2 pos hdist).symm

/-- One node in the second of two shards. -/
def oneNode : List ShardOp := [.insert 1 ⟨3, ⟨7⟩, ⟨8⟩⟩]

theorem oneNode_inserted : oneNode.filterMap ShardOp.inserted = [(1, ⟨3, ⟨7⟩, ⟨8⟩⟩)] := rfl

/-- Resumed with as many threads, the merge finds it. -/
theorem resume_thread_count_iff_two : ∃ st, Created 10 2 st ∧ ∃ st₁ resumed,
    runOps CHUNK_SIZE st oneNode = .ok st₁ ∧
    openStore st.platform (close Lz4.stored st₁) 10 2 false = .ok resumed ∧
    Merges 2 oneNode (merge Lz4.stored resumed) := by
  obtain ⟨st, hst, hplat⟩ := created_ten
  have hfit : InsertsFit 10 2 oneNode := by
    rw [InsertsFit, oneNode_inserted]
    decide
  have hrun := @runOps_of_roomy CHUNK_SIZE st 10 2 _ (by decide) (hplat ▸ roomy_plain 2) hfit
  obtain ⟨resumed, hopen, hiff⟩ := resume_thread_count_iff Lz4.stored CHUNK_SIZE hst oneNode
    (by rw [oneNode_inserted]; decide) hrun 2
  refine ⟨st, hst, _, resumed, hrun, hopen, hiff.mpr ⟨le_rfl, fun p hp => ?_⟩⟩
  rw [oneNode_inserted, List.mem_singleton] at hp
  subst hp
  exact ⟨by unfold InRange; decide, fun pos hpos => by cases hpos⟩

/-- Resumed with one thread, it leaves the file of the second shard behind and does not find it. -/
theorem fewer_threads_lose_node : ∃ disk st st₁ resumed,
    createFile .plain emptyDisk 10 2 = .ok disk ∧ openStore .plain disk 10 2 true = .ok st ∧
    runOps CHUNK_SIZE st oneNode = .ok st₁ ∧
    openStore .plain (close Lz4.stored st₁) 10 1 false = .ok resumed ∧
    (merge Lz4.stored resumed).select 3 = none ∧ (merge Lz4.stored resumed).shardPath 1 ≠ none ∧
    ¬ Merges 2 oneNode (merge Lz4.stored resumed) := by
  refine ⟨_, _, _, _, rfl, rfl, rfl, rfl, by decide, by decide, fun h => ?_⟩
  have hgone := h.1 1 (by decide)
  revert hgone
  decide

end OSMMMap

end OsmImport
