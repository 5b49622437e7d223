import OsmImport.Store.Proofs.MergeCrash

/-!
# Opening the store of a finished import

`merge()` unlinks the file and the bitmap sidecar of every shard, and nothing else makes a sidecar than
`createFile`. The constructor opens the sidecars of its shards if it opens them for writing, and that is
its default: so `runDelta`, which only wants to read, finds no sidecar and ends with an exception. Without
the shards the store opens, and reads as it did at the end of the import.
-/

namespace OsmImport

namespace OSMMMap

variable {lz4 : Lz4} {st : OSMMMap} {max_id : Int64}

/-! ## The files behind `merge()` -/

theorem closeWriter_shardBmpPath (lz4 : Lz4) (st : OSMMMap) {i k : ℕ} (hk : k ≠ i) :
    (closeWriter lz4 st i).shardBmpPath k = st.shardBmpPath k := by
  unfold closeWriter
  split
  · exact Function.update_of_ne hk ..
  · rfl

theorem foldl_write_shardBmpPath (rs : List Record) (st : OSMMMap) :
    (rs.foldl writeToMerged st).shardBmpPath = st.shardBmpPath := by
  induction rs generalizing st with
  | nil => rfl
  | cons r rs ih =>
    rw [List.foldl_cons, ih]
    unfold writeToMerged
    split
    · rfl
    · dsimp only
      split <;> rfl

/-- The round of a shard leaves the sidecars of the others. -/
theorem mergeShard_shardBmpPath (lz4 : Lz4) (st : OSMMMap) {i k : ℕ} (hk : k ≠ i) :
    (mergeShard lz4 st i).shardBmpPath k = st.shardBmpPath k := by
  have hclose := closeWriter_shardBmpPath lz4 st hk
  unfold mergeShard
  dsimp only
  split
  · exact hclose
  · rename_i file hfile
    rw [← hclose]
    exact (Function.update_of_ne hk ..).trans
      (congrFun (foldl_write_shardBmpPath (shardRecords lz4 file) (closeWriter lz4 st i)) k)

/-- The round of a shard that has a file unlinks its sidecar. -/
theorem mergeShard_unlinks (st : OSMMMap) {i : ℕ} (h : closedFile lz4 st i ≠ none) :
    (mergeShard lz4 st i).shardBmpPath i = none := by
  obtain ⟨file, hfile⟩ := Option.ne_none_iff_exists'.mp h
  have hpath := closeWriter_shardPath lz4 st i
  simp only [mergeShard, hpath, hfile, Function.update_self]

theorem mergeFirst_sameShards (lz4 : Lz4) (st : OSMMMap) (k : ℕ) :
    SameShardsFrom k (mergeFirst lz4 st k) st := by
  induction k with
  | zero => exact fun i _ => ⟨rfl, rfl⟩
  | succ k ih =>
    intro i hi
    have hne : i ≠ k := by omega
    obtain ⟨-, -, -, -, -, hframe⟩ := closeWriter_frame lz4 (mergeFirst lz4 st k) k
    rw [mergeFirst_succ, mergeShard_shards]
    refine ⟨(hframe i hne).1.trans (ih i (by omega)).1, ?_⟩
    rw [← (ih i (by omega)).2, ← (hframe i hne).2]
    unfold mergeShard
    dsimp only
    split
    · rfl
    · rename_i file hfile
      exact (Function.update_of_ne hne ..).trans (congrFun (foldl_write_shards _ _).2 i)

/-- After `k` rounds the sidecars of the first `k` shards are unlinked. -/
theorem mergeFirst_unlinks {k : ℕ} (h : ∀ i < k, closedFile lz4 st i ≠ none) {i : ℕ} (hi : i < k) :
    (mergeFirst lz4 st k).shardBmpPath i = none := by
  induction k with
  | zero => omega
  | succ k ih =>
    rw [mergeFirst_succ]
    rcases eq_or_ne i k with rfl | hne
    · apply mergeShard_unlinks
      rw [(mergeFirst_sameShards lz4 st i).closedFile lz4 le_rfl]
      exact h i hi
    · rw [mergeShard_shardBmpPath lz4 _ hne]
      exact ih (fun j hj => h j (by omega)) (by omega)

theorem closeWriter_closed {i : ℕ} (h : ShardClosed st i) : closeWriter lz4 st i = st := by
  unfold ShardClosed at h
  unfold closeWriter
  split
  · rename_i s hs
    simp [hs] at h
  · rfl

/-- Without open writers the destructor changes no file. -/
theorem close_of_closed (h : ∀ i < st.shards.length, ShardClosed st i) :
    close lz4 st = ⟨some st.merged, some st.merged_bm, st.shardPath, st.shardBmpPath⟩ := by
  have hfold : ∀ l : List ℕ, (∀ i ∈ l, ShardClosed st i) → l.foldl (closeWriter lz4) st = st := by
    intro l hl
    induction l with
    | nil => rfl
    | cons i l ih =>
      rw [List.foldl_cons, closeWriter_closed (hl i List.mem_cons_self)]
      exact ih fun j hj => hl j (List.mem_cons_of_mem _ hj)
  unfold close
  rw [hfold _ fun i hi => h i (List.mem_range.mp hi)]

theorem length_mergeFirst (lz4 : Lz4) (st : OSMMMap) (k : ℕ) :
    (mergeFirst lz4 st k).shards.length = st.shards.length := by
  induction k with
  | zero => rfl
  | succ k ih =>
    obtain ⟨-, -, -, -, hlen, -⟩ := closeWriter_frame lz4 (mergeFirst lz4 st k) k
    rw [mergeFirst_succ, mergeShard_shards, hlen, ih]

/-- What the destructor leaves behind `merge()`. -/
theorem close_merge (lz4 : Lz4) (st : OSMMMap) : close lz4 (merge lz4 st) =
    ⟨some (merge lz4 st).merged, some (merge lz4 st).merged_bm, (merge lz4 st).shardPath,
      (merge lz4 st).shardBmpPath⟩ := by
  apply close_of_closed
  intro i hi
  have hlen : (merge lz4 st).shards.length = st.shards.length := length_mergeFirst lz4 st _
  exact shardClosed_mergeFirst lz4 st (hlen ▸ hi)

/-! ## Opening -/

/-- Shards are opened for writing only with their sidecars. -/
theorem openStore_no_sidecar (plat : Platform) {disk : Disk} (h : disk.shardBmpPath 0 = none) (max_id : Int64) :
    openStore plat disk max_id 1 true = .error .cannotOpen := by
  have hopen : openShard plat disk 0 = .error .cannotOpen := by
    cases hopens : plat.opens (.shard 0) <;>
      simp [openShard, openAndMap, h, hopens, bind, Except.bind, throw, throwThe, MonadExceptOf.throw]
  have hshards : openShards plat disk 1 true = .error .cannotOpen := by
    simp [openShards, List.range_succ, hopen, bind, Except.bind]
  simp [openStore, hshards, bind, Except.bind]

theorem closedFile_of_stream {i : ℕ} {bs : Bytes} (h : streamAt st i = some bs) :
    closedFile lz4 st i ≠ none := by
  obtain ⟨s, hs, -⟩ := Option.map_eq_some_iff.mp h
  have hget : st.shards[i]? = some (some s) := Option.join_eq_some_iff.mp hs
  simp [closedFile, hget]

/-- The store on disk at the end of an import can be opened on its platform, and reads as it did then. -/
def Reopens (lz4 : Lz4) (max_id : Int64) (open_shards_for_write : Bool) (st : OSMMMap) : Prop :=
  ∃ st', openStore st.platform (close lz4 st) max_id 1 open_shards_for_write = .ok st' ∧
    ∀ id, st'.select id = st.select id

theorem not_reopens {n : ℕ} (hn : 0 < n) (hf : Fresh st max_id n) (chunk_size : ℕ)
    (ops : List ShardOp) (plat : Platform) (max_node_id : Int64) :
    runDeltaStore plat (close lz4 (merge lz4 (filled chunk_size st ops))) max_node_id =
      .error .cannotOpen := by
  have hlen : (filled chunk_size st ops).shards.length = n := by
    rw [(filled_frame chunk_size st ops).2.2.2.2.2, hf.length]
  apply openStore_no_sidecar
  rw [close_merge]
  show (mergeFirst lz4 _ (filled chunk_size st ops).shards.length).shardBmpPath 0 = none
  rw [hlen]
  refine mergeFirst_unlinks (fun i hi => ?_) hn
  have hstream := streamAt_filled chunk_size st ops i
  rw [hf.stream i hi] at hstream
  exact closedFile_of_stream hstream

theorem sized_filled (h : Sized st) (chunk_size : ℕ) (ops : List ShardOp) :
    Sized (filled chunk_size st ops) := by
  obtain ⟨h1, h2, h3, h4, -⟩ := filled_frame chunk_size st ops
  simpa only [Sized, h1, h2, h3, h4] using h

theorem platform_filled (chunk_size : ℕ) (st : OSMMMap) (ops : List ShardOp) :
    (filled chunk_size st ops).platform = st.platform := by
  induction ops generalizing st with
  | nil => rfl
  | cons op ops ih => cases op with
    | insert shard r => exact ih (st.inserted chunk_size shard r)
    | flush shard => exact ih (st.flushShard shard)

theorem reopens_readable {n : ℕ} (hf : Fresh st max_id n) (chunk_size : ℕ) (ops : List ShardOp) :
    Reopens lz4 max_id false (merge lz4 (filled chunk_size st ops)) := by
  obtain ⟨hdsz, hbsz⟩ := sizes_eq hf.covers.bound
  have hsized : Sized (merge lz4 (filled chunk_size st ops)) :=
    sized_mergeFirst (sized_filled hf.sized chunk_size ops) lz4 _
  have hsizes : (merge lz4 (filled chunk_size st ops)).merged_size = dataSz max_id ∧
      (merge lz4 (filled chunk_size st ops)).merged_bm_size = bmSz max_id := by
    obtain ⟨-, h2, -, h4, -⟩ := filled_frame chunk_size st ops
    obtain ⟨m2, m4, -⟩ := mergeFirst_frame lz4 (filled chunk_size st ops) _
    exact ⟨by rw [merge, ← mergeFirst, m2, h2, hf.covers.data, hdsz],
      by rw [merge, ← mergeFirst, m4, h4, hf.covers.bits, hbsz]⟩
  rw [Reopens, close_merge]
  have hplat : (merge lz4 (filled chunk_size st ops)).platform = st.platform := by
    rw [platform_merge, platform_filled]
  refine ⟨_, openStore_readable rfl rfl (hsized.1.trans hsizes.1) (hsized.2.trans hsizes.2)
    ⟨hplat ▸ hf.grants.data.2, hplat ▸ hf.grants.bmp.2⟩ 1, fun id => ?_⟩
  simp only [select, hsizes.1, hsizes.2]

/-! ## The reopening -/

/-- **Reopening.** The store of a finished import is never opened by `runDelta`, whatever the platform
grants. With `open_shards_for_write = false` it is, and it reads as at the end of the import. -/
theorem reopen_iff_readonly (lz4 : Lz4) (chunk_size : ℕ) {max_id : Int64} {n : ℕ} {st : OSMMMap}
    (hn : 0 < n) (hst : Created max_id n st) (ops : List ShardOp) {filledStore : OSMMMap}
    (hrun : runOps chunk_size st ops = .ok filledStore) :
    (∀ plat max_node_id, runDeltaStore plat (close lz4 (merge lz4 filledStore)) max_node_id =
      .error .cannotOpen) ∧
    ∀ open_shards_for_write,
      Reopens lz4 max_id open_shards_for_write (merge lz4 filledStore) ↔ open_shards_for_write = false := by
  obtain rfl := filled_of_run hrun
  have hf := fresh_of_created hst
  refine ⟨fun plat => not_reopens hn hf chunk_size ops plat, fun w => ?_⟩
  cases w with
  | false => exact iff_of_true (reopens_readable hf chunk_size ops) rfl
  | true =>
    refine iff_of_false ?_ Bool.noConfusion
    rintro ⟨st', h, -⟩
    have herr := @not_reopens lz4 _ _ _ hn hf chunk_size ops
      (merge lz4 (filled chunk_size st ops)).platform max_id
    rw [runDeltaStore] at herr
    rw [herr] at h
    cases h

/-- A store with two shards, behind the insert of one node into the first. -/
theorem one_node_stored : ∃ st st₁, Created 10 2 st ∧
    runOps CHUNK_SIZE st [.insert 0 ⟨3, ⟨5⟩, ⟨6⟩⟩] = .ok st₁ := by
  obtain ⟨st, hst, hplat⟩ := created_ten
  have hfit : InsertsFit 10 2 [.insert 0 ⟨3, ⟨5⟩, ⟨6⟩⟩] := by
    simp only [InsertsFit, ShardOp.inserted]
    decide
  exact ⟨st, _, hst, runOps_of_roomy (by decide) (hplat ▸ roomy_plain 2) hfit⟩

/-- Two shards, and one node in the first. -/
theorem reopen_iff_readonly_one_node : ∃ st st₁, Created 10 2 st ∧
    runOps CHUNK_SIZE st [.insert 0 ⟨3, ⟨5⟩, ⟨6⟩⟩] = .ok st₁ ∧
    runDeltaStore .plain (close Lz4.stored (merge Lz4.stored st₁)) 10 = .error .cannotOpen ∧
    Reopens Lz4.stored 10 false (merge Lz4.stored st₁) := by
  obtain ⟨st, st₁, hst, hrun⟩ := one_node_stored
  have h := reopen_iff_readonly Lz4.stored CHUNK_SIZE (by decide) hst _ hrun
  exact ⟨st, st₁, hst, hrun, h.1 .plain 10, (h.2 false).mpr rfl⟩

/-- `runDelta` behind an import of one node with two node threads. -/
theorem delta_cannot_open : ∃ st st₁, Created 10 2 st ∧
    runOps CHUNK_SIZE st [.insert 0 ⟨3, ⟨5⟩, ⟨6⟩⟩] = .ok st₁ ∧
    ¬ Reopens Lz4.stored 10 true (merge Lz4.stored st₁) := by
  obtain ⟨st, st₁, hst, hrun⟩ := one_node_stored
  refine ⟨st, st₁, hst, hrun, ?_⟩
  obtain rfl := filled_of_run hrun
  rintro ⟨st', h, -⟩
  have herr := @not_reopens Lz4.stored _ _ _ (by decide) (fresh_of_created hst) CHUNK_SIZE
    [.insert 0 ⟨3, ⟨5⟩, ⟨6⟩⟩] (merge Lz4.stored (filled CHUNK_SIZE st [.insert 0 ⟨3, ⟨5⟩, ⟨6⟩⟩])).platform 10
  rw [runDeltaStore] at herr
  rw [herr] at h
  cases h

end OSMMMap

end OsmImport
