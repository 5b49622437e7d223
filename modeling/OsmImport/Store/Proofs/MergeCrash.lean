import OsmImport.Store.Proofs.NodeStore

/-!
# Resuming an interrupted `merge()`

What a crash inside `merge()` leaves behind is described by `AtCrash`: the shards below `gone` are
merged and their files unlinked, those from `gone` to `closed` have complete files that are possibly
merged in part, and those from `closed` on are still open, so that only an initial piece of their
frames is in the files. A resumed `merge()` then writes the records of the files that are left
(`select_resumed`). Records of the open shards that had not reached the files are lost, although the
resumed run takes the files to be complete.
-/

namespace OsmImport

open Records

namespace OSMMMap

variable {st : OSMMMap} {max_id : Int64}

/-! ## The shards behind a crash point -/

/-- The writer of shard `k` is not open. -/
def ShardClosed (st : OSMMMap) (k : ℕ) : Prop := st.shards[k]?.join = none

theorem shardClosed_closeWriter (lz4 : Lz4) (st : OSMMMap) (i : ℕ) :
    ShardClosed (closeWriter lz4 st i) i := by
  unfold ShardClosed closeWriter
  cases h : st.shards[i]? with
  | none => simp [h]
  | some o =>
    cases o with
    | none => simp [h]
    | some s =>
      have hi : i < st.shards.length := (List.getElem?_eq_some_iff.mp h).1
      simp [List.getElem?_set_self hi]

theorem mergeShard_shards (lz4 : Lz4) (st : OSMMMap) (i : ℕ) :
    (mergeShard lz4 st i).shards = (closeWriter lz4 st i).shards := by
  unfold mergeShard
  dsimp only
  split
  · rfl
  · exact (foldl_write_shards _ _).1

theorem shardClosed_mergeFirst (lz4 : Lz4) (st : OSMMMap) {k i : ℕ} (h : i < k) :
    ShardClosed (mergeFirst lz4 st k) i := by
  induction k with
  | zero => omega
  | succ k ih =>
    rw [mergeFirst_succ, ShardClosed, mergeShard_shards]
    by_cases hik : i = k
    · subst hik
      exact shardClosed_closeWriter lz4 _ i
    · obtain ⟨-, -, -, -, -, hframe⟩ := closeWriter_frame lz4 (mergeFirst lz4 st k) k
      rw [(hframe i hik).1]
      exact ih (by omega)

theorem streamAt_congr {a b : OSMMMap} {k : ℕ} (h : a.shards[k]? = b.shards[k]?) :
    streamAt a k = streamAt b k := by
  rw [streamAt, h, streamAt]

/-- What is left of the store when `merge()` dies: `recs` are the records of the shards. -/
structure AtCrash (lz4 : Lz4) (st : OSMMMap) (max_id : Int64) (n : ℕ) (recs : ℕ → List Record)
    (gone closed : ℕ) : Prop where
  covers : Covers st max_id
  sized : Sized st
  inRange : ∀ k < n, ∀ r ∈ recs k, InRange max_id r.id
  /-- The first shards are merged, and their files are gone. -/
  unlinked : ∀ k < gone, ShardClosed st k ∧ st.shardPath k = none
  /-- The files of the next ones are complete. -/
  complete : ∀ k, gone ≤ k → k < closed →
    ShardClosed st k ∧ ∃ file, st.shardPath k = some file ∧ shardRecords lz4 file = recs k
  /-- The other ones are open, and their records are in the streams. -/
  opened : ∀ k, closed ≤ k → k < n → streamAt st k = some ((recs k).map Record.pack).flatten
  /-- The merged file, up to the ids of the shards that are merged again. -/
  select : ∀ id, (∀ k, gone ≤ k → k < closed → ∀ r ∈ recs k, r.id ≠ id) →
    st.select id = lastWrite (((List.range gone).flatMap recs).map entry) id

/-- A store before `merge()`: the records of the shards are in the streams, and nothing is merged. -/
structure BeforeMerge (st : OSMMMap) (max_id : Int64) (n : ℕ) (recs : ℕ → List Record) : Prop where
  covers : Covers st max_id
  sized : Sized st
  inRange : ∀ k < n, ∀ r ∈ recs k, InRange max_id r.id
  opened : ∀ k < n, streamAt st k = some ((recs k).map Record.pack).flatten
  select : ∀ id, st.select id = none

variable {lz4 : Lz4} {n : ℕ} {recs : ℕ → List Record}

theorem BeforeMerge.mergeInput (h : BeforeMerge st max_id n recs) {k : ℕ} (hk : k < n) :
    mergeInput lz4 st k = recs k :=
  mergeInput_of_stream lz4 (h.opened k hk)

/-- Between two shards. -/
theorem atCrash_mergeFirst (h : BeforeMerge st max_id n recs) {i : ℕ} (hi : i ≤ n) :
    AtCrash lz4 (mergeFirst lz4 st i) max_id n recs i i := by
  have hin : ∀ k < i, OSMMMap.mergeInput lz4 st k = recs k := fun k hk =>
    h.mergeInput (by omega)
  obtain ⟨hc, hsel, hgone, hsame⟩ := mergeFirst_spec h.covers lz4 i fun k hk => by
    rw [hin k hk]
    exact h.inRange k (by omega)
  refine ⟨hc, sized_mergeFirst h.sized lz4 i, h.inRange,
    fun k hk => ⟨shardClosed_mergeFirst lz4 st hk, hgone k hk⟩, fun k h1 h2 => by omega,
    fun k hk hkn => ?_, fun id _ => ?_⟩
  · rw [streamAt_congr (hsame k hk).1]
    exact h.opened k hkn
  · rw [hsel id, h.select, Option.or_none,
      List.flatMap_congr fun k hk => hin k (List.mem_range.mp hk)]

/-- The flush of an input buffer inside `closeWriter` changes nothing of this. -/
theorem AtCrash.flushShard {gone closed : ℕ} (h : AtCrash lz4 st max_id n recs gone closed)
    (i : ℕ) : AtCrash lz4 (st.flushShard i) max_id n recs gone closed := by
  have hstream := streamAt_modify st i
  have hclosed : ∀ k, ShardClosed st k → ShardClosed (st.flushShard i) k := by
    intro k hk
    unfold ShardClosed OSMMMap.flushShard at *
    rw [List.getElem?_modify]
    cases hs : st.shards[k]? with
    | none => simp
    | some o =>
      have ho : o = none := by simpa [hs] using hk
      by_cases hik : i = k <;> simp [ho, hik]
  refine ⟨⟨h.covers.data, h.covers.bits, h.covers.bound⟩, h.sized, h.inRange,
    fun k hk => ⟨hclosed k (h.unlinked k hk).1, (h.unlinked k hk).2⟩,
    fun k h1 h2 => ⟨hclosed k (h.complete k h1 h2).1, (h.complete k h1 h2).2⟩,
    fun k h1 h2 => ?_, h.select⟩
  have hf := hstream k flushInbuf [] fun s => by rw [stream_flushInbuf, List.append_nil]
  rw [OSMMMap.flushShard, hf, h.opened k h1 h2]
  simp

/-- Closing the writer of the next shard completes its file. -/
theorem AtCrash.closeWriter {i : ℕ} (h : AtCrash lz4 st max_id n recs i i) (hi : i < n) :
    AtCrash lz4 (closeWriter lz4 st i) max_id n recs i (i + 1) := by
  obtain ⟨-, -, -, -, -, hframe⟩ := closeWriter_frame lz4 st i
  have hin := mergeInput_of_stream lz4 (h.opened i le_rfl hi)
  refine ⟨covers_closeWriter h.covers lz4 i, sized_closeWriter h.sized lz4 i, h.inRange,
    fun k hk => ?_, fun k h1 h2 => ?_, fun k h1 h2 => ?_, fun id hid => ?_⟩
  · obtain ⟨hs, hp⟩ := hframe k (by omega)
    rw [ShardClosed, hs, hp]
    exact h.unlinked k hk
  · obtain rfl : k = i := by omega
    refine ⟨shardClosed_closeWriter lz4 st k, ?_⟩
    rw [closeWriter_shardPath]
    cases hf : closedFile lz4 st k with
    | none =>
      have hopen := h.opened k le_rfl hi
      unfold streamAt at hopen
      unfold closedFile at hf
      split at hf
      · cases hf
      · rename_i hno
        cases ho : st.shards[k]? with
        | none => simp [ho] at hopen
        | some o =>
          cases o with
          | none => simp [ho] at hopen
          | some s => exact absurd ho (hno s)
    | some file => exact ⟨file, rfl, by simpa [OSMMMap.mergeInput, hf] using hin⟩
  · rw [streamAt_congr (hframe k (by omega)).1]
    exact h.opened k (by omega) h2
  · rw [select_closeWriter]
    exact h.select id fun k h1 h2 => by omega

/-- Some of the records of a closed shard are written. -/
theorem AtCrash.foldl_write {i : ℕ} (h : AtCrash lz4 st max_id n recs i (i + 1)) (hi : i < n)
    (r : ℕ) :
    AtCrash lz4 (((recs i).take r).foldl writeToMerged st) max_id n recs i (i + 1) := by
  obtain ⟨hs, hp⟩ := foldl_write_shards ((recs i).take r) st
  refine ⟨covers_foldl_write h.covers _, sized_foldl_write h.sized _, h.inRange, fun k hk => ?_,
    fun k h1 h2 => ?_, fun k h1 h2 => ?_, fun id hid => ?_⟩
  · rw [ShardClosed, hs, hp]
    exact h.unlinked k hk
  · rw [ShardClosed, hs, hp]
    exact h.complete k h1 h2
  · rw [streamAt_congr (congrArg (·[k]?) hs)]
    exact h.opened k h1 h2
  · have hmem : ∀ x ∈ (recs i).take r, x ∈ recs i := fun x hx => List.mem_of_mem_take hx
    have hnone : lastWrite (((recs i).take r).map entry) id = none := by
      rw [lastWrite_eq_none_iff, List.map_map, List.mem_map]
      rintro ⟨x, hx, hxid⟩
      exact hid i le_rfl (by omega) x (hmem x hx) hxid
    rw [select_foldl_write h.covers fun x hx => h.inRange i hi x (hmem x hx), hnone,
      Option.none_or]
    exact h.select id hid

/-- A torn write changes the slot of its own id only. -/
theorem select_tornWrite (hc : Covers st max_id) {words : ℕ} {r : Record}
    (hr : InRange max_id r.id) {id : Int64} (hne : r.id ≠ id) :
    (tornWrite words st r).select id = st.select id := by
  have hid : sizeT id ≠ sizeT r.id := fun h => hne (sizeT_inj.mp h).symm
  have hb := hc.bound
  have hr' : sizeT r.id ≤ sizeT max_id := hr
  have h1 : sizeMod (sizeT r.id * REC_SIZE) = sizeT r.id * 16 := Nat.mod_eq_of_lt (by
    simp only [REC_SIZE]; omega)
  have hlen : (r.position.take (8 * words)).length ≤ 16 := by
    have : r.position.length = 16 := by simp [Record.position]
    simp only [List.length_take]
    omega
  unfold tornWrite
  split
  · rfl
  · dsimp only
    split
    · rfl
    · have hc' : Covers { st with
          merged := st.merged.write (sizeT r.id * 16) (r.position.take (8 * words)) } max_id :=
        ⟨hc.data, hc.bits, hc.bound⟩
      have o1 := File.read_write_other st.merged (sizeT r.id * 16) (sizeT id * 16) 8
        (r.position.take (8 * words)) (by omega)
      have o2 := File.read_write_other st.merged (sizeT r.id * 16) (sizeT id * 16 + 8) 8
        (r.position.take (8 * words)) (by omega)
      rw [h1, select_eq hc', select_eq hc]
      simp only [slot, o1, o2]

theorem AtCrash.tornWrite {i : ℕ} (h : AtCrash lz4 st max_id n recs i (i + 1)) (hi : i < n)
    (words : ℕ) {r : Record} (hr : r ∈ recs i) :
    AtCrash lz4 (tornWrite words st r) max_id n recs i (i + 1) := by
  have hframe : ∀ t, t = OSMMMap.tornWrite words st r → t.shards = st.shards ∧
      t.shardPath = st.shardPath ∧ Covers t max_id ∧ Sized t := by
    rintro t rfl
    unfold OSMMMap.tornWrite
    split
    · exact ⟨rfl, rfl, h.covers, h.sized⟩
    · dsimp only
      split
      · exact ⟨rfl, rfl, h.covers, h.sized⟩
      · exact ⟨rfl, rfl, ⟨h.covers.data, h.covers.bits, h.covers.bound⟩, h.sized⟩
  obtain ⟨hs, hp, hc, hz⟩ := hframe _ rfl
  refine ⟨hc, hz, h.inRange, fun k hk => ?_, fun k h1 h2 => ?_, fun k h1 h2 => ?_,
    fun id hid => ?_⟩
  · rw [ShardClosed, hs, hp]
    exact h.unlinked k hk
  · rw [ShardClosed, hs, hp]
    exact h.complete k h1 h2
  · rw [streamAt_congr (congrArg (·[k]?) hs)]
    exact h.opened k h1 h2
  · rw [select_tornWrite h.covers (h.inRange i hi r hr) (hid i le_rfl (by omega) r hr)]
    exact h.select id hid

/-- All records of a shard are written and its file is unlinked. -/
theorem AtCrash.unlink {i : ℕ} (h : AtCrash lz4 st max_id n recs i (i + 1)) (hi : i < n) :
    AtCrash lz4 { (recs i).foldl writeToMerged st with
      shardPath := Function.update ((recs i).foldl writeToMerged st).shardPath i none }
      max_id n recs (i + 1) (i + 1) := by
  obtain ⟨hs, hp⟩ := foldl_write_shards (recs i) st
  have hc := covers_foldl_write h.covers (recs i)
  refine ⟨⟨hc.data, hc.bits, hc.bound⟩, sized_foldl_write h.sized (recs i), h.inRange,
    fun k hk => ?_, fun k h1 h2 => by omega, fun k h1 h2 => ?_, fun id hid => ?_⟩
  · simp only [ShardClosed, hs, hp]
    by_cases hki : k = i
    · subst hki
      exact ⟨(h.complete k le_rfl (by omega)).1, by simp⟩
    · rw [Function.update_of_ne hki]
      exact h.unlinked k (by omega)
  · refine Eq.trans (streamAt_congr ?_) (h.opened k h1 h2)
    exact congrArg (·[k]?) hs
  · have hsel := select_foldl_write h.covers (h.inRange i hi) id
    rw [List.range_succ, List.flatMap_append, List.map_append, lastWrite_append]
    refine hsel.trans ?_
    cases hl : lastWrite ((recs i).map entry) id with
    | some c => simp [hl]
    | none =>
      have hno : ∀ r ∈ recs i, r.id ≠ id := by
        intro r hr hrid
        refine lastWrite_eq_none_iff.mp hl ?_
        rw [List.map_map, List.mem_map]
        exact ⟨r, hr, hrid⟩
      rw [h.select id fun k h1 h2 r hr => by
        obtain rfl : k = i := by omega
        exact hno r hr]
      simp [hl]

/-- The number of shards whose files are gone. -/
def CrashPoint.gone : CrashPoint → ℕ
  | .closing i _ => i
  | .writing i _ _ => i
  | .unlinking i => i + 1

/-- In round `i` the writer is closed first, so that all records of the shard are in its file. -/
theorem atCrash_closeWriter (lz4 : Lz4) (h : BeforeMerge st max_id n recs) {i : ℕ} (hi : i < n) :
    AtCrash lz4 (closeWriter lz4 (mergeFirst lz4 st i) i) max_id n recs i (i + 1) ∧
    ∃ file, (closeWriter lz4 (mergeFirst lz4 st i) i).shardPath i = some file ∧
      shardRecords lz4 file = recs i := by
  have hfirst : AtCrash lz4 (mergeFirst lz4 st i) max_id n recs i i := atCrash_mergeFirst h (by omega)
  have hclose := hfirst.closeWriter hi
  exact ⟨hclose, (hclose.complete i le_rfl (by omega)).2⟩

/-- Every crash point inside `merge()` leaves the store as `AtCrash` says. -/
theorem atCrash_mergeUntil (h : BeforeMerge st max_id n recs) {cp : CrashPoint}
    (hcp : cp.Inside n) :
    AtCrash lz4 (mergeUntil lz4 st cp) max_id n recs cp.gone cp.closed := by
  cases cp with
  | closing i flushed =>
    have hi : i ≤ n := hcp
    cases flushed with
    | false => exact atCrash_mergeFirst h hi
    | true => exact (atCrash_mergeFirst h hi).flushShard i
  | writing i r words =>
    obtain ⟨hi, -⟩ : i < n ∧ words ≤ 2 := hcp
    obtain ⟨hclose, file, hfile, hrecs⟩ := atCrash_closeWriter lz4 h hi
    have hwrite := hclose.foldl_write hi r
    simp only [mergeUntil, hfile, hrecs]
    cases hr : (recs i)[r]? with
    | none => exact hwrite
    | some next => exact hwrite.tornWrite hi words (List.mem_of_getElem? hr)
  | unlinking i =>
    have hi : i < n := hcp
    obtain ⟨hclose, file, hfile, hrecs⟩ := atCrash_closeWriter lz4 h hi
    simp only [mergeUntil, hfile, hrecs]
    exact hclose.unlink hi

/-! ## The resumed merge -/

/-- The records that a file on disk holds. -/
def diskRecords (lz4 : Lz4) (disk : Disk) (k : ℕ) : List Record :=
  ((disk.shardPath k).map (shardRecords lz4)).getD []

/-- The records of shard `k` that the crash leaves: all of them if its writer was closed. -/
def survivors (lz4 : Lz4) (disk : Disk) (closed : ℕ) (recs : ℕ → List Record) (k : ℕ) :
    List Record :=
  if k < closed then recs k else diskRecords lz4 disk k

theorem crash_shardPath_closed (reached : ℕ → ℕ) {k : ℕ} (h : ShardClosed st k) :
    (crash lz4 reached st).shardPath k = st.shardPath k := by
  unfold ShardClosed at h
  unfold crash
  dsimp only
  split
  · rename_i s hs
    simp [hs] at h
  · rfl

/-- The file of an open shard holds an initial piece of its records. -/
theorem diskRecords_opened (reached : ℕ → ℕ) {k : ℕ} {rs : List Record}
    (h : streamAt st k = some (rs.map Record.pack).flatten) :
    diskRecords lz4 (crash lz4 reached st) k <+: rs := by
  obtain ⟨s, hs, hstream⟩ : ∃ s, st.shards[k]? = some (some s) ∧
      stream s = (rs.map Record.pack).flatten := by
    unfold streamAt at h
    cases ho : st.shards[k]? with
    | none => simp [ho] at h
    | some o =>
      cases o with
      | none => simp [ho] at h
      | some s => exact ⟨s, rfl, by simpa [ho] using h⟩
  have hfile : (crash lz4 reached st).shardPath k =
      some ((lz4.encode s.chunks).take (reached k)) := by simp [crash, hs]
  have hpre : (lz4.decode ((lz4.encode s.chunks).take (reached k))).flatten <+:
      (rs.map Record.pack).flatten := by
    rw [← hstream]
    exact (lz4.truncated s.chunks _).trans (List.prefix_append _ _)
  rw [diskRecords, hfile, Option.map_some, Option.getD_some, shardRecords_eq]
  have hcut := (cut_initial (w := 24) (by omega) hpre).map Record.unpack
  rwa [cut_pack] at hcut

/-- What `-R merge` opens is what the crash left: the maps have their sizes already. -/
theorem openStore_crash (hc : Covers st max_id) (hz : Sized st)
    {plat : Platform} (hmaps : plat.Maps .data (dataSz max_id) ∧ plat.Maps .bmp (bmSz max_id))
    (reached : ℕ → ℕ) (n : ℕ) :
    openStore plat (crash lz4 reached st) max_id n false = .ok { st with
      shards := List.replicate n none
      shardPath := (crash lz4 reached st).shardPath
      platform := plat } := by
  obtain ⟨hdsz, hbsz⟩ := sizes_eq hc.bound
  have hd : st.merged.size = dataSz max_id := by rw [hz.1, hc.data, hdsz]
  have hb : st.merged_bm.size = bmSz max_id := by rw [hz.2, hc.bits, hbsz]
  have e1 : dataSz max_id = st.merged_size := by rw [hdsz, hc.data]
  have e2 : bmSz max_id = st.merged_bm_size := by rw [hbsz, hc.bits]
  have hopen := @openStore_readable plat (crash lz4 reached st) _ _ _ rfl rfl hd hb hmaps n
  rw [hopen, e1, e2]
  rfl

/-- What a round of the resumed merge reads: nothing of the files that were gone, else what survived. -/
theorem mergeInput_resumed {gone closed : ℕ} (h : AtCrash lz4 st max_id n recs gone closed)
    (reached : ℕ → ℕ) {st' : OSMMMap} {k : ℕ}
    (hfile : closedFile lz4 st' k = (crash lz4 reached st).shardPath k) : mergeInput lz4 st' k =
      if k < gone then [] else survivors lz4 (crash lz4 reached st) closed recs k := by
  rw [mergeInput, hfile]
  by_cases h1 : k < gone
  · rw [crash_shardPath_closed reached (h.unlinked k h1).1, (h.unlinked k h1).2]
    simp [h1]
  · by_cases h2 : k < closed
    · obtain ⟨hshut, file, hf, hrecs⟩ := h.complete k (by omega) h2
      rw [crash_shardPath_closed reached hshut, hf]
      simp [h1, survivors, h2, hrecs]
    · simp [h1, survivors, h2, diskRecords]

/-- What survives of a shard is an initial piece of its records. -/
theorem survivors_initial {gone closed : ℕ} (h : AtCrash lz4 st max_id n recs gone closed)
    (reached : ℕ → ℕ) {k : ℕ} (hk : k < n) :
    survivors lz4 (crash lz4 reached st) closed recs k <+: recs k := by
  unfold survivors
  split
  · exact List.prefix_rfl
  · exact diskRecords_opened reached (h.opened k (by omega) hk)

theorem flatMap_range_add {β : Type*} (f : ℕ → List β) (a b : ℕ) :
    (List.range (a + b)).flatMap f =
      (List.range a).flatMap f ++ (List.range b).flatMap fun k => f (a + k) := by
  rw [List.range_add, List.flatMap_append, List.flatMap_map]

/-- Nothing comes from the first ones. -/
theorem flatMap_range_behind {β : Type*} (f : ℕ → List β) (a b : ℕ) :
    (List.range (a + b)).flatMap (fun k => if k < a then [] else f k) =
      (List.range b).flatMap fun k => f (a + k) := by
  have hnil : ((List.range a).flatMap fun k => if k < a then [] else f k) = [] := by
    rw [List.flatMap_eq_nil_iff]
    intro k hk
    simp [List.mem_range.mp hk]
  rw [flatMap_range_add, hnil, List.nil_append]
  exact List.flatMap_congr fun k _ => by simp

/-- The resumed merge gives the last of the records that survived. -/
theorem select_resumed {gone closed : ℕ} (h : AtCrash lz4 st max_id n recs gone closed)
    (hgone : gone ≤ closed) (hn : closed ≤ n)
    {plat : Platform} (hmaps : plat.Maps .data (dataSz max_id) ∧ plat.Maps .bmp (bmSz max_id))
    (reached : ℕ → ℕ) :
    ∃ st', openStore plat (crash lz4 reached st) max_id n false = .ok st' ∧
      ∀ id, (merge lz4 st').select id =
        lastWrite (((List.range n).flatMap
          (survivors lz4 (crash lz4 reached st) closed recs)).map entry) id := by
  refine ⟨_, openStore_crash h.covers h.sized hmaps reached n, fun id => ?_⟩
  obtain ⟨st', hst'⟩ : ∃ st' : OSMMMap, { st with
      shards := List.replicate n none
      shardPath := (crash lz4 reached st).shardPath
      platform := plat } = st' := ⟨_, rfl⟩
  have hcov : Covers st' max_id := by
    subst hst'
    exact ⟨h.covers.data, h.covers.bits, h.covers.bound⟩
  have hlen : st'.shards.length = n := by subst hst'; simp
  have hsel : st'.select id = st.select id := by subst hst'; rfl
  have hin : ∀ k < n, mergeInput lz4 st' k =
      if k < gone then [] else survivors lz4 (crash lz4 reached st) closed recs k := by
    intro k hk
    refine mergeInput_resumed h reached ?_
    subst hst'
    simp [closedFile, hk]
  have hmerge := select_merge hcov lz4 (fun k hk r hr => by
    rw [hlen] at hk
    rw [hin k hk] at hr
    split at hr
    · cases hr
    · exact h.inRange k hk r ((survivors_initial h reached hk).subset hr)) id
  -- the shards whose files are gone, and the others
  obtain ⟨m, rfl⟩ : ∃ m, n = gone + m := ⟨n - gone, by omega⟩
  have hleft : (List.range (gone + m)).flatMap (mergeInput lz4 st') = (List.range m).flatMap
      fun k => survivors lz4 (crash lz4 reached st) closed recs (gone + k) := by
    rw [List.flatMap_congr fun k hk => hin k (List.mem_range.mp hk), flatMap_range_behind]
  have hfirst : (List.range gone).flatMap (survivors lz4 (crash lz4 reached st) closed recs) =
      (List.range gone).flatMap recs := by
    refine List.flatMap_congr fun k hk => ?_
    have hk' := List.mem_range.mp hk
    rw [survivors, if_pos (by omega)]
  rw [hst', hmerge, hlen, hleft, hsel, flatMap_range_add, hfirst, List.map_append, lastWrite_append]
  cases hl : lastWrite (((List.range m).flatMap fun k =>
      survivors lz4 (crash lz4 reached st) closed recs (gone + k)).map entry) id with
  | some c => simp
  | none =>
    rw [Option.none_or, Option.none_or]
    refine h.select id fun k h1 h2 r hr hrid => ?_
    refine lastWrite_eq_none_iff.mp hl ?_
    rw [List.map_map, List.mem_map]
    refine ⟨r, List.mem_flatMap.mpr ⟨k - gone, List.mem_range.mpr (by omega), ?_⟩, hrid⟩
    rw [show gone + (k - gone) = k by omega, survivors, if_pos h2]
    exact hr

/-! ## What is lost -/

/-- The records of shard `k` that are not in its file. -/
def lostRecords (lz4 : Lz4) (disk : Disk) (closed : ℕ) (recs : ℕ → List Record) (k : ℕ) :
    List Record :=
  (recs k).drop (survivors lz4 disk closed recs k).length

theorem survivors_append_lost {gone closed : ℕ} (h : AtCrash lz4 st max_id n recs gone closed)
    (reached : ℕ → ℕ) {k : ℕ} (hk : k < n) :
    survivors lz4 (crash lz4 reached st) closed recs k ++
      lostRecords lz4 (crash lz4 reached st) closed recs k = recs k := by
  obtain ⟨t, ht⟩ := survivors_initial h reached hk
  rw [lostRecords, ← ht, List.drop_left]

section

variable {disk : Disk} {closed : ℕ}

/-- An id without a lost record has the same last record. -/
theorem lastWrite_survivors {id : Int64}
    (happ : ∀ k < n, survivors lz4 disk closed recs k ++ lostRecords lz4 disk closed recs k = recs k)
    (hid : ∀ k < n, ∀ r ∈ lostRecords lz4 disk closed recs k, r.id ≠ id) :
    lastWrite (((List.range n).flatMap (survivors lz4 disk closed recs)).map entry) id =
      lastWrite (((List.range n).flatMap recs).map entry) id := by
  have hfilter : ∀ f : ℕ → List Record,
      (((List.range n).flatMap f).map entry).filter (fun p => p.1 = id) =
        (List.range n).flatMap fun k => ((f k).map entry).filter fun p => p.1 = id := by
    intro f
    rw [List.map_flatMap, List.filter_flatMap]
  have hsame : (((List.range n).flatMap (survivors lz4 disk closed recs)).map entry).filter
      (fun p => p.1 = id) = (((List.range n).flatMap recs).map entry).filter fun p => p.1 = id := by
    rw [hfilter, hfilter]
    refine List.flatMap_congr fun k hk => ?_
    have hk' := List.mem_range.mp hk
    have hnone : ((lostRecords lz4 disk closed recs k).map entry).filter (fun p => p.1 = id) = [] := by
      rw [List.filter_eq_nil_iff]
      intro p hp
      obtain ⟨r, hr, rfl⟩ := List.mem_map.mp hp
      simp [entry, hid k hk' r hr]
    rw [← happ k hk', List.map_append, List.filter_append, hnone, List.append_nil]
  rw [← lastWrite_filter, hsame, lastWrite_filter]

/-- With distinct ids, a lost record leaves its id without coordinates. -/
theorem lastWrite_lost (hnd : (((List.range n).flatMap recs).map Record.id).Nodup)
    (happ : ∀ k < n, survivors lz4 disk closed recs k ++ lostRecords lz4 disk closed recs k = recs k)
    {k : ℕ} (hk : k < n) {r : Record} (hr : r ∈ lostRecords lz4 disk closed recs k) :
    lastWrite (((List.range n).flatMap (survivors lz4 disk closed recs)).map entry) r.id ≠
      lastWrite (((List.range n).flatMap recs).map entry) r.id := by
  have hall : (List.range n).flatMap recs = (List.range n).flatMap fun k =>
      survivors lz4 disk closed recs k ++ lostRecords lz4 disk closed recs k :=
    List.flatMap_congr fun k hk => (happ k (List.mem_range.mp hk)).symm
  have hperm := List.flatMap_append_perm (List.range n) (survivors lz4 disk closed recs)
    (lostRecords lz4 disk closed recs)
  rw [← hall] at hperm
  have hmem : r ∈ (List.range n).flatMap (lostRecords lz4 disk closed recs) :=
    List.mem_flatMap.mpr ⟨k, List.mem_range.mpr hk, hr⟩
  have hnone : lastWrite
      (((List.range n).flatMap (survivors lz4 disk closed recs)).map entry) r.id = none := by
    rw [lastWrite_eq_none_iff, List.map_map, List.mem_map]
    rintro ⟨x, hx, hxid⟩
    have hnd' := (hperm.map Record.id).nodup_iff.mpr hnd
    rw [List.map_append] at hnd'
    exact List.disjoint_of_nodup_append hnd' (List.mem_map_of_mem (f := Record.id) hx)
      (List.mem_map.mpr ⟨r, hmem, hxid.symm⟩)
  rw [hnone]
  intro h
  refine lastWrite_eq_none_iff.mp h.symm ?_
  rw [List.map_map, List.mem_map]
  exact ⟨r, hperm.subset (List.mem_append_right _ hmem), rfl⟩

/-- The last records agree if those of the lost records do. -/
theorem lastWrite_survivors_iff
    (happ : ∀ k < n, survivors lz4 disk closed recs k ++ lostRecords lz4 disk closed recs k = recs k) :
    (∀ id, lastWrite (((List.range n).flatMap (survivors lz4 disk closed recs)).map entry) id =
        lastWrite (((List.range n).flatMap recs).map entry) id) ↔
      ∀ k < n, ∀ r ∈ lostRecords lz4 disk closed recs k,
        lastWrite (((List.range n).flatMap (survivors lz4 disk closed recs)).map entry) r.id =
          lastWrite (((List.range n).flatMap recs).map entry) r.id := by
  constructor
  · exact fun h k _ r _ => h r.id
  · intro h id
    by_cases hid : ∀ k < n, ∀ r ∈ lostRecords lz4 disk closed recs k, r.id ≠ id
    · exact lastWrite_survivors happ hid
    · push Not at hid
      obtain ⟨k, hk, r, hr, rfl⟩ := hid
      exact h k hk r hr

/-- With distinct ids they agree only if no record is lost. -/
theorem lastWrite_lost_iff (hnd : (((List.range n).flatMap recs).map Record.id).Nodup)
    (happ : ∀ k < n, survivors lz4 disk closed recs k ++ lostRecords lz4 disk closed recs k = recs k) :
    (∀ k < n, ∀ r ∈ lostRecords lz4 disk closed recs k,
        lastWrite (((List.range n).flatMap (survivors lz4 disk closed recs)).map entry) r.id =
          lastWrite (((List.range n).flatMap recs).map entry) r.id) ↔
      ∀ k, closed ≤ k → k < n → diskRecords lz4 disk k = recs k := by
  constructor
  · intro h k hck hk
    have hnone : lostRecords lz4 disk closed recs k = [] := by
      rw [List.eq_nil_iff_forall_not_mem]
      exact fun r hr => lastWrite_lost hnd happ hk hr (h k hk r hr)
    have hk' := happ k hk
    rw [hnone, List.append_nil, survivors, if_neg (by omega)] at hk'
    exact hk'
  · intro h k hk r hr
    have hsurv : survivors lz4 disk closed recs k = recs k := by
      unfold survivors
      split
      · rfl
      · exact h k (by omega) hk
    rw [lostRecords, hsurv, List.drop_length] at hr
    cases hr

end

theorem beforeMerge_of_fresh (hf : Fresh st max_id n) (chunk_size : ℕ) (ops : List ShardOp)
    (hin : ∀ i < n, ∀ r ∈ recordsAt ops i, InRange max_id r.id) :
    BeforeMerge (filled chunk_size st ops) max_id n (recordsAt ops) := by
  obtain ⟨h1, h2, h3, h4, -⟩ := filled_frame chunk_size st ops
  refine ⟨covers_filled hf.covers chunk_size ops, ?_, hin, fun k hk => ?_, fun id => ?_⟩
  · simpa only [Sized, h1, h2, h3, h4] using hf.sized
  · rw [streamAt_filled, hf.stream k hk]
    rfl
  · rw [select_filled, hf.select]

theorem CrashPoint.gone_le_closed (cp : CrashPoint) : cp.gone ≤ cp.closed := by
  cases cp <;> simp [CrashPoint.gone, CrashPoint.closed]

theorem CrashPoint.Inside.closed_le {cp : CrashPoint} (h : cp.Inside n) : cp.closed ≤ n := by
  cases cp with
  | closing i flushed => exact h
  | writing i r words => exact h.1
  | unlinking i => exact h

/-- A merge that dies behind these steps, and is done again. -/
theorem exists_remerged (hf : Fresh st max_id n) (chunk_size : ℕ) (ops : List ShardOp)
    (hfit : InsertsFit max_id n ops) {cp : CrashPoint} (hcp : cp.Inside n) (reached : ℕ → ℕ) :
    let disk := crash lz4 reached (mergeUntil lz4 (filled chunk_size st ops) cp)
    ∃ resumed, openStore st.platform disk max_id n false = .ok resumed ∧
      ((∀ id, (merge lz4 resumed).select id = (merge lz4 (filled chunk_size st ops)).select id) ↔
        ∀ k < n, ∀ r ∈ lostRecords lz4 disk cp.closed (recordsAt ops) k,
          lastWrite (((List.range n).flatMap
            (survivors lz4 disk cp.closed (recordsAt ops))).map entry) r.id =
          lastWrite ((shardMajor n ops).map entry) r.id) ∧
      (((ops.filterMap ShardOp.inserted).map fun p => p.2.id).Nodup →
        ((∀ id, (merge lz4 resumed).select id = (merge lz4 (filled chunk_size st ops)).select id) ↔
          ∀ k, cp.closed ≤ k → k < n → diskRecords lz4 disk k = recordsAt ops k)) := by
  intro disk
  have hin : ∀ i < n, ∀ r ∈ recordsAt ops i, InRange max_id r.id := fun i _ =>
    inRange_recordsAt hf.covers.nonneg hfit i
  have hat : AtCrash lz4 (mergeUntil lz4 (filled chunk_size st ops) cp) max_id n (recordsAt ops) cp.gone
      cp.closed := atCrash_mergeUntil (beforeMerge_of_fresh hf chunk_size ops hin) hcp
  have happ : ∀ k < n, survivors lz4 disk cp.closed (recordsAt ops) k ++
      lostRecords lz4 disk cp.closed (recordsAt ops) k = recordsAt ops k := fun k hk =>
    survivors_append_lost hat reached hk
  obtain ⟨resumed, hopen, hsel⟩ := select_resumed hat cp.gone_le_closed hcp.closed_le
    ⟨hf.grants.data.2, hf.grants.bmp.2⟩ reached
  have hfull : ∀ id, (merge lz4 (filled chunk_size st ops)).select id =
      lastWrite ((shardMajor n ops).map entry) id := fun id => select_merge_fresh lz4 hf chunk_size ops hin id
  have hiff : (∀ id, (merge lz4 resumed).select id = (merge lz4 (filled chunk_size st ops)).select id) ↔
      ∀ k < n, ∀ r ∈ lostRecords lz4 disk cp.closed (recordsAt ops) k,
        lastWrite (((List.range n).flatMap
          (survivors lz4 disk cp.closed (recordsAt ops))).map entry) r.id =
        lastWrite ((shardMajor n ops).map entry) r.id := by
    refine Iff.trans (forall_congr' fun id => ?_) (lastWrite_survivors_iff happ)
    rw [hsel, hfull]
    rfl
  have hdistinct : ((ops.filterMap ShardOp.inserted).map fun p => p.2.id).Nodup →
      ((shardMajor n ops).map Record.id).Nodup := by
    intro hnd
    refine (((shardMajor_perm fun p hp => (hfit p hp).1).map Record.id).nodup_iff).mpr ?_
    rwa [List.map_map]
  exact ⟨resumed, hopen, hiff, fun hnd => hiff.trans (lastWrite_lost_iff (hdistinct hnd) happ)⟩

/-- **Resuming an interrupted merge.** The resumed merge gives the coordinates of the uninterrupted one
if and only if no id loses its last record to the files that were still open: for each record that had
not reached its file, what survives has the same last coordinates of its id. With distinct ids that
means that the files of the open shards were complete already. -/
theorem merge_resume_iff (lz4 : Lz4) (chunk_size : ℕ) {max_id : Int64} {n : ℕ} {st : OSMMMap}
    (hst : Created max_id n st) (ops : List ShardOp) (hfit : InsertsFit max_id n ops) {before : OSMMMap}
    (hrun : runOps chunk_size st ops = .ok before) (cp : CrashPoint) (hcp : cp.Inside n)
    (reached : ℕ → ℕ) :
    let disk := crash lz4 reached (mergeUntil lz4 before cp)
    ∃ resumed, openStore st.platform disk max_id n false = .ok resumed ∧
      ((∀ id, (merge lz4 resumed).select id = (merge lz4 before).select id) ↔
        ∀ k < n, ∀ r ∈ lostRecords lz4 disk cp.closed (recordsAt ops) k,
          lastWrite (((List.range n).flatMap
            (survivors lz4 disk cp.closed (recordsAt ops))).map entry) r.id =
          lastWrite ((shardMajor n ops).map entry) r.id) ∧
      (((ops.filterMap ShardOp.inserted).map fun p => p.2.id).Nodup →
        ((∀ id, (merge lz4 resumed).select id = (merge lz4 before).select id) ↔
          ∀ k, cp.closed ≤ k → k < n → diskRecords lz4 disk k = recordsAt ops k)) := by
  obtain rfl := filled_of_run hrun
  exact exists_remerged (fresh_of_created hst) chunk_size ops hfit hcp reached

theorem created_ten_one : ∃ st, Created 10 1 st ∧ st.platform = .plain :=
  ⟨_, ⟨.plain, emptyDisk, _, createFile_eq (createsStore_ten 1), openStore_blank (createsStore_ten 1)⟩, rfl⟩

/-- The only shard is closed when the process dies in the middle of the first record. -/
theorem merge_resume_iff_one_node : ∃ st, Created 10 1 st ∧ ∃ before resumed,
    runOps CHUNK_SIZE st [.insert 0 ⟨3, ⟨7⟩, ⟨8⟩⟩] = .ok before ∧
    openStore st.platform (crash Lz4.stored (fun _ => 0) (mergeUntil Lz4.stored before (.writing 0 0 1)))
      10 1 false = .ok resumed ∧
    ∀ id, (merge Lz4.stored resumed).select id = (merge Lz4.stored before).select id := by
  obtain ⟨st, hst, hplat⟩ := created_ten_one
  have hfit : InsertsFit 10 1 [.insert 0 ⟨3, ⟨7⟩, ⟨8⟩⟩] := by
    simp only [InsertsFit, ShardOp.inserted]
    decide
  have hrun := @runOps_of_roomy CHUNK_SIZE st 10 1 _ (by decide) (hplat ▸ roomy_plain 1) hfit
  obtain ⟨resumed, hopen, -, hdistinct⟩ := merge_resume_iff Lz4.stored CHUNK_SIZE
    hst _ hfit hrun (.writing 0 0 1) ⟨by decide, by decide⟩ fun _ => 0
  refine ⟨st, hst, _, resumed, hrun, hopen, (hdistinct (by decide)).mpr fun k h1 h2 => ?_⟩
  simp only [CrashPoint.closed] at h1
  omega

/-- Node 3 is still in the input buffer of its shard when the process dies at the start of `merge()`:
the resumed merge does not find it. -/
theorem merge_crash_loses_node : ∃ disk st before resumed,
    createFile .plain emptyDisk 10 1 = .ok disk ∧ openStore .plain disk 10 1 true = .ok st ∧
    runOps CHUNK_SIZE st [.insert 0 ⟨3, ⟨7⟩, ⟨8⟩⟩] = .ok before ∧
    openStore .plain (crash Lz4.stored (fun _ => 0) (mergeUntil Lz4.stored before (.closing 0 false))) 10 1
      false = .ok resumed ∧
    (merge Lz4.stored before).select 3 = some (⟨7⟩, ⟨8⟩) ∧
    (merge Lz4.stored resumed).select 3 = none :=
  ⟨_, _, _, _, rfl, rfl, rfl, rfl, by decide, by decide⟩

end OSMMMap

end OsmImport
