import OsmImport.Lib.Partition
import OsmImport.Store.Proofs.Opening

/-!
# The node store is a map

From a freshly created store, through the node phase and `merge()`, `select` is the map of the last
records in shard-major order. The position at which the input buffer of a shard is handed to LZ4 does
not matter: what counts is the stream of a writer, and every step of the node phase only appends to it.
-/

namespace OsmImport

namespace OSMMMap

/-! ## The stream of a shard -/

/-- One step of the node phase on the shards: an insert, or a flush of an input buffer. -/
inductive ShardOp where
  | insert (shard : ℕ) (r : Record)
  | flush (shard : ℕ)

/-- A step on the store. -/
def ShardOp.run (chunk_size : ℕ) (st : OSMMMap) : ShardOp → Except StoreError OSMMMap
  | .insert shard r => st.insert chunk_size shard r
  | .flush shard => .ok (st.flushShard shard)

/-- The node phase, up to the first insert that throws. -/
def runOps (chunk_size : ℕ) (st : OSMMMap) (ops : List ShardOp) : Except StoreError OSMMMap :=
  ops.foldlM (ShardOp.run chunk_size) st

/-- The store behind a step that returns. -/
def ShardOp.effect (chunk_size : ℕ) (st : OSMMMap) : ShardOp → OSMMMap
  | .insert shard r => st.inserted chunk_size shard r
  | .flush shard => st.flushShard shard

/-- The store behind a node phase that returns. -/
def filled (chunk_size : ℕ) (st : OSMMMap) (ops : List ShardOp) : OSMMMap :=
  ops.foldl (ShardOp.effect chunk_size) st

/-- A node phase that returns has the effects of its steps. -/
theorem filled_of_run {chunk_size : ℕ} {st st' : OSMMMap} {ops : List ShardOp}
    (h : runOps chunk_size st ops = .ok st') : st' = filled chunk_size st ops := by
  induction ops generalizing st with
  | nil => exact (Except.ok.inj h).symm
  | cons op ops ih =>
    rw [runOps, List.foldlM_cons] at h
    obtain ⟨st₁, hop, hrest⟩ := bind_ok h
    have hst : st₁ = ShardOp.effect chunk_size st op := by
      cases op with
      | insert shard r => exact (insert_eq_ok.mp hop).2
      | flush shard => exact (Except.ok.inj hop).symm
    rw [ih hrest, hst]
    rfl

/-- One more insert that returns. -/
theorem runOps_insert {chunk_size : ℕ} {st st₁ st₂ : OSMMMap} {ops : List ShardOp} {shard : ℕ} {r : Record}
    (hrun : runOps chunk_size st ops = .ok st₁) (hins : st₁.insert chunk_size shard r = .ok st₂) :
    runOps chunk_size st (ops ++ [.insert shard r]) = .ok st₂ := by
  have hlast : [ShardOp.insert shard r].foldlM (ShardOp.run chunk_size) st₁ = .ok st₂ := by
    rw [List.foldlM_cons, show ShardOp.run chunk_size st₁ (.insert shard r) = _ from hins]
    rfl
  rw [runOps] at hrun ⊢
  rw [List.foldlM_append, hrun]
  exact hlast

/-- The record that a step gives to shard `i`. -/
def ShardOp.recordAt (i : ℕ) : ShardOp → Option Record
  | .insert shard r => if shard = i then some r else none
  | .flush _ => none

/-- The inserts with their shards. -/
def ShardOp.inserted : ShardOp → Option (ℕ × Record)
  | .insert shard r => some (shard, r)
  | .flush _ => none

/-- The records of shard `i`, in the order of the inserts. -/
def recordsAt (ops : List ShardOp) (i : ℕ) : List Record := ops.filterMap (ShardOp.recordAt i)

/-- All records, shard after shard. -/
def shardMajor (n : ℕ) (ops : List ShardOp) : List Record :=
  (List.range n).flatMap (recordsAt ops)

/-- Everything that was appended to a shard: what LZ4 has and what is still buffered. -/
def stream (s : ShardWriter) : Bytes := s.chunks.flatten ++ s.inbuf

theorem stream_flushInbuf (s : ShardWriter) : stream (flushInbuf s) = stream s := by
  unfold flushInbuf
  split
  · rfl
  · simp [stream]

/-- Once flushed, the stream is what LZ4 has. -/
theorem flushInbuf_chunks (s : ShardWriter) : (flushInbuf s).chunks.flatten = stream s := by
  unfold flushInbuf
  split
  · rename_i h
    simp [stream, List.isEmpty_iff.mp h]
  · simp [stream]

theorem stream_appendRecord (chunk_size : ℕ) (s : ShardWriter) (r : Record) :
    stream (appendRecord chunk_size s r) = stream s ++ r.pack := by
  have happ : ∀ t : ShardWriter, stream { t with inbuf := t.inbuf ++ r.pack } =
      stream t ++ r.pack := fun t => by simp [stream]
  have hbm : ∀ (t : ShardWriter) (b : File), stream { t with bm := b } = stream t :=
    fun _ _ => rfl
  simp only [appendRecord, hbm]
  split
  · rw [stream_flushInbuf, happ]
  · rw [happ]

theorem stream_withBit (s : ShardWriter) (id : Int64) : stream (withBit s id) = stream s := by
  unfold withBit
  split <;> rfl

/-- The stream of shard `i`, if it is open for writing. -/
def streamAt (st : OSMMMap) (i : ℕ) : Option Bytes := (st.shards[i]?.join).map stream

theorem streamAt_modify (st : OSMMMap) (k i : ℕ) (f : ShardWriter → ShardWriter) (bs : Bytes)
    (hf : ∀ s, stream (f s) = stream s ++ bs) :
    streamAt { st with shards := st.shards.modify k (Option.map f) } i =
      (streamAt st i).map (· ++ if k = i then bs else []) := by
  unfold streamAt
  rw [List.getElem?_modify]
  cases hs : st.shards[i]? with
  | none => simp
  | some o =>
    cases o with
    | none => by_cases hk : k = i <;> simp [hk]
    | some s => by_cases hk : k = i <;> simp [hk, hf]

/-- The node phase appends to the stream of each shard the records inserted into it. -/
theorem streamAt_filled (chunk_size : ℕ) (st : OSMMMap) (ops : List ShardOp) (i : ℕ) :
    streamAt (filled chunk_size st ops) i =
      (streamAt st i).map (· ++ ((recordsAt ops i).map Record.pack).flatten) := by
  induction ops generalizing st with
  | nil => simp [filled, recordsAt]
  | cons op ops ih =>
    cases op with
    | insert k r =>
      have h := streamAt_modify st k i (fun s => appendRecord chunk_size (withBit s r.id) r) r.pack
        (fun s => by rw [stream_appendRecord, stream_withBit])
      have hstep : filled chunk_size st (.insert k r :: ops) =
        filled chunk_size (st.inserted chunk_size k r) ops := rfl
      rw [hstep, ih, inserted, h, Option.map_map]
      by_cases hk : k = i <;> simp [recordsAt, ShardOp.recordAt, hk, Function.comp_def]
    | flush k =>
      have h := streamAt_modify st k i flushInbuf []
        (fun s => by rw [stream_flushInbuf, List.append_nil])
      have hstep : filled chunk_size st (.flush k :: ops) =
        filled chunk_size (st.flushShard k) ops := rfl
      have hrec : recordsAt (.flush k :: ops) i = recordsAt ops i := rfl
      rw [hstep, ih, flushShard, h, Option.map_map, hrec]
      simp [Function.comp_def]

/-- The node phase changes the shard writers only. -/
theorem filled_frame (chunk_size : ℕ) (st : OSMMMap) (ops : List ShardOp) :
    (filled chunk_size st ops).merged = st.merged ∧
    (filled chunk_size st ops).merged_size = st.merged_size ∧
    (filled chunk_size st ops).merged_bm = st.merged_bm ∧
    (filled chunk_size st ops).merged_bm_size = st.merged_bm_size ∧
    (filled chunk_size st ops).shardPath = st.shardPath ∧
    (filled chunk_size st ops).shards.length = st.shards.length := by
  induction ops generalizing st with
  | nil => exact ⟨rfl, rfl, rfl, rfl, rfl, rfl⟩
  | cons op ops ih =>
    cases op with
    | insert k r =>
      obtain ⟨h1, h2, h3, h4, h5, h6⟩ := ih (st.inserted chunk_size k r)
      exact ⟨h1, h2, h3, h4, h5, h6.trans (List.length_modify ..)⟩
    | flush k =>
      obtain ⟨h1, h2, h3, h4, h5, h6⟩ := ih (st.flushShard k)
      exact ⟨h1, h2, h3, h4, h5, h6.trans (List.length_modify ..)⟩

theorem select_filled (chunk_size : ℕ) (st : OSMMMap) (ops : List ShardOp) (j : Int64) :
    (filled chunk_size st ops).select j = st.select j := by
  obtain ⟨h1, h2, h3, h4, -⟩ := filled_frame chunk_size st ops
  simp only [select, h1, h2, h3, h4]

theorem covers_filled {st : OSMMMap} {max_id : Int64} (hc : Covers st max_id) (chunk_size : ℕ)
    (ops : List ShardOp) : Covers (filled chunk_size st ops) max_id := by
  obtain ⟨-, h2, -, h4, -⟩ := filled_frame chunk_size st ops
  exact ⟨by rw [h2, hc.data], by rw [h4, hc.bits], hc.bound⟩

/-- A shard with a stream has a writer. -/
theorem open_of_streamAt {st : OSMMMap} {i : ℕ} {bs : Bytes} (h : streamAt st i = some bs) :
    ∃ s, st.shards[i]? = some (some s) ∧ stream s = bs := by
  unfold streamAt at h
  cases ho : st.shards[i]? with
  | none => simp [ho] at h
  | some o =>
    cases o with
    | none => simp [ho] at h
    | some s => exact ⟨s, rfl, by simpa [ho] using h⟩

/-- `merge()` reads back the records of a shard that is open for writing. -/
theorem mergeInput_of_stream (lz4 : Lz4) {st : OSMMMap} {i : ℕ} {rs : List Record}
    (h : streamAt st i = some (rs.map Record.pack).flatten) : mergeInput lz4 st i = rs := by
  obtain ⟨s, hs, hstream⟩ := open_of_streamAt h
  have hfile : closedFile lz4 st i = some (lz4.encode (flushInbuf s).chunks) := by
    simp [closedFile, hs]
  rw [mergeInput, hfile, Option.map_some, Option.getD_some, shardRecords_eq, lz4.lossless,
    flushInbuf_chunks, hstream, cut_pack]

/-! ## A freshly created store -/

/-- A store as the constructor leaves it behind `createFile`: maps of the right size without any id,
and `n` empty shards open for writing. -/
structure Fresh (st : OSMMMap) (max_id : Int64) (n : ℕ) : Prop where
  covers : Covers st max_id
  sized : Sized st
  select : ∀ j, st.select j = none
  length : st.shards.length = n
  stream : ∀ i < n, streamAt st i = some []
  grants : st.platform.CreatesStore max_id n
  mapped : st.Mapped

/-- What `createFile` and the constructor give. -/
theorem fresh_of_created {max_id : Int64} {n : ℕ} {st : OSMMMap} (h : Created max_id n st) :
    Fresh st max_id n := by
  obtain ⟨plat, disk, d, hcreate, hopen⟩ := h
  have hcovers := covers_of_open hopen
  obtain ⟨hgrants, rfl⟩ := eq_blankStore hcreate hopen
  refine ⟨hcovers, ⟨rfl, rfl⟩, fun j => ?_, ?_, fun i hi => ?_, hgrants, fun i s hs => ?_⟩
  · have hz : bitmapGet (File.blank (bmSz max_id)) (bmSz max_id) j = false := by
      rw [bitmapGet_eq]
      simp [File.blank]
    simp [OSMMMap.select, blankStore, hz]
  · simp [blankStore]
  · simp [streamAt, blankStore, hi, OSMMMap.stream]
  · have hshards : (blankStore plat disk max_id n).shards =
        (List.range n).map fun _ => some ⟨[], [], File.blank (2 ^ 20)⟩ := rfl
    rw [hshards, List.getElem?_map] at hs
    obtain ⟨i, -, ⟨⟩⟩ := Option.map_eq_some_iff.mp hs
    exact by decide

/-- A fresh store, after the node phase and `merge()`. -/
theorem select_merge_fresh (lz4 : Lz4) {st : OSMMMap} {max_id : Int64} {n : ℕ}
    (hf : Fresh st max_id n) (chunk_size : ℕ) (ops : List ShardOp)
    (hin : ∀ i < n, ∀ r ∈ recordsAt ops i, InRange max_id r.id) (j : Int64) :
    (merge lz4 (filled chunk_size st ops)).select j =
      lastWrite ((shardMajor n ops).map entry) j := by
  have hlen : (filled chunk_size st ops).shards.length = n := by
    rw [(filled_frame chunk_size st ops).2.2.2.2.2, hf.length]
  have hinput : ∀ i < n, mergeInput lz4 (filled chunk_size st ops) i = recordsAt ops i := by
    intro i hi
    refine mergeInput_of_stream lz4 ?_
    rw [streamAt_filled, hf.stream i hi]
    rfl
  have hall : (List.range n).flatMap (mergeInput lz4 (filled chunk_size st ops)) =
      shardMajor n ops :=
    List.flatMap_congr fun i hi => hinput i (List.mem_range.mp hi)
  rw [select_merge (covers_filled hf.covers chunk_size ops) lz4, hlen, hall, select_filled,
    hf.select, Option.or_none]
  intro i hi r hr
  rw [hlen] at hi
  rw [hinput i hi] at hr
  exact hin i hi r hr

/-- The records of all shards are the inserted ones, in another order. -/
theorem shardMajor_perm {n : ℕ} {ops : List ShardOp}
    (h : ∀ p ∈ ops.filterMap ShardOp.inserted, p.1 < n) :
    (shardMajor n ops).Perm ((ops.filterMap ShardOp.inserted).map Prod.snd) := by
  have hat : ∀ i, recordsAt ops i =
      ((ops.filterMap ShardOp.inserted).filter fun p => p.1 = i).map Prod.snd := by
    intro i
    induction ops with
    | nil => rfl
    | cons op ops ih =>
      have ih' := ih fun p hp => h p (by
        rw [List.filterMap_cons]; split
        · exact hp
        · exact List.mem_cons_of_mem _ hp)
      cases op with
      | insert k r =>
        by_cases hk : k = i
        · simpa [recordsAt, ShardOp.recordAt, ShardOp.inserted, hk] using ih'
        · simpa [recordsAt, ShardOp.recordAt, ShardOp.inserted, hk] using ih'
      | flush k => exact ih'
  have hp := perm_flatMap_filter (List.nodup_range (n := n)) Prod.fst
    (fun p hp => List.mem_range.mpr (h p hp))
  have hfun : recordsAt ops = fun i =>
      ((ops.filterMap ShardOp.inserted).filter fun p => p.1 = i).map Prod.snd := funext hat
  rw [shardMajor, hfun, ← List.map_flatMap]
  exact hp.map Prod.snd

/-! ## Correctness of the store -/

/-- The inserts go to one of the `n` shards, with an id in `0..max_id`. -/
def InsertsFit (max_id : Int64) (n : ℕ) (ops : List ShardOp) : Prop :=
  ∀ p ∈ ops.filterMap ShardOp.inserted, p.1 < n ∧ 0 ≤ p.2.id ∧ p.2.id ≤ max_id

theorem inRange_recordsAt {max_id : Int64} {n : ℕ} {ops : List ShardOp} (h0 : ¬ max_id < 0)
    (hfit : InsertsFit max_id n ops) (i : ℕ) : ∀ r ∈ recordsAt ops i, InRange max_id r.id := by
  intro r hr
  obtain ⟨op, hop, hrec⟩ := List.mem_filterMap.mp hr
  cases op with
  | insert k r' =>
    have hk : k = i ∧ r' = r := by simpa [ShardOp.recordAt] using hrec
    obtain ⟨-, h1, h2⟩ := hfit (k, r') (List.mem_filterMap.mpr ⟨_, hop, rfl⟩)
    rw [← hk.2]
    exact inRange_of_le h0 h1 h2
  | flush k => simp [ShardOp.recordAt] at hrec

theorem mapped_of_run {chunk_size : ℕ} {st st₁ : OSMMMap} (hst : st.Mapped) {ops : List ShardOp}
    (hrun : runOps chunk_size st ops = .ok st₁) : st₁.Mapped := by
  induction ops generalizing st with
  | nil =>
    obtain rfl := Except.ok.inj hrun
    exact hst
  | cons op ops ih =>
    rw [runOps, List.foldlM_cons] at hrun
    obtain ⟨st', hop, hrest⟩ := bind_ok hrun
    refine ih ?_ hrest
    cases op with
    | insert shard r =>
      obtain ⟨htakes, rfl⟩ := insert_eq_ok.mp hop
      exact hst.inserted htakes
    | flush shard =>
      obtain rfl := Except.ok.inj hop
      exact hst.flushShard

/-- An insert of a negative id throws, whatever was inserted before. -/
theorem insert_negative {chunk_size : ℕ} {max_id : Int64} {n : ℕ} {st st₁ : OSMMMap} (hst : Created max_id n st)
    {ops : List ShardOp} (hrun : runOps chunk_size st ops = .ok st₁) {shard : ℕ} (hshard : shard < n)
    {r : Record} (hr : r.id < 0) : ∃ e, st₁.insert chunk_size shard r = .error e := by
  have hf := fresh_of_created hst
  have hstream := streamAt_filled chunk_size st ops shard
  rw [hf.stream shard hshard, ← filled_of_run hrun] at hstream
  obtain ⟨s, hs, -⟩ := Option.map_eq_some_iff.mp hstream
  exact insert_error_iff.mpr
    (not_takes_negative (mapped_of_run hf.mapped hrun) (Option.join_eq_some_iff.mp hs) hr)

/-- On a platform with room for the bitmaps every insert returns. -/
theorem runOps_of_roomy {chunk_size : ℕ} {st : OSMMMap} {max_id : Int64} {n : ℕ} {ops : List ShardOp}
    (h0 : ¬ max_id < 0) (hroom : st.platform.Roomy max_id n) (hfit : InsertsFit max_id n ops) :
    runOps chunk_size st ops = .ok (filled chunk_size st ops) := by
  induction ops generalizing st with
  | nil => rfl
  | cons op ops ih =>
    have hrest : InsertsFit max_id n ops := fun p hp => hfit p (by
      rw [List.filterMap_cons]
      split
      · exact hp
      · exact List.mem_cons_of_mem _ hp)
    rw [runOps, List.foldlM_cons]
    cases op with
    | insert shard r =>
      obtain ⟨hshard, hlo, hhi⟩ := hfit (shard, r) List.mem_cons_self
      have htakes := takes_of_roomy hroom hshard (inRange_of_le h0 hlo hhi)
      have hstep : ShardOp.run chunk_size st (.insert shard r) = .ok (st.inserted chunk_size shard r) :=
        insert_eq_ok.mpr ⟨htakes, rfl⟩
      rw [hstep]
      exact @ih (st.inserted chunk_size shard r) hroom hrest
    | flush shard => exact @ih (st.flushShard shard) hroom hrest

/-- **The node store is a map.** After a node phase on a fresh store that returns, as it does where the
platform has room for the bitmaps, and `merge()`, `select` returns the last record of the id in shard-major
order, nothing for an id that was never inserted, and with distinct ids the result depends only on which
records were inserted. -/
theorem node_store_correct (lz4 : Lz4) (chunk_size : ℕ) {max_id : Int64} {n : ℕ} {st : OSMMMap}
    (hst : Created max_id n st) (ops : List ShardOp) (hfit : InsertsFit max_id n ops) :
    (st.platform.Roomy max_id n → ∃ st₁, runOps chunk_size st ops = .ok st₁) ∧
    ∀ st₁, runOps chunk_size st ops = .ok st₁ →
      (∀ id, (merge lz4 st₁).select id = lastWrite ((shardMajor n ops).map entry) id) ∧
      (∀ id, (∀ p ∈ ops.filterMap ShardOp.inserted, p.2.id ≠ id) → (merge lz4 st₁).select id = none) ∧
      ∀ (chunk_size' n' : ℕ) (st' st₁' : OSMMMap) (ops' : List ShardOp),
        Created max_id n' st' → InsertsFit max_id n' ops' → runOps chunk_size' st' ops' = .ok st₁' →
        ((ops.filterMap ShardOp.inserted).map fun p => p.2.id).Nodup →
        ((ops.filterMap ShardOp.inserted).map Prod.snd).Perm
          ((ops'.filterMap ShardOp.inserted).map Prod.snd) →
        ∀ id, (merge lz4 st₁').select id = (merge lz4 st₁).select id := by
  have hneg := (fresh_of_created hst).covers.nonneg
  have hsel : ∀ (c m : ℕ) (s s₁ : OSMMMap) (o : List ShardOp), Created max_id m s →
      InsertsFit max_id m o → runOps c s o = .ok s₁ → ∀ id, (merge lz4 s₁).select id =
        lastWrite ((shardMajor m o).map entry) id := by
    intro c m s s₁ o hs ho hrun id
    rw [filled_of_run hrun]
    exact select_merge_fresh lz4 (fresh_of_created hs) c o (fun i _ => inRange_recordsAt hneg ho i) id
  have hperm := shardMajor_perm fun p hp => (hfit p hp).1
  refine ⟨fun hroom => ⟨_, runOps_of_roomy hneg hroom hfit⟩, fun st₁ hrun => ⟨?_, fun id hid => ?_, ?_⟩⟩
  · exact hsel chunk_size n st st₁ ops hst hfit hrun
  · rw [hsel chunk_size n st st₁ ops hst hfit hrun, lastWrite_eq_none_iff, List.map_map, List.mem_map]
    rintro ⟨r, hr, rfl⟩
    obtain ⟨p, hp, rfl⟩ := List.mem_map.mp (hperm.mem_iff.mp hr)
    exact hid p hp rfl
  · intro chunk_size' n' st' st₁' ops' hst' hfit' hrun' hnd hsame id
    have hperm' := shardMajor_perm fun p hp => (hfit' p hp).1
    have hall : (shardMajor n ops).Perm (shardMajor n' ops') :=
      hperm.trans (hsame.trans hperm'.symm)
    have hkeys : (((shardMajor n ops).map entry).map Prod.fst).Nodup := by
      rw [List.map_map]
      refine ((hperm.map _).nodup_iff).mpr ?_
      rw [List.map_map]
      exact hnd
    rw [hsel chunk_size' n' st' st₁' ops' hst' hfit' hrun', hsel chunk_size n st st₁ ops hst hfit hrun,
      lastWrite_perm (hall.map entry) hkeys]

/-- No files. -/
def emptyDisk : Disk := ⟨none, none, fun _ => none, fun _ => none⟩

theorem createsStore_plain {max_id : Int64} (hdata : 0 < dataSz max_id ∧ dataSz max_id ≤ 2 ^ 44)
    (hbmp : 0 < bmSz max_id ∧ bmSz max_id ≤ 2 ^ 44) (n : ℕ) : Platform.plain.CreatesStore max_id n := by
  have hcreates : ∀ {name sz}, 0 < sz → sz ≤ 2 ^ 44 → Platform.plain.Creates name sz := by
    intro name sz hpos hle
    exact ⟨decide_eq_true hle, rfl, decide_eq_true ⟨hpos, by omega⟩⟩
  exact ⟨fun i _ => ⟨rfl, hcreates (by omega) (by omega)⟩, hcreates hdata.1 hdata.2, hcreates hbmp.1 hbmp.2⟩

theorem createsStore_ten (n : ℕ) : Platform.plain.CreatesStore 10 n :=
  createsStore_plain (by decide) (by decide) n

theorem created_ten : ∃ st, Created 10 2 st ∧ st.platform = .plain :=
  ⟨_, ⟨.plain, emptyDisk, _, createFile_eq (createsStore_ten 2), openStore_blank (createsStore_ten 2)⟩, rfl⟩

/-- Two shards, and id 3 in both of them: the record of the second shard is the one that counts. -/
theorem node_store_correct_two_shards : ∃ st st₁, Created 10 2 st ∧
    runOps CHUNK_SIZE st
      [.insert 1 ⟨3, ⟨7⟩, ⟨8⟩⟩, .flush 1, .insert 0 ⟨3, ⟨5⟩, ⟨6⟩⟩] = .ok st₁ ∧
    (merge Lz4.stored st₁).select 3 = some (⟨7⟩, ⟨8⟩) := by
  obtain ⟨st, hst, hplat⟩ := created_ten
  have hfit : InsertsFit 10 2 [.insert 1 ⟨3, ⟨7⟩, ⟨8⟩⟩, .flush 1, .insert 0 ⟨3, ⟨5⟩, ⟨6⟩⟩] := by
    simp only [InsertsFit, ShardOp.inserted]
    decide
  have h := node_store_correct Lz4.stored CHUNK_SIZE hst _ hfit
  obtain ⟨st₁, hrun⟩ := h.1 (hplat ▸ roomy_plain 2)
  refine ⟨st, st₁, hst, hrun, ?_⟩
  rw [(h.2 st₁ hrun).1 3]
  decide

end OSMMMap

end OsmImport
