import OsmImport.Lib.LastWrite
import OsmImport.Lib.Records
import OsmImport.Store.Crash
import OsmImport.Store.Proofs.Memory

/-!
# `merge()`: what it reads and what it leaves in the merged file

The decode loop cuts the stream of a shard into records whatever the pieces in which the decoder
delivers it (`decodeShard_eq`). Writing records to the merged file makes `select` return the last
write to each id (`select_foldl_write`), and `merge` writes the records of the shards in shard order
(`select_merge`).
-/

namespace OsmImport

open Records

namespace OSMMMap

/-! ## The decode loop -/

theorem fullRecords_eq (n : ℕ) (p : Bytes) (h : p.length ≤ n) :
    fullRecords n p = (cut 24 p, remainder 24 p) := by
  induction n generalizing p with
  | zero =>
    have hp : p.length < 24 := by omega
    simp [fullRecords, cut_of_lt hp, remainder_of_lt hp]
  | succ n ih =>
    by_cases hp : 24 ≤ p.length
    · have hr : (p.take 24).length = 24 := by simp; omega
      have hsplit := List.take_append_drop 24 p
      simp only [fullRecords, ge_iff_le, hp, if_true, ih (p.drop 24) (by simp; omega)]
      rw [Prod.mk.injEq]
      constructor
      · conv_rhs => rw [← hsplit]
        exact (cut_record_append (by omega) hr _).symm
      · conv_rhs => rw [← hsplit]
        exact (remainder_record_append (by omega) hr _).symm
    · simp [fullRecords, hp, cut_of_lt (Nat.not_le.mp hp), remainder_of_lt (Nat.not_le.mp hp)]

/-- One output of the decoder: the records of the carried bytes with it, and the new remainder. -/
theorem decodeChunk_eq {carried : Bytes} (hc : carried.length < 24) (out : Bytes) :
    decodeChunk carried out = (cut 24 (carried ++ out), remainder 24 (carried ++ out)) := by
  unfold decodeChunk
  by_cases h0 : carried.length > 0
  · rw [if_pos h0]
    by_cases hlt : out.length < 24 - carried.length
    · have hl : (carried ++ out).length < 24 := by simp; omega
      simp [hlt, cut_of_lt hl, remainder_of_lt hl]
    · have hr : (carried ++ out.take (24 - carried.length)).length = 24 := by simp; omega
      have hfull := fullRecords_eq out.length (out.drop (24 - carried.length)) (by simp)
      have hsplit : carried ++ out =
          (carried ++ out.take (24 - carried.length)) ++ out.drop (24 - carried.length) := by
        rw [List.append_assoc, List.take_append_drop]
      simp only [hlt, if_false, hfull]
      rw [hsplit, cut_record_append (by omega) hr, remainder_record_append (by omega) hr]
  · have hnil : carried = [] := List.length_eq_zero_iff.mp (by omega)
    rw [if_neg h0, hnil, List.nil_append, fullRecords_eq _ _ le_rfl]

/-- The decode loop does not depend on how the decoder splits its output. -/
theorem decodeShard_eq {carried : Bytes} (hc : carried.length < 24) (outs : List Bytes) :
    decodeShard carried outs = cut 24 (carried ++ outs.flatten) := by
  induction outs generalizing carried with
  | nil => simp [decodeShard, cut_of_lt hc]
  | cons out outs ih =>
    have hrem := length_remainder (w := 24) (by omega) (carried ++ out)
    simp only [decodeShard, decodeChunk_eq hc out, ih hrem, List.flatten_cons]
    rw [← List.append_assoc, cut_append (by omega) (carried ++ out)]

/-- The records that `merge()` takes from a file are those of the decoded bytes. -/
theorem shardRecords_eq (lz4 : Lz4) (file : Bytes) :
    shardRecords lz4 file = (cut 24 (lz4.decode file).flatten).map Record.unpack := by
  rw [shardRecords, decodeShard_eq (by simp), List.nil_append]

theorem cut_pack (rs : List Record) :
    (cut 24 (rs.map Record.pack).flatten).map Record.unpack = rs := by
  rw [cut_flatten (by omega) (by simp), List.map_map]
  exact List.map_id'' (fun r => r.unpack_pack) rs

/-! ## Writing records to the merged file -/

/-- The maps have the sizes for the ids `0..max_id`, and offsets of these do not wrap around. -/
structure Covers (st : OSMMMap) (max_id : Int64) : Prop where
  data : st.merged_size = (sizeT max_id + 1) * 16
  bits : st.merged_bm_size = (sizeT max_id + 8) / 8
  bound : sizeT max_id < 2 ^ 59

/-- The coordinates in the slot of an id. -/
def slot (st : OSMMMap) (id : Int64) : Coord :=
  (readDouble (st.merged.read (sizeT id * 16) 8), readDouble (st.merged.read (sizeT id * 16 + 8) 8))

variable {st : OSMMMap} {max_id : Int64}

theorem Covers.nonneg (hc : Covers st max_id) : ¬ max_id < 0 :=
  (not_neg_iff max_id).mpr (hc.bound.trans (by decide))

/-- `select` on maps of the right size: an id in range whose bit is set. -/
theorem select_eq (hc : Covers st max_id) (id : Int64) :
    st.select id = if sizeT id ≤ sizeT max_id ∧ bitmapGet st.merged_bm st.merged_bm_size id = true
      then some (st.slot id) else none := by
  have hb := hc.bound
  by_cases hg : bitmapGet st.merged_bm st.merged_bm_size id = true
  · have hlt : sizeT id / 8 < (sizeT max_id + 8) / 8 := by
      rw [bitmapGet_eq, hc.bits] at hg
      simpa using (Bool.and_eq_true_iff.mp hg).1
    have h1 : sizeMod (sizeT id * REC_SIZE) = sizeT id * 16 := Nat.mod_eq_of_lt (by
      simp only [REC_SIZE]; omega)
    have h2 : sizeMod (sizeT id * 16 + REC_SIZE) = sizeT id * 16 + 16 := Nat.mod_eq_of_lt (by
      simp only [REC_SIZE]; omega)
    simp only [select, hg, h1, h2, hc.data, slot]
    by_cases hle : sizeT id ≤ sizeT max_id
    · have : ¬ (sizeT id * 16 + 16 > (sizeT max_id + 1) * 16) := by omega
      simp [hle, this]
    · have : sizeT id * 16 + 16 > (sizeT max_id + 1) * 16 := by omega
      simp [hle, this]
  · simp [select, hg]

/-- An id of the node store: `0 ≤ id ≤ max_id`. -/
def InRange (max_id id : Int64) : Prop := sizeT id ≤ sizeT max_id

theorem inRange_of_le {id : Int64} (hmax : ¬ max_id < 0) (h0 : 0 ≤ id) (h : id ≤ max_id) :
    InRange max_id id := by
  have hm := (not_neg_iff max_id).mp hmax
  have h0' : ¬ id < 0 := by
    rw [Int64.lt_iff_toInt_lt]; rw [Int64.le_iff_toInt_le] at h0; omega
  have hi := (not_neg_iff id).mp h0'
  have e1 : id.toInt = sizeT id := by
    have : id.toInt = id.toBitVec.toInt := rfl
    rw [this, BitVec.toInt_eq_toNat_of_lt (by have : sizeT id = id.toBitVec.toNat := rfl; omega)]
    rfl
  have e2 : max_id.toInt = sizeT max_id := by
    have : max_id.toInt = max_id.toBitVec.toInt := rfl
    rw [this, BitVec.toInt_eq_toNat_of_lt
      (by have : sizeT max_id = max_id.toBitVec.toNat := rfl; omega)]
    rfl
  rw [Int64.le_iff_toInt_le, e1, e2] at h
  simpa [InRange] using h

/-- In range, the guards of `writeToMerged` let the record pass. -/
theorem writeToMerged_eq (hc : Covers st max_id) {r : Record} (hr : InRange max_id r.id) :
    writeToMerged st r = { st with
      merged := st.merged.write (sizeT r.id * 16) r.position
      merged_bm := bitmapSet st.merged_bm st.merged_bm_size r.id } := by
  have hb := hc.bound
  have hr' : sizeT r.id ≤ sizeT max_id := hr
  have h0 : ¬ r.id < 0 := by rw [neg_iff]; omega
  have h1 : sizeMod (sizeT r.id * REC_SIZE) = sizeT r.id * 16 := Nat.mod_eq_of_lt (by
    simp only [REC_SIZE]; omega)
  have h2 : sizeMod (sizeT r.id * 16 + REC_SIZE) = sizeT r.id * 16 + 16 := Nat.mod_eq_of_lt (by
    simp only [REC_SIZE]; omega)
  have h3 : ¬ (sizeT r.id * 16 + 16 > st.merged_size) := by rw [hc.data]; omega
  simp only [writeToMerged, h0, if_false, h1, h2, h3]

theorem covers_writeToMerged (hc : Covers st max_id) (r : Record) :
    Covers (writeToMerged st r) max_id := by
  unfold writeToMerged
  split
  · exact hc
  · dsimp only
    split
    · exact hc
    · exact ⟨hc.data, hc.bits, hc.bound⟩

/-- The two coordinates are read back where a position is written. -/
theorem read_position (f : File) (off : ℕ) (r : Record) :
    readDouble ((f.write off r.position).read off 8) = r.lon_m ∧
    readDouble ((f.write off r.position).read (off + 8) 8) = r.lat_m := by
  have e1 := File.read_write_self f off 0 r.position (n := 8) (by simp)
  have e2 := File.read_write_self f off 8 r.position (n := 8) (by simp)
  have p1 : (r.position.drop 0).take 8 = LittleEndian.toBytes 8 r.lon_m.bits.toNat := by
    simp [Record.position, List.take_left']
  have p2 : (r.position.drop 8).take 8 = LittleEndian.toBytes 8 r.lat_m.bits.toNat := by
    rw [Record.position, List.drop_left' (by simp), List.take_of_length_le (by simp)]
  rw [p1, Nat.add_zero] at e1
  rw [p2] at e2
  rw [e1, e2, readDouble_toBytes, readDouble_toBytes]
  exact ⟨rfl, rfl⟩

/-- A position is read back from the slot that it is written to, and the other slots are as before. -/
theorem slot_write (st : OSMMMap) (merged_bm : File) (r : Record) (j : Int64) :
    slot { st with merged := st.merged.write (sizeT r.id * 16) r.position, merged_bm := merged_bm } j =
      if j = r.id then (r.lon_m, r.lat_m) else slot st j := by
  by_cases hj : j = r.id
  · subst hj
    obtain ⟨hlon, hlat⟩ := read_position st.merged (sizeT r.id * 16) r
    simp only [slot, hlon, hlat, if_true]
  · have hne : sizeT j ≠ sizeT r.id := fun h => hj (sizeT_inj.mp h)
    have o1 := File.read_write_other st.merged (sizeT r.id * 16) (sizeT j * 16) 8 r.position
      (by simp; omega)
    have o2 := File.read_write_other st.merged (sizeT r.id * 16) (sizeT j * 16 + 8) 8 r.position
      (by simp; omega)
    simp [slot, hj, o1, o2]

/-- A record in range is what `select` then returns for its id, and only for its id. -/
theorem select_writeToMerged (hc : Covers st max_id) {r : Record} (hr : InRange max_id r.id)
    (j : Int64) :
    (writeToMerged st r).select j = if j = r.id then some (r.lon_m, r.lat_m) else st.select j := by
  have hr' : sizeT r.id ≤ sizeT max_id := hr
  have hbit : sizeT r.id / 8 < st.merged_bm_size := by rw [hc.bits]; omega
  rw [select_eq (covers_writeToMerged hc r), select_eq hc, writeToMerged_eq hc hr, slot_write]
  simp only [bitmapGet_set hbit]
  by_cases hj : j = r.id
  · subst hj
    simp [hr']
  · simp [hj]

/-- A record as a write of coordinates to an id. -/
def entry (r : Record) : Int64 × Coord := (r.id, (r.lon_m, r.lat_m))

theorem covers_foldl_write (hc : Covers st max_id) (rs : List Record) :
    Covers (rs.foldl writeToMerged st) max_id := by
  induction rs generalizing st with
  | nil => exact hc
  | cons r rs ih => exact ih (covers_writeToMerged hc r)

/-- After a sequence of writes, `select` returns the last write to the id. -/
theorem select_foldl_write (hc : Covers st max_id) {rs : List Record}
    (hr : ∀ r ∈ rs, InRange max_id r.id) (j : Int64) :
    (rs.foldl writeToMerged st).select j = (lastWrite (rs.map entry) j).or (st.select j) := by
  induction rs using List.reverseRecOn with
  | nil => simp
  | append_singleton rs r ih =>
    have hrs : ∀ r' ∈ rs, InRange max_id r'.id := fun r' h => hr r' (List.mem_append_left _ h)
    rw [List.foldl_append, List.foldl_cons, List.foldl_nil,
      select_writeToMerged (covers_foldl_write hc rs) (hr r (by simp)), ih hrs, List.map_append,
      List.map_cons, List.map_nil, lastWrite_concat]
    by_cases hj : j = r.id
    · simp [hj, entry]
    · simp [hj, entry]

/-- The files are as large as the maps of them. -/
def Sized (st : OSMMMap) : Prop :=
  st.merged.size = st.merged_size ∧ st.merged_bm.size = st.merged_bm_size

theorem sized_writeToMerged (h : Sized st) (r : Record) : Sized (writeToMerged st r) := by
  unfold writeToMerged
  split
  · exact h
  · dsimp only
    split
    · exact h
    · refine ⟨h.1, ?_⟩
      dsimp only [bitmapSet]
      split <;> exact h.2

theorem sized_foldl_write (h : Sized st) (rs : List Record) :
    Sized (rs.foldl writeToMerged st) := by
  induction rs generalizing st with
  | nil => exact h
  | cons r rs ih => exact ih (sized_writeToMerged h r)

/-- Writing to the merged file leaves the shards alone. -/
theorem foldl_write_shards (rs : List Record) (st : OSMMMap) :
    (rs.foldl writeToMerged st).shards = st.shards ∧
    (rs.foldl writeToMerged st).shardPath = st.shardPath := by
  induction rs generalizing st with
  | nil => exact ⟨rfl, rfl⟩
  | cons r rs ih =>
    have h : (writeToMerged st r).shards = st.shards ∧
        (writeToMerged st r).shardPath = st.shardPath := by
      unfold writeToMerged
      split
      · exact ⟨rfl, rfl⟩
      · dsimp only
        split <;> exact ⟨rfl, rfl⟩
    rw [List.foldl_cons, (ih _).1, (ih _).2]
    exact h

/-! ## The shards in shard order -/

/-- The content of the file of shard `i` once its writer is closed. -/
def closedFile (lz4 : Lz4) (st : OSMMMap) (i : ℕ) : Option Bytes :=
  match st.shards[i]? with
  | some (some s) => some (lz4.encode (flushInbuf s).chunks)
  | _ => st.shardPath i

/-- The records that the round of `merge()` for shard `i` writes. -/
def mergeInput (lz4 : Lz4) (st : OSMMMap) (i : ℕ) : List Record :=
  ((closedFile lz4 st i).map (shardRecords lz4)).getD []

theorem closeWriter_shardPath (lz4 : Lz4) (st : OSMMMap) (i : ℕ) :
    (closeWriter lz4 st i).shardPath i = closedFile lz4 st i := by
  unfold closeWriter closedFile
  split <;> simp_all

/-- A shard whose file is missing. -/
theorem mergeShard_of_missing {lz4 : Lz4} {st : OSMMMap} {i : ℕ} (hf : closedFile lz4 st i = none) :
    mergeShard lz4 st i = closeWriter lz4 st i ∧ mergeInput lz4 st i = [] := by
  constructor
  · simp only [mergeShard, closeWriter_shardPath, hf]
  · rw [mergeInput, hf]
    rfl

/-- Closing a writer touches the files of that shard only. -/
theorem closeWriter_frame (lz4 : Lz4) (st : OSMMMap) (i : ℕ) :
    (closeWriter lz4 st i).merged = st.merged ∧
    (closeWriter lz4 st i).merged_size = st.merged_size ∧
    (closeWriter lz4 st i).merged_bm = st.merged_bm ∧
    (closeWriter lz4 st i).merged_bm_size = st.merged_bm_size ∧
    (closeWriter lz4 st i).shards.length = st.shards.length ∧
    ∀ k, k ≠ i → (closeWriter lz4 st i).shards[k]? = st.shards[k]? ∧
      (closeWriter lz4 st i).shardPath k = st.shardPath k := by
  unfold closeWriter
  split
  · refine ⟨rfl, rfl, rfl, rfl, by simp, fun k hk => ⟨?_, ?_⟩⟩
    · simp [List.getElem?_set_ne (Ne.symm hk)]
    · simp [Function.update_of_ne hk]
  · exact ⟨rfl, rfl, rfl, rfl, rfl, fun k _ => ⟨rfl, rfl⟩⟩

theorem select_closeWriter (lz4 : Lz4) (st : OSMMMap) (i : ℕ) (j : Int64) :
    (closeWriter lz4 st i).select j = st.select j := by
  obtain ⟨h1, h2, h3, h4, -⟩ := closeWriter_frame lz4 st i
  simp only [select, h1, h2, h3, h4]

theorem covers_closeWriter (hc : Covers st max_id) (lz4 : Lz4) (i : ℕ) :
    Covers (closeWriter lz4 st i) max_id := by
  obtain ⟨-, h2, -, h4, -⟩ := closeWriter_frame lz4 st i
  exact ⟨by rw [h2, hc.data], by rw [h4, hc.bits], hc.bound⟩

/-- The writers and files of the shards from `k` on are the same. -/
def SameShardsFrom (k : ℕ) (a b : OSMMMap) : Prop :=
  ∀ i, k ≤ i → a.shards[i]? = b.shards[i]? ∧ a.shardPath i = b.shardPath i

theorem SameShardsFrom.closedFile {k : ℕ} {a b : OSMMMap} (h : SameShardsFrom k a b) (lz4 : Lz4)
    {i : ℕ} (hi : k ≤ i) : closedFile lz4 a i = closedFile lz4 b i := by
  simp only [OSMMMap.closedFile, (h i hi).1, (h i hi).2]

theorem sized_closeWriter (h : Sized st) (lz4 : Lz4) (i : ℕ) : Sized (closeWriter lz4 st i) := by
  obtain ⟨h1, h2, h3, h4, -⟩ := closeWriter_frame lz4 st i
  simpa only [Sized, h1, h2, h3, h4] using h

theorem sized_mergeShard (h : Sized st) (lz4 : Lz4) (i : ℕ) : Sized (mergeShard lz4 st i) := by
  unfold mergeShard
  dsimp only
  split
  · exact sized_closeWriter h lz4 i
  · exact sized_foldl_write (sized_closeWriter h lz4 i) _

theorem sized_mergeFirst (h : Sized st) (lz4 : Lz4) (k : ℕ) : Sized (mergeFirst lz4 st k) := by
  unfold mergeFirst
  induction List.range k generalizing st with
  | nil => exact h
  | cons i is ih => exact ih (sized_mergeShard h lz4 i)

/-- One round of `merge()`: the records of the shard are written, its file is gone, the other shards
stay. -/
theorem mergeShard_spec (hc : Covers st max_id) (lz4 : Lz4) (i : ℕ)
    (hr : ∀ r ∈ mergeInput lz4 st i, InRange max_id r.id) :
    Covers (mergeShard lz4 st i) max_id ∧
    (∀ j, (mergeShard lz4 st i).select j =
      (lastWrite ((mergeInput lz4 st i).map entry) j).or (st.select j)) ∧
    (mergeShard lz4 st i).shardPath i = none ∧
    (∀ k, k ≠ i → (mergeShard lz4 st i).shards[k]? = st.shards[k]? ∧
      (mergeShard lz4 st i).shardPath k = st.shardPath k) := by
  obtain ⟨-, -, -, -, -, hframe⟩ := closeWriter_frame lz4 st i
  have hc' := covers_closeWriter hc lz4 i
  have hpath := closeWriter_shardPath lz4 st i
  cases hf : closedFile lz4 st i with
  | none =>
    obtain ⟨hm, hin⟩ := mergeShard_of_missing hf
    rw [hm, hin]
    exact ⟨hc', fun j => by simp [select_closeWriter], by rw [hpath, hf], hframe⟩
  | some file =>
    have hin : mergeInput lz4 st i = shardRecords lz4 file := by simp [mergeInput, hf]
    rw [hin] at hr ⊢
    obtain ⟨hs, hp⟩ := foldl_write_shards (shardRecords lz4 file) (closeWriter lz4 st i)
    have hcov := covers_foldl_write hc' (shardRecords lz4 file)
    have hsel := select_foldl_write hc' hr
    simp only [mergeShard, hpath, hf]
    refine ⟨⟨hcov.data, hcov.bits, hcov.bound⟩, fun j => ?_, by simp, fun k hk => ?_⟩
    · rw [← select_closeWriter lz4 st i j]
      exact hsel j
    · simp only [hs, hp, Function.update_of_ne hk]
      exact hframe k hk

theorem mergeFirst_succ (lz4 : Lz4) (st : OSMMMap) (k : ℕ) :
    mergeFirst lz4 st (k + 1) = mergeShard lz4 (mergeFirst lz4 st k) k := by
  simp [mergeFirst, List.range_succ]

/-- The rounds of `merge()` leave the sizes of the files and the platform. -/
theorem mergeFirst_frame (lz4 : Lz4) (st : OSMMMap) (k : ℕ) :
    (mergeFirst lz4 st k).merged_size = st.merged_size ∧
      (mergeFirst lz4 st k).merged_bm_size = st.merged_bm_size ∧
      (mergeFirst lz4 st k).platform = st.platform := by
  have hwrite : ∀ (rs : List Record) (st : OSMMMap),
      (rs.foldl writeToMerged st).merged_size = st.merged_size ∧
        (rs.foldl writeToMerged st).merged_bm_size = st.merged_bm_size ∧
        (rs.foldl writeToMerged st).platform = st.platform := by
    intro rs
    induction rs with
    | nil => exact fun _ => ⟨rfl, rfl, rfl⟩
    | cons r rs ih =>
      intro st
      rw [List.foldl_cons, (ih _).1, (ih _).2.1, (ih _).2.2]
      unfold writeToMerged
      split
      · exact ⟨rfl, rfl, rfl⟩
      · dsimp only
        split <;> exact ⟨rfl, rfl, rfl⟩
  have hclose : ∀ (st : OSMMMap) (i : ℕ), (closeWriter lz4 st i).platform = st.platform := by
    intro st i
    unfold closeWriter
    split <;> rfl
  induction k with
  | zero => exact ⟨rfl, rfl, rfl⟩
  | succ k ih =>
    obtain ⟨-, h2, -, h4, -⟩ := closeWriter_frame lz4 (mergeFirst lz4 st k) k
    rw [mergeFirst_succ, ← ih.1, ← ih.2.1, ← ih.2.2, ← h2, ← h4, ← hclose (mergeFirst lz4 st k) k]
    unfold mergeShard
    dsimp only
    split
    · exact ⟨rfl, rfl, rfl⟩
    · exact hwrite _ _

theorem platform_merge (lz4 : Lz4) (st : OSMMMap) : (merge lz4 st).platform = st.platform :=
  (mergeFirst_frame lz4 st _).2.2

/-- The store on another platform. -/
def on (st : OSMMMap) (plat : Platform) : OSMMMap := { st with platform := plat }

theorem writeToMerged_on (st : OSMMMap) (plat : Platform) (r : Record) :
    writeToMerged (st.on plat) r = (writeToMerged st r).on plat := by
  unfold writeToMerged on
  dsimp only
  split
  · rfl
  · split <;> rfl

theorem foldl_writeToMerged_on (rs : List Record) (st : OSMMMap) (plat : Platform) :
    rs.foldl writeToMerged (st.on plat) = (rs.foldl writeToMerged st).on plat := by
  induction rs generalizing st with
  | nil => rfl
  | cons r rs ih => rw [List.foldl_cons, List.foldl_cons, ← ih, writeToMerged_on]

theorem closeWriter_on (lz4 : Lz4) (st : OSMMMap) (plat : Platform) (i : ℕ) :
    closeWriter lz4 (st.on plat) i = (closeWriter lz4 st i).on plat := by
  have hget : (st.on plat).shards[i]? = st.shards[i]? := rfl
  unfold closeWriter
  rw [hget]
  split <;> rfl

theorem mergeShard_on (lz4 : Lz4) (st : OSMMMap) (plat : Platform) (i : ℕ) :
    mergeShard lz4 (st.on plat) i = (mergeShard lz4 st i).on plat := by
  have hpath : ((closeWriter lz4 st i).on plat).shardPath i = (closeWriter lz4 st i).shardPath i := rfl
  unfold mergeShard
  dsimp only
  rw [closeWriter_on, hpath]
  cases (closeWriter lz4 st i).shardPath i with
  | none => rfl
  | some file =>
    dsimp only
    rw [foldl_writeToMerged_on]
    rfl

/-- A merge does not ask it. -/
theorem merge_on (lz4 : Lz4) (st : OSMMMap) (plat : Platform) :
    merge lz4 (st.on plat) = (merge lz4 st).on plat := by
  have hrounds : ∀ (is : List ℕ) (st : OSMMMap),
      is.foldl (mergeShard lz4) (st.on plat) = (is.foldl (mergeShard lz4) st).on plat := by
    intro is
    induction is with
    | nil => exact fun _ => rfl
    | cons i is ih =>
      intro st
      rw [List.foldl_cons, List.foldl_cons, ← ih, mergeShard_on]
  exact hrounds _ st

/-- The loop invariant of `merge()`: after `k` rounds the records of the first `k` shards are
written, in shard order, their files are gone, and the other shards are as they were. -/
theorem mergeFirst_spec (hc : Covers st max_id) (lz4 : Lz4) (k : ℕ)
    (hr : ∀ i < k, ∀ r ∈ mergeInput lz4 st i, InRange max_id r.id) :
    Covers (mergeFirst lz4 st k) max_id ∧
    (∀ j, (mergeFirst lz4 st k).select j =
      (lastWrite (((List.range k).flatMap (mergeInput lz4 st)).map entry) j).or (st.select j)) ∧
    (∀ i < k, (mergeFirst lz4 st k).shardPath i = none) ∧
    SameShardsFrom k (mergeFirst lz4 st k) st := by
  induction k with
  | zero =>
    exact ⟨hc, fun j => by simp [mergeFirst], fun i hi => absurd hi (by omega),
      fun i _ => ⟨rfl, rfl⟩⟩
  | succ k ih =>
    obtain ⟨hc', hsel, hgone, hsame⟩ := ih fun i hi => hr i (by omega)
    have hin : mergeInput lz4 (mergeFirst lz4 st k) k = mergeInput lz4 st k := by
      simp only [mergeInput, hsame.closedFile lz4 le_rfl]
    obtain ⟨h1, h2, h3, h4⟩ := mergeShard_spec hc' lz4 k (by rw [hin]; exact hr k (by omega))
    rw [mergeFirst_succ]
    refine ⟨h1, fun j => ?_, fun i hi => ?_, fun i hi => ?_⟩
    · rw [h2 j, hsel j, hin, List.range_succ, List.flatMap_append, List.map_append,
        lastWrite_append, Option.or_assoc]
      simp
    · by_cases hik : i = k
      · rw [hik, h3]
      · rw [(h4 i hik).2, hgone i (by omega)]
    · rw [(h4 i (by omega)).1, (h4 i (by omega)).2]
      exact hsame i (by omega)

/-- `merge()` makes `select` return the last record of an id in shard-major order. -/
theorem select_merge (hc : Covers st max_id) (lz4 : Lz4)
    (hr : ∀ i < st.shards.length, ∀ r ∈ mergeInput lz4 st i, InRange max_id r.id) (j : Int64) :
    (merge lz4 st).select j =
      (lastWrite (((List.range st.shards.length).flatMap (mergeInput lz4 st)).map entry) j).or
        (st.select j) :=
  (mergeFirst_spec hc lz4 st.shards.length hr).2.1 j

end OSMMMap

end OsmImport
