import OsmImport.Store.OSMMMap

/-!
# A process that dies inside `merge()`

A crash keeps what was written to files and maps and loses the heap of the process: the input buffers
of the shard writers, what the LZ4 contexts hold back and the `stdio` buffers. So the file of a shard
that is still open holds some initial piece of the frame that was being written. The run is resumed
with `-R merge`: the constructor with `open_shards_for_write = false`, then `merge()`.
-/

namespace OsmImport

namespace OSMMMap

/-- Where `merge()` dies. -/
inductive CrashPoint where
  /-- The shards below `i` are merged and unlinked and `closeWriter` has not finished on shard `i`;
  `flushed` says whether its input buffer was already handed to LZ4. -/
  | closing (i : ℕ) (flushed : Bool)
  /-- Shard `i` is closed, `r` of its records are written, and of the next one the first `words` of
  the two coordinates, but not the bit. -/
  | writing (i r words : ℕ)
  /-- All records of shard `i` are written and its file is unlinked, but not its bitmap. -/
  | unlinking (i : ℕ)

/-- The point lies inside a merge of `n` shards. -/
def CrashPoint.Inside (n : ℕ) : CrashPoint → Prop
  | .closing i _ => i ≤ n
  | .writing i _ words => i < n ∧ words ≤ 2
  | .unlinking i => i < n

/-- The number of shards whose writer is closed. -/
def CrashPoint.closed : CrashPoint → ℕ
  | .closing i _ => i
  | .writing i _ _ => i + 1
  | .unlinking i => i + 1

/-- `writeToMerged` cut short behind the first `words` stores. -/
def tornWrite (words : ℕ) (st : OSMMMap) (r : Record) : OSMMMap :=
  if r.id < 0 then st
  else
    let offset := sizeMod (sizeT r.id * REC_SIZE)
    if sizeMod (offset + REC_SIZE) > st.merged_size then st
    else { st with merged := st.merged.write offset (r.position.take (8 * words)) }

/-- The rounds of `merge()` for the shards below `k`. -/
def mergeFirst (lz4 : Lz4) (st : OSMMMap) (k : ℕ) : OSMMMap :=
  (List.range k).foldl (mergeShard lz4) st

/-- The store at a crash point of `merge()`. -/
def mergeUntil (lz4 : Lz4) (st : OSMMMap) : CrashPoint → OSMMMap
  | .closing i flushed =>
    if flushed then (mergeFirst lz4 st i).flushShard i else mergeFirst lz4 st i
  | .writing i r words =>
    let st := closeWriter lz4 (mergeFirst lz4 st i) i
    match st.shardPath i with
    | none => st
    | some file =>
      let recs := shardRecords lz4 file
      let st := (recs.take r).foldl writeToMerged st
      match recs[r]? with
      | some r => tornWrite words st r
      | none => st
  | .unlinking i =>
    let st := closeWriter lz4 (mergeFirst lz4 st i) i
    match st.shardPath i with
    | none => st
    | some file =>
      let st := (shardRecords lz4 file).foldl writeToMerged st
      { st with shardPath := Function.update st.shardPath i none }

/-- What is on disk after the process died; `reached i` bytes of the frame of an open shard `i` had
reached its file. -/
def crash (lz4 : Lz4) (reached : ℕ → ℕ) (st : OSMMMap) : Disk where
  data := some st.merged
  bmp := some st.merged_bm
  shardPath := fun i => match st.shards[i]? with
    | some (some s) => some ((lz4.encode s.chunks).take (reached i))
    | _ => st.shardPath i
  shardBmpPath := st.shardBmpPath

end OSMMMap

end OsmImport
