import OsmImport.Lib.Buffer
import OsmImport.Store.OSMMMap

/-!
# The decode loop of `merge()` in memory

The loop of `OSMMMap::merge` over the outputs of the decoder, with its variables: the count `carry`, the array
`partial` and the pointer `p` into the output with the `rem` bytes behind it. `mergeShard` takes the carried
bytes as a list; here they are in the array, and every `memcpy` is checked (`none`: it leaves the array or the
output). What is done with a record is a parameter (`sink`).
-/

namespace OsmImport

namespace OSMMMap

/-- The variables that live from one output to the next. -/
structure DecodeState (σ : Type) where
  carry : ℕ
  /-- `partial` -/
  partialRec : List.Vector UInt8 24
  store : σ

section Loop

variable {σ : Type} (sink : σ → Record → σ)

/-- "Handle carry from previous chunk": the state, `p` and `rem` after it. -/
def handleCarry (s : DecodeState σ) (out : Bytes) : Option (DecodeState σ × ℕ × ℕ) :=
  let rem := out.length
  if s.carry > 0 then
    let need := sizeMod (2 ^ 64 + 24 - s.carry)
    if rem < need then do
      let bytes ← Buffer.slice out 0 rem
      let partialRec ← Buffer.copyIn s.partialRec s.carry bytes
      return ({ s with partialRec := partialRec, carry := s.carry + rem }, 0, 0)
    else do
      let bytes ← Buffer.slice out 0 need
      let partialRec ← Buffer.copyIn s.partialRec s.carry bytes
      return (⟨0, partialRec, sink s.store (Record.unpack partialRec.toList)⟩, need, rem - need)
  else some (s, 0, rem)

/-- "Process full records": the store, `p` and `rem` after it. -/
def processFull (out : Bytes) (store : σ) (p rem : ℕ) : Option (σ × ℕ × ℕ) :=
  if rem ≥ 24 then do
    let bytes ← Buffer.slice out p 24
    processFull out (sink store (Record.unpack bytes)) (p + 24) (rem - 24)
  else some (store, p, rem)
termination_by rem

/-- "Save partial record". -/
def savePartial (s : DecodeState σ) (out : Bytes) (p rem : ℕ) : Option (DecodeState σ) :=
  if rem > 0 then do
    let bytes ← Buffer.slice out p rem
    let partialRec ← Buffer.copyIn s.partialRec 0 bytes
    return { s with partialRec := partialRec, carry := rem }
  else some s

/-- "Process decompressed records": the work on one output of the decoder. -/
def processOutput (s : DecodeState σ) (out : Bytes) : Option (DecodeState σ) := do
  let (s, p, rem) ← handleCarry sink s out
  let (store, p, rem) ← processFull sink out s.store p rem
  savePartial { s with store := store } out p rem

/-- The loop over the file of one shard. `carry` starts at 0, `partial` with whatever is in its memory. -/
def decodeFile (s : DecodeState σ) (outs : List Bytes) : Option (DecodeState σ) :=
  outs.foldlM (processOutput sink) { s with carry := 0 }

end Loop

/-- "Delete shard files". -/
def unlinkShard (st : OSMMMap) (i : ℕ) : OSMMMap :=
  { st with
    shardPath := Function.update st.shardPath i none
    shardBmpPath := Function.update st.shardBmpPath i none }

/-- One round of `merge()`. The variables are in the memory of those of the round before. -/
def mergeShardLoop (lz4 : Lz4) (s : DecodeState OSMMMap) (i : ℕ) : Option (DecodeState OSMMMap) :=
  let st := closeWriter lz4 s.store i
  match st.shardPath i with
  | none => some { s with store := st }
  | some file => do
    let s ← decodeFile writeToMerged { s with store := st } (lz4.decode file)
    return { s with store := unlinkShard s.store i }

/-- The rounds of `merge()`. -/
def mergeLoop (lz4 : Lz4) (s : DecodeState OSMMMap) : Option (DecodeState OSMMMap) :=
  (List.range s.store.shards.length).foldlM (mergeShardLoop lz4) s

end OSMMMap

end OsmImport
