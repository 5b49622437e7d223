import OsmImport.Lib.LittleEndian
import OsmImport.Types
import Mathlib.Logic.Function.Basic

/-!
# The node store

`OSMMMap`: the coordinates of the nodes. Every node thread appends 24-byte records to its own
LZ4-compressed shard file; `merge()` decodes the shards one after another into a flat file at offset
`id * 16`, with a bitmap beside it that says which ids are present; `select()` reads that file.

`size_t` arithmetic wraps around at `2 ^ 64` (`sizeMod`). The LZ4 library is a parameter (`Lz4`), and so
is what the operating system grants (`Platform`).
-/

namespace OsmImport

open LittleEndian

/-- The result of a `size_t` operation. -/
def sizeMod (n : ℕ) : ℕ := n % 2 ^ 64

/-- `REC_SIZE`. -/
def REC_SIZE : ℕ := 16

/-- `CHUNK_SIZE`. -/
def CHUNK_SIZE : ℕ := 2 ^ 22

/-- A file: its size and its bytes. Bytes from `size` on are zero when the file grows. -/
structure File where
  size : ℕ
  byte : ℕ → UInt8

namespace File

/-- A sparse file of zeros, as `ftruncate` makes it. -/
def blank (size : ℕ) : File := ⟨size, fun _ => 0⟩

/-- The `n` bytes from `off` on. -/
def read (f : File) (off n : ℕ) : Bytes := (List.range n).map fun i => f.byte (off + i)

/-- The file with the bytes `bs` at `off`. -/
def write (f : File) (off : ℕ) (bs : Bytes) : File :=
  { f with byte := fun i =>
      if off ≤ i ∧ i < off + bs.length then bs.getD (i - off) 0 else f.byte i }

/-- `ftruncate` to a size that is not smaller. -/
def grow (f : File) (size : ℕ) : File :=
  ⟨size, fun i => if i < f.size then f.byte i else 0⟩

end File

/-! ## The operating system -/

/-- The files of a store: `base_path`, its bitmap, and for each shard its stream and its bitmap. -/
inductive StoreFile where
  | data
  | bmp
  | shard (i : ℕ)
  | shardBmp (i : ℕ)
deriving DecidableEq, Repr

/-- What the operating system grants: that a file can be opened, and the sizes of it for `ftruncate` and
for `mmap`. -/
structure Platform where
  opens : StoreFile → Bool
  ftruncate : StoreFile → ℕ → Bool
  mmap : StoreFile → ℕ → Bool
  /-- A size is an `off_t`. -/
  ftruncate_off_t : ∀ f sz, ftruncate f sz = true → sz < 2 ^ 63
  /-- `mmap` refuses an empty mapping. -/
  mmap_empty : ∀ f, mmap f 0 = false
  /-- The addresses of a process have at most 56 bits, as on x86-64 with five levels of page tables. -/
  mmap_addresses : ∀ f sz, mmap f sz = true → sz < 2 ^ 56

/-- Files of up to 16 TiB, and addresses of 47 bits. -/
def Platform.plain : Platform where
  opens _ := true
  ftruncate _ sz := decide (sz ≤ 2 ^ 44)
  mmap _ sz := decide (0 < sz ∧ sz < 2 ^ 47)
  ftruncate_off_t _ sz h := by
    have := of_decide_eq_true h
    omega
  mmap_empty _ := rfl
  mmap_addresses _ sz h := by
    have := of_decide_eq_true h
    omega

/-! ## Bitmap helpers -/

/-- `bitmapSet`. -/
def bitmapSet (bm : File) (bm_size : ℕ) (id : Int64) : File :=
  let byte := sizeT id / 8
  if byte ≥ bm_size then bm
  else { bm with byte := fun i =>
    if i = byte then bm.byte i ||| (1 <<< UInt8.ofNat (sizeT id % 8)) else bm.byte i }

/-- `bitmapGet`. -/
def bitmapGet (bm : File) (bm_size : ℕ) (id : Int64) : Bool :=
  let byte := sizeT id / 8
  if byte ≥ bm_size then false
  else (bm.byte byte >>> UInt8.ofNat (sizeT id % 8)) &&& 1 != 0

/-- The clearing of a bit in `OSMMMap::remove`. -/
def bitmapClear (bm : File) (bm_size : ℕ) (id : Int64) : File :=
  let byte := sizeT id / 8
  if byte ≥ bm_size then bm
  else { bm with byte := fun i =>
    if i = byte then bm.byte i &&& ~~~(1 <<< UInt8.ofNat (sizeT id % 8)) else bm.byte i }

/-! ## Records -/

/-- What is known of one node: a record of a shard stream. -/
structure Record where
  id : Int64
  lon_m : Double
  lat_m : Double
deriving DecidableEq, Repr

/-- The 24 bytes of a record: `id`, `lon_m`, `lat_m`. -/
def Record.pack (r : Record) : Bytes :=
  toBytes 8 (sizeT r.id) ++ toBytes 8 r.lon_m.bits.toNat ++ toBytes 8 r.lat_m.bits.toNat

/-- The 16 bytes of a position in the merged file. -/
def Record.position (r : Record) : Bytes :=
  toBytes 8 r.lon_m.bits.toNat ++ toBytes 8 r.lat_m.bits.toNat

/-- The `double` that 8 bytes of memory hold. -/
def readDouble (bs : Bytes) : Double := ⟨UInt64.ofNat (ofBytes bs)⟩

/-- The record in 24 bytes of memory. -/
def Record.unpack (bs : Bytes) : Record where
  id := (UInt64.ofNat (ofBytes (bs.take 8))).toInt64
  lon_m := readDouble ((bs.drop 8).take 8)
  lat_m := readDouble ((bs.drop 16).take 8)

/-! ## The LZ4 frame library -/

/-- The LZ4 frame format. `encode` is the file that `LZ4F_compressBegin`, one `LZ4F_compressUpdate`
for each chunk and `LZ4F_compressEnd` write; `decode` is the sequence of outputs of the calls of
`LZ4F_decompress` on the content of a file, split as the library likes. -/
structure Lz4 where
  encode : List Bytes → Bytes
  decode : Bytes → List Bytes
  /-- A complete frame is decoded to what was encoded. -/
  lossless : ∀ chunks, (decode (encode chunks)).flatten = chunks.flatten
  /-- A truncated frame is decoded to an initial piece of what was encoded. -/
  truncated : ∀ chunks k, (decode ((encode chunks).take k)).flatten <+: chunks.flatten

/-- Frames whose blocks are stored: the simplest coding that `Lz4` allows. -/
def Lz4.stored : Lz4 where
  encode chunks := chunks.flatten
  decode file := [file]
  lossless chunks := by simp
  truncated chunks k := by simpa using List.take_prefix k _

/-! ## The store -/

/-- The part of a `ShardWriter` in memory while its file is open. -/
structure ShardWriter where
  /-- What was handed to `LZ4F_compressUpdate`. -/
  chunks : List Bytes
  inbuf : Bytes
  /-- The bitmap sidecar, mapped. -/
  bm : File

/-- The files of a node store. -/
structure Disk where
  /-- `base_path`. -/
  data : Option File
  /-- `base_path + ".bmp"`. -/
  bmp : Option File
  /-- `nodes.shard<i>.lz4`. -/
  shardPath : ℕ → Option Bytes
  /-- `nodes.shard<i>.bmp`. -/
  shardBmpPath : ℕ → Option File

/-- An open `OSMMMap`. The maps are shared, so what is written to them is in the files. -/
structure OSMMMap where
  merged : File
  merged_size : ℕ
  merged_bm : File
  merged_bm_size : ℕ
  /-- `shards_`; `none` where `f == nullptr`. -/
  shards : List (Option ShardWriter)
  shardPath : ℕ → Option Bytes
  shardBmpPath : ℕ → Option File
  /-- What the process that opened it is granted. -/
  platform : Platform

/-- A store of empty files. -/
def noStore : OSMMMap :=
  ⟨File.blank 0, 0, File.blank 0, 0, [], fun _ => none, fun _ => none, .plain⟩

/-- What `std::runtime_error` reports. -/
inductive StoreError where
  /-- `OSMMMap: cannot create …` -/
  | cannotCreate
  /-- `OSMMMap: ftruncate failed for …`, `OSMMMap: bitmap ftruncate failed: …` -/
  | ftruncateFailed
  /-- `OSMMMap: cannot open …` -/
  | cannotOpen
  /-- `OSMMMap: mmap failed for …`, `OSMMMap: bitmap mmap failed after grow` -/
  | mmapFailed
deriving DecidableEq, Repr

namespace OSMMMap

/-- `data_sz`. -/
def dataSz (max_id : Int64) : ℕ := sizeMod (sizeMod (sizeT max_id + 1) * REC_SIZE)

/-- `bm_sz`. -/
def bmSz (max_id : Int64) : ℕ := sizeMod (sizeMod (sizeT max_id + 1) + 7) / 8

section

variable (plat : Platform)

/-- `createBlank`. -/
def createBlank (name : StoreFile) (sz : ℕ) : Except StoreError File :=
  if !plat.opens name then .error .cannotCreate
  else if decide (0 < sz) && !plat.ftruncate name sz then .error .ftruncateFailed
  else .ok (File.blank sz)

/-- One round of the loop of `createFile`: the files of a shard. -/
def createShard (i : ℕ) : Except StoreError Unit := do
  let _ ← createBlank plat (.shard i) 0
  let _ ← createBlank plat (.shardBmp i) (2 ^ 20)

/-- `OSMMMap::createFile`. -/
def createFile (disk : Disk) (max_id : Int64) (num_shards : ℕ) : Except StoreError Disk := do
  (List.range num_shards).forM (createShard plat)
  let data ← createBlank plat .data (dataSz max_id)
  let bmp ← createBlank plat .bmp (bmSz max_id)
  return {
    data := some data
    bmp := some bmp
    shardPath := fun i => if i < num_shards then some [] else disk.shardPath i
    shardBmpPath := fun i => if i < num_shards then some (File.blank (2 ^ 20)) else disk.shardBmpPath i }

/-- `openAndMap`. -/
def openAndMap (name : StoreFile) (f : Option File) (sz : ℕ) : Except StoreError File :=
  match f with
  | none => .error .cannotOpen
  | some f =>
    if !plat.opens name then .error .cannotOpen
    else if !plat.mmap name sz then .error .mmapFailed
    else .ok f

/-- `growFileIfNeeded`. -/
def growFileIfNeeded (name : StoreFile) (f : Option File) (sz : ℕ) : Except StoreError File :=
  match f with
  | none => .error .cannotOpen
  | some f =>
    if !plat.opens name then .error .cannotOpen
    else if f.size < sz then
      if !plat.ftruncate name sz then .error .ftruncateFailed else .ok (f.grow sz)
    else .ok f

/-- The opening of one shard for writing: the shard file is truncated, the bitmap sidecar mapped. -/
def openShard (disk : Disk) (i : ℕ) : Except StoreError ShardWriter := do
  if !plat.opens (.shard i) then throw .cannotOpen
  let bm ← openAndMap plat (.shardBmp i) (disk.shardBmpPath i) (2 ^ 20)
  return { chunks := [], inbuf := [], bm := { bm with size := 2 ^ 20 } }

/-- The writers: all open, or none. -/
def openShards (disk : Disk) (num_shards : ℕ) (open_shards_for_write : Bool) :
    Except StoreError (List (Option ShardWriter)) :=
  if open_shards_for_write then
    (List.range num_shards).mapM fun i => do return some (← openShard plat disk i)
  else .ok (List.replicate num_shards none)

/-- On a resume the merged file and its bitmap are grown to the size for `max_id`. -/
def resumeFile (name : StoreFile) (f : Option File) (sz : ℕ) (open_shards_for_write : Bool) :
    Except StoreError (Option File) :=
  if open_shards_for_write then .ok f else some <$> growFileIfNeeded plat name f sz

/-- `OSMMMap::OSMMMap`. -/
def openStore (disk : Disk) (max_id : Int64) (num_shards : ℕ) (open_shards_for_write : Bool) :
    Except StoreError OSMMMap := do
  let shards ← openShards plat disk num_shards open_shards_for_write
  let data ← resumeFile plat .data disk.data (dataSz max_id) open_shards_for_write
  let bmp ← resumeFile plat .bmp disk.bmp (bmSz max_id) open_shards_for_write
  let merged ← openAndMap plat .data data (dataSz max_id)
  let merged_bm ← openAndMap plat .bmp bmp (bmSz max_id)
  return {
    merged := merged
    merged_size := dataSz max_id
    merged_bm := merged_bm
    merged_bm_size := bmSz max_id
    shards := shards
    shardPath := if open_shards_for_write then
        fun i => if i < num_shards then some [] else disk.shardPath i
      else disk.shardPath
    shardBmpPath := disk.shardBmpPath
    platform := plat }

end

/-! ### Writing the shards -/

/-- `flushInbuf`. -/
def flushInbuf (s : ShardWriter) : ShardWriter :=
  if s.inbuf.isEmpty then s
  else { s with chunks := s.chunks ++ [s.inbuf], inbuf := [] }

/-- The size to which `growBitmap` grows the bitmap of a shard. -/
def grownSize (s : ShardWriter) (id : Int64) : ℕ := max (sizeT id / 8 + 1) (s.bm.size + s.bm.size / 4)

/-- `growBitmap`, for shard `i`. The bitmap is not mapped any more behind an exception, and no caller comes
back to it. -/
def growBitmap (plat : Platform) (i : ℕ) (s : ShardWriter) (id : Int64) : Except StoreError ShardWriter :=
  if sizeT id / 8 + 1 ≤ s.bm.size then .ok s
  else if !plat.ftruncate (.shardBmp i) (grownSize s id) then .error .ftruncateFailed
  else if !plat.mmap (.shardBmp i) (grownSize s id) then .error .mmapFailed
  else .ok { s with bm := s.bm.grow (grownSize s id) }

/-- The record behind the growth of the bitmap; `chunk_size` is `CHUNK_SIZE`. -/
def appendRecord (chunk_size : ℕ) (s : ShardWriter) (r : Record) : ShardWriter :=
  let s := { s with inbuf := s.inbuf ++ r.pack }
  let s := if s.inbuf.length ≥ chunk_size then flushInbuf s else s
  { s with bm := bitmapSet s.bm s.bm.size r.id }

/-- The body of `OSMMMap::insert`, on the writer of shard `i`. -/
def insertRecord (plat : Platform) (chunk_size i : ℕ) (s : ShardWriter) (r : Record) :
    Except StoreError ShardWriter :=
  return appendRecord chunk_size (← growBitmap plat i s r.id) r

/-- `OSMMMap::insert`. A shard that is not open for writing is outside the function's contract. -/
def insert (chunk_size : ℕ) (st : OSMMMap) (shard : ℕ) (r : Record) : Except StoreError OSMMMap :=
  match st.shards[shard]? with
  | some (some s) => do
    let s ← insertRecord st.platform chunk_size shard s r
    return { st with shards := st.shards.set shard (some s) }
  | _ => .ok st

/-- `flushInbuf` on the writer of a shard. -/
def flushShard (st : OSMMMap) (shard : ℕ) : OSMMMap :=
  { st with shards := st.shards.modify shard (Option.map flushInbuf) }

/-- `OSMMMap::closeWriter`: the frame is ended and the file closed, so all of it is in the file. -/
def closeWriter (lz4 : Lz4) (st : OSMMMap) (i : ℕ) : OSMMMap :=
  match st.shards[i]? with
  | some (some s) =>
    let s := flushInbuf s
    { st with
      shards := st.shards.set i none
      shardPath := Function.update st.shardPath i (some (lz4.encode s.chunks))
      shardBmpPath := Function.update st.shardBmpPath i (some s.bm) }
  | _ => st

/-! ### Merging -/

/-- The `while (rem >= 24)` loop: the full records of `p` and what is left. The first argument bounds
the number of rounds; every round takes 24 bytes. -/
def fullRecords : ℕ → Bytes → List Bytes × Bytes
  | 0, p => ([], p)
  | n + 1, p =>
    if p.length ≥ 24 then
      let (recs, rest) := fullRecords n (p.drop 24)
      (p.take 24 :: recs, rest)
    else ([], p)

/-- One output `out` of the decoder: the records completed by it, and the new content of `partial`
(its first `carry` bytes). -/
def decodeChunk (carried out : Bytes) : List Bytes × Bytes :=
  if carried.length > 0 then
    let need := 24 - carried.length
    if out.length < need then ([], carried ++ out)
    else
      let (recs, rest) := fullRecords out.length (out.drop need)
      ((carried ++ out.take need) :: recs, rest)
  else fullRecords out.length out

/-- The records of one shard file, from the outputs of the decoder and the bytes carried over. -/
def decodeShard : Bytes → List Bytes → List Bytes
  | _, [] => []
  | carried, out :: outs =>
    let (recs, carried) := decodeChunk carried out
    recs ++ decodeShard carried outs

/-- The lambda `writeToMerged`. -/
def writeToMerged (st : OSMMMap) (r : Record) : OSMMMap :=
  if r.id < 0 then st
  else
    let offset := sizeMod (sizeT r.id * REC_SIZE)
    if sizeMod (offset + REC_SIZE) > st.merged_size then st
    else
      { st with
        merged := st.merged.write offset r.position
        merged_bm := bitmapSet st.merged_bm st.merged_bm_size r.id }

/-- The records that `merge()` takes from the file of a shard. -/
def shardRecords (lz4 : Lz4) (file : Bytes) : List Record :=
  (decodeShard [] (lz4.decode file)).map Record.unpack

/-- One round of the loop of `merge()`. -/
def mergeShard (lz4 : Lz4) (st : OSMMMap) (i : ℕ) : OSMMMap :=
  let st := closeWriter lz4 st i
  match st.shardPath i with
  | none => st
  | some file =>
    let st := (shardRecords lz4 file).foldl writeToMerged st
    { st with
      shardPath := Function.update st.shardPath i none
      shardBmpPath := Function.update st.shardBmpPath i none }

/-- `OSMMMap::merge`. -/
def merge (lz4 : Lz4) (st : OSMMMap) : OSMMMap :=
  (List.range st.shards.length).foldl (mergeShard lz4) st

/-! ### Reading and removing -/

/-- `OSMMMap::select`. -/
def select (st : OSMMMap) (id : Int64) : Option Coord :=
  if !bitmapGet st.merged_bm st.merged_bm_size id then none
  else
    let offset := sizeMod (sizeT id * REC_SIZE)
    if sizeMod (offset + REC_SIZE) > st.merged_size then none
    else some (readDouble (st.merged.read offset 8), readDouble (st.merged.read (offset + 8) 8))

/-- `OSMMMap::remove`. -/
def remove (st : OSMMMap) (id : Int64) : OSMMMap :=
  if id < 0 then st
  else
    let offset := sizeMod (sizeT id * REC_SIZE)
    if sizeMod (offset + REC_SIZE) > st.merged_size then st
    else
      { st with
        merged := st.merged.write offset (List.replicate REC_SIZE 0)
        merged_bm := bitmapClear st.merged_bm st.merged_bm_size id }

/-- What is on disk once the store is closed by its destructor. -/
def close (lz4 : Lz4) (st : OSMMMap) : Disk :=
  let st := (List.range st.shards.length).foldl (closeWriter lz4) st
  ⟨some st.merged, some st.merged_bm, st.shardPath, st.shardBmpPath⟩

end OSMMMap

/-- The store that `runDelta` opens: one shard, and the default of `open_shards_for_write`. -/
def runDeltaStore (plat : Platform) (disk : Disk) (max_node_id : Int64) : Except StoreError OSMMMap :=
  OSMMMap.openStore plat disk max_node_id 1 true

end OsmImport
