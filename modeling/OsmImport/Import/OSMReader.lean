import OsmImport.Lib.LittleEndian
import OsmImport.Types
import Mathlib.Data.Int.Init

/-!
# Reading a PBF file

`OSMReader`: the file is a sequence of blobs, each with its header before it. What a reader does is a
function of its position in the file. The decoders of protobuf and zlib, and the decoding of a primitive
block, are parameters.
-/

namespace OsmImport

open LittleEndian

/-- `OSMPBF::BlobHeader`. -/
structure BlobHeader where
  type : Str
  datasize : ℤ

/-- `OSMPBF::Blob`. -/
structure Blob where
  raw : Option Bytes
  raw_size : Option ℤ
  zlib_data : Option Bytes

/-- The decoders; `none` is a failure. -/
structure Formats where
  parseBlobHeader : Bytes → Option BlobHeader
  parseBlob : Bytes → Option Blob
  /-- `uncompress`, with the size of the destination. -/
  uncompress : Bytes → ℤ → Option Bytes
  parsePrimitiveBlock : Bytes → Option (List OSMEntry)

namespace OSMReader

/-- What a call ends with: the end of the file, an exception, or a result and the new position. -/
inductive Result (α : Type) where
  | eof
  | error
  | ok (a : α) (pos : ℕ)

namespace Result

variable {α β : Type}

/-- The next step, at the new position. -/
def bind (r : Result α) (f : α → ℕ → Result β) : Result β :=
  match r with
  | eof => eof
  | error => error
  | ok a pos => f a pos

theorem bind_ok {r : Result α} {f : α → ℕ → Result β} {b : β} {q : ℕ} (h : r.bind f = ok b q) :
    ∃ a p, r = ok a p ∧ f a p = ok b q := by
  cases r with
  | eof => cases h
  | error => cases h
  | ok a p => exact ⟨a, p, rfl, h⟩

end Result

variable (fmt : Formats) (file : Bytes)

/-- `file_.read`: the next bytes, if there are that many. -/
def read (pos n : ℕ) : Result Bytes :=
  if pos + n ≤ file.length then .ok ((file.drop pos).take n) (pos + n) else .eof

/-- A decoder. -/
def decode {α : Type} (a : Option α) (pos : ℕ) : Result α :=
  match a with
  | some a => .ok a pos
  | none => .error

/-- The content of a blob; a buffer of a negative size cannot be allocated. -/
def content (blob : Blob) : Option Bytes :=
  match blob.zlib_data with
  | some zdata =>
    let dest_len := blob.raw_size.getD (zdata.length * 4)
    if dest_len < 0 then none else fmt.uncompress zdata dest_len
  | none => some (blob.raw.getD [])

/-- `readBlob`. -/
def readBlob (pos : ℕ) : Result Bytes :=
  (read file pos 4).bind fun hdr_size pos =>
  (read file pos (ofBytes hdr_size.reverse)).bind fun hdr_buf pos =>
  (decode (fmt.parseBlobHeader hdr_buf) pos).bind fun blobHeader pos =>
  if blobHeader.datasize < 0 then .error
  else
    (read file pos blobHeader.datasize.toNat).bind fun blob_buf pos =>
    (decode (fmt.parseBlob blob_buf) pos).bind fun blob pos =>
    if blobHeader.type = str "OSMHeader" then .ok [] pos
    else decode (content fmt blob) pos

theorem read_ok {file out : Bytes} {pos n q : ℕ} (h : read file pos n = .ok out q) :
    q = pos + n ∧ q ≤ file.length := by
  unfold read at h
  split at h
  · rename_i hlen
    injection h with _ hq
    exact ⟨hq.symm, hq ▸ hlen⟩
  · cases h

theorem decode_ok {α : Type} {o : Option α} {a : α} {pos q : ℕ} (h : decode o pos = .ok a q) :
    q = pos := by
  cases o with
  | none => cases h
  | some b =>
    injection h with _ hq
    exact hq.symm

/-- A blob takes at least the four bytes of the header's size. -/
theorem readBlob_ok {pos q : ℕ} {data : Bytes} (h : readBlob fmt file pos = .ok data q) :
    pos < q ∧ q ≤ file.length := by
  obtain ⟨hdr_size, p₁, h₁, h⟩ := Result.bind_ok h
  obtain ⟨hdr_buf, p₂, h₂, h⟩ := Result.bind_ok h
  obtain ⟨blobHeader, p₃, h₃, h⟩ := Result.bind_ok h
  split at h
  · cases h
  · obtain ⟨blob_buf, p₄, h₄, h⟩ := Result.bind_ok h
    obtain ⟨blob, p₅, h₅, h⟩ := Result.bind_ok h
    have hq : q = p₅ := by
      split at h
      · injection h with _ hq
        exact hq.symm
      · exact decode_ok h
    have hr₁ := read_ok h₁
    have hr₂ := read_ok h₂
    have hr₃ := decode_ok h₃
    have hr₄ := read_ok h₄
    have hr₅ := decode_ok h₅
    omega

/-- `next`: blobs without content are skipped. -/
def next (pos : ℕ) : Result (List OSMEntry) :=
  match _h : readBlob fmt file pos with
  | .eof => .eof
  | .error => .error
  | .ok data q => if data.isEmpty then next q else decode (fmt.parsePrimitiveBlock data) q
termination_by file.length - pos
decreasing_by
  have hpos := readBlob_ok fmt file _h
  omega

theorem next_ok {pos q : ℕ} {out : List OSMEntry} (h : next fmt file pos = .ok out q) :
    pos < q ∧ q ≤ file.length := by
  fun_induction next fmt file pos with
  | case1 pos _ => cases h
  | case2 pos _ => cases h
  | case3 pos data p hblob _ ih =>
    have hpos := readBlob_ok fmt file hblob
    have hih := ih h
    omega
  | case4 pos data p hblob _ =>
    have hpos := readBlob_ok fmt file hblob
    rw [decode_ok h]
    exact hpos

/-- How a file ends. -/
inductive Ending where
  | eof
  | error
deriving DecidableEq, Repr

/-- The batches from a position on, each with the position before its `next`. -/
def batches (pos : ℕ) : List (ℕ × List OSMEntry) × Ending :=
  match _h : next fmt file pos with
  | .eof => ([], .eof)
  | .error => ([], .error)
  | .ok batch q =>
    let (rest, ending) := batches q
    ((pos, batch) :: rest, ending)
termination_by file.length - pos
decreasing_by
  have hpos := next_ok fmt file _h
  omega

theorem batches_ok {fmt : Formats} {file : Bytes} {pos q : ℕ} {batch : List OSMEntry}
    (h : next fmt file pos = .ok batch q) : batches fmt file pos =
      ((pos, batch) :: (batches fmt file q).1, (batches fmt file q).2) := by
  rw [batches]
  split
  · rename_i heof
    rw [heof] at h
    cases h
  · rename_i herror
    rw [herror] at h
    cases h
  · rename_i hok
    rw [hok] at h
    cases h
    rfl

end OSMReader

end OsmImport
