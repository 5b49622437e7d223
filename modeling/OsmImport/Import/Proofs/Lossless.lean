import OsmImport.Import.OSMReader

/-!
# What a reader of a file passes over

The framing of a file is its blobs with their headers, and what stands behind the last whole one
(`frames`). A reader that comes to the end without an exception has returned the decoding of all data
blobs exactly if nothing stands behind the last blob, every data blob has a content that it knows, and
blobs of unknown types hold no entries.
-/

namespace OsmImport

open LittleEndian

namespace OSMReader

variable (fmt : Formats)

/-! ## The framing -/

/-- A blob with its header. -/
structure Frame where
  header : BlobHeader
  blob : Blob

/-- What stands at the front of some bytes. -/
inductive Cut where
  | incomplete
  | malformed
  | whole (f : Frame) (rest : Bytes)

/-- The first `n` bytes and the rest. -/
def splitOff (n : ℕ) (bytes : Bytes) : Option (Bytes × Bytes) :=
  if n ≤ bytes.length then some (bytes.take n, bytes.drop n) else none

/-- The blob at the front: the size of the header in four bytes, most significant first, the header, and
the blob. -/
def cut (bytes : Bytes) : Cut :=
  match splitOff 4 bytes with
  | none => .incomplete
  | some (size, bytes) => match splitOff (ofBytes size.reverse) bytes with
    | none => .incomplete
    | some (hdr, bytes) => match fmt.parseBlobHeader hdr with
      | none => .malformed
      | some h =>
        if h.datasize < 0 then .malformed
        else match splitOff h.datasize.toNat bytes with
          | none => .incomplete
          | some (body, rest) => match fmt.parseBlob body with
            | none => .malformed
            | some b => .whole ⟨h, b⟩ rest

theorem splitOff_some {n : ℕ} {bytes a rest : Bytes} (h : splitOff n bytes = some (a, rest)) :
    n ≤ bytes.length ∧ a = bytes.take n ∧ rest = bytes.drop n := by
  unfold splitOff at h
  split at h
  · rename_i hn
    obtain ⟨rfl, rfl⟩ := Prod.mk.inj (Option.some.inj h)
    exact ⟨hn, rfl, rfl⟩
  · cases h

/-- A blob takes at least the four bytes of the header's size. -/
theorem length_cut {bytes rest : Bytes} {f : Frame} (h : cut fmt bytes = .whole f rest) :
    rest.length < bytes.length := by
  unfold cut at h
  cases h₁ : splitOff 4 bytes with
  | none =>
    rw [h₁] at h
    cases h
  | some sizeRest =>
    rw [h₁] at h
    dsimp only at h
    cases h₂ : splitOff (ofBytes sizeRest.1.reverse) sizeRest.2 with
    | none =>
      rw [h₂] at h
      cases h
    | some hdrRest =>
      rw [h₂] at h
      dsimp only at h
      split at h
      · cases h
      · split at h
        · cases h
        · split at h
          · cases h
          · rename_i hb
            split at h
            · cases h
            · obtain ⟨-, rfl⟩ := Cut.whole.inj h
              have hs₁ := splitOff_some h₁
              have hs₂ := splitOff_some h₂
              have hs₃ := splitOff_some hb
              rw [hs₃.2.2, hs₂.2.2, hs₁.2.2, List.length_drop, List.length_drop, List.length_drop]
              omega

/-- What stands behind the last whole blob. -/
inductive Tail where
  | nothing
  | incomplete
  | malformed
deriving DecidableEq, Repr

/-- The blobs of a file, and what stands behind them. -/
def frames (bytes : Bytes) : List Frame × Tail :=
  match _h : cut fmt bytes with
  | .whole f rest => (f :: (frames rest).1, (frames rest).2)
  | .malformed => ([], .malformed)
  | .incomplete => ([], if bytes.isEmpty then .nothing else .incomplete)
termination_by bytes.length
decreasing_by
  all_goals exact length_cut fmt _h

/-! ## What is to be read -/

/-- The uncompressed content of a data blob; `none` is a compression that is not known, or damaged. -/
def payload (b : Blob) : Option Bytes :=
  if b.zlib_data.isSome then content fmt b else b.raw

/-- The decoding of the data blobs, one behind the other, if all of them can be decoded. -/
def dataEntries : List Frame → Option (List OSMEntry)
  | [] => some []
  | f :: fs =>
    if f.header.type = str "OSMData" then do
      let data ← payload fmt f.blob
      let entries ← fmt.parsePrimitiveBlock data
      let rest ← dataEntries fs
      return entries ++ rest
    else dataEntries fs

/-- The reader raises an error, or it returns the data of a whole file. -/
def Lossless (file : Bytes) : Prop :=
  (batches fmt file 0).2 = .error ∨
    (frames fmt file).2 = .nothing ∧
      dataEntries fmt (frames fmt file).1 = some ((batches fmt file 0).1.flatMap Prod.snd)

/-! ## The condition -/

/-- The reader raises an error at the blob. -/
def Rejected (f : Frame) : Prop :=
  f.header.type ≠ str "OSMHeader" ∧
    (content fmt f.blob = none ∨
      ∃ data, content fmt f.blob = some data ∧ data ≠ [] ∧ fmt.parsePrimitiveBlock data = none)

/-- A data blob has a content that the reader looks for, and a blob of an unknown type has no entries. -/
structure Sound (f : Frame) : Prop where
  data : f.header.type = str "OSMData" → ∃ data, payload fmt f.blob = some data ∧ data ≠ []
  other : f.header.type ≠ str "OSMData" → f.header.type ≠ str "OSMHeader" →
    ∀ data, content fmt f.blob = some data → data ≠ [] → fmt.parsePrimitiveBlock data = some []

/-! ## The reader and the framing -/

variable {fmt} {file : Bytes} {pos : ℕ}

theorem read_of_splitOff {n : ℕ} {a rest : Bytes} (hpos : pos ≤ file.length)
    (h : splitOff n (file.drop pos) = some (a, rest)) :
    read file pos n = .ok a (pos + n) ∧ rest = file.drop (pos + n) ∧ pos + n ≤ file.length := by
  obtain ⟨hn, rfl, rfl⟩ := splitOff_some h
  rw [List.length_drop] at hn
  have hle : pos + n ≤ file.length := by omega
  exact ⟨if_pos hle, List.drop_drop, hle⟩

theorem read_of_splitOff_none {n : ℕ} (hpos : pos ≤ file.length)
    (h : splitOff n (file.drop pos) = none) : read file pos n = .eof := by
  unfold splitOff at h
  split at h
  · cases h
  · rename_i hn
    rw [List.length_drop] at hn
    exact if_neg (by omega)

/-- What `readBlob` makes of what stands at its position. -/
def ReadAs (fmt : Formats) (file : Bytes) (r : Result Bytes) : Cut → Prop
  | .incomplete => r = .eof
  | .malformed => r = .error
  | .whole f rest => ∃ q, q ≤ file.length ∧ rest = file.drop q ∧
    r = if f.header.type = str "OSMHeader" then .ok [] q else decode (content fmt f.blob) q

theorem readBlob_cut (fmt : Formats) (hpos : pos ≤ file.length) :
    ReadAs fmt file (readBlob fmt file pos) (cut fmt (file.drop pos)) := by
  unfold cut readBlob
  cases h₁ : splitOff 4 (file.drop pos) with
  | none =>
    rw [read_of_splitOff_none hpos h₁]
    rfl
  | some sizeRest =>
    obtain ⟨size, rest₁⟩ := sizeRest
    obtain ⟨hr₁, rfl, hpos₁⟩ := read_of_splitOff hpos h₁
    rw [hr₁]
    dsimp only [Result.bind]
    cases h₂ : splitOff (ofBytes size.reverse) (file.drop (pos + 4)) with
    | none =>
      rw [read_of_splitOff_none hpos₁ h₂]
      rfl
    | some hdrRest =>
      obtain ⟨hdr, rest₂⟩ := hdrRest
      obtain ⟨hr₂, rfl, hpos₂⟩ := read_of_splitOff hpos₁ h₂
      rw [hr₂]
      dsimp only [Result.bind]
      cases fmt.parseBlobHeader hdr with
      | none => rfl
      | some h =>
        dsimp only [decode]
        split
        · rfl
        · cases h₃ : splitOff h.datasize.toNat (file.drop (pos + 4 + ofBytes size.reverse)) with
          | none =>
            rw [read_of_splitOff_none hpos₂ h₃]
            rfl
          | some bodyRest =>
            obtain ⟨body, rest₃⟩ := bodyRest
            obtain ⟨hr₃, rfl, hpos₃⟩ := read_of_splitOff hpos₂ h₃
            rw [hr₃]
            dsimp only [Result.bind]
            cases fmt.parseBlob body with
            | none => rfl
            | some b => exact ⟨_, hpos₃, rfl, rfl⟩

/-- The entries from a position on, and how the file ends. -/
def readAll (fmt : Formats) (file : Bytes) (pos : ℕ) : List OSMEntry × Ending :=
  ((batches fmt file pos).1.flatMap Prod.snd, (batches fmt file pos).2)

/-- The entries of a batch come before those behind it. -/
theorem readAll_next (fmt : Formats) (file : Bytes) (pos : ℕ) :
    readAll fmt file pos = match next fmt file pos with
      | .eof => ([], .eof)
      | .error => ([], .error)
      | .ok batch q => (batch ++ (readAll fmt file q).1, (readAll fmt file q).2) := by
  cases h : next fmt file pos with
  | eof =>
    rw [readAll, batches]
    split <;> simp_all
  | error =>
    rw [readAll, batches]
    split <;> simp_all
  | ok batch q =>
    rw [readAll, batches_ok h]
    rfl

theorem next_eq (fmt : Formats) (file : Bytes) (pos : ℕ) :
    next fmt file pos = match readBlob fmt file pos with
      | .eof => .eof
      | .error => .error
      | .ok data q =>
        if data.isEmpty then next fmt file q else decode (fmt.parsePrimitiveBlock data) q := by
  rw [next]
  split <;> rename_i h <;> rw [h]

/-- A blob without content is passed over. -/
theorem readAll_readBlob (fmt : Formats) (file : Bytes) (pos : ℕ) :
    readAll fmt file pos = match readBlob fmt file pos with
      | .eof => ([], .eof)
      | .error => ([], .error)
      | .ok data q =>
        if data.isEmpty then readAll fmt file q
        else match fmt.parsePrimitiveBlock data with
          | none => ([], .error)
          | some batch => (batch ++ (readAll fmt file q).1, (readAll fmt file q).2) := by
  rw [readAll_next, next_eq]
  cases readBlob fmt file pos with
  | eof => rfl
  | error => rfl
  | ok data q =>
    dsimp only
    by_cases hd : data.isEmpty = true
    · rw [if_pos hd, if_pos hd]
      exact (readAll_next fmt file q).symm
    · rw [if_neg hd, if_neg hd]
      cases fmt.parsePrimitiveBlock data <;> rfl

/-- What the reader takes of a blob; `none` is an exception. -/
def taken (fmt : Formats) (f : Frame) : Option (List OSMEntry) :=
  if f.header.type = str "OSMHeader" then some []
  else match content fmt f.blob with
    | none => none
    | some data => if data.isEmpty then some [] else fmt.parsePrimitiveBlock data

/-- The reader, along the framing. -/
def readFrames (fmt : Formats) : List Frame → Tail → List OSMEntry × Ending
  | [], .malformed => ([], .error)
  | [], _ => ([], .eof)
  | f :: fs, t => match taken fmt f with
    | none => ([], .error)
    | some batch => (batch ++ (readFrames fmt fs t).1, (readFrames fmt fs t).2)

/-- Step by step the reader follows the framing. -/
theorem readAll_eq_readFrames {pos : ℕ} (hpos : pos ≤ file.length) : readAll fmt file pos =
    readFrames fmt (frames fmt (file.drop pos)).1 (frames fmt (file.drop pos)).2 := by
  generalize hb : file.drop pos = bytes
  fun_induction frames fmt bytes generalizing pos with
  | case1 bytes f rest hcut ih =>
    have h := readBlob_cut fmt hpos
    rw [hb, hcut] at h
    obtain ⟨q, hq, hrest, hread⟩ := h
    have hih := ih hq hrest.symm
    rw [readAll_readBlob, hread, readFrames, taken]
    by_cases hh : f.header.type = str "OSMHeader"
    · rw [if_pos hh, if_pos hh]
      exact hih
    · rw [if_neg hh, if_neg hh]
      cases content fmt f.blob with
      | none => rfl
      | some data =>
        dsimp only [decode]
        by_cases hd : data.isEmpty = true
        · rw [if_pos hd, if_pos hd]
          exact hih
        · rw [if_neg hd, if_neg hd]
          cases fmt.parsePrimitiveBlock data with
          | none => rfl
          | some batch =>
            dsimp only
            rw [hih]
  | case2 bytes hcut =>
    have h := readBlob_cut fmt hpos
    rw [hb, hcut] at h
    rw [readAll_readBlob, h]
    rfl
  | case3 bytes hcut =>
    have h := readBlob_cut fmt hpos
    rw [hb, hcut] at h
    rw [readAll_readBlob, h]
    dsimp only
    split <;> rfl

/-! ## Loss -/

theorem taken_eq_none_iff (f : Frame) : taken fmt f = none ↔ Rejected fmt f := by
  unfold taken Rejected
  by_cases hh : f.header.type = str "OSMHeader"
  · simp [hh]
  · rw [if_neg hh]
    cases content fmt f.blob with
    | none => simp [hh]
    | some data => cases data <;> simp [hh]

/-- The reader ends with an exception exactly if it meets something malformed, or a blob that it rejects. -/
theorem readFrames_error_iff (fs : List Frame) (t : Tail) :
    (readFrames fmt fs t).2 = .error ↔ t = .malformed ∨ ∃ f ∈ fs, Rejected fmt f := by
  induction fs with
  | nil => cases t <;> simp [readFrames]
  | cons f fs ih =>
    rw [readFrames]
    cases ht : taken fmt f with
    | none => simp [(taken_eq_none_iff f).mp ht]
    | some batch =>
      have hf : ¬ Rejected fmt f := fun h => by simp [(taken_eq_none_iff f).mpr h] at ht
      rw [ih]
      simp [hf]

/-- Otherwise it returns what it takes of each blob. -/
theorem readFrames_entries {fs : List Frame} (t : Tail) (h : ∀ f ∈ fs, ¬ Rejected fmt f) :
    (readFrames fmt fs t).1 = fs.flatMap fun f => (taken fmt f).getD [] := by
  induction fs with
  | nil => cases t <;> rfl
  | cons f fs ih =>
    rw [readFrames, List.flatMap_cons]
    cases ht : taken fmt f with
    | none => exact absurd ((taken_eq_none_iff f).mp ht) (h f List.mem_cons_self)
    | some batch =>
      rw [ih fun g hg => h g (List.mem_cons_of_mem _ hg)]
      rfl

theorem content_of_payload {b : Blob} {data : Bytes} (h : payload fmt b = some data) :
    content fmt b = some data := by
  unfold payload at h
  split at h
  · exact h
  · rename_i hz
    unfold content
    cases hzlib : b.zlib_data with
    | none => simp [h]
    | some z => simp [hzlib] at hz

theorem not_header_of_data {f : Frame} (h : f.header.type = str "OSMData") :
    f.header.type ≠ str "OSMHeader" := by
  rw [h]
  decide

/-- The reader takes the decoding of a content that is not empty. -/
theorem taken_of_content {f : Frame} (hf : ¬ Rejected fmt f) (hh : f.header.type ≠ str "OSMHeader")
    {data : Bytes} (hc : content fmt f.blob = some data) (hd : data ≠ []) :
    ∃ batch, fmt.parsePrimitiveBlock data = some batch ∧ taken fmt f = some batch := by
  cases hp : fmt.parsePrimitiveBlock data with
  | none => exact absurd ⟨hh, .inr ⟨data, hc, hd, hp⟩⟩ hf
  | some batch =>
    have hne : ¬ data.isEmpty = true := fun h => hd (List.isEmpty_iff.mp h)
    refine ⟨batch, rfl, ?_⟩
    unfold taken
    rw [if_neg hh, hc]
    dsimp only
    rw [if_neg hne, hp]

/-- Of a sound blob that is not rejected the reader takes the data, and nothing else. -/
theorem dataEntries_cons {f : Frame} {fs : List Frame} (hf : ¬ Rejected fmt f) (hs : Sound fmt f) :
    dataEntries fmt (f :: fs) = (dataEntries fmt fs).map ((taken fmt f).getD [] ++ ·) := by
  rw [dataEntries]
  by_cases hdata : f.header.type = str "OSMData"
  · obtain ⟨data, hpay, hd⟩ := hs.data hdata
    obtain ⟨batch, hparse, htaken⟩ :=
      taken_of_content hf (not_header_of_data hdata) (content_of_payload hpay) hd
    rw [if_pos hdata, hpay, htaken]
    cases dataEntries fmt fs <;> simp [hparse]
  · have hnone : (taken fmt f).getD [] = [] := by
      by_cases hh : f.header.type = str "OSMHeader"
      · simp [taken, hh]
      · cases hc : content fmt f.blob with
        | none => exact absurd ⟨hh, .inl hc⟩ hf
        | some data =>
          by_cases hd : data = []
          · simp [taken, hh, hc, hd]
          · obtain ⟨batch, hparse, htaken⟩ := taken_of_content hf hh hc hd
            rw [hs.other hdata hh data hc hd] at hparse
            rw [htaken, ← hparse]
            rfl
    rw [if_neg hdata, hnone]
    simp

/-- The data of the blobs is no longer than what the reader takes, and if it is as long then all blobs are
sound. -/
theorem sound_of_length (hparse : fmt.parsePrimitiveBlock [] = none) {fs : List Frame}
    (hfs : ∀ f ∈ fs, ¬ Rejected fmt f) {entries : List OSMEntry}
    (h : dataEntries fmt fs = some entries) :
    entries.length ≤ (fs.flatMap fun f => (taken fmt f).getD []).length ∧
      ((fs.flatMap fun f => (taken fmt f).getD []).length ≤ entries.length → ∀ f ∈ fs, Sound fmt f) := by
  induction fs generalizing entries with
  | nil =>
    cases h
    exact ⟨le_rfl, fun _ f hf => absurd hf List.not_mem_nil⟩
  | cons f fs ih =>
    have hf := hfs f List.mem_cons_self
    have hrest := fun g hg => hfs g (List.mem_cons_of_mem _ hg)
    rw [List.flatMap_cons, List.length_append]
    rw [dataEntries] at h
    split at h
    · rename_i hdata
      simp only [Option.bind_eq_bind, Option.bind_eq_some_iff] at h
      obtain ⟨data, hpay, batch, hbatch, rest, hdatas, h⟩ := h
      obtain rfl := Option.some.inj h
      have hd : data ≠ [] := by
        rintro rfl
        rw [hparse] at hbatch
        cases hbatch
      obtain ⟨batch', hbatch', htaken⟩ :=
        taken_of_content hf (not_header_of_data hdata) (content_of_payload hpay) hd
      rw [hbatch] at hbatch'
      obtain rfl := Option.some.inj hbatch'
      obtain ⟨hle, hsound⟩ := ih hrest hdatas
      rw [htaken, Option.getD_some, List.length_append]
      refine ⟨by omega, fun hge => ?_⟩
      rintro g (_ | ⟨_, hg⟩)
      · exact ⟨fun _ => ⟨data, hpay, hd⟩, fun hno => absurd hdata hno⟩
      · exact hsound (by omega) g hg
    · rename_i hdata
      obtain ⟨hle, hsound⟩ := ih hrest h
      refine ⟨by omega, fun hge => ?_⟩
      rintro g (_ | ⟨_, hg⟩)
      · refine ⟨fun hyes => absurd hyes hdata, fun _ hh data hc hd => ?_⟩
        obtain ⟨batch, hbatch, htaken⟩ := taken_of_content hf hh hc hd
        rw [htaken, Option.getD_some] at hge
        have hnil : batch = [] := List.length_eq_zero_iff.mp (by omega)
        rw [hbatch, hnil]
      · exact hsound (by omega) g hg

theorem dataEntries_of_sound {fs : List Frame} (hfs : ∀ f ∈ fs, ¬ Rejected fmt f)
    (h : ∀ f ∈ fs, Sound fmt f) :
    dataEntries fmt fs = some (fs.flatMap fun f => (taken fmt f).getD []) := by
  induction fs with
  | nil => rfl
  | cons f fs ih =>
    rw [dataEntries_cons (hfs f List.mem_cons_self) (h f List.mem_cons_self),
      ih (fun g hg => hfs g (List.mem_cons_of_mem _ hg)) fun g hg => h g (List.mem_cons_of_mem _ hg)]
    rfl

/-- **Lossless reading.** From the beginning of any file, the calls of `next` raise an error or return
exactly the data of a file that ends with a blob, if and only if one of these holds: something malformed
stands behind the last whole blob; a blob is rejected; or nothing stands behind the last blob and all blobs
are sound. -/
theorem lossless_iff (hparse : fmt.parsePrimitiveBlock [] = none) (file : Bytes) :
    Lossless fmt file ↔ (frames fmt file).2 = .malformed ∨
      (∃ f ∈ (frames fmt file).1, Rejected fmt f) ∨
      ((frames fmt file).2 = .nothing ∧ ∀ f ∈ (frames fmt file).1, Sound fmt f) := by
  obtain ⟨hentries, hending⟩ : (batches fmt file 0).1.flatMap Prod.snd =
      (readFrames fmt (frames fmt file).1 (frames fmt file).2).1 ∧
      (batches fmt file 0).2 = (readFrames fmt (frames fmt file).1 (frames fmt file).2).2 :=
    Prod.mk.inj (readAll_eq_readFrames (Nat.zero_le file.length))
  unfold Lossless
  rw [hentries, hending, readFrames_error_iff, or_assoc]
  by_cases hrej : ∃ f ∈ (frames fmt file).1, Rejected fmt f
  · simp only [hrej, true_or, or_true]
  · have hfs : ∀ f ∈ (frames fmt file).1, ¬ Rejected fmt f := fun f hf h => hrej ⟨f, hf, h⟩
    refine or_congr_right (or_congr_right (and_congr_right fun _ => ?_))
    rw [readFrames_entries _ hfs]
    exact ⟨fun h => (sound_of_length hparse hfs h).2 le_rfl, dataEntries_of_sound hfs⟩

/-! ## Files -/

theorem frames_whole {bytes rest : Bytes} {f : Frame} (h : cut fmt bytes = .whole f rest) :
    frames fmt bytes = (f :: (frames fmt rest).1, (frames fmt rest).2) := by
  rw [frames]
  split <;> rename_i h' <;> rw [h] at h' <;> cases h'
  rfl

theorem frames_incomplete {bytes : Bytes} (h : cut fmt bytes = .incomplete) :
    frames fmt bytes = ([], if bytes.isEmpty then .nothing else .incomplete) := by
  rw [frames]
  split <;> rename_i h' <;> rw [h] at h' <;> cases h'

/-- A primitive block with an empty string table, and one way with one reference. -/
def oneWayBlock : Bytes := [10, 0, 18, 7, 26, 5, 8, 1, 66, 1, 2]

/-- The messages of the files below. Field 1 of a blob is `raw`, field 3 `zlib_data`, field 4
`lzma_data`; a primitive block needs a string table. -/
def sampleFormats : Formats where
  parseBlobHeader b := match b.drop 10 with
    | [n] => if b.take 10 = [10, 7] ++ str "OSMData" ++ [24] then some ⟨str "OSMData", n.toNat⟩ else none
    | _ => none
  parseBlob b := match b with
    | 10 :: n :: data => if data.length = n.toNat then some ⟨some data, none, none⟩ else none
    | 26 :: n :: data => if data.length = n.toNat then some ⟨none, none, some data⟩ else none
    | 34 :: n :: data => if data.length = n.toNat then some ⟨none, none, none⟩ else none
    | _ => none
  uncompress _ _ := none
  parsePrimitiveBlock b := if b = oneWayBlock then some [.way ⟨1, [], .none, [1]⟩] else none

/-- A data blob behind its header. -/
def framed (blob : Bytes) : Bytes :=
  [0, 0, 0, 11] ++ ([10, 7] ++ str "OSMData" ++ [24, UInt8.ofNat blob.length]) ++ blob

/-- The way in a `raw` blob. -/
def rawBlob : Bytes := [10, 11] ++ oneWayBlock

/-- The same length of bytes, as `lzma_data`. -/
def lzmaBlob : Bytes := [34, 11] ++ oneWayBlock

theorem frames_one_blob {blob tail : Bytes} {b : Blob} {t : Tail}
    (hcut : cut sampleFormats (framed blob ++ tail) = .whole ⟨⟨str "OSMData", 13⟩, b⟩ tail)
    (htail : frames sampleFormats tail = ([], t)) :
    frames sampleFormats (framed blob ++ tail) = ([⟨⟨str "OSMData", 13⟩, b⟩], t) := by
  rw [frames_whole hcut, htail]

theorem lossless_one_blob : Lossless sampleFormats (framed rawBlob ++ []) := by
  have hframes : frames sampleFormats (framed rawBlob ++ []) =
      ([⟨⟨str "OSMData", 13⟩, ⟨some oneWayBlock, none, none⟩⟩], .nothing) :=
    frames_one_blob rfl (frames_incomplete rfl)
  refine (lossless_iff rfl _).mpr (.inr (.inr ?_))
  rw [hframes]
  refine ⟨rfl, fun f hf => ?_⟩
  rw [List.mem_singleton.mp hf]
  exact ⟨fun _ => ⟨oneWayBlock, rfl, by decide⟩, fun hno => absurd rfl hno⟩

/-- A file that ends inside the second header, and a file whose only blob is compressed with LZMA: both
are read to an end without an error. -/
theorem truncated_and_lzma_lost :
    (readAll sampleFormats (framed rawBlob ++ [0, 0, 0, 11, 10]) 0).2 = .eof ∧
    ¬ Lossless sampleFormats (framed rawBlob ++ [0, 0, 0, 11, 10]) ∧
    readAll sampleFormats (framed lzmaBlob ++ []) 0 = ([], .eof) ∧
    ¬ Lossless sampleFormats (framed lzmaBlob ++ []) := by
  have hcut : frames sampleFormats (framed rawBlob ++ [0, 0, 0, 11, 10]) =
      ([⟨⟨str "OSMData", 13⟩, ⟨some oneWayBlock, none, none⟩⟩], .incomplete) :=
    frames_one_blob rfl (frames_incomplete rfl)
  have hlzma : frames sampleFormats (framed lzmaBlob ++ []) =
      ([⟨⟨str "OSMData", 13⟩, ⟨none, none, none⟩⟩], .nothing) :=
    frames_one_blob rfl (frames_incomplete rfl)
  have hread : readAll sampleFormats (framed rawBlob ++ [0, 0, 0, 11, 10]) 0 = _ :=
    readAll_eq_readFrames (Nat.zero_le _)
  have hread' : readAll sampleFormats (framed lzmaBlob ++ []) 0 = _ :=
    readAll_eq_readFrames (Nat.zero_le _)
  rw [List.drop_zero, hcut] at hread
  rw [List.drop_zero, hlzma] at hread'
  have heof : (readAll sampleFormats (framed rawBlob ++ [0, 0, 0, 11, 10]) 0).2 = .eof := by
    rw [hread]
    rfl
  have heof' : readAll sampleFormats (framed lzmaBlob ++ []) 0 = ([], .eof) := hread'.trans rfl
  refine ⟨heof, ?_, heof', ?_⟩
  · rintro (herr | ⟨htail, -⟩)
    · exact absurd (heof.symm.trans herr) (by decide)
    · rw [hcut] at htail
      cases htail
  · rintro (herr | ⟨-, hdata⟩)
    · exact absurd ((congrArg Prod.snd heof').symm.trans herr) (by decide)
    · rw [hlzma] at hdata
      cases hdata

end OSMReader

end OsmImport
