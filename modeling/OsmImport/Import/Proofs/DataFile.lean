import OsmImport.Import.DataFile
import OsmImport.Import.Proofs.ImportResult

/-!
# A data set through a file into the tables

Whatever the layout of its file, the reader returns the entries of a data set in their order, and an import
of the file leaves in the tables what the import of the entries one after another leaves there.
-/

namespace OsmImport

open PrimitiveBlock OSMReader LittleEndian

variable {pb : Protobuf}

/-! ## Framing -/

theorem splitOff_append (a b : Bytes) : splitOff a.length (a ++ b) = some (a, b) := by
  have hlen : a.length ≤ (a ++ b).length := by simp
  rw [splitOff, if_pos hlen, List.take_left, List.drop_left]

/-- A blob is cut off the front of a file. -/
theorem FrameBytes.cut {bytes : Bytes} {f : Frame} (h : FrameBytes pb bytes f) (rest : Bytes) :
    cut pb.formats (bytes ++ rest) = .whole f rest := by
  obtain ⟨hdr, body, rfl, hlen, hheader, hsize, hblob⟩ := h.parts
  have hfour : splitOff 4 ((toBytes 4 hdr.length).reverse ++ hdr ++ body ++ rest) =
      some ((toBytes 4 hdr.length).reverse, hdr ++ (body ++ rest)) := by
    have happend := splitOff_append (toBytes 4 hdr.length).reverse (hdr ++ (body ++ rest))
    rw [List.length_reverse, length_toBytes] at happend
    simpa only [List.append_assoc] using happend
  have hcount : ofBytes (toBytes 4 hdr.length).reverse.reverse = hdr.length := by
    rw [List.reverse_reverse, ofBytes_toBytes (by omega)]
  have hnonneg : ¬ f.header.datasize < 0 := by omega
  have htoNat : f.header.datasize.toNat = body.length := by omega
  unfold OSMReader.cut
  rw [hfour]
  dsimp only
  rw [hcount, splitOff_append]
  dsimp only
  have hparse : pb.formats.parseBlobHeader hdr = some f.header := hheader
  rw [hparse]
  dsimp only
  rw [if_neg hnonneg, htoNat, splitOff_append]
  dsimp only
  have hparse' : pb.formats.parseBlob body = some f.blob := hblob
  rw [hparse']

/-! ## Blocks -/

/-- What is decoded of a block are the entries of its entities. -/
theorem parse_encode (degrees : Int64 → Double) (b : DataBlock) :
    parsePrimitiveBlock degrees b.encode = some (b.entities.map (entityEntry degrees)) := by
  have hstrings : b.encode.stringtable = b.num.strtable := rfl
  have hgroups := mapM_encoded fun g hg => parseGroup_encoded degrees hstrings (b.numbers g hg)
  have hentries : ∀ g, groupEntries degrees b.encode g =
      (g.entities.map (Sum.map b.absolute id)).map (entityEntry degrees) := by
    intro g
    simp only [groupEntries, OsmGroup.entities, List.map_append, List.map_map]
    rfl
  have hmap : b.encode.primitivegroup = b.groups.map (encodeGroup b.num) := rfl
  rw [parsePrimitiveBlock, hmap, hgroups, Option.map_some, DataBlock.entities, List.map_flatMap,
    List.map_flatMap, List.flatMap_def]
  exact congrArg some (congrArg List.flatten (List.map_congr_left fun g _ => hentries g))

theorem taken_of_block {f : Frame} {b : DataBlock} (h : HoldsBlock pb f b) :
    taken pb.formats f = some (b.entities.map (entityEntry pb.degrees)) := by
  obtain ⟨htype, content, hpayload, hne, hparse⟩ := h
  have hdecoded : pb.formats.parsePrimitiveBlock content =
      some (b.entities.map (entityEntry pb.degrees)) := by
    show (pb.parseBlock content).bind _ = _
    rw [hparse, Option.bind_some, parse_encode]
  have hempty : ¬ content.isEmpty = true := fun h => hne (List.isEmpty_iff.mp h)
  rw [taken, if_neg (not_header_of_data htype), content_of_payload hpayload]
  dsimp only
  rw [if_neg hempty, hdecoded]

/-! ## Files -/

/-- The reader returns the entries of all blocks, and comes to the end of the file. -/
theorem readFrames_fileBytes {bytes : Bytes} {blocks : List DataBlock} (h : FileBytes pb bytes blocks) :
    readFrames pb.formats (frames pb.formats bytes).1 (frames pb.formats bytes).2 =
      ((blocks.flatMap DataBlock.entities).map (entityEntry pb.degrees), .eof) := by
  induction h with
  | nil =>
    have hnone : cut pb.formats [] = .incomplete := rfl
    rw [frames_incomplete hnone]
    rfl
  | header hframe htype _ ih =>
    rw [frames_whole (hframe.cut _), readFrames, taken, if_pos htype, ih]
    rfl
  | data hframe hblock _ ih =>
    rw [frames_whole (hframe.cut _), readFrames, taken_of_block hblock, ih, List.flatMap_cons,
      List.map_append]

namespace DataFile

variable {data : OsmData} (file : DataFile pb data)

theorem readAll_eq : readAll pb.formats file.bytes 0 = (data.entities.map (entityEntry pb.degrees), .eof) := by
  have hread : readAll pb.formats file.bytes 0 = _ := readAll_eq_readFrames (Nat.zero_le file.bytes.length)
  rw [List.drop_zero, readFrames_fileBytes file.written, file.entities] at hread
  exact hread

/-- A file of a data set can be read to its end: first nodes, then ways, then relations. -/
def ordered : OrderedFile pb.formats where
  bytes := file.bytes
  nodes := data.nodeEntries pb.degrees
  ways := data.wayEntries
  relations := data.relationEntries
  complete := congrArg Prod.snd file.readAll_eq
  ordered := by
    refine (congrArg Prod.fst file.readAll_eq).trans ?_
    simp only [OsmData.entities, OsmData.nodeEntries, OsmData.wayEntries, OsmData.relationEntries,
      List.map_append, List.map_map]
    rfl

theorem ordered_distinct {max_id : Int64} (h : data.Distinct max_id) : file.ordered.Distinct max_id := by
  have hids : (data.nodeEntries pb.degrees).map NodeEntry.id = data.nodes.map OsmNode.id := List.map_map
  have hways : data.wayEntries.map WayEntry.id = data.ways.map OsmWay.id := List.map_map
  refine ⟨?_, fun n hn => ?_, ?_, h.relations⟩
  · exact hids ▸ h.nodes
  · obtain ⟨m, hm, rfl⟩ := List.mem_map.mp hn
    exact h.range m hm
  · exact hways ▸ h.ways

end DataFile

/-- **From the data set to the tables.** A fresh import of a file of a data set that comes to its end leaves in
the database what the entities of the data set leave there, one after another: the tables depend neither on
the layout of the file nor on the threads. -/
theorem data_import {data : OsmData} (file : DataFile pb data) {chk : Checks} {cfg : Config}
    (hphase : cfg.resume_phase = .nodes) {osmmap : OSMMMap} {db : Database} {log : List ImportEvent}
    {s : Import}
    (h : Trace (Import.Step cfg (Database.offer chk))
      (Import.start cfg osmmap db (Producer.run cfg.node_threads .nodes pb.formats file.bytes ⟨none, none⟩))
      log s) (hend : s.script = []) {max_id : Int64}
    (hst : OSMMMap.Created max_id cfg.node_threads osmmap) (hties : cfg.KeepsTies)
    (hdata : data.Distinct max_id) (hfit : data.NodesFit pb.degrees chk cfg db) :
    SameOutcome s.shared.db (data.sequential pb.degrees chk cfg db) := by
  have hnodes : file.ordered.NodesFit chk cfg db := by
    intro n hn
    obtain ⟨m, hm, rfl⟩ := List.mem_map.mp hn
    exact hfit m hm
  have hrun : Trace (Import.Step cfg (Database.offer chk))
    (Import.start cfg osmmap db (file.ordered.script cfg)) log s := h
  exact (outcome_of_end hphase hrun hend hst hties (file.ordered_distinct hdata) hnodes).2

/-! ## A path between two nodes -/

def pathTags : Tags := ⟨[(str "highway", str "path")], by decide⟩

def pathData : OsmData := ⟨[⟨1, 100, 100, .none⟩, ⟨2, 200, 200, .none⟩], [⟨3, pathTags, [1, 2]⟩], []⟩

/-- The nodes are dense, on the usual raster of 100 nanodegrees. -/
def pathGroups : List OsmGroup :=
  [⟨some [⟨1, 1, 1, .none⟩, ⟨2, 2, 2, .none⟩], [], [], []⟩, ⟨none, [], [⟨3, pathTags, [1, 2]⟩], []⟩]

def pathBlock : DataBlock where
  num := numbering (pathGroups.flatMap OsmGroup.strings)
  granularity := 100
  lat_offset := 0
  lon_offset := 0
  groups := pathGroups
  numbers := fun _ hg => numbersGroup_numbering (by decide) hg

/-- The message of the block: its string table and two groups. -/
def pathBytes : Bytes :=
  [10, 17, 10, 0, 10, 7] ++ str "highway" ++ [10, 4] ++ str "path" ++
    [18, 14, 18, 12, 10, 2, 2, 2, 66, 2, 2, 2, 74, 2, 2, 2] ++
    [18, 14, 26, 12, 8, 3, 18, 1, 1, 26, 1, 2, 66, 2, 2, 2]

/-- The parsers on the messages of the file, and the product with `1e-9` for the two coordinates. -/
def pathProtobuf : Protobuf where
  parseBlobHeader := sampleFormats.parseBlobHeader
  parseBlob := sampleFormats.parseBlob
  uncompress := sampleFormats.uncompress
  parseBlock bytes := if bytes = pathBytes then some pathBlock.encode else none
  degrees x := if x = 100 then ⟨0x3E7AD7F29ABCAF49⟩ else if x = 200 then ⟨0x3E8AD7F29ABCAF49⟩ else ⟨0⟩

theorem path_frame : FrameBytes pathProtobuf (framed ([10, 51] ++ pathBytes))
    ⟨⟨str "OSMData", 53⟩, ⟨some pathBytes, none, none⟩⟩ where
  parts := ⟨[10, 7] ++ str "OSMData" ++ [24, 53], [10, 51] ++ pathBytes, rfl, by decide, rfl, rfl, rfl⟩

theorem path_parsed : pathProtobuf.parseBlock pathBytes = some pathBlock.encode := by
  have hparse : pathProtobuf.parseBlock pathBytes =
    if pathBytes = pathBytes then some pathBlock.encode else none := rfl
  rw [hparse, if_pos rfl]

def pathFile : DataFile pathProtobuf pathData where
  bytes := framed ([10, 51] ++ pathBytes) ++ []
  blocks := [pathBlock]
  written := .data path_frame ⟨rfl, pathBytes, rfl, by decide, path_parsed⟩ .nil
  entities := rfl

theorem data_import_path : ∃ st log s, OSMMMap.Created 10 2 st ∧
    Trace (Import.Step pondConfig (Database.offer Checks.any))
      (Import.start pondConfig st blankDb
        (Producer.run 2 .nodes pathProtobuf.formats pathFile.bytes ⟨none, none⟩)) log s ∧ s.script = [] ∧
    SameOutcome s.shared.db (pathData.sequential pathProtobuf.degrees Checks.any pondConfig blankDb) := by
  obtain ⟨st, hst, hplat⟩ := OSMMMap.created_ten
  have hroom : HasRoom pondConfig st (pathFile.ordered.script pondConfig) :=
    hasRoom_fresh pondConfig pathFile.ordered (hplat ▸ OSMMMap.roomy_plain 2) (by decide)
  have hstart : Trace (Import.Step pondConfig (Database.offer Checks.any))
    (Import.start pondConfig st blankDb (pathFile.ordered.script pondConfig)) [] _ := .nil
  obtain ⟨log, s, h, hend⟩ := Import.finishes (sensible_fresh pond_fresh) hroom hstart
  refine ⟨st, log, s, hst, h, hend, ?_⟩
  exact data_import pathFile pond_fresh h hend hst pond_ties
    ⟨by decide, by decide, by decide, by decide, by decide⟩ fun n _ => ⟨rfl, List.not_mem_nil⟩

end OsmImport
