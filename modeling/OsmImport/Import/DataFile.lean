import OsmImport.Import.Proofs.BlockRoundTrip
import OsmImport.Import.Proofs.Lossless
import OsmImport.Import.Sequential

/-!
# A data set and its files

Nodes, ways and relations as they are meant, and the PBF files that hold them: any number of blobs with their
headers, blobs of type `OSMHeader` between them, the data in any division into blocks and groups, dense or
plain, on any raster of coordinates, raw or compressed. The decoders of protobuf and zlib are parameters; a
file is one on which they give back what was written.
-/

namespace OsmImport

open PrimitiveBlock OSMReader LittleEndian

/-- The decoders of protobuf and zlib, and the multiplication by `1e-9`. -/
structure Protobuf where
  parseBlobHeader : Bytes → Option BlobHeader
  parseBlob : Bytes → Option Blob
  uncompress : Bytes → ℤ → Option Bytes
  parseBlock : Bytes → Option OSMPBF.PrimitiveBlock
  degrees : Int64 → Double

/-- The reader's decoders: behind protobuf's parser comes `parsePrimitiveBlock`. -/
def Protobuf.formats (pb : Protobuf) : Formats where
  parseBlobHeader := pb.parseBlobHeader
  parseBlob := pb.parseBlob
  uncompress := pb.uncompress
  parsePrimitiveBlock bytes := (pb.parseBlock bytes).bind (parsePrimitiveBlock pb.degrees)

/-! ## Blocks -/

/-- A block with its string table and raster; the numbering covers its strings. -/
structure DataBlock where
  num : Numbering
  granularity : Int32
  lat_offset : Int64
  lon_offset : Int64
  groups : List OsmGroup
  numbers : ∀ g ∈ groups, NumbersGroup num g

namespace DataBlock

variable (b : DataBlock)

/-- The message. -/
def encode : OSMPBF.PrimitiveBlock := encodeBlock b.num b.granularity b.lat_offset b.lon_offset b.groups

/-- A node of the block, with its coordinates in nanodegrees. -/
def absolute (n : OsmNode) : OsmNode :=
  ⟨n.id, b.lat_offset + b.granularity.toInt64 * n.lat, b.lon_offset + b.granularity.toInt64 * n.lon, n.tags⟩

/-- The entities in their order, the nodes in nanodegrees. -/
def entities : List (OsmNode ⊕ OsmWay ⊕ OsmRelation) :=
  (b.groups.flatMap OsmGroup.entities).map (Sum.map b.absolute id)

end DataBlock

/-! ## Entries -/

/-- The entry of a node in nanodegrees. -/
def nodeEntryOf (degrees : Int64 → Double) (n : OsmNode) : NodeEntry :=
  let tags := Tags.none.setAll n.tags.entries
  ⟨n.id, nameOf tags, tags, degrees n.lon, degrees n.lat⟩

/-- The entry of an entity. -/
def entityEntry (degrees : Int64 → Double) : OsmNode ⊕ OsmWay ⊕ OsmRelation → OSMEntry
  | .inl n => .node (nodeEntryOf degrees n)
  | .inr (.inl w) => .way (wayEntryOf w)
  | .inr (.inr r) => .relation (relationEntryOf r)

/-- Nodes, ways and relations. -/
structure OsmData where
  nodes : List OsmNode
  ways : List OsmWay
  relations : List OsmRelation

namespace OsmData

variable (data : OsmData) (degrees : Int64 → Double)

/-- First the nodes, then the ways, then the relations. -/
def entities : List (OsmNode ⊕ OsmWay ⊕ OsmRelation) :=
  data.nodes.map .inl ++ (data.ways.map (.inr ∘ .inl) ++ data.relations.map (.inr ∘ .inr))

def nodeEntries : List NodeEntry := data.nodes.map (nodeEntryOf degrees)

def wayEntries : List WayEntry := data.ways.map wayEntryOf

def relationEntries : List RelationEntry := data.relations.map relationEntryOf

variable (chk : Checks) (cfg : Config)

/-- The positions of the nodes. -/
def position : Int64 → Option Coord :=
  lastWrite ((data.nodeEntries degrees).map fun n => (n.id, NodeThread.position cfg n))

/-- The import without threads, without a file: the entities go into the database one after another. -/
def sequential (db : Database) : Database :=
  ((data.nodeEntries degrees).foldl (Database.addNode cfg) db).addAll chk cfg (data.position degrees cfg)
    data.wayEntries data.relationEntries

/-- What an import can keep apart. -/
structure Distinct (max_id : Int64) : Prop where
  nodes : (data.nodes.map OsmNode.id).Nodup
  range : ∀ n ∈ data.nodes, 0 ≤ n.id ∧ n.id ≤ max_id
  ways : (data.ways.map OsmWay.id).Nodup
  relations : Unambiguous data.relationEntries

/-- The COPY of the nodes is accepted. -/
def NodesFit (db : Database) : Prop :=
  ∀ n ∈ data.nodes, chk.rowOk .node (NodeThread.row cfg (nodeEntryOf degrees n)) = true ∧
    n.id ∉ (db.rows .node).map Row.id

end OsmData

/-! ## Files -/

variable (pb : Protobuf)

/-- The bytes of a blob with its header: four bytes for the size of the header, most significant first. -/
structure FrameBytes (bytes : Bytes) (f : Frame) : Prop where
  parts : ∃ hdr body, bytes = (toBytes 4 hdr.length).reverse ++ hdr ++ body ∧ hdr.length < 2 ^ 32 ∧
    pb.parseBlobHeader hdr = some f.header ∧ f.header.datasize = body.length ∧ pb.parseBlob body = some f.blob

/-- A data blob of a block: its content, raw or compressed, is the message of the block. -/
def HoldsBlock (f : Frame) (b : DataBlock) : Prop :=
  f.header.type = str "OSMData" ∧
    ∃ content, payload pb.formats f.blob = some content ∧ content ≠ [] ∧ pb.parseBlock content = some b.encode

/-- The bytes of a file with the blocks. -/
inductive FileBytes : Bytes → List DataBlock → Prop where
  | nil : FileBytes [] []
  | header {bytes rest : Bytes} {f : Frame} {blocks : List DataBlock} (hframe : FrameBytes pb bytes f)
      (htype : f.header.type = str "OSMHeader") (hrest : FileBytes rest blocks) :
      FileBytes (bytes ++ rest) blocks
  | data {bytes rest : Bytes} {f : Frame} {b : DataBlock} {blocks : List DataBlock}
      (hframe : FrameBytes pb bytes f) (hblock : HoldsBlock pb f b) (hrest : FileBytes rest blocks) :
      FileBytes (bytes ++ rest) (b :: blocks)

/-- A file of a data set: its blocks hold the entities in their order. -/
structure DataFile (data : OsmData) where
  bytes : Bytes
  blocks : List DataBlock
  written : FileBytes pb bytes blocks
  entities : blocks.flatMap DataBlock.entities = data.entities

end OsmImport
