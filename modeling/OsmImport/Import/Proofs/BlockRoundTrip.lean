import Mathlib.Data.List.Forall2
import OsmImport.Import.PrimitiveBlock

/-!
# Primitive blocks and their entities

The encoding of groups of entities as the format prescribes, with any numbering of their strings in which
no key has the number 0, and its decoding by `parsePrimitiveBlock`. Arithmetic on ids and coordinates
wraps around on both sides, so no bound on them is needed.
-/

namespace OsmImport

namespace PrimitiveBlock

open OSMPBF DeltaCoding

/-! ## Entities -/

structure OsmNode where
  id : Int64
  lat : Int64
  lon : Int64
  tags : Tags

structure OsmWay where
  id : Int64
  tags : Tags
  refs : List Int64

structure OsmMember where
  type : MemberType
  id : Int64
  role : Str

structure OsmRelation where
  id : Int64
  tags : Tags
  members : List OsmMember

/-- A group; the format wants all but one of the lists to be empty, which is not needed here. -/
structure OsmGroup where
  dense : Option (List OsmNode)
  nodes : List OsmNode
  ways : List OsmWay
  relations : List OsmRelation

/-! ## The encoding -/

/-- A string table, and the number of each string in it. -/
structure Numbering where
  strtable : List Str
  sid : Str → ℕ

variable (num : Numbering)

def encodeKeys (tags : Tags) : List ℕ := tags.entries.map fun kv => num.sid kv.1

def encodeVals (tags : Tags) : List ℕ := tags.entries.map fun kv => num.sid kv.2

/-- The keys and values of a dense node, and the delimiter. -/
def delimited (tags : Tags) : List ℤ :=
  (tags.entries.flatMap fun kv => [(num.sid kv.1 : ℤ), (num.sid kv.2 : ℤ)]) ++ [0]

/-- Empty if no node has tags. -/
def encodeKeysVals (nodes : List OsmNode) : List ℤ :=
  if nodes.all fun n => n.tags.isEmpty then [] else nodes.flatMap fun n => delimited num n.tags

def encodeDense (nodes : List OsmNode) : DenseNodes where
  id := deltas 0 (nodes.map OsmNode.id)
  lat := deltas 0 (nodes.map OsmNode.lat)
  lon := deltas 0 (nodes.map OsmNode.lon)
  keys_vals := encodeKeysVals num nodes

def encodeNode (n : OsmNode) : Node :=
  ⟨n.id, encodeKeys num n.tags, encodeVals num n.tags, n.lat, n.lon⟩

def encodeWay (w : OsmWay) : Way :=
  ⟨w.id, encodeKeys num w.tags, encodeVals num w.tags, deltas 0 w.refs⟩

def encodeRelation (r : OsmRelation) : Relation where
  id := r.id
  keys := encodeKeys num r.tags
  vals := encodeVals num r.tags
  roles_sid := r.members.map fun m => (num.sid m.role : ℤ)
  memids := deltas 0 (r.members.map OsmMember.id)
  types := r.members.map OsmMember.type

def encodeGroup (g : OsmGroup) : PrimitiveGroup :=
  ⟨g.nodes.map (encodeNode num), g.dense.map (encodeDense num), g.ways.map (encodeWay num),
    g.relations.map (encodeRelation num)⟩

/-- The block, with its raster of coordinates. -/
def encodeBlock (granularity : Int32) (lat_offset lon_offset : Int64) (groups : List OsmGroup) :
    OSMPBF.PrimitiveBlock :=
  ⟨num.strtable, groups.map (encodeGroup num), granularity, lat_offset, lon_offset⟩

/-! ## Numberings -/

/-- The string is in the table, under its number. -/
def Numbers (s : Str) : Prop := num.strtable[num.sid s]? = some s

/-- The strings of some tags are in the table, and no key has the number 0. -/
def NumbersTags (tags : Tags) : Prop :=
  ∀ kv ∈ tags.entries, Numbers num kv.1 ∧ num.sid kv.1 ≠ 0 ∧ Numbers num kv.2

/-- The strings of a group are in the table. -/
structure NumbersGroup (g : OsmGroup) : Prop where
  dense : ∀ nodes, g.dense = some nodes → ∀ n ∈ nodes, NumbersTags num n.tags
  nodes : ∀ n ∈ g.nodes, NumbersTags num n.tags
  ways : ∀ w ∈ g.ways, NumbersTags num w.tags
  relations : ∀ r ∈ g.relations, NumbersTags num r.tags ∧ ∀ m ∈ r.members, Numbers num m.role

/-! ## What is decoded -/

/-- The same map, and the name that goes with it. -/
def SameTags (tags tags' : Tags) (name : Str) : Prop :=
  (∀ k, tags'.find k = tags.find k) ∧ name = (tags.find (str "name")).getD []

/-- The nanodegrees of a raw coordinate, in degrees. -/
def coordinate (degrees : Int64 → Double) (offset : Int64) (granularity : Int32) (raw : Int64) :
    Double :=
  degrees (offset + granularity.toInt64 * raw)

/-- The member that is kept. -/
def OsmMember.kept (m : OsmMember) : Option RelationMember :=
  if m.type = .WAY then some ⟨m.id, m.role⟩ else none

variable (degrees : Int64 → Double) (pb : OSMPBF.PrimitiveBlock)

structure NodeDecoded (n : OsmNode) (e : NodeEntry) : Prop where
  id : e.id = n.id
  lat : e.lat = coordinate degrees pb.lat_offset pb.granularity n.lat
  lon : e.lon = coordinate degrees pb.lon_offset pb.granularity n.lon
  tags : SameTags n.tags e.tags e.name

structure WayDecoded (w : OsmWay) (e : WayEntry) : Prop where
  id : e.id = w.id
  refs : e.node_refs = w.refs
  tags : SameTags w.tags e.tags e.name

structure RelationDecoded (r : OsmRelation) (e : RelationEntry) : Prop where
  id : e.id = r.id
  members : e.way_members = r.members.filterMap OsmMember.kept
  tags : SameTags r.tags e.tags e.name

/-- An entity and its entry. -/
inductive Decoded : OsmNode ⊕ OsmWay ⊕ OsmRelation → OSMEntry → Prop
  | node {n : OsmNode} {e : NodeEntry} (h : NodeDecoded degrees pb n e) : Decoded (.inl n) (.node e)
  | way {w : OsmWay} {e : WayEntry} (h : WayDecoded w e) : Decoded (.inr (.inl w)) (.way e)
  | relation {r : OsmRelation} {e : RelationEntry} (h : RelationDecoded r e) :
    Decoded (.inr (.inr r)) (.relation e)

/-- The entities of a group, in their order. -/
def OsmGroup.entities (g : OsmGroup) : List (OsmNode ⊕ OsmWay ⊕ OsmRelation) :=
  (g.dense.getD []).map .inl ++ g.nodes.map .inl ++ g.ways.map (.inr ∘ .inl) ++
    g.relations.map (.inr ∘ .inr)

/-! ## Tags -/

variable {num : Numbering} {degrees : Int64 → Double} {pb : OSMPBF.PrimitiveBlock}

theorem get_of_numbers {s : Str} (h : Numbers num s) : get num.strtable (num.sid s : ℤ) = some s := by
  unfold get
  rw [if_neg (by omega), Int.toNat_natCast]
  exact h

theorem getTagsFrom_encoded {entries : List (Str × Str)}
    (h : ∀ kv ∈ entries, Numbers num kv.1 ∧ num.sid kv.1 ≠ 0 ∧ Numbers num kv.2) (tags : Tags) :
    getTagsFrom num.strtable tags (entries.map fun kv => num.sid kv.1)
      (entries.map fun kv => num.sid kv.2) = some (tags.setAll entries) := by
  induction entries generalizing tags with
  | nil => rfl
  | cons kv entries ih =>
    obtain ⟨hk, -, hv⟩ := h kv List.mem_cons_self
    rw [List.map_cons, List.map_cons, getTagsFrom, get_of_numbers hk, get_of_numbers hv]
    exact ih (fun kv' hkv' => h kv' (List.mem_cons_of_mem _ hkv')) _

theorem getTags_encoded {tags : Tags} (h : NumbersTags num tags) :
    getTags num.strtable (encodeKeys num tags) (encodeVals num tags) =
      some (Tags.none.setAll tags.entries) :=
  getTagsFrom_encoded h .none

theorem takeTags_delimiter (strtable : List Str) (tags : Tags) (rest : List ℤ) :
    takeTags strtable tags (0 :: rest) = some (tags, rest) := by
  cases rest <;> rfl

theorem takeTags_encoded {entries : List (Str × Str)}
    (h : ∀ kv ∈ entries, Numbers num kv.1 ∧ num.sid kv.1 ≠ 0 ∧ Numbers num kv.2) (tags : Tags)
    (rest : List ℤ) :
    takeTags num.strtable tags ((entries.flatMap fun kv => [(num.sid kv.1 : ℤ), (num.sid kv.2 : ℤ)]) ++
      0 :: rest) = some (tags.setAll entries, rest) := by
  induction entries generalizing tags with
  | nil => exact takeTags_delimiter ..
  | cons kv entries ih =>
    obtain ⟨hk, hzero, hv⟩ := h kv List.mem_cons_self
    have hne : ¬ (num.sid kv.1 : ℤ) = 0 := by exact_mod_cast hzero
    rw [List.flatMap_cons, List.append_assoc]
    show takeTags _ _ ((num.sid kv.1 : ℤ) :: (num.sid kv.2 : ℤ) :: _) = _
    rw [takeTags, if_neg hne, get_of_numbers hk, get_of_numbers hv]
    exact ih (fun kv' hkv' => h kv' (List.mem_cons_of_mem _ hkv')) _

theorem sameTags_setAll (tags : Tags) :
    SameTags tags (Tags.none.setAll tags.entries) (nameOf (Tags.none.setAll tags.entries)) :=
  ⟨tags.find_setAll_entries, congrArg (Option.getD · []) (tags.find_setAll_entries _)⟩

/-! ## Nodes -/

theorem add_sub_int64 (a b : Int64) : a + (b - a) = b := by
  grind

/-- The entry that is decoded of a node. -/
def entryOf (degrees : Int64 → Double) (pb : OSMPBF.PrimitiveBlock) (n : OsmNode) : NodeEntry :=
  nodeEntry degrees pb n.id n.lat n.lon (Tags.none.setAll n.tags.entries)

theorem nodeDecoded_entryOf (n : OsmNode) : NodeDecoded degrees pb n (entryOf degrees pb n) :=
  ⟨rfl, rfl, rfl, sameTags_setAll n.tags⟩

/-- `keys_vals` from a node on: the delimited tags of the nodes, or nothing if no node has tags. -/
def KeysVals (num : Numbering) (nodes : List OsmNode) (kv : List ℤ) : Prop :=
  kv = (nodes.flatMap fun n => delimited num n.tags) ∨ kv = [] ∧ ∀ n ∈ nodes, n.tags.isEmpty = true

theorem keysVals_encoded (nodes : List OsmNode) : KeysVals num nodes (encodeKeysVals num nodes) := by
  unfold KeysVals encodeKeysVals
  split
  · rename_i hall
    exact .inr ⟨rfl, fun n hn => List.all_eq_true.mp hall n hn⟩
  · exact .inl rfl

/-- The cursor takes the tags of the first node, and stands at those of the others. -/
theorem takeTags_keysVals {n : OsmNode} {nodes : List OsmNode} {kv : List ℤ}
    (h : KeysVals num (n :: nodes) kv) (hn : NumbersTags num n.tags) :
    ∃ kv', takeTags num.strtable .none kv = some (Tags.none.setAll n.tags.entries, kv') ∧
      KeysVals num nodes kv' := by
  rcases h with rfl | ⟨rfl, hempty⟩
  · refine ⟨_, ?_, .inl rfl⟩
    rw [List.flatMap_cons, delimited, List.append_assoc]
    exact takeTags_encoded hn .none _
  · have hnil : n.tags.entries = [] := List.isEmpty_iff.mp (hempty n List.mem_cons_self)
    refine ⟨[], ?_, .inr ⟨rfl, fun n' hn' => hempty n' (List.mem_cons_of_mem _ hn')⟩⟩
    rw [hnil]
    rfl

theorem denseNodes_encoded (hpb : pb.stringtable = num.strtable) {nodes : List OsmNode}
    (hnodes : ∀ n ∈ nodes, NumbersTags num n.tags) {kv : List ℤ} (hkv : KeysVals num nodes kv)
    (id lat lon : Int64) :
    denseNodes degrees pb id lat lon (deltas id (nodes.map OsmNode.id))
      (deltas lat (nodes.map OsmNode.lat)) (deltas lon (nodes.map OsmNode.lon)) kv =
        some (nodes.map (entryOf degrees pb)) := by
  induction nodes generalizing kv id lat lon with
  | nil => rfl
  | cons n nodes ih =>
    obtain ⟨kv', htake, hkv'⟩ := takeTags_keysVals hkv (hnodes n List.mem_cons_self)
    have hrest := ih (fun n' hn' => hnodes n' (List.mem_cons_of_mem _ hn')) hkv' n.id n.lat n.lon
    simp only [List.map_cons, deltas, denseNodes, add_sub_int64]
    rw [hpb, htake]
    show (denseNodes degrees pb n.id n.lat n.lon _ _ _ kv').bind _ = _
    rw [hrest]
    rfl

theorem parseNode_encoded (degrees : Int64 → Double) (hpb : pb.stringtable = num.strtable) {n : OsmNode}
    (h : NumbersTags num n.tags) :
    parseNode degrees pb (encodeNode num n) = some (entryOf degrees pb n) := by
  unfold parseNode encodeNode
  rw [hpb, getTags_encoded h]
  rfl

/-! ## Ways -/

/-- The entry that is decoded of a way. -/
def wayEntryOf (w : OsmWay) : WayEntry :=
  ⟨w.id, nameOf (Tags.none.setAll w.tags.entries), Tags.none.setAll w.tags.entries, w.refs⟩

theorem wayDecoded_entryOf (w : OsmWay) : WayDecoded w (wayEntryOf w) :=
  ⟨rfl, rfl, sameTags_setAll w.tags⟩

theorem parseWay_encoded (hpb : pb.stringtable = num.strtable) {w : OsmWay}
    (h : NumbersTags num w.tags) : parseWay pb (encodeWay num w) = some (wayEntryOf w) := by
  unfold parseWay encodeWay
  rw [hpb, getTags_encoded h, sums_deltas add_sub_int64]
  rfl

/-! ## Relations -/

theorem roleOf_encoded (hpb : pb.stringtable = num.strtable) {role : Str} (h : Numbers num role) :
    roleOf pb (num.sid role : ℤ) = some role := by
  have hlt : num.sid role < num.strtable.length := (List.getElem?_eq_some_iff.mp h).1
  unfold roleOf
  rw [hpb, if_pos (by exact_mod_cast hlt)]
  exact get_of_numbers h

/-- The accumulator advances over every member, and the members that are no ways are left out. -/
theorem wayMembers_encoded (hpb : pb.stringtable = num.strtable) {members : List OsmMember}
    (h : ∀ m ∈ members, Numbers num m.role) (id : Int64) :
    wayMembers pb id (deltas id (members.map OsmMember.id)) (members.map OsmMember.type)
      (members.map fun m => (num.sid m.role : ℤ)) = some (members.filterMap OsmMember.kept) := by
  induction members generalizing id with
  | nil => rfl
  | cons m members ih =>
    have hrest := ih (fun m' hm' => h m' (List.mem_cons_of_mem _ hm')) m.id
    simp only [List.map_cons, deltas, wayMembers, add_sub_int64, List.head?_cons, List.tail_cons]
    rw [hrest]
    by_cases hway : m.type = .WAY
    · have hkept : m.kept = some ⟨m.id, m.role⟩ := if_pos hway
      rw [if_pos hway, List.filterMap_cons_some hkept]
      show (roleOf pb (num.sid m.role : ℤ)).bind _ = _
      rw [roleOf_encoded hpb (h m List.mem_cons_self)]
      rfl
    · have hkept : m.kept = none := if_neg hway
      rw [if_neg hway, List.filterMap_cons_none hkept]

/-- The entry that is decoded of a relation. -/
def relationEntryOf (r : OsmRelation) : RelationEntry :=
  ⟨r.id, nameOf (Tags.none.setAll r.tags.entries), Tags.none.setAll r.tags.entries,
    r.members.filterMap OsmMember.kept⟩

theorem relationDecoded_entryOf (r : OsmRelation) : RelationDecoded r (relationEntryOf r) :=
  ⟨rfl, rfl, sameTags_setAll r.tags⟩

theorem parseRelation_encoded (hpb : pb.stringtable = num.strtable) {r : OsmRelation}
    (htags : NumbersTags num r.tags) (hroles : ∀ m ∈ r.members, Numbers num m.role) :
    parseRelation pb (encodeRelation num r) = some (relationEntryOf r) := by
  unfold parseRelation encodeRelation
  rw [hpb, getTags_encoded htags, wayMembers_encoded hpb hroles]
  rfl

/-! ## Groups -/

theorem mapM_encoded {α β γ : Type} {parse : β → Option γ} {encode : α → β} {entry : α → γ} {l : List α}
    (h : ∀ a ∈ l, parse (encode a) = some (entry a)) : (l.map encode).mapM parse = some (l.map entry) := by
  induction l with
  | nil => rfl
  | cons a l ih =>
    rw [List.map_cons, List.mapM_cons, h a List.mem_cons_self,
      ih fun b hb => h b (List.mem_cons_of_mem _ hb)]
    rfl

theorem parseDense_encoded (hpb : pb.stringtable = num.strtable) {dense : Option (List OsmNode)}
    (h : ∀ nodes, dense = some nodes → ∀ n ∈ nodes, NumbersTags num n.tags) :
    parseDense degrees pb (dense.map (encodeDense num)) =
      some ((dense.getD []).map (entryOf degrees pb)) := by
  cases dense with
  | none => rfl
  | some nodes => exact denseNodes_encoded hpb (h nodes rfl) (keysVals_encoded nodes) 0 0 0

/-- The entries that are decoded of a group. -/
def groupEntries (degrees : Int64 → Double) (pb : OSMPBF.PrimitiveBlock) (g : OsmGroup) :
    List OSMEntry :=
  ((g.dense.getD []).map (entryOf degrees pb)).map .node ++ (g.nodes.map (entryOf degrees pb)).map .node ++
    (g.ways.map wayEntryOf).map .way ++ (g.relations.map relationEntryOf).map .relation

theorem parseGroup_encoded (degrees : Int64 → Double) (hpb : pb.stringtable = num.strtable)
    {g : OsmGroup} (h : NumbersGroup num g) :
    parseGroup degrees pb (encodeGroup num g) = some (groupEntries degrees pb g) := by
  have hnodes := mapM_encoded fun n hn => parseNode_encoded degrees hpb (h.nodes n hn)
  have hways := mapM_encoded fun w hw => parseWay_encoded hpb (h.ways w hw)
  have hrelations := mapM_encoded fun r hr =>
    parseRelation_encoded hpb (h.relations r hr).1 (h.relations r hr).2
  unfold parseGroup encodeGroup
  rw [parseDense_encoded hpb h.dense, hnodes, hways, hrelations]
  rfl

theorem decoded_map {α β : Type} {entity : α → OsmNode ⊕ OsmWay ⊕ OsmRelation} {entry : α → β}
    {wrap : β → OSMEntry} (h : ∀ a, Decoded degrees pb (entity a) (wrap (entry a))) (l : List α) :
    List.Forall₂ (Decoded degrees pb) (l.map entity) ((l.map entry).map wrap) := by
  rw [List.map_map, List.forall₂_map_left_iff, List.forall₂_map_right_iff, List.forall₂_same]
  exact fun a _ => h a

theorem decoded_group (g : OsmGroup) :
    List.Forall₂ (Decoded degrees pb) g.entities (groupEntries degrees pb g) := by
  unfold OsmGroup.entities groupEntries
  refine List.rel_append (List.rel_append (List.rel_append ?dense ?nodes) ?ways) ?relations
  case dense => exact decoded_map (fun n => .node (nodeDecoded_entryOf n)) _
  case nodes => exact decoded_map (fun n => .node (nodeDecoded_entryOf n)) _
  case ways => exact decoded_map (fun w => .way (wayDecoded_entryOf w)) _
  case relations => exact decoded_map (fun r => .relation (relationDecoded_entryOf r)) _

/-! ## Blocks -/

theorem decoded_groups (groups : List OsmGroup) :
    List.Forall₂ (Decoded degrees pb) (groups.flatMap OsmGroup.entities)
      (groups.map (groupEntries degrees pb)).flatten := by
  induction groups with
  | nil => exact .nil
  | cons g groups ih =>
    rw [List.flatMap_cons, List.map_cons, List.flatten_cons]
    exact List.rel_append (decoded_group g) ih

/-- Decoding the encoding of groups gives the entry of each of their entities, in their order. -/
theorem block_round_trip (degrees : Int64 → Double) (num : Numbering) (granularity : Int32)
    (lat_offset lon_offset : Int64) (groups : List OsmGroup) (h : ∀ g ∈ groups, NumbersGroup num g) :
    ∃ entries, parsePrimitiveBlock degrees (encodeBlock num granularity lat_offset lon_offset groups) =
        some entries ∧
      List.Forall₂ (Decoded degrees (encodeBlock num granularity lat_offset lon_offset groups))
        (groups.flatMap OsmGroup.entities) entries := by
  refine ⟨_, ?_, decoded_groups groups⟩
  have hpb : (encodeBlock num granularity lat_offset lon_offset groups).stringtable = num.strtable := rfl
  have hgroups := mapM_encoded fun g hg => parseGroup_encoded degrees hpb (h g hg)
  unfold parsePrimitiveBlock
  show Option.map _ ((groups.map (encodeGroup num)).mapM _) = _
  rw [hgroups]
  rfl

/-! ## A numbering for every block -/

/-- The tag maps of a group. -/
def OsmGroup.tagMaps (g : OsmGroup) : List Tags :=
  (g.dense.getD []).map OsmNode.tags ++ g.nodes.map OsmNode.tags ++ g.ways.map OsmWay.tags ++
    g.relations.map OsmRelation.tags

/-- The strings of a group. -/
def OsmGroup.strings (g : OsmGroup) : List Str :=
  (g.tagMaps.flatMap fun tags => tags.entries.flatMap fun kv => [kv.1, kv.2]) ++
    g.relations.flatMap fun r => r.members.map OsmMember.role

/-- The strings from the number 1 on; the reserved number 0 is that of the empty string. -/
def numbering (strings : List Str) : Numbering :=
  ⟨[] :: strings, fun s => if s = [] then 0 else strings.idxOf s + 1⟩

theorem numbers_numbering {strings : List Str} {s : Str} (h : s ∈ strings) :
    Numbers (numbering strings) s := by
  show (([] :: strings)[if s = [] then 0 else strings.idxOf s + 1]? : Option Str) = some s
  by_cases hs : s = []
  · rw [if_pos hs, hs]
    rfl
  · rw [if_neg hs, List.getElem?_cons_succ]
    exact List.getElem?_idxOf h

theorem numbersTags_numbering {strings : List Str} {tags : Tags}
    (h : ∀ kv ∈ tags.entries, kv.1 ∈ strings ∧ kv.2 ∈ strings) (hkeys : ∀ kv ∈ tags.entries, kv.1 ≠ []) :
    NumbersTags (numbering strings) tags := by
  intro kv hkv
  refine ⟨numbers_numbering (h kv hkv).1, ?_, numbers_numbering (h kv hkv).2⟩
  show (if kv.1 = [] then 0 else strings.idxOf kv.1 + 1) ≠ 0
  rw [if_neg (hkeys kv hkv)]
  omega

/-- The format can write every list of groups without empty keys. -/
theorem numbersGroup_numbering {groups : List OsmGroup}
    (hkeys : ∀ g ∈ groups, ∀ tags ∈ g.tagMaps, ∀ kv ∈ tags.entries, kv.1 ≠ []) {g : OsmGroup}
    (hg : g ∈ groups) : NumbersGroup (numbering (groups.flatMap OsmGroup.strings)) g := by
  have htags : ∀ tags ∈ g.tagMaps, NumbersTags (numbering (groups.flatMap OsmGroup.strings)) tags := by
    refine fun tags ht => numbersTags_numbering (fun kv hkv => ?_) (hkeys g hg tags ht)
    have hpair : ∀ s ∈ [kv.1, kv.2], s ∈ groups.flatMap OsmGroup.strings := fun s hs =>
      List.mem_flatMap.mpr ⟨g, hg, List.mem_append_left _
        (List.mem_flatMap.mpr ⟨tags, ht, List.mem_flatMap.mpr ⟨kv, hkv, hs⟩⟩)⟩
    exact ⟨hpair _ (by simp), hpair _ (by simp)⟩
  constructor
  case dense =>
    intro nodes hnodes n hn
    refine htags _ (List.mem_append_left _ (List.mem_append_left _ (List.mem_append_left _ ?_)))
    rw [hnodes]
    exact List.mem_map_of_mem hn
  case nodes =>
    intro n hn
    exact htags _ (List.mem_append_left _ (List.mem_append_left _ (List.mem_append_right _
      (List.mem_map_of_mem hn))))
  case ways =>
    intro w hw
    exact htags _ (List.mem_append_left _ (List.mem_append_right _ (List.mem_map_of_mem hw)))
  case relations =>
    intro r hr
    refine ⟨htags _ (List.mem_append_right _ (List.mem_map_of_mem hr)), fun m hm => ?_⟩
    refine numbers_numbering (List.mem_flatMap.mpr ⟨g, hg, List.mem_append_right _ ?_⟩)
    exact List.mem_flatMap.mpr ⟨r, hr, List.mem_map_of_mem hm⟩

/-- A street between two dense nodes, one of them tagged, a plain node, and a relation of all three types. -/
def sampleGroups : List OsmGroup :=
  let name : Tags := ⟨[(str "name", str "A")], by decide⟩
  [⟨some [⟨5, 1, 2, .none⟩, ⟨7, 3, 4, name⟩], [⟨9, 5, 6, name⟩], [], []⟩,
    ⟨none, [], [⟨11, name, [5, 7, 5]⟩], [⟨13, name, [⟨.NODE, 5, []⟩, ⟨.WAY, 11, str "A"⟩]⟩]⟩]

theorem block_round_trip_sample :
    let num := numbering (sampleGroups.flatMap OsmGroup.strings)
    (∀ g ∈ sampleGroups, NumbersGroup num g) ∧
      ∃ entries, parsePrimitiveBlock (fun x => ⟨x.toUInt64⟩) (encodeBlock num 100 0 0 sampleGroups) =
          some entries ∧
        List.Forall₂ (Decoded (fun x => ⟨x.toUInt64⟩) (encodeBlock num 100 0 0 sampleGroups))
          (sampleGroups.flatMap OsmGroup.entities) entries := by
  have hnumbers : ∀ g ∈ sampleGroups,
      NumbersGroup (numbering (sampleGroups.flatMap OsmGroup.strings)) g :=
    fun g hg => numbersGroup_numbering (by decide) hg
  exact ⟨hnumbers, block_round_trip _ _ 100 0 0 sampleGroups hnumbers⟩

end PrimitiveBlock

end OsmImport
