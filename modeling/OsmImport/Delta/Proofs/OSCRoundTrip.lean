import OsmImport.Delta.OSCReader

/-!
# Documents and their changes

An osmChange document is a sequence of create, modify and delete blocks with any number of elements
each. Its events lead to one call of the callback for each element, in document order, with what the
element says and nothing of the elements before it: between two elements no flag is set, and every
element starts with an empty entry.
-/

namespace OsmImport

namespace OSCReader

/-! ## Documents -/

inductive MemberType where
  | node
  | way
  | relation
deriving DecidableEq, Repr

/-- The text of a member's type. -/
def MemberType.text : MemberType → Str
  | .node => str "node"
  | .way => str "way"
  | .relation => str "relation"

structure Member where
  type : MemberType
  ref : Int64
  role : Option Str

/-- An element of a document; `info` are attributes that the parser does not look at. -/
inductive Element where
  | node (id : Int64) (lat lon : Double) (info : Attrs) (tags : List (Str × Str))
  | way (id : Int64) (info : Attrs) (refs : List Int64) (tags : List (Str × Str))
  | relation (id : Int64) (info : Attrs) (members : List Member) (tags : List (Str × Str))

/-- An element with start and end. -/
def element (name : Str) (attrs : Attrs) (content : List XmlEvent) : List XmlEvent :=
  .startElement name attrs :: content ++ [.endElement name]

/-- The text of an integer. -/
def intText (i : Int64) : Str := Decimal.ofInt i.toInt

def tagEvents (kv : Str × Str) : List XmlEvent :=
  element (str "tag") [(str "k", kv.1), (str "v", kv.2)] []

def refEvents (ref : Int64) : List XmlEvent := element (str "nd") [(str "ref", intText ref)] []

def memberAttrs (m : Member) : Attrs :=
  [(str "type", m.type.text), (str "ref", intText m.ref)] ++
    m.role.toList.map fun role => (str "role", role)

def memberEvents (m : Member) : List XmlEvent := element (str "member") (memberAttrs m) []

/-- The events of an element; `double` writes a coordinate. -/
def Element.events (double : Double → Str) : Element → List XmlEvent
  | .node id lat lon info tags => element (str "node")
      ([(str "id", intText id), (str "lat", double lat), (str "lon", double lon)] ++ info)
      (tags.flatMap tagEvents)
  | .way id info refs tags => element (str "way") ((str "id", intText id) :: info)
      (refs.flatMap refEvents ++ tags.flatMap tagEvents)
  | .relation id info members tags => element (str "relation") ((str "id", intText id) :: info)
      (members.flatMap memberEvents ++ tags.flatMap tagEvents)

/-- The name of a block. -/
def blockName : ChangeType → Str
  | .create => str "create"
  | .modify => str "modify"
  | .delete => str "delete"

/-- The events of a block. -/
def blockEvents (double : Double → Str) (b : ChangeType × List Element) : List XmlEvent :=
  element (blockName b.1) [] (b.2.flatMap (Element.events double))

/-- The events of a document. -/
def document (double : Double → Str) (blocks : List (ChangeType × List Element)) : List XmlEvent :=
  element (str "osmChange") [] (blocks.flatMap (blockEvents double))

/-- The elements of a document, each with the type of its block. -/
def elements (blocks : List (ChangeType × List Element)) : List (ChangeType × Element) :=
  blocks.flatMap fun b => b.2.map fun e => (b.1, e)

/-- Coordinates are written so that `std::stod` reads them back, and no reference is 0. -/
def Element.Valid (lib : Library) (double : Double → Str) : Element → Prop
  | .node _ lat lon _ _ => lib.stod (double lat) = some lat ∧ lib.stod (double lon) = some lon
  | .way _ _ refs _ => ∀ ref ∈ refs, ref ≠ 0
  | .relation _ _ members _ => ∀ m ∈ members, m.ref ≠ 0

/-! ## What is delivered -/

/-- The map of the tags, and the name that goes with it. -/
def TagsAre (pairs : List (Str × Str)) (tags : Tags) (name : Str) : Prop :=
  (∀ k, tags.find k = Tags.lastValue pairs k) ∧
    name = (Tags.lastValue pairs (str "name")).getD []

/-- The member that is kept. -/
def Member.kept (m : Member) : Option RelationMember :=
  if m.type = .way then some ⟨m.ref, m.role.getD []⟩ else none

/-- The change for an element of a block. -/
inductive Delivers : ChangeType × Element → OSCChange → Prop
  | node {type : ChangeType} {n : NodeEntry} {info : Attrs} {tags : List (Str × Str)}
    (htags : TagsAre tags n.tags n.name) :
    Delivers (type, .node n.id n.lat n.lon info tags) (.node type n)
  | way {type : ChangeType} {w : WayEntry} {info : Attrs} {tags : List (Str × Str)}
    (htags : TagsAre tags w.tags w.name) :
    Delivers (type, .way w.id info w.node_refs tags) (.way type w)
  | relation {type : ChangeType} {r : RelationEntry} {info : Attrs} {members : List Member}
    {tags : List (Str × Str)} (hmembers : r.way_members = members.filterMap Member.kept)
    (htags : TagsAre tags r.tags r.name) :
    Delivers (type, .relation r.id info members tags) (.relation type r)

/-! ## Events -/

variable {lib : Library} {double : Double → Str} {s : ParseState}

theorem handleAll_append (s : ParseState) (a b : List XmlEvent) :
    handleAll lib s (a ++ b) = (handleAll lib s a).bind fun s => handleAll lib s b :=
  List.foldlM_append

theorem handleAll_cons (s : ParseState) (e : XmlEvent) (es : List XmlEvent) :
    handleAll lib s (e :: es) = (handle lib s e).bind fun s => handleAll lib s es := rfl

/-- The end of any other element. -/
theorem endElement_other {name : Str} (h : name ≠ str "node" ∧ name ≠ str "way" ∧ name ≠ str "relation")
    (s : ParseState) : endElement lib s name = s := by
  simp [endElement, h.1, h.2.1, h.2.2]

/-- The start, the content and the end. -/
theorem handleAll_entity {name : Str} {attrs : Attrs} {content : List XmlEvent} {s s₁ s₂ : ParseState}
    (hstart : startElement lib s name attrs = some s₁) (hcontent : handleAll lib s₁ content = some s₂) :
    handleAll lib s (element name attrs content) = some (endElement lib s₂ name) := by
  unfold element
  rw [List.cons_append, handleAll_cons]
  show (startElement lib s name attrs).bind _ = _
  rw [hstart, Option.bind_some, handleAll_append, hcontent]
  rfl

/-- An element whose end does nothing. -/
theorem handleAll_element {name : Str} {attrs : Attrs} {content : List XmlEvent}
    (h : name ≠ str "node" ∧ name ≠ str "way" ∧ name ≠ str "relation") (s : ParseState) :
    handleAll lib s (element name attrs content) =
      (startElement lib s name attrs).bind fun s => handleAll lib s content := by
  unfold element
  rw [List.cons_append, handleAll_cons]
  show (startElement lib s name attrs).bind _ = _
  congr 1
  funext s₁
  rw [handleAll_append]
  cases handleAll lib s₁ content with
  | none => rfl
  | some s₂ =>
    show some (endElement lib s₂ name) = some s₂
    rw [endElement_other h]

theorem stoll_intText (i : Int64) : stoll (intText i) = some i := by
  unfold stoll intText
  rw [Decimal.scan_ofInt, Option.bind_some, if_pos ⟨i.le_toInt, i.toInt_lt⟩, Int64.ofInt_toInt]

/-! ## Tags, references and members -/

/-- The state behind the tags of an entry. -/
def ParseState.addTags (s : ParseState) (pairs : List (Str × Str)) : ParseState :=
  { s with
    node := if s.in_node then { s.node with tags := s.node.tags.setAll pairs } else s.node
    way := if s.in_way then { s.way with tags := s.way.tags.setAll pairs } else s.way
    relation :=
      if s.in_relation then { s.relation with tags := s.relation.tags.setAll pairs } else s.relation }

theorem addTags_nil (s : ParseState) : s.addTags [] = s := by
  simp [ParseState.addTags, Tags.setAll]

theorem handleAll_tags (s : ParseState) (pairs : List (Str × Str)) :
    handleAll lib s (pairs.flatMap tagEvents) = some (s.addTags pairs) := by
  induction pairs generalizing s with
  | nil => exact congrArg some (addTags_nil s).symm
  | cons kv pairs ih =>
    have htag : handleAll lib s (tagEvents kv) = some (s.addTags [kv]) := by
      unfold tagEvents
      rw [handleAll_element (by decide)]
      rfl
    rw [List.flatMap_cons, handleAll_append, htag, Option.bind_some, ih]
    congr 1
    unfold ParseState.addTags Tags.setAll
    cases s.in_node <;> cases s.in_way <;> cases s.in_relation <;> rfl

theorem handleAll_refs {refs : List Int64} (hrefs : ∀ ref ∈ refs, ref ≠ 0) {s : ParseState}
    (hs : s.in_way = true) : handleAll lib s (refs.flatMap refEvents) =
      some { s with way.node_refs := s.way.node_refs ++ refs } := by
  induction refs generalizing s with
  | nil =>
    rw [List.append_nil]
    rfl
  | cons ref refs ih =>
    have hnd : handleAll lib s (refEvents ref) =
        some { s with way.node_refs := s.way.node_refs ++ [ref] } := by
      unfold refEvents
      rw [handleAll_element (by decide)]
      have hstart : startElement lib s (str "nd") [(str "ref", intText ref)] =
          startNd s [(str "ref", intText ref)] := by
        show (if str "nd" = str "nd" ∧ s.in_way = true then _ else _) = _
        rw [if_pos ⟨rfl, hs⟩]
      have href : getInt64 [(str "ref", intText ref)] (str "ref") = some ref := stoll_intText ref
      rw [hstart, startNd, href]
      show some (if ref = 0 then s else _) = _
      rw [if_neg (hrefs ref List.mem_cons_self)]
    rw [List.flatMap_cons, handleAll_append, hnd, Option.bind_some,
      ih (fun r hr => hrefs r (List.mem_cons_of_mem _ hr)) (by exact hs)]
    simp

theorem startMember_eq {m : Member} (hm : m.ref ≠ 0) (s : ParseState) :
    startMember s (memberAttrs m) =
      some { s with relation.way_members := s.relation.way_members ++ m.kept.toList } := by
  have htype : getAttr (memberAttrs m) (str "type") = some m.type.text := rfl
  have href : getInt64 (memberAttrs m) (str "ref") = some m.ref := stoll_intText m.ref
  have hrole : getAttr (memberAttrs m) (str "role") = m.role := by
    cases hr : m.role <;> simp only [memberAttrs, hr] <;> rfl
  unfold startMember Member.kept
  rw [htype, href, hrole]
  by_cases hway : m.type = .way
  · have htext : some m.type.text = some (str "way") := by rw [hway]; rfl
    rw [if_pos htext, if_pos hway]
    show some (if m.ref = 0 then s else _) = _
    rw [if_neg hm]
    rfl
  · have htext : some m.type.text ≠ some (str "way") := by
      cases ht : m.type with
      | way => exact absurd ht hway
      | node => decide
      | relation => decide
    rw [if_neg htext, if_neg hway, Option.toList_none, List.append_nil]

theorem handleAll_member {m : Member} (hm : m.ref ≠ 0) {s : ParseState} (hs : s.in_relation = true) :
    handleAll lib s (memberEvents m) =
      some { s with relation.way_members := s.relation.way_members ++ m.kept.toList } := by
  have hstart : startElement lib s (str "member") (memberAttrs m) = startMember s (memberAttrs m) := by
    show (if str "member" = str "member" ∧ s.in_relation = true then _ else _) = _
    rw [if_pos ⟨rfl, hs⟩]
  unfold memberEvents
  rw [handleAll_element (by decide), hstart, startMember_eq hm]
  rfl

theorem handleAll_members {members : List Member} (hmembers : ∀ m ∈ members, m.ref ≠ 0)
    {s : ParseState} (hs : s.in_relation = true) :
    handleAll lib s (members.flatMap memberEvents) =
      some { s with relation.way_members :=
        s.relation.way_members ++ members.filterMap Member.kept } := by
  induction members generalizing s with
  | nil =>
    rw [List.filterMap_nil, List.append_nil]
    rfl
  | cons m members ih =>
    rw [List.flatMap_cons, handleAll_append, handleAll_member (hmembers m List.mem_cons_self) hs,
      Option.bind_some, ih (fun m' hm' => hmembers m' (List.mem_cons_of_mem _ hm')) (by exact hs),
      List.filterMap_cons]
    cases m.kept <;> simp

/-! ## Elements -/

/-- Between two elements nothing is being built. -/
def Between (s : ParseState) : Prop :=
  s.in_node = false ∧ s.in_way = false ∧ s.in_relation = false

/-- The state behind some elements of blocks: their changes have been delivered. -/
structure Delivered (s s' : ParseState) (es : List (ChangeType × Element)) : Prop where
  calls : ∃ changes, s'.calls = s.calls ++ changes ∧ List.Forall₂ Delivers es changes
  count : s'.count = s.count + es.length
  between : Between s'

theorem Delivered.refl {s : ParseState} (hs : Between s) : Delivered s s [] :=
  ⟨⟨[], (List.append_nil _).symm, .nil⟩, rfl, hs⟩

theorem Delivered.trans {s s' s'' : ParseState} {es es' : List (ChangeType × Element)}
    (h : Delivered s s' es) (h' : Delivered s' s'' es') : Delivered s s'' (es ++ es') := by
  obtain ⟨changes, hcalls, hes⟩ := h.calls
  obtain ⟨changes', hcalls', hes'⟩ := h'.calls
  refine ⟨⟨changes ++ changes', ?_, List.rel_append hes hes'⟩, ?_, h'.between⟩
  · rw [hcalls', hcalls, List.append_assoc]
  · rw [h'.count, h.count, List.length_append, Nat.add_assoc]

theorem tagsAre_setAll (pairs : List (Str × Str)) :
    TagsAre pairs (Tags.none.setAll pairs) (nameOf [] (Tags.none.setAll pairs)) :=
  ⟨Tags.find_setAll pairs, congrArg (Option.getD · []) (Tags.find_setAll pairs _)⟩

/-- An element delivers its change, whatever the entries of the state hold. -/
theorem handleAll_events {e : Element} (he : e.Valid lib double) (hs : Between s) :
    ∃ s', handleAll lib s (e.events double) = some s' ∧ s'.cur_change = s.cur_change ∧
      Delivered s s' [(s.cur_change, e)] := by
  obtain ⟨hn, hw, hr⟩ := hs
  cases e with
  | node id lat lon info tags =>
    have hstart : startElement lib s (str "node") ([(str "id", intText id), (str "lat", double lat),
        (str "lon", double lon)] ++ info) =
          some { s with in_node := true, node := { emptyNode with id := id, lat := lat, lon := lon } } := by
      show (do
        let id ← stoll (intText id)
        let lat ← lib.stod (double lat)
        let lon ← lib.stod (double lon)
        return { s with
          in_node := true
          node := { emptyNode with id := id, lat := lat, lon := lon } }) = _
      rw [stoll_intText, he.1, he.2]
      rfl
    refine ⟨_, handleAll_entity hstart (handleAll_tags _ tags), rfl, ⟨[_], rfl, ?_⟩, rfl, rfl, hw, hr⟩
    exact .cons (.node (n := ⟨id, _, _, lon, lat⟩) (tagsAre_setAll tags)) .nil
  | way id info refs tags =>
    have hstart : startElement lib s (str "way") ((str "id", intText id) :: info) =
        some { s with in_way := true, way := { emptyWay with id := id } } := by
      show (do
        let id ← stoll (intText id)
        return { s with in_way := true, way := { emptyWay with id := id } }) = _
      rw [stoll_intText]
      rfl
    have hcontent : ∀ s₁ : ParseState, s₁.in_way = true →
        handleAll lib s₁ (refs.flatMap refEvents ++ tags.flatMap tagEvents) =
          some (ParseState.addTags { s₁ with way.node_refs := s₁.way.node_refs ++ refs } tags) := by
      intro s₁ hs₁
      rw [handleAll_append, handleAll_refs he hs₁, Option.bind_some, handleAll_tags]
    refine ⟨_, handleAll_entity hstart (hcontent _ rfl), rfl, ⟨[_], rfl, ?_⟩, rfl, hn, rfl, hr⟩
    exact .cons (.way (w := ⟨id, _, _, refs⟩) (tagsAre_setAll tags)) .nil
  | relation id info members tags =>
    have hstart : startElement lib s (str "relation") ((str "id", intText id) :: info) =
        some { s with in_relation := true, relation := { emptyRelation with id := id } } := by
      show (do
        let id ← stoll (intText id)
        return { s with in_relation := true, relation := { emptyRelation with id := id } }) = _
      rw [stoll_intText]
      rfl
    have hcontent : ∀ s₁ : ParseState, s₁.in_relation = true →
        handleAll lib s₁ (members.flatMap memberEvents ++ tags.flatMap tagEvents) =
          some (ParseState.addTags { s₁ with
            relation.way_members := s₁.relation.way_members ++ members.filterMap Member.kept } tags) := by
      intro s₁ hs₁
      rw [handleAll_append, handleAll_members he hs₁, Option.bind_some, handleAll_tags]
    refine ⟨_, handleAll_entity hstart (hcontent _ rfl), rfl, ⟨[_], rfl, ?_⟩, rfl, hn, hw, rfl⟩
    exact .cons (.relation (r := ⟨id, _, _, members.filterMap Member.kept⟩) rfl (tagsAre_setAll tags)) .nil

/-! ## Blocks and documents -/

theorem handleAll_elements {es : List Element} (hes : ∀ e ∈ es, e.Valid lib double) (hs : Between s) :
    ∃ s', handleAll lib s (es.flatMap (Element.events double)) = some s' ∧
      s'.cur_change = s.cur_change ∧ Delivered s s' (es.map fun e => (s.cur_change, e)) := by
  induction es generalizing s with
  | nil => exact ⟨s, rfl, rfl, .refl hs⟩
  | cons e es ih =>
    obtain ⟨s₁, hrun₁, htype₁, h₁⟩ := handleAll_events (hes e List.mem_cons_self) hs
    obtain ⟨s₂, hrun₂, htype₂, h₂⟩ := ih (fun e' he' => hes e' (List.mem_cons_of_mem _ he')) h₁.between
    rw [htype₁] at h₂
    refine ⟨s₂, ?_, htype₂.trans htype₁, h₁.trans h₂⟩
    rw [List.flatMap_cons, handleAll_append, hrun₁, Option.bind_some, hrun₂]

/-- The start of a block sets the type for its elements. -/
theorem handleAll_block {b : ChangeType × List Element} (hb : ∀ e ∈ b.2, e.Valid lib double)
    (hs : Between s) :
    ∃ s', handleAll lib s (blockEvents double b) = some s' ∧
      Delivered s s' (b.2.map fun e => (b.1, e)) := by
  obtain ⟨type, es⟩ := b
  have hstart : startElement lib s (blockName type) [] = some { s with cur_change := type } := by
    cases type <;> rfl
  have hname : blockName type ≠ str "node" ∧ blockName type ≠ str "way" ∧
      blockName type ≠ str "relation" := by
    cases type <;> decide
  obtain ⟨s', hrun, -, h⟩ := handleAll_elements (s := { s with cur_change := type }) hb hs
  refine ⟨s', ?_, h.calls, h.count, h.between⟩
  unfold blockEvents
  rw [handleAll_element hname, hstart]
  exact hrun

theorem handleAll_blocks {blocks : List (ChangeType × List Element)}
    (hblocks : ∀ b ∈ blocks, ∀ e ∈ b.2, e.Valid lib double) (hs : Between s) :
    ∃ s', handleAll lib s (blocks.flatMap (blockEvents double)) = some s' ∧
      Delivered s s' (elements blocks) := by
  induction blocks generalizing s with
  | nil => exact ⟨s, rfl, .refl hs⟩
  | cons b blocks ih =>
    obtain ⟨s₁, hrun₁, h₁⟩ := handleAll_block (hblocks b List.mem_cons_self) hs
    obtain ⟨s₂, hrun₂, h₂⟩ := ih (fun b' hb' => hblocks b' (List.mem_cons_of_mem _ hb')) h₁.between
    refine ⟨s₂, ?_, h₁.trans h₂⟩
    rw [List.flatMap_cons, handleAll_append, hrun₁, Option.bind_some, hrun₂]

/-- **Documents.** The parse of the document of any blocks ends without an exception, calls the callback
for each element in document order with the change that the element says, and returns their number. -/
theorem osc_round_trip (lib : Library) (double : Double → Str)
    (blocks : List (ChangeType × List Element))
    (h : ∀ b ∈ blocks, ∀ e ∈ b.2, e.Valid lib double) :
    ∃ changes, parse lib (document double blocks) = some (changes, (elements blocks).length) ∧
      List.Forall₂ Delivers (elements blocks) changes := by
  obtain ⟨s, hrun, ⟨changes, hcalls, hes⟩, hcount, -⟩ :=
    handleAll_blocks (s := .initial) h ⟨rfl, rfl, rfl⟩
  have hdoc : handleAll lib .initial (document double blocks) = some s := by
    unfold document
    rw [handleAll_element (by decide)]
    exact hrun
  refine ⟨changes, ?_, hes⟩
  unfold parse
  rw [hdoc, Option.map_some, hcalls, hcount]
  show some (changes, 0 + _) = _
  rw [Nat.zero_add]

/-- A library that reads one number; strings and vectors are empty behind a move. -/
def zeroLibrary : Library where
  stod t := if t = str "0" then some ⟨0⟩ else none
  movedNode n := { n with name := [], tags := .none }
  movedWay w := { w with name := [], tags := .none, node_refs := [] }
  movedRelation r := { r with name := [], tags := .none, way_members := [] }

/-- A node and a way with a tag that is given twice, and a relation that is deleted. -/
def twoBlocks : List (ChangeType × List Element) :=
  [(.create, [.node 1 ⟨0⟩ ⟨0⟩ [(str "version", str "1")] [(str "name", str "a")],
      .way 2 [] [1, 5] [(str "name", str "b"), (str "name", str "c")]]),
    (.delete, [.relation 3 [] [⟨.node, 1, none⟩, ⟨.way, 2, some (str "outer")⟩, ⟨.way, 4, none⟩] []])]

theorem osc_round_trip_two_blocks :
    ∃ changes, parse zeroLibrary (document (fun _ => str "0") twoBlocks) = some (changes, 3) ∧
      List.Forall₂ Delivers (elements twoBlocks) changes := by
  refine osc_round_trip zeroLibrary (fun _ => str "0") twoBlocks fun b hb e he => ?_
  simp only [twoBlocks, List.mem_cons, List.not_mem_nil, or_false] at hb
  rcases hb with rfl | rfl
  · simp only [List.mem_cons, List.not_mem_nil, or_false] at he
    rcases he with rfl | rfl
    · exact ⟨rfl, rfl⟩
    · simp [Element.Valid]
  · rw [List.mem_singleton.mp he]
    simp [Element.Valid]

end OSCReader

end OsmImport
