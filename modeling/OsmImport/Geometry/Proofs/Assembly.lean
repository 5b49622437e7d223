import OsmImport.Geometry.Proofs.CutRings
import OsmImport.Geometry.Proofs.RoundTrip
import OsmImport.Geometry.Proofs.Scattered

/-!
# When an assembled relation is right

`buildMultipolygon` is to return nothing when a member has no coordinates or the segments of a role are not
closed rings, end to end, and otherwise to write rings that have the edges of the members and no others.
When the segments can be joined, every point is the end of an even number of them, and then a walk ends
where it has started: no closing edge is added. In all other cases something is written as soon as there is
a ring to write at all; there is none in scattered segments.
-/

namespace OsmImport

open Chains

/-! ## What is written -/

/-- The polygons that are written, each one with its holes. -/
def polygonsOf (inner_rings : List Ring) : List Ring → List (Ring × List Ring)
  | [] => []
  | [outer] => [(outer, inner_rings)]
  | outer_rings => outer_rings.map fun outer => (outer, inner_rings.filter (inBox outer))

/-- The text of polygons: nothing, a polygon or a multipolygon. -/
def encodePolygons (g_srid : ℕ) : List (Ring × List Ring) → Str
  | [] => []
  | [polygon] => toHexUpper (writeWkbPolygon g_srid polygon.1 polygon.2)
  | polygons => toHexUpper (1 :: wu32 0x20000006 ++ wu32 g_srid ++ wu32 polygons.length ++
      polygons.flatMap fun polygon => writeWkbPolygon g_srid polygon.1 polygon.2)

/-- `outer_rings`. -/
def outerRings (item : RelationEntry) (coords_map : Int64 → List Coord) : List Ring :=
  stitchRings (segmentsOf false item coords_map)

/-- `inner_rings`. -/
def innerRings (item : RelationEntry) (coords_map : Int64 → List Coord) : List Ring :=
  stitchRings (segmentsOf true item coords_map)

/-- The polygons of a relation. -/
def polygons (item : RelationEntry) (coords_map : Int64 → List Coord) : List (Ring × List Ring) :=
  polygonsOf (innerRings item coords_map) (outerRings item coords_map)

theorem buildMultipolygon_eq_encode (g_srid : ℕ) (item : RelationEntry)
    (coords_map : Int64 → List Coord) :
    buildMultipolygon g_srid item coords_map = encodePolygons g_srid (polygons item coords_map) := by
  rw [buildMultipolygon_eq, polygons, outerRings, innerRings]
  rcases stitchRings (segmentsOf false item coords_map) with _ | ⟨outer, _ | ⟨outer', outers⟩⟩
  · rfl
  · rfl
  · simp only [polygonsOf, encodePolygons, multiPolygonBytes, List.map_cons, List.length_cons,
      List.length_map, List.flatMap_cons, List.flatMap_map]

theorem toHexUpper_ne_nil (x : UInt8) (b : Bytes) : toHexUpper (x :: b) ≠ [] := by
  rw [toHexUpper, hex, List.flatMap_cons]
  exact List.cons_ne_nil _ _

theorem buildMultipolygon_eq_nil (g_srid : ℕ) (item : RelationEntry) (coords_map : Int64 → List Coord) :
    buildMultipolygon g_srid item coords_map = [] ↔
      stitchRings (segmentsOf false item coords_map) = [] := by
  rw [buildMultipolygon_eq]
  rcases stitchRings (segmentsOf false item coords_map) with _ | ⟨outer, _ | ⟨outer', outers⟩⟩
  · exact ⟨fun _ => rfl, fun _ => rfl⟩
  · exact ⟨fun h => absurd h (toHexUpper_ne_nil _ _), fun h => by cases h⟩
  · exact ⟨fun h => absurd h (toHexUpper_ne_nil _ _), fun h => by cases h⟩

/-- The rings that are written are stitched from the segments of a role. -/
theorem mem_polygonsOf {inner_rings outer_rings : List Ring} {polygon : Ring × List Ring}
    (h : polygon ∈ polygonsOf inner_rings outer_rings) {ring : Ring} (hr : ring ∈ polygon.1 :: polygon.2) :
    ring ∈ outer_rings ∨ ring ∈ inner_rings := by
  have hmany : ∀ {outers : List Ring},
      polygon ∈ outers.map (fun outer => (outer, inner_rings.filter (inBox outer))) →
      ring ∈ outers ∨ ring ∈ inner_rings := by
    intro outers hp
    obtain ⟨outer, ho, rfl⟩ := List.mem_map.mp hp
    rcases List.mem_cons.mp hr with rfl | hr
    · exact .inl ho
    · exact .inr (List.mem_of_mem_filter hr)
  rcases outer_rings with _ | ⟨outer, _ | ⟨outer', outers⟩⟩
  · cases h
  · obtain rfl := List.mem_singleton.mp h
    rcases List.mem_cons.mp hr with rfl | hr
    · exact .inl List.mem_cons_self
    · exact .inr hr
  · exact hmany h

/-! ## Members that can be joined -/

/-- The segments can be joined end to end into closed rings of four points at least that use all of
them. -/
def Joinable (segs : List Segment) : Prop :=
  ∃ family : List (List Segment), (∀ ps ∈ family, RingPieces ps) ∧
    Multiset.Rel Turned (segs : Multiset Segment) (family.flatten : Multiset Segment)

/-- All members have coordinates, and the segments of both roles can be joined. -/
structure Assembles (item : RelationEntry) (coords_map : Int64 → List Coord) : Prop where
  found : ∀ m ∈ item.way_members, coords_map m.id ≠ []
  outers : Joinable (segmentsOf false item coords_map)
  inners : Joinable (segmentsOf true item coords_map)

/-- Nothing is returned for what cannot be assembled, and the edges of what is returned are edges of
members. -/
structure NotWrong (g_srid : ℕ) (item : RelationEntry) (coords_map : Int64 → List Coord) : Prop where
  reported : ¬ Assembles item coords_map → buildMultipolygon g_srid item coords_map = []
  edges : buildMultipolygon g_srid item coords_map ≠ [] → ∀ polygon ∈ polygons item coords_map,
    ∀ ring ∈ polygon.1 :: polygon.2, ∀ a b, Edge Coord.value ring a b →
      ∃ m ∈ item.way_members,
        Edge Coord.value (coords_map m.id) a b ∨ Edge Coord.value (coords_map m.id) b a

theorem Joinable.comparable {segs : List Segment} (h : Joinable segs) : ∀ s ∈ segs, Comparable s := by
  obtain ⟨family, hfam, hrel⟩ := h
  intro s hs
  obtain ⟨p, hp, hturn⟩ := Multiset.exists_mem_of_rel_of_mem hrel hs
  obtain ⟨ps, hps, hp⟩ := List.mem_flatten.mp (Multiset.mem_coe.mp hp)
  exact ((hfam ps hps).comparable p hp).turned hturn.symm

theorem Joinable.evenEnds {segs : List Segment} (h : Joinable segs) :
    EvenEnds Coord.value (segs : Multiset Segment) := by
  obtain ⟨family, hfam, hrel⟩ := h
  have heven : EvenEnds Coord.value (family.flatten : Multiset Segment) := by
    clear hrel
    induction family with
    | nil => exact fun v => ⟨0, by simp [ends]⟩
    | cons ps family ih =>
      rw [List.flatten_cons, ← Multiset.coe_add]
      exact (hfam ps List.mem_cons_self).cyclic.evenEnds.add
        (ih fun qs hqs => hfam qs (List.mem_cons_of_mem ps hqs))
  intro v
  rw [ends_of_turned Coord.value hrel]
  exact heven v

/-- A walk through segments with even ends comes back, and leaves segments with even ends. -/
theorem Appends.closed_of_even {seg : Segment} {segs : List Segment} {ring : Ring} {rest : List Segment}
    {taken : Multiset Segment} {more : List Segment} (h : Appends [seg] segs ring rest taken more)
    (heven : EvenEnds Coord.value (seg :: segs : List Segment)) :
    closes ring = true ∧ EvenEnds Coord.value (rest : Multiset Segment) := by
  have hjoin : ring = Chains.join (seg :: more) := h.join
  have hlink : Linked Coord.value (seg :: more) := h.linked
  have hcmp : ∀ q ∈ seg :: more, Comparable q := h.comparable
  have hne : ∀ q ∈ seg :: more, q ≠ [] := fun q hq => (hcmp q hq).ne_nil
  have heven' : EvenEnds Coord.value ((seg :: more : List Segment) + (rest : Multiset Segment)) := by
    intro v
    have hends : ends Coord.value ((seg :: more : List Segment) + (rest : Multiset Segment)) =
        ends Coord.value (seg :: segs : List Segment) := by
      rw [← Multiset.cons_coe, ← Multiset.cons_coe, h.segs, Multiset.cons_add, ends_cons, ends_cons,
        ends_add, ends_add, ends_of_turned Coord.value h.turned]
    rw [hends]
    exact heven v
  have hback : back Coord.value (Chains.join (seg :: more)) = front Coord.value seg := by
    rcases h.ended with ⟨-, hcloses⟩ | hstuck
    · rw [← hjoin, ← h.comparable_ring.closes_iff.mp hcloses, hjoin,
        front_join Coord.value (hne seg List.mem_cons_self)]
    · exact heven'.back_join hlink hne (hjoin ▸ hstuck)
  refine ⟨?_, heven'.left hlink hne hback⟩
  rw [h.comparable_ring.closes_iff, hjoin, hback, front_join Coord.value (hne seg List.mem_cons_self)]

/-- The edges of the rings are edges of the segments, when every point is the end of an even number of
segments. -/
theorem Stitches.edges {segs : List Segment} {rings : List Ring} (h : Stitches segs rings)
    (hsegs : ∀ s ∈ segs, Comparable s) (heven : EvenEnds Coord.value (segs : Multiset Segment))
    {ring : Ring} (hr : ring ∈ rings) {a b : ℤ × ℤ} (he : Edge Coord.value ring a b) :
    ∃ s ∈ segs, Edge Coord.value s a b ∨ Edge Coord.value s b a := by
  induction h with
  | done => cases hr
  | @ring seg segs ring' rest rings hwalk _ _ ih =>
    obtain ⟨taken, more, ha, hcmp⟩ := hwalk.appends_first hsegs
    obtain ⟨hcloses, hrest⟩ := ha.closed_of_even heven
    rcases List.mem_cons.mp hr with rfl | hr
    · rw [closeRing_of_closes hcloses, ha.join] at he
      obtain ⟨p, hp, hedge⟩ := edge_join Coord.value ha.linked (fun q hq => (ha.comparable q hq).ne_nil) he
      rcases List.mem_cons.mp hp with rfl | hp
      · exact ⟨p, List.mem_cons_self, .inl hedge⟩
      · obtain ⟨s, hs, hturn⟩ := Multiset.exists_mem_of_rel_of_mem (rel_turned_symm ha.turned) hp
        refine ⟨s, List.mem_cons_of_mem seg ?_, hturn.symm.edge Coord.value hedge⟩
        rw [← Multiset.mem_coe, ha.segs]
        exact Multiset.mem_add.mpr (.inl hs)
    · obtain ⟨s, hs, hedge⟩ := ih hcmp hrest hr
      exact ⟨s, List.mem_cons_of_mem seg (ha.mem_of_rest hs), hedge⟩
  | @short seg segs ring' rest rings hwalk _ _ ih =>
    obtain ⟨taken, more, ha, hcmp⟩ := hwalk.appends_first hsegs
    obtain ⟨-, hrest⟩ := ha.closed_of_even heven
    obtain ⟨s, hs, hedge⟩ := ih hcmp hrest hr
    exact ⟨s, List.mem_cons_of_mem seg (ha.mem_of_rest hs), hedge⟩

theorem mem_segmentsOf {inner : Bool} {item : RelationEntry} {coords_map : Int64 → List Coord}
    {s : Segment} (h : s ∈ segmentsOf inner item coords_map) :
    ∃ m ∈ item.way_members, coords_map m.id = s := by
  obtain ⟨m, hm, rfl⟩ := List.mem_map.mp h
  exact ⟨m, List.mem_of_mem_filter (List.mem_of_mem_filter hm), rfl⟩

theorem segmentsOf_ne_nil {inner : Bool} {item : RelationEntry} {coords_map : Int64 → List Coord} :
    ∀ s ∈ segmentsOf inner item coords_map, s ≠ [] := by
  intro s hs
  obtain ⟨m, hm, rfl⟩ := List.mem_map.mp hs
  have hfound := (List.mem_filter.mp (List.mem_of_mem_filter hm)).2
  simpa using hfound

theorem edge_of_joinable {inner : Bool} {item : RelationEntry} {coords_map : Int64 → List Coord}
    (h : Joinable (segmentsOf inner item coords_map)) {ring : Ring}
    (hr : ring ∈ stitchRings (segmentsOf inner item coords_map)) {a b : ℤ × ℤ}
    (he : Edge Coord.value ring a b) : ∃ m ∈ item.way_members,
      Edge Coord.value (coords_map m.id) a b ∨ Edge Coord.value (coords_map m.id) b a := by
  obtain ⟨s, hs, hedge⟩ := (stitches_stitchRings _).edges h.comparable h.evenEnds hr he
  obtain ⟨m, hm, rfl⟩ := mem_segmentsOf hs
  exact ⟨m, hm, hedge⟩

/-! ## The result -/

/-- **When what is stored is not wrong.** Whatever the relation and the coordinates are, the text is that
of the polygons. It is empty for a relation that cannot be assembled, and has only edges of members, if the
relation can be assembled or its outer segments are scattered; and where none of these is a single point, in
no other case. -/
theorem buildMultipolygon_not_wrong (g_srid : ℕ) (item : RelationEntry) (coords_map : Int64 → List Coord) :
    buildMultipolygon g_srid item coords_map = encodePolygons g_srid (polygons item coords_map) ∧
    (Assembles item coords_map ∨ Scattered (segmentsOf false item coords_map) →
      NotWrong g_srid item coords_map) ∧
    ((∀ s ∈ segmentsOf false item coords_map, s.length ≠ 1) → NotWrong g_srid item coords_map →
      Assembles item coords_map ∨ Scattered (segmentsOf false item coords_map)) := by
  have hnil := buildMultipolygon_eq_nil g_srid item coords_map
  refine ⟨buildMultipolygon_eq_encode g_srid item coords_map, ?_, fun hpoints h => ?_⟩
  · rintro (hall | hscattered)
    · refine ⟨fun h => absurd hall h, fun _ polygon hpolygon ring hring a b he => ?_⟩
      rcases mem_polygonsOf hpolygon hring with hr | hr
      · exact edge_of_joinable hall.outers hr he
      · exact edge_of_joinable hall.inners hr he
    · have hempty := hnil.mpr (stitchRings_eq_nil_of_scattered hscattered)
      exact ⟨fun _ => hempty, fun h => absurd hempty h⟩
  · by_cases hall : Assembles item coords_map
    · exact .inl hall
    · refine .inr (scattered_of_stitchRings_eq_nil (fun s hs => ?_) (hnil.mp (h.reported hall)))
      have hpos : 0 < s.length := List.length_pos_iff.mpr (segmentsOf_ne_nil s hs)
      have hone := hpoints s hs
      omega

/-- The bits of 1. -/
def one : UInt64 := 0x3FF0000000000000

/-- A relation of two lines from the same point. -/
def fork : RelationEntry := ⟨9, [], .none, [⟨7, str "outer"⟩, ⟨8, str "outer"⟩]⟩

def forkCoords (id : Int64) : List Coord :=
  if id = 7 then [corner 0 0, corner one 0] else [corner one one, corner 0 0]

/-- The first line is walked away from the common point, so nothing is stored. -/
theorem buildMultipolygon_not_wrong_fork : segmentsOf false fork forkCoords =
      [[corner 0 0, corner one 0], [corner one one, corner 0 0]] ∧
    buildMultipolygon 3857 fork forkCoords = [] ∧ NotWrong 3857 fork forkCoords := by
  have hsegs : segmentsOf false fork forkCoords =
    [[corner 0 0, corner one 0], [corner one one, corner 0 0]] := by decide
  have hscattered : Scattered (segmentsOf false fork forkCoords) := by
    rw [hsegs]
    intro pre s post hsplit
    rcases List.cons_eq_append_iff.mp hsplit with ⟨rfl, h⟩ | ⟨pre', rfl, h⟩
    · obtain ⟨rfl, rfl⟩ := List.cons.inj h
      refine .line fun t ht => ?_
      obtain rfl := List.mem_singleton.mp ht
      rw [touches_line]
      decide
    · obtain ⟨rfl, rfl, rfl⟩ : pre' = [] ∧ s = [corner one one, corner 0 0] ∧ post = [] := by
        cases pre' with
        | nil => simpa using h.symm
        | cons x pre' => simp at h
      exact .line fun t ht => absurd ht List.not_mem_nil
  have hnotWrong := (buildMultipolygon_not_wrong 3857 fork forkCoords).2.1 (.inr hscattered)
  exact ⟨hsegs, (buildMultipolygon_eq_nil 3857 fork forkCoords).mpr (by decide), hnotWrong⟩

/-- A relation with an open way of three points as its only member. -/
def openMember : RelationEntry := ⟨9, [], .none, [⟨7, str "outer"⟩]⟩

/-- The way. -/
def openCoords : Int64 → List Coord := fun _ => [corner 0 0, corner one 0, corner one one]

/-- It is stored as a triangle, with an edge that is in no member. -/
theorem open_member_stored :
    buildMultipolygon 3857 openMember openCoords ≠ [] ∧ ¬ Joinable (segmentsOf false openMember openCoords) ∧
    polygons openMember openCoords = [([corner 0 0, corner one 0, corner one one, corner 0 0], [])] ∧
    ¬ NotWrong 3857 openMember openCoords := by
  have hne : buildMultipolygon 3857 openMember openCoords ≠ [] := by
    rw [ne_eq, buildMultipolygon_eq_nil]
    decide
  have hodd : ¬ Joinable (segmentsOf false openMember openCoords) := by
    intro h
    have heven : Even 1 := h.evenEnds (some (0, 0))
    exact absurd heven (by decide)
  exact ⟨hne, hodd, by decide, fun h => hne (h.reported fun hall => hodd hall.outers)⟩

end OsmImport
