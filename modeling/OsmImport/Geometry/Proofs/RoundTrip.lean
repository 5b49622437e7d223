import OsmImport.Geometry.Multipolygon
import OsmImport.Geometry.Proofs.Wkb
import OsmImport.Lib.Ewkb

/-!
# The geometries that the encoders write

What the encoders of the import write is read back by the reference decoder of the format: the SRID, the
shape, and the bits of every coordinate, without a byte left over. A count is a word of 32 bits, so this
takes sequences that are shorter than `2 ^ 32`; a longer one is written with a count that is too small.
-/

namespace OsmImport

open LittleEndian Ewkb Reader

/-- The bits of a coordinate. -/
def Coord.bits (p : Coord) : Ewkb.Point := (p.1.bits, p.2.bits)

/-- The bits of the points of a ring or line. -/
def lineBits (coords : List Coord) : List Ewkb.Point := coords.map Coord.bits

/-! ## Hex digits -/

theorem digit_hexDigit : ∀ x : Fin 256, ∀ ten ∈ [(65 : UInt8), 97],
    digit (hexDigit ten (UInt8.ofNat x.val >>> 4)) = some (UInt8.ofNat x.val >>> 4) ∧
    digit (hexDigit ten (UInt8.ofNat x.val &&& 0xF)) = some (UInt8.ofNat x.val &&& 0xF) ∧
    (UInt8.ofNat x.val >>> 4) <<< 4 ||| (UInt8.ofNat x.val &&& 0xF) = UInt8.ofNat x.val := by
  decide +kernel

theorem unhex_hex {ten : UInt8} (hten : ten ∈ [(65 : UInt8), 97]) (b : Bytes) :
    unhex (hex ten b) = some b := by
  induction b with
  | nil => rfl
  | cons x b ih =>
    obtain ⟨hhi, hlo, hx⟩ := digit_hexDigit ⟨x.toNat, x.toNat_lt⟩ ten hten
    rw [UInt8.ofNat_toNat] at hhi hlo hx
    have hcons : unhex (hex ten (x :: b)) = (do
        let hi ← digit (hexDigit ten (x >>> 4))
        let lo ← digit (hexDigit ten (x &&& 0xF))
        let bs ← unhex (hex ten b)
        return (hi <<< 4 ||| lo) :: bs) := rfl
    rw [hcons, hhi, hlo, ih]
    simp only [Option.bind_eq_bind, Option.bind_some, hx]
    rfl

theorem parse_toHexUpper (b : Bytes) : parse (toHexUpper b) = decode b := by
  rw [parse, toHexUpper, unhex_hex (by simp) b]
  rfl

/-- A digit has one value in both readers. -/
theorem fromHexChar_digit : ∀ x : Fin 256, ∀ v, digit (UInt8.ofNat x.val) = some v →
    fromHexChar (UInt8.ofNat x.val) = v := by
  have hall : ∀ x : Fin 256, (digit (UInt8.ofNat x.val)).all fun v =>
      fromHexChar (UInt8.ofNat x.val) == v := by decide +kernel
  intro x v hv
  have hx := hall x
  rw [hv] at hx
  simpa using hx

/-- On hex digits `fromHex` is exact. -/
theorem fromHex_of_unhex {h : Str} {b : Bytes} (hb : unhex h = some b) : fromHex h = b := by
  have hdigit : ∀ (c v : UInt8), digit c = some v → fromHexChar c = v := by
    intro c v hv
    have hc := fromHexChar_digit ⟨c.toNat, c.toNat_lt⟩ v
    rw [UInt8.ofNat_toNat] at hc
    exact hc hv
  fun_induction unhex h generalizing b with
  | case1 => cases hb; rfl
  | case2 a c rest ih =>
    simp only [Option.bind_eq_bind, Option.bind_eq_some_iff] at hb
    obtain ⟨hi, hhi, lo, hlo, bs, hbs, hb⟩ := hb
    cases hb
    rw [fromHex, hdigit a hi hhi, hdigit c lo hlo, ih hbs]
  | case3 => cases hb

/-! ## Ways -/

theorem points_eq (coords : List Coord) : points coords = (lineBits coords).flatMap pointBytes := by
  rw [points, lineBits, List.flatMap_map]
  rfl

/-- The type words of the encoders carry the flag. -/
theorem headerBytes_eq (type g_srid : ℕ) (b : Bytes) :
    headerBytes type g_srid ++ b = 1 :: (wu32 (0x20000000 + type) ++ (wu32 g_srid ++ b)) := by
  rw [headerBytes, List.append_assoc, List.append_assoc]
  rfl

theorem writeWkbRing_eq (ring : Ring) :
    writeWkbRing ring = toBytes 4 (lineBits ring).length ++ (lineBits ring).flatMap pointBytes := by
  rw [writeWkbRing, points_eq, lineBits, List.length_map]
  rfl

theorem reads_ring {ring : Ring} (h : ring.length < 2 ^ 32) :
    Reads line (writeWkbRing ring) (lineBits ring) := by
  rw [writeWkbRing_eq]
  exact reads_line (by rwa [lineBits, List.length_map])

/-- The body of a polygon. -/
theorem reads_polygon {rs : List Ring} (h : rs.length < 2 ^ 32) (hr : ∀ r ∈ rs, r.length < 2 ^ 32) :
    Reads rings (wu32 rs.length ++ rs.flatMap writeWkbRing) (rs.map lineBits) :=
  reads_counted h fun r hmem => reads_ring (hr r hmem)

theorem decode_lineBytes {g_srid : ℕ} (hs : g_srid < 2 ^ 32) (polygon : Bool) {coords : List Coord}
    (h : coords.length < 2 ^ 32) : decode (lineBytes g_srid polygon coords) =
      some ⟨some g_srid, if polygon then .polygon [lineBits coords] else .lineString (lineBits coords)⟩ := by
  cases polygon with
  | true =>
    have hbytes : lineBytes g_srid true coords =
        headerBytes 3 g_srid ++ (wu32 1 ++ [coords].flatMap writeWkbRing) := by
      rw [headerBytes_eq]
      simp [lineBytes, writeWkbRing]
    rw [hbytes]
    refine (reads_geometry (by decide) hs ?_).whole
    have hone : [coords].length < 2 ^ 32 := by rw [List.length_singleton]; omega
    exact (reads_polygon hone (by simpa using h)).map
  | false =>
    have hbytes : lineBytes g_srid false coords = headerBytes 2 g_srid ++ writeWkbRing coords := by
      rw [headerBytes_eq]
      simp [lineBytes, writeWkbRing]
    rw [hbytes]
    exact (reads_geometry (by decide) hs (reads_ring h).map).whole

/-- The shape of a way. -/
def wayShape (coords : List Coord) : Shape :=
  if 4 ≤ coords.length ∧ closes coords = true then .polygon [lineBits coords]
  else .lineString (lineBits coords)

theorem parse_buildWayGeom {g_srid : ℕ} (hs : g_srid < 2 ^ 32) {coords : List Coord}
    (h2 : 2 ≤ coords.length) (h : coords.length < 2 ^ 32) (is_closed : Bool) :
    parse (buildWayGeom g_srid coords is_closed).1 = some ⟨some g_srid, wayShape coords⟩ := by
  have hgeom : (buildWayGeom g_srid coords is_closed).1 =
      toHexUpper (lineBytes g_srid (decide (coords.length ≥ 4) && closes coords) coords) := by
    rw [buildWayGeom, if_neg (by omega)]
  rw [hgeom, parse_toHexUpper, decode_lineBytes hs _ h]
  simp only [wayShape, Bool.and_eq_true, decide_eq_true_eq, ge_iff_le]

/-- A count of `2 ^ 32` or more is written too small, and the points behind are left over. -/
theorem decode_lineBytes_long (g_srid : ℕ) (polygon : Bool) {coords : List Coord}
    (h : 2 ^ 32 ≤ coords.length) : decode (lineBytes g_srid polygon coords) = none := by
  have hpow : (256 : ℕ) ^ 4 = 2 ^ 32 := by norm_num
  obtain ⟨m, hm⟩ : ∃ m, coords.length % 2 ^ 32 = m := ⟨_, rfl⟩
  have hlt : m < 2 ^ 32 := hm ▸ Nat.mod_lt _ (by norm_num)
  have hlen : (coords.take m).length = m := by
    rw [List.length_take]
    omega
  have hcount : wu32 coords.length = wu32 (coords.take m).length := by
    rw [wu32, ← toBytes_mod 4, hpow, hm, hlen]
    rfl
  have hsrid : wu32 g_srid = wu32 (g_srid % 2 ^ 32) := by
    rw [wu32, ← toBytes_mod 4, hpow]
    rfl
  have hpoints : points coords = points (coords.take m) ++ points (coords.drop m) := by
    rw [points, points, points, ← List.flatMap_append, List.take_append_drop]
  have hbytes : lineBytes g_srid polygon coords =
      lineBytes (g_srid % 2 ^ 32) polygon (coords.take m) ++ points (coords.drop m) := by
    cases polygon <;> simp [lineBytes, hcount, hsrid, hpoints]
  have hleft : points (coords.drop m) ≠ [] := by
    cases hd : coords.drop m with
    | nil =>
      have hzero := congrArg List.length hd
      rw [List.length_drop, List.length_nil] at hzero
      omega
    | cons p ps =>
      have hw : (wd p.1).length = 8 := length_toBytes 8 _
      intro hnil
      have hzero := congrArg List.length hnil
      simp [points, hw] at hzero
  have hread := decode_lineBytes (Nat.mod_lt g_srid (show 0 < 2 ^ 32 by norm_num)) polygon (hlen ▸ hlt)
  rw [decode, whole_eq_some] at hread
  have hmore := extends_geometry _ _ _ (points (coords.drop m)) hread
  rw [hbytes, decode, whole, hmore, List.nil_append]
  cases hp : points (coords.drop m) with
  | nil => exact absurd hp hleft
  | cons b bs => rfl

/-! ## Merged linestrings -/

/-- The lines that a text encodes, if it encodes one. -/
def lineOf (h : Str) : Option (List Ewkb.Point) :=
  match parse h with
  | some ⟨_, .lineString pts⟩ => some pts
  | _ => none

/-- The text encodes a linestring or a polygon. -/
def EncodesWay (h : Str) : Prop :=
  ∃ srid, (∃ pts, parse h = some ⟨srid, .lineString pts⟩) ∨ ∃ rs, parse h = some ⟨srid, .polygon rs⟩

/-- `isLinear` finds the type of a geometry that decodes. -/
theorem isLinear_of_decode {b : Bytes} {g : Geometry} (h : decode b = some g) :
    isLinear b = true ↔ g.shape.IsLinear := by
  obtain ⟨type, r, hheader, hshape⟩ := header_of_decode h
  obtain ⟨hlen, htype⟩ := type_of_header hheader
  obtain ⟨hle, hlinear⟩ := isLinear_of_shape hshape
  have hgtype : ofBytes ((b.drop 1).take 4) % 2 ^ 16 = type := by
    rcases htype with h | h <;> rw [h]
    · omega
    · rw [sridFlag]
      omega
  rw [hlinear, isLinear, if_neg (by omega), hgtype]
  simp

/-- The bytes of a text that encodes a way. -/
theorem EncodesWay.bytes {h : Str} (hw : EncodesWay h) : ∃ g, decode (fromHex h) = some g ∧ h ≠ [] ∧
    (isLinear (fromHex h) = true ↔ (lineOf h).isSome) ∧
    ∀ pts, lineOf h = some pts → g.shape = .lineString pts := by
  have hparse : ∀ g, parse h = some g → decode (fromHex h) = some g ∧ h ≠ [] := by
    intro g hg
    obtain ⟨b, hb, hdec⟩ := Option.bind_eq_some_iff.mp hg
    refine ⟨fromHex_of_unhex hb ▸ hdec, ?_⟩
    rintro rfl
    cases hg
  obtain ⟨srid, ⟨pts, hp⟩ | ⟨rs, hp⟩⟩ := hw
  · obtain ⟨hdec, hne⟩ := hparse _ hp
    refine ⟨_, hdec, hne, ?_, ?_⟩
    · rw [isLinear_of_decode hdec, lineOf, hp]
      simp [Shape.IsLinear]
    · intro pts' h'
      rw [lineOf, hp] at h'
      cases h'
      rfl
  · obtain ⟨hdec, hne⟩ := hparse _ hp
    refine ⟨_, hdec, hne, ?_, ?_⟩
    · rw [isLinear_of_decode hdec, lineOf, hp]
      simp [Shape.IsLinear]
    · intro pts' h'
      rw [lineOf, hp] at h'
      cases h'

/-- The linestrings among some texts, as bytes and as points. -/
def linesOf (hexes : List Str) : List (Bytes × List Ewkb.Point) :=
  hexes.filterMap fun h => (lineOf h).map fun pts => (fromHex h, pts)

theorem linesOf_snd (hexes : List Str) : (linesOf hexes).map Prod.snd = hexes.filterMap lineOf := by
  rw [linesOf, List.map_filterMap]
  refine List.filterMap_congr fun h _ => ?_
  cases lineOf h <;> rfl

/-- The parts that are merged are the linestrings. -/
theorem mergeWayGeoms_eq (g_srid : ℕ) {hexes : List Str} (h : ∀ t ∈ hexes, EncodesWay t) :
    mergeWayGeoms g_srid hexes = if linesOf hexes = [] then []
      else toHexUpper (multiLineBytes g_srid ((linesOf hexes).map Prod.fst)) := by
  have hparts : ((hexes.filter fun h => !h.isEmpty).map fromHex).filter isLinear =
      (linesOf hexes).map Prod.fst := by
    induction hexes with
    | nil => rfl
    | cons t hexes ih =>
      have ih' := ih fun t' ht' => h t' (List.mem_cons_of_mem _ ht')
      obtain ⟨g, -, hne, hlin, -⟩ := (h t List.mem_cons_self).bytes
      have hkeep : (fun h : Str => !h.isEmpty) t = true := by simpa using hne
      rw [List.filter_cons_of_pos (p := fun h : Str => !h.isEmpty) hkeep, List.map_cons, linesOf,
        List.filterMap_cons]
      cases ht : lineOf t with
      | none =>
        have hnot : ¬ isLinear (fromHex t) = true := by simp [hlin, ht]
        rw [List.filter_cons_of_neg hnot, ih']
        rfl
      | some pts =>
        have hyes : isLinear (fromHex t) = true := by simp [hlin, ht]
        rw [List.filter_cons_of_pos hyes, ih']
        rfl
  unfold mergeWayGeoms
  dsimp only
  rw [hparts]
  simp only [List.isEmpty_iff, List.map_eq_nil_iff]

theorem reads_lines {hexes : List Str} (h : ∀ t ∈ hexes, EncodesWay t) :
    ∀ p ∈ linesOf hexes, Reads (member 2 line) p.1 p.2 := by
  intro p hp
  obtain ⟨t, ht, hmap⟩ := List.mem_filterMap.mp hp
  obtain ⟨pts, hpts, rfl⟩ := Option.map_eq_some_iff.mp hmap
  obtain ⟨g, hdec, -, -, hshape⟩ := (h t ht).bytes
  have hg : g = ⟨g.srid, .lineString pts⟩ := by rw [← hshape pts hpts]
  rw [hg] at hdec
  exact reads_member_of_decode hdec

theorem multiLineBytes_eq (g_srid : ℕ) (parts : List (Bytes × List Ewkb.Point)) :
    multiLineBytes g_srid (parts.map Prod.fst) =
      headerBytes 5 g_srid ++ (toBytes 4 parts.length ++ parts.flatMap Prod.fst) := by
  rw [headerBytes_eq]
  simp [multiLineBytes, wu32, List.flatMap_def]

theorem parse_mergeWayGeoms {g_srid : ℕ} (hs : g_srid < 2 ^ 32) {hexes : List Str}
    (h : ∀ t ∈ hexes, EncodesWay t) (hne : hexes.filterMap lineOf ≠ [])
    (hlt : (hexes.filterMap lineOf).length < 2 ^ 32) :
    parse (mergeWayGeoms g_srid hexes) =
      some ⟨some g_srid, .multiLineString (hexes.filterMap lineOf)⟩ := by
  rw [← linesOf_snd] at hne hlt ⊢
  rw [List.length_map] at hlt
  have hsome : linesOf hexes ≠ [] := fun h0 => hne (by rw [h0]; rfl)
  rw [mergeWayGeoms_eq g_srid h, if_neg hsome, parse_toHexUpper, multiLineBytes_eq]
  refine (reads_geometry (by decide) hs ?_).whole
  exact (reads_counted hlt (reads_lines h)).map

/-! ## Polygons -/

theorem writeWkbPolygon_eq (g_srid : ℕ) (outer : Ring) (inners : List Ring) :
    writeWkbPolygon g_srid outer inners = headerBytes 3 g_srid ++
      (wu32 (outer :: inners).length ++ (outer :: inners).flatMap writeWkbRing) := by
  rw [headerBytes_eq]
  simp [writeWkbPolygon, Nat.add_comm]

/-- A polygon whose counts fit their words. -/
structure PolygonFits (outer : Ring) (inners : List Ring) : Prop where
  rings : 1 + inners.length < 2 ^ 32
  points : ∀ r ∈ outer :: inners, r.length < 2 ^ 32

theorem PolygonFits.reads {outer : Ring} {inners : List Ring} (h : PolygonFits outer inners) :
    Reads Ewkb.rings (wu32 (outer :: inners).length ++ (outer :: inners).flatMap writeWkbRing)
      ((outer :: inners).map lineBits) :=
  reads_polygon (by rw [List.length_cons, Nat.add_comm]; exact h.rings) h.points

theorem decode_writeWkbPolygon {g_srid : ℕ} (hs : g_srid < 2 ^ 32) {outer : Ring} {inners : List Ring}
    (h : PolygonFits outer inners) : decode (writeWkbPolygon g_srid outer inners) =
      some ⟨some g_srid, .polygon ((outer :: inners).map lineBits)⟩ := by
  rw [writeWkbPolygon_eq]
  exact (reads_geometry (by decide) hs h.reads.map).whole

/-- The bytes that `buildMultipolygon` writes for several outer rings. -/
def multiPolygonBytes (g_srid : ℕ) (outer_rings inner_rings : List Ring) : Bytes :=
  1 :: wu32 0x20000006 ++ wu32 g_srid ++ wu32 outer_rings.length ++
    outer_rings.flatMap fun outer => writeWkbPolygon g_srid outer (inner_rings.filter (inBox outer))

/-- The rings of a polygon of a multipolygon: the outer one and the inner ones in its box. -/
def polygonRings (inner_rings : List Ring) (outer : Ring) : List (List Ewkb.Point) :=
  (outer :: inner_rings.filter (inBox outer)).map lineBits

/-- All counts of a multipolygon fit. -/
structure MultiPolygonFits (outer_rings inner_rings : List Ring) : Prop where
  polygons : outer_rings.length < 2 ^ 32
  inners : 1 + inner_rings.length < 2 ^ 32
  points : ∀ r ∈ outer_rings ++ inner_rings, r.length < 2 ^ 32

theorem MultiPolygonFits.polygon {outer_rings inner_rings : List Ring}
    (h : MultiPolygonFits outer_rings inner_rings) {outer : Ring} (ho : outer ∈ outer_rings)
    {inners : List Ring} (hi : inners.Sublist inner_rings) : PolygonFits outer inners := by
  refine ⟨(Nat.add_le_add_left hi.length_le 1).trans_lt h.inners, fun r hr => h.points r ?_⟩
  rcases List.mem_cons.mp hr with rfl | hr
  · exact List.mem_append_left _ ho
  · exact List.mem_append_right _ (hi.subset hr)

theorem decode_multiPolygonBytes {g_srid : ℕ} (hs : g_srid < 2 ^ 32)
    {outer_rings inner_rings : List Ring} (h : MultiPolygonFits outer_rings inner_rings) :
    decode (multiPolygonBytes g_srid outer_rings inner_rings) =
      some ⟨some g_srid, .multiPolygon (outer_rings.map (polygonRings inner_rings))⟩ := by
  have hbytes : multiPolygonBytes g_srid outer_rings inner_rings = headerBytes 6 g_srid ++
      (toBytes 4 outer_rings.length ++ outer_rings.flatMap fun outer =>
        writeWkbPolygon g_srid outer (inner_rings.filter (inBox outer))) := by
    rw [headerBytes_eq]
    simp [multiPolygonBytes, wu32]
  rw [hbytes]
  refine (reads_geometry (by decide) hs ?_).whole
  refine Reads.map (reads_counted h.polygons fun outer ho => ?_)
  rw [writeWkbPolygon_eq]
  exact reads_member (by decide) hs (h.polygon ho List.filter_sublist).reads

/-- The segments of the members with a role for which `inner` says so, or of the others. -/
def segmentsOf (inner : Bool) (item : RelationEntry) (coords_map : Int64 → List Coord) :
    List Segment :=
  ((item.way_members.filter fun m => !(coords_map m.id).isEmpty).filter fun m =>
    (m.role == str "inner") == inner).map fun m => coords_map m.id

/-- `buildMultipolygon` by the number of outer rings. -/
theorem buildMultipolygon_eq (g_srid : ℕ) (item : RelationEntry) (coords_map : Int64 → List Coord) :
    buildMultipolygon g_srid item coords_map =
      match stitchRings (segmentsOf false item coords_map) with
      | [] => []
      | [outer] => toHexUpper (writeWkbPolygon g_srid outer
          (stitchRings (segmentsOf true item coords_map)))
      | outer_rings => toHexUpper (multiPolygonBytes g_srid outer_rings
          (stitchRings (segmentsOf true item coords_map))) := by
  have hinner : segmentsOf true item coords_map =
      ((item.way_members.filter fun m => !(coords_map m.id).isEmpty).filter fun m =>
        m.role == str "inner").map fun m => coords_map m.id := by
    simp only [segmentsOf, beq_true]
  have houter : segmentsOf false item coords_map =
      ((item.way_members.filter fun m => !(coords_map m.id).isEmpty).filter fun m =>
        m.role != str "inner").map fun m => coords_map m.id := by
    simp only [segmentsOf, beq_false]
    rfl
  unfold buildMultipolygon
  dsimp only
  rw [← hinner, ← houter]
  cases hseg : segmentsOf false item coords_map with
  | nil => rfl
  | cons seg segs =>
    rw [if_neg (by simp)]
    rcases stitchRings (seg :: segs) with _ | ⟨outer, _ | ⟨outer', outers⟩⟩ <;> rfl

/-- The shape of an assembled relation. -/
def assembledShape (inner_rings : List Ring) : List Ring → Option Shape
  | [] => none
  | [outer] => some (.polygon ((outer :: inner_rings).map lineBits))
  | outer_rings => some (.multiPolygon (outer_rings.map (polygonRings inner_rings)))

theorem parse_buildMultipolygon {g_srid : ℕ} (hs : g_srid < 2 ^ 32) (item : RelationEntry)
    (coords_map : Int64 → List Coord) (h : MultiPolygonFits
      (stitchRings (segmentsOf false item coords_map)) (stitchRings (segmentsOf true item coords_map))) :
    parse (buildMultipolygon g_srid item coords_map) =
      (assembledShape (stitchRings (segmentsOf true item coords_map))
        (stitchRings (segmentsOf false item coords_map))).map fun sh => ⟨some g_srid, sh⟩ := by
  rw [buildMultipolygon_eq]
  revert h
  generalize stitchRings (segmentsOf false item coords_map) = outers
  generalize stitchRings (segmentsOf true item coords_map) = inners
  intro h
  match outers, h with
  | [], _ => rfl
  | [outer], h =>
    rw [parse_toHexUpper, decode_writeWkbPolygon hs (h.polygon List.mem_cons_self (List.Sublist.refl _))]
    rfl
  | o :: o' :: os, h =>
    rw [parse_toHexUpper, decode_multiPolygonBytes hs h]
    rfl

/-! ## The round trip -/

/-- **Round trip.** With counts that fit 32 bits, the reference decoder reads from what the encoders of
the import write the SRID, the shape and the bits of all coordinates, and nothing is left over: for ways,
for merged ways, for polygons and for multipolygons, and so for assembled relations. -/
theorem ewkb_round_trip {g_srid : ℕ} (hs : g_srid < 2 ^ 32) :
    (∀ (coords : List Coord) (is_closed : Bool), 2 ≤ coords.length → coords.length < 2 ^ 32 →
      parse (buildWayGeom g_srid coords is_closed).1 = some ⟨some g_srid, wayShape coords⟩) ∧
    (∀ hexes : List Str, (∀ h ∈ hexes, EncodesWay h) → (hexes.filterMap lineOf).length < 2 ^ 32 →
      (hexes.filterMap lineOf = [] → mergeWayGeoms g_srid hexes = []) ∧
      (hexes.filterMap lineOf ≠ [] → parse (mergeWayGeoms g_srid hexes) =
        some ⟨some g_srid, .multiLineString (hexes.filterMap lineOf)⟩)) ∧
    (∀ (outer : Ring) (inners : List Ring), PolygonFits outer inners →
      decode (writeWkbPolygon g_srid outer inners) =
        some ⟨some g_srid, .polygon ((outer :: inners).map lineBits)⟩) ∧
    (∀ outer_rings inner_rings : List Ring, MultiPolygonFits outer_rings inner_rings →
      decode (multiPolygonBytes g_srid outer_rings inner_rings) =
        some ⟨some g_srid, .multiPolygon (outer_rings.map (polygonRings inner_rings))⟩) ∧
    ∀ (item : RelationEntry) (coords_map : Int64 → List Coord), MultiPolygonFits
      (stitchRings (segmentsOf false item coords_map)) (stitchRings (segmentsOf true item coords_map)) →
      parse (buildMultipolygon g_srid item coords_map) =
        (assembledShape (stitchRings (segmentsOf true item coords_map))
          (stitchRings (segmentsOf false item coords_map))).map fun sh => ⟨some g_srid, sh⟩ := by
  refine ⟨fun coords is_closed h2 hlt => parse_buildWayGeom hs h2 hlt is_closed,
    fun hexes h hlt => ⟨fun hnil => ?_, fun hne => parse_mergeWayGeoms hs h hne hlt⟩,
    fun outer inners => decode_writeWkbPolygon hs,
    fun outer_rings inner_rings => decode_multiPolygonBytes hs,
    fun item coords_map => parse_buildMultipolygon hs item coords_map⟩
  rw [← linesOf_snd, List.map_eq_nil_iff] at hnil
  rw [mergeWayGeoms_eq g_srid h, if_pos hnil]

/-- A line of two points. -/
def shortLine : List Coord := [(⟨1⟩, ⟨2⟩), (⟨3⟩, ⟨4⟩)]

theorem ewkb_round_trip_short_line : parse (buildWayGeom 3857 shortLine false).1 =
    some ⟨some 3857, .lineString [(1, 2), (3, 4)]⟩ :=
  (ewkb_round_trip (show 3857 < 2 ^ 32 by decide)).1 shortLine false (by decide) (by decide)

/-- As many lines as a word of 32 bits has values are counted as none, and their bytes are left over. -/
theorem parse_of_wrapped_count {n : ℕ} (hn : n ≠ 0) (hmod : n % 2 ^ 32 = 0) {h : Str}
    {pts : List Ewkb.Point} (hp : lineOf h = some pts) (hw : EncodesWay h) {g_srid : ℕ}
    (hs : g_srid < 2 ^ 32) : parse (mergeWayGeoms g_srid (List.replicate n h)) = none := by
  have hlines : linesOf (List.replicate n h) = List.replicate n (fromHex h, pts) := by
    rw [linesOf, List.filterMap_replicate]
    simp [hp]
  have hsome : linesOf (List.replicate n h) ≠ [] := by
    rw [hlines]
    simpa using hn
  have hcount : toBytes 4 n = toBytes 4 0 := by
    have hpow : (256 : ℕ) ^ 4 = 2 ^ 32 := by norm_num
    rw [← toBytes_mod 4 n, hpow, hmod]
  have hleft : (List.replicate n (fromHex h, pts)).flatMap Prod.fst ≠ [] := by
    obtain ⟨g, hdec, -⟩ := hw.bytes
    obtain ⟨type, r, hheader, -⟩ := header_of_decode hdec
    obtain ⟨hlen, -⟩ := type_of_header hheader
    rw [ne_eq, List.flatMap_eq_nil_iff]
    intro hall
    have hnil : fromHex h = [] := hall _ (List.mem_replicate.mpr ⟨hn, rfl⟩)
    rw [hnil] at hlen
    exact absurd hlen (by simp)
  have hread : Reads geometry (headerBytes 5 g_srid ++ toBytes 4 0)
      ⟨some g_srid, .multiLineString []⟩ :=
    reads_geometry (by decide) hs
      (Reads.map ((reads_word (show 0 < 256 ^ 4 by norm_num)).bindPure (f := fun _ => [])))
  rw [mergeWayGeoms_eq _ fun t ht => List.eq_of_mem_replicate ht ▸ hw, if_neg hsome, parse_toHexUpper,
    hlines, multiLineBytes_eq, List.length_replicate, hcount, ← List.append_assoc, decode, whole, hread]
  generalize (List.replicate n (fromHex h, pts)).flatMap Prod.fst = left at hleft ⊢
  cases left with
  | nil => exact absurd rfl hleft
  | cons b left => rfl

/-- The text of a line of two points, `2 ^ 32` times. -/
theorem merge_overflows : ∃ hexes : List Str, (∀ h ∈ hexes, EncodesWay h) ∧
    hexes.filterMap lineOf ≠ [] ∧ parse (mergeWayGeoms 3857 hexes) ≠
      some ⟨some 3857, .multiLineString (hexes.filterMap lineOf)⟩ := by
  have hparse : parse (buildWayGeom 3857 shortLine false).1 =
      some ⟨some 3857, wayShape shortLine⟩ :=
    parse_buildWayGeom (by decide) (by decide) (by decide) false
  have hline : lineOf (buildWayGeom 3857 shortLine false).1 = some (lineBits shortLine) := by
    rw [lineOf, hparse]
    rfl
  have hway : EncodesWay (buildWayGeom 3857 shortLine false).1 := ⟨_, .inl ⟨_, hparse⟩⟩
  have hpos : (2 ^ 32 : ℕ) ≠ 0 := by norm_num
  refine ⟨List.replicate (2 ^ 32) (buildWayGeom 3857 shortLine false).1, ?_, ?_, ?_⟩
  · exact fun h hh => List.eq_of_mem_replicate hh ▸ hway
  · intro hnil
    exact absurd hline (List.filterMap_eq_nil_iff.mp hnil _ (List.mem_replicate.mpr ⟨hpos, rfl⟩) ▸ by simp)
  · rw [parse_of_wrapped_count hpos (Nat.mod_self _) hline hway (by decide)]
    exact fun h => by cases h

end OsmImport
