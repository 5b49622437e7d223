import OsmImport.Geometry.Wkb

/-!
# Multipolygon assembly

`stitchRings` joins the segments of a role end to end into closed rings, and `buildMultipolygon` writes
the rings as a polygon or a multipolygon. Segments are not empty: `buildMultipolygon` drops the members
without coordinates.
-/

namespace OsmImport

abbrev Ring := List Coord

abbrev Segment := List Coord

/-- The `for` loop over the segments: the first one that continues the ring behind its last point
`back`, as the points that it adds, and the other segments. -/
def findNext (back : Coord) : List Segment → Option (List Coord × List Segment)
  | [] => none
  | seg :: segs =>
    match seg.head?, seg.getLast? with
    | some front, some last =>
      if front.eq back then some (seg.tail, segs)
      else if last.eq back then some (seg.reverse.tail, segs)
      else (findNext back segs).map fun (pts, rest) => (pts, seg :: rest)
    | _, _ => (findNext back segs).map fun (pts, rest) => (pts, seg :: rest)

/-- The `while (progress)` loop. The first argument bounds the rounds; a round takes a segment. -/
def extendRing : ℕ → Ring → List Segment → Ring × List Segment
  | 0, ring, segs => (ring, segs)
  | n + 1, ring, segs =>
    if decide (ring.length ≥ 4) && closes ring then (ring, segs)
    else
      match ring.getLast?.bind fun back => findNext back segs with
      | some (pts, segs) => extendRing n (ring ++ pts) segs
      | none => (ring, segs)

/-- The ring with its first point repeated at the end, if it is not there. -/
def closeRing (ring : Ring) : Ring :=
  match ring.head? with
  | none => ring
  | some front => if closes ring then ring else ring ++ [front]

/-- The outer loop of `stitchRings`; each round takes at least one segment. -/
def stitchLoop : ℕ → List Segment → List Ring
  | 0, _ => []
  | _ + 1, [] => []
  | n + 1, seg :: segs =>
    let (ring, segs) := extendRing segs.length seg segs
    let ring := closeRing ring
    if ring.length ≥ 4 then ring :: stitchLoop n segs else stitchLoop n segs

/-- `stitchRings`. -/
def stitchRings (segs : List Segment) : List Ring := stitchLoop segs.length segs

/-- `writeWkbRing`. -/
def writeWkbRing (ring : Ring) : Bytes := wu32 ring.length ++ points ring

/-- `writeWkbPolygon`. -/
def writeWkbPolygon (g_srid : ℕ) (outer : Ring) (inners : List Ring) : Bytes :=
  1 :: wu32 0x20000003 ++ wu32 g_srid ++ wu32 (1 + inners.length) ++ writeWkbRing outer ++
    inners.flatMap writeWkbRing

/-- `std::min`. -/
def minDouble (a b : Double) : Double := if b.lt a then b else a

/-- `std::max`. -/
def maxDouble (a b : Double) : Double := if a.lt b then b else a

/-- The first point of the inner ring lies in the bounding box of the outer one. -/
def inBox (outer inner : Ring) : Bool :=
  match outer.head?, inner.head? with
  | some (x0, y0), some (ix, iy) =>
    let ox0 := outer.foldl (fun m p => minDouble m p.1) x0
    let ox1 := outer.foldl (fun m p => maxDouble m p.1) x0
    let oy0 := outer.foldl (fun m p => minDouble m p.2) y0
    let oy1 := outer.foldl (fun m p => maxDouble m p.2) y0
    ox0.le ix && ix.le ox1 && oy0.le iy && iy.le oy1
  | _, _ => false

/-- `buildMultipolygon`, from the coordinates that `getWayCoordsMap` returned. -/
def buildMultipolygon (g_srid : ℕ) (item : RelationEntry) (coords_map : Int64 → List Coord) : Str :=
  let found := item.way_members.filter fun m => !(coords_map m.id).isEmpty
  let inners := (found.filter fun m => m.role == str "inner").map fun m => coords_map m.id
  let outers := (found.filter fun m => m.role != str "inner").map fun m => coords_map m.id
  if outers.isEmpty then []
  else
    let outer_rings := stitchRings outers
    let inner_rings := stitchRings inners
    match outer_rings with
    | [] => []
    | [outer] => toHexUpper (writeWkbPolygon g_srid outer inner_rings)
    | _ => toHexUpper (1 :: wu32 0x20000006 ++ wu32 g_srid ++ wu32 outer_rings.length ++
        outer_rings.flatMap fun outer =>
          writeWkbPolygon g_srid outer (inner_rings.filter (inBox outer)))

end OsmImport
