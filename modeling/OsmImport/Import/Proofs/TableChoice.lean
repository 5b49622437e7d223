import OsmImport.Geometry.Proofs.RoundTrip
import OsmImport.Import.Proofs.ExactlyOnce
import OsmImport.Import.Proofs.WayRows

/-!
# The table and the geometry of a way

A way thread chooses the shape of a way by its coordinates and the table by its tags. A ring whose tags
are not those of an area is stored in `ways` as a polygon, and `mergeWayGeoms` skips it there. With that
exception the two choices agree (`TableAgrees`), as long as the count of points fits its word.
-/

namespace OsmImport

open Ewkb

/-- At least four points, of which the last is the first. -/
def ClosedRing (coords : List Coord) : Prop := 4 ≤ coords.length ∧ closes coords = true

instance (coords : List Coord) : Decidable (ClosedRing coords) :=
  inferInstanceAs (Decidable (_ ∧ _))

/-- A row of `areas` is the polygon of one closed ring, and a row of `ways` is a linestring, both through
all the points. -/
def GeometryAgrees (coords : List Coord) (c : InsertCall) : Prop :=
  (c.kind = .area ∧ ClosedRing coords ∧
    ∃ srid, parse c.geog = some ⟨srid, .polygon [lineBits coords]⟩) ∨
  (c.kind = .way ∧ lineOf c.geog = some (lineBits coords))

/-- Nothing is stored of a way with fewer than two points, or one row whose table and geometry agree. -/
def TableAgrees (coords : List Coord) (calls : List InsertCall) : Prop :=
  (coords.length < 2 ∧ calls = []) ∨ ∃ c, calls = [c] ∧ GeometryAgrees coords c

namespace WayThread

theorem wayCalls_eq (cfg : Config) (w : WayEntry) (coords : List Coord) :
    wayCalls cfg w coords = if coords.length < 2 then [] else
      [⟨if isArea (decide (ClosedRing coords)) w.tags then .area else .way, w.id, w.name, w.tags,
        toHexUpper (lineBytes cfg.env.g_srid (decide (ClosedRing coords)) coords)⟩] := by
  have hclosed : (decide (coords.length ≥ 4) && closes coords) = decide (ClosedRing coords) :=
    Bool.eq_iff_iff.mpr (by rw [Bool.and_eq_true, decide_eq_true_eq, decide_eq_true_iff]; rfl)
  have hgeog : ∀ polygon,
      (toHexUpper (lineBytes cfg.env.g_srid polygon coords)).isEmpty = false := by
    intro polygon
    cases polygon <;> rfl
  unfold wayCalls
  by_cases h2 : coords.length < 2
  · rw [buildWayGeom, if_pos h2, if_pos h2]
    rfl
  · rw [buildWayGeom, if_neg h2, if_neg h2]
    dsimp only
    rw [hclosed, hgeog]
    rfl

/-- The text of a row, and what it encodes. -/
theorem parse_lineBytes (g_srid : ℕ) (polygon : Bool) {coords : List Coord}
    (h : coords.length < 2 ^ 32) : ∃ srid, parse (toHexUpper (lineBytes g_srid polygon coords)) =
      some ⟨srid, if polygon then .polygon [lineBits coords] else .lineString (lineBits coords)⟩ := by
  have hsrid : lineBytes g_srid polygon coords = lineBytes (g_srid % 2 ^ 32) polygon coords := by
    have hword : wu32 g_srid = wu32 (g_srid % 2 ^ 32) := (LittleEndian.toBytes_mod 4 g_srid).symm
    cases polygon <;> simp [lineBytes, hword]
  refine ⟨some (g_srid % 2 ^ 32), ?_⟩
  rw [parse_toHexUpper, hsrid, decode_lineBytes (Nat.mod_lt _ (by norm_num)) polygon h]

/-- The two choices agree unless a closed ring is no area, or has more points than can be counted. -/
theorem tableAgrees_iff (cfg : Config) (w : WayEntry) (coords : List Coord) :
    TableAgrees coords (wayCalls cfg w coords) ↔ coords.length < 2 ∨
      (coords.length < 2 ^ 32 ∧ (ClosedRing coords → isArea true w.tags = true)) := by
  rw [wayCalls_eq]
  by_cases h2 : coords.length < 2
  · rw [if_pos h2]
    exact iff_of_true (.inl ⟨h2, rfl⟩) (.inl h2)
  · rw [if_neg h2, or_iff_right h2]
    have hone : ∀ c, TableAgrees coords [c] ↔ GeometryAgrees coords c := by
      intro c
      constructor
      · rintro (⟨h, -⟩ | ⟨c', hc, h⟩)
        · exact absurd h h2
        · rwa [(List.cons.inj hc).1]
      · exact fun h => .inr ⟨c, rfl, h⟩
    rw [hone]
    by_cases hlt : coords.length < 2 ^ 32
    · rw [and_iff_right hlt]
      by_cases hring : ClosedRing coords
      · obtain ⟨srid, hparse⟩ := parse_lineBytes cfg.env.g_srid true hlt
        have hline : lineOf (toHexUpper (lineBytes cfg.env.g_srid true coords)) = none := by
          rw [lineOf, hparse]
          rfl
        simp only [hring, decide_true, forall_const]
        constructor
        · rintro (⟨hk, -, -⟩ | ⟨-, h⟩)
          · by_contra harea
            rw [if_neg harea] at hk
            cases hk
          · rw [hline] at h
            cases h
        · intro harea
          exact .inl ⟨if_pos harea, hring, srid, hparse⟩
      · obtain ⟨srid, hparse⟩ := parse_lineBytes cfg.env.g_srid false hlt
        simp only [hring, decide_false, false_implies, iff_true]
        refine .inr ⟨rfl, ?_⟩
        rw [lineOf, hparse]
        rfl
    · have hnone : ∀ polygon,
          parse (toHexUpper (lineBytes cfg.env.g_srid polygon coords)) = none := by
        intro polygon
        rw [parse_toHexUpper, decode_lineBytes_long _ _ (Nat.not_lt.mp hlt)]
      refine iff_of_false ?_ fun h => hlt h.1
      rintro (⟨-, -, srid, h⟩ | ⟨-, h⟩)
      · rw [hnone] at h
        cases h
      · rw [lineOf, hnone] at h
        cases h

variable {cfg : Config} {t : WayThread} {nav : NavDB} {flag : Bool} {acts : List Act}

/-- **Table and geometry.** Whenever a way thread is back at its queue, its inserts for ways are, for each
way that it took, those built from the positions of the nodes that are in the store; and what is stored
of a way agrees exactly if fewer than two of them are, or they are fewer than `2 ^ 32` and, if they form
a closed ring, the tags are those of an area. -/
theorem table_and_geometry (hphase : cfg.resume_phase ≠ .relations) {pos : Int64 → Option Coord}
    (hpos : ∀ id p, .select id p ∈ acts → p = pos id)
    (h : Trace (Step cfg) ⟨.pop, nav, [], flag⟩ acts t) (hpc : t.pc = .pop) :
    acts.filterMap Act.insertedWay = ((acts.filterMap Act.taken).filterMap OSMEntry.asWay).flatMap
      (fun w => wayCalls cfg w (w.node_refs.filterMap pos)) ∧
    ∀ w : WayEntry, TableAgrees (w.node_refs.filterMap pos) (wayCalls cfg w (w.node_refs.filterMap pos)) ↔
      (w.node_refs.filterMap pos).length < 2 ∨ ((w.node_refs.filterMap pos).length < 2 ^ 32 ∧
        (ClosedRing (w.node_refs.filterMap pos) → isArea true w.tags = true)) := by
  refine ⟨?_, fun w => tableAgrees_iff cfg w _⟩
  have hall := built hphase hpos h
  rw [hpc] at hall
  exact (hall.trans (List.append_nil _)).symm

/-- A store of three nodes. -/
def threeNodes : Int64 → Option Coord
  | 1 => some (⟨0⟩, ⟨0⟩)
  | 2 => some (⟨1⟩, ⟨0⟩)
  | 3 => some (⟨1⟩, ⟨1⟩)
  | _ => none

/-- A way of two nodes. -/
def openWay : WayEntry := ⟨7, [], .none, [1, 2]⟩

/-- A thread takes the way and stores it. -/
theorem table_and_geometry_open_way :
    ∃ acts t, Trace (Step smallConfig) ⟨.pop, NavDB.fresh 2, [], false⟩ acts t ∧
      acts.filterMap Act.insertedWay =
        wayCalls smallConfig openWay (openWay.node_refs.filterMap threeNodes) ∧
      TableAgrees (openWay.node_refs.filterMap threeNodes)
        (wayCalls smallConfig openWay (openWay.node_refs.filterMap threeNodes)) := by
  have hstart : Trace (Step smallConfig) ⟨.pop, NavDB.fresh 2, [], false⟩ [] _ := .nil
  obtain ⟨acts, t, htrace, hpos, htaken, hpc⟩ : ∃ acts t,
      Trace (Step smallConfig) ⟨.pop, NavDB.fresh 2, [], false⟩ acts t ∧
      (∀ id p, .select id p ∈ acts → p = threeNodes id) ∧
      (acts.filterMap Act.taken).filterMap OSMEntry.asWay = [openWay] ∧ t.pc = .pop := by
    refine ⟨_, _, ((((((hstart.snoc (.take (.way openWay) rfl rfl)).snoc
      (.select (some (⟨0⟩, ⟨0⟩)) rfl rfl)).snoc (.select (some (⟨1⟩, ⟨0⟩)) rfl rfl)).snoc
      (.located rfl rfl)).snoc (.insert rfl rfl)).snoc (.inserted rfl rfl)), ?_, rfl, rfl⟩
    intro id p hp
    simp only [List.mem_append, List.mem_singleton, List.not_mem_nil, Act.select.injEq, reduceCtorEq,
      or_false, false_or] at hp
    rcases hp with ⟨rfl, rfl⟩ | ⟨rfl, rfl⟩ <;> rfl
  obtain ⟨hcalls, hiff⟩ := table_and_geometry (by decide) hpos htrace hpc
  rw [htaken] at hcalls
  exact ⟨acts, t, htrace, hcalls, (hiff openWay).mpr (.inr ⟨by decide, by decide⟩)⟩

/-- A roundabout: a highway of three nodes that ends where it begins. -/
def roundabout : WayEntry :=
  ⟨7, [], ⟨[(str "highway", str "primary"), (str "junction", str "roundabout")], by decide⟩, [1, 2, 3, 1]⟩

/-- The roundabout is stored in `ways` as a polygon, and its relations lose it. -/
theorem roundabout_is_polygon :
    ∃ geog, wayCalls smallConfig roundabout (roundabout.node_refs.filterMap threeNodes) =
        [⟨.way, 7, [], roundabout.tags, geog⟩] ∧
      isLinear (fromHex geog) = false ∧ mergeWayGeoms 3857 [geog] = [] ∧
      ¬ TableAgrees (roundabout.node_refs.filterMap threeNodes)
        (wayCalls smallConfig roundabout (roundabout.node_refs.filterMap threeNodes)) := by
  refine ⟨(buildWayGeom 3857 (roundabout.node_refs.filterMap threeNodes) false).1, rfl, by decide,
    by decide, ?_⟩
  rw [tableAgrees_iff]
  decide

end WayThread

end OsmImport
