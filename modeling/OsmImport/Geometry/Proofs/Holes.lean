import Mathlib.Algebra.Order.Group.Int
import Mathlib.Algebra.Order.Ring.Int
import Mathlib.Order.Monotone.Odd
import OsmImport.Geometry.Proofs.Assembly
import OsmImport.Lib.Polygon

/-!
# Which polygon a hole is written into

With two or more outer rings, an inner ring is written into each polygon whose bounding box has its first
point. A ring that lies inside an outer one, by its exact coordinates, has its first point in the box, so
no hole is left out; but a box can have points that are outside of the ring.
-/

namespace OsmImport

/-! ## Exact coordinates -/

namespace Double

/-- The number with a magnitude, in units of the smallest positive one. -/
def scaled (m : ℕ) : ℕ := if m < 2 ^ 52 then m else (2 ^ 52 + m % 2 ^ 52) * 2 ^ (m / 2 ^ 52 - 1)

/-- The exact value, in units of the smallest positive one. -/
def exact (x : Double) : ℤ := x.rank.sign * scaled x.rank.natAbs

theorem scaled_succ (m : ℕ) : scaled m < scaled (m + 1) := by
  unfold scaled
  rcases Nat.lt_trichotomy (m + 1) (2 ^ 52) with hm | hm | hm
  · rw [if_pos (by omega), if_pos hm]
    exact Nat.lt_succ_self m
  · rw [if_pos (by omega), hm, if_neg (by omega), Nat.mod_self, Nat.div_self (by norm_num), Nat.sub_self,
      pow_zero]
    omega
  · rw [if_neg (by omega), if_neg (by omega)]
    by_cases hlast : m % 2 ^ 52 + 1 < 2 ^ 52
    · have hdiv : (m + 1) / 2 ^ 52 = m / 2 ^ 52 := by omega
      have hmod : (m + 1) % 2 ^ 52 = m % 2 ^ 52 + 1 := by omega
      rw [hdiv, hmod]
      exact Nat.mul_lt_mul_of_pos_right (by omega) (Nat.two_pow_pos _)
    · obtain ⟨e, he⟩ : ∃ e, m / 2 ^ 52 = e + 1 := ⟨m / 2 ^ 52 - 1, by omega⟩
      have hdiv : (m + 1) / 2 ^ 52 = e + 2 := by omega
      have hmod : (m + 1) % 2 ^ 52 = 0 := by omega
      have hpow : 2 ^ (e + 2 - 1) = 2 * 2 ^ e := pow_succ' 2 e
      rw [hdiv, hmod, he, Nat.add_sub_cancel, hpow, ← mul_assoc]
      exact Nat.mul_lt_mul_of_pos_right (by omega) (Nat.two_pow_pos _)

theorem scaled_strictMono : StrictMono scaled := strictMono_nat_of_lt_succ scaled_succ

theorem exact_le_iff (x y : Double) : x.exact ≤ y.exact ↔ x.rank ≤ y.rank := by
  have hmono : StrictMono fun r : ℤ => r.sign * scaled r.natAbs := by
    refine strictMono_of_odd_strictMonoOn_nonneg (fun r => ?_) fun r hr q hq hlt => ?_
    · rw [Int.sign_neg, Int.natAbs_neg, neg_mul]
    · obtain ⟨a, rfl⟩ := Int.eq_ofNat_of_zero_le hr
      obtain ⟨b, rfl⟩ := Int.eq_ofNat_of_zero_le hq
      have hab := scaled_strictMono (Int.ofNat_lt.mp hlt)
      rw [Int.sign_eq_one_of_pos (lt_of_le_of_lt hr hlt), one_mul, Int.natAbs_natCast, Int.natAbs_natCast]
      rcases Nat.eq_zero_or_pos a with rfl | ha
      · rw [Int.natCast_zero, Int.sign_zero, zero_mul]
        exact Int.ofNat_lt.mpr (Nat.zero_lt_of_lt hab)
      · rw [Int.sign_eq_one_of_pos (Int.natCast_pos.mpr ha), one_mul]
        exact Int.ofNat_lt.mpr hab
  exact hmono.le_iff_le

/-- A fold with `minDouble` or `maxDouble` gives a number that is on one side of all numbers. -/
theorem foldl_extreme {α : Type*} {op : Double → Double → Double} {r : ℤ → ℤ → Prop} [Std.Refl r]
    [IsTrans ℤ r] (hop : ∀ a b, a.isNaN = false → b.isNaN = false →
      (op a b).isNaN = false ∧ r (op a b).rank a.rank ∧ r (op a b).rank b.rank) (f : α → Double)
    {l : List α} (hl : ∀ a ∈ l, (f a).isNaN = false) {x : Double} (hx : x.isNaN = false) :
    (l.foldl (fun m a => op m (f a)) x).isNaN = false ∧
    r (l.foldl (fun m a => op m (f a)) x).rank x.rank ∧
    ∀ a ∈ l, r (l.foldl (fun m a => op m (f a)) x).rank (f a).rank := by
  induction l generalizing x with
  | nil => exact ⟨hx, refl_of r x.rank, fun a ha => absurd ha List.not_mem_nil⟩
  | cons b l ih =>
    obtain ⟨hnum, hleft, hright⟩ := hop x (f b) hx (hl b List.mem_cons_self)
    obtain ⟨hfold, hfirst, hrest⟩ := ih (fun a ha => hl a (List.mem_cons_of_mem b ha)) hnum
    refine ⟨hfold, trans_of r hfirst hleft, fun a ha => ?_⟩
    rcases List.mem_cons.mp ha with rfl | ha
    · exact trans_of r hfirst hright
    · exact hrest a ha

theorem minDouble_extreme {a b : Double} (ha : a.isNaN = false) (hb : b.isNaN = false) :
    (minDouble a b).isNaN = false ∧ (minDouble a b).rank ≤ a.rank ∧ (minDouble a b).rank ≤ b.rank := by
  unfold minDouble lt
  rw [ha, hb]
  split
  · rename_i h
    have hlt : b.rank < a.rank := by simpa using h
    exact ⟨hb, hlt.le, le_rfl⟩
  · rename_i h
    have hle : a.rank ≤ b.rank := by simpa using h
    exact ⟨ha, le_rfl, hle⟩

theorem maxDouble_extreme {a b : Double} (ha : a.isNaN = false) (hb : b.isNaN = false) :
    (maxDouble a b).isNaN = false ∧ (maxDouble a b).rank ≥ a.rank ∧ (maxDouble a b).rank ≥ b.rank := by
  unfold maxDouble lt
  rw [ha, hb]
  split
  · rename_i h
    have hlt : a.rank < b.rank := by simpa using h
    exact ⟨hb, hlt.le, le_rfl⟩
  · rename_i h
    have hle : b.rank ≤ a.rank := by simpa using h
    exact ⟨ha, le_rfl, hle⟩

theorem le_of_rank {a b : Double} (ha : a.isNaN = false) (hb : b.isNaN = false) (h : a.rank ≤ b.rank) :
    a.le b = true := by
  rw [le, ha, hb]
  exact decide_eq_true h

end Double

/-- The exact coordinates of a point. -/
def Coord.exact (c : Coord) : ℤ × ℤ := (c.1.exact, c.2.exact)

/-- All points of the inner ring are inside the outer ring, by exact coordinates. -/
def LiesInside (inner outer : Ring) : Prop :=
  ∀ c ∈ inner, Polygon.Inside (outer.map Coord.exact) (Coord.exact c)

instance (inner outer : Ring) : Decidable (LiesInside inner outer) :=
  inferInstanceAs (Decidable (∀ c ∈ inner, _))

/-! ## The bounding box -/

/-- The test of the code accepts a ring whose first point is in the box of the outer ring. -/
theorem inBox_of_box {outer inner : Ring} {c : Coord} (hhead : inner.head? = some c)
    (houter : ∀ q ∈ outer, Coord.isNaN q = false) (hc : c.isNaN = false)
    (h : Polygon.InBox (outer.map Coord.exact) c.exact) : inBox outer inner = true := by
  obtain ⟨hcx, hcy⟩ := Bool.or_eq_false_iff.mp hc
  obtain ⟨hleft, hright, hbelow, habove⟩ := h
  have hmem : ∀ {P : ℤ × ℤ → Prop}, (∃ q ∈ outer.map Coord.exact, P q) → ∃ q ∈ outer, P q.exact := by
    rintro P ⟨_, hmap, hP⟩
    obtain ⟨q, hq, rfl⟩ := List.mem_map.mp hmap
    exact ⟨q, hq, hP⟩
  obtain ⟨q0, hq0, hx0⟩ := hmem hleft
  obtain ⟨q1, hq1, hx1⟩ := hmem hright
  obtain ⟨q2, hq2, hy0⟩ := hmem hbelow
  obtain ⟨q3, hq3, hy1⟩ := hmem habove
  obtain ⟨p, ps, rfl⟩ := List.exists_cons_of_ne_nil (List.ne_nil_of_mem hq0)
  have hx : ∀ q ∈ p :: ps, q.1.isNaN = false := fun q hq => (Bool.or_eq_false_iff.mp (houter q hq)).1
  have hy : ∀ q ∈ p :: ps, q.2.isNaN = false := fun q hq => (Bool.or_eq_false_iff.mp (houter q hq)).2
  obtain ⟨hn0, -, hmin0⟩ := Double.foldl_extreme (r := (· ≤ ·))
    (fun _ _ => Double.minDouble_extreme) Prod.fst hx (hx p List.mem_cons_self)
  obtain ⟨hn1, -, hmax1⟩ := Double.foldl_extreme (r := (· ≥ ·))
    (fun _ _ => Double.maxDouble_extreme) Prod.fst hx (hx p List.mem_cons_self)
  obtain ⟨hn2, -, hmin2⟩ := Double.foldl_extreme (r := (· ≤ ·))
    (fun _ _ => Double.minDouble_extreme) Prod.snd hy (hy p List.mem_cons_self)
  obtain ⟨hn3, -, hmax3⟩ := Double.foldl_extreme (r := (· ≥ ·))
    (fun _ _ => Double.maxDouble_extreme) Prod.snd hy (hy p List.mem_cons_self)
  rw [inBox, List.head?_cons, hhead]
  dsimp only
  rw [Bool.and_eq_true, Bool.and_eq_true, Bool.and_eq_true]
  exact ⟨⟨⟨Double.le_of_rank hn0 hcx ((hmin0 q0 hq0).trans ((Double.exact_le_iff _ _).mp hx0)),
    Double.le_of_rank hcx hn1 (((Double.exact_le_iff _ _).mp hx1).trans (hmax1 q1 hq1))⟩,
    Double.le_of_rank hn2 hcy ((hmin2 q2 hq2).trans ((Double.exact_le_iff _ _).mp hy0))⟩,
    Double.le_of_rank hcy hn3 (((Double.exact_le_iff _ _).mp hy1).trans (hmax3 q3 hq3))⟩

/-- A ring that lies inside a ring has its first point in the box. -/
theorem inBox_of_liesInside {inner outer : Ring} (hinner : IsRing inner) (houter : IsRing outer)
    (h : LiesInside inner outer) : inBox outer inner = true := by
  have hpos : 0 < inner.length := Nat.lt_of_lt_of_le (by decide) hinner.four
  obtain ⟨c, inner, rfl⟩ := List.exists_cons_of_length_pos hpos
  have hclosed : (outer.map Coord.exact).head? = (outer.map Coord.exact).getLast? := by
    have hne : outer ≠ [] := List.ne_nil_of_length_pos (Nat.lt_of_lt_of_le (by decide) houter.four)
    have hvalue := (comparable_of_points hne houter.numbers).closes_iff.mp houter.closed
    have hexact : ∀ a b : Coord, a.value = b.value → a.exact = b.exact := by
      intro a b hab
      obtain ⟨h1, h2⟩ := Prod.mk.inj hab
      rw [Coord.exact, Coord.exact, Double.exact, Double.exact, Double.exact, Double.exact, h1, h2]
    obtain ⟨a, ha⟩ := Option.ne_none_iff_exists'.mp (List.head?_eq_none_iff.not.mpr hne)
    obtain ⟨b, hb⟩ := Option.ne_none_iff_exists'.mp (List.getLast?_eq_none_iff.not.mpr hne)
    rw [Chains.front, Chains.back, ha, hb] at hvalue
    rw [List.head?_map, List.getLast?_map, ha, hb, Option.map_some, Option.map_some,
      hexact a b (Option.some.inj hvalue)]
  exact inBox_of_box rfl houter.numbers (hinner.numbers c List.mem_cons_self)
    (Polygon.inBox_of_inside hclosed (h c List.mem_cons_self))

/-- The rings that are stitched from numbers are rings of numbers. -/
theorem isRing_of_mem {segs : List Segment} (hne : ∀ s ∈ segs, s ≠ [])
    (hnum : ∀ s ∈ segs, ∀ c ∈ s, Coord.isNaN c = false) {ring : Ring} (hr : ring ∈ stitchRings segs) :
    IsRing ring := by
  obtain ⟨chains, hrings, taken, hle, hturn⟩ :=
    (stitches_stitchRings segs).sound fun s hs => comparable_of_points (hne s hs) (hnum s hs)
  obtain ⟨pieces, hpieces, hring⟩ := exists_pieces hrings hr
  have hjoin : ∀ c ∈ Chains.join pieces, c.isNaN = false := by
    intro c hc
    obtain ⟨p, hp, hcp⟩ := Chains.mem_join hc
    obtain ⟨s, hs, hst⟩ := Multiset.exists_mem_of_rel_of_mem (Chains.rel_turned_symm hturn)
      (Multiset.mem_coe.mpr (List.mem_flatten.mpr ⟨pieces, hpieces, hp⟩))
    exact hnum s (Multiset.mem_coe.mp (Multiset.mem_of_le hle hs)) c (hst.mem_iff.mpr hcp)
  refine ⟨hring.four, hring.closed, fun c hc => ?_⟩
  rcases hring.points with rfl | ⟨a, ha, rfl⟩
  · exact hjoin c hc
  · rcases List.mem_append.mp hc with hc | hc
    · exact hjoin c hc
    · obtain rfl := List.mem_singleton.mp hc
      exact hjoin c (List.mem_of_mem_head? ha)

/-! ## Holes -/

/-- The inner ring is a hole of exactly one polygon, the one whose outer ring it lies inside, as often as
it is one of the inner rings. -/
structure AssignedOnce (inner_rings : List Ring) (polygons : List (Ring × List Ring)) (inner : Ring) :
    Prop where
  once : (polygons.countP fun polygon => decide (inner ∈ polygon.2)) = 1
  own : ∀ polygon ∈ polygons, inner ∈ polygon.2 →
    LiesInside inner polygon.1 ∧ polygon.2.count inner = inner_rings.count inner

theorem polygonsOf_of_two {inner_rings outer_rings : List Ring} (h : 2 ≤ outer_rings.length) :
    polygonsOf inner_rings outer_rings =
      outer_rings.map fun outer => (outer, inner_rings.filter (inBox outer)) := by
  rcases outer_rings with _ | ⟨outer, _ | ⟨outer', outers⟩⟩
  · simp at h
  · simp at h
  · rfl

/-- **When holes are assigned.** A relation with two outer rings or more, whose inner rings each lie inside
exactly one of them: the text is that of one polygon for each outer ring, and each inner ring is a hole of
exactly one polygon, its own, if and only if its first point is in no box of another outer ring. -/
theorem holes_assigned_iff (g_srid : ℕ) (item : RelationEntry) (coords_map : Int64 → List Coord)
    (hnum : ∀ m ∈ item.way_members, ∀ c ∈ coords_map m.id, Coord.isNaN c = false)
    (htwo : 2 ≤ (outerRings item coords_map).length)
    (hone : ∀ inner ∈ innerRings item coords_map,
      ((outerRings item coords_map).countP fun outer => decide (LiesInside inner outer)) = 1) :
    buildMultipolygon g_srid item coords_map = encodePolygons g_srid (polygons item coords_map) ∧
    (polygons item coords_map).map Prod.fst = outerRings item coords_map ∧
    ((∀ inner ∈ innerRings item coords_map,
        AssignedOnce (innerRings item coords_map) (polygons item coords_map) inner) ↔
      ∀ inner ∈ innerRings item coords_map, ∀ outer ∈ outerRings item coords_map,
        inBox outer inner = true → LiesInside inner outer) := by
  have hring : ∀ {inner : Bool} {ring : Ring}, ring ∈ stitchRings (segmentsOf inner item coords_map) →
      IsRing ring := by
    intro inner ring hr
    refine isRing_of_mem segmentsOf_ne_nil (fun s hs => ?_) hr
    obtain ⟨m, hm, rfl⟩ := mem_segmentsOf hs
    exact hnum m hm
  have hpolygons : polygons item coords_map = (outerRings item coords_map).map fun outer =>
      (outer, (innerRings item coords_map).filter (inBox outer)) := polygonsOf_of_two htwo
  refine ⟨buildMultipolygon_eq_encode g_srid item coords_map, ?_, ?_⟩
  · rw [hpolygons, List.map_map]
    exact List.map_id _
  rw [hpolygons]
  constructor
  · intro h inner hi outer ho hbox
    exact ((h inner hi).own _ (List.mem_map_of_mem ho) (List.mem_filter.mpr ⟨hi, hbox⟩)).1
  · intro h inner hi
    have hiff : ∀ outer ∈ outerRings item coords_map,
        inner ∈ (innerRings item coords_map).filter (inBox outer) ↔ LiesInside inner outer := by
      intro outer ho
      rw [List.mem_filter, and_iff_right hi]
      exact ⟨h inner hi outer ho, inBox_of_liesInside (hring hi) (hring ho)⟩
    constructor
    · rw [List.countP_map, ← hone inner hi]
      refine List.countP_congr fun outer ho => ?_
      simpa using hiff outer ho
    · intro polygon hp hmem
      obtain ⟨outer, ho, rfl⟩ := List.mem_map.mp hp
      exact ⟨(hiff outer ho).mp hmem, List.count_filter (List.of_mem_filter hmem)⟩

/-- The bits of 2, 3, 6, 7 and 8. -/
def two : UInt64 := 0x4000000000000000
def three : UInt64 := 0x4008000000000000
def six : UInt64 := 0x4018000000000000
def seven : UInt64 := 0x401C000000000000
def eight : UInt64 := 0x4020000000000000

/-- Two triangles that share no point, as outer members, and an inner member. -/
def twoTriangles : RelationEntry :=
  ⟨9, [], .none, [⟨1, str "outer"⟩, ⟨2, str "outer"⟩, ⟨3, str "inner"⟩]⟩

/-- The coordinates of the triangles, and of the inner member. -/
def triangleCoords (inner : List Coord) (id : Int64) : List Coord :=
  if id = 1 then [corner 0 0, corner eight 0, corner 0 eight, corner 0 0]
  else if id = 2 then [corner eight eight, corner eight three, corner three eight, corner eight eight]
  else inner

/-- A hole near the right angle of the first triangle, out of the box of the second one. -/
def farHole : List Coord := [corner one one, corner two one, corner one two, corner one one]

theorem holes_assigned_iff_far_hole :
    innerRings twoTriangles (triangleCoords farHole) = [farHole] ∧
    AssignedOnce (innerRings twoTriangles (triangleCoords farHole))
      (polygons twoTriangles (triangleCoords farHole)) farHole :=
  ⟨by decide, (holes_assigned_iff 3857 twoTriangles (triangleCoords farHole) (by decide) (by decide)
    (by decide +kernel)).2.2.mpr (by decide +kernel) farHole (by decide)⟩

/-- A hole in the second triangle, and in the box of the first one. -/
def sharedHole : List Coord := [corner six six, corner seven six, corner six seven, corner six six]

/-- It is written into both polygons. -/
theorem hole_in_two_polygons :
    (∀ m ∈ twoTriangles.way_members, ∀ c ∈ triangleCoords sharedHole m.id, Coord.isNaN c = false) ∧
    (outerRings twoTriangles (triangleCoords sharedHole)).length = 2 ∧
    innerRings twoTriangles (triangleCoords sharedHole) = [sharedHole] ∧
    (outerRings twoTriangles (triangleCoords sharedHole)).map (fun outer =>
      decide (LiesInside sharedHole outer)) = [false, true] ∧
    (polygons twoTriangles (triangleCoords sharedHole)).map Prod.snd = [[sharedHole], [sharedHole]] ∧
    ¬ AssignedOnce (innerRings twoTriangles (triangleCoords sharedHole))
      (polygons twoTriangles (triangleCoords sharedHole)) sharedHole := by
  refine ⟨by decide, by decide, by decide, by decide +kernel, by decide +kernel, fun h => ?_⟩
  have honce := h.once
  revert honce
  decide +kernel

end OsmImport
