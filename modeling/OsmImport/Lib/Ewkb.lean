import OsmImport.Lib.Reader

/-!
# Extended well-known binary

The geometry format of PostGIS: a byte for the byte order (1 is little-endian), a type word whose bit 29
says that an SRID follows, and the body. The members of a multilinestring or multipolygon have headers of
their own, again with or without an SRID. In text every byte is two hex digits. Coordinates are the bit
patterns of their `double`s.
-/

namespace Ewkb

open Reader

/-- The bits of `x` and `y`. -/
abbrev Point := UInt64 × UInt64

inductive Shape where
  | point (p : Point)
  | lineString (pts : List Point)
  | polygon (rings : List (List Point))
  | multiLineString (lines : List (List Point))
  | multiPolygon (polygons : List (List (List Point)))
deriving DecidableEq

structure Geometry where
  srid : Option ℕ
  shape : Shape
deriving DecidableEq

namespace Shape

/-- The points of a shape, in the order in which they are written. -/
def points : Shape → List Point
  | .point p => [p]
  | .lineString pts => pts
  | .polygon rings => rings.flatten
  | .multiLineString lines => lines.flatten
  | .multiPolygon polygons => polygons.flatten.flatten

/-- Linestrings and multilinestrings. -/
def IsLinear : Shape → Prop
  | .lineString _ | .multiLineString _ => True
  | _ => False

end Shape

/-! ## The decoder -/

/-- The bit of the type word that announces an SRID. -/
def sridFlag : ℕ := 2 ^ 29

/-- The type without its flag, and the SRID. -/
def header : Reader (ℕ × Option ℕ) := do
  let order ← word 1
  if order = 1 then
    let type ← word 4
    if type.testBit 29 then
      let srid ← word 4
      return (type - sridFlag, some srid)
    else return (type, none)
  else fail

def point : Reader Point := do
  let x ← word 8
  let y ← word 8
  return (UInt64.ofNat x, UInt64.ofNat y)

/-- The points of a linestring or a ring. -/
def line : Reader (List Point) := do
  let n ← word 4
  point.times n

/-- The rings of a polygon. -/
def rings : Reader (List (List Point)) := do
  let n ← word 4
  line.times n

/-- A geometry of the type, as a member of another. -/
def member {α : Type} (type : ℕ) (body : Reader α) : Reader α := do
  let h ← header
  if h.1 = type then body else fail

/-- The members of a geometry. -/
def members {α : Type} (type : ℕ) (body : Reader α) : Reader (List α) := do
  let n ← word 4
  (member type body).times n

def shape : ℕ → Reader Shape
  | 1 => Shape.point <$> point
  | 2 => Shape.lineString <$> line
  | 3 => Shape.polygon <$> rings
  | 5 => Shape.multiLineString <$> members 2 line
  | 6 => Shape.multiPolygon <$> members 3 rings
  | _ => fail

def geometry : Reader Geometry := do
  let h ← header
  let body ← shape h.1
  return ⟨h.2, body⟩

/-- The geometry that the bytes write, without a byte left over. -/
def decode : List UInt8 → Option Geometry := geometry.whole

/-- The value of a hex digit of either case. -/
def digit (c : UInt8) : Option UInt8 :=
  if 48 ≤ c ∧ c ≤ 57 then some (c - 48)
  else if 65 ≤ c ∧ c ≤ 70 then some (c - 55)
  else if 97 ≤ c ∧ c ≤ 102 then some (c - 87)
  else none

/-- The bytes that a text of hex digits writes. -/
def unhex : List UInt8 → Option (List UInt8)
  | [] => some []
  | a :: b :: rest => do
    let hi ← digit a
    let lo ← digit b
    let bs ← unhex rest
    return (hi <<< 4 ||| lo) :: bs
  | _ => none

/-- The geometry in a text. -/
def parse (text : List UInt8) : Option Geometry := (unhex text).bind decode

/-! ## What the decoder reads -/

open LittleEndian

/-- The bytes of a header with an SRID. -/
def headerBytes (type srid : ℕ) : List UInt8 :=
  toBytes 1 1 ++ (toBytes 4 (sridFlag + type) ++ toBytes 4 srid)

theorem reads_header {type srid : ℕ} (ht : type < 2 ^ 29) (hs : srid < 2 ^ 32) :
    Reads header (headerBytes type srid) (type, some srid) := by
  have hbit : (sridFlag + type).testBit 29 = true := Nat.testBit_two_pow_add_eq type 29 ▸ by
    rw [Nat.testBit_lt_two_pow ht]
    rfl
  have hword : sridFlag + type < 256 ^ 4 := by
    show 2 ^ 29 + type < 256 ^ 4
    omega
  have hsub : sridFlag + type - sridFlag = type := Nat.add_sub_cancel_left ..
  refine (reads_word (by decide)).bind ?_
  rw [if_pos rfl]
  refine (reads_word hword).bind ?_
  rw [if_pos hbit, hsub]
  exact (reads_word (show srid < 256 ^ 4 by omega)).bindPure

/-- The bytes of a header without an SRID. -/
def plainHeaderBytes (type : ℕ) : List UInt8 := toBytes 1 1 ++ toBytes 4 type

theorem reads_plainHeader {type : ℕ} (ht : type < 2 ^ 29) : Reads header (plainHeaderBytes type) (type, none) := by
  have hbit : ¬ type.testBit 29 = true := by simp [Nat.testBit_lt_two_pow ht]
  refine (reads_word (by decide)).bind ?_
  rw [if_pos rfl, ← List.append_nil (toBytes 4 type)]
  refine (reads_word (show type < 256 ^ 4 by omega)).bind ?_
  rw [if_neg hbit]
  exact reads_pure _

/-- The bytes of a point. -/
def pointBytes (p : Point) : List UInt8 := toBytes 8 p.1.toNat ++ toBytes 8 p.2.toNat

theorem reads_point (p : Point) : Reads point (pointBytes p) p := by
  have hfits : ∀ x : UInt64, x.toNat < 256 ^ 8 := fun x => x.toNat_lt.trans_eq (by norm_num)
  have hread : Reads point (pointBytes p) (UInt64.ofNat p.1.toNat, UInt64.ofNat p.2.toNat) :=
    (reads_word (hfits p.1)).bind (reads_word (hfits p.2)).bindPure
  rwa [UInt64.ofNat_toNat, UInt64.ofNat_toNat] at hread

/-- A counted sequence. -/
theorem reads_counted {α β : Type} {p : Reader α} {enc : β → List UInt8} {val : β → α} {l : List β}
    (hl : l.length < 2 ^ 32) (h : ∀ b ∈ l, Reads p (enc b) (val b)) :
    Reads (do let n ← word 4; p.times n) (toBytes 4 l.length ++ l.flatMap enc) (l.map val) :=
  (reads_word (show l.length < 256 ^ 4 by omega)).bind (reads_times h)

theorem reads_line {pts : List Point} (h : pts.length < 2 ^ 32) :
    Reads line (toBytes 4 pts.length ++ pts.flatMap pointBytes) pts := by
  have hread : Reads line _ (pts.map id) := reads_counted h fun p _ => reads_point p
  rwa [List.map_id] at hread

theorem reads_member {α : Type} {type srid : ℕ} {body : Reader α} {bs : List UInt8} {a : α}
    (ht : type < 2 ^ 29) (hs : srid < 2 ^ 32) (h : Reads body bs a) :
    Reads (member type body) (headerBytes type srid ++ bs) a := by
  refine (reads_header ht hs).bind ?_
  rw [if_pos rfl]
  exact h

theorem reads_geometry {type srid : ℕ} {bs : List UInt8} {sh : Shape} (ht : type < 2 ^ 29)
    (hs : srid < 2 ^ 32) (h : Reads (shape type) bs sh) :
    Reads geometry (headerBytes type srid ++ bs) ⟨some srid, sh⟩ := by
  exact (reads_header ht hs).bind h.bindPure

theorem reads_plainGeometry {type : ℕ} {bs : List UInt8} {sh : Shape} (ht : type < 2 ^ 29)
    (h : Reads (shape type) bs sh) : Reads geometry (plainHeaderBytes type ++ bs) ⟨none, sh⟩ :=
  (reads_plainHeader ht).bind h.bindPure

/-! ## Members written elsewhere -/

theorem extends_header : Extends header := by
  refine (extends_word 1).bind fun order => Extends.ite ?_ extends_fail
  refine (extends_word 4).bind fun type => Extends.ite ?_ (extends_pure _)
  exact (extends_word 4).bind fun srid => extends_pure _

theorem extends_point : Extends point :=
  (extends_word 8).bind fun _ => (extends_word 8).bind fun _ => extends_pure _

theorem extends_line : Extends line := (extends_word 4).bind fun n => extends_point.times n

theorem extends_member {α : Type} {type : ℕ} {body : Reader α} (h : Extends body) :
    Extends (member type body) :=
  extends_header.bind fun _ => Extends.ite h extends_fail

theorem extends_rings : Extends rings := (extends_word 4).bind fun n => extends_line.times n

theorem extends_members {α : Type} {type : ℕ} {body : Reader α} (h : Extends body) :
    Extends (members type body) :=
  (extends_word 4).bind fun n => (extends_member h).times n

theorem extends_shape (type : ℕ) : Extends (shape type) := by
  unfold shape
  split
  · exact extends_point.map _
  · exact extends_line.map _
  · exact extends_rings.map _
  · exact (extends_members extends_line).map _
  · exact (extends_members extends_rings).map _
  · exact extends_fail

theorem extends_geometry : Extends geometry :=
  extends_header.bind fun h => (extends_shape h.1).bind fun _ => extends_pure _

/-- Where the type of a header stands. -/
theorem type_of_header {b r : List UInt8} {type : ℕ} {srid : Option ℕ}
    (h : header.run b = some ((type, srid), r)) : 5 ≤ b.length ∧
      (ofBytes ((b.drop 1).take 4) = type ∨ ofBytes ((b.drop 1).take 4) = sridFlag + type) := by
  unfold header at h
  obtain ⟨h1, h⟩ := run_word_bind.mp h
  split at h
  · obtain ⟨h4, h⟩ := run_word_bind.mp h
    rw [List.length_drop] at h4
    refine ⟨by omega, ?_⟩
    split at h
    · rename_i hbit
      obtain ⟨-, h⟩ := run_word_bind.mp h
      have htype : _ - sridFlag = type := congrArg (fun x => x.1.1) (Option.some.inj h)
      have hle := Nat.ge_two_pow_of_testBit hbit
      exact .inr (htype ▸ (Nat.add_sub_cancel' hle).symm)
    · have htype : _ = type := congrArg (fun x => x.1.1) (Option.some.inj h)
      exact .inl htype
  · cases h

/-- The header of a geometry that decodes. -/
theorem header_of_decode {b : List UInt8} {g : Geometry} (h : decode b = some g) :
    ∃ type r, header.run b = some ((type, g.srid), r) ∧ (shape type).run r = some (g.shape, []) := by
  have hrun : geometry.run b = some (g, []) := whole_eq_some.mp h
  unfold geometry at hrun
  rw [StateT.run_bind] at hrun
  cases hh : header.run b with
  | none =>
    rw [hh] at hrun
    cases hrun
  | some hr =>
    obtain ⟨⟨type, srid⟩, r⟩ := hr
    rw [hh] at hrun
    have hrun' : ((shape type >>= fun body => pure (⟨srid, body⟩ : Geometry)) : Reader _).run r =
      some (g, []) := hrun
    rw [StateT.run_bind] at hrun'
    cases hs : (shape type).run r with
    | none =>
      rw [hs] at hrun'
      cases hrun'
    | some sr =>
      obtain ⟨sh, rest⟩ := sr
      rw [hs] at hrun'
      cases hrun'
      exact ⟨type, r, rfl, hs⟩

/-- The type says which shape it is. -/
theorem isLinear_of_shape {type : ℕ} {b r : List UInt8} {sh : Shape}
    (h : (shape type).run b = some (sh, r)) :
    type ≤ 6 ∧ (sh.IsLinear ↔ type = 2 ∨ type = 5) := by
  unfold shape at h
  split at h
  all_goals first
    | (obtain ⟨a, -, rfl⟩ := run_map_eq_some.mp h; exact ⟨by decide, by simp [Shape.IsLinear]⟩)
    | cases h

/-- A linestring that decodes is read as a member. -/
theorem reads_member_of_decode {b : List UInt8} {srid : Option ℕ} {pts : List Point}
    (h : decode b = some ⟨srid, .lineString pts⟩) : Reads (member 2 line) b pts := by
  obtain ⟨type, r, hheader, hshape⟩ := header_of_decode h
  have hline : type = 2 ∧ line.run r = some (pts, []) := by
    unfold shape at hshape
    split at hshape
    all_goals first
      | (obtain ⟨a, hrun, ha⟩ := run_map_eq_some.mp hshape; cases ha; try exact ⟨rfl, hrun⟩)
      | cases hshape
  apply (extends_member extends_line).reads
  rw [whole_eq_some, member, StateT.run_bind, hheader]
  show (if type = 2 then line else fail).run r = _
  rw [if_pos hline.1, hline.2]

end Ewkb
