import OsmImport.Geometry.Wkb

/-!
# Decoding what was encoded

The text of a geometry decodes to its bytes, and a polygon is no part of a merged multilinestring.
-/

namespace OsmImport

open LittleEndian

/-- The two digits of a byte, in either case. -/
theorem fromHexChar_hexDigit : ∀ x : Fin 256, ∀ ten ∈ [(65 : UInt8), 97],
    fromHexChar (hexDigit ten (UInt8.ofNat x.val >>> 4)) <<< 4 |||
      fromHexChar (hexDigit ten (UInt8.ofNat x.val &&& 0xF)) = UInt8.ofNat x.val := by
  decide +kernel

theorem fromHex_hex {ten : UInt8} (hten : ten ∈ [(65 : UInt8), 97]) (b : Bytes) :
    fromHex (hex ten b) = b := by
  induction b with
  | nil => rfl
  | cons x b ih =>
    have hx := fromHexChar_hexDigit ⟨x.toNat, x.toNat_lt⟩ ten hten
    rw [UInt8.ofNat_toNat] at hx
    have hcons : fromHex (hex ten (x :: b)) = (fromHexChar (hexDigit ten (x >>> 4)) <<< 4 |||
        fromHexChar (hexDigit ten (x &&& 0xF))) :: fromHex (hex ten b) := rfl
    rw [hcons, hx, ih]

/-- The bytes that `mergeLinestrings` takes of a text, if it takes it. -/
def linearPart (h : Str) : Option Bytes :=
  if h.length ≥ 10 ∧ isLinear (fromHex h) = true then some (fromHex h) else none

/-- `mergeLinestrings` depends on nothing but the linear parts. -/
theorem mergeLinestrings_eq (g_srid : ℕ) (hexes : List Str) :
    mergeLinestrings g_srid hexes =
      if (hexes.filterMap linearPart).isEmpty then []
      else toHexLower (multiLineBytes g_srid (hexes.filterMap linearPart)) := by
  have hparts : ((hexes.filter fun h => decide (h.length ≥ 10)).map fromHex).filter isLinear =
      hexes.filterMap linearPart := by
    induction hexes with
    | nil => rfl
    | cons h hexes ih =>
      rw [List.filterMap_cons, ← ih, linearPart]
      by_cases hlen : h.length ≥ 10 <;> by_cases hlin : isLinear (fromHex h) = true <;>
        simp [hlen, hlin]
  cases hexes with
  | nil => rfl
  | cons h hexes =>
    rw [← hparts]
    rfl

@[simp] theorem linearPart_nil : linearPart [] = none := rfl

/-- An area is skipped. -/
theorem linearPart_polygon (g_srid : ℕ) {pts : List Coord} (hlen : pts.length ≥ 4) :
    linearPart (buildLineWKB g_srid pts true) = none := by
  have hpts : ¬ pts.length < 2 := by omega
  have hgeom : buildLineWKB g_srid pts true = toHexLower (lineBytes g_srid true pts) := by
    simp only [buildLineWKB, if_neg hpts, hlen, decide_true, Bool.and_self]
  have hround : fromHex (toHexLower (lineBytes g_srid true pts)) = lineBytes g_srid true pts :=
    fromHex_hex (by simp) _
  have htype : ((lineBytes g_srid true pts).drop 1).take 4 = wu32 0x20000003 := rfl
  have hlin : isLinear (lineBytes g_srid true pts) = false := by
    unfold isLinear
    rw [htype]
    split
    · rfl
    · decide
  rw [hgeom, linearPart, hround, hlin]
  simp

end OsmImport
