import OsmImport.Geometry.Wkb

/-!
# The two copies of the encoders

The encoders of `main.cpp` and of `DeltaApplier.cpp`, each as it is written there: with its own hex digits,
hex reader, length guards and closure test, and with words put together and taken apart by shifts. The
functions of `Geometry.Wkb`, which the rest of the model uses, compute the same.
-/

namespace OsmImport

/-- The bytes of a word as both write them: `v & 0xFF`, `(v >> 8) & 0xFF` and so on. -/
def pushWord (v : UInt32) : Bytes :=
  [(v &&& 0xFF).toUInt8, ((v >>> 8) &&& 0xFF).toUInt8, ((v >>> 16) &&& 0xFF).toUInt8,
    ((v >>> 24) &&& 0xFF).toUInt8]

/-- `b1 | (b2<<8) | (b3<<16) | (b4<<24)` and the mask `0xFFFF`. -/
def typeWord (b1 b2 b3 b4 : UInt8) : UInt32 :=
  (b1.toUInt32 ||| b2.toUInt32 <<< 8 ||| b3.toUInt32 <<< 16 ||| b4.toUInt32 <<< 24) &&& 0xFFFF

/-! ## `main.cpp` -/

namespace MainEncoders

/-- `toHex`: an index into the digits. -/
def toHex (b : Bytes) : Str :=
  let h := str "0123456789ABCDEF"
  b.flatMap fun x : UInt8 => [h.getD (x >>> 4).toNat 0, h.getD (x &&& 0xF).toNat 0]

/-- `coords.front().first == coords.back().first && coords.front().second == coords.back().second`. -/
def meets (coords : List Coord) : Bool :=
  match coords.head?, coords.getLast? with
  | some front, some back => front.1.eq back.1 && front.2.eq back.2
  | _, _ => false

/-- `buildWayGeom`. -/
def buildWayGeom (g_srid : ℕ) (coords : List Coord) (is_closed : Bool) : Str × Bool :=
  if coords.length < 2 then ([], is_closed)
  else
    let is_closed := decide (coords.length ≥ 4) && meets coords
    let buf : Bytes := [0x01]
    let buf :=
      if is_closed then
        buf ++ pushWord 0x20000003 ++ pushWord (UInt32.ofNat g_srid) ++ pushWord 1
      else buf ++ pushWord 0x20000002 ++ pushWord (UInt32.ofNat g_srid)
    let buf := buf ++ pushWord (UInt32.ofNat coords.length)
    let buf := coords.foldl (fun buf p => buf ++ wd p.1 ++ wd p.2) buf
    (toHex buf, is_closed)

/-- `n`. -/
def n (c : UInt8) : UInt8 :=
  if 48 ≤ c ∧ c ≤ 57 then c - 48
  else if 65 ≤ c ∧ c ≤ 70 then c - 65 + 10
  else if 97 ≤ c ∧ c ≤ 102 then c - 97 + 10
  else 0

/-- `fromHex`: the loop takes two digits a round, while there are two. -/
def fromHex : Str → Bytes
  | a :: b :: rest => (n a <<< 4 ||| n b) :: fromHex rest
  | _ => []

/-- `isLinear`. -/
def isLinear (b : Bytes) : Bool :=
  if b.length < 5 then false
  else
    let gtype := typeWord (b.getD 1 0) (b.getD 2 0) (b.getD 3 0) (b.getD 4 0)
    gtype == 2 || gtype == 5

/-- The loop over the texts. -/
def partsOf (wkb_hexes : List Str) : List Bytes :=
  wkb_hexes.foldl (fun parts h =>
    if h.isEmpty then parts
    else
      let b := fromHex h
      if isLinear b then parts ++ [b] else parts) []

/-- `mergeWayGeoms`. -/
def mergeWayGeoms (g_srid : ℕ) (wkb_hexes : List Str) : Str :=
  let parts := partsOf wkb_hexes
  if parts.isEmpty then []
  else
    let buf : Bytes := [0x01] ++ pushWord 0x20000005 ++ pushWord (UInt32.ofNat g_srid) ++
      pushWord (UInt32.ofNat parts.length)
    toHex (parts.foldl (fun buf p => buf ++ p) buf)

end MainEncoders

/-! ## `DeltaApplier.cpp` -/

namespace DeltaEncoders

/-- `std::hex << std::setw(2) << std::setfill('0') << c`. -/
def formatByte (c : UInt8) : Str :=
  ((Nat.toDigits 16 c.toNat).map fun d => UInt8.ofNat d.toNat).leftpad 2 48

/-- `toHex`. -/
def toHex (b : Bytes) : Str := b.flatMap formatByte

/-- `buildLineWKB`. -/
def buildLineWKB (g_srid : ℕ) (pts : List Coord) (closed : Bool) : Str :=
  if pts.length < 2 then []
  else
    let b : Bytes := [1]
    let b :=
      if closed && decide (pts.length ≥ 4) then
        b ++ pushWord 0x20000003 ++ pushWord (UInt32.ofNat g_srid) ++ pushWord 1 ++
          pushWord (UInt32.ofNat pts.length)
      else
        b ++ pushWord 0x20000002 ++ pushWord (UInt32.ofNat g_srid) ++
          pushWord (UInt32.ofNat pts.length)
    toHex (pts.foldl (fun b p => b ++ wd p.1 ++ wd p.2) b)

/-- `coords.front() == coords.back()`. -/
def meets (coords : List Coord) : Bool :=
  match coords.head?, coords.getLast? with
  | some front, some back => front.eq back
  | _, _ => false

/-- `DeltaApplier::buildWayGeom` behind its loop: the coordinate check and `buildLineWKB`. -/
def buildWayGeom (g_srid : ℕ) (coords : List Coord) : Str × Bool :=
  if coords.length < 2 then ([], false)
  else
    let is_closed := meets coords && decide (coords.length ≥ 4)
    (buildLineWKB g_srid coords is_closed, is_closed)

/-- `byte`. -/
def byte (h : Str) (i : ℕ) : UInt8 :=
  fromHexChar (h.getD (i * 2) 0) <<< 4 ||| fromHexChar (h.getD (i * 2 + 1) 0)

/-- The loop over the texts. -/
def partsOf (hexes : List Str) : List Bytes :=
  hexes.foldl (fun parts h =>
    if h.length < 10 then parts
    else
      let gtype := typeWord (byte h 1) (byte h 2) (byte h 3) (byte h 4)
      if !(gtype == 2) && !(gtype == 5) then parts
      else
        let raw := (List.range (h.length / 2)).map (byte h)
        parts ++ [raw]) []

/-- `mergeLinestrings`. -/
def mergeLinestrings (g_srid : ℕ) (hexes : List Str) : Str :=
  if hexes.isEmpty then []
  else
    let parts := partsOf hexes
    if parts.isEmpty then []
    else
      let b : Bytes := [1] ++ pushWord 0x20000005 ++ pushWord (UInt32.ofNat g_srid) ++
        pushWord (UInt32.ofNat parts.length)
      toHex (parts.foldl (fun b p => b ++ p) b)

end DeltaEncoders

end OsmImport
