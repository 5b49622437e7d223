import OsmImport.Store.OSMMMap
import Mathlib.Data.Nat.Bitwise
import Mathlib.Tactic.IntervalCases

/-!
# Memory of the node store: ids, bits and bytes

What the bitmap and the byte-level reads and writes of the store do, stated for single ids and
offsets: setting a bit adds exactly one id, a write is read back where it was made and nowhere else.
-/

namespace OsmImport

open LittleEndian

/-! ## Ids as `size_t` -/

theorem sizeT_inj {a b : Int64} : sizeT a = sizeT b ↔ a = b := by
  refine ⟨fun h => ?_, fun h => by rw [h]⟩
  have h' : a.toBitVec = b.toBitVec := BitVec.eq_of_toNat_eq h
  exact Int64.toBitVec_inj.mp h'

theorem sizeT_lt (a : Int64) : sizeT a < 2 ^ 64 := a.toBitVec.isLt

/-- A negative id is a huge `size_t`. -/
theorem neg_iff (a : Int64) : a < 0 ↔ 2 ^ 63 ≤ sizeT a := by
  have hs : sizeT a = a.toBitVec.toNat := rfl
  have hi : a.toInt = a.toBitVec.toInt := rfl
  have hlt := sizeT_lt a
  rw [Int64.lt_iff_toInt_lt, hi, BitVec.toInt_eq_toNat_cond, Int64.toInt_zero, ← hs]
  split <;> omega

theorem not_neg_iff (a : Int64) : ¬ a < 0 ↔ sizeT a < 2 ^ 63 := by
  rw [neg_iff]; omega

/-- An id that is not negative is the same number as a `size_t`. -/
theorem sizeT_of_toInt {a : Int64} {n : ℕ} (h0 : 0 ≤ a.toInt) (h : a.toInt < 2 ^ n) :
    ¬ a < 0 ∧ sizeT a < 2 ^ n := by
  have hneg : ¬ a < 0 := by
    rw [Int64.lt_iff_toInt_lt, Int64.toInt_zero]
    omega
  have hs : sizeT a = a.toBitVec.toNat := rfl
  have hi : a.toInt = a.toBitVec.toInt := rfl
  have hlt := (not_neg_iff a).mp hneg
  rw [hi, BitVec.toInt_eq_toNat_of_lt (by omega), ← hs] at h
  exact ⟨hneg, by exact_mod_cast h⟩

theorem toInt64_sizeT (a : Int64) : (UInt64.ofNat (sizeT a)).toInt64 = a := by
  simp [sizeT]

/-! ## One byte of a bitmap -/

theorem getBit_eq (b : UInt8) {j : ℕ} (hj : j < 8) :
    ((b >>> UInt8.ofNat j) &&& 1 != 0) = b.toNat.testBit j := by
  have h1 : (b >>> UInt8.ofNat j &&& 1).toNat = 1 &&& (b.toNat >>> j) := by
    rw [UInt8.toNat_and, UInt8.toNat_shiftRight, Nat.and_comm]
    simp only [UInt8.toNat_ofNat', UInt8.reduceToNat]
    congr 2
    omega
  have h2 : (b >>> UInt8.ofNat j &&& 1 != 0) = ((b >>> UInt8.ofNat j &&& 1).toNat != 0) := by
    simp [bne, ← UInt8.toNat_inj, beq_eq_decide]
  rw [h2, h1, Nat.testBit]

theorem testBit_set (b : UInt8) {j k : ℕ} (hk : k < 8) :
    (b ||| (1 <<< UInt8.ofNat k)).toNat.testBit j = (decide (j = k) || b.toNat.testBit j) := by
  have h : (1 <<< UInt8.ofNat k : UInt8).toNat = 2 ^ k := by
    interval_cases k <;> rfl
  rw [UInt8.toNat_or, Nat.testBit_or, h, Nat.testBit_two_pow, Bool.or_comm]
  simp [eq_comm]

theorem testBit_clear (b : UInt8) {j k : ℕ} (hj : j < 8) (hk : k < 8) :
    (b &&& ~~~(1 <<< UInt8.ofNat k)).toNat.testBit j = (!decide (j = k) && b.toNat.testBit j) := by
  have h : (~~~(1 <<< UInt8.ofNat k) : UInt8).toNat.testBit j = !decide (j = k) := by
    interval_cases k <;> interval_cases j <;> rfl
  rw [UInt8.toNat_and, Nat.testBit_and, h, Bool.and_comm]

/-! ## The bitmap -/

/-- `bitmapGet` as a bit of a byte. -/
theorem bitmapGet_eq (bm : File) (n : ℕ) (id : Int64) :
    bitmapGet bm n id =
      (decide (sizeT id / 8 < n) && (bm.byte (sizeT id / 8)).toNat.testBit (sizeT id % 8)) := by
  have h8 : sizeT id % 8 < 8 := Nat.mod_lt _ (by omega)
  by_cases h : sizeT id / 8 < n
  · simp only [bitmapGet, ge_iff_le, Nat.not_le.mpr h, if_false, h, decide_true, Bool.true_and]
    exact getBit_eq _ h8
  · simp [bitmapGet, h, Nat.not_lt.mp h]

/-- In one byte, an id has a bit of its own. -/
theorem bit_inj {j id : Int64} (hb : sizeT j / 8 = sizeT id / 8) :
    decide (sizeT j % 8 = sizeT id % 8) = decide (j = id) := by
  rw [decide_eq_decide, ← sizeT_inj]
  omega

/-- Setting the bit of an id inside the bitmap adds exactly that id. -/
theorem bitmapGet_set {bm : File} {n : ℕ} {id : Int64} (hid : sizeT id / 8 < n) (j : Int64) :
    bitmapGet (bitmapSet bm n id) n j = (decide (j = id) || bitmapGet bm n j) := by
  have h8 : sizeT id % 8 < 8 := Nat.mod_lt _ (by omega)
  simp only [bitmapGet_eq, bitmapSet, ge_iff_le, Nat.not_le.mpr hid, if_false]
  by_cases hb : sizeT j / 8 = sizeT id / 8
  · have hj : decide (sizeT j / 8 < n) = true := by simp [hb, hid]
    rw [hj, if_pos hb, testBit_set _ h8, bit_inj hb]
    simp
  · have hne : j ≠ id := fun h => hb (by rw [h])
    simp [hb, hne]

/-- Clearing the bit of an id inside the bitmap removes exactly that id. -/
theorem bitmapGet_clear {bm : File} {n : ℕ} {id : Int64} (hid : sizeT id / 8 < n) (j : Int64) :
    bitmapGet (bitmapClear bm n id) n j = (!decide (j = id) && bitmapGet bm n j) := by
  have h8 : sizeT id % 8 < 8 := Nat.mod_lt _ (by omega)
  have h8' : sizeT j % 8 < 8 := Nat.mod_lt _ (by omega)
  simp only [bitmapGet_eq, bitmapClear, ge_iff_le, Nat.not_le.mpr hid, if_false]
  by_cases hb : sizeT j / 8 = sizeT id / 8
  · have hj : decide (sizeT j / 8 < n) = true := by simp [hb, hid]
    rw [hj, if_pos hb, testBit_clear _ h8' h8, bit_inj hb]
    simp
  · have hne : j ≠ id := fun h => hb (by rw [h])
    simp [hb, hne]

/-! ## Reads and writes -/

namespace File

/-- Bytes are read back where they were written, also at an offset inside the written piece. -/
theorem read_write_self (f : File) (off k : ℕ) (bs : Bytes) {n : ℕ} (h : k + n ≤ bs.length) :
    (f.write off bs).read (off + k) n = (bs.drop k).take n := by
  refine List.ext_getElem (by simp [read]; omega) fun i h1 h2 => ?_
  have hi : i < n := by simpa [read] using h1
  have hin : off ≤ off + k + i ∧ off + k + i < off + bs.length := by omega
  have hsub : off + k + i - off = k + i := by omega
  simp only [read, write, List.getElem_map, List.getElem_range, hin, and_self, if_true, hsub,
    List.getElem_take, List.getElem_drop]
  exact (List.getElem_eq_getD _).symm

/-- A write elsewhere is not seen. -/
theorem read_write_other (f : File) (off off' n : ℕ) (bs : Bytes)
    (h : off' + n ≤ off ∨ off + bs.length ≤ off') :
    (f.write off bs).read off' n = f.read off' n := by
  refine List.map_congr_left fun i hi => ?_
  have hi' : i < n := List.mem_range.mp hi
  have hout : ¬ (off ≤ off' + i ∧ off' + i < off + bs.length) := by omega
  simp [write, hout]

end File

/-! ## Records -/

@[simp] theorem Record.length_pack (r : Record) : r.pack.length = 24 := by
  simp [Record.pack]

@[simp] theorem Record.length_position (r : Record) : r.position.length = 16 := by
  simp [Record.position]

theorem readDouble_toBytes (x : Double) : readDouble (toBytes 8 x.bits.toNat) = x := by
  have h : x.bits.toNat < 256 ^ 8 := x.bits.toNat_lt
  simp [readDouble, ofBytes_toBytes h]

/-- What is packed is unpacked. -/
theorem Record.unpack_pack (r : Record) : Record.unpack r.pack = r := by
  have hid : sizeT r.id < 256 ^ 8 := sizeT_lt r.id
  have h1 : r.pack.take 8 = toBytes 8 (sizeT r.id) := by
    simp [Record.pack, List.append_assoc, List.take_left']
  have h2 : (r.pack.drop 8).take 8 = toBytes 8 r.lon_m.bits.toNat := by
    simp [Record.pack, List.append_assoc, List.drop_left', List.take_left']
  have h3 : (r.pack.drop 16).take 8 = toBytes 8 r.lat_m.bits.toNat := by
    rw [Record.pack, List.drop_left' (by simp), List.take_of_length_le (by simp)]
  rw [Record.unpack, h1, h2, h3, ofBytes_toBytes hid, toInt64_sizeT, readDouble_toBytes,
    readDouble_toBytes]

end OsmImport
