import OsmImport.Store.Proofs.NodeStore

/-!
# The guards of the merged file

`remove` and `writeToMerged` test the end of a slot, which is computed modulo `2 ^ 64`; the bitmap tests the
byte of an id, which is not. From `2 ^ 60` on an id has the slot of a smaller one. And in front of each
multiple of `2 ^ 60` is an id whose slot ends at zero, which passes the test from behind the map.
-/

namespace OsmImport

namespace OSMMMap

variable {st : OSMMMap} {max_id id : Int64}

/-- The record that `remove` writes over the one of an id. -/
def zeroRecord (id : Int64) : Record := ⟨id, ⟨0⟩, ⟨0⟩⟩

theorem position_zeroRecord (id : Int64) : (zeroRecord id).position = List.replicate REC_SIZE 0 := by
  simp only [Record.position, zeroRecord]
  decide

/-! ## What passes the guards -/

/-- Where the slot of an id begins. -/
def slotOffset (id : Int64) : ℕ := sizeMod (sizeT id * REC_SIZE)

/-- `remove` and `writeToMerged` write to the slot of the id. -/
def Passes (st : OSMMMap) (id : Int64) : Prop :=
  ¬ id < 0 ∧ sizeMod (slotOffset id + REC_SIZE) ≤ st.merged_size

/-- What they write is inside the map. -/
def Guarded (st : OSMMMap) (id : Int64) : Prop :=
  Passes st id → slotOffset id + REC_SIZE ≤ st.merged_size

theorem slotOffset_eq (id : Int64) : slotOffset id = sizeT id % 2 ^ 60 * 16 := by
  simp only [slotOffset, sizeMod, REC_SIZE]
  omega

theorem passes_iff (hc : Covers st max_id) :
    Passes st id ↔ ¬ id < 0 ∧ (sizeT id % 2 ^ 60 = 2 ^ 60 - 1 ∨ sizeT id % 2 ^ 60 ≤ sizeT max_id) := by
  have hb := hc.bound
  rw [Passes, slotOffset_eq, hc.data, sizeMod, REC_SIZE]
  refine and_congr_right fun _ => ?_
  omega

theorem guarded_iff (hc : Covers st max_id) :
    Guarded st id ↔ id < 0 ∨ sizeT id % 2 ^ 60 ≠ 2 ^ 60 - 1 := by
  have hb := hc.bound
  rw [Guarded, passes_iff hc, slotOffset_eq, hc.data, REC_SIZE]
  by_cases h0 : id < 0
  · simp [h0]
  · simp only [h0, not_false_eq_true, true_and, false_or]
    omega

theorem remove_of_not_passes (h : ¬ Passes st id) : st.remove id = st := by
  unfold remove
  split
  · rfl
  · rename_i h0
    exact if_pos (not_le.mp fun hle => h ⟨h0, hle⟩)

theorem writeToMerged_of_not_passes {r : Record} (h : ¬ Passes st r.id) : writeToMerged st r = st := by
  unfold writeToMerged
  split
  · rfl
  · rename_i h0
    exact if_pos (not_le.mp fun hle => h ⟨h0, hle⟩)

theorem remove_of_passes (h : Passes st id) : st.remove id = { st with
    merged := st.merged.write (slotOffset id) (zeroRecord id).position
    merged_bm := bitmapClear st.merged_bm st.merged_bm_size id } := by
  unfold remove
  rw [if_neg h.1, position_zeroRecord]
  exact if_neg (not_lt.mpr h.2)

theorem writeToMerged_of_passes {r : Record} (h : Passes st r.id) : writeToMerged st r = { st with
    merged := st.merged.write (slotOffset r.id) r.position
    merged_bm := bitmapSet st.merged_bm st.merged_bm_size r.id } := by
  unfold writeToMerged
  rw [if_neg h.1]
  exact if_neg (not_lt.mpr h.2)

/-! ## Removing an id in range -/

theorem covers_remove (hc : Covers st max_id) (id : Int64) : Covers (st.remove id) max_id := by
  unfold remove
  split
  · exact hc
  · dsimp only
    split
    · exact hc
    · exact ⟨hc.data, hc.bits, hc.bound⟩

theorem passes_of_inRange (hc : Covers st max_id) (hid : InRange max_id id) :
    Passes st id ∧ slotOffset id = sizeT id * 16 := by
  have hb := hc.bound
  have hid' : sizeT id ≤ sizeT max_id := hid
  have hmod : sizeT id % 2 ^ 60 = sizeT id := Nat.mod_eq_of_lt (by omega)
  rw [passes_iff hc, slotOffset_eq, neg_iff, hmod]
  omega

/-- A removed id is gone, and no other one. -/
theorem select_remove (hc : Covers st max_id) (hid : InRange max_id id) (j : Int64) :
    (st.remove id).select j = if j = id then none else st.select j := by
  obtain ⟨hp, hoff⟩ := passes_of_inRange hc hid
  have hb := hc.bound
  have hid' : sizeT id ≤ sizeT max_id := hid
  have hbit : sizeT id / 8 < st.merged_bm_size := by rw [hc.bits]; omega
  have hslot := slot_write st (bitmapClear st.merged_bm st.merged_bm_size id) (zeroRecord id) j
  rw [select_eq (covers_remove hc id), select_eq hc, remove_of_passes hp, hoff]
  simp only [bitmapGet_clear hbit]
  by_cases hj : j = id
  · simp [hj]
  · have hslot := hslot.trans (if_neg hj)
    simp only [zeroRecord] at hslot
    simp [hj, zeroRecord, hslot]

/-! ## Ids behind the bitmap -/

/-- The id that the slot belongs to. -/
def slotOwner (id : Int64) : Int64 := (UInt64.ofNat (sizeT id % 2 ^ 60)).toInt64

theorem sizeT_slotOwner (id : Int64) : sizeT (slotOwner id) = sizeT id % 2 ^ 60 := by
  have hlt : sizeT id % 2 ^ 60 < 2 ^ 64 := by omega
  simpa [slotOwner, sizeT] using hlt

/-- Where no bit changes, a write to the slot of an id moves the id that the slot belongs to. -/
theorem select_overwrite (hc : Covers st max_id) (r : Record) (j : Int64) :
    select { st with merged := st.merged.write (slotOffset r.id) r.position } j =
      if j = slotOwner r.id then (st.select j).map fun _ => (r.lon_m, r.lat_m) else st.select j := by
  have hc' : Covers { st with merged := st.merged.write (slotOffset r.id) r.position } max_id :=
    ⟨hc.data, hc.bits, hc.bound⟩
  have hslot : slot { st with merged := st.merged.write (slotOffset r.id) r.position } j =
      if j = slotOwner r.id then (r.lon_m, r.lat_m) else st.slot j := by
    rw [slotOffset_eq, ← sizeT_slotOwner]
    exact slot_write st st.merged_bm ⟨slotOwner r.id, r.lon_m, r.lat_m⟩ j
  rw [select_eq hc', select_eq hc, hslot]
  split_ifs <;> rfl

/-- From `2 ^ 60` on the byte of an id is behind the bitmap. -/
theorem behind_bitmap (hc : Covers st max_id) (h : 2 ^ 60 ≤ sizeT id) :
    sizeT id / 8 ≥ st.merged_bm_size := by
  have hb := hc.bound
  rw [hc.bits]
  omega

/-- An id that is not in range is not found. -/
theorem select_of_not_inRange (hc : Covers st max_id) (h : ¬ InRange max_id id) : st.select id = none := by
  rw [select_eq hc]
  exact if_neg fun hin => h hin.1

theorem not_inRange (hmax : ¬ max_id < 0) (h : id < 0 ∨ max_id < id) : ¬ InRange max_id id := by
  intro hin
  have hin : sizeT id ≤ sizeT max_id := hin
  have hlt := (not_neg_iff max_id).mp hmax
  have hid : ¬ id < 0 := by
    rw [neg_iff]
    omega
  have hmaxid : max_id < id := h.resolve_left hid
  have hback : InRange id max_id :=
    inRange_of_le hid (Int64.not_lt.mp hmax) (Int64.le_of_lt hmaxid)
  have hsame : max_id = id := sizeT_inj.mp (le_antisymm hback hin)
  exact Int64.lt_irrefl (hsame ▸ hmaxid)

/-! ## One id at a time -/

/-- What happens to one id is inside the map and no other id sees it; no id does where the id is outside
the store. -/
structure OwnIdOnly (max_id id : Int64) (st st' : OSMMMap) : Prop where
  inside : Guarded st id
  others : ∀ j, j ≠ id → st'.select j = st.select j
  outside : id < 0 ∨ max_id < id → ∀ j, st'.select j = st.select j

/-- No other id is moved by `pos` in the slot of an id: nothing is written for a negative one; else the end
of the slot does not wrap around, and it is the id's own, or the one it belongs to is absent or there. -/
def Harmless (st : OSMMMap) (id : Int64) (pos : Coord) : Prop :=
  id < 0 ∨ sizeT id % 2 ^ 60 ≠ 2 ^ 60 - 1 ∧
    (sizeT id < 2 ^ 60 ∨ ∀ p, st.select (slotOwner id) = some p → p = pos)

theorem OwnIdOnly.of_others {st' : OSMMMap} (hmax : ¬ max_id < 0) (hc : Covers st max_id)
    (hc' : Covers st' max_id) (hin : Guarded st id) (h : ∀ j, j ≠ id → st'.select j = st.select j) :
    OwnIdOnly max_id id st st' := by
  refine ⟨hin, h, fun hid j => ?_⟩
  by_cases hj : j = id
  · have hout := not_inRange hmax hid
    rw [hj, select_of_not_inRange hc hout, select_of_not_inRange hc' hout]
  · exact h j hj

/-- Nothing is written where a guard holds an id back. -/
theorem harmless_of_not_passes (hc : Covers st max_id) (h : ¬ Passes st id) (pos : Coord) :
    Harmless st id pos := by
  by_cases h0 : id < 0
  · exact .inl h0
  · have hslot : ¬ (sizeT id % 2 ^ 60 = 2 ^ 60 - 1 ∨ sizeT id % 2 ^ 60 ≤ sizeT max_id) :=
      fun hs => h ((passes_iff hc).mpr ⟨h0, hs⟩)
    rw [not_or] at hslot
    have hout : ¬ InRange max_id (slotOwner id) := fun hr => hslot.2 (sizeT_slotOwner id ▸ hr)
    refine .inr ⟨hslot.1, .inr fun p hp => ?_⟩
    rw [select_of_not_inRange hc hout] at hp
    cases hp

/-- A write to the slot of a smaller id is not seen if that id is absent or at the same position. -/
theorem others_overwrite_iff (hc : Covers st max_id) {r : Record} (hbig : 2 ^ 60 ≤ sizeT r.id) :
    (∀ j, j ≠ r.id →
      select { st with merged := st.merged.write (slotOffset r.id) r.position } j = st.select j) ↔
    ∀ p, st.select (slotOwner r.id) = some p → p = (r.lon_m, r.lat_m) := by
  have hne : slotOwner r.id ≠ r.id := by
    intro heq
    have hown := sizeT_slotOwner r.id
    rw [heq] at hown
    omega
  have hselect := select_overwrite hc r
  constructor
  · intro h p hp
    have hsame := (hselect _).symm.trans (h _ hne)
    rw [if_pos rfl, hp] at hsame
    exact (Option.some.inj hsame).symm
  · intro h j _
    rw [hselect]
    split
    · rename_i hj
      rw [hj]
      cases hp : st.select (slotOwner r.id) with
      | none => rfl
      | some p => exact congrArg some (h p hp).symm
    · rfl

/-- The cases that `remove` and `writeToMerged` have in common: an id is held back, in range, or aliased. -/
theorem ownIdOnly_iff {st' : OSMMMap} {r : Record} (hmax : ¬ max_id < 0) (hc : Covers st max_id)
    (hc' : Covers st' max_id) (hskip : ¬ Passes st r.id → st' = st)
    (hown : InRange max_id r.id → ∀ j, j ≠ r.id → st'.select j = st.select j)
    (halias : Passes st r.id → 2 ^ 60 ≤ sizeT r.id →
      st' = { st with merged := st.merged.write (slotOffset r.id) r.position }) :
    OwnIdOnly max_id r.id st st' ↔ Harmless st r.id (r.lon_m, r.lat_m) := by
  by_cases hp : Passes st r.id
  · obtain ⟨h0, hslot⟩ := (passes_iff hc).mp hp
    by_cases hwrap : sizeT r.id % 2 ^ 60 = 2 ^ 60 - 1
    · refine iff_of_false (fun h => ?_) fun h => ?_
      · exact ((guarded_iff hc).mp h.inside).elim h0 fun hne => hne hwrap
      · exact h.elim h0 fun hne => hne.1 hwrap
    · have hslot := hslot.resolve_left hwrap
      have hin := (guarded_iff hc).mpr (.inr hwrap)
      by_cases hsmall : sizeT r.id < 2 ^ 60
      · rw [Nat.mod_eq_of_lt hsmall] at hslot
        exact iff_of_true (.of_others hmax hc hc' hin (hown hslot)) (.inr ⟨hwrap, .inl hsmall⟩)
      · have hiff := others_overwrite_iff hc (not_lt.mp hsmall)
        rw [← halias hp (not_lt.mp hsmall)] at hiff
        constructor
        · exact fun h => .inr ⟨hwrap, .inr (hiff.mp h.others)⟩
        · rintro (h | ⟨-, h | h⟩)
          · exact absurd h h0
          · exact absurd h hsmall
          · exact .of_others hmax hc hc' hin (hiff.mpr h)
  · refine iff_of_true ?_ (harmless_of_not_passes hc hp _)
    exact .of_others hmax hc hc' (fun h => absurd h hp) fun j _ => by rw [hskip hp]

/-- The maps have the sizes that the constructor computes. -/
def HasSizes (st : OSMMMap) (max_id : Int64) : Prop :=
  st.merged_size = dataSz max_id ∧ st.merged_bm_size = bmSz max_id

theorem HasSizes.covers (h : HasSizes st max_id) (h0 : 0 ≤ max_id.toInt) (hlt : max_id.toInt < 2 ^ 59) :
    ¬ max_id < 0 ∧ Covers st max_id := by
  obtain ⟨hneg, hbound⟩ := sizeT_of_toInt h0 hlt
  obtain ⟨hdata, hbits⟩ := sizes_eq hbound
  exact ⟨hneg, h.1.trans hdata, h.2.trans hbits, hbound⟩

/-- Removing an id takes it out of the store and merging a record writes it, and neither disturbs the store
otherwise, exactly where what is written to the slot is harmless: for ids below `2 ^ 60 - 1`, and for those
whose slot belongs to no node that would move. -/
theorem undisturbed_iff (h0 : 0 ≤ max_id.toInt) (hlt : max_id.toInt < 2 ^ 59) (hst : HasSizes st max_id)
    (id : Int64) :
    (OwnIdOnly max_id id st (st.remove id) ∧ (st.remove id).select id = none ↔
      Harmless st id (⟨0⟩, ⟨0⟩)) ∧
    ∀ lon_m lat_m, OwnIdOnly max_id id st (writeToMerged st ⟨id, lon_m, lat_m⟩) ↔
      Harmless st id (lon_m, lat_m) := by
  obtain ⟨hmax, hc⟩ := hst.covers h0 hlt
  constructor
  · have hgone : (st.remove id).select id = none := by
      by_cases hin : InRange max_id id
      · rw [select_remove hc hin, if_pos rfl]
      · exact select_of_not_inRange (covers_remove hc id) hin
    rw [and_iff_left hgone]
    refine ownIdOnly_iff (r := zeroRecord id) hmax hc (covers_remove hc id) remove_of_not_passes
      (fun hin j hj => ?_) fun hp hbig => ?_
    · exact (select_remove hc hin j).trans (if_neg hj)
    · have hrem := remove_of_passes hp
      rw [bitmapClear, if_pos (behind_bitmap hc hbig)] at hrem
      exact hrem
  · intro lon_m lat_m
    refine ownIdOnly_iff (r := ⟨id, lon_m, lat_m⟩) hmax hc (covers_writeToMerged hc _)
      writeToMerged_of_not_passes (fun hin j hj => ?_) fun hp hbig => ?_
    · exact (select_writeToMerged hc hin j).trans (if_neg hj)
    · rw [writeToMerged_of_passes hp, bitmapSet, if_pos (behind_bitmap hc hbig)]

/-- A store of the ids up to 10 with node 3. -/
def storeOfThree : OSMMMap := writeToMerged
  { noStore with
    merged := File.blank 176, merged_size := 176, merged_bm := File.blank 2, merged_bm_size := 2 }
  ⟨3, ⟨5⟩, ⟨6⟩⟩

theorem undisturbed_iff_eleven :
    (OwnIdOnly 10 11 storeOfThree (storeOfThree.remove 11) ∧ (storeOfThree.remove 11).select 11 = none ↔
      Harmless storeOfThree 11 (⟨0⟩, ⟨0⟩)) ∧
    ∀ lon_m lat_m, OwnIdOnly 10 11 storeOfThree (writeToMerged storeOfThree ⟨11, lon_m, lat_m⟩) ↔
      Harmless storeOfThree 11 (lon_m, lat_m) :=
  undisturbed_iff (by decide) (by decide) ⟨by decide, by decide⟩ 11

/-- Removing the id `2 ^ 60 + 3`, which is not in the store, moves node 3. -/
theorem remove_moves_other : ¬ ∀ (st : OSMMMap) (max_id : Int64), 0 ≤ max_id.toInt →
    max_id.toInt < 2 ^ 59 → HasSizes st max_id → ∀ id : Int64,
      OwnIdOnly max_id id st (st.remove id) ∧ (st.remove id).select id = none := by
  intro h
  have hsame := (h storeOfThree 10 (by decide) (by decide) ⟨by decide, by decide⟩
    1152921504606846979).1.others 3 (by decide)
  revert hsame
  decide +kernel

end OSMMMap

end OsmImport
