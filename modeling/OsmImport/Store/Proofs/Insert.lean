import OsmImport.Store.Proofs.Memory

/-!
# When an insert returns

`insert` throws where the bitmap of the shard has to grow and the platform refuses the new size
(`Takes`). Otherwise the record is behind the others of its shard, and nothing else changes (`inserted`).
-/

namespace OsmImport

namespace Platform

/-- It grants a size of the bitmap of shard `i`. -/
def Grants (plat : Platform) (i sz : ℕ) : Prop :=
  plat.ftruncate (.shardBmp i) sz = true ∧ plat.mmap (.shardBmp i) sz = true

/-- It grants what the bitmaps of `n` shards need for the ids up to `max_id`. -/
def Roomy (plat : Platform) (max_id : Int64) (n : ℕ) : Prop :=
  ∀ i < n, ∀ sz, 0 < sz → sz ≤ 2 * (sizeT max_id / 8 + 1) → plat.Grants i sz

end Platform

namespace OSMMMap

/-- The bitmap has a bit for the id, or it can be grown. -/
def CanGrow (plat : Platform) (i : ℕ) (s : ShardWriter) (id : Int64) : Prop :=
  s.bm.size < sizeT id / 8 + 1 → plat.Grants i (grownSize s id)

/-- The insert of an id into a shard returns. -/
def Takes (st : OSMMMap) (shard : ℕ) (id : Int64) : Prop :=
  ∀ s, st.shards[shard]? = some (some s) → CanGrow st.platform shard s id

/-- The writer with a bitmap that has a bit for the id. -/
def withBit (s : ShardWriter) (id : Int64) : ShardWriter :=
  if s.bm.size < sizeT id / 8 + 1 then { s with bm := s.bm.grow (grownSize s id) } else s

/-- The store behind an insert that returns. -/
def inserted (chunk_size : ℕ) (st : OSMMMap) (shard : ℕ) (r : Record) : OSMMMap :=
  { st with shards := st.shards.modify shard (Option.map fun s => appendRecord chunk_size (withBit s r.id) r) }

theorem growBitmap_eq_ok {plat : Platform} {i : ℕ} {s s' : ShardWriter} {id : Int64} :
    growBitmap plat i s id = .ok s' ↔ CanGrow plat i s id ∧ s' = withBit s id := by
  unfold growBitmap CanGrow Platform.Grants withBit
  by_cases hfits : sizeT id / 8 + 1 ≤ s.bm.size
  · simp only [if_pos hfits, Except.ok.injEq, not_lt.mpr hfits, false_imp_iff, true_and, if_false]
    exact eq_comm
  · have hgrows : s.bm.size < sizeT id / 8 + 1 := not_le.mp hfits
    rw [if_neg hfits, if_pos hgrows]
    cases hgrow : plat.ftruncate (.shardBmp i) (grownSize s id) with
    | false => exact iff_of_false nofun fun h => Bool.false_ne_true (h.1 hgrows).1
    | true =>
      cases hmap : plat.mmap (.shardBmp i) (grownSize s id) with
      | false => exact iff_of_false nofun fun h => Bool.false_ne_true (h.1 hgrows).2
      | true =>
        exact ⟨fun h => ⟨fun _ => ⟨rfl, rfl⟩, (Except.ok.inj h).symm⟩, fun h => congrArg Except.ok h.2.symm⟩

/-- A shard that is open, and its writer with `f` applied. -/
theorem modify_open {shards : List (Option ShardWriter)} {i : ℕ} {s : ShardWriter}
    (f : ShardWriter → ShardWriter) (hs : shards[i]? = some (some s)) :
    shards.modify i (Option.map f) = shards.set i (some (f s)) := by
  rw [List.modify_eq_set, hs]
  rfl

/-- A shard that is not open stays as it is. -/
theorem modify_closed {shards : List (Option ShardWriter)} {i : ℕ} (f : ShardWriter → ShardWriter)
    (hs : ∀ s, shards[i]? ≠ some (some s)) : shards.modify i (Option.map f) = shards := by
  cases hi : shards[i]? with
  | none => exact List.modify_eq_self (List.getElem?_eq_none_iff.mp hi)
  | some o =>
    cases o with
    | some s => exact absurd hi (hs s)
    | none =>
      obtain ⟨hlt, hget⟩ := List.getElem?_eq_some_iff.mp hi
      rw [List.modify_eq_set, hi]
      show shards.set i none = shards
      rw [← hget, List.set_getElem_self]

/-- What an insert does, if it returns. -/
theorem insert_eq_ok {chunk_size : ℕ} {st st' : OSMMMap} {shard : ℕ} {r : Record} :
    st.insert chunk_size shard r = .ok st' ↔ st.Takes shard r.id ∧ st' = st.inserted chunk_size shard r := by
  unfold insert Takes inserted
  split
  · rename_i s hs
    have hgrow := @growBitmap_eq_ok st.platform shard s
    rw [modify_open _ hs]
    simp only [hs, Option.some.injEq, forall_eq']
    unfold insertRecord
    cases hrun : growBitmap st.platform shard s r.id with
    | error e =>
      have hno : ¬ CanGrow st.platform shard s r.id := by
        intro hcan
        have hok := hgrow.mpr ⟨hcan, rfl⟩
        rw [hrun] at hok
        cases hok
      exact iff_of_false (fun h => by cases h) fun h => hno h.1
    | ok s' =>
      obtain ⟨hcan, rfl⟩ := hgrow.mp hrun
      rw [and_iff_right hcan, eq_comm (a := st')]
      exact ⟨fun h => Except.ok.inj h, fun h => congrArg Except.ok h⟩
  · rename_i hclosed
    rw [modify_closed _ hclosed, and_iff_right fun s hs => absurd hs (hclosed s), eq_comm (a := st')]
    exact ⟨fun h => Except.ok.inj h, fun h => congrArg Except.ok h⟩

/-- An insert that does not return throws, and says that the platform refused. -/
theorem insert_error_iff {chunk_size : ℕ} {st : OSMMMap} {shard : ℕ} {r : Record} :
    (∃ e, st.insert chunk_size shard r = .error e) ↔ ¬ st.Takes shard r.id := by
  cases hrun : st.insert chunk_size shard r with
  | error e =>
    refine iff_of_true ⟨e, rfl⟩ fun h => ?_
    rw [insert_eq_ok.mpr ⟨h, rfl⟩] at hrun
    cases hrun
  | ok st' => exact iff_of_false (fun ⟨e, h⟩ => by cases h) (not_not.mpr (insert_eq_ok.mp hrun).1)

/-! ## Which ids are taken -/

theorem takes_of_roomy {st : OSMMMap} {max_id id : Int64} {n shard : ℕ} (hroom : st.platform.Roomy max_id n)
    (hshard : shard < n) (hid : sizeT id ≤ sizeT max_id) : st.Takes shard id := by
  intro s _ hsmall
  have hpos : 0 < grownSize s id := lt_of_lt_of_le (Nat.succ_pos _) (le_max_left _ _)
  have hle : grownSize s id ≤ 2 * (sizeT max_id / 8 + 1) := by
    unfold grownSize
    omega
  exact hroom shard hshard _ hpos hle

theorem roomy_plain (n : ℕ) : Platform.plain.Roomy 10 n := by
  intro i _ sz hpos hle
  have hsize : 2 * (sizeT 10 / 8 + 1) = 4 := by decide
  exact ⟨decide_eq_true (by omega), decide_eq_true ⟨hpos, by omega⟩⟩

/-- The mappings of the bitmaps are smaller than the addresses of a process. -/
def Mapped (st : OSMMMap) : Prop :=
  ∀ (i : ℕ) (s : ShardWriter), st.shards[i]? = some (some s) → s.bm.size < 2 ^ 56

theorem flushInbuf_bm (s : ShardWriter) : (flushInbuf s).bm = s.bm := by
  unfold flushInbuf
  split <;> rfl

theorem size_appendRecord (chunk_size : ℕ) (s : ShardWriter) (r : Record) :
    (appendRecord chunk_size s r).bm.size = s.bm.size := by
  have hset : ∀ (bm : File) (n : ℕ), (bitmapSet bm n r.id).size = bm.size := by
    intro bm n
    unfold bitmapSet
    dsimp only
    split <;> rfl
  unfold appendRecord
  dsimp only
  rw [hset]
  split
  · rw [flushInbuf_bm]
  · rfl

/-- An insert that returns keeps the mappings possible. -/
theorem Mapped.inserted {st : OSMMMap} (h : st.Mapped) {chunk_size shard : ℕ} {r : Record}
    (htakes : st.Takes shard r.id) : (st.inserted chunk_size shard r).Mapped := by
  intro i s hs
  have hget : (st.shards.modify shard (Option.map fun s => appendRecord chunk_size (withBit s r.id) r))[i]? =
      some (some s) := hs
  rw [List.getElem?_modify] at hget
  by_cases hi : shard = i
  · subst hi
    obtain ⟨t, ht, rfl⟩ : ∃ t, st.shards[shard]? = some (some t) ∧
        appendRecord chunk_size (withBit t r.id) r = s := by simpa using hget
    rw [size_appendRecord]
    unfold withBit
    split
    · rename_i hgrow
      exact st.platform.mmap_addresses _ _ (htakes t ht hgrow).2
    · exact h shard t ht
  · have hsame : st.shards[i]? = some (some s) := by simpa [hi] using hget
    exact h i s hsame

theorem Mapped.flushShard {st : OSMMMap} (h : st.Mapped) {shard : ℕ} : (st.flushShard shard).Mapped := by
  intro i s hs
  have hget : (st.shards.modify shard (Option.map flushInbuf))[i]? = some (some s) := hs
  rw [List.getElem?_modify] at hget
  by_cases hi : shard = i
  · obtain ⟨t, ht, rfl⟩ : ∃ t, st.shards[i]? = some (some t) ∧ flushInbuf t = s := by simpa [hi] using hget
    rw [flushInbuf_bm]
    exact h i t ht
  · have hsame : st.shards[i]? = some (some s) := by simpa [hi] using hget
    exact h i s hsame

/-- The bit of a negative id is beyond every mapping: its insert throws. -/
theorem not_takes_negative {st : OSMMMap} {shard : ℕ} {s : ShardWriter} {id : Int64} (hst : st.Mapped)
    (hs : st.shards[shard]? = some (some s)) (hid : id < 0) : ¬ st.Takes shard id := by
  intro h
  have hbig := (neg_iff id).mp hid
  have hsize := hst shard s hs
  have hmap := st.platform.mmap_addresses _ _ (h s hs (by omega)).2
  have hle : sizeT id / 8 + 1 ≤ grownSize s id := le_max_left _ _
  omega

end OSMMMap

end OsmImport
