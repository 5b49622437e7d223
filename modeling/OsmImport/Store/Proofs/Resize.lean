import OsmImport.Store.Proofs.Guards
import OsmImport.Store.Proofs.Reopen

/-!
# Reopening a store for other ids

On a resume the two files of a store are grown to the sizes for the new `max_id`, or only a prefix of them is
mapped. The bitmap has no bit behind the old `max_id`, also not in its last byte, and the size of the data
hides the bits behind the new one. So the reopened store has the nodes that both have room for.
-/

namespace OsmImport

namespace OSMMMap

variable {lz4 : Lz4} {st : OSMMMap} {max_id : Int64}

theorem inRange_iff {id : Int64} (hmax : ¬ max_id < 0) : InRange max_id id ↔ 0 ≤ id ∧ id ≤ max_id := by
  refine ⟨fun h => ?_, fun h => inRange_of_le hmax h.1 h.2⟩
  by_contra hout
  refine not_inRange hmax ?_ h
  rw [not_and_or, Int64.not_le, Int64.not_le] at hout
  exact hout

/-! ## The last byte of the bitmap -/

/-- No bit is set behind `max_id`. -/
def NoPadding (st : OSMMMap) (max_id : Int64) : Prop :=
  ∀ id, bitmapGet st.merged_bm st.merged_bm_size id = true → InRange max_id id

theorem noPadding_write (hc : Covers st max_id) (h : NoPadding st max_id) {r : Record}
    (hr : InRange max_id r.id) : NoPadding (writeToMerged st r) max_id := by
  have hr' : sizeT r.id ≤ sizeT max_id := hr
  have hbit : sizeT r.id / 8 < st.merged_bm_size := by rw [hc.bits]; omega
  rw [writeToMerged_eq hc hr]
  intro id hid
  rw [bitmapGet_set hbit, Bool.or_eq_true, decide_eq_true_iff] at hid
  rcases hid with rfl | hid
  · exact hr
  · exact h id hid

theorem noPadding_foldl_write (hc : Covers st max_id) (h : NoPadding st max_id) {rs : List Record}
    (hr : ∀ r ∈ rs, InRange max_id r.id) : NoPadding (rs.foldl writeToMerged st) max_id := by
  induction rs generalizing st with
  | nil => exact h
  | cons r rs ih =>
    exact ih (covers_writeToMerged hc r) (noPadding_write hc h (hr r List.mem_cons_self))
      fun r' hr' => hr r' (List.mem_cons_of_mem _ hr')

theorem noPadding_mergeShard (hc : Covers st max_id) (h : NoPadding st max_id) {i : ℕ}
    (hr : ∀ r ∈ mergeInput lz4 st i, InRange max_id r.id) :
    NoPadding (mergeShard lz4 st i) max_id := by
  obtain ⟨-, -, h3, h4, -⟩ := closeWriter_frame lz4 st i
  have hclose : NoPadding (closeWriter lz4 st i) max_id := by
    simpa only [NoPadding, h3, h4] using h
  have hpath := closeWriter_shardPath lz4 st i
  cases hf : closedFile lz4 st i with
  | none =>
    simp only [mergeShard, hpath, hf]
    exact hclose
  | some file =>
    have hin : mergeInput lz4 st i = shardRecords lz4 file := by simp [mergeInput, hf]
    simp only [mergeShard, hpath, hf]
    exact noPadding_foldl_write (covers_closeWriter hc lz4 i) hclose (hin ▸ hr)

theorem noPadding_mergeFirst (hc : Covers st max_id) (h : NoPadding st max_id) (k : ℕ)
    (hr : ∀ i < k, ∀ r ∈ mergeInput lz4 st i, InRange max_id r.id) :
    NoPadding (mergeFirst lz4 st k) max_id := by
  induction k with
  | zero => exact h
  | succ k ih =>
    have hr' := fun i (hi : i < k) => hr i (by omega)
    obtain ⟨hc', -, -, hsame⟩ := mergeFirst_spec hc lz4 k hr'
    have hin : mergeInput lz4 (mergeFirst lz4 st k) k = mergeInput lz4 st k := by
      simp only [mergeInput, hsame.closedFile lz4 le_rfl]
    rw [mergeFirst_succ]
    refine noPadding_mergeShard hc' (ih hr') ?_
    rw [hin]
    exact hr k (by omega)

theorem noPadding_created {n : ℕ} (h : Created max_id n st) : NoPadding st max_id := by
  obtain ⟨plat, disk, d, hcreate, hopen⟩ := h
  obtain ⟨-, rfl⟩ := eq_blankStore hcreate hopen
  intro id hid
  rw [blankStore, bitmapGet_eq] at hid
  simp [File.blank] at hid

/-! ## The grown files -/

theorem read_grown {f : File} {sz off n : ℕ} (h : off + n ≤ sz) (hf : off + n ≤ f.size) :
    (grown f sz).read off n = f.read off n := by
  refine List.map_congr_left fun i hi => ?_
  have hi' : i < n := List.mem_range.mp hi
  rw [grown_byte (by omega), if_pos (by omega)]

theorem bitmapGet_grown {bm : File} {sz : ℕ} {id : Int64} (h : sizeT id / 8 < sz) :
    bitmapGet (grown bm sz) sz id = bitmapGet bm bm.size id := by
  rw [bitmapGet_eq, bitmapGet_eq, grown_byte h]
  by_cases hbm : sizeT id / 8 < bm.size
  · simp [h, hbm]
  · simp [hbm]

/-- The reopened store has the nodes that are in range. -/
theorem select_grown {max_id' : Int64} {st' : OSMMMap} (hc : Covers st max_id) (hs : Sized st)
    (hpad : NoPadding st max_id) (hc' : Covers st' max_id')
    (hdata : st'.merged = grown st.merged st'.merged_size)
    (hbm : st'.merged_bm = grown st.merged_bm st'.merged_bm_size) (id : Int64) :
    st'.select id = if sizeT id ≤ sizeT max_id' then st.select id else none := by
  rw [select_eq hc']
  by_cases hid : sizeT id ≤ sizeT max_id'
  · have hbit : sizeT id / 8 < st'.merged_bm_size := by rw [hc'.bits]; omega
    rw [if_pos hid, select_eq hc, hbm, bitmapGet_grown hbit, hs.2]
    by_cases hget : bitmapGet st.merged_bm st.merged_bm_size id = true
    · have hin : sizeT id ≤ sizeT max_id := hpad id hget
      have hslot : st'.slot id = st.slot id := by
        have hsize := hs.1.trans hc.data
        have hsize' := hc'.data
        rw [slot, slot, hdata, read_grown (by omega) (by omega), read_grown (by omega) (by omega)]
      rw [if_pos ⟨hid, hget⟩, if_pos ⟨hin, hget⟩, hslot]
    · rw [if_neg fun h => hget h.2, if_neg fun h => hget h.2]
  · rw [if_neg hid]
    exact if_neg fun h => hid h.1

/-! ## Reopening -/

/-- What the node phase and `merge()` leave in a new store. -/
theorem merged_files (lz4 : Lz4) {n : ℕ} (hf : Fresh st max_id n) (hst : Created max_id n st)
    (chunk_size : ℕ) {ops : List ShardOp} (hfit : InsertsFit max_id n ops) :
    Covers (merge lz4 (filled chunk_size st ops)) max_id ∧
      Sized (merge lz4 (filled chunk_size st ops)) ∧
      NoPadding (merge lz4 (filled chunk_size st ops)) max_id := by
  have hc := covers_filled hf.covers chunk_size ops
  obtain ⟨-, -, h3, h4, -, hlen⟩ := filled_frame chunk_size st ops
  have hpad : NoPadding (filled chunk_size st ops) max_id := by
    have hnew := noPadding_created hst
    simpa only [NoPadding, h3, h4] using hnew
  have hr : ∀ i < (filled chunk_size st ops).shards.length,
      ∀ r ∈ mergeInput lz4 (filled chunk_size st ops) i, InRange max_id r.id := by
    intro i hi
    have hstream : streamAt (filled chunk_size st ops) i =
        some ((recordsAt ops i).map Record.pack).flatten := by
      rw [streamAt_filled, hf.stream i (hf.length ▸ hlen ▸ hi)]
      rfl
    rw [mergeInput_of_stream lz4 hstream]
    exact inRange_recordsAt hf.covers.nonneg hfit i
  exact ⟨(mergeFirst_spec hc lz4 _ hr).1, sized_mergeFirst (sized_filled hf.sized chunk_size ops) lz4 _,
    noPadding_mergeFirst hc hpad _ hr⟩

/-- **Reopening with another `max_id`.** The files of a merged store that are opened again for the ids up
to `max_id'`, which works exactly if the platform serves them with the sizes for it, cover these sizes, and
have the nodes up to the smaller of the two, and no others. -/
theorem reopen_resized (lz4 : Lz4) (chunk_size : ℕ) {max_id max_id' : Int64} {n : ℕ} {st : OSMMMap}
    (hst : Created max_id n st) {ops : List ShardOp} (hfit : InsertsFit max_id n ops) {st₁ : OSMMMap}
    (hrun : runOps chunk_size st ops = .ok st₁)
    (plat : Platform) (num_shards : ℕ) :
    (∀ st', openStore plat (close lz4 (merge lz4 st₁)) max_id' num_shards false = .ok st' →
      (st'.merged_size ≤ st'.merged.size ∧ st'.merged_bm_size ≤ st'.merged_bm.size ∧
        Covers st' max_id') ∧
      ∀ id, st'.select id =
        if 0 ≤ id ∧ id ≤ max_id ∧ id ≤ max_id' then (merge lz4 st₁).select id else none) ∧
    ((∃ st', openStore plat (close lz4 (merge lz4 st₁)) max_id' num_shards false = .ok st') ↔
      plat.Serves .data (merge lz4 st₁).merged (dataSz max_id') ∧
        plat.Serves .bmp (merge lz4 st₁).merged_bm (bmSz max_id')) := by
  have hneg := (fresh_of_created hst).covers.nonneg
  obtain rfl := filled_of_run hrun
  obtain ⟨hc, hs, hpad⟩ := merged_files lz4 (fresh_of_created hst) hst chunk_size hfit
  rw [close_merge]
  constructor
  · intro st' h
    have hc' := covers_of_open h
    obtain rfl := eq_resumed rfl rfl h
    refine ⟨⟨le_size_grown _ _, le_size_grown _ _, hc'⟩, fun id => ?_⟩
    rw [select_grown hc hs hpad hc' rfl rfl]
    by_cases hin : InRange max_id id
    · have hin' := (inRange_iff hneg).mp hin
      have hiff : sizeT id ≤ sizeT max_id' ↔ 0 ≤ id ∧ id ≤ max_id ∧ id ≤ max_id' :=
        (inRange_iff hc'.nonneg).trans ⟨fun h => ⟨h.1, hin'.2, h.2⟩, fun h => ⟨h.1, h.2.2⟩⟩
      exact if_congr hiff rfl rfl
    · have hout : ¬ (0 ≤ id ∧ id ≤ max_id ∧ id ≤ max_id') := fun h =>
        hin ((inRange_iff hneg).mpr ⟨h.1, h.2.1⟩)
      rw [if_neg hout, select_of_not_inRange hc hin, ite_self]
  · rw [openStore_resume_iff]
    constructor
    · rintro ⟨⟨f, ⟨⟩, h⟩, f', ⟨⟩, h'⟩
      exact ⟨h, h'⟩
    · rintro ⟨h, h'⟩
      exact ⟨⟨_, rfl, h⟩, _, rfl, h'⟩

/-- Node 3 in a store of the ids up to 10, which is reopened for those up to 12. The ids 11 and 12 are in the
last byte of its bitmap. -/
theorem reopen_resized_twelve : ∃ st st₁ st', Created 10 2 st ∧
    runOps CHUNK_SIZE st [.insert 0 ⟨3, ⟨5⟩, ⟨6⟩⟩] = .ok st₁ ∧
    openStore .plain (close Lz4.stored (merge Lz4.stored st₁)) 12 1 false = .ok st' ∧
    st'.select 11 = none ∧ ∀ id, st'.select id =
      if 0 ≤ id ∧ id ≤ 10 ∧ id ≤ 12 then (merge Lz4.stored st₁).select id else none := by
  obtain ⟨st, st₁, hst, hrun⟩ := one_node_stored
  have hfit : InsertsFit 10 2 [.insert 0 ⟨3, ⟨5⟩, ⟨6⟩⟩] := by
    simp only [InsertsFit, ShardOp.inserted]
    decide
  have hserves : ∀ name f sz, 0 < sz → sz ≤ 2 ^ 44 → Platform.plain.Serves name f sz :=
    fun name f sz hpos hle => ⟨fun _ => decide_eq_true hle, rfl, decide_eq_true ⟨hpos, by omega⟩⟩
  obtain ⟨hsel, hopens⟩ := @reopen_resized Lz4.stored CHUNK_SIZE 10 12 2 st hst _ hfit st₁ hrun
    .plain 1
  obtain ⟨st', hopen⟩ := hopens.mpr
    ⟨hserves _ _ _ (by decide) (by decide), hserves _ _ _ (by decide) (by decide)⟩
  exact ⟨st, st₁, st', hst, hrun, hopen, ((hsel st' hopen).2 11).trans (if_neg (by decide)),
    (hsel st' hopen).2⟩

end OSMMMap

end OsmImport
