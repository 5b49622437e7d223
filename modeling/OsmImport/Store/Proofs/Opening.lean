import OsmImport.Store.Proofs.Insert
import OsmImport.Store.Proofs.Merge

/-!
# Creating and opening a store

What the platform has to grant for `createFile` and for the constructor, and the stores that they make.
-/

namespace OsmImport

namespace Platform

variable (plat : Platform)

/-- It maps the file with that size. -/
def Maps (name : StoreFile) (sz : ℕ) : Prop := plat.opens name = true ∧ plat.mmap name sz = true

/-- It creates the file with that size, and maps it. -/
def Creates (name : StoreFile) (sz : ℕ) : Prop := plat.ftruncate name sz = true ∧ plat.Maps name sz

/-- It maps the file with that size; a file that is shorter is grown before. -/
def Serves (name : StoreFile) (f : File) (sz : ℕ) : Prop :=
  (f.size < sz → plat.ftruncate name sz = true) ∧ plat.Maps name sz

/-- It grants all that a new store for the ids up to `max_id` needs, with `n` shards. -/
structure CreatesStore (max_id : Int64) (n : ℕ) : Prop where
  shards : ∀ i < n, plat.opens (.shard i) = true ∧ plat.Creates (.shardBmp i) (2 ^ 20)
  data : plat.Creates .data (OSMMMap.dataSz max_id)
  bmp : plat.Creates .bmp (OSMMMap.bmSz max_id)

/-- It grants all that a store on disk needs which is opened for the ids up to `max_id`. -/
def Resumes (disk : Disk) (max_id : Int64) : Prop :=
  (∃ f, disk.data = some f ∧ plat.Serves .data f (OSMMMap.dataSz max_id)) ∧
    ∃ f, disk.bmp = some f ∧ plat.Serves .bmp f (OSMMMap.bmSz max_id)

variable {plat} {name : StoreFile} {sz : ℕ}

theorem Maps.pos (h : plat.Maps name sz) : 0 < sz := by
  rcases Nat.eq_zero_or_pos sz with rfl | hpos
  · have hempty := plat.mmap_empty name
    rw [h.2] at hempty
    cases hempty
  · exact hpos

theorem Maps.lt (h : plat.Maps name sz) : sz < 2 ^ 56 := plat.mmap_addresses _ _ h.2

theorem Maps.serves {f : File} (h : plat.Maps name sz) (hf : f.size = sz) : plat.Serves name f sz :=
  ⟨fun hlt => absurd hlt (by omega), h⟩

end Platform

namespace OSMMMap

variable {plat : Platform}

/-! ## Results of `Except` -/

theorem bind_ok {ε α β : Type} {x : Except ε α} {f : α → Except ε β} {r : β}
    (h : (x >>= f) = .ok r) : ∃ a, x = .ok a ∧ f a = .ok r := by
  cases x with
  | error e => cases h
  | ok a => exact ⟨a, rfl, h⟩

theorem forM_eq_ok {ε α : Type} {f : α → Except ε Unit} {l : List α} :
    l.forM f = .ok () ↔ ∀ x ∈ l, f x = .ok () := by
  induction l with
  | nil => exact iff_of_true rfl fun x hx => absurd hx List.not_mem_nil
  | cons a l ih =>
    rw [List.forall_mem_cons, ← ih]
    show (f a >>= fun _ => l.forM f) = .ok () ↔ _
    constructor
    · intro h
      obtain ⟨⟨⟩, ha, hl⟩ := bind_ok h
      exact ⟨ha, hl⟩
    · rintro ⟨ha, hl⟩
      rw [ha]
      exact hl

theorem mapM_ok {ε α β : Type} {f : α → Except ε β} {g : α → β} {l : List α}
    (h : ∀ x ∈ l, f x = .ok (g x)) : l.mapM f = .ok (l.map g) := by
  induction l with
  | nil => rfl
  | cons a l ih =>
    rw [List.mapM_cons, h a List.mem_cons_self, ih fun x hx => h x (List.mem_cons_of_mem _ hx)]
    rfl

theorem ok_of_mapM {ε α β : Type} {f : α → Except ε β} {l : List α} {bs : List β} (h : l.mapM f = .ok bs) :
    ∀ x ∈ l, ∃ b, f x = .ok b := by
  induction l generalizing bs with
  | nil => exact fun x hx => absurd hx List.not_mem_nil
  | cons a l ih =>
    rw [List.mapM_cons] at h
    obtain ⟨b, ha, h⟩ := bind_ok h
    obtain ⟨rest, hrest, -⟩ := bind_ok h
    exact List.forall_mem_cons.mpr ⟨⟨b, ha⟩, ih hrest⟩

/-! ## Files -/

theorem createBlank_eq_ok {name : StoreFile} {sz : ℕ} {f : File} :
    createBlank plat name sz = .ok f ↔ plat.opens name = true ∧ (0 < sz → plat.ftruncate name sz = true) ∧
      f = File.blank sz := by
  unfold createBlank
  cases plat.opens name with
  | false => simp
  | true =>
    by_cases hsz : 0 < sz
    · cases plat.ftruncate name sz with
      | false => simp [hsz]
      | true => simpa [hsz] using eq_comm
    · simpa [hsz] using eq_comm

theorem openAndMap_eq_ok {name : StoreFile} {f : Option File} {sz : ℕ} {g : File} :
    openAndMap plat name f sz = .ok g ↔ f = some g ∧ plat.Maps name sz := by
  unfold openAndMap Platform.Maps
  cases f with
  | none => simp
  | some f => cases plat.opens name <;> cases plat.mmap name sz <;> simp

/-- A file behind `growFileIfNeeded`. -/
def grown (f : File) (sz : ℕ) : File := if f.size < sz then f.grow sz else f

theorem grown_byte {f : File} {sz i : ℕ} (h : i < sz) :
    (grown f sz).byte i = if i < f.size then f.byte i else 0 := by
  unfold grown
  by_cases hsz : f.size < sz
  · rw [if_pos hsz]
    rfl
  · rw [if_neg hsz, if_pos (by omega)]

theorem grown_of_size {f : File} {sz : ℕ} (h : f.size = sz) : grown f sz = f := if_neg (by omega)

theorem le_size_grown (f : File) (sz : ℕ) : sz ≤ (grown f sz).size := by
  unfold grown
  split
  · exact le_rfl
  · omega

theorem growFileIfNeeded_eq_ok {name : StoreFile} {f : Option File} {sz : ℕ} {g : File} :
    growFileIfNeeded plat name f sz = .ok g ↔ ∃ f', f = some f' ∧ plat.opens name = true ∧
      (f'.size < sz → plat.ftruncate name sz = true) ∧ g = grown f' sz := by
  unfold growFileIfNeeded grown
  cases f with
  | none => simp
  | some f =>
    cases plat.opens name with
    | false => simp
    | true =>
      by_cases hsz : f.size < sz
      · cases plat.ftruncate name sz with
        | false => simp [hsz]
        | true => simpa [hsz] using eq_comm
      · simpa [hsz] using eq_comm

/-! ## Opening -/

/-- The maps of a store that could be opened. -/
theorem openStore_sizes {disk : Disk} {max_id : Int64} {n : ℕ} {writable : Bool} {st : OSMMMap}
    (h : openStore plat disk max_id n writable = .ok st) :
    st.merged_size = dataSz max_id ∧ st.merged_bm_size = bmSz max_id ∧
      plat.Maps .data (dataSz max_id) ∧ plat.Maps .bmp (bmSz max_id) ∧ st.platform = plat := by
  unfold openStore at h
  obtain ⟨shards, -, h⟩ := bind_ok h
  obtain ⟨data, -, h⟩ := bind_ok h
  obtain ⟨bmp, -, h⟩ := bind_ok h
  obtain ⟨merged, hdata, h⟩ := bind_ok h
  obtain ⟨merged_bm, hbmp, h⟩ := bind_ok h
  obtain rfl := Except.ok.inj h
  exact ⟨rfl, rfl, (openAndMap_eq_ok.mp hdata).2, (openAndMap_eq_ok.mp hbmp).2, rfl⟩

/-- A store on disk that is opened without its shards. -/
def resumed (plat : Platform) (disk : Disk) (max_id : Int64) (n : ℕ) (merged merged_bm : File) : OSMMMap where
  merged := grown merged (dataSz max_id)
  merged_size := dataSz max_id
  merged_bm := grown merged_bm (bmSz max_id)
  merged_bm_size := bmSz max_id
  shards := List.replicate n none
  shardPath := disk.shardPath
  shardBmpPath := disk.shardBmpPath
  platform := plat

/-- Without shards a store opens if its two files are there and the platform serves them. -/
theorem openStore_resume {disk : Disk} {merged merged_bm : File} {max_id : Int64}
    (hdata : disk.data = some merged) (hbmp : disk.bmp = some merged_bm)
    (hserves : plat.Serves .data merged (dataSz max_id) ∧ plat.Serves .bmp merged_bm (bmSz max_id)) (n : ℕ) :
    openStore plat disk max_id n false = .ok (resumed plat disk max_id n merged merged_bm) := by
  have hfile : ∀ {name f sz}, plat.Serves name f sz →
      resumeFile plat name (some f) sz false = .ok (some (grown f sz)) ∧
        openAndMap plat name (some (grown f sz)) sz = .ok (grown f sz) := by
    intro name f sz h
    constructor
    · rw [resumeFile, growFileIfNeeded_eq_ok.mpr ⟨f, rfl, h.2.1, h.1, rfl⟩]
      rfl
    · exact openAndMap_eq_ok.mpr ⟨rfl, h.2⟩
  have hshards : openShards plat disk n false = .ok (List.replicate n none) := rfl
  simp only [openStore, hshards, hdata, hbmp, (hfile hserves.1).1, (hfile hserves.2).1, (hfile hserves.1).2,
    (hfile hserves.2).2, bind, Except.bind]
  rfl

/-- What the platform served if a store was opened without its shards. -/
theorem resumes_of_open {disk : Disk} {max_id : Int64} {n : ℕ} {st : OSMMMap}
    (h : openStore plat disk max_id n false = .ok st) : plat.Resumes disk max_id := by
  have hserves : ∀ {name f g sz}, resumeFile plat name f sz false = .ok g → plat.Maps name sz →
      ∃ f', f = some f' ∧ plat.Serves name f' sz := by
    intro name f g sz hresume hmaps
    rw [resumeFile] at hresume
    cases hgrow : growFileIfNeeded plat name f sz with
    | error e =>
      rw [hgrow] at hresume
      cases hresume
    | ok f'' =>
      obtain ⟨f', rfl, -, hsize, -⟩ := growFileIfNeeded_eq_ok.mp hgrow
      exact ⟨f', rfl, hsize, hmaps⟩
  obtain ⟨-, -, hmaps, hmaps', -⟩ := openStore_sizes h
  unfold openStore at h
  obtain ⟨shards, -, h⟩ := bind_ok h
  obtain ⟨data, hdata, h⟩ := bind_ok h
  obtain ⟨bmp, hbmp, h⟩ := bind_ok h
  exact ⟨hserves hdata hmaps, hserves hbmp hmaps'⟩

/-- Without shards a store can be opened exactly if the platform serves its files. -/
theorem openStore_resume_iff {disk : Disk} {max_id : Int64} {n : ℕ} :
    (∃ st, openStore plat disk max_id n false = .ok st) ↔ plat.Resumes disk max_id := by
  constructor
  · rintro ⟨st, h⟩
    exact resumes_of_open h
  · rintro ⟨⟨merged, hdata, h⟩, merged_bm, hbmp, h'⟩
    exact ⟨_, openStore_resume hdata hbmp ⟨h, h'⟩ n⟩

/-- The store that is opened without its shards. -/
theorem eq_resumed {disk : Disk} {merged merged_bm : File} {max_id : Int64} {n : ℕ} {st : OSMMMap}
    (hdata : disk.data = some merged) (hbmp : disk.bmp = some merged_bm)
    (h : openStore plat disk max_id n false = .ok st) : st = resumed plat disk max_id n merged merged_bm := by
  obtain ⟨⟨f, hf, hserves⟩, f', hf', hserves'⟩ := resumes_of_open h
  obtain rfl : merged = f := Option.some.inj (hdata.symm.trans hf)
  obtain rfl : merged_bm = f' := Option.some.inj (hbmp.symm.trans hf')
  rw [openStore_resume hdata hbmp ⟨hserves, hserves'⟩ n] at h
  exact (Except.ok.inj h).symm

/-- Files that have their sizes are opened as they are. -/
theorem openStore_readable {disk : Disk} {merged merged_bm : File} {max_id : Int64}
    (hdata : disk.data = some merged) (hbmp : disk.bmp = some merged_bm)
    (hd : merged.size = dataSz max_id) (hb : merged_bm.size = bmSz max_id)
    (hmaps : plat.Maps .data (dataSz max_id) ∧ plat.Maps .bmp (bmSz max_id)) (n : ℕ) :
    openStore plat disk max_id n false = .ok ⟨merged, dataSz max_id, merged_bm, bmSz max_id,
      List.replicate n none, disk.shardPath, disk.shardBmpPath, plat⟩ := by
  rw [openStore_resume hdata hbmp ⟨hmaps.1.serves hd, hmaps.2.serves hb⟩ n, resumed, grown_of_size hd,
    grown_of_size hb]

theorem sizes_eq {max_id : Int64} (h : sizeT max_id < 2 ^ 59) :
    dataSz max_id = (sizeT max_id + 1) * 16 ∧ bmSz max_id = (sizeT max_id + 8) / 8 := by
  have e1 : sizeMod (sizeT max_id + 1) = sizeT max_id + 1 := Nat.mod_eq_of_lt (by omega)
  have e2 : sizeMod ((sizeT max_id + 1) * 16) = (sizeT max_id + 1) * 16 :=
    Nat.mod_eq_of_lt (by omega)
  have e3 : sizeMod (sizeT max_id + 1 + 7) = sizeT max_id + 8 := Nat.mod_eq_of_lt (by omega)
  exact ⟨by rw [dataSz, e1, REC_SIZE, e2], by rw [bmSz, e1, e3]⟩

/-- A store that could be opened has the sizes for its ids: anything else overflows to a size that no
platform maps. -/
theorem covers_of_open {disk : Disk} {max_id : Int64} {n : ℕ} {writable : Bool} {st : OSMMMap}
    (h : openStore plat disk max_id n writable = .ok st) : Covers st max_id := by
  obtain ⟨hd, hb, hdata, hbits, -⟩ := openStore_sizes h
  have hlt := sizeT_lt max_id
  have hbound : sizeT max_id < 2 ^ 59 := by
    have hpos := hdata.pos
    have hpos' := hbits.pos
    have hbig := hbits.lt
    simp only [dataSz, bmSz, sizeMod, REC_SIZE] at hpos hpos' hbig
    omega
  obtain ⟨hdsz, hbsz⟩ := sizes_eq hbound
  exact ⟨hd.trans hdsz, hb.trans hbsz, hbound⟩

/-! ## A new store -/

/-- What `createFile` leaves. -/
def blankDisk (disk : Disk) (max_id : Int64) (n : ℕ) : Disk where
  data := some (File.blank (dataSz max_id))
  bmp := some (File.blank (bmSz max_id))
  shardPath := fun i => if i < n then some [] else disk.shardPath i
  shardBmpPath := fun i => if i < n then some (File.blank (2 ^ 20)) else disk.shardBmpPath i

/-- What the constructor makes of it. -/
def blankStore (plat : Platform) (disk : Disk) (max_id : Int64) (n : ℕ) : OSMMMap where
  merged := File.blank (dataSz max_id)
  merged_size := dataSz max_id
  merged_bm := File.blank (bmSz max_id)
  merged_bm_size := bmSz max_id
  shards := (List.range n).map fun _ => some ⟨[], [], File.blank (2 ^ 20)⟩
  shardPath := fun i => if i < n then some [] else (blankDisk disk max_id n).shardPath i
  shardBmpPath := (blankDisk disk max_id n).shardBmpPath
  platform := plat

section

variable {disk : Disk} {max_id : Int64} {n : ℕ}

theorem createShard_eq_ok {i : ℕ} : createShard plat i = .ok () ↔ plat.opens (.shard i) = true ∧
    plat.opens (.shardBmp i) = true ∧ plat.ftruncate (.shardBmp i) (2 ^ 20) = true := by
  constructor
  · intro h
    obtain ⟨f, hf, h⟩ := bind_ok h
    obtain ⟨g, hg, -⟩ := bind_ok h
    exact ⟨(createBlank_eq_ok.mp hf).1, (createBlank_eq_ok.mp hg).1, (createBlank_eq_ok.mp hg).2.1 (by omega)⟩
  · rintro ⟨hopens, hopens', hsize⟩
    rw [createShard, createBlank_eq_ok.mpr ⟨hopens, fun h => absurd h (lt_irrefl 0), rfl⟩,
      createBlank_eq_ok.mpr ⟨hopens', fun _ => hsize, rfl⟩]
    rfl

theorem createFile_eq (h : plat.CreatesStore max_id n) :
    createFile plat disk max_id n = .ok (blankDisk disk max_id n) := by
  have hshards : (List.range n).forM (createShard plat) = .ok () := by
    refine forM_eq_ok.mpr fun i hi => createShard_eq_ok.mpr ?_
    obtain ⟨hopens, hcreates⟩ := h.shards i (List.mem_range.mp hi)
    exact ⟨hopens, hcreates.2.1, hcreates.1⟩
  have hblank : ∀ {name sz}, plat.Creates name sz → createBlank plat name sz = .ok (File.blank sz) :=
    fun hc => createBlank_eq_ok.mpr ⟨hc.2.1, fun _ => hc.1, rfl⟩
  rw [createFile, hshards, hblank h.data, hblank h.bmp]
  rfl

theorem openStore_blank (h : plat.CreatesStore max_id n) :
    openStore plat (blankDisk disk max_id n) max_id n true = .ok (blankStore plat disk max_id n) := by
  have hshards : openShards plat (blankDisk disk max_id n) n true =
      .ok ((List.range n).map fun _ => some ⟨[], [], File.blank (2 ^ 20)⟩) := by
    refine mapM_ok fun i hi => ?_
    obtain ⟨hopens, -, hmaps⟩ := h.shards i (List.mem_range.mp hi)
    have hbmp : openAndMap plat (.shardBmp i) ((blankDisk disk max_id n).shardBmpPath i) (2 ^ 20) =
        .ok (File.blank (2 ^ 20)) :=
      openAndMap_eq_ok.mpr ⟨if_pos (List.mem_range.mp hi), hmaps⟩
    simp only [openShard, hopens, hbmp, bind, Except.bind]
    rfl
  have m1 : openAndMap plat .data (blankDisk disk max_id n).data (dataSz max_id) = .ok _ :=
    openAndMap_eq_ok.mpr ⟨rfl, h.data.2⟩
  have m2 : openAndMap plat .bmp (blankDisk disk max_id n).bmp (bmSz max_id) = .ok _ :=
    openAndMap_eq_ok.mpr ⟨rfl, h.bmp.2⟩
  have hfile : ∀ (name : StoreFile) (f : Option File) (sz : ℕ), resumeFile plat name f sz true = .ok f :=
    fun _ _ _ => rfl
  simp only [openStore, hshards, hfile, m1, m2, bind, Except.bind]
  rfl

/-- A store that is created and opened has been granted all it needs. -/
theorem createsStore_of_open {d : Disk} {st : OSMMMap} (hcreate : createFile plat disk max_id n = .ok d)
    (hopen : openStore plat d max_id n true = .ok st) : plat.CreatesStore max_id n := by
  obtain ⟨-, -, hdata, hbmp, -⟩ := openStore_sizes hopen
  unfold createFile at hcreate
  obtain ⟨⟨⟩, hshards, hcreate⟩ := bind_ok hcreate
  obtain ⟨f, hf, hcreate⟩ := bind_ok hcreate
  obtain ⟨g, hg, -⟩ := bind_ok hcreate
  unfold openStore at hopen
  obtain ⟨shards, hopened, -⟩ := bind_ok hopen
  refine ⟨fun i hi => ?_, ⟨(createBlank_eq_ok.mp hf).2.1 hdata.pos, hdata⟩,
    (createBlank_eq_ok.mp hg).2.1 hbmp.pos, hbmp⟩
  obtain ⟨hopens, -, hsize⟩ := createShard_eq_ok.mp (forM_eq_ok.mp hshards i (List.mem_range.mpr hi))
  obtain ⟨o, ho⟩ := ok_of_mapM hopened i (List.mem_range.mpr hi)
  obtain ⟨s, hs, -⟩ := bind_ok ho
  unfold openShard at hs
  rw [hopens] at hs
  obtain ⟨bm, hbm, -⟩ := bind_ok hs
  exact ⟨hopens, hsize, (openAndMap_eq_ok.mp hbm).2⟩

/-- What is created is the blank store. -/
theorem eq_blankStore {d : Disk} {st : OSMMMap} (hcreate : createFile plat disk max_id n = .ok d)
    (hopen : openStore plat d max_id n true = .ok st) :
    plat.CreatesStore max_id n ∧ st = blankStore plat disk max_id n := by
  have hgrants := createsStore_of_open hcreate hopen
  rw [createFile_eq hgrants] at hcreate
  obtain rfl := Except.ok.inj hcreate
  rw [openStore_blank hgrants] at hopen
  exact ⟨hgrants, (Except.ok.inj hopen).symm⟩

end

/-- The store `st` was created for the ids `0..max_id` and opened with `n` writable shards. -/
def Created (max_id : Int64) (n : ℕ) (st : OSMMMap) : Prop :=
  ∃ plat disk d, createFile plat disk max_id n = .ok d ∧ openStore plat d max_id n true = .ok st

end OSMMMap

end OsmImport
