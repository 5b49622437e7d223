import OsmImport.Airports.Proofs.Load
import OsmImport.Geometry.Proofs.RoundTrip

/-!
# The airports tables through crashes

However often a load dies, throws or is resumed, the tables are those between two transactions of one load
into empty tables: the rows of a file are there as a whole or not at all, and each tag belongs to an airport
or a navaid that is there.
-/

namespace OsmImport

namespace AirportsLoader

open Stages Ewkb LittleEndian

/-! ## Rows -/

/-- The cells of a place are NULL together, or its geometry is the point of its two coordinates. -/
def Placed (r : Record) (lat_m lon_m geog : ℕ) : Prop :=
  (r[lat_m]? = some .null ∧ r[lon_m]? = some .null ∧ r[geog]? = some .null) ∨
    ∃ x y g, r[lat_m]? = some (.double y) ∧ r[lon_m]? = some (.double x) ∧ r[geog]? = some (.text g) ∧
      (unhex g).bind decode = some ⟨none, .point (x.bits, y.bits)⟩

/-- The places of a row. -/
def PlacedIn (r : Record) : Table → Prop
  | .airports => Placed r 4 5 16
  | .runways => Placed r 9 10 14 ∧ Placed r 16 17 21
  | .navaids => Placed r 5 6 19
  | _ => True

/-- The tag belongs to an airport, by its ident, or to a navaid, by the ident of the navaid's airport. -/
def Owned (db : Tables) (tag : Record) : Prop :=
  (tag[1]? = some (.text (str "airport")) ∧ ∃ a ∈ db .airports, a[1]? = tag[0]?) ∨
    (tag[1]? = some (.text (str "navaid")) ∧
      ∃ a ∈ db .navaids, ∃ ident, tag[0]? = some (.text ident) ∧ a[18]? = some (textCell ident))

/-- What holds of the tables. -/
structure Intact (chk : TextChecks) (db : Tables) : Prop where
  fitting : ∀ t, ∀ r ∈ db t, recordFits chk (schema t) r = true
  keyed : ∀ t, (keys t (db t)).Nodup
  placed : ∀ t, ∀ r ∈ db t, PlacedIn r t
  owned : ∀ tag ∈ db .tags, Owned db tag

variable {chk : TextChecks} {lib : Library}

theorem decode_pointWKBAP (x y : Double) :
    (unhex (pointWKBAP x y)).bind decode = some ⟨none, .point (x.bits, y.bits)⟩ := by
  have hbytes : (1 :: 1 :: 0 :: 0 :: 0 :: wd x ++ wd y : Bytes) =
      plainHeaderBytes 1 ++ pointBytes (x.bits, y.bits) := by
    simp [plainHeaderBytes, toBytes, pointBytes, wd]
  have hdecode : decode (plainHeaderBytes 1 ++ pointBytes (x.bits, y.bits)) =
      some ⟨none, .point (x.bits, y.bits)⟩ :=
    (reads_plainGeometry (by decide) (reads_point _).map).whole
  rw [pointWKBAP, toHexLower, unhex_hex (by simp), Option.bind_some, hbytes, hdecode]

/-- The cells of a `place` are placed. -/
theorem placed_place {r : Record} {i j k : ℕ} (lat lon : Option Double)
    (hi : r[i]? = some (cell .double (place lib lat lon).lat_m))
    (hj : r[j]? = some (cell .double (place lib lat lon).lon_m))
    (hk : r[k]? = some (cell .text (place lib lat lon).geog)) : Placed r i j k := by
  unfold place at hi hj hk
  rcases lat with _ | lat
  · exact .inl ⟨hi, hj, hk⟩
  rcases lon with _ | lon
  · exact .inl ⟨hi, hj, hk⟩
  exact .inr ⟨_, _, _, hi, hj, hk, decode_pointWKBAP _ _⟩

theorem airportRow_placed {v : Line 19} {r : Record} (h : airportRow lib v = some r) :
    PlacedIn r .airports := by
  obtain ⟨id, -, h⟩ := Option.bind_eq_some_iff.mp h
  cases h
  exact placed_place _ _ rfl rfl rfl

theorem runwayRow_placed {v : Line 20} {r : Record} (h : runwayRow lib v = some r) :
    PlacedIn r .runways := by
  obtain ⟨id, -, h⟩ := Option.bind_eq_some_iff.mp h
  cases h
  exact ⟨placed_place _ _ rfl rfl rfl, placed_place _ _ rfl rfl rfl⟩

theorem navaidRow_placed {v : Line 20} {r : Record} (h : navaidRow lib v = some r) :
    PlacedIn r .navaids := by
  obtain ⟨id, -, h⟩ := Option.bind_eq_some_iff.mp h
  cases h
  exact placed_place _ _ rfl rfl rfl

/-! ## Tags -/

theorem tagRows_eq {cols : List (ℕ × Str)} {ident entity_type : Str} {v : List Str} {tag : Record}
    (h : tag ∈ tagRows cols ident entity_type v) :
    tag[0]? = some (.text ident) ∧ tag[1]? = some (.text entity_type) := by
  obtain ⟨⟨col, key⟩, -, htag⟩ := List.mem_filterMap.mp h
  obtain ⟨val, -, rfl⟩ := Option.map_eq_some_iff.mp htag
  exact ⟨rfl, rfl⟩

/-- `ident` is `NOT NULL`, so an airport that is stored has the ident that its tags name. -/
theorem airportTags_owned {v : Line 19} {r tag : Record} {db : Tables} (hrow : airportRow lib v = some r)
    (hfits : recordFits chk (schema .airports) r = true) (htag : tag ∈ airportTags v) (hr : r ∈ db .airports) :
    Owned db tag := by
  obtain ⟨hident, htype⟩ := tagRows_eq htag
  refine .inl ⟨htype, r, hr, ?_⟩
  obtain ⟨id, -, h⟩ := Option.bind_eq_some_iff.mp hrow
  cases h
  rw [hident]
  have hcell : Column.takes chk (.required "ident" (.varchar 16)) (textCell (v.field 1)) = true := by
    rw [schema, recordFits, Bool.and_eq_true, recordFits, Bool.and_eq_true] at hfits
    exact hfits.2.1
  unfold textCell optStr at hcell ⊢
  split at hcell
  · cases hcell
  · rename_i hne
    simp [hne, cell]

theorem navaidTags_owned {v : Line 20} {r tag : Record} {db : Tables} (hrow : navaidRow lib v = some r)
    (htag : tag ∈ navaidTags v) (hr : r ∈ db .navaids) : Owned db tag := by
  obtain ⟨hident, htype⟩ := tagRows_eq htag
  refine .inr ⟨htype, r, hr, v.field 19, hident, ?_⟩
  obtain ⟨id, -, h⟩ := Option.bind_eq_some_iff.mp hrow
  cases h
  rfl

/-- More rows do no harm. -/
theorem Owned.mono {db db' : Tables} {tag : Record} (h : Owned db tag) (hsub : ∀ t, db t ⊆ db' t) :
    Owned db' tag := by
  rcases h with ⟨htype, a, ha, hident⟩ | ⟨htype, a, ha, hident⟩
  · exact .inl ⟨htype, a, hsub _ ha, hident⟩
  · exact .inr ⟨htype, a, hsub _ ha, hident⟩

/-! ## A transaction -/

theorem subset_update (db : Tables) (t : Table) (rows : List Record) (j : Table) :
    db j ⊆ Function.update db t (db t ++ rows) j := by
  obtain rfl | h := eq_or_ne j t
  · rw [Function.update_self]
    exact List.subset_append_left _ _
  · rw [Function.update_of_ne h]
    exact List.Subset.refl _

/-- A COPY of placed rows, and of tags that have their owners. -/
theorem Intact.copy {db : Tables} (h : Intact chk db) {t : Table} {rows : List Record}
    (hfits : fits chk t (db t) rows = true) (hplaced : ∀ r ∈ rows, PlacedIn r t)
    (howned : t = .tags → ∀ r ∈ rows, Owned db r) : Intact chk (Function.update db t (db t ++ rows)) := by
  obtain ⟨hrows, hkeys⟩ := Bool.and_eq_true_iff.mp hfits
  rw [copied_eq] at hrows
  have hmem : ∀ {j r}, r ∈ Function.update db t (db t ++ rows) j → r ∈ db j ∨ j = t ∧ r ∈ rows := by
    intro j r hr
    obtain rfl | hj := eq_or_ne j t
    · rw [Function.update_self, List.mem_append] at hr
      exact hr.imp_right fun hr => ⟨rfl, hr⟩
    · rw [Function.update_of_ne hj] at hr
      exact .inl hr
  refine ⟨fun j r hr => ?_, fun j => ?_, fun j r hr => ?_, fun tag htag => ?_⟩
  · rcases hmem hr with hold | ⟨rfl, hnew⟩
    · exact h.fitting j r hold
    · exact List.all_eq_true.mp hrows r hnew
  · obtain rfl | hj := eq_or_ne j t
    · rw [Function.update_self]
      exact of_decide_eq_true hkeys
    · rw [Function.update_of_ne hj]
      exact h.keyed j
  · rcases hmem hr with hold | ⟨rfl, hnew⟩
    · exact h.placed j r hold
    · exact hplaced r hnew
  · refine Owned.mono ?_ (subset_update db t rows)
    rcases hmem htag with hold | ⟨ht, hnew⟩
    · exact h.owned tag hold
    · exact howned ht.symm tag hnew

theorem Intact.empty : Intact chk Tables.empty :=
  ⟨fun _ _ hr => absurd hr List.not_mem_nil, fun t => by cases t <;> exact List.nodup_nil,
    fun _ _ hr => absurd hr List.not_mem_nil, fun _ hr => absurd hr List.not_mem_nil⟩

/-! ## The stages of a load -/

/-- Each row is that of a line, and each line has its row. -/
theorem rows_of_recordsOf {n : ℕ} {row : Line n → Option Record} {doc : List (List Str)} {rows : List Record}
    (h : recordsOf row doc = some rows) :
    (∀ r ∈ rows, ∃ v, row v = some r) ∧ ∀ v ∈ linesOf n doc, ∃ r ∈ rows, row v = some r := by
  unfold recordsOf at h
  generalize linesOf n doc = lines at h ⊢
  induction lines generalizing rows with
  | nil =>
    cases h
    exact ⟨fun r hr => absurd hr List.not_mem_nil, fun v hv => absurd hv List.not_mem_nil⟩
  | cons v lines ih =>
    rw [List.mapM_cons] at h
    obtain ⟨r, hr, h⟩ := Option.bind_eq_some_iff.mp h
    obtain ⟨rest, hrest, h⟩ := Option.bind_eq_some_iff.mp h
    cases h
    obtain ⟨hrows, hlines⟩ := ih hrest
    constructor
    · intro r' hr'
      rcases List.mem_cons.mp hr' with rfl | hr'
      · exact ⟨v, hr⟩
      · exact hrows r' hr'
    · intro v' hv'
      rcases List.mem_cons.mp hv' with rfl | hv'
      · exact ⟨r, List.mem_cons_self, hr⟩
      · obtain ⟨r', hr', hrow⟩ := hlines v' hv'
        exact ⟨r', List.mem_cons_of_mem _ hr', hrow⟩

theorem keeps_table {t : Table} {n : ℕ} {row : Line n → Option Record} {doc : List (List Str)}
    (ht : t ≠ .tags) (hplaced : ∀ v r, row v = some r → PlacedIn r t) :
    Keeps (Intact chk) [tableStage chk t (recordsOf row doc)] := by
  refine keeps_stage fun db db' hdb hstage => ?_
  obtain ⟨rows, hrows, hfits, rfl⟩ := tableStage_eq_some.mp hstage
  refine hdb.copy hfits (fun r hr => ?_) fun h => absurd h ht
  obtain ⟨v, hv⟩ := (rows_of_recordsOf hrows).1 r hr
  exact hplaced v r hv

/-- Behind the rows of a file come the tags that belong to them. -/
theorem keeps_tagged {t : Table} {n : ℕ} {row : Line n → Option Record} {tags : Line n → List Record}
    {doc : List (List Str)} (ht : t ≠ .tags) (hplaced : ∀ v r, row v = some r → PlacedIn r t)
    (howned : ∀ v r tag db, row v = some r → recordFits chk (schema t) r = true → tag ∈ tags v → r ∈ db t →
      Owned db tag) :
    Keeps (Intact chk) [tableStage chk t (recordsOf row doc),
      copyStage chk .tags ((linesOf n doc).flatMap tags)] := by
  intro db hdb y hy
  rcases mem_trail_append (l := [tableStage chk t (recordsOf row doc)]).mp hy with hy | ⟨db', hfinish, hy⟩
  · exact keeps_table ht hplaced db hdb y hy
  · have hdb' := keeps_table ht hplaced db hdb db' (finish_mem_trail hfinish)
    obtain ⟨_, hstage, ⟨⟩⟩ := finish_cons_eq_some.mp hfinish
    obtain ⟨rows, hrows, hfits, rfl⟩ := tableStage_eq_some.mp hstage
    rcases mem_trail_singleton.mp hy with rfl | hy
    · exact hdb'
    · obtain ⟨htags, rfl⟩ := copyStage_eq_some.mp hy
      refine hdb'.copy htags (fun _ _ => trivial) fun _ tag htag => ?_
      obtain ⟨v, hv, htag⟩ := List.mem_flatMap.mp htag
      obtain ⟨r, hr, hrow⟩ := (rows_of_recordsOf hrows).2 v hv
      have hmem : r ∈ Function.update db t (db t ++ rows) t := by
        rw [Function.update_self]
        exact List.mem_append_right _ hr
      exact howned v r tag _ hrow (hdb'.fitting t r hmem) htag hmem

/-- Between any two transactions of a load the tables are intact. -/
theorem keeps_stages (docs : Documents) : Keeps (Intact chk) (stages lib chk docs) := by
  have hcountries : Keeps (Intact chk) [tableStage chk .countries (recordsOf countryRow docs.countries)] :=
    keeps_table (by decide) fun _ _ _ => trivial
  have hregions : Keeps (Intact chk) [tableStage chk .regions (recordsOf regionRow docs.regions)] :=
    keeps_table (by decide) fun _ _ _ => trivial
  have hairports : Keeps (Intact chk) [tableStage chk .airports (recordsOf (airportRow lib) docs.airports),
      copyStage chk .tags ((linesOf 19 docs.airports).flatMap airportTags)] :=
    keeps_tagged (by decide) (fun _ _ => airportRow_placed) fun _ _ _ _ => airportTags_owned
  have hfrequencies :
      Keeps (Intact chk) [tableStage chk .frequencies (recordsOf (frequencyRow lib) docs.frequencies)] :=
    keeps_table (by decide) fun _ _ _ => trivial
  have hrunways : Keeps (Intact chk) [tableStage chk .runways (recordsOf (runwayRow lib) docs.runways)] :=
    keeps_table (by decide) fun _ _ => runwayRow_placed
  have hnavaids : Keeps (Intact chk) [tableStage chk .navaids (recordsOf (navaidRow lib) docs.navaids),
      copyStage chk .tags ((linesOf 20 docs.navaids).flatMap navaidTags)] :=
    keeps_tagged (by decide) (fun _ _ => navaidRow_placed) fun _ _ _ _ h _ => navaidTags_owned h
  exact hcountries.append <| hregions.append <| hairports.append <| hfrequencies.append <|
    hrunways.append hnavaids

theorem keeps_loadStages (files : Option Files) : Keeps (Intact chk) (loadStages lib chk files) := by
  cases files with
  | none => exact fun x hx y hy => List.mem_singleton.mp hy ▸ hx
  | some files => exact keeps_stages files.documents

/-! ## Lives -/

variable {srv : LoadServer}

theorem staged_load (lib : Library) (henf : srv.Enforces chk) (files : Option Files) :
    Staged LoadSession.tables (loadAirportsData lib srv files) (loadStages lib chk files) := by
  cases files with
  | none => exact staged_pure
  | some files => exact staged_loadAirportsData henf files

/-- The TRUNCATE names all seven tables. -/
theorem exec_truncate (db : Tables) :
    db.exec (.truncate [.countries, .regions, .airports, .tags, .frequencies, .runways, .navaids]) = .empty := by
  funext t
  cases t <;> rfl

theorem staged_truncate :
    Staged LoadSession.tables (truncateForResume srv) [fun _ => some Tables.empty] := by
  intro s
  unfold Prog.Ensures truncateForResume transact
  dsimp only
  rw [exec_truncate]
  rcases srv.respond s.log s.tables _ with _ | e | (_ | _) <;> simp [finish, trail]

theorem staged_resume (lib : Library) (henf : srv.Enforces chk) (files : Option Files) :
    Staged LoadSession.tables (resumeAirports lib srv files)
      ((fun _ => some Tables.empty) :: loadStages lib chk files) :=
  staged_truncate.bind (staged_load lib henf files)

/-- A resumed process leaves the tables as they were, or as a load into empty tables. -/
theorem trail_resume (henf : srv.Enforces chk) (files : Option Files) (s : LoadSession) :
    ((resumeAirports lib srv files).run s).state.tables = s.tables ∨
      ((resumeAirports lib srv files).run s).state.tables ∈ trail (loadStages lib chk files) .empty := by
  exact List.mem_cons.mp ((staged_resume lib henf files).mem_trail s)

theorem lives_cons (s : LoadSession) (life : Life) (rest : List Life) :
    lives lib srv s (life :: rest) = lives lib srv ((life.program lib srv).run s).state rest := rfl

/-- What the tables of a load into empty tables are, they are still behind any number of resumed processes. -/
theorem trail_lives (henf : srv.Enforces chk) (seen : List (Option Files)) {s : LoadSession}
    (hs : ∃ files ∈ seen, s.tables ∈ trail (loadStages lib chk files) .empty) (resumed : List (Option Files)) :
    ∃ files ∈ seen ++ resumed,
      (lives lib srv s (resumed.map (Life.mk true))).tables ∈ trail (loadStages lib chk files) .empty := by
  induction resumed generalizing s seen with
  | nil => simpa [lives] using hs
  | cons files resumed ih =>
    rw [List.map_cons, lives_cons, List.append_cons]
    refine ih (seen ++ [files]) ?_
    rcases trail_resume henf files s with hsame | hload
    · obtain ⟨old, hold, hmem⟩ := hs
      refine ⟨old, List.mem_append_left _ hold, ?_⟩
      rw [← hsame] at hmem
      exact hmem
    · exact ⟨files, List.mem_append_right _ List.mem_cons_self, hload⟩

/-- **Crashes of the load.** A load into empty tables and any number of resumed ones, each of which may die,
throw or end, leave the tables between two transactions of one of these loads into empty tables, and they are
intact. A resumed load that comes to its end leaves what the load of its files into empty tables leaves. -/
theorem airports_history (henf : srv.Enforces chk) (lib : Library) (first : Option Files)
    (resumed : List (Option Files)) (log : List (Txn × Response)) :
    let s := lives lib srv ⟨.empty, log⟩ (⟨false, first⟩ :: resumed.map (Life.mk true))
    (∃ files ∈ first :: resumed, s.tables ∈ trail (loadStages lib chk files) .empty) ∧
      Intact chk s.tables ∧
      ∀ files s', (resumeAirports lib srv files).run s = .done () s' →
        finish (loadStages lib chk files) .empty = some s'.tables := by
  have hfirst := (staged_load lib henf first).mem_trail ⟨.empty, log⟩
  obtain ⟨files, hfiles, hmem⟩ := trail_lives henf [first] ⟨first, List.mem_singleton_self _, hfirst⟩ resumed
  refine ⟨⟨files, hfiles, hmem⟩, keeps_loadStages files _ .empty _ hmem, fun files s' h => ?_⟩
  have hdone := staged_resume lib henf files
    (lives lib srv ⟨.empty, log⟩ (⟨false, first⟩ :: resumed.map (Life.mk true)))
  unfold Prog.Ensures at hdone
  rw [h] at hdone
  exact hdone

/-- PostgreSQL, where the first process dies behind its COPY of the airports. -/
def dyingAirports : LoadServer where
  respond log db txn := match txn with
    | .copy t rows =>
      if fits byteChecks t (db t) rows then (if t = .airports ∧ log.length = 3 then .died true else .ok)
      else .error .noLine
    | _ => .ok

/-- The load of the country dies before its tags, and is done again. -/
theorem airports_history_dying :
    let s := lives plainLibrary dyingAirports ⟨.empty, []⟩ [⟨false, some andorraFiles⟩, ⟨true, some andorraFiles⟩]
    ∃ files ∈ [some andorraFiles, some andorraFiles],
      s.tables ∈ trail (loadStages plainLibrary byteChecks files) .empty := by
  have henf : dyingAirports.Enforces byteChecks := by
    intro log db t rows h
    by_contra hfits
    simp [dyingAirports, hfits] at h
  exact (airports_history henf plainLibrary (some andorraFiles) [some andorraFiles] []).1

end AirportsLoader

end OsmImport
