import OsmImport.Airports.Documents
import OsmImport.Airports.Proofs.CsvRoundTrip

/-!
# A load of the airports tables

The loader works in the stages of the documents that it finds in its files, and those are the documents that
the files were written from. So on PostgreSQL a load comes to its end exactly if each line is read and each
table takes its rows, and the tables then hold the rows of the documents behind what was there.
-/

namespace OsmImport

namespace AirportsLoader

open Lines Stages

/-! ## Files -/

/-- The parser finds in a file what was written to it. -/
theorem fieldsOf_written {text : Str} {doc : List (List Str)} (h : Written text doc) : fieldsOf text = doc := by
  obtain ⟨header, records, hlines, hne, rfl⟩ := h
  rw [fieldsOf, getlines_of_consists hlines, List.tail_cons, List.map_map]
  refine List.map_congr_left fun r hr => ?_
  obtain ⟨f, others, rfl⟩ := List.exists_cons_of_ne_nil (hne r hr)
  exact scan_encodeLine f others

theorem Files.Write.documents_eq {files : Files} {docs : Documents} (h : files.Write docs) :
    files.documents = docs := by
  rw [Files.documents, fieldsOf_written h.countries, fieldsOf_written h.regions, fieldsOf_written h.airports,
    fieldsOf_written h.frequencies, fieldsOf_written h.runways, fieldsOf_written h.navaids]

theorem rounds_eq (n : ℕ) (file : Str) : rounds n file = linesOf n (fieldsOf file) := by
  rw [rounds, linesOf, fieldsOf, List.filterMap_map]
  rfl

/-! ## Transactions -/

variable {chk : TextChecks} {srv : LoadServer} {lib : Library}

theorem staged_setting : Staged LoadSession.tables (transact srv .setting) [] := by
  intro s
  unfold Prog.Ensures transact
  dsimp only
  rcases srv.respond s.log s.tables .setting with _ | e | (_ | _) <;> simp [finish, trail, Tables.exec]

theorem copyStage_of_fits {t : Table} {rows : List Record} {db : Tables} (h : fits chk t (db t) rows = true) :
    copyStage chk t rows db = some (db.exec (.copy t rows)) := if_pos h

/-- A COPY that is committed is one that the schema allows. -/
theorem staged_copy (henf : srv.Enforces chk) (t : Table) (rows : List Record) :
    Staged LoadSession.tables (transact srv (.copy t rows)) [copyStage chk t rows] := by
  intro s
  have hfits := henf s.log s.tables t rows
  unfold Prog.Ensures transact
  dsimp only
  generalize srv.respond s.log s.tables (.copy t rows) = r at hfits
  rcases r with _ | e | (_ | _)
  · rw [finish, copyStage_of_fits (hfits (.inl rfl))]
    rfl
  · exact mem_trail_self
  · exact mem_trail_self
  · refine finish_mem_trail ?_
    rw [finish, copyStage_of_fits (hfits (.inr rfl))]
    rfl

theorem exact_setting : Exact LoadSession.tables (transact (postgresAirports chk) .setting) [] :=
  fun _ => ⟨_, rfl, rfl⟩

theorem exact_copy (t : Table) (rows : List Record) :
    Exact LoadSession.tables (transact (postgresAirports chk) (.copy t rows)) [copyStage chk t rows] := by
  intro s
  cases hfits : fits chk t (s.tables t) rows with
  | true =>
    rw [finish, copyStage_of_fits hfits]
    refine ⟨⟨s.tables.exec (.copy t rows), s.log ++ [(.copy t rows, .ok)]⟩, ?_, rfl⟩
    simp [transact, postgresAirports, hfits]
  | false =>
    have hnone : copyStage chk t rows s.tables = none := if_neg (by simp [hfits])
    rw [finish, hnone]
    refine ⟨.sql, ⟨s.tables, s.log ++ [(.copy t rows, .error .noLine)]⟩, ?_, (reached_cons_none hnone).symm⟩
    simp [transact, postgresAirports, hfits]

/-! ## Loaders -/

theorem tableStage_none (t : Table) (db : Tables) : tableStage chk t none db = none := rfl

theorem staged_loadTable (henf : srv.Enforces chk) (t : Table) {n : ℕ} (row : Line n → Option Record)
    (file : Str) :
    Staged LoadSession.tables (loadTable srv t n row file) [tableStage chk t (recordsOf row (fieldsOf file))] := by
  unfold loadTable
  rw [rounds_eq, recordsOf]
  cases (linesOf n (fieldsOf file)).mapM row with
  | none => exact staged_throw LoadError.stoi
  | some rows => exact staged_copy henf t rows

theorem staged_loadTagged (henf : srv.Enforces chk) (t : Table) {n : ℕ} (row : Line n → Option Record)
    (tags : Line n → List Record) (file : Str) :
    Staged LoadSession.tables (loadTagged srv t n row tags file)
      [tableStage chk t (recordsOf row (fieldsOf file)),
        copyStage chk .tags ((linesOf n (fieldsOf file)).flatMap tags)] := by
  unfold loadTagged
  rw [rounds_eq, recordsOf]
  cases (linesOf n (fieldsOf file)).mapM row with
  | none => exact staged_throw LoadError.stoi
  | some rows => exact (staged_copy henf t rows).bind (staged_copy henf .tags _)

theorem exact_loadTable (t : Table) {n : ℕ} (row : Line n → Option Record) (file : Str) :
    Exact LoadSession.tables (loadTable (postgresAirports chk) t n row file)
      [tableStage chk t (recordsOf row (fieldsOf file))] := by
  unfold loadTable
  rw [rounds_eq, recordsOf]
  cases (linesOf n (fieldsOf file)).mapM row with
  | none => exact exact_throw LoadError.stoi (tableStage_none t)
  | some rows => exact exact_copy t rows

theorem exact_loadTagged (t : Table) {n : ℕ} (row : Line n → Option Record) (tags : Line n → List Record)
    (file : Str) :
    Exact LoadSession.tables (loadTagged (postgresAirports chk) t n row tags file)
      [tableStage chk t (recordsOf row (fieldsOf file)),
        copyStage chk .tags ((linesOf n (fieldsOf file)).flatMap tags)] := by
  unfold loadTagged
  rw [rounds_eq, recordsOf]
  cases (linesOf n (fieldsOf file)).mapM row with
  | none => exact exact_throw LoadError.stoi (tableStage_none t)
  | some rows => exact (exact_copy t rows).bind (exact_copy .tags _)

/-- The loader works in stages, on every server that enforces the schema. -/
theorem staged_loadAirportsData (henf : srv.Enforces chk) (files : Files) :
    Staged LoadSession.tables (loadAirportsData lib srv (some files)) (stages lib chk files.documents) :=
  staged_setting.bind <| (staged_loadTable henf _ _ _).bind <| (staged_loadTable henf _ _ _).bind <|
    (staged_loadTagged henf _ _ _ _).bind <| (staged_loadTable henf _ _ _).bind <|
    (staged_loadTable henf _ _ _).bind (staged_loadTagged henf _ _ _ _)

theorem exact_loadAirportsData (files : Files) :
    Exact LoadSession.tables (loadAirportsData lib (postgresAirports chk) (some files))
      (stages lib chk files.documents) :=
  exact_setting.bind <| (exact_loadTable _ _ _).bind <| (exact_loadTable _ _ _).bind <|
    (exact_loadTagged _ _ _ _).bind <| (exact_loadTable _ _ _).bind <|
    (exact_loadTable _ _ _).bind (exact_loadTagged _ _ _ _)

/-! ## The tables behind a load -/

theorem copyStage_eq_some {t : Table} {rows : List Record} {db db' : Tables} :
    copyStage chk t rows db = some db' ↔
      fits chk t (db t) rows = true ∧ db' = Function.update db t (db t ++ rows) := by
  rw [copyStage, Option.ite_none_right_eq_some, Option.some.injEq]
  exact and_congr_right fun _ => eq_comm

theorem tableStage_eq_some {t : Table} {o : Option (List Record)} {db db' : Tables} :
    tableStage chk t o db = some db' ↔
      ∃ rows, o = some rows ∧ fits chk t (db t) rows = true ∧ db' = Function.update db t (db t ++ rows) := by
  rw [tableStage, Option.bind_eq_some_iff]
  exact exists_congr fun _ => and_congr_right fun _ => copyStage_eq_some

/-- The tags have no key, so each row is taken or not on its own. -/
theorem fits_tags_append (table a b : List Record) :
    fits chk .tags table (a ++ b) = true ↔
      fits chk .tags table a = true ∧ fits chk .tags (table ++ a) b = true := by
  simp [fits, keys, List.all_append]

/-- The documents can be loaded: `db'` has their rows behind those of `db`, and each table takes its own. -/
def Documents.Loads (lib : Library) (chk : TextChecks) (docs : Documents) (db db' : Tables) : Prop :=
  ∀ t, ∃ rows, docs.rows lib t = some rows ∧ fits chk t (db t) rows = true ∧ db' t = db t ++ rows

theorem finish_cons_eq_some {τ : Type} {f : τ → Option τ} {l : List (τ → Option τ)} {x z : τ} :
    finish (f :: l) x = some z ↔ ∃ y, f x = some y ∧ finish l y = some z := Option.bind_eq_some_iff

/-- All stages are done exactly if the documents can be loaded. -/
theorem finish_stages {docs : Documents} {db db' : Tables} :
    finish (stages lib chk docs) db = some db' ↔ docs.Loads lib chk db db' := by
  constructor
  · intro h
    simp only [stages, finish_cons_eq_some, tableStage_eq_some, copyStage_eq_some] at h
    obtain ⟨_, ⟨r₁, h₁, f₁, rfl⟩, _, ⟨r₂, h₂, f₂, rfl⟩, _, ⟨r₃, h₃, f₃, rfl⟩, _, ⟨f₄, rfl⟩,
      _, ⟨r₅, h₅, f₅, rfl⟩, _, ⟨r₆, h₆, f₆, rfl⟩, _, ⟨r₇, h₇, f₇, rfl⟩, _, ⟨f₈, rfl⟩, h⟩ := h
    cases h
    intro t
    cases t with
    | countries => exact ⟨r₁, h₁, f₁, rfl⟩
    | regions => exact ⟨r₂, h₂, f₂, rfl⟩
    | airports => exact ⟨r₃, h₃, f₃, rfl⟩
    | tags => exact ⟨_, rfl, fits_tags_append _ _ _ |>.mpr ⟨f₄, f₈⟩, List.append_assoc ..⟩
    | frequencies => exact ⟨r₅, h₅, f₅, rfl⟩
    | runways => exact ⟨r₆, h₆, f₆, rfl⟩
    | navaids => exact ⟨r₇, h₇, f₇, rfl⟩
  · intro h
    obtain ⟨r₁, h₁, f₁, e₁⟩ := h .countries
    obtain ⟨r₂, h₂, f₂, e₂⟩ := h .regions
    obtain ⟨r₃, h₃, f₃, e₃⟩ := h .airports
    obtain ⟨_, ⟨⟩, f₄, e₄⟩ := h .tags
    obtain ⟨r₅, h₅, f₅, e₅⟩ := h .frequencies
    obtain ⟨r₆, h₆, f₆, e₆⟩ := h .runways
    obtain ⟨r₇, h₇, f₇, e₇⟩ := h .navaids
    obtain ⟨f₄, f₈⟩ := (fits_tags_append _ _ _).mp f₄
    simp only [stages, finish_cons_eq_some, tableStage_eq_some, copyStage_eq_some]
    refine ⟨_, ⟨r₁, h₁, f₁, rfl⟩, _, ⟨r₂, h₂, f₂, rfl⟩, _, ⟨r₃, h₃, f₃, rfl⟩, _, ⟨f₄, rfl⟩,
      _, ⟨r₅, h₅, f₅, rfl⟩, _, ⟨r₆, h₆, f₆, rfl⟩, _, ⟨r₇, h₇, f₇, rfl⟩, _, ⟨f₈, rfl⟩, ?_⟩
    refine congrArg some (funext fun t => ?_)
    cases t with
    | countries => exact e₁.symm
    | regions => exact e₂.symm
    | airports => exact e₃.symm
    | tags => exact (e₄.trans (List.append_assoc ..).symm).symm
    | frequencies => exact e₅.symm
    | runways => exact e₆.symm
    | navaids => exact e₇.symm

/-- **A load of written files.** On PostgreSQL the load of files of comma-separated values ends exactly if
their documents can be loaded, and then it leaves their rows behind those that were there; otherwise it
throws, and leaves the rows of the transactions before the first that cannot be done. -/
theorem airports_load (lib : Library) (chk : TextChecks) {files : Files} {docs : Documents}
    (hfiles : files.Write docs) (s : LoadSession) :
    let m := loadAirportsData lib (postgresAirports chk) (some files)
    (∀ db, (∃ s', m.run s = .done () s' ∧ s'.tables = db) ↔ docs.Loads lib chk s.tables db) ∧
      ((¬ ∃ db, docs.Loads lib chk s.tables db) →
        ∃ e s', m.run s = .threw e s' ∧ s'.tables = reached (stages lib chk docs) s.tables) := by
  have hstages : Exact LoadSession.tables (loadAirportsData lib (postgresAirports chk) (some files))
      (stages lib chk docs) := hfiles.documents_eq ▸ exact_loadAirportsData files
  have hexact := hstages s
  dsimp only
  cases hfinish : finish (stages lib chk docs) s.tables with
  | none =>
    rw [hfinish] at hexact
    obtain ⟨e, s', hrun, htables⟩ := hexact
    have hloads : ∀ db, ¬ docs.Loads lib chk s.tables db := by
      intro db h
      rw [finish_stages.mpr h] at hfinish
      cases hfinish
    refine ⟨fun db => iff_of_false ?_ (hloads db), fun _ => ⟨e, s', hrun, htables⟩⟩
    rintro ⟨s'', h, -⟩
    rw [hrun] at h
    cases h
  | some db' =>
    rw [hfinish] at hexact
    obtain ⟨s', hrun, htables⟩ := hexact
    have hloads := finish_stages.mp hfinish
    refine ⟨fun db => ⟨?_, fun h => ⟨s', hrun, ?_⟩⟩, fun h => absurd ⟨db', hloads⟩ h⟩
    · rintro ⟨s'', h, rfl⟩
      rw [hrun] at h
      cases h
      rwa [htables]
    · rw [finish_stages.mpr h] at hfinish
      exact htables.trans (Option.some.inj hfinish).symm

/-! ## A country with one airport -/

/-- A field without quotes. -/
def bare (text : String) (h : COMMA ∉ str text ∧ QUOTE ∉ str text := by decide) : Csv.Field COMMA QUOTE :=
  ⟨str text, false, fun _ => h⟩

/-- A field in quotes. -/
def quoted (text : String) : Csv.Field COMMA QUOTE := ⟨str text, true, fun h => by cases h⟩

def andorraCountry : List (Csv.Field COMMA QUOTE) :=
  [bare "302672", quoted "AD", bare "Andorra", bare "EU"]

def laSeu : List (Csv.Field COMMA QUOTE) :=
  [bare "4668", bare "LESU", bare "small_airport", quoted "Andorra, La Seu d'Urgell", bare "", bare "",
    bare "2630", bare "EU", bare "ES", bare "ES-CT", bare "", bare "no", bare "LESU", bare "LEU", bare "",
    bare "", bare "", bare "", bare "ANDORRA"]

def andorraDocs : Documents :=
  ⟨[andorraCountry.map Csv.Field.text], [], [laSeu.map Csv.Field.text], [], [], []⟩

def andorraFiles : Files :=
  let header : Str := str "id"
  ⟨unlines [header, Csv.encodeLine andorraCountry], unlines [header],
    unlines [header, Csv.encodeLine laSeu], unlines [header], unlines [header], unlines [header]⟩

theorem andorraFiles_write : andorraFiles.Write andorraDocs := by
  have hempty : Written (unlines [str "id"]) [] :=
    ⟨str "id", [], consists_unlines (by decide), by simp, rfl⟩
  have hcountry : Written (unlines [str "id", Csv.encodeLine andorraCountry]) [andorraCountry.map Csv.Field.text] :=
    ⟨str "id", [andorraCountry], consists_unlines (by decide), by decide, rfl⟩
  have hairport : Written (unlines [str "id", Csv.encodeLine laSeu]) [laSeu.map Csv.Field.text] :=
    ⟨str "id", [laSeu], consists_unlines (by decide), by decide, rfl⟩
  exact ⟨hcountry, hempty, hairport, hempty, hempty, hempty⟩

/-- Nothing of the country has a position. -/
def plainLibrary : Library := ⟨fun _ => none, fun x y => (x, y)⟩

/-- Texts by their length in bytes. -/
def byteChecks : TextChecks := ⟨fun n s => decide (s.length ≤ n)⟩

/-- The country and its airport are loaded, and the keywords of the airport become a tag. -/
theorem airports_load_andorra :
    ∃ s', (loadAirportsData plainLibrary (postgresAirports byteChecks) (some andorraFiles)).run ⟨.empty, []⟩ =
        .done () s' ∧
      s'.tables .tags = [[.text (str "LESU"), .text (str "airport"), .text (str "keywords"),
        .text (str "ANDORRA")]] := by
  have hloads : andorraDocs.Loads plainLibrary byteChecks .empty fun t =>
      (andorraDocs.rows plainLibrary t).getD [] := by
    intro t
    refine ⟨(andorraDocs.rows plainLibrary t).getD [], ?_, ?_, rfl⟩ <;> cases t <;> decide +kernel
  obtain ⟨s', hrun, htables⟩ :=
    ((airports_load plainLibrary byteChecks andorraFiles_write ⟨.empty, []⟩).1 _).mpr hloads
  refine ⟨s', hrun, ?_⟩
  rw [htables]
  decide +kernel

end AirportsLoader

end OsmImport
