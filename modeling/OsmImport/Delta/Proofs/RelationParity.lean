import OsmImport.Db.Proofs.TagRouting
import OsmImport.Geometry.Proofs.Encoders
import OsmImport.Import.Proofs.ExactlyOnce
import OsmImport.Import.Proofs.WayRows
import OsmImport.Import.Relations
import OsmImport.Lib.Ewkb

/-!
# Relations in the delta path and in the import

Both paths insert the same rows for a relation that is no multipolygon and no boundary, up to the case of
the hex digits. A multipolygon or boundary is a row of `areas` in the import, and a row of `relations` in
the delta path.
-/

namespace OsmImport

open NavDB

/-! ## Hex case -/

/-- `a` to `f` become `A` to `F`. -/
def upperHex (c : UInt8) : UInt8 := if 97 ≤ c ∧ c ≤ 102 then c - 32 else c

/-- The row with its geometry in upper case. -/
def Row.upper (r : Row) : Row := { r with geog := r.geog.map fun g => g.map upperHex }

theorem upperHex_hexDigit : ∀ x : Fin 256,
    upperHex (hexDigit 97 (UInt8.ofNat x.val >>> 4)) = hexDigit 65 (UInt8.ofNat x.val >>> 4) ∧
    upperHex (hexDigit 65 (UInt8.ofNat x.val >>> 4)) = hexDigit 65 (UInt8.ofNat x.val >>> 4) ∧
    upperHex (hexDigit 97 (UInt8.ofNat x.val &&& 0xF)) = hexDigit 65 (UInt8.ofNat x.val &&& 0xF) ∧
    upperHex (hexDigit 65 (UInt8.ofNat x.val &&& 0xF)) = hexDigit 65 (UInt8.ofNat x.val &&& 0xF) := by
  decide +kernel

/-- The two encoders agree up to the case. -/
theorem upper_hex (b : Bytes) :
    (toHexLower b).map upperHex = toHexUpper b ∧ (toHexUpper b).map upperHex = toHexUpper b := by
  induction b with
  | nil => exact ⟨rfl, rfl⟩
  | cons x b ih =>
    obtain ⟨hlo, hup, hlo', hup'⟩ := upperHex_hexDigit ⟨x.toNat, x.toNat_lt⟩
    rw [UInt8.ofNat_toNat] at hlo hup hlo' hup'
    have hcons : ∀ ten, hex ten (x :: b) = hexDigit ten (x >>> 4) :: hexDigit ten (x &&& 0xF) :: hex ten b :=
      fun _ => rfl
    simp only [toHexLower, toHexUpper, hcons, List.map_cons] at ih ⊢
    exact ⟨by rw [hlo, hlo', ih.1], by rw [hup, hup', ih.2]⟩

theorem length_fromHex (h : Str) : (fromHex h).length = h.length / 2 := by
  fun_induction fromHex h with
  | case1 a b rest ih =>
    rw [List.length_cons, ih, List.length_cons, List.length_cons]
    omega
  | case2 h hno =>
    rcases h with _ | ⟨a, _ | ⟨b, rest⟩⟩
    · rfl
    · simp
    · exact absurd rfl (hno a b rest)

/-- The import takes the same parts: a text that decodes to a line has ten digits or more. -/
theorem mergeWayGeoms_eq_linearPart (g_srid : ℕ) (hexes : List Str) :
    mergeWayGeoms g_srid hexes = if (hexes.filterMap linearPart).isEmpty then []
      else toHexUpper (multiLineBytes g_srid (hexes.filterMap linearPart)) := by
  have hten : ∀ h : Str, isLinear (fromHex h) = true → h.length ≥ 10 := by
    intro h hlin
    by_contra hlt
    have hshort : (fromHex h).length < 5 := by
      rw [length_fromHex]
      omega
    simp [isLinear, hshort] at hlin
  have hparts : ((hexes.filter fun h => !h.isEmpty).map fromHex).filter isLinear =
      hexes.filterMap linearPart := by
    induction hexes with
    | nil => rfl
    | cons h hexes ih =>
      rw [List.filterMap_cons, ← ih, linearPart]
      by_cases hlin : isLinear (fromHex h) = true
      · have hlen := hten h hlin
        have hne : h.isEmpty = false := by
          cases h with
          | nil => simp at hlen
          | cons a h => rfl
        simp [hlen, hlin, hne]
      · cases h with
        | nil => simp
        | cons a h => simp [hlin]
  unfold mergeWayGeoms
  dsimp only
  rw [hparts]

/-- The geometries of a relation agree up to the case. -/
theorem relationGeoms_agree (g_srid : ℕ) (geoms : List Str) :
    (mergeLinestrings g_srid geoms).map upperHex = (mergeWayGeoms g_srid geoms).map upperHex := by
  rw [mergeLinestrings_eq, mergeWayGeoms_eq_linearPart]
  split
  · rfl
  · exact (upper_hex _).1.trans (upper_hex _).2.symm

/-- The copies of the encoders agree, up to the case of the digits, for every SRID: of ways in the flag and
the text, for every list of coordinates, and of merged geometries, for every list of texts. The copy for
ways is what the delta path does behind its reads of the node store. -/
theorem encoders_agree (g_srid : ℕ) :
    (∀ coords : List Coord,
      (MainEncoders.buildWayGeom g_srid coords false).2 = (DeltaEncoders.buildWayGeom g_srid coords).2 ∧
      (MainEncoders.buildWayGeom g_srid coords false).1.map upperHex =
        (DeltaEncoders.buildWayGeom g_srid coords).1.map upperHex) ∧
    (∀ hexes : List Str, (MainEncoders.mergeWayGeoms g_srid hexes).map upperHex =
      (DeltaEncoders.mergeLinestrings g_srid hexes).map upperHex) ∧
    ∀ (toMercator : Double → Double → Coord) (osmmap : OSMMMap) (w : WayEntry),
      DeltaApplier.buildWayGeom ⟨g_srid, toMercator⟩ osmmap w =
        DeltaEncoders.buildWayGeom g_srid (w.node_refs.filterMap osmmap.select) := by
  refine ⟨fun coords => ?_, fun hexes => ?_,
    fun toMercator osmmap w => (delta_buildWayGeom_eq ⟨g_srid, toMercator⟩ osmmap w).symm⟩
  · rw [main_buildWayGeom_eq, buildWayGeom, DeltaEncoders.buildWayGeom]
    have hflag : (DeltaEncoders.meets coords && decide (coords.length ≥ 4)) =
        (decide (coords.length ≥ 4) && closes coords) := Bool.and_comm _ _
    by_cases h2 : coords.length < 2
    · rw [if_pos h2, if_pos h2]
      exact ⟨rfl, rfl⟩
    · rw [if_neg h2, if_neg h2]
      refine ⟨hflag.symm, ?_⟩
      dsimp only
      rw [hflag, delta_buildLineWKB_eq, buildLineWKB, if_neg h2, Bool.and_right_comm, Bool.and_self]
      exact (upper_hex _).2.trans (upper_hex _).1.symm
  · rw [main_mergeWayGeoms_eq, delta_mergeLinestrings_eq]
    exact (relationGeoms_agree g_srid hexes).symm

/-! ## Calls on an accepting server -/

variable {srv : Server}

/-- The rows of a table and, behind them, those of its buffer. -/
def Session.held (s : Session) (k : Kind) : List Row := s.db.rows k ++ s.nav.buf k

theorem held_buffered (s : Session) (j k : Kind) (row : Row) (tags : Tags) :
    (s.buffered j row tags).held k = s.held k ++ if j = k then [row] else [] := by
  unfold Session.held
  rw [Session.buffered_db, Session.buffered_buf]
  by_cases h : j = k
  · subst h
    simp
  · simp [h, Function.update_of_ne (Ne.symm h)]

theorem held_flushed (s : Session) (j : Kind) : (s.flushed j).held = s.held := by
  funext k
  unfold Session.held
  rw [Session.flushed_rows, Session.flushed_buf]
  rcases eq_or_ne k j with rfl | h
  · simp
  · rw [Function.update_of_ne h, Function.update_of_ne h]

theorem held_flushAll (s : Session) (ks : List Kind) : (s.flushAll ks).held = s.held := by
  induction ks generalizing s with
  | nil => rfl
  | cons j ks ih => exact (ih (s.flushed j)).trans (held_flushed s j)

theorem held_inserted (s : Session) (j k : Kind) (row : Row) (tags : Tags) :
    (s.inserted j row tags).held k = s.held k ++ if j = k then [row] else [] := by
  unfold Session.inserted
  split
  · rw [held_flushed, held_buffered]
  · exact held_buffered ..

/-- Inserts add their rows, whether they flush a buffer or not. -/
theorem run_insertCalls (h : Accepting srv) {calls : List InsertCall}
    (hcalls : ∀ c ∈ calls, c.kind ≠ .node) (s : Session) :
    (Prog.forEach calls (InsertCall.run srv)).Ends s
      fun _ s' => ∀ k, s'.held k = s.held k ++ rowsOf k calls := by
  induction calls generalizing s with
  | nil => exact fun k => (List.append_nil _).symm
  | cons c calls ih =>
    apply Prog.ensures_bind
    apply Prog.ensures_of_run (run_insertCall h (hcalls c List.mem_cons_self) s)
    refine (ih (fun c' hc' => hcalls c' (List.mem_cons_of_mem _ hc')) _).done ?_
    rintro - s' hs' k
    rw [hs' k, held_inserted, List.append_assoc, ← rowsOf_singleton,
      ← rowsOf_append, List.singleton_append]

/-- The inserts, and flushes of some tables behind them. -/
theorem run_stored (h : Accepting srv) {calls : List InsertCall}
    (hcalls : ∀ c ∈ calls, c.kind ≠ .node) {finish : Exec Unit} {tables ks : List Kind}
    (hks : ∀ k ∈ tables, k ∈ ks)
    (hfinish : ∀ s, finish.run s = .done () (s.flushAll ks)) {s : Session} (hs : Idle s) :
    (do Prog.forEach calls (InsertCall.run srv); finish).Ends s fun _ s' =>
      ∀ k ∈ tables, s'.db.rows k = s.db.rows k ++ rowsOf k calls := by
  apply Prog.ensures_bind
  refine (run_insertCalls h hcalls s).done ?_
  rintro - s' hs'
  apply Prog.ensures_of_run (hfinish s')
  intro k hk
  have hheld : (s'.flushAll ks).held k = s.held k ++ rowsOf k calls :=
    (congrFun (held_flushAll s' ks) k).trans (hs' k)
  unfold Session.held at hheld
  rwa [Session.buf_flushAll s' ks (hks k hk), List.append_nil, hs.1 k, List.append_nil] at hheld

/-! ## The two paths -/

/-- A piece of code that reads, and ends with a result. -/
def ReadsOnly {α : Type} (m : Exec α) : Prop :=
  ∀ s, m.Ends s fun _ s' => s'.nav = s.nav ∧ s'.db = s.db

theorem readsOnly_getWay (srv : Server) (id : Int64) : ReadsOnly (getWay srv id) := by
  intro s
  have hask : (ask srv fun db => geogs db id).run s = .done _ (s.record (.asked _)) := rfl
  apply Prog.ensures_bind
  apply Prog.ensures_of_run hask
  split <;> exact ⟨rfl, rfl⟩

theorem readsOnly_memberGeoms (srv : Server) (ms : List RelationMember) :
    ReadsOnly (DeltaApplier.memberGeoms srv ms) := by
  induction ms with
  | nil => exact fun s => ⟨rfl, rfl⟩
  | cons m ms ih =>
    intro s
    apply Prog.ensures_bind
    refine (readsOnly_getWay srv m.id s).done ?_
    rintro g s₁ ⟨hnav₁, hdb₁⟩
    apply Prog.ensures_bind
    refine (ih s₁).done ?_
    rintro gs s₂ ⟨hnav₂, hdb₂⟩
    exact ⟨hnav₂.trans hnav₁, hdb₂.trans hdb₁⟩

theorem readsOnly_getWayCoordsMap (srv : Server) (dumpPoints : Str → List Coord) (ids : List Int64) :
    ReadsOnly (getWayCoordsMap srv dumpPoints ids) := by
  intro s
  unfold getWayCoordsMap
  split
  · exact ⟨rfl, rfl⟩
  · apply Prog.ensures_get_bind
    have hask : (ask srv fun db id => srv.ties s.log db id (storedPoints dumpPoints (geogs db id))).run s =
        .done _ (s.record (.asked _)) := rfl
    apply Prog.ensures_bind
    apply Prog.ensures_of_run hask
    split <;> exact ⟨rfl, rfl⟩

/-- The inserts of a relation with this geometry. -/
def storedCalls (r : RelationEntry) (geom : Str) : List InsertCall :=
  ⟨.relation, r.id, r.name, r.tags, geom⟩ ::
    if DeltaApplier.isRoad r.tags && !geom.isEmpty then [⟨.road, r.id, r.name, r.tags, geom⟩] else []

theorem kinds_storedCalls (r : RelationEntry) (geom : Str) :
    ∀ c ∈ storedCalls r geom, c.kind = .relation ∨ c.kind = .road := by
  intro c hc
  rcases List.mem_cons.mp hc with rfl | hc
  · exact .inl rfl
  · split at hc
    · rw [List.mem_singleton.mp hc]
      exact .inr rfl
    · exact absurd hc List.not_mem_nil

theorem rowsOf_storedCalls (r : RelationEntry) {g g' : Str} (h : g.map upperHex = g'.map upperHex)
    (k : Kind) : (rowsOf k (storedCalls r g)).map Row.upper =
      (rowsOf k (storedCalls r g')).map Row.upper := by
  have hempty : g.isEmpty = g'.isEmpty := by
    rw [← List.isEmpty_map (f := upperHex) (l := g), h, List.isEmpty_map]
  have hnull : (nullable g).map (List.map upperHex) = (nullable g').map (List.map upperHex) := by
    unfold nullable
    rw [hempty]
    split
    · rfl
    · exact congrArg some h
  unfold storedCalls
  rw [hempty]
  cases k <;> split <;> simp [rowsOf, Row.upper, InsertCall.row, hnull, h]

theorem createRelation_eq (srv : Server) (env : Env) (r : RelationEntry) :
    DeltaApplier.createRelation srv env r = (do
      let geoms ← DeltaApplier.memberGeoms srv r.way_members
      Prog.forEach (storedCalls r (mergeLinestrings env.g_srid geoms)) (InsertCall.run srv)) := by
  unfold DeltaApplier.createRelation DeltaApplier.buildRelationGeom storedCalls
  rw [bind_assoc]
  congr 1
  funext geoms
  rw [pure_bind]
  split
  · rw [Prog.forEach_cons, Prog.forEach_singleton]
    rfl
  · rw [Prog.forEach_singleton, bind_pure_unit]
    rfl

theorem relationCalls_eq (cfg : Config) (r : RelationEntry) (geoms : List Str) :
    WayThread.relationCalls cfg r geoms = storedCalls r (mergeWayGeoms cfg.env.g_srid geoms) := by
  have hgeog : (if geoms.isEmpty then [] else mergeWayGeoms cfg.env.g_srid geoms) =
      mergeWayGeoms cfg.env.g_srid geoms := by
    cases geoms <;> rfl
  unfold WayThread.relationCalls storedCalls
  dsimp only
  rw [hgeog, Bool.and_comm]

/-! ## Parity -/

/-- The tables of a relation. -/
def relationKinds : List Kind := [.area, .relation, .road]

/-- What the two paths add to the tables of relations is the same up to the case of hex digits. -/
def SameRelationRows (s sd si : Session) : Prop :=
  ∀ k ∈ relationKinds, ∃ a b, sd.db.rows k = s.db.rows k ++ a ∧ si.db.rows k = s.db.rows k ++ b ∧
    a.map Row.upper = b.map Row.upper

theorem run_deltaFlush (h : Accepting srv) (s : Session) : (DeltaApplier.flush srv).run s =
    .done () (s.flushAll [.way, .area, .road, .relation]) := by
  show (finalize_ways srv >>= fun _ => finalize_roads srv >>= fun _ => finalize_relations srv).run s = _
  rw [Prog.run_bind_done (run_finalize_ways h s), Prog.run_bind_done (run_finalize_roads h _)]
  exact run_finalize_relations h _

theorem run_leave (h : Accepting srv) (s : Session) :
    (do finalize_roads srv; WayThread.leave srv : Exec Unit).run s =
      .done () (s.flushAll [.road, .relation, .node, .way, .area, .road, .relation]) := by
  rw [Prog.run_bind_done (run_finalize_roads h s)]
  show (finalize_relations srv >>= fun _ => NavDB.destroy srv).run _ = _
  rw [Prog.run_bind_done (run_finalize_relations h _)]
  exact run_destroy h _

/-- A read, the inserts that follow from it, and the flushes. -/
theorem run_read_stored (h : Accepting srv) {α : Type} {m : Exec α} (hm : ReadsOnly m)
    {calls : α → List InsertCall} (hcalls : ∀ a, ∀ c ∈ calls a, c.kind ≠ .node) {finish : Exec Unit}
    {ks : List Kind} (hks : ∀ k ∈ relationKinds, k ∈ ks)
    (hfinish : ∀ s, finish.run s = .done () (s.flushAll ks)) {s : Session} (hs : Idle s) :
    (do let a ← m; Prog.forEach (calls a) (InsertCall.run srv); finish : Exec Unit).Ends s fun _ s' =>
      ∃ (a : α) (s₁ : Session), m.run s = .done a s₁ ∧
        ∀ k ∈ relationKinds, s'.db.rows k = s.db.rows k ++ rowsOf k (calls a) := by
  apply Prog.ensures_bind
  refine (hm s).withRun.done ?_
  rintro a s₁ ⟨⟨hnav, hdb⟩, hrun⟩
  have hs₁ : Idle s₁ := by
    unfold Idle
    rwa [hnav]
  refine (run_stored h (hcalls a) hks hfinish hs₁).done ?_
  rintro - s' hs'
  refine ⟨a, s₁, hrun, fun k hk => ?_⟩
  rw [hs' k hk, hdb]

theorem run_storeRelation (h : Accepting srv) {s : Session} (hs : Idle s) (env : Env) (r : RelationEntry) :
    (do DeltaApplier.createRelation srv env r; DeltaApplier.flush srv : Exec Unit).Ends s fun _ sd =>
      ∃ geoms s₁, (DeltaApplier.memberGeoms srv r.way_members).run s = .done geoms s₁ ∧
        ∀ k ∈ relationKinds, sd.db.rows k =
          s.db.rows k ++ rowsOf k (storedCalls r (mergeLinestrings env.g_srid geoms)) := by
  rw [createRelation_eq, bind_assoc]
  refine run_read_stored h (readsOnly_memberGeoms srv _) (fun geoms c hc => ?_) (by decide)
    (run_deltaFlush h) hs
  rcases kinds_storedCalls _ _ c hc with hk | hk <;> rw [hk] <;> decide

theorem run_importRelation (h : Accepting srv) {s : Session} (hs : Idle s) (cfg : Config)
    {r : RelationEntry} (hr : WayThread.is_multipolygon r = false) :
    (WayThread.importRelation srv cfg r).Ends s fun _ si =>
      ∃ geoms s₁, (DeltaApplier.memberGeoms srv r.way_members).run s = .done geoms s₁ ∧
        ∀ k ∈ relationKinds, si.db.rows k =
          s.db.rows k ++ rowsOf k (storedCalls r (mergeWayGeoms cfg.env.g_srid geoms)) := by
  have heq : WayThread.importRelation srv cfg r = (do
      let geoms ← DeltaApplier.memberGeoms srv r.way_members
      Prog.forEach (storedCalls r (mergeWayGeoms cfg.env.g_srid geoms)) (InsertCall.run srv)
      finalize_roads srv
      WayThread.leave srv) := by
    simp only [WayThread.importRelation, WayThread.relationBranch, hr, Bool.false_eq_true, if_false,
      bind_assoc, relationCalls_eq]
  rw [heq]
  refine run_read_stored h (readsOnly_memberGeoms srv _) (fun geoms c hc => ?_) (by decide)
    (run_leave h) hs
  rcases kinds_storedCalls _ _ c hc with hk | hk <;> rw [hk] <;> decide

/-- A multipolygon or boundary adds at most an area. -/
theorem run_importMultipolygon (h : Accepting srv) {s : Session} (hs : Idle s) (cfg : Config)
    {r : RelationEntry} (hr : WayThread.is_multipolygon r = true) :
    (WayThread.importRelation srv cfg r).Ends s fun _ si => si.db.rows .relation = s.db.rows .relation := by
  have heq : WayThread.importRelation srv cfg r = (do
      let points ← getWayCoordsMap srv cfg.dumpPoints (r.way_members.map RelationMember.id)
      Prog.forEach (WayThread.multipolygonCalls cfg r points) (InsertCall.run srv)
      finalize_roads srv
      WayThread.leave srv) := by
    simp only [WayThread.importRelation, WayThread.relationBranch, hr, if_true, bind_assoc]
  have harea : ∀ points, ∀ c ∈ WayThread.multipolygonCalls cfg r points, c.kind = .area := by
    intro points c hc
    unfold WayThread.multipolygonCalls at hc
    dsimp only at hc
    split at hc
    · exact absurd hc List.not_mem_nil
    · rw [List.mem_singleton.mp hc]
  rw [heq]
  refine (run_read_stored h (readsOnly_getWayCoordsMap srv cfg.dumpPoints _) (fun points c hc => ?_)
    (by decide) (run_leave h) hs).done ?_
  · rw [harea points c hc]
    decide
  · rintro - si ⟨points, s₁, -, hrows⟩
    rw [hrows .relation (by decide)]
    have hnone : rowsOf .relation (WayThread.multipolygonCalls cfg r points) = [] := by
      refine List.map_eq_nil_iff.mpr (List.filter_eq_nil_iff.mpr fun c hc => ?_)
      rw [harea points c hc]
      decide
    rw [hnone, List.append_nil]

/-- **Relations in both paths.** From any database, on a server that takes the rows, `createRelation` and
a flush add the same rows as the import, up to the case of hex digits, exactly if the relation is no
multipolygon and no boundary. -/
theorem relation_parity (h : Accepting srv) {s : Session} (hs : Idle s) (cfg : Config)
    (r : RelationEntry) : ∃ sd si,
      (do DeltaApplier.createRelation srv cfg.env r; DeltaApplier.flush srv : Exec Unit).run s = .done () sd ∧
      (WayThread.importRelation srv cfg r).run s = .done () si ∧
      (SameRelationRows s sd si ↔ WayThread.is_multipolygon r = false) := by
  obtain ⟨_, sd, hrund, geoms, s₁, hgeoms, hd⟩ := (run_storeRelation h hs cfg.env r).exists
  cases hr : WayThread.is_multipolygon r with
  | false =>
    obtain ⟨_, si, hruni, geoms', s₁', hgeoms', hi⟩ := (run_importRelation h hs cfg hr).exists
    rw [hgeoms] at hgeoms'
    cases hgeoms'
    refine ⟨sd, si, hrund, hruni, iff_of_true (fun k hk => ?_) rfl⟩
    exact ⟨_, _, hd k hk, hi k hk, rowsOf_storedCalls r (relationGeoms_agree _ _) k⟩
  | true =>
    obtain ⟨_, si, hruni, hi⟩ := (run_importMultipolygon h hs cfg hr).exists
    refine ⟨sd, si, hrund, hruni, iff_of_false (fun hsame => ?_) Bool.noConfusion⟩
    obtain ⟨a, b, ha, hb, hab⟩ := hsame .relation (by decide)
    rw [hi] at hb
    have hnil : b = [] := List.self_eq_append_right.mp hb
    rw [hd .relation (by decide)] at ha
    rw [hnil, ← List.append_cancel_left ha] at hab
    simp [rowsOf, storedCalls] at hab

/-- The points of a geometry. -/
def stDumpPoints (geog : Str) : List Coord :=
  match Ewkb.parse geog with
  | some g => g.shape.points.map fun p => (⟨p.1⟩, ⟨p.2⟩)
  | none => []

/-- A triangle. -/
def triangle : List Coord := [(⟨0⟩, ⟨0⟩), (⟨1⟩, ⟨0⟩), (⟨1⟩, ⟨1⟩), (⟨0⟩, ⟨0⟩)]

/-- An idle client, and one way in `ways`. -/
def oneWaySession (coords : List Coord) : Session :=
  ⟨noStore, NavDB.fresh 0,
    idleSession.db.setRows .way [⟨1, [], none, some (buildWayGeom 3857 coords false).1⟩], []⟩

/-- An import on a server that knows `ST_DumpPoints`. -/
def pointsConfig : Config := { smallConfig with dumpPoints := stDumpPoints }

/-- A road route over the way. -/
def route : RelationEntry :=
  ⟨7, [], ⟨[(str "type", str "route"), (str "route", str "road")], by decide⟩, [⟨1, []⟩]⟩

theorem relation_parity_route : ∃ sd si,
    (do DeltaApplier.createRelation acceptAll plainEnv route; DeltaApplier.flush acceptAll : Exec Unit).run
      (oneWaySession [(⟨0⟩, ⟨0⟩), (⟨1⟩, ⟨0⟩)]) = .done () sd ∧
    (WayThread.importRelation acceptAll pointsConfig route).run
      (oneWaySession [(⟨0⟩, ⟨0⟩), (⟨1⟩, ⟨0⟩)]) = .done () si ∧
    SameRelationRows (oneWaySession [(⟨0⟩, ⟨0⟩), (⟨1⟩, ⟨0⟩)]) sd si := by
  have hs : Idle (oneWaySession [(⟨0⟩, ⟨0⟩), (⟨1⟩, ⟨0⟩)]) := ⟨fun _ => rfl, fun _ => rfl⟩
  obtain ⟨sd, si, hd, hi, hiff⟩ := relation_parity accepting_acceptAll hs pointsConfig route
  exact ⟨sd, si, hd, hi, hiff.mpr (by decide)⟩

/-- A multipolygon whose outer way is the triangle. -/
def lake : RelationEntry := ⟨7, [], ⟨[(str "type", str "multipolygon")], by decide⟩, [⟨1, str "outer"⟩]⟩

set_option maxRecDepth 2000 in
/-- The import stores the area of the multipolygon, the delta path a row of `relations`. -/
theorem multipolygon_only_in_import : ∃ sd si,
    (do DeltaApplier.createRelation acceptAll plainEnv lake; DeltaApplier.flush acceptAll : Exec Unit).run
      (oneWaySession triangle) = .done () sd ∧
    (WayThread.importRelation acceptAll pointsConfig lake).run (oneWaySession triangle) = .done () si ∧
    sd.db.rows .area = [] ∧ sd.db.rows .relation = [⟨7, [], none, none⟩] ∧
    (si.db.rows .area).map Row.id = [-7] ∧ si.db.rows .relation = [] ∧
    ¬ SameRelationRows (oneWaySession triangle) sd si := by
  obtain ⟨sd, hd, hdarea, hdrel⟩ : ∃ sd, (do
      DeltaApplier.createRelation acceptAll plainEnv lake
      DeltaApplier.flush acceptAll : Exec Unit).run (oneWaySession triangle) = .done () sd ∧
      sd.db.rows .area = [] ∧ sd.db.rows .relation = [⟨7, [], none, none⟩] :=
    ⟨_, rfl, by decide +kernel, by decide +kernel⟩
  obtain ⟨si, hi, hiarea, hirel⟩ : ∃ si,
      (WayThread.importRelation acceptAll pointsConfig lake).run (oneWaySession triangle) = .done () si ∧
      (si.db.rows .area).map Row.id = [-7] ∧ si.db.rows .relation = [] :=
    ⟨_, rfl, by decide +kernel, by decide +kernel⟩
  refine ⟨sd, si, hd, hi, hdarea, hdrel, hiarea, hirel, fun h => ?_⟩
  clear hd hi hdarea hiarea
  obtain ⟨a, b, ha, hb, hab⟩ := h .relation (by decide)
  have hrow : a = [⟨7, [], none, none⟩] := ha.symm.trans hdrel
  have hnil : b = [] := hb.symm.trans hirel
  rw [hnil, hrow] at hab
  cases hab

end OsmImport
