import OsmImport.Geometry.Proofs.RoundTrip
import OsmImport.Import.Args
import OsmImport.Import.Proofs.ExactlyOnce

/-!
# The geometry of a node

`nodeThread` projects a node once and writes that position to the store, to the columns and into the
geometry. `createNode` and `modifyNode` put the unprojected position into the geometry, always project,
and run with the default SRID. The two agree where the import projects as well and the projection leaves
the position as it is.
-/

namespace OsmImport

open DeltaApplier NavDB Ewkb

/-- What is written of a node's position: to the node store, to `longitude_m` and `latitude_m`, and to
`geog`. -/
structure Placement where
  stored : Coord
  columns : Coord
  geog : Str

/-- The point in a geometry, and its SRID. -/
def pointOf (geog : Str) : Option (ℕ × Coord) :=
  match parse geog with
  | some ⟨some srid, .point p⟩ => some (srid, ⟨p.1⟩, ⟨p.2⟩)
  | _ => none

/-- The arguments of an import and its configuration. -/
structure Config.StartedBy (cfg : Config) (a : Args) (toMercator : Double → Double → Coord) :
    Prop where
  mode : a.mode = .importing
  use_mercator : cfg.use_mercator = a.use_mercator
  env : cfg.env = a.env toMercator

/-- `nodeThread` writes `p`. -/
def ImportPlaces (cfg : Config) (n : NodeEntry) (p : Placement) : Prop :=
  NodeThread.record cfg n = ⟨n.id, p.stored.1, p.stored.2⟩ ∧ NodeThread.insertItem cfg n =
    insertNode acceptAll n.id n.name p.columns.1 p.columns.2 n.tags p.geog

/-- `createNode` writes `p`. -/
def CreatePlaces (env : Env) (n : NodeEntry) (p : Placement) : Prop :=
  ∀ srv, createNode srv env n = do
    storeInsert n.id p.stored
    insertNode srv n.id n.name p.columns.1 p.columns.2 n.tags p.geog

/-- `modifyNode` writes `p`. -/
def ModifyPlaces (env : Env) (n : NodeEntry) (p : Placement) : Prop :=
  ∀ srv, modifyNode srv env n = do
    storeInsert n.id p.stored
    updateNode srv n.id n.name p.columns.1 p.columns.2 n.tags p.geog

/-- One placement is written by all three, and its geometry is that of the columns, in the SRID of the
import. -/
def SamePlacement (cfg : Config) (env : Env) (n : NodeEntry) : Prop :=
  ∃ p, ImportPlaces cfg n p ∧ CreatePlaces env n p ∧ ModifyPlaces env n p ∧
    pointOf p.geog = some (cfg.env.g_srid, p.columns)

/-! ## What each of them writes -/

/-- The placement of `nodeThread`. -/
def importPlacement (cfg : Config) (n : NodeEntry) : Placement :=
  let pos := NodeThread.position cfg n
  ⟨pos, pos, pointWKB cfg.env.g_srid pos.1 pos.2⟩

/-- The placement of `createNode` and `modifyNode`. -/
def deltaPlacement (env : Env) (n : NodeEntry) : Placement :=
  let pos := env.toMercator n.lon n.lat
  ⟨pos, pos, pointWKB env.g_srid n.lon n.lat⟩

theorem importPlaces (cfg : Config) (n : NodeEntry) : ImportPlaces cfg n (importPlacement cfg n) :=
  ⟨rfl, rfl⟩

theorem createPlaces (env : Env) (n : NodeEntry) : CreatePlaces env n (deltaPlacement env n) :=
  fun _ => rfl

theorem modifyPlaces (env : Env) (n : NodeEntry) : ModifyPlaces env n (deltaPlacement env n) :=
  fun _ => rfl

/-- The log of an update says what is written to the columns and to `geog`. -/
theorem ModifyPlaces.eq_delta {env : Env} {n : NodeEntry} {p : Placement} (h : ModifyPlaces env n p) :
    p.columns = env.toMercator n.lon n.lat ∧ p.geog = pointWKB env.g_srid n.lon n.lat := by
  have hlog := congrArg (fun code : Exec Unit => (code.run (Session.alone (NavDB.fresh 0))).state.log.head?)
    ((modifyPlaces env n acceptAll).symm.trans (h acceptAll))
  have hsent : some (Event.sent [.update .node ⟨n.id, n.name,
      some ((env.toMercator n.lon n.lat).1, (env.toMercator n.lon n.lat).2),
      some (pointWKB env.g_srid n.lon n.lat)⟩] .ok) =
      some (Event.sent [.update .node ⟨n.id, n.name, some (p.columns.1, p.columns.2),
        some p.geog⟩] .ok) := hlog
  injection hsent with hsent
  injection hsent with hsent
  injection hsent with hsent
  injection hsent with _ hrow
  injection hrow with _ _ hpos hgeog
  exact ⟨(Option.some.inj hpos).symm, (Option.some.inj hgeog).symm⟩

theorem pointOf_pointWKB {g_srid : ℕ} (hs : g_srid < 2 ^ 32) (x y : Double) :
    pointOf (pointWKB g_srid x y) = some (g_srid, (x, y)) := by
  have hbytes : (1 :: wu32 0x20000001 ++ wu32 g_srid ++ wd x ++ wd y : Bytes) =
      headerBytes 1 g_srid ++ pointBytes (x.bits, y.bits) := by
    rw [headerBytes_eq]
    simp [pointBytes, wd]
  have hdecode : decode (headerBytes 1 g_srid ++ pointBytes (x.bits, y.bits)) =
      some ⟨some g_srid, .point (x.bits, y.bits)⟩ :=
    (reads_geometry (by decide) hs (reads_point _).map).whole
  unfold pointOf pointWKB
  rw [parse_toHexUpper, hbytes, hdecode]

theorem g_srid_lt (a : Args) : a.g_srid < 2 ^ 32 := by
  unfold Args.g_srid
  split_ifs <;> omega

/-! ## Where they agree -/

/-- The geometry of a modified node is that of its columns, in the SRID of the import, in one case only. -/
theorem SamePlacement.unprojected {cfg : Config} {env : Env} {n : NodeEntry} (hs : env.g_srid < 2 ^ 32)
    (h : SamePlacement cfg env n) :
    env.g_srid = cfg.env.g_srid ∧ env.toMercator n.lon n.lat = (n.lon, n.lat) := by
  obtain ⟨p, -, -, hmodify, hpoint⟩ := h
  obtain ⟨hcolumns, hgeog⟩ := hmodify.eq_delta
  rw [hgeog, pointOf_pointWKB hs, hcolumns] at hpoint
  obtain ⟨hsrid, hpos⟩ := Prod.mk.inj (Option.some.inj hpoint)
  exact ⟨hsrid, hpos.symm⟩

/-- Delta and import write the same placement where the import projects as well, and the projection does
not change the position. -/
theorem samePlacement_iff (toMercator : Double → Double → Coord) {a d : Args} {cfg : Config}
    (hcfg : cfg.StartedBy a toMercator) (hd : d.mode ≠ .importing)
    (hset : d.use_mercator = a.use_mercator) (n : NodeEntry) :
    SamePlacement cfg (d.env toMercator) n ↔
      d.use_mercator = true ∧ toMercator n.lon n.lat = (n.lon, n.lat) := by
  have hdelta : (d.env toMercator).g_srid = 3857 := if_pos hd
  have himport : cfg.env.g_srid = if d.use_mercator then 3857 else 4326 := by
    rw [hcfg.env, hset]
    exact if_neg (not_not.mpr hcfg.mode)
  constructor
  · intro h
    obtain ⟨hsrid, hpos⟩ := h.unprojected (g_srid_lt d)
    refine ⟨?_, hpos⟩
    by_contra hm
    rw [hdelta, himport, if_neg hm] at hsrid
    omega
  · rintro ⟨hm, hpos⟩
    have hposition : NodeThread.position cfg n = toMercator n.lon n.lat := by
      rw [NodeThread.position, hcfg.use_mercator, ← hset, if_pos hm, hcfg.env]
      rfl
    have hsame : importPlacement cfg n = deltaPlacement (d.env toMercator) n := by
      simp only [importPlacement, deltaPlacement, hposition, himport, hdelta, hm, if_true]
      show (⟨toMercator n.lon n.lat, toMercator n.lon n.lat, _⟩ : Placement) =
        ⟨toMercator n.lon n.lat, toMercator n.lon n.lat, _⟩
      rw [hpos]
    refine ⟨_, importPlaces cfg n, hsame ▸ createPlaces _ n, hsame ▸ modifyPlaces _ n, ?_⟩
    exact pointOf_pointWKB (hcfg.env ▸ g_srid_lt a) _ _

/-- A node at 8° E, 47° N. -/
def node47N8E : NodeEntry := ⟨1, [], .none, ⟨0x4020000000000000⟩, ⟨0x4047800000000000⟩⟩

/-- A projection that takes every point to where the Mercator projection takes that node. -/
def projected47N8E : Double → Double → Coord :=
  fun _ _ => (⟨0x412b2d77da4a0c31⟩, ⟨0x4156aace84a2b616⟩)

/-- The configuration of an import with that projection. -/
def config47N8E : Config := { smallConfig with
  use_mercator := true
  env := ({} : Args).env projected47N8E }

theorem config47N8E_startedBy : config47N8E.StartedBy {} projected47N8E := ⟨rfl, rfl, rfl⟩

theorem samePlacement_iff_plain :
    SamePlacement { smallConfig with use_mercator := true }
      (({ mode := .delta } : Args).env plainEnv.toMercator) node47N8E ↔
      true = true ∧ plainEnv.toMercator node47N8E.lon node47N8E.lat = (node47N8E.lon, node47N8E.lat) :=
  samePlacement_iff plainEnv.toMercator (a := {}) (d := { mode := .delta }) ⟨rfl, rfl, rfl⟩
    (by decide) rfl node47N8E

/-- The geometry of the node that is modified is not that of its columns. -/
theorem unprojected_geometry : ¬ ∀ (toMercator : Double → Double → Coord) (a d : Args) (cfg : Config),
    cfg.StartedBy a toMercator → d.mode ≠ .importing → d.use_mercator = a.use_mercator →
      ∀ n, SamePlacement cfg (d.env toMercator) n := by
  intro h
  have hsame := h projected47N8E {} { mode := .delta } config47N8E config47N8E_startedBy (by decide) rfl
    node47N8E
  have hpos := (hsame.unprojected (g_srid_lt { mode := .delta })).2
  exact absurd (congrArg (fun p : Coord => p.1.bits) hpos) (by decide)

end OsmImport
