import OsmImport.Delta.Proofs.RelationParity
import OsmImport.Import.Proofs.TableChoice

/-!
# Ways in the delta path and in the import

Both paths build the same geometry of a way, up to the case of the hex digits. The import chooses the
table by the tags of a closed ring (`isArea`), the delta path takes every closed ring for an area.
-/

namespace OsmImport

open NavDB

/-- The insert of `createWay`. -/
def createdCalls (env : Env) (w : WayEntry) (coords : List Coord) : List InsertCall :=
  if coords.length < 2 then [] else
    [⟨if ClosedRing coords then .area else .way, w.id, w.name, w.tags,
      toHexLower (lineBytes env.g_srid (decide (ClosedRing coords)) coords)⟩]

theorem closes_and_long (coords : List Coord) :
    (closes coords && decide (coords.length ≥ 4)) = decide (ClosedRing coords) := by
  rw [Bool.and_comm]
  exact Bool.eq_iff_iff.mpr (by rw [Bool.and_eq_true, decide_eq_true_eq, decide_eq_true_iff]; rfl)

/-- The geometry that the delta path builds. -/
theorem deltaWayGeom_eq (env : Env) (osmmap : OSMMMap) (w : WayEntry) :
    DeltaApplier.buildWayGeom env osmmap w =
      let coords := w.node_refs.filterMap osmmap.select
      if coords.length < 2 then ([], false)
      else (toHexLower (lineBytes env.g_srid (decide (ClosedRing coords)) coords),
        decide (ClosedRing coords)) := by
  unfold DeltaApplier.buildWayGeom
  dsimp only
  split
  · rfl
  · rename_i h2
    have hlong : ∀ b : Bool, b = decide (ClosedRing (w.node_refs.filterMap osmmap.select)) →
        (b && decide ((w.node_refs.filterMap osmmap.select).length ≥ 4)) = b := by
      intro b hb
      cases b with
      | false => rfl
      | true =>
        rw [Bool.true_and, decide_eq_true_iff]
        exact (of_decide_eq_true hb.symm).1
    rw [closes_and_long, buildLineWKB, if_neg h2, hlong _ rfl]

theorem isEmpty_toHexLower_lineBytes (g_srid : ℕ) (polygon : Bool) (coords : List Coord) :
    (toHexLower (lineBytes g_srid polygon coords)).isEmpty = false := by
  cases polygon <;> rfl

theorem createWay_eq (srv : Server) (env : Env) (w : WayEntry) :
    DeltaApplier.createWay srv env w = (do
      let s ← Prog.get
      Prog.forEach (createdCalls env w (w.node_refs.filterMap s.osmmap.select)) (InsertCall.run srv)) := by
  unfold DeltaApplier.createWay
  congr 1
  funext s
  rw [deltaWayGeom_eq, createdCalls]
  dsimp only
  split
  · rfl
  · dsimp only
    rw [isEmpty_toHexLower_lineBytes, Prog.forEach_singleton]
    by_cases hring : ClosedRing (w.node_refs.filterMap s.osmmap.select)
    · simp only [hring, decide_true, if_true]
      rfl
    · simp only [hring, decide_false, if_false]
      rfl

/-- The tables of a way. -/
def wayKinds : List Kind := [.way, .area]

/-- What the two paths add to the tables of ways is the same up to the case of hex digits. -/
def SameWayRows (s sd si : Session) : Prop :=
  ∀ k ∈ wayKinds, ∃ a b, sd.db.rows k = s.db.rows k ++ a ∧ si.db.rows k = s.db.rows k ++ b ∧
    a.map Row.upper = b.map Row.upper

variable {srv : Server}

theorem run_createWay (h : Accepting srv) {s : Session} (hs : Idle s) (env : Env) (w : WayEntry) :
    (do DeltaApplier.createWay srv env w; DeltaApplier.flush srv : Exec Unit).Ends s fun _ sd =>
      ∀ k ∈ wayKinds, sd.db.rows k = s.db.rows k ++
        rowsOf k (createdCalls env w (w.node_refs.filterMap s.osmmap.select)) := by
  rw [createWay_eq, bind_assoc]
  apply Prog.ensures_get_bind
  refine run_stored h (fun c hc => ?_) (by decide) (run_deltaFlush h) hs
  unfold createdCalls at hc
  split at hc
  · exact absurd hc List.not_mem_nil
  · rw [List.mem_singleton.mp hc]
    dsimp only
    split <;> decide

theorem run_importWay (h : Accepting srv) {s : Session} (hs : Idle s) (cfg : Config) (w : WayEntry) :
    (WayThread.importWay srv cfg w).Ends s fun _ si =>
      ∀ k ∈ wayKinds, si.db.rows k = s.db.rows k ++
        rowsOf k (WayThread.wayCalls cfg w (w.node_refs.filterMap s.osmmap.select)) := by
  have heq : WayThread.importWay srv cfg w = (do
      let s ← Prog.get
      Prog.forEach (WayThread.wayCalls cfg w (w.node_refs.filterMap s.osmmap.select)) (InsertCall.run srv)
      finalize_roads srv
      finalize_ways srv
      WayThread.leave srv) := by
    simp only [WayThread.importWay, WayThread.wayBranch, bind_assoc]
  have hfinish : ∀ s, (do finalize_roads srv; finalize_ways srv; WayThread.leave srv : Exec Unit).run s =
      .done () (s.flushAll [.road, .way, .area, .relation, .node, .way, .area, .road, .relation]) := by
    intro s
    rw [Prog.run_bind_done (run_finalize_roads h s), Prog.run_bind_done (run_finalize_ways h _)]
    show (finalize_relations srv >>= fun _ => NavDB.destroy srv).run _ = _
    rw [Prog.run_bind_done (run_finalize_relations h _)]
    exact run_destroy h _
  rw [heq]
  apply Prog.ensures_get_bind
  refine run_stored h (fun c hc => ?_) (by decide) hfinish hs
  rw [WayThread.wayCalls_eq] at hc
  split at hc
  · exact absurd hc List.not_mem_nil
  · rw [List.mem_singleton.mp hc]
    dsimp only
    split <;> decide

/-- The two inserts agree if they go to the same table. -/
theorem rowsOf_createdCalls (cfg : Config) (w : WayEntry) (coords : List Coord) :
    (∀ k ∈ wayKinds, (rowsOf k (createdCalls cfg.env w coords)).map Row.upper =
      (rowsOf k (WayThread.wayCalls cfg w coords)).map Row.upper) ↔
        (ClosedRing coords → isArea true w.tags = true) := by
  rw [WayThread.wayCalls_eq, createdCalls]
  by_cases h2 : coords.length < 2
  · have hopen : ¬ ClosedRing coords := fun h => by
      have := h.1
      omega
    rw [if_pos h2, if_pos h2]
    exact iff_of_true (fun _ _ => rfl) fun h => absurd h hopen
  · rw [if_neg h2, if_neg h2]
    have hgeog := (upper_hex (lineBytes cfg.env.g_srid (decide (ClosedRing coords)) coords)).1.trans
      (upper_hex (lineBytes cfg.env.g_srid (decide (ClosedRing coords)) coords)).2.symm
    by_cases hring : ClosedRing coords
    · rw [forall_prop_of_true hring]
      cases harea : isArea true w.tags with
      | true =>
        simp only [hring, decide_true, if_true, harea, iff_true] at hgeog ⊢
        intro k _
        cases k <;> simp [rowsOf, Row.upper, InsertCall.row, hgeog]
      | false =>
        refine iff_of_false (fun h => ?_) Bool.noConfusion
        have harea' := h .area (by decide)
        simp [rowsOf, hring, harea] at harea'
    · refine iff_of_true (fun k _ => ?_) fun h => absurd h hring
      have hway : isArea false w.tags = false := rfl
      simp only [hring, decide_false, if_false, hway, Bool.false_eq_true] at hgeog ⊢
      cases k <;> simp [rowsOf, Row.upper, InsertCall.row, hgeog]

/-- **Ways in both paths.** From any database, any node store and any SRID, on a server that takes the
rows, `createWay` and a flush add the same rows to `ways` and `areas` as the way branch of the import, up
to the case of hex digits, exactly if the way is not a closed ring without the tags of an area. -/
theorem way_parity (h : Accepting srv) {s : Session} (hs : Idle s) (cfg : Config) (w : WayEntry) :
    ∃ sd si,
      (do DeltaApplier.createWay srv cfg.env w; DeltaApplier.flush srv : Exec Unit).run s = .done () sd ∧
      (WayThread.importWay srv cfg w).run s = .done () si ∧
      (SameWayRows s sd si ↔
        (ClosedRing (w.node_refs.filterMap s.osmmap.select) → isArea true w.tags = true)) := by
  obtain ⟨_, sd, hrund, hd⟩ := (run_createWay h hs cfg.env w).exists
  obtain ⟨_, si, hruni, hi⟩ := (run_importWay h hs cfg w).exists
  refine ⟨sd, si, hrund, hruni, ?_⟩
  rw [← rowsOf_createdCalls cfg w]
  constructor
  · intro hsame k hk
    obtain ⟨a, b, ha, hb, hab⟩ := hsame k hk
    rw [hd k hk] at ha
    rw [hi k hk] at hb
    rw [List.append_cancel_left ha, List.append_cancel_left hb, hab]
  · intro hsame k hk
    exact ⟨_, _, hd k hk, hi k hk, hsame k hk⟩

/-- A store with the corners of the triangle. -/
def cornerStore : OSMMMap :=
  [⟨1, ⟨0⟩, ⟨0⟩⟩, ⟨2, ⟨1⟩, ⟨0⟩⟩, ⟨3, ⟨1⟩, ⟨1⟩⟩].foldl OSMMMap.writeToMerged
    { noStore with merged := File.blank 176, merged_size := 176, merged_bm := File.blank 2, merged_bm_size := 2 }

theorem select_corners : [1, 2, 3, 1].filterMap cornerStore.select = triangle := by
  decide +kernel

/-- An idle client with the store. -/
def cornerSession : Session := { idleSession with osmmap := cornerStore }

theorem idle_cornerSession : Idle cornerSession := ⟨fun _ => rfl, fun _ => rfl⟩

/-- The triangle, as a building. -/
def building : WayEntry := ⟨7, [], ⟨[(str "building", str "yes")], by decide⟩, [1, 2, 3, 1]⟩

theorem way_parity_building : ∃ sd si,
    (do DeltaApplier.createWay acceptAll plainEnv building
        DeltaApplier.flush acceptAll : Exec Unit).run cornerSession = .done () sd ∧
    (WayThread.importWay acceptAll smallConfig building).run cornerSession = .done () si ∧
    SameWayRows cornerSession sd si := by
  obtain ⟨sd, si, hd, hi, hiff⟩ := way_parity accepting_acceptAll idle_cornerSession smallConfig building
  exact ⟨sd, si, hd, hi, hiff.mpr fun _ => by decide⟩

/-- The triangle without tags: a row of `areas` in the delta path, and of `ways` in the import. -/
theorem plain_ring_differs : ∃ sd si,
    (do DeltaApplier.createWay acceptAll plainEnv ⟨7, [], .none, [1, 2, 3, 1]⟩
        DeltaApplier.flush acceptAll : Exec Unit).run cornerSession = .done () sd ∧
    (WayThread.importWay acceptAll smallConfig ⟨7, [], .none, [1, 2, 3, 1]⟩).run cornerSession =
      .done () si ∧
    (sd.db.rows .area).map Row.id = [7] ∧ sd.db.rows .way = [] ∧
    si.db.rows .area = [] ∧ (si.db.rows .way).map Row.id = [7] ∧
    ¬ SameWayRows cornerSession sd si := by
  obtain ⟨_, sd, hrund, hd⟩ := (run_createWay accepting_acceptAll idle_cornerSession plainEnv
    ⟨7, [], .none, [1, 2, 3, 1]⟩).exists
  obtain ⟨_, si, hruni, hi⟩ := (run_importWay accepting_acceptAll idle_cornerSession smallConfig
    ⟨7, [], .none, [1, 2, 3, 1]⟩).exists
  have hsel : [1, 2, 3, 1].filterMap cornerSession.osmmap.select = triangle := select_corners
  dsimp only at hd hi
  rw [hsel] at hd hi
  have hway := hd .way (by decide)
  have harea := hd .area (by decide)
  have hway' := hi .way (by decide)
  have harea' := hi .area (by decide)
  have hnone : ∀ k, cornerSession.db.rows k = [] := fun _ => rfl
  rw [hnone, List.nil_append] at hway harea hway' harea'
  refine ⟨sd, si, hrund, hruni, ?_, ?_, ?_, ?_, fun h => ?_⟩
  · rw [harea]
    rfl
  · rw [hway]
    rfl
  · rw [harea']
    rfl
  · rw [hway']
    rfl
  · obtain ⟨a, b, ha, hb, hab⟩ := h .area (by decide)
    rw [hnone, List.nil_append] at ha hb
    rw [← ha, ← hb, harea, harea'] at hab
    cases hab

end OsmImport
