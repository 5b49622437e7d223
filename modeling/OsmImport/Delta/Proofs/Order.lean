import OsmImport.Db.Proofs.Settled
import OsmImport.Delta.Order
import OsmImport.Delta.Proofs.StoreInsert
import OsmImport.Store.Proofs.NodeStore

/-!
# Document order

Against a server with primary keys, a change of which nothing waits in a buffer has the effect that it
has when it takes effect at once (`apply_reaches`), on what the tables are going to be (`Session.tables`).
Flushes do not change that, so that flushing after every change or once at the end is the same.
-/

namespace OsmImport

open NavDB KeyedInsert Postgres DeltaApplier

variable {chk : Checks} {env : Env}

/-- The program ends, in a clean session with these tables. -/
abbrev Reaches (chk : Checks) (m : Exec Unit) (s : Session) (t : Tables) : Prop :=
  m.Ends s fun _ s' => Clean chk s' ∧ s'.tables chk = t

/-- The program ends in such a session, and the buffers are as they were. -/
abbrev Sends (chk : Checks) (m : Exec Unit) (s : Session) (t : Tables) : Prop :=
  m.Ends s fun _ s' => s'.nav = s.nav ∧ Clean chk s' ∧ s'.tables chk = t

theorem clean_iff_keep {s : Session} : Clean chk s ↔
    keep Row.id (chk.rowOk .node) ((s.db.rows .node).map Row.id) (s.nav.buf .node) = s.nav.buf .node ∧
      (∀ b, ∀ r ∈ s.nav.tagBuf b, chk.tagOk r = true) ∧
      ∀ r ∈ s.nav.buf .area, ∀ geog, r.geog = some geog → linearPart geog = none := by
  constructor
  · rintro ⟨hnodes, htags, hareas⟩
    exact ⟨keep_of_firstBad_none hnodes, htags, hareas⟩
  · rintro ⟨hnodes, htags, hareas⟩
    exact ⟨firstBad_of_keep hnodes, htags, hareas⟩

/-! ## Deletes and updates -/

theorem settled_delete {s : Session} {k : Kind} {id : Int64} (h : id ∉ validIds chk s k) :
    keep Row.id (chk.rowOk k) (((s.db.rows k).filter fun r => r.id != id).map Row.id) (s.nav.buf k) =
      keep Row.id (chk.rowOk k) ((s.db.rows k).map Row.id) (s.nav.buf k) := by
  apply keep_congr
  intro row hrow hok
  have hne : row.id ≠ id := by
    intro he
    exact h (List.mem_map.mpr ⟨row, List.mem_filter.mpr ⟨hrow, hok⟩, he⟩)
  simp only [List.mem_map, List.mem_filter, bne_iff_ne]
  constructor
  · rintro ⟨r, ⟨hr, -⟩, he⟩
    exact ⟨r, hr, he⟩
  · rintro ⟨r, hr, he⟩
    exact ⟨r, ⟨hr, he ▸ hne⟩, he⟩

theorem filter_keep {s : Session} {k : Kind} {id : Int64} {seen : List Int64}
    (h : id ∉ validIds chk s k) :
    (keep Row.id (chk.rowOk k) seen (s.nav.buf k)).filter (fun r => r.id != id) =
      keep Row.id (chk.rowOk k) seen (s.nav.buf k) := by
  rw [List.filter_eq_self]
  intro row hrow
  obtain ⟨hmem, hok, -⟩ := mem_keep hrow
  rw [bne_iff_ne]
  intro he
  exact h (List.mem_map.mpr ⟨row, List.mem_filter.mpr ⟨hmem, hok⟩, he⟩)

theorem deleteEntity_sends {s : Session} (hs : Clean chk s) {k : Kind} {id : Int64}
    (h : id ∉ validIds chk s k) :
    Sends chk (deleteEntity (postgres chk) id k) s ((s.tables chk).delete k id) := by
  have hsend : (deleteEntity (postgres chk) id k).run s =
      .done () (s.committed [.deleteTags k id, .delete k id] .ok) := send_postgres rfl
  apply Prog.ensures_of_run hsend
  have hrows : (s.committed [.deleteTags k id, .delete k id] .ok).db.rows =
      Function.update s.db.rows k ((s.db.rows k).filter fun r => r.id != id) := rfl
  refine ⟨rfl, ?_, ?_⟩
  · rw [clean_iff_keep] at hs ⊢
    refine ⟨?_, hs.2⟩
    rw [hrows]
    show keep _ _ _ (s.nav.buf .node) = s.nav.buf .node
    rcases eq_or_ne .node k with rfl | hk
    · rw [Function.update_self, settled_delete h, hs.1]
    · rw [Function.update_of_ne hk, hs.1]
  · refine congrArg (Tables.mk s.osmmap) (funext fun j => ?_)
    rw [Session.settled, hrows]
    show insertRows chk j _ (s.nav.buf j) = _
    rcases eq_or_ne j k with rfl | hj
    · rw [Function.update_self, Function.update_self, insertRows, settled_delete h]
      show _ = List.filter _ (s.settled chk j)
      rw [Session.settled, insertRows, List.filter_append, filter_keep h]
    · rw [Function.update_of_ne hj, Function.update_of_ne hj]
      rfl

theorem map_id_updateRow (table : List Row) (row : Row) :
    (updateRow table row).map Row.id = table.map Row.id := by
  unfold updateRow
  rw [List.map_map]
  apply List.map_congr_left
  intro r _
  show (if r.id = row.id then row else r).id = r.id
  split
  · rename_i h
    exact h.symm
  · rfl

theorem updateRow_of_not_mem {table : List Row} {row : Row} (h : row.id ∉ table.map Row.id) :
    updateRow table row = table := by
  have hid : ∀ r ∈ table, (if r.id = row.id then row else r) = r := by
    intro r hr
    rw [if_neg]
    intro he
    exact h (List.mem_map.mpr ⟨r, hr, he⟩)
  exact (List.map_congr_left hid).trans (List.map_id table)

/-- A transaction whose effect on the rows is that of an UPDATE. -/
theorem update_sends {s : Session} (hs : Clean chk s) {k : Kind} {row : Row} {txn : List Statement}
    (hc : complaints chk s.db txn = none)
    (hrows : (s.db.commit txn).rows = Function.update s.db.rows k (updateRow (s.db.rows k) row))
    (h : row.id ∉ waitingIds chk s k) :
    Sends chk (send (postgres chk) txn) s ((s.tables chk).update k row) := by
  apply Prog.ensures_of_run (send_postgres hc)
  have hids : ∀ j, ((s.db.commit txn).rows j).map Row.id = (s.db.rows j).map Row.id := by
    intro j
    rw [hrows]
    rcases eq_or_ne j k with rfl | hj
    · rw [Function.update_self, map_id_updateRow]
    · rw [Function.update_of_ne hj]
  refine ⟨rfl, ?_, ?_⟩
  · rw [clean_iff_keep] at hs ⊢
    refine ⟨?_, hs.2⟩
    show keep _ _ (((s.db.commit txn).rows .node).map Row.id) (s.nav.buf .node) = s.nav.buf .node
    rw [hids, hs.1]
  · refine congrArg (Tables.mk s.osmmap) (funext fun j => ?_)
    show (s.db.commit txn).rows j ++
      keep _ _ (((s.db.commit txn).rows j).map Row.id) (s.nav.buf j) = _
    rw [hids, hrows]
    rcases eq_or_ne j k with rfl | hj
    · rw [Function.update_self, Function.update_self]
      show _ = updateRow (s.db.rows j ++ keep _ _ _ _) row
      rw [updateRow, updateRow, List.map_append]
      exact congrArg (_ ++ ·) (updateRow_of_not_mem h).symm
    · rw [Function.update_of_ne hj, Function.update_of_ne hj]
      rfl

/-! ## Inserts -/

theorem flushed_tables {k : Kind} {s s' : Session} (h : RowsFlushed chk k s s') :
    s'.tables chk = s.tables chk := by
  rw [Session.tables, Session.tables, h.osmmap, h.settled]

theorem buffered_tables (s : Session) (k : Kind) (row : Row) (tags : Tags) :
    (s.buffered k row tags).tables chk = (s.tables chk).insert chk k row := by
  refine congrArg (Tables.mk s.osmmap) (funext fun j => ?_)
  rw [Session.settled, Session.buffered_buf, Session.buffered_db]
  rcases eq_or_ne j k with rfl | hj
  · rw [Function.update_self, Function.update_self, insertRows_append]
    rfl
  · rw [Function.update_of_ne hj, Function.update_of_ne hj]
    rfl

/-- What an insert asks for: a node that fits, and no line among the areas. -/
def Insertable (chk : Checks) (s : Session) : Kind → Row → Prop
  | .node, row => chk.rowOk .node row = true ∧ row.id ∉ (s.settled chk .node).map Row.id
  | .area, row => ∀ geog, row.geog = some geog → linearPart geog = none
  | _, _ => True

theorem buffered_clean {s : Session} (hs : Clean chk s) {k : Kind} {row : Row} {tags : Tags}
    (hrow : Insertable chk s k row) (htags : tagRowsOk chk row.id tags = true) :
    Clean chk (s.buffered k row tags) := by
  rw [clean_iff_keep] at hs ⊢
  obtain ⟨hnodes, hold, hareas⟩ := hs
  refine ⟨?_, ?_, ?_⟩
  · rw [Session.buffered_buf, Session.buffered_db]
    rcases eq_or_ne .node k with rfl | hk
    · rw [Function.update_self, keep_append, hnodes]
      have hnew : row.id ∉ (s.db.rows .node).map Row.id ++ (s.nav.buf .node).map Row.id := by
        have h := hrow.2
        rw [Session.settled, insertRows, hnodes, List.map_append] at h
        exact h
      rw [keep_singleton hrow.1 hnew]
    · rw [Function.update_of_ne hk, hnodes]
  · intro b r hr
    rw [Session.buffered_tagBuf] at hr
    rcases eq_or_ne b (bufOf k) with rfl | hb
    · rw [Function.update_self] at hr
      rcases List.mem_append.mp hr with hr | hr
      · exact hold _ r hr
      · exact List.all_eq_true.mp htags r hr
    · rw [Function.update_of_ne hb] at hr
      exact hold b r hr
  · intro r hr
    rw [Session.buffered_buf] at hr
    rcases eq_or_ne .area k with rfl | hk
    · rw [Function.update_self] at hr
      rcases List.mem_append.mp hr with hr | hr
      · exact hareas r hr
      · rw [List.mem_singleton.mp hr]
        exact hrow
    · rw [Function.update_of_ne hk] at hr
      exact hareas r hr

theorem insertInto_reaches {s : Session} (hs : Clean chk s) {k : Kind} {row : Row} {tags : Tags}
    (hrow : Insertable chk s k row) (htags : tagRowsOk chk row.id tags = true) :
    Reaches chk (insertInto (postgres chk) k row tags) s ((s.tables chk).insert chk k row) := by
  have hb : Clean chk (s.buffered k row tags) := buffered_clean hs hrow htags
  show (if full (s.buffered k row tags).nav k then flush (postgres chk) k else pure ()).Ends
    (s.buffered k row tags) _
  rw [← buffered_tables s k row tags]
  split
  · refine (flush_postgres k hb).done fun _ s' hs' => ?_
    exact ⟨hs'.clean hb, flushed_tables hs'⟩
  · exact ⟨hb, rfl⟩

/-! ## Reads -/

/-- A read of a member that waits in no buffer of ways: an area may wait, but is skipped anyway. -/
theorem linearPart_geog {s : Session} (hs : Clean chk s) {id : Int64}
    (h : id ∉ waitingIds chk s .way) :
    linearPart ((Tables.mk s.osmmap s.db.rows).geog id) = linearPart ((s.tables chk).geog id) := by
  have hway : (s.settled chk .way).filter (fun r => r.id == id) =
      (s.db.rows .way).filter fun r => r.id == id := by
    rw [Session.settled, insertRows, List.filter_append]
    have hnil : (keep Row.id (chk.rowOk .way) ((s.db.rows .way).map Row.id) (s.nav.buf .way)).filter
        (fun r => r.id == id) = [] := by
      rw [List.filter_eq_nil_iff]
      intro r hr he
      exact h (List.mem_map.mpr ⟨r, hr, by simpa using he⟩)
    rw [hnil, List.append_nil]
  obtain ⟨waiting, harea, hwaiting⟩ : ∃ waiting, (s.settled chk .area).filter (fun r => r.id == id) =
      ((s.db.rows .area).filter fun r => r.id == id) ++ waiting ∧
        ∀ r ∈ waiting, r ∈ s.nav.buf .area := by
    refine ⟨_, List.filter_append .., fun r hr => ?_⟩
    exact (mem_keep (List.mem_filter.mp hr).1).1
  show linearPart (Tables.firstGeog ((s.db.rows .way ++ s.db.rows .area).filter _)) =
    linearPart (Tables.firstGeog ((s.settled chk .way ++ s.settled chk .area).filter _))
  rw [List.filter_append, List.filter_append, hway, harea, ← List.append_assoc]
  cases (s.db.rows .way).filter (fun r => r.id == id) ++
      (s.db.rows .area).filter fun r => r.id == id with
  | cons r rest => rfl
  | nil =>
    cases waiting with
    | nil => rfl
    | cons r rest =>
      have hr := hs.areas r (hwaiting r List.mem_cons_self)
      show linearPart [] = linearPart (r.geog.getD [])
      cases hg : r.geog with
      | none => rfl
      | some geog => exact (hr geog hg).symm

/-- The program ends with this result, and the session is the same up to the run. -/
abbrev Answers {α : Type} (m : Exec α) (s : Session) (a : α) : Prop :=
  m.Ends s fun b s' => b = a ∧ s'.osmmap = s.osmmap ∧ s'.nav = s.nav ∧ s'.db = s.db

theorem getWay_answers (id : Int64) (s : Session) :
    Answers (getWay (postgres chk) id) s ((Tables.mk s.osmmap s.db.rows).geog id) := by
  have hask : (ask (postgres chk) fun db => geogs db id).run s =
      .done (some (geogs s.db id)) (s.record (.asked true)) := rfl
  apply Prog.ensures_bind
  apply Prog.ensures_of_run hask
  have hgeog : (Tables.mk s.osmmap s.db.rows).geog id = (geogs s.db id).head?.join.getD [] := by
    show Tables.firstGeog ((s.db.rows .way ++ s.db.rows .area).filter _) = _
    unfold geogs
    cases (s.db.rows .way ++ s.db.rows .area).filter fun r => r.id == id <;> rfl
  rw [hgeog]
  cases geogs s.db id with
  | nil => exact ⟨rfl, rfl, rfl, rfl⟩
  | cons geog rest => cases geog <;> exact ⟨rfl, rfl, rfl, rfl⟩

theorem memberGeoms_answers (ms : List RelationMember) (s : Session) :
    Answers (memberGeoms (postgres chk) ms) s
      ((ms.map fun m => (Tables.mk s.osmmap s.db.rows).geog m.id).filter fun g => !g.isEmpty) := by
  induction ms generalizing s with
  | nil => exact ⟨rfl, rfl, rfl, rfl⟩
  | cons m ms ih =>
    apply Prog.ensures_bind
    refine (getWay_answers m.id s).done ?_
    rintro g s₁ ⟨rfl, hmap₁, hnav₁, hdb₁⟩
    apply Prog.ensures_bind
    refine (ih s₁).done ?_
    rintro gs s₂ ⟨rfl, hmap₂, hnav₂, hdb₂⟩
    refine ⟨?_, hmap₂.trans hmap₁, hnav₂.trans hnav₁, hdb₂.trans hdb₁⟩
    rw [hmap₁, hdb₁, List.map_cons, List.filter_cons]
    cases ((Tables.mk s.osmmap s.db.rows).geog m.id).isEmpty <;> rfl

/-- A relation none of whose members waits gets the geometry that it is going to have. -/
theorem buildRelationGeom_answers {s : Session} (hs : Clean chk s) {r : RelationEntry}
    (h : ∀ m ∈ r.way_members, m.id ∉ waitingIds chk s .way) :
    Answers (buildRelationGeom (postgres chk) env r) s ((s.tables chk).relationGeom env r) := by
  apply Prog.ensures_bind
  refine (memberGeoms_answers r.way_members s).done ?_
  rintro geoms s' ⟨rfl, hsame⟩
  refine ⟨?_, hsame⟩
  have hparts : ∀ geoms : List Str,
      (geoms.filter fun g => !g.isEmpty).filterMap linearPart = geoms.filterMap linearPart := by
    intro geoms
    induction geoms with
    | nil => rfl
    | cons g geoms ih => cases g <;> simp [List.filterMap_cons, ih]
  rw [Tables.relationGeom, mergeLinestrings_eq, mergeLinestrings_eq, hparts, hparts,
    List.filterMap_map, List.filterMap_map]
  have hmembers : r.way_members.filterMap
        (linearPart ∘ fun m => (Tables.mk s.osmmap s.db.rows).geog m.id) =
      r.way_members.filterMap (linearPart ∘ fun m => (s.tables chk).geog m.id) :=
    List.filterMap_congr fun m hm => linearPart_geog hs (h m hm)
  rw [hmembers]

/-! ## Operations -/

theorem tagsOk_rows {id : Int64} {tags : Tags} (h : tagsOk chk id tags = true) :
    tagRowsOk chk id tags = true := by
  apply List.all_eq_true.mpr
  intro r hr
  obtain ⟨kv, hkv, rfl⟩ := List.mem_map.mp hr
  exact List.all_eq_true.mp h kv (List.mem_filter.mp hkv).1

theorem clean_osmmap {s : Session} (hs : Clean chk s) (m : OSMMMap) :
    Clean chk { s with osmmap := m } :=
  ⟨hs.nodes, hs.tags, hs.areas⟩

theorem createNode_reaches {s : Session} (hs : Clean chk s) {n : NodeEntry}
    (h : Accepted chk env (s.tables chk) (.node .create n)) :
    Reaches chk (createNode (postgres chk) env n) s
      ((s.tables chk).takeEffect chk env (.node .create n)) := by
  obtain ⟨htakes, h⟩ := h
  apply Prog.ensures_bind
  refine Prog.ensures_of_run (run_storeInsert htakes) ?_
  rw [insertNode_eq]
  show Prog.Ensures _ _ (fun _ s' => Clean chk s' ∧ s'.tables chk =
    if n.tags.isEmpty then _ else Tables.insert chk _ .node (nodeRow env n)) _ _
  split
  · exact ⟨clean_osmmap hs _, rfl⟩
  · rename_i htags
    obtain ⟨hok, hid, htags⟩ := h (by simpa using htags)
    exact insertInto_reaches (clean_osmmap hs _) ⟨hok, hid⟩ htags

theorem modifyNode_reaches {s : Session} (hs : Clean chk s) {n : NodeEntry}
    (h : Accepted chk env (s.tables chk) (.node .modify n))
    (hw : NotWaiting chk env s (.node .modify n)) :
    Reaches chk (modifyNode (postgres chk) env n) s
      ((s.tables chk).takeEffect chk env (.node .modify n)) := by
  obtain ⟨htakes, hok, htags⟩ := h
  apply Prog.ensures_bind
  refine Prog.ensures_of_run (run_storeInsert htakes) ?_
  apply Prog.ensures_bind
  have hrow : complaints chk s.db [.update .node (nodeRow env n)] = none := by
    simp [complaints, complaint, hok]
  have hs₀ := clean_osmmap hs (s.osmmap.inserted CHUNK_SIZE 0
    ⟨n.id, (env.toMercator n.lon n.lat).1, (env.toMercator n.lon n.lat).2⟩)
  refine (update_sends hs₀ hrow rfl hw).done fun _ s₁ hs₁ => ?_
  obtain ⟨-, hclean, htables⟩ := hs₁
  have hdiff : complaints chk s₁.db [.diffTags .node n.id n.tags] = none := by
    show (if tagsOk chk n.id n.tags then _ else _ : Option SqlError).or _ = _
    rw [htags]
    rfl
  apply Prog.ensures_of_run (send_postgres hdiff)
  exact ⟨⟨hclean.nodes, hclean.tags, hclean.areas⟩, htables⟩

theorem deleteNode_reaches {s : Session} (hs : Clean chk s) {n : NodeEntry}
    (hw : NotWaiting chk env s (.node .delete n)) :
    Reaches chk (deleteNode (postgres chk) n.id) s
      ((s.tables chk).takeEffect chk env (.node .delete n)) := by
  apply Prog.ensures_bind
  apply Prog.ensures_modify
  have hs₀ := clean_osmmap hs (s.osmmap.remove n.id)
  exact (deleteEntity_sends hs₀ hw).done fun _ s' hs' => hs'.2

/-- The geometry of an area is no line. -/
theorem insertable_way (env : Env) {s : Session} (w : WayEntry) :
    Insertable chk s (wayKind (DeltaApplier.buildWayGeom env s.osmmap w).2)
      (wayRow w (DeltaApplier.buildWayGeom env s.osmmap w).1) := by
  unfold DeltaApplier.buildWayGeom
  dsimp only
  split
  · trivial
  · cases hc : closes (w.node_refs.filterMap s.osmmap.select) &&
      decide ((w.node_refs.filterMap s.osmmap.select).length ≥ 4) with
    | false => trivial
    | true =>
      rw [Bool.and_eq_true, decide_eq_true_eq] at hc
      intro geog hgeog
      obtain rfl := Option.some.inj hgeog
      exact linearPart_polygon env.g_srid hc.2

theorem createWay_reaches {s : Session} (hs : Clean chk s) {w : WayEntry}
    (h : Accepted chk env (s.tables chk) (.way .create w)) :
    Reaches chk (createWay (postgres chk) env w) s
      ((s.tables chk).takeEffect chk env (.way .create w)) := by
  have hins : Insertable chk s _ _ := insertable_way env w
  have htags : (DeltaApplier.buildWayGeom env s.osmmap w).1 ≠ [] → tagRowsOk chk w.id w.tags = true := h
  apply Prog.ensures_get_bind
  show Prog.Ensures _ _ (fun _ s' => Clean chk s' ∧ s'.tables chk =
    if (DeltaApplier.buildWayGeom env s.osmmap w).1.isEmpty then s.tables chk
    else (s.tables chk).insert chk (wayKind (DeltaApplier.buildWayGeom env s.osmmap w).2)
      (wayRow w (DeltaApplier.buildWayGeom env s.osmmap w).1)) _ _
  generalize DeltaApplier.buildWayGeom env s.osmmap w = way at *
  obtain ⟨geom, is_closed⟩ := way
  dsimp only at *
  split
  · exact ⟨hs, rfl⟩
  · rename_i hgeom
    have hins := insertInto_reaches hs hins (htags (by simpa using hgeom))
    rw [insertArea_eq, insertWay_eq]
    cases is_closed <;> exact hins

/-- An id leaves two tables. -/
theorem deleteBoth_sends {s : Session} (hs : Clean chk s) {id : Int64} {j k : Kind}
    (hj : id ∉ validIds chk s j) (hk : id ∉ validIds chk s k) :
    Sends chk (do deleteEntity (postgres chk) id j; deleteEntity (postgres chk) id k) s
      (((s.tables chk).delete j id).delete k id) := by
  apply Prog.ensures_bind
  refine (deleteEntity_sends hs hj).done fun _ s₁ hs₁ => ?_
  obtain ⟨hnav, hclean, htables⟩ := hs₁
  rw [← htables]
  rw [validIds, ← hnav] at hk
  exact (deleteEntity_sends hclean hk).done fun _ s' hs' => ⟨hs'.1.trans hnav, hs'.2⟩

theorem waiting_valid {s : Session} {k : Kind} {id : Int64} (h : id ∉ validIds chk s k) :
    id ∉ waitingIds chk s k := by
  intro hid
  obtain ⟨row, hrow, rfl⟩ := List.mem_map.mp hid
  obtain ⟨hmem, hok, -⟩ := mem_keep hrow
  exact h (List.mem_map.mpr ⟨row, List.mem_filter.mpr ⟨hmem, hok⟩, rfl⟩)

/-- The transaction of `updateIn`. -/
theorem updateIn_sends {s : Session} (hs : Clean chk s) {k : Kind} {id : Int64} {name : Str}
    {tags : Tags} {geog : Option Str} (hok : chk.rowOk k ⟨id, name, none, geog⟩ = true)
    (htags : tagsOk chk id tags = true) (hw : id ∉ waitingIds chk s k) :
    Sends chk (updateIn (postgres chk) k id name tags geog) s
      ((s.tables chk).update k ⟨id, name, none, geog⟩) := by
  have hc : complaints chk s.db [.update k ⟨id, name, none, geog⟩, .diffTags k id tags] = none := by
    show (if chk.rowOk k _ then none else some _).or
      ((if tagsOk chk id tags then none else some _ : Option SqlError).or none) = none
    rw [hok, htags]
    rfl
  exact update_sends hs hc rfl hw

theorem modifyWay_reaches {s : Session} (hs : Clean chk s) {w : WayEntry}
    (h : Accepted chk env (s.tables chk) (.way .modify w))
    (hw : NotWaiting chk env s (.way .modify w)) :
    Reaches chk (modifyWay (postgres chk) env w) s
      ((s.tables chk).takeEffect chk env (.way .modify w)) := by
  have hok : (DeltaApplier.buildWayGeom env s.osmmap w).1 ≠ [] →
    chk.rowOk (wayKind (DeltaApplier.buildWayGeom env s.osmmap w).2)
      (wayRow w (DeltaApplier.buildWayGeom env s.osmmap w).1) = true ∧
        tagsOk chk w.id w.tags = true := h
  have hout : (DeltaApplier.buildWayGeom env s.osmmap w).1 ≠ [] →
    w.id ∉ validIds chk s .way ∧ w.id ∉ validIds chk s .area := hw
  clear h hw
  apply Prog.ensures_get_bind
  show Prog.Ensures _ _ (fun _ s' => Clean chk s' ∧ s'.tables chk =
    if (DeltaApplier.buildWayGeom env s.osmmap w).1.isEmpty then s.tables chk
    else (((s.tables chk).delete .way w.id).delete .area w.id).update
      (wayKind (DeltaApplier.buildWayGeom env s.osmmap w).2)
      (wayRow w (DeltaApplier.buildWayGeom env s.osmmap w).1)) _ _
  generalize DeltaApplier.buildWayGeom env s.osmmap w = way at *
  obtain ⟨geom, is_closed⟩ := way
  dsimp only at *
  split
  · exact ⟨hs, rfl⟩
  · rename_i hgeom
    have hne : geom ≠ [] := by simpa using hgeom
    obtain ⟨hok, htags⟩ := hok hne
    obtain ⟨hway, harea⟩ := hout hne
    apply Prog.ensures_bind
    refine (deleteEntity_sends hs hway).done fun _ s₁ hs₁ => ?_
    obtain ⟨hnav₁, hclean₁, htables₁⟩ := hs₁
    rw [validIds, ← hnav₁] at hway harea
    apply Prog.ensures_bind
    refine (deleteEntity_sends hclean₁ harea).done fun _ s₂ hs₂ => ?_
    obtain ⟨hnav₂, hclean₂, htables₂⟩ := hs₂
    rw [← hnav₂] at hway harea
    rw [← htables₁, ← htables₂]
    cases is_closed with
    | false =>
      exact (updateIn_sends hclean₂ hok htags (waiting_valid hway)).done fun _ s' hs' => hs'.2
    | true =>
      exact (updateIn_sends hclean₂ hok htags (waiting_valid harea)).done fun _ s' hs' => hs'.2

theorem insertRoad_reaches {s : Session} (hs : Clean chk s) {r : RelationEntry} (geom : Str)
    (htags : tagRowsOk chk r.id r.tags = true) :
    Reaches chk (if isRoad r.tags && !geom.isEmpty then
        insertRoad (postgres chk) r.id r.name r.tags geom else pure ()) s
      ((s.tables chk).insertRoad chk r geom) := by
  rw [Tables.insertRoad]
  split
  · rw [insertRoad_eq]
    exact insertInto_reaches hs trivial htags
  · exact ⟨hs, rfl⟩

/-- A session that differs in the run only. -/
theorem same_clean {s s' : Session} (hs : Clean chk s) (hmap : s'.osmmap = s.osmmap)
    (hnav : s'.nav = s.nav) (hdb : s'.db = s.db) :
    Clean chk s' ∧ s'.tables chk = s.tables chk := by
  refine ⟨⟨?_, ?_, ?_⟩, ?_⟩
  · rw [hnav, hdb]
    exact hs.nodes
  · rw [hnav]
    exact hs.tags
  · rw [hnav]
    exact hs.areas
  · unfold Session.tables Session.settled
    rw [hmap, hnav, hdb]

theorem createRelation_reaches {s : Session} (hs : Clean chk s) {r : RelationEntry}
    (h : Accepted chk env (s.tables chk) (.relation .create r))
    (hw : NotWaiting chk env s (.relation .create r)) :
    Reaches chk (createRelation (postgres chk) env r) s
      ((s.tables chk).takeEffect chk env (.relation .create r)) := by
  have htags : tagRowsOk chk r.id r.tags = true := h
  apply Prog.ensures_bind
  refine (buildRelationGeom_answers hs hw).done ?_
  rintro geom s₁ ⟨hgeom, hmap, hnav, hdb⟩
  obtain ⟨hclean₁, htables₁⟩ := same_clean hs hmap hnav hdb
  have heffect : (s.tables chk).takeEffect chk env (.relation .create r) =
      ((s₁.tables chk).insert chk .relation (relationRow r geom)).insertRoad chk r geom := by
    rw [hgeom, htables₁]
    rfl
  rw [heffect]
  apply Prog.ensures_bind
  rw [insertRelation_eq]
  have hins : Insertable chk s₁ .relation (relationRow r geom) := trivial
  refine (insertInto_reaches hclean₁ hins htags).done fun _ s₂ hs₂ => ?_
  rw [← hs₂.2]
  exact insertRoad_reaches hs₂.1 geom htags

theorem modifyRelation_reaches {s : Session} (hs : Clean chk s) {r : RelationEntry}
    (h : Accepted chk env (s.tables chk) (.relation .modify r))
    (hw : NotWaiting chk env s (.relation .modify r)) :
    Reaches chk (modifyRelation (postgres chk) env r) s
      ((s.tables chk).takeEffect chk env (.relation .modify r)) := by
  obtain ⟨hok, htags⟩ := h
  obtain ⟨hmembers, hrelation, hroad⟩ := hw
  apply Prog.ensures_bind
  refine (buildRelationGeom_answers hs hmembers).done ?_
  rintro geom s₁ ⟨hgeom, hmap, hnav, hdb⟩
  obtain ⟨hclean₁, htables₁⟩ := same_clean hs hmap hnav hdb
  have heffect : (s.tables chk).takeEffect chk env (.relation .modify r) =
      (((s₁.tables chk).update .relation (relationRow r geom)).delete .road r.id).insertRoad
        chk r geom := by
    rw [hgeom, htables₁]
    rfl
  rw [← hgeom] at hok
  rw [waitingIds, ← hdb, ← hnav] at hrelation
  rw [heffect]
  apply Prog.ensures_bind
  refine (updateIn_sends hclean₁ hok htags hrelation).done fun _ s₂ hs₂ => ?_
  obtain ⟨hnav₂, hclean₂, htables₂⟩ := hs₂
  rw [validIds, ← hnav, ← hnav₂] at hroad
  apply Prog.ensures_bind
  refine (deleteEntity_sends hclean₂ hroad).done fun _ s₃ hs₃ => ?_
  obtain ⟨-, hclean₃, htables₃⟩ := hs₃
  rw [htables₂] at htables₃
  have hreach := insertRoad_reaches hclean₃ (r := r) geom (tagsOk_rows htags)
  rw [htables₃] at hreach
  exact hreach

theorem deleteRelation_reaches {s : Session} (hs : Clean chk s) {r : RelationEntry}
    (hw : NotWaiting chk env s (.relation .delete r)) :
    Reaches chk (deleteRelation (postgres chk) r.id) s
      ((s.tables chk).takeEffect chk env (.relation .delete r)) := by
  obtain ⟨hrelation, hroad⟩ := hw
  exact (deleteBoth_sends hs hrelation hroad).done fun _ s' hs' => hs'.2

/-- A change of which nothing waits has the effect that it has when it takes effect at once. -/
theorem apply_reaches {s : Session} (hs : Clean chk s) {c : OSCChange}
    (h : Accepted chk env (s.tables chk) c) (hw : NotWaiting chk env s c) :
    Reaches chk (apply (postgres chk) env c) s ((s.tables chk).takeEffect chk env c) := by
  apply Prog.ensures_bind
  apply Prog.ensures_modify
  have hs : Clean chk (s.record (.change c)) := ⟨hs.nodes, hs.tags, hs.areas⟩
  rcases c with ⟨_ | _ | _, n⟩ | ⟨_ | _ | _, w⟩ | ⟨_ | _ | _, r⟩
  · exact createNode_reaches hs h
  · exact modifyNode_reaches hs h hw
  · exact deleteNode_reaches hs hw
  · exact createWay_reaches hs h
  · exact modifyWay_reaches hs h hw
  · exact (deleteBoth_sends hs hw.1 hw.2).done fun _ s' hs' => hs'.2
  · exact createRelation_reaches hs h hw
  · exact modifyRelation_reaches hs h hw
  · exact deleteRelation_reaches hs hw

/-! ## Runs -/

/-- A clean session with these tables and with some buffers empty. -/
def Emptied (chk : Checks) (t : Tables) (ks : List Kind) (s : Session) : Prop :=
  Clean chk s ∧ s.tables chk = t ∧ ∀ k ∈ ks, s.nav.buf k = []

theorem flush_emptied {t : Tables} {ks : List Kind} (k : Kind) {s : Session}
    (h : Emptied chk t ks s) :
    (flush (postgres chk) k).Ends s fun _ => Emptied chk t (k :: ks) := by
  obtain ⟨hclean, htables, hempty⟩ := h
  refine (flush_postgres k hclean).done fun _ s' hs' => ?_
  refine ⟨hs'.clean hclean, (flushed_tables hs').trans htables, ?_⟩
  intro j hj
  rw [hs'.buf]
  rcases eq_or_ne j k with rfl | hne
  · exact Function.update_self ..
  · rw [Function.update_of_ne hne]
    exact hempty j ((List.mem_cons.mp hj).resolve_left hne)

/-- `flushAll` leaves no row in a buffer. -/
theorem flushAll_ends {s : Session} (hs : Clean chk s) :
    (flushAll (postgres chk)).Ends s fun _ s' =>
      Clean chk s' ∧ s'.tables chk = s.tables chk ∧ ∀ k, s'.nav.buf k = [] := by
  have h₀ : Emptied chk (s.tables chk) [] s := ⟨hs, rfl, fun _ hk => absurd hk List.not_mem_nil⟩
  apply Prog.ensures_bind
  refine (flush_emptied .node h₀).done fun _ s₁ h₁ => ?_
  apply Prog.ensures_bind
  apply Prog.ensures_bind
  refine (flush_emptied .way h₁).done fun _ s₂ h₂ => ?_
  refine (flush_emptied .area h₂).done fun _ s₃ h₃ => ?_
  apply Prog.ensures_bind
  refine (flush_emptied .road h₃).done fun _ s₄ h₄ => ?_
  refine (flush_emptied .relation h₄).done fun _ s₅ h₅ => ?_
  obtain ⟨hclean, htables, hempty⟩ := h₅
  refine ⟨hclean, htables, fun k => hempty k ?_⟩
  cases k <;> simp

/-- The batched changes leave behind what they leave when they take effect at once. -/
theorem batched_reaches {cs : List OSCChange} {s : Session} (hs : Clean chk s)
    (h : InOrder chk env cs s) :
    Reaches chk (Prog.forEach cs (apply (postgres chk) env)) s
      (cs.foldl (Tables.takeEffect chk env) (s.tables chk)) := by
  induction cs generalizing s with
  | nil => exact ⟨hs, rfl⟩
  | cons c cs ih =>
    obtain ⟨hok, hw, hnext⟩ := h
    apply Prog.ensures_bind
    refine (apply_reaches hs hok hw).withRun.done ?_
    rintro _ s' ⟨⟨hclean, htables⟩, hrun⟩
    rw [List.foldl_cons, ← htables]
    exact ih hclean (hnext s' hrun)

theorem notWaiting_of_empty {s : Session} (h : ∀ k, s.nav.buf k = []) (c : OSCChange) :
    NotWaiting chk env s c := by
  have hvalid : ∀ k id, id ∉ validIds chk s k := by
    intro k id
    rw [validIds, h k]
    exact List.not_mem_nil
  rcases c with ⟨_ | _ | _, n⟩ | ⟨_ | _ | _, w⟩ | ⟨_ | _ | _, r⟩
  · trivial
  · exact waiting_valid (hvalid _ _)
  · exact hvalid _ _
  · trivial
  · exact fun _ => ⟨hvalid _ _, hvalid _ _⟩
  · exact ⟨hvalid _ _, hvalid _ _⟩
  · exact fun _ _ => waiting_valid (hvalid _ _)
  · exact ⟨fun _ _ => waiting_valid (hvalid _ _), waiting_valid (hvalid _ _), hvalid _ _⟩
  · exact ⟨hvalid _ _, hvalid _ _⟩

/-- So do the changes with a flush behind each; `s` runs ahead with the batched ones. -/
theorem each_reaches {cs : List OSCChange} {s u : Session} (hs : Clean chk s)
    (h : InOrder chk env cs s) (hu : Clean chk u) (hempty : ∀ k, u.nav.buf k = [])
    (heq : u.tables chk = s.tables chk) :
    (applyEach (postgres chk) env cs).Ends u fun _ u' =>
      u'.tables chk = cs.foldl (Tables.takeEffect chk env) (s.tables chk) ∧
        ∀ k, u'.nav.buf k = [] := by
  induction cs generalizing s u with
  | nil => exact ⟨heq, hempty⟩
  | cons c cs ih =>
    obtain ⟨hok, hw, hnext⟩ := h
    obtain ⟨_, s', hrun, hclean, htables⟩ := (apply_reaches hs hok hw).exists
    rw [List.foldl_cons, ← htables]
    apply Prog.ensures_bind
    apply Prog.ensures_bind
    refine (apply_reaches hu (heq ▸ hok) (notWaiting_of_empty hempty c)).done fun _ u₁ hu₁ => ?_
    refine (flushAll_ends hu₁.1).done fun _ u₂ hu₂ => ?_
    obtain ⟨hclean₂, htables₂, hempty₂⟩ := hu₂
    refine ih hclean (hnext s' hrun) hclean₂ hempty₂ ?_
    rw [htables₂, hu₁.2, htables, heq]

theorem rows_of_empty (chk : Checks) {s : Session} (h : ∀ k, s.nav.buf k = []) :
    s.db.rows = (s.tables chk).rows := by
  funext k
  show _ = s.settled chk k
  rw [Session.settled, h k, insertRows_nil]

/-- **Document order.** A list of changes is applied to any database, and none of them meets a row that
waits in a buffer: then a flush at the end and a flush behind every change leave the same rows in the
five tables, those of the changes taking effect one after the other. -/
theorem document_order (chk : Checks) (env : Env) (osmmap : OSMMMap) (thread_id : ℕ) (db : Database)
    (cs : List OSCChange) (h : InOrder chk env cs (Session.opened osmmap thread_id db)) :
    ∃ s₁ s₂,
      (applyBatched (postgres chk) env cs).run (Session.opened osmmap thread_id db) = .done () s₁ ∧
      (applyEach (postgres chk) env cs).run (Session.opened osmmap thread_id db) = .done () s₂ ∧
      s₁.db.rows = s₂.db.rows ∧
      s₁.db.rows = (cs.foldl (Tables.takeEffect chk env) ⟨osmmap, db.rows⟩).rows := by
  set s := Session.opened osmmap thread_id db with hs_def
  have hs : Clean chk s :=
    ⟨rfl, fun _ _ hr => absurd hr List.not_mem_nil, fun _ hr => absurd hr List.not_mem_nil⟩
  have hempty : ∀ k, s.nav.buf k = [] := fun _ => rfl
  have htables : s.tables chk = ⟨osmmap, db.rows⟩ :=
    congrArg (Tables.mk osmmap) (rows_of_empty chk hempty).symm
  have hbatched : (applyBatched (postgres chk) env cs).Ends s fun _ s' =>
      s'.tables chk = cs.foldl (Tables.takeEffect chk env) (s.tables chk) ∧
        ∀ k, s'.nav.buf k = [] := by
    apply Prog.ensures_bind
    refine (batched_reaches hs h).done fun _ s₁ hs₁ => ?_
    exact (flushAll_ends hs₁.1).done fun _ s₂ hs₂ => ⟨hs₂.2.1.trans hs₁.2, hs₂.2.2⟩
  obtain ⟨_, s₁, hrun₁, htables₁, hempty₁⟩ := hbatched.exists
  obtain ⟨_, s₂, hrun₂, htables₂, hempty₂⟩ := (each_reaches hs h hs hempty rfl).exists
  refine ⟨s₁, s₂, hrun₁, hrun₂, ?_, ?_⟩
  · rw [rows_of_empty chk hempty₁, rows_of_empty chk hempty₂, htables₁, htables₂]
  · rw [rows_of_empty chk hempty₁, htables₁, htables]

/-- The tag `amenity=bench`. -/
def benchTag : Tags := ⟨[(str "amenity", str "bench")], by decide⟩

/-- A node of that kind. -/
def bench (id : Int64) : NodeEntry := ⟨id, [], benchTag, ⟨1⟩, ⟨2⟩⟩

/-- An empty database. -/
def emptyDb : Database := ⟨fun _ => [], fun _ => [], none⟩

/-- A new store for the ids up to 10, with one shard. -/
def newStore : OSMMMap := OSMMMap.blankStore .plain OSMMMap.emptyDisk 10 1

theorem document_order_two_nodes :
    ∃ s₁ s₂,
      (applyBatched (postgres .any) plainEnv
        [.node .create (bench 7), .node .delete (bench 8)]).run (Session.opened newStore 0 emptyDb) =
          .done () s₁ ∧
      (applyEach (postgres .any) plainEnv
        [.node .create (bench 7), .node .delete (bench 8)]).run (Session.opened newStore 0 emptyDb) =
          .done () s₂ ∧
      s₁.db.rows = s₂.db.rows ∧
      s₁.db.rows = (List.foldl (Tables.takeEffect .any plainEnv) ⟨newStore, emptyDb.rows⟩
        [.node .create (bench 7), .node .delete (bench 8)]).rows := by
  apply document_order
  have htakes : newStore.Takes 0 7 :=
    OSMMMap.takes_of_roomy (OSMMMap.roomy_plain 1) (by decide) (by decide)
  refine ⟨⟨htakes, fun _ => by decide⟩, trivial, fun s' hs' => ?_⟩
  injection (hs' : Outcome.done () _ = Outcome.done () s') with _ hs'
  subst hs'
  have hvalid : (8 : Int64) ∉ [(bench 7).id] := by decide
  exact ⟨trivial, hvalid, fun _ _ => trivial⟩

/-- A node is created and deleted: the row leaves its buffer behind the DELETE, and stays. -/
theorem deleted_node_stays :
    ∃ s₁ s₂,
      (applyBatched (postgres .any) plainEnv
        [.node .create (bench 7), .node .delete (bench 7)]).run (Session.opened newStore 0 emptyDb) =
          .done () s₁ ∧
      (applyEach (postgres .any) plainEnv
        [.node .create (bench 7), .node .delete (bench 7)]).run (Session.opened newStore 0 emptyDb) =
          .done () s₂ ∧
      s₁.db.rows .node = [nodeRow plainEnv (bench 7)] ∧ s₂.db.rows .node = [] :=
  ⟨_, _, rfl, rfl, rfl, rfl⟩

end OsmImport
