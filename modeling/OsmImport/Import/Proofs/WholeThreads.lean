import OsmImport.Import.Proofs.TagAccounts

/-!
# The threads from beginning to end

A node thread that has ended has committed the rows and tags of the nodes that it stored, a way thread
those of all its inserts.
-/

namespace OsmImport

open NavDB

theorem Session.flushAll_empty {s : Session} {ks : List Kind} (h : ∀ k ∈ ks, s.nav.buf k = []) :
    s.flushAll ks = s := by
  induction ks with
  | nil => rfl
  | cons k ks ih =>
    obtain ⟨hk, hrest⟩ := List.forall_mem_cons.mp h
    show (s.flushed k).flushAll ks = s
    rw [flushed_empty hk]
    exact ih hrest

theorem tagsTo_perform {P : Kind → Prop} {nav : NavDB} {code : Exec Unit} {s : Session}
    (h : code.run (Session.alone nav) = .done () s) (hs : TagsTo P (transactions s.log)) :
    TagsTo P (nav.perform code).2 := by
  rw [perform_of_run h]
  exact hs

/-! ## Node threads -/

/-- Behind `finalize`. -/
def NodePc.finalized : NodePc → Bool
  | .arriving | .waiting _ | .destroying | .done => true
  | _ => false

namespace NodeThread

variable {cfg : Config} {t₀ t : NodeThread} {acts : List Act}

theorem run_insertItem_eq (cfg : Config) (n : NodeEntry) (s : Session) :
    (insertItem cfg n).run s =
      .done () (if n.tags.isEmpty then s else s.inserted .node (row cfg n) n.tags) := by
  unfold insertItem
  dsimp only
  rw [insertNode_eq]
  split
  · rfl
  · exact insertInto_accepting accepting_acceptAll ..

/-- What a node brings to an account. -/
def gain {α : Type} (cfg : Config) (a : KeptAccount α) (n : NodeEntry) : List α :=
  if n.tags.isEmpty then [] else a.gain .node (row cfg n) n.tags

/-- What the nodes bring is committed, or on its way. -/
theorem conserved_nodes {α : Type} (a : KeptAccount α) (h : Trace (Step cfg) t₀ acts t) :
    WayThread.takesOut a acts ++ underway a t =
      underway a t₀ ++ (acts.filterMap Act.stored).flatMap (gain cfg a) := by
  induction h with
  | nil => exact (List.append_nil _).symm
  | @snoc acts t t' act h hs ih =>
    have hcall : ∀ {code : Exec Unit} {s : Session} {pc : NodePc} {extra : List α}, t.outbox = [] →
        code.run (Session.alone t.nav) = .done () s → a.total s = a.total (Session.alone t.nav) ++ extra →
          underway a (t.call code pc) = underway a t ++ extra := by
      intro code s pc extra hout hrun htotal
      have hleft := a.perform hrun htotal
      rw [underway, underway, hout]
      exact hleft
    have hstep : act.stored = none → WayThread.takesOut a [act] ++ underway a t' = underway a t →
        WayThread.takesOut a (acts ++ [act]) ++ underway a t' =
          underway a t₀ ++ ((acts ++ [act]).filterMap Act.stored).flatMap (gain cfg a) := by
      intro hst hsame
      rw [WayThread.takesOut_append, List.append_assoc, hsame, ih, List.filterMap_append,
        List.filterMap_cons_none hst, List.filterMap_nil, List.append_nil]
    have hflush : ∀ {code : Exec Unit} {s : Session} {pc : NodePc}, t.outbox = [] →
        code.run (Session.alone t.nav) = .done () s → a.total s = a.total (Session.alone t.nav) →
          underway a (t.call code pc) = underway a t := by
      intro code s pc hout hrun htotal
      rw [hcall hout hrun (htotal.trans (List.append_nil _).symm), List.append_nil]
    cases hs with
    | @commit txn rest ho =>
      refine hstep rfl ?_
      rw [underway, underway, ho, List.flatMap_cons, List.append_assoc]
      simp [WayThread.takesOut, Act.committed]
    | @store n ho _ =>
      have hgain : a.total (if n.tags.isEmpty then Session.alone t.nav
          else (Session.alone t.nav).inserted .node (row cfg n) n.tags) =
            a.total (Session.alone t.nav) ++ gain cfg a n := by
        unfold gain
        split
        · exact (List.append_nil _).symm
        · exact a.inserted ..
      rw [WayThread.takesOut_append, show WayThread.takesOut a [Act.store n (record cfg n)] = [] from rfl,
        List.append_nil, hcall ho (run_insertItem_eq cfg n _) hgain, ← List.append_assoc, ih,
        List.append_assoc, List.filterMap_append, List.flatMap_append]
      simp [Act.stored]
    | finalize ho _ => exact hstep rfl (hflush ho (run_finalize _) ((a.tagsFlushed ..).trans (a.flushed ..)))
    | destroy ho _ => exact hstep rfl (hflush ho (run_destroy accepting_acceptAll _) (a.flushAll ..))
    | _ => exact hstep rfl rfl

/-- Nothing but nodes is in the buffers, so the destructor has to flush no other table. -/
theorem OnlyNodes.buf (h : OnlyNodes t) {k : Kind} (hk : k ≠ .node) : t.nav.buf k = [] :=
  (List.append_eq_nil_iff.mp (h.rows k hk)).2

/-- Behind `finalize` the buffers of the nodes and of their tags are empty. -/
theorem emptied (h₀ : t₀.OnlyNodes) (hpc : t₀.pc = .pop) (h : Trace (Step cfg) t₀ acts t)
    (hf : t.pc.finalized = true) : t.nav.buf .node = [] ∧ t.nav.tagBuf .shared = [] := by
  induction h with
  | nil =>
    rw [hpc] at hf
    cases hf
  | @snoc acts t t' act h hs ih =>
    cases hs with
    | commit _ => exact ih hf
    | finalize _ _ =>
      show (t.nav.perform _).1.buf .node = [] ∧ (t.nav.perform _).1.tagBuf .shared = []
      rw [perform_of_run (run_finalize _)]
      dsimp only
      rw [Session.tagsFlushed_frame.1, Session.flushed_buf, Session.tagsFlushed_tagBuf]
      exact ⟨Function.update_self .., Function.update_self ..⟩
    | arrive _ _ harriving => exact ih (by rw [harriving]; rfl)
    | wake _ hwaiting => exact ih (by rw [hwaiting]; rfl)
    | destroy _ hdestroying =>
      have hempty := ih (by rw [hdestroying]; rfl)
      have honly := (onlyNodes h₀ h).1
      show (t.nav.perform _).1.buf .node = [] ∧ (t.nav.perform _).1.tagBuf .shared = []
      rw [perform_of_run (run_destroy accepting_acceptAll _), Session.flushAll_empty]
      · exact hempty
      · intro k _
        by_cases hk : k = .node
        · subst hk
          exact hempty.1
        · exact honly.buf hk
    | _ => cases hf

/-- A node thread sends tags to `node_tags` only. -/
theorem tagsTo_node (h₀ : t₀.OnlyNodes) (hout : t₀.outbox = []) (h : Trace (Step cfg) t₀ acts t) :
    TagsTo (· = .node) (acts.filterMap Act.committed ++ t.outbox) := by
  induction h with
  | nil =>
    rw [hout]
    exact nofun
  | @snoc acts t t' act h hs ih =>
    have honly := (onlyNodes h₀ h).1
    have hcall : act.committed = none → TagsTo (· = .node) t'.outbox →
        TagsTo (· = .node) ((acts ++ [act]).filterMap Act.committed ++ t'.outbox) := by
      intro hc hsent
      rw [List.filterMap_append, List.filterMap_cons_none hc, List.filterMap_nil, List.append_nil]
      exact tagsTo_append.mpr ⟨(tagsTo_append.mp ih).1, hsent⟩
    have hquiet : act.committed = none → t'.outbox = t.outbox →
        TagsTo (· = .node) ((acts ++ [act]).filterMap Act.committed ++ t'.outbox) :=
      fun hc hsame => hcall hc (hsame ▸ (tagsTo_append.mp ih).2)
    cases hs with
    | @commit txn rest ho =>
      rw [ho] at ih
      rw [List.filterMap_append, List.filterMap_cons_some (show (Act.commit txn).committed = some txn from rfl),
        List.filterMap_nil, List.append_assoc]
      exact ih
    | store _ _ =>
      refine hcall rfl (tagsTo_perform (run_insertItem_eq cfg _ _) ?_)
      split
      · exact tagsTo_alone _ _
      · exact Session.tagsTo_inserted (P := (· = .node)) (tagsTo_alone _ _) rfl _ _
    | finalize _ _ =>
      refine hcall rfl (tagsTo_perform (run_finalize _) ?_)
      have hflushed := Session.tagsTo_flushed (P := (· = .node)) (k := .node)
        (tagsTo_alone _ t.nav) (.inl rfl)
      exact Session.tagsTo_tagsFlushed hflushed rfl
    | destroy _ _ =>
      refine hcall rfl (tagsTo_perform (run_destroy accepting_acceptAll _) ?_)
      refine Session.tagsTo_flushAll (tagsTo_alone _ _) fun k _ => ?_
      by_cases hk : k = .node
      · exact .inl hk
      · exact .inr (honly.buf hk)
    | _ => exact hquiet rfl rfl

/-- When it has ended, a node thread has committed what its nodes brought. -/
theorem committed_of_ended {i : ℕ} (h : Trace (Step cfg) ⟨.pop, NavDB.fresh i, []⟩ acts t) (hend : t.Ended) :
    WayThread.takesOut (rowAccount .node) acts = (acts.filterMap Act.stored).flatMap (rowsFor cfg) ∧
      WayThread.takesOut (tagAccount .shared) acts = (acts.filterMap Act.stored).flatMap tagsFor := by
  obtain ⟨hdone, hout⟩ := hend
  obtain ⟨hbuf, htags⟩ := emptied (onlyNodes_fresh i) rfl h (by rw [hdone]; rfl)
  have hrows := conserved_nodes (rowAccount .node) h
  have htagRows := conserved_nodes (tagAccount .shared) h
  rw [underway, hout] at hrows htagRows
  replace hrows : WayThread.takesOut (rowAccount .node) acts ++ t.nav.buf .node =
    (acts.filterMap Act.stored).flatMap (gain cfg (rowAccount .node)) := hrows
  replace htagRows : WayThread.takesOut (tagAccount .shared) acts ++ t.nav.tagBuf .shared =
    (acts.filterMap Act.stored).flatMap (gain cfg (tagAccount .shared)) := htagRows
  rw [hbuf, List.append_nil] at hrows
  rw [htags, List.append_nil] at htagRows
  exact ⟨hrows, htagRows⟩

end NodeThread

/-! ## Way threads -/

namespace WayThread

variable {cfg : Config} {t₀ t : WayThread} {acts : List Act}

theorem coupledTo (b : TagBuf) (h₀ : t₀.Inserting) (hc : t₀.nav.CoupledTo b)
    (h : Trace (Step cfg) t₀ acts t) : t.nav.CoupledTo b := by
  induction h with
  | nil => exact hc
  | @snoc acts t t' act h hs ih =>
    have hflush : ∀ {code : Exec Unit} {ks : List Kind} {pc : WayPc},
        code.run (Session.alone t.nav) = .done () ((Session.alone t.nav).flushAll ks) →
          (t.call code pc).nav.CoupledTo b := by
      intro code ks pc hrun
      show (t.nav.perform code).1.CoupledTo b
      rw [perform_of_run hrun]
      exact Session.coupledTo_flushAll ih ks
    cases hs with
    | @insert entry c calls _ hpc =>
      have hkind : c.kind ≠ .node := (inserting h₀ h).calls c (by rw [hpc]; exact List.mem_cons_self)
      show (t.nav.perform _).1.CoupledTo b
      rw [perform_of_run (run_insertCall accepting_acceptAll hkind _)]
      exact Session.coupledTo_inserted (s := Session.alone t.nav) ih _ _ _
    | inserted _ _ => exact hflush (run_finalize_roads accepting_acceptAll _)
    | finalizeWays _ _ => exact hflush (run_finalize_ways accepting_acceptAll _)
    | finalizeRelations _ _ => exact hflush (run_finalize_relations accepting_acceptAll _)
    | destroy _ _ => exact hflush (run_destroy accepting_acceptAll _)
    | _ => exact ih

/-- A way thread inserts no nodes. -/
theorem buf_node (h₀ : t₀.Inserting) (hbuf : t₀.nav.buf .node = []) (hout : t₀.outbox = [])
    (h : Trace (Step cfg) t₀ acts t) :
    t.nav.buf .node = [] ∧ takesOut (rowAccount .node) acts = [] := by
  have hkinds : ∀ c ∈ acts.filterMap Act.inserted, c.kind ≠ .node := by
    refine h.invariant (I := fun tr _ => ∀ c ∈ tr.filterMap Act.inserted, c.kind ≠ .node) nofun ?_
    intro tr t a t' htr ih hs c hc
    rw [List.filterMap_append] at hc
    rcases List.mem_append.mp hc with hc | hc
    · exact ih c hc
    · cases hs with
      | insert _ hpc =>
        obtain rfl := List.mem_singleton.mp hc
        exact (inserting h₀ htr).calls c (by rw [hpc]; exact List.mem_cons_self)
      | _ => cases hc
  have hall := conserved (rowAccount .node) h₀ h
  have hnone : gains (rowAccount .node) (acts.filterMap Act.inserted) = [] := by
    rw [gains_rowAccount, rowsOf, List.map_eq_nil_iff, List.filter_eq_nil_iff]
    exact fun c hc => by simpa using hkinds c hc
  have hstart : underway (rowAccount .node) t₀ = [] := by
    rw [underway, hout]
    exact hbuf
  rw [hnone, hstart] at hall
  obtain ⟨htaken, hunder⟩ := List.append_eq_nil_iff.mp hall
  exact ⟨(List.append_eq_nil_iff.mp hunder).2, htaken⟩

/-- A way thread sends tags to the other tag tables only. -/
theorem tagsTo_other (h₀ : t₀.Inserting) (hbuf : t₀.nav.buf .node = []) (hout : t₀.outbox = [])
    (h : Trace (Step cfg) t₀ acts t) :
    TagsTo (· ≠ .node) (acts.filterMap Act.committed ++ t.outbox) := by
  induction h with
  | nil =>
    rw [hout]
    exact nofun
  | @snoc acts t t' act h hs ih =>
    have hnode := (buf_node h₀ hbuf hout h).1
    have hcall : act.committed = none → TagsTo (· ≠ .node) t'.outbox →
        TagsTo (· ≠ .node) ((acts ++ [act]).filterMap Act.committed ++ t'.outbox) := by
      intro hc hsent
      rw [List.filterMap_append, List.filterMap_cons_none hc, List.filterMap_nil, List.append_nil]
      exact tagsTo_append.mpr ⟨(tagsTo_append.mp ih).1, hsent⟩
    have hquiet : act.committed = none → t'.outbox = t.outbox →
        TagsTo (· ≠ .node) ((acts ++ [act]).filterMap Act.committed ++ t'.outbox) :=
      fun hc hsame => hcall hc (hsame ▸ (tagsTo_append.mp ih).2)
    have hflush : ∀ {code : Exec Unit} {ks : List Kind},
        code.run (Session.alone t.nav) = .done () ((Session.alone t.nav).flushAll ks) →
          TagsTo (· ≠ .node) (t.nav.perform code).2 := by
      intro code ks hrun
      refine tagsTo_perform hrun (Session.tagsTo_flushAll (tagsTo_alone _ _) fun k _ => ?_)
      by_cases hk : k = .node
      · subst hk
        exact .inr hnode
      · exact .inl hk
    cases hs with
    | @commit txn rest ho =>
      rw [ho] at ih
      rw [List.filterMap_append, List.filterMap_cons_some (show (Act.commit txn).committed = some txn from rfl),
        List.filterMap_nil, List.append_assoc]
      exact ih
    | @insert entry c calls _ hpc =>
      have hkind : c.kind ≠ .node := (inserting h₀ h).calls c (by rw [hpc]; exact List.mem_cons_self)
      refine hcall rfl (tagsTo_perform (run_insertCall accepting_acceptAll hkind _) ?_)
      exact Session.tagsTo_inserted (P := (· ≠ .node)) (tagsTo_alone _ _) hkind _ _
    | inserted _ _ => exact hcall rfl (hflush (run_finalize_roads accepting_acceptAll _))
    | finalizeWays _ _ => exact hcall rfl (hflush (run_finalize_ways accepting_acceptAll _))
    | finalizeRelations _ _ => exact hcall rfl (hflush (run_finalize_relations accepting_acceptAll _))
    | destroy _ _ => exact hcall rfl (hflush (run_destroy accepting_acceptAll _))
    | _ => exact hquiet rfl rfl

/-- When it has ended, a way thread has committed the tags of all its inserts. -/
theorem tags_of_ended {i : ℕ} {flag : Bool} (b : TagBuf)
    (h : Trace (Step cfg) ⟨.pop, NavDB.fresh i, [], flag⟩ acts t) (hend : t.Ended) :
    takesOut (tagAccount b) acts = gains (tagAccount b) (acts.filterMap Act.inserted) := by
  obtain ⟨hdone, hout⟩ := hend
  have hempty : t.nav.tagBuf b = [] :=
    coupledTo b inserting_fresh (fun _ => rfl) h fun k _ => emptied (by simp) h hdone k
  have hall := conserved (tagAccount b) inserting_fresh h
  rw [underway, hout] at hall
  replace hall : takesOut (tagAccount b) acts ++ t.nav.tagBuf b =
    gains (tagAccount b) (acts.filterMap Act.inserted) := hall
  rw [hempty, List.append_nil] at hall
  exact hall

end WayThread

end OsmImport
