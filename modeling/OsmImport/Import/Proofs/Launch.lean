import OsmImport.Import.Launch
import OsmImport.Import.Observation
import OsmImport.Store.Proofs.NodeStore
import Mathlib.Data.List.Basic
import Mathlib.Tactic.SplitIfs

/-!
# Arguments that suffice for an import

`parseArgs` checks that numbers are numbers. Whether an import with them takes a remainder by zero, waits for
ever or inserts into a shard that is not open depends on the counts, the phase and the first entries of the
file.
-/

namespace OsmImport

open Producer

namespace Launch

/-! ## What the producer pushes -/

section

variable {N : ℕ} {phase : Resume} {v : Vars}

/-- The actions for entries with the start of their blob, without the batches. -/
def entryActions (N : ℕ) (phase : Resume) : Vars → List (ℕ × OSMEntry) → List Action
  | _, [] => []
  | v, e :: es => (step N phase e.1 v e.2).2 ++ entryActions N phase (step N phase e.1 v e.2).1 es

/-- The entries of the batches, with the start of their blob. -/
def located (blobs : List (ℕ × List OSMEntry)) : List (ℕ × OSMEntry) :=
  blobs.flatMap fun b => b.2.map fun entry => (b.1, entry)

theorem located_entries (blobs : List (ℕ × List OSMEntry)) :
    (located blobs).map Prod.snd = blobs.flatMap Prod.snd := by
  rw [located, List.map_flatMap]
  simp [Function.comp_def]

theorem entryActions_batch (v : Vars) (b : ℕ) (batch : List OSMEntry) (es : List (ℕ × OSMEntry)) :
    entryActions N phase v (batch.map (fun entry => (b, entry)) ++ es) =
      (batchActions N phase b v batch).2 ++ entryActions N phase (batchActions N phase b v batch).1 es := by
  induction batch generalizing v with
  | nil => rfl
  | cons entry batch ih =>
    rw [List.map_cons, List.cons_append, entryActions, ih, ← List.append_assoc]
    rfl

theorem loopActions_eq (v : Vars) (blobs : List (ℕ × List OSMEntry)) :
    loopActions N phase v blobs = entryActions N phase v (located blobs) := by
  induction blobs generalizing v with
  | nil => rfl
  | cons b blobs ih =>
    rw [located, List.flatMap_cons, entryActions_batch, ← located, ← ih]
    rfl

/-! ### One entry -/

theorem step_node (hv : v.node_phase = true) (b : ℕ) (n : NodeEntry) : step N phase b v (.node n) =
    if phase = .merging then (v, []) else ({ v with rr := v.rr + 1 }, [.pushNode (v.rr % N) (.node n)]) := by
  unfold step
  rw [hv]
  rfl

/-- The first entry that is no node. -/
theorem step_end (hphase : phase ≠ .relations) (hv : v.node_phase = true) (b : ℕ) {x : OSMEntry}
    (hx : x.isNode = false) :
    (step N phase b v x).1.node_phase = false ∧ (step N phase b v x).2 =
      shutdownNodes N ++ [.writeResumeOffset b, .waitMerge] ++ noteRelation b v x ++ [.pushWay x] := by
  unfold step endNodePhase
  simp [hv, hx, hphase]

/-- An entry behind the node phase. -/
theorem step_behind (hv : v.node_phase = false) (b : ℕ) (x : OSMEntry) :
    (step N phase b v x).1.node_phase = false ∧ (step N phase b v x).2 =
      if phase = .relations ∧ x.isWay = true then [] else noteRelation b v x ++ [.pushWay x] := by
  unfold step endNodePhase
  simp only [hv, Bool.false_and, Bool.false_eq_true, if_false, List.nil_append, Bool.and_eq_true,
    decide_eq_true_eq]
  split_ifs
  · exact ⟨rfl, rfl⟩
  · exact ⟨rfl, rfl⟩

theorem noteRelation_mem {b : ℕ} {x : OSMEntry} {a : Action} (h : a ∈ noteRelation b v x) :
    a = .writeRelationsResumeOffset b := by
  unfold noteRelation at h
  split_ifs at h
  · exact List.mem_singleton.mp h
  · cases h

/-! ### All entries -/

/-- Behind the node phase everything goes to `way_q`, with `-R relations` except for ways. -/
theorem mem_behind (hv : v.node_phase = false) {es : List (ℕ × OSMEntry)} {a : Action}
    (h : a ∈ entryActions N phase v es) : (∃ b, a = .writeRelationsResumeOffset b) ∨
      ∃ x ∈ es.map Prod.snd, a = .pushWay x ∧ ¬ (phase = .relations ∧ x.isWay = true) := by
  induction es generalizing v with
  | nil => cases h
  | cons e es ih =>
    obtain ⟨hv', hacts⟩ := @step_behind N phase v hv e.1 e.2
    rw [entryActions, List.mem_append, hacts] at h
    rcases h with h | h
    · split_ifs at h with hskip
      · cases h
      · rcases List.mem_append.mp h with h | h
        · exact .inl ⟨_, noteRelation_mem h⟩
        · exact .inr ⟨e.2, List.mem_cons_self, List.mem_singleton.mp h, hskip⟩
    · rcases ih hv' h with h | ⟨x, hx, ha⟩
      · exact .inl h
      · exact .inr ⟨x, List.mem_cons_of_mem _ hx, ha⟩

/-- Nothing but the offset of the relations comes before the first push to `way_q`. -/
theorem first_pushWay (hv : v.node_phase = false) {es : List (ℕ × OSMEntry)}
    (h : ∃ x ∈ es.map Prod.snd, ¬ (phase = .relations ∧ x.isWay = true)) :
    ∃ pre x post, entryActions N phase v es = pre ++ .pushWay x :: post ∧
      ∀ a ∈ pre, ∃ b, a = .writeRelationsResumeOffset b := by
  induction es generalizing v with
  | nil =>
    obtain ⟨x, hx, -⟩ := h
    cases hx
  | cons e es ih =>
    obtain ⟨hv', hacts⟩ := @step_behind N phase v hv e.1 e.2
    rw [entryActions, hacts]
    by_cases hskip : phase = .relations ∧ e.2.isWay = true
    · rw [if_pos hskip, List.nil_append]
      obtain ⟨x, hx, hkept⟩ := h
      rcases List.mem_cons.mp hx with rfl | hx
      · exact absurd hskip hkept
      · exact ih hv' ⟨x, hx, hkept⟩
    · rw [if_neg hskip, List.append_assoc]
      exact ⟨_, _, _, rfl, fun a ha => ⟨_, noteRelation_mem ha⟩⟩

/-- What the producer does from the end of the node phase on. -/
inductive PhaseEnd (N : ℕ) (phase : Resume) (entries : List OSMEntry) : List Action → Prop where
  | nodes (h : ∀ x ∈ entries, x.isNode = true) : PhaseEnd N phase entries []
  | ended {b : ℕ} {note : List Action} {x : OSMEntry} {v : Vars} {es : List (ℕ × OSMEntry)}
    (hx : x ∈ entries) (hnode : x.isNode = false) (hv : v.node_phase = false)
    (hnote : ∀ a ∈ note, ∃ b, a = .writeRelationsResumeOffset b) :
    PhaseEnd N phase entries (shutdownNodes N ++ [.writeResumeOffset b] ++
      .waitMerge :: (note ++ .pushWay x :: entryActions N phase v es))

theorem PhaseEnd.cons {entries : List OSMEntry} {rest : List Action} (h : PhaseEnd N phase entries rest)
    {x : OSMEntry} (hx : x.isNode = true) : PhaseEnd N phase (x :: entries) rest := by
  cases h with
  | nodes h => exact .nodes (List.forall_mem_cons.mpr ⟨hx, h⟩)
  | ended hy hnode hv hnote => exact .ended (List.mem_cons_of_mem _ hy) hnode hv hnote

theorem PhaseEnd.pushNode_not_mem {entries : List OSMEntry} {rest : List Action}
    (h : PhaseEnd N phase entries rest) (i : ℕ) (y : OSMEntry) : .pushNode i y ∉ rest := by
  cases h with
  | nodes _ => exact List.not_mem_nil
  | ended _ _ hv hnote =>
    intro hmem
    simp only [List.mem_append, List.mem_cons, shutdownNodes, List.mem_map, List.mem_range] at hmem
    rcases hmem with (⟨j, -, hj⟩ | h | h) | h | h | h | h
    · cases hj
    · cases h
    · cases h
    · cases h
    · obtain ⟨b, h⟩ := hnote _ h
      cases h
    · cases h
    · rcases mem_behind hv h with ⟨b, hb⟩ | ⟨x, -, hx, -⟩
      · cases hb
      · cases hx

/-- At an entry that is no node the node phase ends, and the entry is pushed behind it. -/
theorem phaseEnd_of_head (hphase : phase ≠ .relations) (hv : v.node_phase = true) (b : ℕ) {x : OSMEntry}
    (hx : x.isNode = false) (es : List (ℕ × OSMEntry)) :
    PhaseEnd N phase (x :: es.map Prod.snd) (entryActions N phase v ((b, x) :: es)) := by
  obtain ⟨hv', hacts⟩ := step_end (N := N) hphase hv b hx
  have hall : entryActions N phase v ((b, x) :: es) = shutdownNodes N ++ [.writeResumeOffset b] ++
      .waitMerge :: (noteRelation b v x ++ .pushWay x :: entryActions N phase (step N phase b v x).1 es) := by
    rw [entryActions, hacts]
    simp
  rw [hall]
  exact .ended List.mem_cons_self hx hv' fun a ha => ⟨_, noteRelation_mem ha⟩

/-- First come the nodes, unless their pushes are skipped, and then the end of the phase. -/
theorem entryActions_node_phase (hphase : phase ≠ .relations) (hv : v.node_phase = true)
    (es : List (ℕ × OSMEntry)) : ∃ nodes rest, entryActions N phase v es = nodes ++ rest ∧
      (∀ a ∈ nodes, ∃ i n, a = .pushNode i (.node n)) ∧ (phase = .merging → nodes = []) ∧
      PhaseEnd N phase (es.map Prod.snd) rest := by
  induction es generalizing v with
  | nil => exact ⟨[], [], rfl, List.forall_mem_nil _, fun _ => rfl, .nodes (List.forall_mem_nil _)⟩
  | cons e es ih =>
    obtain ⟨b, x⟩ := e
    cases x with
    | node n =>
      have hstep := @step_node N phase v hv b n
      obtain ⟨nodes, rest, hacts, hnodes, hmerging, hrest⟩ :=
        ih (v := (step N phase b v (.node n)).1) (by rw [hstep]; split <;> exact hv)
      refine ⟨(step N phase b v (.node n)).2 ++ nodes, rest, ?_, ?_, fun hm => ?_, hrest.cons rfl⟩
      · rw [List.append_assoc, ← hacts]
        rfl
      · intro a ha
        rcases List.mem_append.mp ha with ha | ha
        · rw [hstep] at ha
          split_ifs at ha
          · cases ha
          · exact ⟨_, n, List.mem_singleton.mp ha⟩
        · exact hnodes a ha
      · rw [hmerging hm, hstep, if_pos hm, List.append_nil]
    | way w =>
      exact ⟨[], _, (List.nil_append _).symm, List.forall_mem_nil _, fun _ => rfl,
        phaseEnd_of_head hphase hv b rfl es⟩
    | relation r =>
      exact ⟨[], _, (List.nil_append _).symm, List.forall_mem_nil _, fun _ => rfl,
        phaseEnd_of_head hphase hv b rfl es⟩

/-- If a node is pushed to a node queue, the first entry is a node. -/
theorem first_of_pushNode (hphase : phase ≠ .relations) (hv : v.node_phase = true)
    {es : List (ℕ × OSMEntry)} {i : ℕ} {y : OSMEntry} (h : .pushNode i y ∈ entryActions N phase v es) :
    phase ≠ .merging ∧ y.isNode = true ∧ ∃ n rest, es.map Prod.snd = .node n :: rest := by
  obtain ⟨nodes, rest, hacts, hnodes, hmerging, hrest⟩ := entryActions_node_phase (N := N) hphase hv es
  have hmem : .pushNode i y ∈ nodes := by
    rw [hacts] at h
    exact (List.mem_append.mp h).resolve_right (hrest.pushNode_not_mem i y)
  refine ⟨fun hm => ?_, ?_, ?_⟩
  · rw [hmerging hm] at hmem
    cases hmem
  · obtain ⟨j, n, hy⟩ := hnodes _ hmem
    injection hy with _ hy
    rw [hy]
    rfl
  · rcases es with _ | ⟨⟨b, x⟩, es⟩
    · cases h
    · cases x with
      | node n => exact ⟨n, _, rfl⟩
      | way w => exact absurd h ((phaseEnd_of_head hphase hv b rfl es).pushNode_not_mem i y)
      | relation r => exact absurd h ((phaseEnd_of_head hphase hv b rfl es).pushNode_not_mem i y)

end

/-! ## The script of an import -/

section

variable {N : ℕ} {phase : Resume}

/-- A push to `way_q` comes behind a wait for the merge. -/
def Awaits (script : List Action) : Prop :=
  ∀ pre x post, script = pre ++ .pushWay x :: post → .waitMerge ∈ pre

theorem awaits_of_not_mem {script : List Action} (h : ∀ x, .pushWay x ∉ script) : Awaits script := by
  rintro pre x post rfl
  exact absurd (List.mem_append_right _ List.mem_cons_self) (h x)

theorem awaits_append {l m : List Action} (h : ∀ x, .pushWay x ∉ l) : Awaits (l ++ .waitMerge :: m) := by
  intro pre x post hsplit
  rcases List.append_eq_append_iff.mp hsplit with ⟨c, rfl, hc⟩ | ⟨c, rfl, hc⟩
  · rcases c with _ | ⟨y, c⟩
    · cases hc
    · obtain ⟨rfl, -⟩ := List.cons.inj hc
      exact List.mem_append_right _ List.mem_cons_self
  · rcases c with _ | ⟨y, c⟩
    · cases hc
    · obtain ⟨rfl, -⟩ := List.cons.inj hc
      exact absurd (List.mem_append_right _ List.mem_cons_self) (h x)

theorem node_phase_start (h : skip_nodes phase = false) :
    phase ≠ .relations ∧ (Producer.start phase).node_phase = true := by
  refine ⟨?_, by rw [Producer.start, h]; rfl⟩
  rintro rfl
  cases h

end

section

variable (a : Args) (read : List (ℕ × List OSMEntry) × OSMReader.Ending)

/-- What the producer does with what it reads. -/
def scriptOf : List Action := actions a.node_threads.toNat (resumeOf a) read

/-- What it does in its loop. -/
def loopOf : List Action :=
  entryActions a.node_threads.toNat (resumeOf a) (Producer.start (resumeOf a)) (located read.1)

/-- A push to a queue. -/
def IsPush : Action → Prop
  | .pushNode _ _ | .pushWay _ => True
  | _ => False

/-- Before and behind its loop the producer pushes nothing. -/
theorem script_eq : ∃ tail, scriptOf a read =
      (if skip_nodes (resumeOf a) then shutdownNodes a.node_threads.toNat else []) ++ loopOf a read ++ tail ∧
    ∀ x ∈ tail, ¬ IsPush x := by
  refine ⟨if read.2 = .eof then finish a.node_threads.toNat else [], ?_, fun x h => ?_⟩
  · rw [loopOf, ← loopActions_eq]
    rfl
  · split_ifs at h
    · simp only [finish, shutdownNodes, List.mem_append, List.mem_map, List.mem_cons] at h
      rcases h with ⟨i, -, rfl⟩ | rfl | rfl | rfl | h
      · exact id
      · exact id
      · exact id
      · exact id
      · cases h
    · cases h

theorem mem_loopOf {x : Action} (h : x ∈ scriptOf a read) (hx : IsPush x) : x ∈ loopOf a read := by
  obtain ⟨tail, hscript, htail⟩ := script_eq a read
  rw [hscript, List.append_assoc] at h
  rcases List.mem_append.mp h with h | h
  · split_ifs at h
    · obtain ⟨i, -, rfl⟩ := List.mem_map.mp h
      exact hx.elim
    · cases h
  · exact (List.mem_append.mp h).resolve_right fun h => htail x h hx

/-- The file begins with a node, and nodes go to the node queues. -/
def FirstNode (entries : List OSMEntry) : Prop :=
  resumeOf a = .nodes ∧ ∃ n rest, entries = .node n :: rest

/-- Some entry is pushed, if the merge is done when the producer waits for it. -/
def Handed (entries : List OSMEntry) : Prop :=
  match resumeOf a with
  | .nodes => entries ≠ []
  | .merging => ∃ x ∈ entries, x.isNode = false
  | .ways => entries ≠ []
  | .relations => ∃ x ∈ entries, x.isWay = false

theorem script_pushNode {i : ℕ} {y : OSMEntry} (h : .pushNode i y ∈ scriptOf a read) :
    y.isNode = true ∧ FirstNode a (read.1.flatMap Prod.snd) := by
  have hloop := mem_loopOf a read h True.intro
  cases hskip : skip_nodes (resumeOf a) with
  | true =>
    have hv : (Producer.start (resumeOf a)).node_phase = false := by rw [Producer.start, hskip]; rfl
    rcases mem_behind hv hloop with ⟨b, hb⟩ | ⟨x, -, hx, -⟩
    · cases hb
    · cases hx
  | false =>
    obtain ⟨hphase, hv⟩ := node_phase_start hskip
    obtain ⟨hmerging, hy, hfirst⟩ := first_of_pushNode hphase hv hloop
    rw [located_entries] at hfirst
    refine ⟨hy, ?_, hfirst⟩
    cases hresume : resumeOf a with
    | nodes => rfl
    | merging => exact absurd hresume hmerging
    | ways => rw [hresume] at hskip; cases hskip
    | relations => exact absurd hresume hphase

theorem script_pushWay {x : OSMEntry} (h : .pushWay x ∈ scriptOf a read) :
    Handed a (read.1.flatMap Prod.snd) := by
  have hloop := mem_loopOf a read h True.intro
  have hne : read.1.flatMap Prod.snd ≠ [] := by
    intro hnil
    rw [← located_entries, List.map_eq_nil_iff] at hnil
    rw [loopOf, hnil] at hloop
    cases hloop
  unfold Handed
  cases hresume : resumeOf a with
  | nodes => exact hne
  | ways => exact hne
  | merging =>
    rw [loopOf, hresume] at hloop
    obtain ⟨nodes, rest, hacts, hnodes, -, hrest⟩ := @entryActions_node_phase a.node_threads.toNat .merging
      (Producer.start .merging) (by decide) rfl (located read.1)
    rw [hacts] at hloop
    rw [located_entries] at hrest
    cases hrest with
    | nodes _ =>
      rw [List.append_nil] at hloop
      obtain ⟨i, n, hx⟩ := hnodes _ hloop
      cases hx
    | ended hy hnode _ _ => exact ⟨_, hy, hnode⟩
  | relations =>
    rw [loopOf, hresume] at hloop
    rcases mem_behind (v := Producer.start .relations) rfl hloop with ⟨b, hb⟩ | ⟨y, hy, -, hway⟩
    · cases hb
    · rw [located_entries] at hy
      exact ⟨y, hy, Bool.eq_false_iff.mpr fun hw => hway ⟨rfl, hw⟩⟩

theorem script_awaits (hskip : skip_nodes (resumeOf a) = false) : Awaits (scriptOf a read) := by
  obtain ⟨tail, hscript, htail⟩ := script_eq a read
  obtain ⟨hphase, hv⟩ := node_phase_start hskip
  obtain ⟨nodes, rest, hloop, hnodes, -, hrest⟩ := entryActions_node_phase (N := a.node_threads.toNat)
    hphase hv (located read.1)
  have hnodes : ∀ x, .pushWay x ∉ nodes := by
    intro x hx
    obtain ⟨i, n, hx⟩ := hnodes _ hx
    cases hx
  rw [hscript, hskip, loopOf, hloop]
  cases hrest with
  | nodes _ =>
    refine awaits_of_not_mem fun x hx => ?_
    rw [List.append_nil] at hx
    exact (List.mem_append.mp hx).elim (hnodes x) fun hx => htail _ hx True.intro
  | @ended b note y v es _ _ _ _ =>
    have hfront : ∀ x, .pushWay x ∉ nodes ++ (shutdownNodes a.node_threads.toNat ++ [.writeResumeOffset b]) := by
      intro x hx
      refine (List.mem_append.mp hx).elim (hnodes x) fun hx => ?_
      simp [shutdownNodes] at hx
    have hall := awaits_append (m := note ++ .pushWay y ::
      entryActions a.node_threads.toNat (resumeOf a) v es ++ tail) hfront
    simpa only [List.append_assoc, List.cons_append, List.nil_append, Bool.false_eq_true, if_false] using hall

end

/-! ## Arguments and files without a fault -/

/-- Some entry gets to a queue. -/
def Pushes (a : Args) (entries : List OSMEntry) : Prop :=
  Handed a entries ∧ (skip_nodes (resumeOf a) = true ∨ 0 < a.node_threads)

/-- The shards that get nodes exist and are open, and the queues that get entries have room. -/
structure Suits (a : Args) (entries : List OSMEntry) : Prop where
  shards : FirstNode a entries → a.node_threads ≠ 0 ∧ open_shards_for_write a = true
  room : Pushes a entries → 0 < a.queue_size

/-- What is known of an import of these entries. -/
structure Inv (a : Args) (entries : List OSMEntry) (s : State) : Prop where
  nodes : ∀ i y, .pushNode i y ∈ s.script → y.isNode = true ∧ FirstNode a entries
  ways : ∀ x, .pushWay x ∈ s.script → Handed a entries
  awaits : s.merge_done = false → Awaits s.script
  merged : s.merge_done = true → skip_nodes (resumeOf a) = true ∨ 0 < a.node_threads
  queues : ∀ i, ∀ y ∈ (s.node_queues i).items, y.isNode = true ∧ FirstNode a entries
  forwards : ∀ i y, s.node i ≠ .forwarding y
  items : ∀ i n, s.node i = .item n → FirstNode a entries

section

variable {a : Args} {entries : List OSMEntry} {s s' : State}

theorem inv_start (osmmap : OSMMMap) (read : List (ℕ × List OSMEntry) × OSMReader.Ending) :
    Inv a (read.1.flatMap Prod.snd) (start a osmmap (scriptOf a read)) where
  nodes _ _ h := script_pushNode a read h
  ways _ h := script_pushWay a read h
  awaits h := script_awaits a read h
  merged h := .inl h
  queues _ _ h := absurd h List.not_mem_nil
  forwards _ _ h := by cases h
  items _ _ h := by cases h

/-- The entries of a queue are nodes of a file that begins with one. -/
def Supplied (a : Args) (entries : List OSMEntry) (q : BlockingQueue OSMEntry) : Prop :=
  ∀ y ∈ q.items, y.isNode = true ∧ FirstNode a entries

/-- One queue changes. -/
theorem Inv.update (h : Inv a entries s) {i : ℕ} {q : BlockingQueue OSMEntry} (hq : Supplied a entries q) :
    ∀ j, Supplied a entries (Function.update s.node_queues i q j) :=
  (Function.forall_update_iff s.node_queues fun _ q => Supplied a entries q).mpr
    ⟨hq, fun j _ => h.queues j⟩

/-- What the producer does to its script and to the queues. -/
theorem Inv.producer (h : Inv a entries s) {action : Action} {rest : List Action}
    (hscript : s.script = action :: rest) (hp : Produces a s s' action) :
    Inv a entries { s' with script := rest } := by
  have hnodes : ∀ i y, .pushNode i y ∈ rest → y.isNode = true ∧ FirstNode a entries := fun i y hmem =>
    h.nodes i y (hscript ▸ List.mem_cons_of_mem _ hmem)
  have hways : ∀ x, .pushWay x ∈ rest → Handed a entries := fun x hmem =>
    h.ways x (hscript ▸ List.mem_cons_of_mem _ hmem)
  have hawaits : action ≠ .waitMerge → s.merge_done = false → Awaits rest := by
    intro hne hm pre x post hrest
    have hall := h.awaits hm (action :: pre) x post (by rw [hscript, hrest]; rfl)
    exact (List.mem_cons.mp hall).resolve_left fun heq => hne heq.symm
  cases action with
  | pushNode i entry =>
    obtain ⟨-, -, rfl⟩ := hp
    have hentry := h.nodes i entry (hscript ▸ List.mem_cons_self)
    refine ⟨hnodes, hways, hawaits (by simp), h.merged, h.update fun y hy => ?_, h.forwards, h.items⟩
    rcases List.mem_append.mp hy with hy | hy
    · exact h.queues i y hy
    · exact List.mem_singleton.mp hy ▸ hentry
  | shutdownNode i =>
    obtain rfl := hp
    exact ⟨hnodes, hways, hawaits (by simp), h.merged, h.update (h.queues i), h.forwards, h.items⟩
  | waitMerge =>
    obtain ⟨hm, rfl⟩ := hp
    refine ⟨hnodes, hways, fun hf => ?_, h.merged, h.queues, h.forwards, h.items⟩
    exact absurd hm (Bool.eq_false_iff.mp hf)
  | pushWay entry =>
    obtain ⟨-, rfl⟩ := hp
    exact ⟨hnodes, hways, hawaits (by simp), h.merged, h.queues, h.forwards, h.items⟩
  | shutdownWay =>
    obtain rfl := hp
    exact ⟨hnodes, hways, hawaits (by simp), h.merged, h.queues, h.forwards, h.items⟩
  | writeResumeOffset b | writeRelationsResumeOffset b =>
    obtain rfl := hp
    exact ⟨hnodes, hways, hawaits (by simp), h.merged, h.queues, h.forwards, h.items⟩
  | joinNodes | joinWays =>
    obtain ⟨-, rfl⟩ := hp
    exact ⟨hnodes, hways, hawaits (by simp), h.merged, h.queues, h.forwards, h.items⟩

/-- A node thread goes to another place, with one queue changed. -/
theorem Inv.moves (h : Inv a entries s) (i : ℕ) (place : Place) (hf : ∀ y, place ≠ .forwarding y)
    (hi : ∀ n, place = .item n → FirstNode a entries) :
    (∀ j y, Function.update s.node i place j ≠ .forwarding y) ∧
      ∀ j n, Function.update s.node i place j = .item n → FirstNode a entries :=
  ⟨(Function.forall_update_iff s.node fun _ p => ∀ y, p ≠ .forwarding y).mpr ⟨hf, fun j _ => h.forwards j⟩,
    (Function.forall_update_iff s.node fun _ p => ∀ n, p = .item n → FirstNode a entries).mpr
      ⟨hi, fun j _ => h.items j⟩⟩

theorem Inv.step (hsign : 0 ≤ a.node_threads) (h : Inv a entries s) (hs : Step a s s') :
    Inv a entries s' := by
  cases hs with
  | producer hscript hp => exact h.producer hscript hp
  | @take i entry rest _ _ hitems =>
    obtain ⟨hnode, hfirst⟩ := h.queues i entry (hitems ▸ List.mem_cons_self)
    have hplace : ∀ y, Place.of entry ≠ .forwarding y := by
      cases entry with
      | node n => exact fun y hy => by cases hy
      | way w => cases hnode
      | relation r => cases hnode
    obtain ⟨hforwards, hplaces⟩ := h.moves i _ hplace fun _ _ => hfirst
    exact ⟨h.nodes, h.ways, h.awaits, h.merged,
      h.update fun y hy => h.queues i y (hitems ▸ List.mem_cons_of_mem _ hy), hforwards, hplaces⟩
  | @insert i _ _ _ _ _ _ _ _ =>
    obtain ⟨hforwards, hplaces⟩ := h.moves i .popping (fun _ h => by cases h)
      fun _ h => by cases h
    exact ⟨h.nodes, h.ways, h.awaits, h.merged, h.queues, hforwards, hplaces⟩
  | @forward i entry _ hplace _ => exact absurd hplace (h.forwards i entry)
  | @drained i _ _ _ _ =>
    obtain ⟨hforwards, hplaces⟩ := h.moves i .arrived (fun _ h => by cases h)
      fun _ h => by cases h
    exact ⟨h.nodes, h.ways, h.awaits, h.merged, h.queues, hforwards, hplaces⟩
  | merge hpos _ =>
    refine ⟨h.nodes, h.ways, fun hf => (by cases hf), fun _ => ?_, h.queues, h.forwards, h.items⟩
    unfold nodeWorkers at hpos
    split at hpos
    · omega
    · exact .inr (by omega)
  | takeWay _ _ => exact ⟨h.nodes, h.ways, h.awaits, h.merged, h.queues, h.forwards, h.items⟩

theorem inv_reaches {osmmap : OSMMMap} {read : List (ℕ × List OSMEntry) × OSMReader.Ending}
    (hsign : 0 ≤ a.node_threads) (h : Relation.ReflTransGen (Step a) (start a osmmap (scriptOf a read)) s) :
    Inv a (read.1.flatMap Prod.snd) s := by
  induction h with
  | refl => exact inv_start osmmap read
  | tail _ hs ih => exact ih.step hsign hs

theorem not_hangs (h : 0 < a.queue_size) (q : BlockingQueue OSMEntry) : ¬ Hangs a q :=
  fun hq => hq.2 0 (by exact_mod_cast h)

/-- Where arguments and file suit each other, no operation is reached that must not be. -/
theorem Inv.not_faulty (hsign : 0 ≤ a.node_threads) (hsuits : Suits a entries) (h : Inv a entries s) :
    ¬ Faulty a s := by
  have hhanded : FirstNode a entries → Pushes a entries := by
    rintro hfirst
    have hpos := (hsuits.shards hfirst).1
    obtain ⟨hresume, n, rest, hentries⟩ := hfirst
    refine ⟨?_, .inr (by omega)⟩
    unfold Handed
    rw [hresume, hentries]
    exact List.cons_ne_nil _ _
  intro hf
  cases hf with
  | remainder hscript hzero =>
    exact (hsuits.shards (h.nodes _ _ (hscript ▸ List.mem_cons_self)).2).1 hzero
  | pushNode hscript _ hq =>
    exact not_hangs (hsuits.room (hhanded (h.nodes _ _ (hscript ▸ List.mem_cons_self)).2)) _ hq
  | @pushWay entry rest hscript hq =>
    cases hm : s.merge_done with
    | false => exact absurd (h.awaits hm [] entry rest hscript) List.not_mem_nil
    | true =>
      exact not_hangs (hsuits.room ⟨h.ways entry (hscript ▸ List.mem_cons_self), h.merged hm⟩) _ hq
  | forward _ hplace _ => exact h.forwards _ _ hplace
  | insert _ hplace hclosed =>
    exact Bool.eq_false_iff.mp hclosed (hsuits.shards (h.items _ _ hplace)).2

end

/-! ## Runs into a fault -/

/-- The producer neither pushes nor waits. -/
def Quiet : Action → Prop
  | .shutdownNode _ | .writeResumeOffset _ | .writeRelationsResumeOffset _ => True
  | _ => False

theorem quiet_shutdownNodes {N : ℕ} {x : Action} (h : x ∈ shutdownNodes N) : Quiet x := by
  obtain ⟨i, -, rfl⟩ := List.mem_map.mp h
  exact True.intro

/-- What quiet actions leave behind: they stop queues, and change nothing else. -/
structure Quieted (acts : List Action) (s s' : State) : Prop where
  way_q : s'.way_q = s.way_q
  node : s'.node = s.node
  merge_done : s'.merge_done = s.merge_done
  items : ∀ i, (s'.node_queues i).items = (s.node_queues i).items
  stop : ∀ i, (s.node_queues i).stop = true ∨ .shutdownNode i ∈ acts → (s'.node_queues i).stop = true

section

variable {a : Args} {s : State}

theorem Quieted.trans {l m : List Action} {t u : State} (h : Quieted l s t) (h' : Quieted m t u) :
    Quieted (l ++ m) s u where
  way_q := h'.way_q.trans h.way_q
  node := h'.node.trans h.node
  merge_done := h'.merge_done.trans h.merge_done
  items i := (h'.items i).trans (h.items i)
  stop i hi := by
    rw [List.mem_append, ← or_assoc] at hi
    exact h'.stop i (hi.imp_left (h.stop i))

theorem produces_quiet {x : Action} (hx : Quiet x) (rest : List Action) :
    ∃ t, Produces a s t x ∧ Quieted [x] s { t with script := rest } := by
  cases x with
  | shutdownNode i =>
    refine ⟨_, rfl, rfl, rfl, rfl, fun j => ?_, fun j hj => ?_⟩
    · show (Function.update s.node_queues i (s.node_queues i).shutdown j).items = _
      obtain rfl | hij := eq_or_ne j i
      · rw [Function.update_self]
        rfl
      · rw [Function.update_of_ne hij]
    · show (Function.update s.node_queues i (s.node_queues i).shutdown j).stop = true
      obtain rfl | hij := eq_or_ne j i
      · rw [Function.update_self]
        rfl
      · rw [Function.update_of_ne hij]
        refine hj.resolve_right fun hmem => hij ?_
        injection List.mem_singleton.mp hmem
  | writeResumeOffset b | writeRelationsResumeOffset b =>
    exact ⟨s, rfl, rfl, rfl, rfl, fun _ => rfl, fun i hi => hi.resolve_right fun hmem => by simp at hmem⟩
  | _ => exact hx.elim

/-- The producer gets through what is quiet. -/
theorem reaches_quiet {pre rest : List Action} (hscript : s.script = pre ++ rest)
    (hquiet : ∀ x ∈ pre, Quiet x) :
    ∃ s', Relation.ReflTransGen (Step a) s s' ∧ s'.script = rest ∧ Quieted pre s s' := by
  induction pre generalizing s with
  | nil =>
    exact ⟨s, .refl, hscript, rfl, rfl, rfl, fun _ => rfl, fun i h => h.resolve_right List.not_mem_nil⟩
  | cons x pre ih =>
    obtain ⟨hx, hpre⟩ := List.forall_mem_cons.mp hquiet
    obtain ⟨t, ht, hquieted⟩ := produces_quiet (a := a) (s := s) hx (pre ++ rest)
    obtain ⟨s', hrun, hrest, hquieted'⟩ := ih (s := { t with script := pre ++ rest }) rfl hpre
    exact ⟨s', .head (.producer hscript ht) hrun, hrest, hquieted.trans hquieted'⟩

/-- A node that is pushed to an idle node thread gets to it. -/
theorem reaches_item {i : ℕ} {n : NodeEntry} {rest : List Action} (hi : i < nodeWorkers a)
    (hscript : s.script = .pushNode i (.node n) :: rest) (hzero : a.node_threads ≠ 0) (hsize : 0 < a.queue_size)
    (hnode : s.node i = .popping) (hqueue : s.node_queues i = .empty) :
    ∃ s', Relation.ReflTransGen (Step a) s s' ∧ s'.node i = .item n := by
  let queues := Function.update s.node_queues i ((s.node_queues i).push (.node n))
  have hpush : Produces a s { s with node_queues := queues } (.pushNode i (.node n)) := by
    refine ⟨hzero, ?_, rfl⟩
    rw [hqueue]
    simp [canPush, BlockingQueue.canPush, BlockingQueue.empty, hsize]
  have htake : (queues i).items = [.node n] := by
    simp [queues, hqueue, BlockingQueue.push, BlockingQueue.empty]
  have hrun := Relation.ReflTransGen.single (Step.producer hscript hpush)
  exact ⟨_, hrun.tail (.take hi hnode htake), Function.update_self ..⟩

/-- The node threads whose queues are empty and shut down come to the barrier. -/
theorem reaches_arrived {k : ℕ} (hk : k ≤ nodeWorkers a) (hnode : ∀ i < k, s.node i = .popping)
    (hitems : ∀ i < k, (s.node_queues i).items = []) (hstop : ∀ i < k, (s.node_queues i).stop = true) :
    Relation.ReflTransGen (Step a) s
      { s with node := fun i => if i < k then .arrived else s.node i } := by
  induction k with
  | zero => exact .refl
  | succ k ih =>
    have hrun := ih (by omega) (fun i hi => hnode i (by omega)) (fun i hi => hitems i (by omega))
      fun i hi => hstop i (by omega)
    refine hrun.tail ?_
    have hstep := Step.drained (a := a) (s := { s with node := fun i => if i < k then .arrived else s.node i })
      (i := k) hk (by simp [hnode k (by omega)]) (hitems k (by omega)) (hstop k (by omega))
    convert hstep using 2
    funext i
    obtain rfl | hik := eq_or_ne i k
    · simp
    · rw [Function.update_of_ne hik]
      simp only [Nat.lt_succ_iff_lt_or_eq, hik, or_false]

/-- The last of them merges, and the producer goes on. -/
theorem reaches_merged {rest : List Action} (hpos : 0 < nodeWorkers a) (hscript : s.script = .waitMerge :: rest)
    (hnode : ∀ i < nodeWorkers a, s.node i = .popping)
    (hitems : ∀ i < nodeWorkers a, (s.node_queues i).items = [])
    (hstop : ∀ i < nodeWorkers a, (s.node_queues i).stop = true) :
    ∃ s', Relation.ReflTransGen (Step a) s s' ∧ s'.script = rest ∧ s'.way_q = s.way_q := by
  have hmerge := (reaches_arrived le_rfl hnode hitems hstop).tail (.merge hpos fun i hi => if_pos hi)
  exact ⟨_, hmerge.tail (.producer hscript ⟨rfl, rfl⟩), rfl, rfl⟩

end

/-! ### Up to the first push -/

section

variable {a : Args} {read : List (ℕ × List OSMEntry) × OSMReader.Ending}

/-- If nothing goes to the node queues, what is handed is an entry that is no node. -/
theorem Handed.exists_other {entries : List OSMEntry} (h : Handed a entries)
    (hskip : skip_nodes (resumeOf a) = false) (hfirst : ¬ FirstNode a entries) :
    ∃ x ∈ entries, x.isNode = false := by
  unfold Handed at h
  cases hresume : resumeOf a with
  | nodes =>
    rw [hresume] at h
    obtain ⟨x, rest, rfl⟩ := List.exists_cons_of_ne_nil h
    cases x with
    | node n => exact absurd ⟨hresume, n, rest, rfl⟩ hfirst
    | way w => exact ⟨_, List.mem_cons_self, rfl⟩
    | relation r => exact ⟨_, List.mem_cons_self, rfl⟩
  | merging =>
    rw [hresume] at h
    exact h
  | ways | relations => rw [hresume] at hskip; cases hskip

/-- Without node threads, what is handed is an entry that `-R relations` does not skip. -/
theorem Handed.exists_kept {entries : List OSMEntry} (h : Handed a entries)
    (hskip : skip_nodes (resumeOf a) = true) :
    ∃ x ∈ entries, ¬ (resumeOf a = .relations ∧ x.isWay = true) := by
  unfold Handed at h
  cases hresume : resumeOf a with
  | nodes | merging => rw [hresume] at hskip; cases hskip
  | ways =>
    rw [hresume] at h
    obtain ⟨x, hx⟩ := List.exists_mem_of_ne_nil _ h
    exact ⟨x, hx, fun hx => by cases hx.1⟩
  | relations =>
    rw [hresume] at h
    obtain ⟨x, hx, hway⟩ := h
    exact ⟨x, hx, fun hx => Bool.eq_false_iff.mp hway hx.2⟩

/-- The first node goes to the first queue. -/
theorem script_first (h : FirstNode a (read.1.flatMap Prod.snd)) :
    ∃ n rest, scriptOf a read = .pushNode 0 (.node n) :: rest := by
  obtain ⟨hresume, n, entries, hentries⟩ := h
  obtain ⟨tail, hscript, -⟩ := script_eq a read
  rw [← located_entries, List.map_eq_cons_iff] at hentries
  obtain ⟨⟨b, x⟩, es, hlocated, rfl, -⟩ := hentries
  have hstep := @step_node a.node_threads.toNat .nodes (Producer.start .nodes) rfl b n
  refine ⟨n, entryActions a.node_threads.toNat .nodes { Producer.start .nodes with rr := 1 } es ++ tail, ?_⟩
  rw [hscript, loopOf, hlocated, hresume, entryActions, hstep]
  rfl

/-- If nothing goes to the node queues, the first entry that is no node ends the node phase. -/
theorem script_phaseEnd (hskip : skip_nodes (resumeOf a) = false)
    (hfirst : ¬ FirstNode a (read.1.flatMap Prod.snd)) (hhanded : Handed a (read.1.flatMap Prod.snd)) :
    ∃ pre note x post, scriptOf a read = pre ++ .waitMerge :: (note ++ .pushWay x :: post) ∧
      (∀ y ∈ pre, Quiet y) ∧ (∀ i < a.node_threads.toNat, .shutdownNode i ∈ pre) ∧ ∀ y ∈ note, Quiet y := by
  obtain ⟨tail, hscript, -⟩ := script_eq a read
  obtain ⟨hphase, hv⟩ := node_phase_start hskip
  obtain ⟨nodes, rest, hloop, hnodes, -, hrest⟩ := entryActions_node_phase (N := a.node_threads.toNat)
    hphase hv (located read.1)
  obtain rfl : nodes = [] := by
    refine List.eq_nil_iff_forall_not_mem.mpr fun y hy => hfirst ?_
    obtain ⟨i, n, rfl⟩ := hnodes y hy
    refine (script_pushNode a read (i := i) (y := .node n) ?_).2
    rw [hscript, loopOf, hloop]
    exact List.mem_append_left _ (List.mem_append_right _ (List.mem_append_left _ hy))
  rw [located_entries] at hrest
  rw [hscript, hskip, loopOf, hloop]
  cases hrest with
  | nodes hall =>
    obtain ⟨x, hx, hnode⟩ := hhanded.exists_other hskip hfirst
    exact absurd (hall x hx) (Bool.eq_false_iff.mp hnode)
  | @ended b note x v es _ _ _ hnote =>
    refine ⟨shutdownNodes a.node_threads.toNat ++ [.writeResumeOffset b], note, x,
      entryActions a.node_threads.toNat (resumeOf a) v es ++ tail, by simp, fun y hy => ?_, fun i hi => ?_,
      fun y hy => ?_⟩
    · rcases List.mem_append.mp hy with hy | hy
      · exact quiet_shutdownNodes hy
      · obtain rfl := List.mem_singleton.mp hy
        exact True.intro
    · exact List.mem_append_left _ (List.mem_map_of_mem (List.mem_range.mpr hi))
    · obtain ⟨c, rfl⟩ := hnote y hy
      exact True.intro

/-- Without node threads only the stops of the node queues come before the first push. -/
theorem script_skip (hskip : skip_nodes (resumeOf a) = true) (hhanded : Handed a (read.1.flatMap Prod.snd)) :
    ∃ pre x post, scriptOf a read = pre ++ .pushWay x :: post ∧ ∀ y ∈ pre, Quiet y := by
  obtain ⟨tail, hscript, -⟩ := script_eq a read
  have hkept := hhanded.exists_kept hskip
  rw [← located_entries] at hkept
  have hv : (Producer.start (resumeOf a)).node_phase = false := by rw [Producer.start, hskip]; rfl
  obtain ⟨pre, x, post, hloop, hpre⟩ := @first_pushWay a.node_threads.toNat (resumeOf a) _ hv _ hkept
  refine ⟨shutdownNodes a.node_threads.toNat ++ pre, x, post ++ tail, ?_, fun y hy => ?_⟩
  · rw [hscript, hskip, loopOf, hloop]
    simp
  · rcases List.mem_append.mp hy with hy | hy
    · exact quiet_shutdownNodes hy
    · obtain ⟨b, rfl⟩ := hpre y hy
      exact True.intro

end

/-! ### Into the fault -/

section

variable {a : Args} (osmmap : OSMMMap) {read : List (ℕ × List OSMEntry) × OSMReader.Ending}

/-- A queue without room makes the first push wait for ever. -/
theorem hangs_empty (h : a.queue_size ≤ 0) {q : BlockingQueue OSMEntry} (hq : q = .empty) : Hangs a q := by
  subst hq
  exact ⟨rfl, fun size => by omega⟩

theorem nodeWorkers_eq (h : skip_nodes (resumeOf a) = false) : nodeWorkers a = a.node_threads.toNat := by
  rw [nodeWorkers, h]
  rfl

/-- A first node without a node thread, without room in its queue or without an open shard. -/
theorem faulty_of_firstNode (hsign : 0 ≤ a.node_threads) (hfirst : FirstNode a (read.1.flatMap Prod.snd))
    (h : a.node_threads = 0 ∨ a.queue_size ≤ 0 ∨ open_shards_for_write a = false) :
    ∃ s, Relation.ReflTransGen (Step a) (start a osmmap (scriptOf a read)) s ∧ Faulty a s := by
  obtain ⟨n, rest, hscript⟩ := script_first hfirst
  obtain hzero | hzero := eq_or_ne a.node_threads 0
  · exact ⟨_, .refl, .remainder hscript hzero⟩
  obtain hsize | hsize := lt_or_ge 0 a.queue_size
  · -- the node is pushed, taken and inserted
    have hclosed := (h.resolve_left hzero).resolve_left (by omega)
    have hworker : 0 < nodeWorkers a := by
      rw [nodeWorkers_eq (by rw [hfirst.1]; rfl)]
      omega
    obtain ⟨s, hrun, hplace⟩ := reaches_item (s := start a osmmap (scriptOf a read)) hworker hscript hzero
      hsize rfl rfl
    exact ⟨s, hrun, .insert hworker hplace hclosed⟩
  · exact ⟨_, .refl, .pushNode hscript hzero (hangs_empty hsize rfl)⟩

/-- A first push to `way_q` without room. -/
theorem faulty_of_handed (hsize : a.queue_size ≤ 0) (hfirst : ¬ FirstNode a (read.1.flatMap Prod.snd))
    (h : Pushes a (read.1.flatMap Prod.snd)) :
    ∃ s, Relation.ReflTransGen (Step a) (start a osmmap (scriptOf a read)) s ∧ Faulty a s := by
  obtain ⟨hhanded, hthreads⟩ := h
  cases hskip : skip_nodes (resumeOf a) with
  | true =>
    obtain ⟨pre, x, post, hscript, hquiet⟩ := script_skip hskip hhanded
    obtain ⟨s, hrun, hs, hquieted⟩ := reaches_quiet (s := start a osmmap (scriptOf a read)) hscript hquiet
    exact ⟨s, hrun, .pushWay hs (hangs_empty hsize hquieted.way_q)⟩
  | false =>
    have hpos := hthreads.resolve_left (by rw [hskip]; exact Bool.false_ne_true)
    have hworkers := nodeWorkers_eq hskip
    obtain ⟨pre, note, x, post, hscript, hpre, hshut, hnote⟩ := script_phaseEnd hskip hfirst hhanded
    obtain ⟨s, hrun, hs, hquieted⟩ := reaches_quiet (s := start a osmmap (scriptOf a read)) hscript hpre
    have hstop : ∀ i < nodeWorkers a, (s.node_queues i).stop = true := fun i hi =>
      hquieted.stop i (.inr (hshut i (hworkers ▸ hi)))
    obtain ⟨t, hmerged, ht, hway⟩ := reaches_merged (a := a) (by omega) hs
      (fun i _ => congrFun hquieted.node i) (fun i _ => hquieted.items i) hstop
    obtain ⟨u, hrun', hu, hquieted'⟩ := reaches_quiet (a := a) ht hnote
    exact ⟨u, (hrun.trans hmerged).trans hrun', .pushWay hu
      (hangs_empty hsize ((hquieted'.way_q.trans hway).trans hquieted.way_q))⟩

/-- Where arguments and file do not suit each other, an operation is reached that must not be. -/
theorem faulty_of_not_suits (hsign : 0 ≤ a.node_threads) (h : ¬ Suits a (read.1.flatMap Prod.snd)) :
    ∃ s, Relation.ReflTransGen (Step a) (start a osmmap (scriptOf a read)) s ∧ Faulty a s := by
  by_cases hfirst : FirstNode a (read.1.flatMap Prod.snd)
  · refine faulty_of_firstNode osmmap hsign hfirst ?_
    by_contra hnone
    push Not at hnone
    obtain ⟨hzero, hsize, hopen⟩ := hnone
    exact h ⟨fun _ => ⟨hzero, Bool.eq_true_of_not_eq_false hopen⟩, fun _ => hsize⟩
  · by_cases hpushes : Pushes a (read.1.flatMap Prod.snd) ∧ a.queue_size ≤ 0
    · exact faulty_of_handed osmmap hpushes.2 hfirst hpushes.1
    · exact absurd ⟨fun hf => absurd hf hfirst, fun hp => by by_contra hq; exact hpushes ⟨hp, by omega⟩⟩ h

end

/-! ## What suffices -/

/-- The entries that the producer reads. -/
def entriesOf (a : Args) (fmt : Formats) (file : Bytes) (files : OffsetFiles) : List OSMEntry :=
  (OSMReader.batches fmt file (seekPosition (resumeOf a) files)).1.flatMap Prod.snd

/-- The first of the entries is a node. -/
def BeginsWithNode (entries : List OSMEntry) : Prop := ∃ n rest, entries = .node n :: rest

/-- The platform grants the new store, or with `-R` that the files on disk are opened. -/
def Stored (a : Args) (plat : Platform) (disk : Disk) : Prop :=
  if a.resume_phase = .nodes then plat.CreatesStore a.max_node_id a.node_threads.toNat
  else plat.Resumes disk a.max_node_id

/-- Counts, phase and file suffice: with a negative count, a store that cannot be opened or a phase without
file nothing is read, and else the threads and queues that get an entry are there. -/
def Suffice (a : Args) (plat : Platform) (disk : Disk) (entries : List OSMEntry) : Prop :=
  a.node_threads < 0 ∨ a.way_threads < 0 ∨ ¬ Stored a plat disk ∨
    match a.resume_phase with
    | .nodes => (BeginsWithNode entries → a.node_threads ≠ 0) ∧
      (entries ≠ [] → 0 < a.node_threads → 0 < a.queue_size)
    | .reindexing => ¬ BeginsWithNode entries ∧ (entries ≠ [] → 0 < a.node_threads → 0 < a.queue_size)
    | .merging => (∃ x ∈ entries, x.isNode = false) → 0 < a.node_threads → 0 < a.queue_size
    | .ways => entries ≠ [] → 0 < a.queue_size
    | .relations => (∃ x ∈ entries, x.isWay = false) → 0 < a.queue_size
    | .indexing | .airportsLoading | .vacuuming | .done => True

section

variable {a : Args} {entries : List OSMEntry}

theorem suits_iff : Suits a entries ↔
    (FirstNode a entries → a.node_threads ≠ 0 ∧ open_shards_for_write a = true) ∧
      (Pushes a entries → 0 < a.queue_size) :=
  ⟨fun h => ⟨h.shards, h.room⟩, fun h => ⟨h.1, h.2⟩⟩

/-- When the store can be opened. -/
theorem openNodes_iff {plat : Platform} {disk : Disk} :
    (∃ osmmap, openNodes a plat disk = .ok osmmap) ↔ Stored a plat disk := by
  unfold openNodes Stored open_shards_for_write
  by_cases hphase : a.resume_phase = .nodes
  · simp only [hphase, if_true, decide_true]
    constructor
    · rintro ⟨osmmap, h⟩
      obtain ⟨d, hcreate, hopen⟩ := OSMMMap.bind_ok h
      exact OSMMMap.createsStore_of_open hcreate hopen
    · intro hgrants
      rw [OSMMMap.createFile_eq hgrants]
      exact ⟨_, OSMMMap.openStore_blank hgrants⟩
  · simp only [hphase, if_false, decide_false]
    exact OSMMMap.openStore_resume_iff

/-- The table says for each phase when arguments and file suit each other. -/
theorem suffice_iff {plat : Platform} {disk : Disk} (hmode : a.mode = .importing)
    (hdone : a.resume_phase ≠ .done) :
    Suffice a plat disk entries ↔ ((∃ osmmap, Launches a plat disk osmmap) → Suits a entries) := by
  have hstart : ∀ p : Prop, (a.node_threads < 0 ∨ a.way_threads < 0 ∨ ¬ Stored a plat disk ∨ p) ↔
      (0 ≤ a.node_threads ∧ 0 ≤ a.way_threads ∧ Stored a plat disk → p) := by
    intro p
    rw [← not_le, ← not_le, ← imp_iff_not_or, ← imp_iff_not_or, ← imp_iff_not_or, and_imp, and_imp]
  unfold Suffice Launches
  simp only [exists_and_left]
  rw [suits_iff, hstart, openNodes_iff]
  unfold Pushes Handed FirstNode skip_nodes withoutFile open_shards_for_write resumeOf
  cases hphase : a.resume_phase with
  | done => exact absurd hphase hdone
  | nodes => simp [hmode, BeginsWithNode]
  | reindexing => simp [hmode, BeginsWithNode]
  | ways | relations | merging => simp [hmode]
  | indexing | airportsLoading | vacuuming => simp

end

/-! ## Accepted arguments -/

section

open Args

variable {arg val : Str} {a b : Args}

theorem phaseOf_ne_done {phase : Phase} (h : phaseOf val = some phase) : phase ≠ .done := by
  rintro rfl
  unfold phaseOf at h
  split_ifs at h <;> cases h

/-- An option keeps the phase, or changes it to one that its value names. -/
def KeepsPhase (option : Option (Str → Args → Option Args)) : Prop :=
  ∀ val a b, (option.bind fun f => f val a) = some b →
    b.resume_phase = a.resume_phase ∨ phaseOf val = some b.resume_phase

theorem keepsPhase_set {field : Str → Args → Args}
    (h : ∀ val a, (field val a).resume_phase = a.resume_phase) :
    KeepsPhase (some fun val a => some (field val a)) := by
  intro val a b hb
  obtain rfl := Option.some.inj hb
  exact .inl (h val a)

theorem keepsPhase_map {β : Type} {parse : Str → Option β} {field : β → Args → Args}
    (h : ∀ i a, (field i a).resume_phase = a.resume_phase) :
    KeepsPhase (some fun val a => (parse val).map fun i => field i a) := by
  intro val a b hb
  obtain ⟨i, -, rfl⟩ := Option.map_eq_some_iff.mp hb
  exact .inl (h i a)

theorem keepsPhase_resume :
    KeepsPhase (some fun val a => (phaseOf val).map fun ph => { a with resume_phase := ph }) := by
  intro val a b hb
  obtain ⟨ph, hph, rfl⟩ := Option.map_eq_some_iff.mp hb
  exact .inr hph

theorem keepsPhase_valued (arg : Str) : KeepsPhase (valued arg) := by
  unfold valued
  repeat' refine iteInduction (fun _ => ?_) fun _ => ?_
  all_goals first
    | exact keepsPhase_set fun _ _ => rfl
    | exact keepsPhase_map fun _ _ => rfl
    | exact keepsPhase_resume
    | exact fun _ _ _ hb => by cases hb

theorem switch_resume_phase (h : switch arg a = some b) : b.resume_phase = a.resume_phase := by
  unfold switch at h
  split_ifs at h <;> cases h <;> rfl

theorem parseFrom_resume_phase {argv : List Str} (h : parseFrom argv a = some b)
    (ha : a.resume_phase ≠ .done) : b.resume_phase ≠ .done := by
  induction hlen : argv.length using Nat.strong_induction_on generalizing argv a with
  | _ k ih =>
    subst hlen
    rcases argv with _ | ⟨arg, _ | ⟨val, rest⟩⟩
    · cases h
      exact ha
    · exact switch_resume_phase h ▸ ha
    · rw [parseFrom] at h
      cases hopt : valued arg with
      | some option =>
        rw [hopt] at h
        obtain ⟨c, hc, h⟩ := Option.bind_eq_some_iff.mp h
        refine ih rest.length (by rw [List.length_cons, List.length_cons]; omega) h ?_ rfl
        rcases keepsPhase_valued arg val a c (by rw [hopt]; exact hc) with hphase | hphase
        · exact hphase ▸ ha
        · exact phaseOf_ne_done hphase
      | none =>
        rw [hopt] at h
        obtain ⟨c, hc, h⟩ := Option.bind_eq_some_iff.mp h
        exact ih (val :: rest).length (Nat.lt_succ_self _) h (switch_resume_phase hc ▸ ha) rfl

theorem parseArgs_resume_phase {argv : List Str} (h : parseArgs argv = some a) : a.resume_phase ≠ .done :=
  parseFrom_resume_phase (Option.filter_eq_some_iff.mp h).1 (by decide)

end

/-- **Main theorem.** An import with accepted arguments reaches no operation that must not be reached exactly
if the arguments suffice for the file. -/
theorem accepted_suffice_iff {argv : List Str} {a : Args} (h : Args.parseArgs argv = some a)
    (hmode : a.mode = .importing) (plat : Platform) (disk : Disk) (fmt : Formats) (file : Bytes)
    (files : OffsetFiles) : (∀ s, Reaches a plat disk fmt file files s → ¬ Faulty a s) ↔
      Suffice a plat disk (entriesOf a fmt file files) := by
  rw [suffice_iff hmode (parseArgs_resume_phase h)]
  constructor
  · rintro hsafe ⟨osmmap, hlaunches⟩
    by_contra hsuits
    obtain ⟨s, hrun, hs⟩ := faulty_of_not_suits osmmap hlaunches.2.2.1 hsuits
    exact hsafe s ⟨osmmap, hlaunches, hrun⟩ hs
  · rintro hsuits s ⟨osmmap, hlaunches, hrun⟩
    have hsign := hlaunches.2.2.1
    exact (inv_reaches hsign hrun).not_faulty hsign (hsuits ⟨osmmap, hlaunches⟩)

theorem entriesOf_oneBlock {a : Args} (hphase : a.resume_phase = .nodes) (entries : List OSMEntry) :
    entriesOf a (oneBlockFormats entries) [0, 0, 0, 0] ⟨none, none⟩ = entries := by
  have hbatches := batches_oneBlock entries
  unfold entriesOf resumeOf
  rw [hphase]
  show (OSMReader.batches (oneBlockFormats entries) [0, 0, 0, 0] 0).1.flatMap Prod.snd = entries
  rw [hbatches]
  simp

/-- Arguments in import mode with a store of the default size, and no phase. -/
theorem launches_nodes {a : Args} (hmode : a.mode = .importing) (hphase : a.resume_phase = .nodes)
    (hnodes : 0 ≤ a.node_threads) (hways : 0 ≤ a.way_threads) (hmax : a.max_node_id = 20000000000)
    (disk : Disk) : ∃ osmmap, Launches a .plain disk osmmap := by
  have hstored : Stored a .plain disk := by
    rw [Stored, if_pos hphase, hmax]
    exact OSMMMap.createsStore_plain (by decide) (by decide) _
  obtain ⟨osmmap, h⟩ := openNodes_iff.mpr hstored
  exact ⟨osmmap, hmode, by simp [withoutFile, hphase], hnodes, hways, h⟩

/-- The defaults suffice for a file with a node. -/
theorem accepted_suffice_iff_defaults : ∃ a,
    Args.parseArgs (["-s", "h", "-d", "db", "-u", "u", "-i", "f"].map str) = some a ∧
      (∃ osmmap, Launches a .plain OSMMMap.emptyDisk osmmap) ∧
      ∀ s, Reaches a .plain OSMMMap.emptyDisk (oneBlockFormats [.node ⟨1, [], .none, ⟨0⟩, ⟨0⟩⟩]) [0, 0, 0, 0]
        ⟨none, none⟩ s → ¬ Faulty a s := by
  have hparse : (Args.parseArgs (["-s", "h", "-d", "db", "-u", "u", "-i", "f"].map str)).map
      (fun a => (a.mode, a.resume_phase, a.node_threads, a.way_threads, a.queue_size, a.max_node_id)) =
        some (.importing, .nodes, 1, 6, 10000, 20000000000) := by decide +kernel
  obtain ⟨a, ha, hvalues⟩ := Option.map_eq_some_iff.mp hparse
  simp only [Prod.mk.injEq] at hvalues
  obtain ⟨hmode, hphase, hnodes, hways, hqueue, hmax⟩ := hvalues
  refine ⟨a, ha, launches_nodes hmode hphase (by omega) (by omega) hmax _, ?_⟩
  refine (accepted_suffice_iff ha hmode _ _ _ _ _).mpr ?_
  rw [entriesOf_oneBlock hphase, Suffice, hphase]
  exact .inr (.inr (.inr ⟨fun _ => by omega, fun _ _ => by omega⟩))

/-- With `-t 0` a file that begins with a node makes the producer divide by zero. -/
theorem remainder_by_zero : ¬ ∀ argv a, Args.parseArgs argv = some a → a.mode = .importing →
    ∀ plat disk fmt file files s, Reaches a plat disk fmt file files s → ¬ Faulty a s := by
  intro hall
  have hparse : (Args.parseArgs (["-s", "h", "-d", "db", "-u", "u", "-i", "f", "-t", "0"].map str)).map
      (fun a => (a.mode, a.resume_phase, a.node_threads, a.way_threads, a.max_node_id)) =
        some (.importing, .nodes, 0, 6, 20000000000) := by decide +kernel
  obtain ⟨a, ha, hvalues⟩ := Option.map_eq_some_iff.mp hparse
  simp only [Prod.mk.injEq] at hvalues
  obtain ⟨hmode, hphase, hnodes, hways, hmax⟩ := hvalues
  have hfirst : FirstNode a (entriesOf a (oneBlockFormats [.node ⟨1, [], .none, ⟨0⟩, ⟨0⟩⟩]) [0, 0, 0, 0]
      ⟨none, none⟩) := ⟨by rw [resumeOf, hphase], ⟨1, [], .none, ⟨0⟩, ⟨0⟩⟩, [], entriesOf_oneBlock hphase _⟩
  obtain ⟨n, rest, hscript⟩ := script_first hfirst
  obtain ⟨osmmap, hlaunches⟩ := launches_nodes hmode hphase (by omega) (by omega) hmax OSMMMap.emptyDisk
  exact hall _ a ha hmode _ _ _ _ _ _ ⟨osmmap, hlaunches, .refl⟩ (.remainder hscript hnodes)

end Launch

end OsmImport
