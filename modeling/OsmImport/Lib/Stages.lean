import OsmImport.Lib.Prog

/-!
# Programs in stages

A program that works in stages, each of which takes effect as a whole or not at all. `view` is the part of
the state that the stages change, and a stage is a function on it that says what the stage leaves, if it can
be done. Wherever such a program stops, it leaves one of the views between its stages (`Staged`); and if a
stage fails only where it cannot be done, then its outcome is known (`Exact`).
-/

namespace Stages

variable {τ : Type}

/-! ## Lists of stages -/

/-- All stages are done. -/
def finish : List (τ → Option τ) → τ → Option τ
  | [], x => some x
  | f :: l, x => (f x).bind (finish l)

/-- The views between the stages, up to one that cannot be done. -/
def trail : List (τ → Option τ) → τ → List τ
  | [], x => [x]
  | f :: l, x => x :: (match f x with
    | none => []
    | some y => trail l y)

/-- The last of them. -/
def reached : List (τ → Option τ) → τ → τ
  | [], x => x
  | f :: l, x => match f x with
    | none => x
    | some y => reached l y

variable {f : τ → Option τ} {l l' : List (τ → Option τ)} {x y z : τ}

theorem trail_cons_none (h : f x = none) : trail (f :: l) x = [x] := by
  rw [trail, h]

theorem trail_cons_some (h : f x = some y) : trail (f :: l) x = x :: trail l y := by
  rw [trail, h]

theorem reached_cons_none (h : f x = none) : reached (f :: l) x = x := by
  rw [reached, h]

theorem reached_cons_some (h : f x = some y) : reached (f :: l) x = reached l y := by
  rw [reached, h]

theorem finish_cons_some (h : f x = some y) : finish (f :: l) x = finish l y := by
  rw [finish, h, Option.bind_some]

@[simp] theorem mem_trail_self : x ∈ trail l x := by
  cases l <;> simp [trail]

/-- A single stage is done or not. -/
theorem mem_trail_singleton : y ∈ trail [f] x ↔ y = x ∨ f x = some y := by
  cases hf : f x with
  | none =>
    rw [trail_cons_none hf, List.mem_singleton]
    simp
  | some z =>
    rw [trail_cons_some hf, trail, List.mem_cons, List.mem_singleton, Option.some.injEq, eq_comm (a := z)]

theorem finish_append : finish (l ++ l') x = (finish l x).bind (finish l') := by
  induction l generalizing x with
  | nil => rfl
  | cons f l ih =>
    rw [List.cons_append, finish, finish, Option.bind_assoc]
    exact congrArg _ (funext fun y => ih)

theorem mem_trail_append :
    y ∈ trail (l ++ l') x ↔ y ∈ trail l x ∨ ∃ z, finish l x = some z ∧ y ∈ trail l' z := by
  induction l generalizing x with
  | nil =>
    constructor
    · exact fun h => .inr ⟨x, rfl, h⟩
    · rintro (h | ⟨z, hz, h⟩)
      · rw [List.mem_singleton.mp h]
        exact mem_trail_self
      · cases hz
        exact h
  | cons f l ih =>
    rw [List.cons_append]
    cases hf : f x with
    | none =>
      rw [trail_cons_none hf, trail_cons_none hf, finish, hf]
      simp
    | some z =>
      rw [trail_cons_some hf, trail_cons_some hf, finish_cons_some hf, List.mem_cons, List.mem_cons, ih,
        or_assoc]

theorem reached_append_none (h : finish l x = none) : reached (l ++ l') x = reached l x := by
  induction l generalizing x with
  | nil => cases h
  | cons f l ih =>
    rw [List.cons_append]
    cases hf : f x with
    | none => rw [reached_cons_none hf, reached_cons_none hf]
    | some z =>
      rw [finish_cons_some hf] at h
      rw [reached_cons_some hf, reached_cons_some hf, ih h]

theorem reached_append_some (h : finish l x = some y) : reached (l ++ l') x = reached l' y := by
  induction l generalizing x with
  | nil =>
    cases h
    rfl
  | cons f l ih =>
    cases hf : f x with
    | none =>
      rw [finish, hf] at h
      cases h
    | some z =>
      rw [finish_cons_some hf] at h
      rw [List.cons_append, reached_cons_some hf, ih h]

/-! ### Invariants of the views -/

/-- From a view in `P` all views between the stages are in `P`. -/
def Keeps (P : τ → Prop) (l : List (τ → Option τ)) : Prop := ∀ x, P x → ∀ y ∈ trail l x, P y

variable {P : τ → Prop}

theorem finish_mem_trail (h : finish l x = some y) : y ∈ trail l x := by
  have happend : y ∈ trail (l ++ []) x := mem_trail_append.mpr (.inr ⟨y, h, mem_trail_self⟩)
  rwa [List.append_nil] at happend

theorem Keeps.append (h : Keeps P l) (h' : Keeps P l') : Keeps P (l ++ l') := by
  intro x hx y hy
  rcases mem_trail_append.mp hy with hy | ⟨z, hz, hy⟩
  · exact h x hx y hy
  · exact h' z (h x hx z (finish_mem_trail hz)) y hy

theorem keeps_stage (h : ∀ x y, P x → f x = some y → P y) : Keeps P [f] := by
  intro x hx y hy
  rcases mem_trail_singleton.mp hy with rfl | hf
  · exact hx
  · exact h x y hx hf

/-! ## Programs -/

variable {σ ε α : Type} {view : σ → τ} {m m' : Prog σ ε Unit}

/-- The program does the stages one after another, and stops between two of them if it does not end. -/
def Staged (view : σ → τ) (m : Prog σ ε Unit) (l : List (τ → Option τ)) : Prop :=
  ∀ s, m.Ensures s (fun _ s' => finish l (view s) = some (view s'))
    (fun _ s' => view s' ∈ trail l (view s)) fun s' => view s' ∈ trail l (view s)

theorem staged_pure : Staged view (pure () : Prog σ ε Unit) [] := fun _ => rfl

theorem staged_throw (e : ε) : Staged view (Prog.throw e : Prog σ ε Unit) l := fun _ => mem_trail_self

theorem Staged.bind (h : Staged view m l) (h' : Staged view m' l') :
    Staged view (m >>= fun _ => m') (l ++ l') := by
  intro s
  refine Prog.ensures_bind ((h s).mono (fun _ s' hs' => ?_) (fun _ s' hs' => ?_) fun s' hs' => ?_)
  · refine (h' s').mono (fun _ t ht => ?_) (fun _ t ht => ?_) fun t ht => ?_
    · rw [finish_append, hs']
      exact ht
    · exact mem_trail_append.mpr (.inr ⟨view s', hs', ht⟩)
    · exact mem_trail_append.mpr (.inr ⟨view s', hs', ht⟩)
  · exact mem_trail_append.mpr (.inl hs')
  · exact mem_trail_append.mpr (.inl hs')

/-- Where it stops is one of the views between the stages. -/
theorem Staged.mem_trail (h : Staged view m l) (s : σ) : view (m.run s).state ∈ trail l (view s) := by
  have hrun := h s
  unfold Prog.Ensures at hrun
  cases hm : m.run s <;> rw [hm] at hrun
  · exact finish_mem_trail hrun
  · exact hrun
  · exact hrun

/-- The program ends if all stages can be done, and otherwise it throws behind those that can. -/
def Exact (view : σ → τ) (m : Prog σ ε Unit) (l : List (τ → Option τ)) : Prop :=
  ∀ s, match finish l (view s) with
    | some y => ∃ s', m.run s = .done () s' ∧ view s' = y
    | none => ∃ e s', m.run s = .threw e s' ∧ view s' = reached l (view s)

theorem exact_throw (e : ε) (hf : ∀ x, f x = none) :
    Exact view (Prog.throw e : Prog σ ε Unit) (f :: l) := by
  intro s
  rw [finish, hf]
  exact ⟨e, s, rfl, (reached_cons_none (hf _)).symm⟩

theorem Exact.bind (h : Exact view m l) (h' : Exact view m' l') :
    Exact view (m >>= fun _ => m') (l ++ l') := by
  intro s
  have hs := h s
  rw [finish_append]
  cases hl : finish l (view s) with
  | none =>
    rw [hl] at hs
    obtain ⟨e, s', hrun, hview⟩ := hs
    refine ⟨e, s', ?_, hview.trans (reached_append_none hl).symm⟩
    rw [Prog.run_bind, hrun]
  | some y =>
    rw [hl] at hs
    obtain ⟨s', hrun, rfl⟩ := hs
    have hs' := h' s'
    rw [Option.bind_some, Prog.run_bind_done hrun, reached_append_some hl]
    exact hs'

end Stages
