import Mathlib.Data.List.Basic

/-!
# Programs with exceptions that can die

A program over a state `σ` ends with a result, with an exception of type `ε`, or by the death of the
process; the state survives in each case. `Ensures m s Q E D` is the rule language for such programs:
run on `s`, the program `m` ends in `Q`, `E` or `D`, whichever way it ends.
-/

/-- How a run ends. -/
inductive Outcome (σ ε α : Type) where
  | done (a : α) (s : σ)
  | threw (e : ε) (s : σ)
  | died (s : σ)

/-- The state at the end, whichever way the run ends. -/
def Outcome.state {σ ε α : Type} : Outcome σ ε α → σ
  | .done _ s => s
  | .threw _ s => s
  | .died s => s

/-- A program. -/
structure Prog (σ ε α : Type) where
  run : σ → Outcome σ ε α

namespace Prog

variable {σ ε α β : Type}

instance : Monad (Prog σ ε) where
  pure a := ⟨fun s => .done a s⟩
  bind m f := ⟨fun s => match m.run s with
    | .done a s => (f a).run s
    | .threw e s => .threw e s
    | .died s => .died s⟩

/-- The current state. -/
def get : Prog σ ε σ := ⟨fun s => .done s s⟩

/-- An update of the state. -/
def modify (f : σ → σ) : Prog σ ε Unit := ⟨fun s => .done () (f s)⟩

/-- An exception is thrown. -/
def throw (e : ε) : Prog σ ε α := ⟨fun s => .threw e s⟩

/-- An exception becomes a value: `try … catch` goes on with a match on it. -/
def attempt (m : Prog σ ε α) : Prog σ ε (Except ε α) := ⟨fun s => match m.run s with
  | .done a s => .done (.ok a) s
  | .threw e s => .done (.error e) s
  | .died s => .died s⟩

/-- The program for each element of a list in turn. -/
def forEach (l : List β) (f : β → Prog σ ε Unit) : Prog σ ε Unit :=
  match l with
  | [] => pure ()
  | b :: l => do f b; forEach l f

/-! ## Equations -/

@[ext] theorem ext {m m' : Prog σ ε α} (h : ∀ s, m.run s = m'.run s) : m = m' := by
  cases m
  cases m'
  congr
  exact funext h

@[simp] theorem run_pure (a : α) (s : σ) : (pure a : Prog σ ε α).run s = .done a s := rfl

theorem run_bind (m : Prog σ ε α) (f : α → Prog σ ε β) (s : σ) :
    (m >>= f).run s = match m.run s with
      | .done a s => (f a).run s
      | .threw e s => .threw e s
      | .died s => .died s := rfl

theorem run_bind_done {m : Prog σ ε α} {f : α → Prog σ ε β} {s s' : σ} {a : α}
    (h : m.run s = .done a s') : (m >>= f).run s = (f a).run s' := by
  rw [run_bind, h]

instance : LawfulMonad (Prog σ ε) := by
  refine LawfulMonad.mk' _ ?_ ?_ ?_
  · intro α m
    ext s
    show (m >>= pure).run s = m.run s
    rw [run_bind]
    cases m.run s <;> rfl
  · intro α β a f
    rfl
  · intro α β γ m f g
    ext s
    rw [run_bind, run_bind, run_bind]
    cases m.run s <;> rfl

@[simp] theorem run_get_bind (f : σ → Prog σ ε β) (s : σ) : (get >>= f).run s = (f s).run s := rfl

@[simp] theorem run_modify (f : σ → σ) (s : σ) :
    (modify f : Prog σ ε Unit).run s = .done () (f s) := rfl

@[simp] theorem run_modify_bind (g : σ → σ) (f : Unit → Prog σ ε β) (s : σ) :
    (modify g >>= f).run s = (f ()).run (g s) := rfl

@[simp] theorem run_throw (e : ε) (s : σ) : (throw e : Prog σ ε α).run s = .threw e s := rfl

theorem run_attempt_done {m : Prog σ ε α} {s s' : σ} {a : α} (h : m.run s = .done a s') :
    (attempt m).run s = .done (.ok a) s' := by
  simp only [attempt, h]

theorem run_attempt_threw {m : Prog σ ε α} {s s' : σ} {e : ε} (h : m.run s = .threw e s') :
    (attempt m).run s = .done (.error e) s' := by
  simp only [attempt, h]

/-! ## Rules -/

/-- Run on `s`, the program ends in `Q`, `E` or `D`. -/
def Ensures (m : Prog σ ε α) (s : σ) (Q : α → σ → Prop) (E : ε → σ → Prop) (D : σ → Prop) : Prop :=
  match m.run s with
  | .done a s' => Q a s'
  | .threw e s' => E e s'
  | .died s' => D s'

section

variable {m : Prog σ ε α} {s : σ} {Q Q' : α → σ → Prop} {E E' : ε → σ → Prop} {D D' : σ → Prop}

theorem ensures_get_bind {f : σ → Prog σ ε β} {R : β → σ → Prop} (h : Ensures (f s) s R E D) :
    Ensures (get >>= f) s R E D := h

theorem ensures_modify {f : σ → σ} {Q : Unit → σ → Prop} (h : Q () (f s)) :
    Ensures (modify f) s Q E D := h

/-- Sequencing: an exception and the death of the process end the whole program. -/
theorem ensures_bind {f : α → Prog σ ε β} {R : β → σ → Prop}
    (h : Ensures m s (fun a s' => Ensures (f a) s' R E D) E D) : Ensures (m >>= f) s R E D := by
  unfold Ensures at h ⊢
  rw [run_bind]
  cases hm : m.run s <;> rw [hm] at h <;> exact h

theorem ensures_attempt {Q : Except ε α → σ → Prop}
    (h : Ensures m s (fun a => Q (.ok a)) (fun e => Q (.error e)) D) :
    Ensures (attempt m) s Q E D := by
  unfold Ensures attempt at *
  dsimp only
  cases hm : m.run s <;> rw [hm] at h <;> exact h

theorem Ensures.mono (h : Ensures m s Q E D) (hq : ∀ a s', Q a s' → Q' a s')
    (he : ∀ e s', E e s' → E' e s') (hd : ∀ s', D s' → D' s') : Ensures m s Q' E' D' := by
  unfold Ensures at *
  cases hm : m.run s <;> rw [hm] at h
  · exact hq _ _ h
  · exact he _ _ h
  · exact hd _ h

/-- A postcondition, after a program that satisfies a stronger one. -/
theorem Ensures.done (h : Ensures m s Q E D) (hq : ∀ a s', Q a s' → Q' a s') :
    Ensures m s Q' E D :=
  h.mono hq (fun _ _ h => h) fun _ h => h

/-- Two postconditions of one run. -/
theorem Ensures.and (h : Ensures m s Q E D) (h' : Ensures m s Q' E' D') :
    Ensures m s (fun a s' => Q a s' ∧ Q' a s') (fun e s' => E e s' ∧ E' e s') fun s' => D s' ∧ D' s' := by
  unfold Ensures at *
  cases hm : m.run s <;> rw [hm] at h h' <;> exact ⟨h, h'⟩

/-- The postcondition may refer to the run itself. -/
theorem Ensures.withRun (h : Ensures m s Q E D) :
    Ensures m s (fun a s' => Q a s' ∧ m.run s = .done a s') E D := by
  unfold Ensures at *
  cases hm : m.run s <;> rw [hm] at h
  · exact ⟨h, rfl⟩
  · exact h
  · exact h

theorem ensures_of_run {s' : σ} {a : α} (hm : m.run s = .done a s') (h : Q a s') :
    Ensures m s Q E D := by
  unfold Ensures
  rwa [hm]

end

/-- The program ends with a result, in `Q`. -/
abbrev Ends (m : Prog σ ε α) (s : σ) (Q : α → σ → Prop) : Prop :=
  Ensures m s Q (fun _ _ => False) fun _ => False

theorem Ends.exists {m : Prog σ ε α} {s : σ} {Q : α → σ → Prop} (h : Ends m s Q) :
    ∃ a s', m.run s = .done a s' ∧ Q a s' := by
  unfold Ends Ensures at h
  cases hm : m.run s <;> rw [hm] at h
  · exact ⟨_, _, rfl, h⟩
  · exact h.elim
  · exact h.elim

/-! ## Invariants -/

/-- The program keeps `I`, and an exception or the death of the process leaves `W`. -/
def Preserves (I W : σ → Prop) (m : Prog σ ε α) : Prop :=
  ∀ s, I s → Ensures m s (fun _ => I) (fun _ => W) W

section

variable {I W : σ → Prop}

theorem preserves_pure (a : α) : Preserves I W (pure a : Prog σ ε α) := fun _ h => h

theorem preserves_get : Preserves I W (get : Prog σ ε σ) := fun _ h => h

theorem preserves_modify {g : σ → σ} (h : ∀ s, I s → I (g s)) :
    Preserves I W (modify g : Prog σ ε Unit) := h

theorem Preserves.bind {m : Prog σ ε α} {g : α → Prog σ ε β} (hm : Preserves I W m)
    (hg : ∀ a, Preserves I W (g a)) : Preserves I W (m >>= g) :=
  fun s hs => ensures_bind ((hm s hs).done fun a s' hs' => hg a s' hs')

theorem Preserves.ite {c : Prop} [Decidable c] {m m' : Prog σ ε α} (hm : Preserves I W m)
    (hm' : Preserves I W m') : Preserves I W (if c then m else m') := by
  split
  · exact hm
  · exact hm'

end

/-! ## Frames -/

/-- The program leaves the part `f` of the state as it is. -/
def Keeps {γ : Type} (f : σ → γ) (m : Prog σ ε α) : Prop := ∀ s, f (m.run s).state = f s

section

variable {γ : Type} {f : σ → γ}

theorem Keeps.ensures {m : Prog σ ε α} (h : Keeps f m) {s : σ} :
    Ensures m s (fun _ s' => f s' = f s) (fun _ s' => f s' = f s) fun s' => f s' = f s := by
  have hs := h s
  unfold Ensures
  cases hm : m.run s <;> rw [hm] at hs <;> exact hs

/-- Where the program ends, that part is as it was. -/
theorem Keeps.done {m : Prog σ ε α} (h : Keeps f m) {s s' : σ} {a : α} (hrun : m.run s = .done a s') :
    f s' = f s := by
  have hs := h s
  rwa [hrun] at hs

theorem keeps_pure (a : α) : Keeps f (pure a : Prog σ ε α) := fun _ => rfl

theorem keeps_get : Keeps f (get : Prog σ ε σ) := fun _ => rfl

theorem keeps_throw (e : ε) : Keeps f (throw e : Prog σ ε α) := fun _ => rfl

theorem keeps_modify {g : σ → σ} (h : ∀ s, f (g s) = f s) : Keeps f (modify g : Prog σ ε Unit) := h

theorem Keeps.bind {m : Prog σ ε α} {g : α → Prog σ ε β} (hm : Keeps f m) (hg : ∀ a, Keeps f (g a)) :
    Keeps f (m >>= g) := by
  intro s
  have hs := hm s
  rw [run_bind]
  cases h : m.run s with
  | done a s' =>
    rw [h] at hs
    exact (hg a s').trans hs
  | threw e s' =>
    rw [h] at hs
    exact hs
  | died s' =>
    rw [h] at hs
    exact hs

theorem Keeps.attempt {m : Prog σ ε α} (hm : Keeps f m) : Keeps f (attempt m) := by
  intro s
  have hs := hm s
  unfold Prog.attempt
  dsimp only
  cases h : m.run s <;> rw [h] at hs <;> exact hs

theorem Keeps.ite {c : Prop} [Decidable c] {m m' : Prog σ ε α} (hm : Keeps f m)
    (hm' : Keeps f m') : Keeps f (if c then m else m') := by
  split
  · exact hm
  · exact hm'

end

/-! ## Programs that end -/

/-- From every state in `I` the program ends with a result, in `I`. -/
def TotalOn (I : σ → Prop) (m : Prog σ ε α) : Prop := ∀ s, I s → ∃ a s', m.run s = .done a s' ∧ I s'

theorem TotalOn.bind {I : σ → Prop} {m : Prog σ ε α} {g : α → Prog σ ε β} (hm : TotalOn I m)
    (hg : ∀ a, TotalOn I (g a)) : TotalOn I (m >>= g) := by
  intro s hs
  obtain ⟨a, s', ha, hs'⟩ := hm s hs
  rw [run_bind_done ha]
  exact hg a s' hs'

/-! ## Properties of what is put together -/

/-- A property of programs that holds of a program if it holds of its parts. -/
structure Compositional (P : ∀ {α : Type}, Prog σ ε α → Prop) : Prop where
  pure : ∀ {α : Type} (a : α), P (Pure.pure a : Prog σ ε α)
  get : P (Prog.get : Prog σ ε σ)
  bind : ∀ {α β : Type} {m : Prog σ ε α} {g : α → Prog σ ε β}, P m → (∀ a, P (g a)) → P (m >>= g)

theorem compositional_keeps {γ : Type} (f : σ → γ) :
    Compositional (σ := σ) (ε := ε) fun m => Keeps f m :=
  ⟨keeps_pure, keeps_get, Keeps.bind⟩

theorem compositional_preserves (I W : σ → Prop) :
    Compositional (σ := σ) (ε := ε) fun m => Preserves I W m :=
  ⟨preserves_pure, preserves_get, Preserves.bind⟩

theorem compositional_totalOn (I : σ → Prop) : Compositional (σ := σ) (ε := ε) fun m => TotalOn I m :=
  ⟨fun a s hs => ⟨a, s, rfl, hs⟩, fun s hs => ⟨s, s, rfl, hs⟩, TotalOn.bind⟩

/-! ## Loops -/

@[simp] theorem forEach_cons (b : β) (l : List β) (f : β → Prog σ ε Unit) :
    forEach (b :: l) f = (do f b; forEach l f) := rfl

@[simp] theorem forEach_singleton (b : β) (f : β → Prog σ ε Unit) : forEach [b] f = f b :=
  bind_pure_unit

theorem run_forEach_append (l l' : List β) (f : β → Prog σ ε Unit) (s : σ) :
    (forEach (l ++ l') f).run s = (forEach l f >>= fun _ => forEach l' f).run s := by
  induction l generalizing s with
  | nil => rfl
  | cons b l ih =>
    show (f b >>= fun _ => forEach (l ++ l') f).run s =
      ((f b >>= fun _ => forEach l f) >>= fun _ => forEach l' f).run s
    rw [run_bind, run_bind, run_bind]
    cases (f b).run s with
    | done a s' => exact ih s'
    | threw e s' => rfl
    | died s' => rfl

/-- A loop that ends without an exception has ended so behind each initial piece of its list. -/
theorem forEach_done_append {l l' : List β} {f : β → Prog σ ε Unit} {s s' : σ}
    (h : (forEach (l ++ l') f).run s = .done () s') :
    ∃ t, (forEach l f).run s = .done () t ∧ (forEach l' f).run t = .done () s' := by
  rw [run_forEach_append, run_bind] at h
  cases hl : (forEach l f).run s with
  | done a t =>
    rw [hl] at h
    exact ⟨t, rfl, h⟩
  | threw e t =>
    rw [hl] at h
    cases h
  | died t =>
    rw [hl] at h
    cases h

end Prog
