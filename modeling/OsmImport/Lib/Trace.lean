import Mathlib.Data.List.Induction
import Mathlib.Order.OrderIsoNat

/-!
# Traces of a transition system

The runs of a labelled transition system, the latest action last, and the properties of a list that say
of each element how it is justified by the elements before it. A part of a system that only some of the
actions concern has traces of its own (`Trace.project`). Runs that cannot go on forever and cannot get
stuck reach their end (`Trace.finishes`).
-/

variable {σ α : Type*}

/-- The actions of a run and the state in which it ends. -/
inductive Trace (step : σ → α → σ → Prop) (init : σ) : List α → σ → Prop where
  | nil : Trace step init [] init
  | snoc {tr : List α} {s s' : σ} {a : α} (h : Trace step init tr s) (hs : step s a s') :
    Trace step init (tr ++ [a]) s'

/-- The rule of invariants, for relations between the actions so far and the state. -/
theorem Trace.invariant {step : σ → α → σ → Prop} {init s : σ} {tr : List α} {I : List α → σ → Prop}
    (h : Trace step init tr s) (h0 : I [] init)
    (hstep : ∀ tr s a s', Trace step init tr s → I tr s → step s a s' → I (tr ++ [a]) s') :
    I tr s := by
  induction h with
  | nil => exact h0
  | snoc h hs ih => exact hstep _ _ _ _ h ih hs

/-- A run goes on where another ended. -/
theorem Trace.append {step : σ → α → σ → Prop} {init mid s : σ} {tr tr' : List α}
    (h : Trace step init tr mid) (h' : Trace step mid tr' s) : Trace step init (tr ++ tr') s := by
  induction h' with
  | nil => exact (List.append_nil tr).symm ▸ h
  | snoc _ hs ih =>
    rw [← List.append_assoc]
    exact ih.snoc hs

theorem Trace.eq_of_nil {step : σ → α → σ → Prop} {init s : σ} (h : Trace step init [] s) : s = init := by
  generalize htr : ([] : List α) = tr at h
  cases h with
  | nil => rfl
  | snoc _ _ => simp at htr

theorem Trace.last {step : σ → α → σ → Prop} {init s : σ} {tr : List α} {a : α}
    (h : Trace step init (tr ++ [a]) s) : ∃ mid, Trace step init tr mid ∧ step mid a s := by
  generalize htr : tr ++ [a] = tr' at h
  cases h with
  | nil => simp at htr
  | snoc h hs =>
    obtain ⟨rfl, ha⟩ := List.append_inj' htr rfl
    obtain rfl := List.singleton_inj.mp ha
    exact ⟨_, h, hs⟩

/-- A run passes through a state behind each of its actions. -/
theorem Trace.split {step : σ → α → σ → Prop} {init s : σ} {tr tr' : List α}
    (h : Trace step init (tr ++ tr') s) : ∃ mid, Trace step init tr mid ∧ Trace step mid tr' s := by
  induction tr' using List.reverseRecOn generalizing s with
  | nil => exact ⟨s, List.append_nil tr ▸ h, .nil⟩
  | append_singleton tr' a ih =>
    rw [← List.append_assoc] at h
    obtain ⟨s', h, hs⟩ := h.last
    obtain ⟨mid, hmid, htail⟩ := ih h
    exact ⟨mid, hmid, htail.snoc hs⟩

/-- What a run looks like from one part of the system, of which `obs` are the actions. -/
theorem Trace.project {τ β : Type*} {step : σ → α → σ → Prop} {step' : τ → β → τ → Prop} {init s : σ}
    {tr : List α} (view : σ → τ) (obs : α → Option β) (h : Trace step init tr s)
    (hsim : ∀ tr s a s', Trace step init tr s → step s a s' →
      (obs a = none ∧ view s' = view s) ∨ ∃ b, obs a = some b ∧ step' (view s) b (view s')) :
    Trace step' (view init) (tr.filterMap obs) (view s) := by
  induction h with
  | nil => exact .nil
  | snoc h hs ih =>
    rw [List.filterMap_append]
    rcases hsim _ _ _ _ h hs with ⟨ha, hv⟩ | ⟨b, ha, hstep⟩
    · rw [List.filterMap_cons_none ha, List.filterMap_nil, List.append_nil, hv]
      exact ih
    · rw [List.filterMap_cons_some ha, List.filterMap_nil]
      exact .snoc ih hstep

/-! ## Runs that end -/

section

variable {ι : Type*} {step : σ → α → σ → Prop} {init : σ} {r : ι → ι → Prop} {measure : σ → ι}

/-- With a measure that every step decreases, no run goes on forever. -/
theorem Trace.not_infinite (hwf : WellFounded r)
    (hdec : ∀ tr s a s', Trace step init tr s → step s a s' → r (measure s') (measure s)) :
    ¬ ∃ run : ℕ → σ, run 0 = init ∧ ∀ n, ∃ a, step (run n) a (run (n + 1)) := by
  rintro ⟨run, h0, hrun⟩
  have htrace : ∀ n, ∃ tr, Trace step init tr (run n) := by
    intro n
    induction n with
    | zero => exact ⟨[], h0 ▸ .nil⟩
    | succ n ih =>
      obtain ⟨tr, htr⟩ := ih
      obtain ⟨a, ha⟩ := hrun n
      exact ⟨tr ++ [a], htr.snoc ha⟩
  refine (wellFounded_iff_isEmpty_descending_chain.mp hwf).false ⟨fun n => measure (run n), ?_⟩
  intro n
  obtain ⟨tr, htr⟩ := htrace n
  obtain ⟨a, ha⟩ := hrun n
  exact hdec tr _ a _ htr ha

/-- If in addition a run gets stuck in final states only, every run can be finished. -/
theorem Trace.finishes {final : σ → Prop} (hwf : WellFounded r)
    (hdec : ∀ tr s a s', Trace step init tr s → step s a s' → r (measure s') (measure s))
    (hprog : ∀ tr s, Trace step init tr s → final s ∨ ∃ a s', step s a s') {tr : List α} {s : σ}
    (h : Trace step init tr s) : ∃ tr' s', Trace step init (tr ++ tr') s' ∧ final s' := by
  obtain ⟨m, hm⟩ : ∃ m, measure s = m := ⟨_, rfl⟩
  induction m using hwf.induction generalizing tr s with
  | _ m ih =>
    rcases hprog tr s h with hs | ⟨a, s', hs⟩
    · exact ⟨[], s, (List.append_nil tr).symm ▸ h, hs⟩
    · obtain ⟨tr', s'', htr, hfinal⟩ := ih _ (hm ▸ hdec tr s a s' h hs) (h.snoc hs) rfl
      exact ⟨a :: tr', s'', (List.append_cons tr a tr').symm ▸ htr, hfinal⟩

end

/-! ## Justified lists -/

/-- Each element is justified by those before it. -/
def Justified (P : List α → α → Prop) (l : List α) : Prop :=
  ∀ pre a post, l = pre ++ a :: post → P pre a

section

variable {P Q : List α → α → Prop} {l : List α} {a : α}

@[simp] theorem justified_nil : Justified P [] := by
  intro pre a post h
  simp at h

theorem justified_concat : Justified P (l ++ [a]) ↔ Justified P l ∧ P l a := by
  constructor
  · intro h
    refine ⟨fun pre b post hl => h pre b (post ++ [a]) ?_, h l a [] rfl⟩
    rw [hl, List.append_assoc, List.cons_append]
  · rintro ⟨hl, ha⟩ pre b post h
    rcases List.eq_nil_or_concat post with rfl | ⟨post, c, rfl⟩
    · obtain ⟨rfl, hb⟩ := List.append_inj' h rfl
      obtain ⟨rfl, -⟩ := List.cons.inj hb
      exact ha
    · rw [List.concat_eq_append, ← List.cons_append, ← List.append_assoc] at h
      exact hl pre b post (List.append_inj' h rfl).1

theorem justified_append {l' : List α} : Justified P (l ++ l') ↔
    Justified P l ∧ Justified (fun pre a => P (l ++ pre) a) l' := by
  induction l' using List.reverseRecOn with
  | nil => simp
  | append_singleton l' a ih =>
    rw [← List.append_assoc, justified_concat, justified_concat, ih, and_assoc]

/-- The elements of a list that are seen by an observer. -/
theorem justified_filterMap {β : Type*} {f : α → Option β} {P : List β → β → Prop} :
    Justified P (l.filterMap f) ↔
      Justified (fun pre a => ∀ b, f a = some b → P (pre.filterMap f) b) l := by
  induction l using List.reverseRecOn with
  | nil => simp
  | append_singleton l a ih =>
    rw [List.filterMap_append, justified_concat]
    cases ha : f a with
    | none =>
      rw [List.filterMap_cons_none ha, List.filterMap_nil, List.append_nil, ih]
      simp
    | some b =>
      rw [List.filterMap_cons_some ha, List.filterMap_nil, justified_concat, ih]
      simp

/-- An element whose justification rules out that it comes behind some `pre` does not come. -/
theorem Justified.not_mem {pre post : List α} (h : Justified P (pre ++ post))
    (hP : ∀ mid, ¬ P (pre ++ mid) a) : a ∉ post := by
  intro ha
  obtain ⟨mid, rest, rfl⟩ := List.append_of_mem ha
  exact hP mid (h (pre ++ mid) a rest (List.append_assoc ..).symm)

end
