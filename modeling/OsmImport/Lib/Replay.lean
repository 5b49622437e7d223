import Mathlib.Data.List.Perm.Basic
import Mathlib.Tactic.Tauto

/-!
# Applying a log again behind a piece of it

The operations `p` are applied, and then the whole log `p ++ q` from its beginning. For two kinds of
cells this module says exactly when the cell ends as if the log had been applied once: `SlotOp`, a value
that is put if nothing is there, overwritten and cleared, and `BagOp`, values that are added, brought in
line with one value, and removed.
-/

namespace Replay

variable {σ α : Type}

/-- Behind an operation that forgets the state, the state before it does not matter. -/
theorem foldl_eq_of_reset {step : σ → α → σ} {l : List α} {a : α} (ha : a ∈ l)
    (h : ∀ x y, step x a = step y a) (x y : σ) : l.foldl step x = l.foldl step y := by
  obtain ⟨before, behind, rfl⟩ := List.append_of_mem ha
  rw [List.foldl_append, List.foldl_append, List.foldl_cons, List.foldl_cons,
    h (before.foldl step x) (before.foldl step y)]

/-! ## Slots -/

/-- An operation on a slot. -/
inductive SlotOp (α : Type) where
  | put (a : α)
  | set (a : α)
  | clear

namespace SlotOp

/-- Its effect; a slot may hold several values, which are overwritten together. -/
def act (x : List α) : SlotOp α → List α
  | put a => if x.isEmpty then [a] else x
  | set a => x.map fun _ => a
  | clear => []

theorem act_put {x : List α} (hx : x ≠ []) (a : α) : act x (put a) = x := if_neg (by simpa using hx)

/-- The value of the last `set`. -/
def lastSet : List (SlotOp α) → Option α
  | [] => none
  | set a :: l => (lastSet l).or (some a)
  | _ :: l => lastSet l

/-- The slot is cleared, or it is overwritten by `q`, or it holds behind `p` what `p` wrote last. -/
def Repeatable (p q : List (SlotOp α)) (x : List α) : Prop :=
  clear ∈ p ++ q ∨ (∃ a, set a ∈ q) ∨ ∀ a, lastSet p = some a → ∀ b ∈ p.foldl act x, b = a

theorem lastSet_eq_none {l : List (SlotOp α)} : lastSet l = none ↔ ∀ a, set a ∉ l := by
  induction l with
  | nil => simp [lastSet]
  | cons op l ih =>
    cases op with
    | put a => simp [lastSet, ih]
    | clear => simp [lastSet, ih]
    | set a =>
      have hsome : lastSet (set a :: l) ≠ none := by simp [lastSet]
      refine iff_of_false hsome fun h => h a List.mem_cons_self

/-- What `l` leaves of values that are there. -/
def overwritten (l : List (SlotOp α)) (x : List α) : List α :=
  match lastSet l with
  | some a => x.map fun _ => a
  | none => x

theorem foldl_act {l : List (SlotOp α)} (hl : clear ∉ l) {x : List α} (hx : x ≠ []) :
    l.foldl act x = overwritten l x := by
  induction l generalizing x with
  | nil => rfl
  | cons op l ih =>
    have hl' : clear ∉ l := fun h => hl (List.mem_cons_of_mem _ h)
    cases op with
    | put a =>
      rw [List.foldl_cons, act_put hx, ih hl' hx]
      rfl
    | clear => exact absurd List.mem_cons_self hl
    | set a =>
      have hset : act x (set a) ≠ [] := by simpa [act] using hx
      rw [List.foldl_cons, ih hl' hset]
      unfold overwritten
      rw [lastSet]
      cases lastSet l with
      | none => rfl
      | some b => exact List.map_map

theorem foldl_act_ne_nil {l : List (SlotOp α)} (hl : clear ∉ l) {x : List α} (hx : x ≠ []) :
    l.foldl act x ≠ [] := by
  rw [foldl_act hl hx]
  unfold overwritten
  cases lastSet l with
  | none => exact hx
  | some a => simpa using hx

theorem map_const_perm {y : List α} {a : α} : (y.map fun _ => a).Perm y ↔ ∀ b ∈ y, b = a := by
  constructor
  · intro h b hb
    obtain ⟨_, -, rfl⟩ := List.mem_map.mp (h.mem_iff.mpr hb)
    rfl
  · intro h
    have hid : (y.map fun _ => a) = y := by
      rw [List.map_congr_left fun b hb => (h b hb).symm, List.map_id']
    rw [hid]

/-- **Slots.** -/
theorem replay_iff (p q : List (SlotOp α)) (x : List α) :
    ((p ++ q).foldl act (p.foldl act x)).Perm ((p ++ q).foldl act x) ↔ Repeatable p q x := by
  by_cases hclear : clear ∈ p ++ q
  · rw [foldl_eq_of_reset hclear (fun _ _ => rfl) (p.foldl act x) x]
    exact iff_of_true (.refl _) (.inl hclear)
  · have hp : clear ∉ p := fun h => hclear (List.mem_append_left _ h)
    have hq : clear ∉ q := fun h => hclear (List.mem_append_right _ h)
    unfold Repeatable
    rw [List.foldl_append, List.foldl_append]
    by_cases hy : p.foldl act x = []
    · have hx : x = [] := by
        by_contra hx
        exact foldl_act_ne_nil hp hx hy
      rw [hx] at hy ⊢
      rw [hy, hy]
      exact iff_of_true (.refl _) (.inr (.inr fun a _ b hb => absurd hb List.not_mem_nil))
    · rw [foldl_act hp hy, foldl_act hq hy]
      generalize p.foldl act x = y at hy ⊢
      have hover : overwritten p y ≠ [] := foldl_act hp hy ▸ foldl_act_ne_nil hp hy
      rw [foldl_act hq hover]
      unfold overwritten
      cases hset : lastSet q with
      | some b =>
        have hmem : ∃ a, set a ∈ q := by
          by_contra h
          rw [lastSet_eq_none.mpr fun a ha => h ⟨a, ha⟩] at hset
          cases hset
        refine iff_of_true ?_ (.inr (.inl hmem))
        cases lastSet p with
        | none => exact .refl _
        | some a => simp
      | none =>
        have hnone : ¬ ∃ a, set a ∈ q := fun ⟨a, ha⟩ => lastSet_eq_none.mp hset a ha
        cases lastSet p with
        | none => simp
        | some a =>
          dsimp only
          rw [map_const_perm]
          constructor
          · intro h
            exact .inr (.inr fun a' ha' b hb => (h b hb).trans (Option.some.inj ha'))
          · rintro (h | h | h)
            · exact absurd h hclear
            · exact absurd h hnone
            · exact h a rfl

end SlotOp

/-! ## Bags -/

/-- An operation on a bag. -/
inductive BagOp (α : Type) where
  | add (vs : List α)
  | sync (v : Option α)

namespace BagOp

/-- The number of values that are added. -/
def added : List (BagOp α) → ℕ
  | [] => 0
  | add vs :: l => vs.length + added l
  | _ :: l => added l

theorem added_pos {l : List (BagOp α)} {vs : List α} (hvs : vs ≠ []) (h : add vs ∈ l) :
    0 < added l := by
  induction l with
  | nil => exact absurd h List.not_mem_nil
  | cons op l ih =>
    rcases List.mem_cons.mp h with rfl | h
    · rw [added]
      exact Nat.add_pos_left (List.length_pos_iff.mpr hvs) _
    · have ih := ih h
      rcases op with ws | _ | v
      · rw [added]
        exact Nat.add_pos_right _ ih
      · exact ih
      · exact ih

variable [DecidableEq α]

/-- `sync (some v)`. The last value decides. -/
def syncTo (x : List α) (v : α) : List α :=
  if x.getLast? = some v then x else if x.isEmpty then [v] else x.map fun _ => v

/-- Its effect. -/
def act (x : List α) : BagOp α → List α
  | add vs => x ++ vs
  | sync (some v) => syncTo x v
  | sync none => []

/-- The bag is emptied, or `p` adds nothing. -/
def Repeatable (p q : List (BagOp α)) : Prop :=
  sync none ∈ p ++ q ∨ ∀ vs, add vs ∈ p → vs = []

theorem syncTo_replicate (n : ℕ) (c v : α) :
    syncTo (List.replicate (n + 1) c) v = List.replicate (n + 1) v := by
  unfold syncTo
  split
  · rename_i h
    rw [List.getLast?_replicate] at h
    rw [if_neg (by omega)] at h
    rw [Option.some.inj h]
  · simp

theorem syncTo_cases (x : List α) (v : α) :
    syncTo x v = x ∨ ∃ n, syncTo x v = List.replicate (n + 1) v := by
  unfold syncTo
  split
  · exact .inl rfl
  · cases x with
    | nil => exact .inr ⟨0, rfl⟩
    | cons a x => exact .inr ⟨x.length, by simp [List.replicate_succ]⟩

theorem foldl_syncTo_replicate (vs : List α) (n : ℕ) (c : α) :
    vs.foldl syncTo (List.replicate (n + 1) c) = List.replicate (n + 1) (vs.getLastD c) := by
  induction vs generalizing c with
  | nil => rfl
  | cons v vs ih => rw [List.foldl_cons, syncTo_replicate, ih, List.getLastD_cons]

/-- Values leave the bag as it is, or fill it with the last of them. -/
theorem foldl_syncTo_cases (vs : List α) (x : List α) :
    vs.foldl syncTo x = x ∨ ∃ n, ∀ c, vs.foldl syncTo x = List.replicate (n + 1) (vs.getLastD c) := by
  induction vs generalizing x with
  | nil => exact .inl rfl
  | cons v vs ih =>
    rw [List.foldl_cons]
    rcases syncTo_cases x v with hsame | ⟨n, hfill⟩
    · rw [hsame]
      rcases ih x with h | ⟨n, h⟩
      · exact .inl h
      · refine .inr ⟨n, fun c => ?_⟩
        rw [List.getLastD_cons]
        exact h v
    · refine .inr ⟨n, fun c => ?_⟩
      rw [hfill, foldl_syncTo_replicate, List.getLastD_cons]

theorem foldl_syncTo_idem (vs : List α) (x : List α) :
    vs.foldl syncTo (vs.foldl syncTo x) = vs.foldl syncTo x := by
  rcases foldl_syncTo_cases vs x with h | ⟨n, h⟩
  · rw [h, h]
  · cases vs with
    | nil => rfl
    | cons v vs =>
      conv_lhs => rw [h v, foldl_syncTo_replicate]
      exact (h _).symm

/-- The values that are synchronised with. -/
def syncs : List (BagOp α) → List α
  | [] => []
  | sync (some v) :: l => v :: syncs l
  | _ :: l => syncs l

theorem foldl_act_syncs {l : List (BagOp α)} (hreset : sync none ∉ l)
    (hadd : ∀ vs, add vs ∈ l → vs = []) (x : List α) : l.foldl act x = (syncs l).foldl syncTo x := by
  induction l generalizing x with
  | nil => rfl
  | cons op l ih =>
    have hreset' : sync none ∉ l := fun h => hreset (List.mem_cons_of_mem _ h)
    have hadd' : ∀ vs, add vs ∈ l → vs = [] := fun vs h => hadd vs (List.mem_cons_of_mem _ h)
    rcases op with vs | _ | v
    · rw [List.foldl_cons, hadd vs List.mem_cons_self, act, List.append_nil]
      exact ih hreset' hadd' x
    · exact absurd List.mem_cons_self hreset
    · exact ih hreset' hadd' _

theorem length_syncTo {x : List α} (hx : x ≠ []) (v : α) : (syncTo x v).length = x.length := by
  unfold syncTo
  split
  · rfl
  · rw [if_neg (by simpa using hx), List.length_map]

theorem length_foldl_act {l : List (BagOp α)} (hreset : sync none ∉ l) {x : List α} (hx : x ≠ []) :
    (l.foldl act x).length = x.length + added l := by
  induction l generalizing x with
  | nil => rfl
  | cons op l ih =>
    have hreset' : sync none ∉ l := fun h => hreset (List.mem_cons_of_mem _ h)
    have hpos : 0 < x.length := List.length_pos_iff.mpr hx
    rcases op with vs | _ | v
    · have happ : x ++ vs ≠ [] := List.append_ne_nil_of_left_ne_nil hx vs
      rw [List.foldl_cons, act, ih hreset' happ, List.length_append, added]
      omega
    · exact absurd List.mem_cons_self hreset
    · have hne : syncTo x v ≠ [] := by
        rw [← List.length_pos_iff, length_syncTo hx]
        exact hpos
      rw [List.foldl_cons, act, ih hreset' hne, length_syncTo hx]
      rfl

theorem foldl_act_ne_nil {l : List (BagOp α)} (hreset : sync none ∉ l) (hadd : 0 < added l)
    (x : List α) : l.foldl act x ≠ [] := by
  induction l generalizing x with
  | nil => exact absurd hadd (Nat.lt_irrefl 0)
  | cons op l ih =>
    have hreset' : sync none ∉ l := fun h => hreset (List.mem_cons_of_mem _ h)
    rw [List.foldl_cons]
    rcases op with vs | _ | v
    · by_cases hnil : act x (add vs) = []
      · have hvs : vs = [] := (List.append_eq_nil_iff.mp hnil).2
        refine ih hreset' ?_ _
        rw [added, hvs, List.length_nil, Nat.zero_add] at hadd
        exact hadd
      · rw [← List.length_pos_iff, length_foldl_act hreset' hnil]
        exact Nat.add_pos_left (List.length_pos_iff.mpr hnil) _
    · exact absurd List.mem_cons_self hreset
    · exact ih hreset' hadd _

/-- **Bags.** -/
theorem replay_iff (p q : List (BagOp α)) (x : List α) :
    ((p ++ q).foldl act (p.foldl act x)).Perm ((p ++ q).foldl act x) ↔ Repeatable p q := by
  by_cases hreset : sync none ∈ p ++ q
  · rw [foldl_eq_of_reset hreset (fun _ _ => rfl) (p.foldl act x) x]
    exact iff_of_true (.refl _) (.inl hreset)
  · have hp : sync none ∉ p := fun h => hreset (List.mem_append_left _ h)
    have hq : sync none ∉ q := fun h => hreset (List.mem_append_right _ h)
    rw [List.foldl_append, List.foldl_append]
    by_cases hadd : ∀ vs, add vs ∈ p → vs = []
    · rw [foldl_act_syncs hp hadd, foldl_act_syncs hp hadd, foldl_syncTo_idem]
      exact iff_of_true (.refl _) (.inr hadd)
    · refine iff_of_false (fun h => ?_) (by rintro (h | h) <;> contradiction)
      obtain ⟨vs, hmem, hvs⟩ : ∃ vs, add vs ∈ p ∧ vs ≠ [] := by
        by_contra hnone
        exact hadd fun vs hmem => by_contra fun hvs => hnone ⟨vs, hmem, hvs⟩
      have hpos : 0 < added p := added_pos hvs hmem
      have hy : p.foldl act x ≠ [] := foldl_act_ne_nil hp hpos x
      have hlen := h.length_eq
      rw [length_foldl_act hq (foldl_act_ne_nil hp hpos _), length_foldl_act hp hy,
        length_foldl_act hq hy] at hlen
      omega

end BagOp

end Replay
