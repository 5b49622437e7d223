import OsmImport.Lib.Trace
import Mathlib.Algebra.BigOperators.Group.Finset.Basic
import Mathlib.Algebra.Order.BigOperators.Group.Finset
import Mathlib.Data.ENat.Basic
import Mathlib.Data.Fintype.Basic

/-!
# Monitors

A monitor guards a state by a mutex. A call takes the mutex, waits on a condition variable until its
condition holds, acts on the state, notifies one call that waits, releases the mutex, and notifies all
calls on some condition variables. Who is woken takes the mutex again, with other calls in between, and
tests again; and a call may wake up without a cause. The test and the effect are steps of their own: that the
condition still holds at the effect is what the mutex is for (`Monitor.ready_of_passed`).

The calls take effect one at a time (`Monitor.linearizes`), each between its beginning and its end
(`Monitor.lives`). If the wake-ups that a call gives make up for what it adds to the chances of others
(`Ticketed`), no wake-up is lost: calls come to an end, or wait for a condition that does not hold
(`Monitor.settled_of_stuck`, `Monitor.not_infinite`).
-/

/-- What the calls to a monitor do. -/
structure Monitor (σ κ ρ ν : Type*) where
  /-- The condition variable on which a call waits, and its condition. -/
  wait : κ → Option (ν × (σ → Bool))
  act : κ → σ → σ
  result : κ → σ → ρ
  /-- Of the calls that wait on this condition variable one is notified, with the mutex. -/
  one : κ → σ → Option ν
  /-- The condition variables of which all calls are notified, without the mutex. -/
  all : κ → List ν

namespace Monitor

variable {ι σ κ ρ ν : Type*} (M : Monitor σ κ ρ ν)

/-- The condition for which a call waits. -/
def ready (c : κ) (data : σ) : Bool :=
  match M.wait c with
  | some (_, p) => p data
  | none => true

/-- The condition variable on which a call waits. -/
def cv (c : κ) : Option ν := (M.wait c).map Prod.fst

/-- One call at a time. -/
def Atomic (data : σ) (op : κ × ρ) (data' : σ) : Prop :=
  M.ready op.1 data = true ∧ op.2 = M.result op.1 data ∧ data' = M.act op.1 data

/-- Where a thread is. -/
inductive Pc (κ ν : Type*) where
  | idle
  /-- It waits for the mutex. -/
  | enter (c : κ)
  /-- It holds the mutex, before the condition. -/
  | test (c : κ)
  /-- It holds the mutex, and has seen the condition hold. -/
  | passed (c : κ)
  /-- It waits on its condition variable. -/
  | asleep (c : κ)
  /-- It holds the mutex, with a notification to give or without. -/
  | acted (c : κ) (one : Option ν)
  /-- It has released the mutex, and notifies these. -/
  | broadcast (vs : List ν)

/-- It holds the mutex. -/
def Pc.holds : Pc κ ν → Bool
  | .test _ => true
  | .passed _ => true
  | .acted _ _ => true
  | _ => false

/-- The threads of a monitor. -/
structure State (ι σ κ ν : Type*) where
  data : σ
  owner : Option ι
  pc : ι → Pc κ ν

/-- Before the first call. -/
def start (data : σ) : State ι σ κ ν := ⟨data, none, fun _ => .idle⟩

/-- What the threads do. -/
inductive Event (ι κ ρ ν : Type*) where
  | call (i : ι) (c : κ)
  | lock (i : ι)
  | sleep (i : ι)
  | pass (i : ι)
  | act (i : ι) (c : κ) (r : ρ)
  | notify (i : ι) (woken : Option ι)
  | unlock (i : ι)
  | notifyAll (i : ι) (v : ν)
  | ret (i : ι)
  /-- A wake-up without a cause. -/
  | spurious (i : ι)

/-- It belongs to the calls that are under way. -/
def Event.internal : Event ι κ ρ ν → Bool
  | .call _ _ => false
  | .spurious _ => false
  | _ => true

/-- The call that takes effect. -/
def Event.acted : Event ι κ ρ ν → Option (κ × ρ)
  | .act _ c r => some (c, r)
  | _ => none

section

variable [DecidableEq ι]

/-- A thread goes on. -/
def State.goto (s : State ι σ κ ν) (i : ι) (p : Pc κ ν) : State ι σ κ ν :=
  { s with pc := Function.update s.pc i p }

variable [DecidableEq ν]

/-- A thread that waits on `v` is woken. -/
def woken (v : ν) : Pc κ ν → Pc κ ν
  | .asleep c => if M.cv c = some v then .enter c else .asleep c
  | p => p

/-- All threads that wait on `v` are woken. -/
def wakeAll (v : ν) (s : State ι σ κ ν) : State ι σ κ ν := { s with pc := fun i => M.woken v (s.pc i) }

inductive Step : State ι σ κ ν → Event ι κ ρ ν → State ι σ κ ν → Prop where
  | call {s : State ι σ κ ν} {i : ι} {c : κ} (h : s.pc i = .idle) : Step s (.call i c) (s.goto i (.enter c))
  | lock {s : State ι σ κ ν} {i : ι} {c : κ} (h : s.pc i = .enter c) (hfree : s.owner = none) :
    Step s (.lock i) { s.goto i (.test c) with owner := some i }
  | sleep {s : State ι σ κ ν} {i : ι} {c : κ} (h : s.pc i = .test c) (hnot : M.ready c s.data = false) :
    Step s (.sleep i) { s.goto i (.asleep c) with owner := none }
  | pass {s : State ι σ κ ν} {i : ι} {c : κ} (h : s.pc i = .test c) (hready : M.ready c s.data = true) :
    Step s (.pass i) (s.goto i (.passed c))
  /-- The effect. That the condition still holds is the work of the mutex. -/
  | act {s : State ι σ κ ν} {i : ι} {c : κ} (h : s.pc i = .passed c) :
    Step s (.act i c (M.result c s.data))
      { s.goto i (.acted c (M.one c s.data)) with data := M.act c s.data }
  | notify {s : State ι σ κ ν} {i j : ι} {c d : κ} {v : ν} (h : s.pc i = .acted c (some v))
    (hj : s.pc j = .asleep d) (hv : M.cv d = some v) :
    Step s (.notify i (some j)) ((s.goto i (.acted c none)).goto j (.enter d))
  /-- Nobody waits. -/
  | notifyNone {s : State ι σ κ ν} {i : ι} {c : κ} {v : ν} (h : s.pc i = .acted c (some v))
    (hnone : ∀ j d, s.pc j = .asleep d → M.cv d ≠ some v) : Step s (.notify i none) (s.goto i (.acted c none))
  | unlock {s : State ι σ κ ν} {i : ι} {c : κ} (h : s.pc i = .acted c none) :
    Step s (.unlock i) { s.goto i (.broadcast (M.all c)) with owner := none }
  | notifyAll {s : State ι σ κ ν} {i : ι} {v : ν} {vs : List ν} (h : s.pc i = .broadcast (v :: vs)) :
    Step s (.notifyAll i v) ((M.wakeAll v s).goto i (.broadcast vs))
  | ret {s : State ι σ κ ν} {i : ι} (h : s.pc i = .broadcast []) : Step s (.ret i) (s.goto i .idle)
  | spurious {s : State ι σ κ ν} {i : ι} {c : κ} (h : s.pc i = .asleep c) :
    Step s (.spurious i) (s.goto i (.enter c))

end

/-! ## Calls -/

section

variable {M} [DecidableEq ι] [DecidableEq ν] {s s' : State ι σ κ ν} {tr : List (Event ι κ ρ ν)}

/-- A call from its beginning to its end. -/
inductive Life (κ : Type*) where
  | idle
  | pending (c : κ)
  | done

/-- What a thread does to its call. -/
inductive Turn (κ ρ : Type*) where
  | call (c : κ)
  | act (c : κ) (r : ρ)
  | ret

/-- A call begins, takes effect once, and ends. -/
inductive Life.Step : Life κ → Turn κ ρ → Life κ → Prop where
  | call {c : κ} : Step .idle (.call c) (.pending c)
  | act {c : κ} {r : ρ} : Step (.pending c) (.act c r) .done
  | ret : Step .done .ret .idle

def Pc.life : Pc κ ν → Life κ
  | .idle => .idle
  | .enter c => .pending c
  | .test c => .pending c
  | .passed c => .pending c
  | .asleep c => .pending c
  | .acted _ _ => .done
  | .broadcast _ => .done

/-- What `i` does to its call. -/
def Event.turn (i : ι) : Event ι κ ρ ν → Option (Turn κ ρ)
  | .call j c => if j = i then some (.call c) else none
  | .act j c r => if j = i then some (.act c r) else none
  | .ret j => if j = i then some .ret else none
  | _ => none

omit [DecidableEq ν] in
theorem goto_pc_of_ne {i j : ι} {p : Pc κ ν} (h : i ≠ j) : (s.goto j p).pc i = s.pc i :=
  Function.update_of_ne h ..

omit [DecidableEq ν] in
@[simp] theorem goto_pc_self {i : ι} {p : Pc κ ν} : (s.goto i p).pc i = p := Function.update_self ..

omit [DecidableEq ν] in
/-- A thread that stays in its call. -/
theorem life_goto {i j : ι} {p : Pc κ ν} (h : p.life = (s.pc j).life) :
    ((s.goto j p).pc i).life = (s.pc i).life := by
  by_cases hij : i = j
  · rw [hij, goto_pc_self, h]
  · rw [goto_pc_of_ne hij]

omit [DecidableEq ι] in
theorem life_woken {v : ν} {p : Pc κ ν} : (M.woken v p).life = p.life := by
  unfold woken
  split
  · split <;> rfl
  · rfl

/-- Each thread makes its calls one after another, and each call takes effect between its beginning and
its end. -/
theorem lives {data : σ} (h : Trace M.Step (start data) tr s) (i : ι) :
    Trace Life.Step .idle (tr.filterMap (Event.turn i)) (s.pc i).life := by
  refine h.project (fun s => (s.pc i).life) (Event.turn i) fun _ s e s' _ hs => ?_
  have hturn : ∀ {j : ι} {p : Pc κ ν} {t : Turn κ ρ}, Event.turn i e = (if j = i then some t else none) →
      Life.Step (s.pc j).life t p.life → s'.pc = Function.update s.pc j p →
        (Event.turn i e = none ∧ (s'.pc i).life = (s.pc i).life) ∨
          ∃ b, Event.turn i e = some b ∧ Life.Step (s.pc i).life b (s'.pc i).life := by
    intro j p t he hlife hpc
    by_cases hji : j = i
    · subst hji
      rw [if_pos rfl] at he
      rw [hpc, Function.update_self]
      exact .inr ⟨t, he, hlife⟩
    · rw [if_neg hji] at he
      rw [hpc, Function.update_of_ne (Ne.symm hji)]
      exact .inl ⟨he, rfl⟩
  cases hs with
  | call h => exact hturn rfl (by rw [h]; exact .call) rfl
  | act h => exact hturn rfl (by rw [h]; exact .act) rfl
  | ret h => exact hturn rfl (by rw [h]; exact .ret) rfl
  | lock h _ => exact .inl ⟨rfl, life_goto (by rw [h]; rfl)⟩
  | sleep h _ => exact .inl ⟨rfl, life_goto (by rw [h]; rfl)⟩
  | pass h _ => exact .inl ⟨rfl, life_goto (by rw [h]; rfl)⟩
  | notifyNone h _ => exact .inl ⟨rfl, life_goto (by rw [h]; rfl)⟩
  | unlock h => exact .inl ⟨rfl, life_goto (by rw [h]; rfl)⟩
  | spurious h => exact .inl ⟨rfl, life_goto (by rw [h]; rfl)⟩
  | @notify k j c d v h hj _ =>
    have hne : j ≠ k := by
      rintro rfl
      cases h.symm.trans hj
    refine .inl ⟨rfl, (life_goto ?_).trans (life_goto (by rw [h]; rfl))⟩
    rw [goto_pc_of_ne hne, hj]
    rfl
  | @notifyAll k v vs h =>
    refine .inl ⟨rfl, (life_goto ?_).trans life_woken⟩
    exact (congrArg Pc.life h).symm.trans life_woken.symm

/-! ## The mutex -/

omit [DecidableEq ι] in
theorem holds_woken {v : ν} {p : Pc κ ν} : (M.woken v p).holds = p.holds := by
  unfold woken
  split
  · split <;> rfl
  · rfl

/-- The owner of the mutex is the thread that holds it. -/
def Exclusive (s : State ι σ κ ν) : Prop := ∀ i, (s.pc i).holds = true ↔ s.owner = some i

namespace Exclusive

omit [DecidableEq ν] in
/-- A thread that neither takes the mutex nor releases it. -/
theorem stay (h : Exclusive s) {i : ι} {p : Pc κ ν} (hp : p.holds = (s.pc i).holds) :
    Exclusive (s.goto i p) := by
  intro j
  refine Iff.trans (Eq.congr_left ?_) (h j)
  by_cases hj : j = i
  · rw [hj, goto_pc_self, hp]
  · rw [goto_pc_of_ne hj]

omit [DecidableEq ν] in
theorem take (h : Exclusive s) {i : ι} {p : Pc κ ν} (hfree : s.owner = none) (hp : p.holds = true) :
    Exclusive { s.goto i p with owner := some i } := by
  intro j
  by_cases hj : j = i
  · subst hj
    simp [hp]
  · show ((s.goto i p).pc j).holds = true ↔ some i = some j
    rw [goto_pc_of_ne hj, h j, hfree]
    simp [Ne.symm hj]

omit [DecidableEq ν] in
theorem release (h : Exclusive s) {i : ι} {p : Pc κ ν} (hown : (s.pc i).holds = true)
    (hp : p.holds = false) : Exclusive { s.goto i p with owner := none } := by
  intro j
  by_cases hj : j = i
  · subst hj
    simp [hp]
  · show ((s.goto i p).pc j).holds = true ↔ none = some j
    rw [goto_pc_of_ne hj, h j, (h i).mp hown]
    simp [Ne.symm hj]

theorem step {e : Event ι κ ρ ν} (h : Exclusive s) (hs : M.Step s e s') : Exclusive s' := by
  cases hs with
  | call hp => exact h.stay (by rw [hp]; rfl)
  | lock _ hfree => exact h.take hfree rfl
  | sleep hp _ => exact h.release (by rw [hp]; rfl) rfl
  | pass hp _ => exact h.stay (by rw [hp]; rfl)
  | act hp => exact h.stay (by rw [hp]; rfl)
  | @notify i j c d v hp hj _ =>
    have hne : j ≠ i := by
      rintro rfl
      cases hp.symm.trans hj
    refine (h.stay (by rw [hp]; rfl)).stay ?_
    rw [goto_pc_of_ne hne, hj]
    rfl
  | notifyNone hp _ => exact h.stay (by rw [hp]; rfl)
  | unlock hp => exact h.release (by rw [hp]; rfl) rfl
  | @notifyAll i v vs hp =>
    have hall : Exclusive (M.wakeAll v s) := fun j => (Eq.congr_left holds_woken).trans (h j)
    refine hall.stay (Eq.trans ?_ holds_woken.symm)
    rw [hp]
    rfl
  | ret hp => exact h.stay (by rw [hp]; rfl)
  | spurious hp => exact h.stay (by rw [hp]; rfl)

omit [DecidableEq ι] [DecidableEq ν] in
/-- Two threads do not hold the mutex. -/
theorem unique (h : Exclusive s) {i j : ι} (hi : (s.pc i).holds = true) (hj : (s.pc j).holds = true) :
    i = j := Option.some_inj.mp (((h i).mp hi).symm.trans ((h j).mp hj))

end Exclusive

/-- Who sleeps has a condition variable. -/
def Dozing (M : Monitor σ κ ρ ν) (s : State ι σ κ ν) : Prop :=
  ∀ i c, s.pc i = .asleep c → (M.cv c).isSome

omit [DecidableEq ν] in
theorem Dozing.goto (h : Dozing M s) {i : ι} {p : Pc κ ν} (hp : ∀ c, p = .asleep c → (M.cv c).isSome) :
    Dozing M (s.goto i p) := by
  intro j c hc
  by_cases hj : j = i
  · rw [hj, goto_pc_self] at hc
    exact hp c hc
  · rw [goto_pc_of_ne hj] at hc
    exact h j c hc

theorem Dozing.step {e : Event ι κ ρ ν} (h : Dozing M s) (hs : M.Step s e s') : Dozing M s' := by
  cases hs with
  | call _ => exact h.goto nofun
  | lock _ _ => exact h.goto nofun
  | pass _ _ => exact h.goto nofun
  | act _ => exact h.goto nofun
  | notifyNone _ _ => exact h.goto nofun
  | unlock _ => exact h.goto nofun
  | ret _ => exact h.goto nofun
  | spurious _ => exact h.goto nofun
  | notify _ _ _ => refine (h.goto ?_).goto ?_ <;> exact nofun
  | @sleep i c _ hnot =>
    refine h.goto fun d hd => ?_
    cases hd
    cases hwait : M.wait c with
    | none => simp [ready, hwait] at hnot
    | some vp => simp [cv, hwait]
  | @notifyAll i v vs _ =>
    have hall : Dozing M (M.wakeAll v s) := by
      intro j c hc
      refine h j c ?_
      change M.woken v (s.pc j) = .asleep c at hc
      unfold woken at hc
      split at hc
      · split at hc
        · cases hc
        · rename_i hpc _
          rw [hpc, hc]
      · exact hc
    exact hall.goto nofun

theorem exclusive {data : σ} (h : Trace M.Step (start data) tr s) : Exclusive s := by
  induction h with
  | nil => exact fun i => by simp [start, Pc.holds]
  | snoc _ hs ih => exact ih.step hs

theorem dozing {data : σ} (h : Trace M.Step (start data) tr s) : Dozing M s := by
  induction h with
  | nil => exact fun i c hc => by cases hc
  | snoc _ hs ih => exact ih.step hs

/-! ## The calls take effect one at a time -/

omit [DecidableEq ν] in
theorem passed_goto {i j : ι} {c : κ} {p : Pc κ ν} (h : (s.goto j p).pc i = .passed c)
    (hp : ∀ c, p ≠ .passed c) : s.pc i = .passed c := by
  by_cases hij : i = j
  · rw [hij, goto_pc_self] at h
    exact absurd h (hp c)
  · rwa [goto_pc_of_ne hij] at h

omit [DecidableEq ι] in
theorem passed_woken {v : ν} {c : κ} {p : Pc κ ν} (h : M.woken v p = .passed c) : p = .passed c := by
  unfold woken at h
  split at h
  · split at h <;> cases h
  · exact h

/-- What was seen under the mutex is still so: nobody else acts in between. -/
theorem ready_of_passed {data : σ} (h : Trace M.Step (start data) tr s) :
    ∀ i c, s.pc i = .passed c → M.ready c s.data = true := by
  induction h with
  | nil => exact fun i c hc => by cases hc
  | @snoc tr s s' e h hs ih =>
    intro i c hc
    cases hs with
    | call _ | lock _ _ | sleep _ _ | notifyNone _ _ | unlock _ | ret _ | spurious _ =>
      exact ih i c (passed_goto hc nofun)
    | notify _ _ _ => exact ih i c (passed_goto (passed_goto hc nofun) nofun)
    | notifyAll _ => exact ih i c (passed_woken (passed_goto hc nofun))
    | @pass j d _ hready =>
      by_cases hij : i = j
      · rw [hij, goto_pc_self] at hc
        cases hc
        exact hready
      · exact ih i c (by rwa [goto_pc_of_ne hij] at hc)
    | @act j d hp =>
      by_cases hij : i = j
      · rw [hij] at hc
        cases hc.symm.trans goto_pc_self
      · have hi : s.pc i = .passed c := (goto_pc_of_ne hij).symm.trans hc
        exact absurd ((exclusive h).unique (by rw [hi]; rfl) (by rw [hp]; rfl)) hij

/-- The effects, in their order, are those of calls that are made one after another. -/
theorem linearizes {data : σ} (h : Trace M.Step (start data) tr s) :
    Trace M.Atomic data (tr.filterMap Event.acted) s.data := by
  refine h.project State.data Event.acted fun _ s e s' h hs => ?_
  cases hs with
  | act hp => exact .inr ⟨_, rfl, ready_of_passed h _ _ hp, rfl, rfl⟩
  | _ => exact .inl ⟨rfl, rfl⟩

end

/-! ## No wake-up is lost -/

section

variable [DecidableEq ν]

/-- It waits on `v`. -/
def dozes (v : ν) (p : Pc κ ν) : Prop := ∃ c, p = .asleep c ∧ M.cv c = some v

/-- It is about to notify all that wait on `v`. -/
def announces (v : ν) : Pc κ ν → Prop
  | .acted c _ => v ∈ M.all c
  | .broadcast vs => v ∈ vs
  | _ => False

/-- It is about to test the condition of a call on `v`, to act behind it, or to notify one. -/
def chances (v : ν) : Pc κ ν → ℕ
  | .enter c => if M.cv c = some v then 1 else 0
  | .test c => if M.cv c = some v then 1 else 0
  | .passed c => if M.cv c = some v then 1 else 0
  | .acted _ one => if one = some v then 1 else 0
  | _ => 0

/-- How many calls on a condition variable could go on one after another: an effect that adds to their
number notifies one of them for each, or all. -/
structure Ticketed (tickets : ν → σ → ℕ∞) : Prop where
  ready : ∀ c v data, M.cv c = some v → (M.ready c data = true ↔ tickets v data ≠ 0)
  act : ∀ c v data, M.ready c data = true → v ∉ M.all c →
    tickets v (M.act c data) + (if M.cv c = some v then 1 else 0) ≤
      tickets v data + if M.one c data = some v then 1 else 0

variable [Fintype ι]

/-- All chances of the calls on `v`. -/
def total (v : ν) (s : State ι σ κ ν) : ℕ := ∑ i, M.chances v (s.pc i)

/-- If calls wait on `v`, all that could go on have a chance, or will be notified. -/
def Awake (tickets : ν → σ → ℕ∞) (v : ν) (s : State ι σ κ ν) : Prop :=
  (∀ i, ¬ M.dozes v (s.pc i)) ∨ (∃ i, M.announces v (s.pc i)) ∨ tickets v s.data ≤ M.total v s

variable {M} [DecidableEq ι] {s s' : State ι σ κ ν} {tickets : ν → σ → ℕ∞} {v : ν}

omit [DecidableEq ν] in
theorem sum_goto (f : Pc κ ν → ℕ) (i : ι) (p : Pc κ ν) :
    (∑ j, f ((s.goto i p).pc j)) + f (s.pc i) = (∑ j, f (s.pc j)) + f p := by
  have hrest : ∀ j ∈ Finset.univ.erase i, f ((s.goto i p).pc j) = f (s.pc j) :=
    fun j hj => by rw [goto_pc_of_ne (Finset.ne_of_mem_erase hj)]
  rw [← Finset.add_sum_erase _ _ (Finset.mem_univ i), ← Finset.add_sum_erase Finset.univ
    (fun j => f (s.pc j)) (Finset.mem_univ i), Finset.sum_congr rfl hrest, goto_pc_self]
  omega

theorem total_goto (i : ι) (p : Pc κ ν) :
    M.total v (s.goto i p) + M.chances v (s.pc i) = M.total v s + M.chances v p :=
  sum_goto (M.chances v) i p

namespace Awake

/-- A thread whose chances do not get worse, and that does not forget whom it notifies. -/
theorem goto (h : M.Awake tickets v s) {i : ι} {p : Pc κ ν} (hdozes : M.dozes v p → M.dozes v (s.pc i))
    (hannounces : M.announces v (s.pc i) → M.announces v p)
    (hchances : M.chances v (s.pc i) ≤ M.chances v p) : M.Awake tickets v (s.goto i p) := by
  rcases h with hnone | ⟨j, hj⟩ | hle
  · refine .inl fun j hj => ?_
    by_cases hji : j = i
    · rw [hji, goto_pc_self] at hj
      exact hnone i (hdozes hj)
    · rw [goto_pc_of_ne hji] at hj
      exact hnone j hj
  · refine .inr (.inl ⟨j, ?_⟩)
    by_cases hji : j = i
    · rw [hji, goto_pc_self]
      exact hannounces (hji ▸ hj)
    · rw [goto_pc_of_ne hji]
      exact hj
  · have htotal := total_goto (M := M) (v := v) (s := s) i p
    exact .inr (.inr (hle.trans (Nat.cast_le.mpr (by omega))))

/-- A thread that does not go to sleep. -/
theorem stir (h : M.Awake tickets v s) {i : ι} {p : Pc κ ν} (hp : ∀ c, p ≠ .asleep c)
    (hannounces : M.announces v (s.pc i) → M.announces v p)
    (hchances : M.chances v (s.pc i) ≤ M.chances v p) : M.Awake tickets v (s.goto i p) := by
  refine h.goto ?_ hannounces hchances
  rintro ⟨c, hc, -⟩
  exact absurd hc (hp c)

/-- A call goes to sleep for want of a ticket. -/
theorem sleep (ht : M.Ticketed tickets) (h : M.Awake tickets v s) {i : ι} {c : κ} (hpc : s.pc i = .test c)
    (hnot : M.ready c s.data = false) : M.Awake tickets v (s.goto i (.asleep c)) := by
  by_cases hv : M.cv c = some v
  · refine .inr (.inr ?_)
    have hzero : tickets v s.data = 0 := by
      by_contra hne
      simp [(ht.ready c v s.data hv).mpr hne] at hnot
    show tickets v s.data ≤ _
    rw [hzero]
    exact zero_le
  · refine h.goto ?_ ?_ ?_
    · rintro ⟨d, hd, hdv⟩
      cases hd
      exact absurd hdv hv
    · rw [hpc]
      exact False.elim
    · simp [hpc, chances, hv]

/-- A call takes effect. -/
theorem act (ht : M.Ticketed tickets) (h : M.Awake tickets v s) {i : ι} {c : κ} (hpc : s.pc i = .passed c)
    (hready : M.ready c s.data = true) : M.Awake tickets v
      { s.goto i (.acted c (M.one c s.data)) with data := M.act c s.data } := by
  by_cases hall : v ∈ M.all c
  · refine .inr (.inl ⟨i, ?_⟩)
    show M.announces v ((s.goto i _).pc i)
    rw [goto_pc_self]
    exact hall
  · rcases h with hnone | ⟨j, hj⟩ | hle
    · refine .inl fun j hj => ?_
      by_cases hji : j = i
      · subst hji
        obtain ⟨d, hd, -⟩ := hj
        change (s.goto j _).pc j = _ at hd
        rw [goto_pc_self] at hd
        cases hd
      · refine hnone j ?_
        rwa [show State.pc _ j = s.pc j from goto_pc_of_ne hji] at hj
    · have hji : j ≠ i := by
        rintro rfl
        rw [hpc] at hj
        exact hj
      refine .inr (.inl ⟨j, ?_⟩)
      rwa [show State.pc _ j = s.pc j from goto_pc_of_ne hji]
    · -- what the effect adds to the tickets, it notifies
      refine .inr (.inr ?_)
      have hact := ht.act c v s.data hready hall
      have htotal := total_goto (M := M) (v := v) (s := s) i (.acted c (M.one c s.data))
      rw [hpc] at htotal
      have hsum : ((M.total v (s.goto i (.acted c (M.one c s.data))) : ℕ) : ℕ∞) +
          (if M.cv c = some v then 1 else 0) =
            (M.total v s : ℕ) + if M.one c s.data = some v then 1 else 0 := by
        have hcast := congrArg (Nat.cast (R := ℕ∞)) htotal
        simpa [chances] using hcast
      have hfinite : (if M.cv c = some v then 1 else 0 : ℕ∞) ≠ ⊤ := by
        split <;> simp
      refine (ENat.add_le_add_iff_right hfinite).mp (hact.trans (le_trans ?_ hsum.ge))
      gcongr

/-- One of the calls is notified, if there is one. -/
theorem notify (h : M.Awake tickets v s) {i j : ι} {c d : κ} {w : ν} (hpc : s.pc i = .acted c (some w))
    (hj : s.pc j = .asleep d) (hw : M.cv d = some w) :
    M.Awake tickets v ((s.goto i (.acted c none)).goto j (.enter d)) := by
  have hne : j ≠ i := by
    rintro rfl
    cases hpc.symm.trans hj
  have hd : (s.goto i (.acted c none)).pc j = .asleep d := (goto_pc_of_ne hne).trans hj
  by_cases hv : w = v
  · subst hv
    rcases h with hnone | ⟨k, hk⟩ | hle
    · exact absurd ⟨d, hj, hw⟩ (hnone j)
    · refine .inr (.inl ⟨k, ?_⟩)
      have hkj : k ≠ j := by
        rintro rfl
        rw [hj] at hk
        exact hk
      rw [goto_pc_of_ne hkj]
      by_cases hki : k = i
      · rw [hki, hpc] at hk
        rw [hki, goto_pc_self]
        exact hk
      · rwa [goto_pc_of_ne hki]
    · -- the chance of the call that notifies is now that of the call that is woken
      have hfirst := total_goto (M := M) (v := w) (s := s) i (.acted c none)
      have hsecond := total_goto (M := M) (v := w) (s := s.goto i (.acted c none)) j (.enter d)
      rw [hpc] at hfirst
      rw [hd] at hsecond
      simp only [chances, hw, if_true] at hfirst hsecond
      refine .inr (.inr (hle.trans (Nat.cast_le.mpr ?_)))
      simp at hfirst
      omega
  · refine (h.goto ?_ ?_ ?_).goto ?_ ?_ ?_
    · rintro ⟨e, he, -⟩
      cases he
    · rw [hpc]
      exact id
    · simp [hpc, chances, hv]
    · rintro ⟨e, he, -⟩
      cases he
    · rw [hd]
      exact False.elim
    · simp [hd, chances]

omit [DecidableEq ι] in
theorem wakeAll (h : M.Awake tickets v s) {w : ν} (hv : w ≠ v) : M.Awake tickets v (M.wakeAll w s) := by
  have hsame : ∀ p : Pc κ ν, (M.dozes v (M.woken w p) ↔ M.dozes v p) ∧
      (M.announces v (M.woken w p) ↔ M.announces v p) ∧ M.chances v (M.woken w p) = M.chances v p := by
    intro p
    unfold woken
    split
    · split
      · rename_i c hc
        simp [dozes, announces, chances, hc, hv]
      · exact ⟨Iff.rfl, Iff.rfl, rfl⟩
    · exact ⟨Iff.rfl, Iff.rfl, rfl⟩
  rcases h with hnone | ⟨j, hj⟩ | hle
  · exact .inl fun j hj => hnone j ((hsame _).1.mp hj)
  · exact .inr (.inl ⟨j, (hsame _).2.1.mpr hj⟩)
  · refine .inr (.inr (hle.trans (Nat.cast_le.mpr (le_of_eq ?_))))
    exact Finset.sum_congr rfl fun j _ => (hsame _).2.2.symm

theorem step (ht : M.Ticketed tickets) (h : M.Awake tickets v s)
    (hpassed : ∀ i c, s.pc i = .passed c → M.ready c s.data = true) {e : Event ι κ ρ ν}
    (hs : M.Step s e s') : M.Awake tickets v s' := by
  cases hs with
  | call hpc => exact h.stir nofun (by simp [hpc, announces]) (by simp [hpc, chances])
  | lock hpc _ => exact h.stir nofun (by simp [hpc, announces]) (by simp [hpc, chances])
  | sleep hpc hnot => exact h.sleep ht hpc hnot
  | pass hpc _ => exact h.stir nofun (by simp [hpc, announces]) (by simp [hpc, chances])
  | act hpc => exact h.act ht hpc (hpassed _ _ hpc)
  | notify hpc hj hw => exact h.notify hpc hj hw
  | @notifyNone i c w hpc hnone =>
    by_cases hv : w = v
    · subst hv
      refine .inl fun j hj => ?_
      obtain ⟨d, hd, hdv⟩ := hj
      by_cases hji : j = i
      · rw [hji, goto_pc_self] at hd
        cases hd
      · rw [goto_pc_of_ne hji] at hd
        exact hnone j d hd hdv
    · exact h.stir nofun (by simp [hpc, announces]) (by simp [hpc, chances, hv])
  | unlock hpc => exact h.stir nofun (by simp [hpc, announces]) (by simp [hpc, chances])
  | @notifyAll i w vs hpc =>
    by_cases hv : w = v
    · subst hv
      refine .inl fun j hj => ?_
      obtain ⟨d, hd, hdv⟩ := hj
      by_cases hji : j = i
      · rw [hji, goto_pc_self] at hd
        cases hd
      · rw [goto_pc_of_ne hji] at hd
        change M.woken w (s.pc j) = .asleep d at hd
        unfold woken at hd
        split at hd
        · split at hd
          · cases hd
          · rename_i hne
            cases hd
            exact hne hdv
        · rename_i hne
          exact hne d hd
    · have hwoken : (M.wakeAll w s).pc i = .broadcast (w :: vs) := by
        show M.woken w (s.pc i) = _
        rw [hpc]
        rfl
      exact (h.wakeAll hv).stir nofun (by simp [hwoken, announces, Ne.symm hv]) (by simp [hwoken, chances])
  | ret hpc => exact h.stir nofun (by simp [hpc, announces]) (by simp [hpc, chances])
  | spurious hpc => exact h.stir nofun (by simp [hpc, announces]) (by simp [hpc, chances])

end Awake

/-! ## Calls come to an end, or wait -/

/-- A thread makes no call, or its call waits for a condition that does not hold. -/
def Settled (M : Monitor σ κ ρ ν) (s : State ι σ κ ν) : Prop :=
  ∀ i, s.pc i = .idle ∨ ∃ c, s.pc i = .asleep c ∧ M.ready c s.data = false

variable {data : σ} {tr tr' : List (Event ι κ ρ ν)}

theorem awake (ht : M.Ticketed tickets) (h : Trace M.Step (start data) tr s) (v : ν) :
    M.Awake tickets v s := by
  induction h with
  | nil =>
    refine .inl fun i hi => ?_
    obtain ⟨c, hc, -⟩ := hi
    cases hc
  | snoc h hs ih => exact ih.step ht (ready_of_passed h) hs

/-- **No wake-up is lost.** Where no thread can go on in its call, none waits for a condition that holds. -/
theorem settled_of_stuck (ht : M.Ticketed tickets) (h : Trace M.Step (start data) tr s)
    (hstuck : ∀ e s', e.internal = true → ¬ M.Step s e s') : Settled M s := by
  have hfree : s.owner = none := by
    rcases hown : s.owner with _ | i
    · rfl
    · exfalso
      have hholds := ((exclusive h) i).mpr hown
      cases hpc : s.pc i with
      | test c =>
        cases hready : M.ready c s.data with
        | false => exact hstuck _ _ rfl (.sleep hpc hready)
        | true => exact hstuck _ _ rfl (.pass hpc hready)
      | passed c => exact hstuck _ _ rfl (.act hpc)
      | acted c one =>
        cases one with
        | none => exact hstuck _ _ rfl (.unlock hpc)
        | some v =>
          by_cases hwaits : ∃ j d, s.pc j = .asleep d ∧ M.cv d = some v
          · obtain ⟨j, d, hj, hd⟩ := hwaits
            exact hstuck _ _ rfl (.notify hpc hj hd)
          · exact hstuck _ _ rfl (.notifyNone hpc fun j d hj hd => hwaits ⟨j, d, hj, hd⟩)
      | _ => simp [hpc, Pc.holds] at hholds
  have hpcs : ∀ i, s.pc i = .idle ∨ ∃ c, s.pc i = .asleep c := by
    intro i
    cases hpc : s.pc i with
    | idle => exact .inl rfl
    | asleep c => exact .inr ⟨c, rfl⟩
    | enter c => exact absurd (.lock hpc hfree) (hstuck _ _ rfl)
    | test c => cases hfree.symm.trans (((exclusive h) i).mp (by rw [hpc]; rfl))
    | passed c => cases hfree.symm.trans (((exclusive h) i).mp (by rw [hpc]; rfl))
    | acted c one => cases hfree.symm.trans (((exclusive h) i).mp (by rw [hpc]; rfl))
    | broadcast vs =>
      cases vs with
      | nil => exact absurd (.ret hpc) (hstuck _ _ rfl)
      | cons v vs => exact absurd (.notifyAll hpc) (hstuck _ _ rfl)
  intro i
  refine (hpcs i).imp_right ?_
  rintro ⟨c, hc⟩
  refine ⟨c, hc, ?_⟩
  obtain ⟨v, hv⟩ := Option.isSome_iff_exists.mp (dozing h i c hc)
  -- nobody has a chance, so there are no tickets
  have hzero : tickets v s.data = 0 := by
    rcases awake ht h v with hnone | ⟨j, hj⟩ | hle
    · exact absurd ⟨c, hc, hv⟩ (hnone i)
    · rcases hpcs j with hidle | ⟨d, hd⟩
      · rw [hidle] at hj
        exact hj.elim
      · rw [hd] at hj
        exact hj.elim
    · have htotal : M.total v s = 0 := by
        refine Finset.sum_eq_zero fun j _ => ?_
        rcases hpcs j with hidle | ⟨d, hd⟩
        · rw [hidle]
          rfl
        · rw [hd]
          rfl
      rw [htotal] at hle
      exact nonpos_iff_eq_zero.mp hle
  by_contra hready
  exact (ht.ready c v s.data hv).mp (by simpa using hready) hzero

variable (M) in
/-- A step of a call that is under way. -/
def Internal (s : State ι σ κ ν) (e : Event ι κ ρ ν) (s' : State ι σ κ ν) : Prop :=
  e.internal = true ∧ M.Step s e s'

variable (M) in
/-- The steps of a call that wake others or bring it nearer to its end. -/
def energy : Pc κ ν → ℕ
  | .idle => 0
  | .enter c => (M.all c).length + 5
  | .test c => (M.all c).length + 5
  | .passed c => (M.all c).length + 5
  | .asleep c => (M.all c).length + 5
  | .acted c (some _) => (M.all c).length + 4
  | .acted c none => (M.all c).length + 3
  | .broadcast vs => vs.length + 1

/-- The steps to the next test, and behind it to the effect or back to sleep. -/
def Pc.cost : Pc κ ν → ℕ
  | .enter _ => 3
  | .test _ => 2
  | .passed _ => 1
  | _ => 0

variable (M) in
def measure (s : State ι σ κ ν) : ℕ × ℕ := (∑ i, M.energy (s.pc i), ∑ i, (s.pc i).cost)

theorem energy_woken (w : ν) (p : Pc κ ν) : M.energy (M.woken w p) = M.energy p := by
  unfold woken
  split
  · split <;> rfl
  · rfl

theorem measure_lt {e : Event ι κ ρ ν} (hs : M.Internal s e s') :
    Prod.Lex (· < ·) (· < ·) (M.measure s') (M.measure s) := by
  obtain ⟨hint, hs⟩ := hs
  have hspend : ∀ {s : State ι σ κ ν} {i : ι} {p : Pc κ ν}, M.energy p < M.energy (s.pc i) →
      (∑ j, M.energy ((s.goto i p).pc j)) < ∑ j, M.energy (s.pc j) := by
    intro s i p h
    have hsum := sum_goto (s := s) M.energy i p
    omega
  have hnear : ∀ {i : ι} {p : Pc κ ν}, M.energy p = M.energy (s.pc i) → p.cost < (s.pc i).cost →
      Prod.Lex (· < ·) (· < ·) (M.measure (s.goto i p)) (M.measure s) := by
    intro i p he hc
    have henergy := sum_goto (s := s) M.energy i p
    have hcost := sum_goto (s := s) Pc.cost i p
    refine Prod.lex_def.mpr (.inr ⟨?_, ?_⟩)
    · show (∑ j, M.energy ((s.goto i p).pc j)) = ∑ j, M.energy (s.pc j)
      omega
    · show (∑ j, ((s.goto i p).pc j).cost) < ∑ j, (s.pc j).cost
      omega
  cases hs with
  | call _ => cases hint
  | spurious _ => cases hint
  | lock hpc _ => exact hnear (by rw [hpc]; rfl) (by rw [hpc]; exact Nat.lt_succ_self 2)
  | sleep hpc _ => exact hnear (by rw [hpc]; rfl) (by rw [hpc]; exact Nat.zero_lt_two)
  | pass hpc _ => exact hnear (by rw [hpc]; rfl) (by rw [hpc]; exact Nat.lt_succ_self 1)
  | @act i c hpc =>
    refine .left _ _ (hspend ?_)
    rw [hpc]
    cases M.one c s.data <;> simp [energy]
  | @notify i j c d w hpc hj hw =>
    have hne : j ≠ i := by
      rintro rfl
      cases hpc.symm.trans hj
    have hd : (s.goto i (.acted c none)).pc j = .asleep d := (goto_pc_of_ne hne).trans hj
    have hfirst := hspend (s := s) (i := i) (p := .acted c none) (by rw [hpc]; simp [energy])
    have hsecond := sum_goto (s := s.goto i (.acted c none)) M.energy j (.enter d)
    rw [hd, show M.energy (.enter d) = M.energy (.asleep d) from rfl] at hsecond
    refine .left _ _ ?_
    show (∑ k, M.energy (((s.goto i _).goto j _).pc k)) < _
    omega
  | notifyNone hpc _ => exact .left _ _ (hspend (by rw [hpc]; simp [energy]))
  | unlock hpc => exact .left _ _ (hspend (by rw [hpc]; simp [energy]))
  | @notifyAll i w vs hpc =>
    have hwoken : (M.wakeAll w s).pc i = .broadcast (w :: vs) := by
      show M.woken w (s.pc i) = _
      rw [hpc]
      rfl
    have hsame : (∑ j, M.energy ((M.wakeAll w s).pc j)) = ∑ j, M.energy (s.pc j) :=
      Finset.sum_congr rfl fun j _ => energy_woken w _
    refine .left _ _ (lt_of_lt_of_eq (hspend ?_) hsame)
    rw [hwoken]
    simp [energy]
  | ret hpc => exact .left _ _ (hspend (by rw [hpc]; exact Nat.zero_lt_one))

/-- Calls that are under way do not go on forever by themselves. -/
theorem not_infinite (s : State ι σ κ ν) :
    ¬ ∃ run : ℕ → State ι σ κ ν, run 0 = s ∧ ∀ n, ∃ e, M.Internal (run n) e (run (n + 1)) :=
  Trace.not_infinite (WellFounded.prod_lex wellFounded_lt wellFounded_lt) fun _ _ _ _ _ hs => measure_lt hs

omit [Fintype ι] in
/-- Threads that sleep or make no call do not go on by themselves. -/
theorem not_internal (h : ∀ i, s.pc i = .idle ∨ ∃ c, s.pc i = .asleep c) (e : Event ι κ ρ ν)
    (s' : State ι σ κ ν) : ¬ M.Internal s e s' := by
  rintro ⟨hint, hs⟩
  have hpcs : ∀ {i : ι} {p : Pc κ ν}, s.pc i = p → p = .idle ∨ ∃ c, p = .asleep c := by
    rintro i p rfl
    exact h i
  cases hs with
  | call _ => cases hint
  | spurious _ => cases hint
  | lock hpc _ => simpa using hpcs hpc
  | sleep hpc _ => simpa using hpcs hpc
  | pass hpc _ => simpa using hpcs hpc
  | act hpc => simpa using hpcs hpc
  | notify hpc _ _ => simpa using hpcs hpc
  | notifyNone hpc _ => simpa using hpcs hpc
  | unlock hpc => simpa using hpcs hpc
  | notifyAll hpc => simpa using hpcs hpc
  | ret hpc => simpa using hpcs hpc

end

end Monitor
