import OsmImport.Lib.Trace

/-!
# Bounded blocking queues

A queue that takes items up to a bound until it is shut down, and hands them out in the same order. A
push waits for room, a pop for an item; behind the shutdown neither waits. What is pushed is what was
popped and what is still there (`pushed_eq`), and a queue that is shut down behind its last push and
then found empty has handed out everything (`of_drained`).
-/

/-- A queue. -/
structure BlockingQueue (α : Type*) where
  items : List α
  stop : Bool

namespace BlockingQueue

variable {α : Type*} (q : BlockingQueue α) (max_size : ℕ)

/-- A queue as it is constructed. -/
def empty : BlockingQueue α := ⟨[], false⟩

/-- A push does not wait. -/
def canPush : Bool := decide (q.items.length < max_size) || q.stop

/-- A push. -/
def push (x : α) : BlockingQueue α := { q with items := q.items ++ [x] }

/-- The shutdown. -/
def shutdown : BlockingQueue α := { q with stop := true }

/-- Before its shutdown the queue holds no more than its bound. -/
def Bounded : Prop := q.stop = false → q.items.length ≤ max_size

variable {q max_size}

theorem bounded_empty : (empty : BlockingQueue α).Bounded max_size := fun _ => Nat.zero_le _

theorem Bounded.push (x : α) (h : q.canPush max_size = true) : (q.push x).Bounded max_size := by
  intro hstop
  have hstop : q.stop = false := hstop
  have hlt : q.items.length < max_size := by simpa [canPush, hstop] using h
  show (q.items ++ [x]).length ≤ max_size
  rw [List.length_append]
  exact hlt

theorem Bounded.shutdown : q.shutdown.Bounded max_size := by
  intro hstop
  cases hstop

theorem Bounded.pop {x : α} {rest : List α} (h : q.Bounded max_size) (hq : q.items = x :: rest) :
    (⟨rest, q.stop⟩ : BlockingQueue α).Bounded max_size := by
  intro hstop
  have hlen := h hstop
  rw [hq, List.length_cons] at hlen
  exact Nat.le_of_succ_le hlen

/-! ## Runs -/

/-- The operations that come to an end. -/
inductive Op (α : Type*) where
  | push (x : α)
  | pop (x : α)
  /-- A pop that returns without an item. -/
  | drained
  | shutdown

/-- The item that is pushed. -/
def Op.pushed : Op α → Option α
  | .push x => some x
  | _ => none

/-- The item that is popped. -/
def Op.popped : Op α → Option α
  | .pop x => some x
  | _ => none

variable (max_size) in
/-- The effect of an operation. -/
inductive Step : BlockingQueue α → Op α → BlockingQueue α → Prop where
  | push {q : BlockingQueue α} {x : α} (h : q.canPush max_size = true) : Step q (.push x) (q.push x)
  | pop {q : BlockingQueue α} {x : α} {rest : List α} (h : q.items = x :: rest) :
    Step q (.pop x) ⟨rest, q.stop⟩
  | drained {q : BlockingQueue α} (h : q.items = []) (hstop : q.stop = true) : Step q .drained q
  | shutdown {q : BlockingQueue α} : Step q .shutdown q.shutdown

/-- Nothing is pushed behind the shutdown. -/
def Disciplined (ops : List (Op α)) : Prop :=
  Justified (fun pre op => ∀ x, op = .push x → .shutdown ∉ pre) ops

section

variable {ops : List (Op α)}

theorem bounded_run (h : Trace (Step max_size) empty ops q) : q.Bounded max_size := by
  induction h with
  | nil => exact bounded_empty
  | snoc _ hs ih =>
    cases hs with
    | push h => exact Bounded.push _ h
    | pop h => exact ih.pop h
    | drained _ _ => exact ih
    | shutdown => exact Bounded.shutdown

/-- First in, first out. -/
theorem pushed_eq (h : Trace (Step max_size) empty ops q) :
    ops.filterMap Op.pushed = ops.filterMap Op.popped ++ q.items := by
  induction h with
  | nil => rfl
  | snoc _ hs ih =>
    rw [List.filterMap_append, List.filterMap_append, ih]
    cases hs with
    | push _ => simp [Op.pushed, Op.popped, BlockingQueue.push]
    | pop h => simp [Op.pushed, Op.popped, h]
    | drained _ _ => exact (List.append_nil _).trans (congrArg (· ++ _) (List.append_nil _).symm)
    | shutdown => exact (List.append_nil _).trans (congrArg (· ++ _) (List.append_nil _).symm)

theorem stop_iff (h : Trace (Step max_size) empty ops q) : q.stop = true ↔ .shutdown ∈ ops := by
  induction h with
  | nil => simp [empty]
  | snoc _ hs ih =>
    rw [List.mem_append, ← ih]
    cases hs with
    | push _ => simp [BlockingQueue.push]
    | pop _ => simp
    | drained _ _ => simp
    | shutdown => simp [BlockingQueue.shutdown]

theorem of_drained (h : Trace (Step max_size) empty ops q) (hd : Disciplined ops)
    (hmem : .drained ∈ ops) : q.items = [] ∧ q.stop = true := by
  induction h with
  | nil => cases hmem
  | snoc h hs ih =>
    obtain ⟨hd, hlast⟩ := justified_concat.mp hd
    rcases List.mem_append.mp hmem with hmem | hmem
    · obtain ⟨hitems, hstop⟩ := ih hd hmem
      cases hs with
      | push _ => exact absurd ((stop_iff h).mp hstop) (hlast _ rfl)
      | pop hpop => simp [hitems] at hpop
      | drained _ _ => exact ⟨hitems, hstop⟩
      | shutdown => exact ⟨hitems, rfl⟩
    · obtain rfl := List.mem_singleton.mp hmem
      cases hs with
      | drained hitems hstop => exact ⟨hitems, hstop⟩

end

/-- A push that waits finds items in the queue, if the bound admits any. -/
theorem nonempty_of_blocked (hmax : 0 < max_size) (h : q.canPush max_size = false) :
    q.items ≠ [] ∧ q.stop = false := by
  rw [canPush, Bool.or_eq_false_iff, decide_eq_false_iff_not] at h
  refine ⟨?_, h.2⟩
  intro hnil
  rw [hnil] at h
  exact h.1 hmax

end BlockingQueue
