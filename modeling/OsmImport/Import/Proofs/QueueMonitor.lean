import OsmImport.Import.QueueMonitor

/-!
# What the queues promise

The calls to a queue take effect one at a time, as the operations of the queue (`queue_linearizes`). Their
wake-ups suffice: a call that does not come to an end waits for room in a full queue, or for an item of an
empty one, before the shutdown (`queue_settled`).
-/

namespace OsmImport

open Monitor

section

variable {α ι : Type*} {max_size : ℕ}

/-- An atomic call is an operation of the queue, or only looks at it. -/
theorem atomic_op {q q' : BlockingQueue α} {call : QueueCall α × QueueResult α}
    (h : (blockingQueue α max_size).Atomic q call q') :
    (QueueCall.op call = none ∧ q' = q) ∨
      ∃ op, QueueCall.op call = some op ∧ BlockingQueue.Step max_size q op q' := by
  obtain ⟨c, r⟩ := call
  obtain ⟨hready, hresult, rfl⟩ := h
  obtain rfl : r = (blockingQueue α max_size).result c q := hresult
  cases c with
  | push item => exact .inr ⟨_, rfl, .push hready⟩
  | shutdown => exact .inr ⟨_, rfl, .shutdown⟩
  | size => exact .inl ⟨rfl, rfl⟩
  | pop =>
    obtain ⟨items, stop⟩ := q
    cases items with
    | nil => exact .inr ⟨_, rfl, .drained rfl (by simpa [ready, blockingQueue] using hready)⟩
    | cons x rest => exact .inr ⟨_, rfl, .pop rfl⟩

/-- How many calls on a condition variable could go on. -/
def queueTickets (max_size : ℕ) : QueueCv → BlockingQueue α → ℕ∞
  | .not_empty, q => if q.stop then ⊤ else q.items.length
  | .not_full, q => if q.stop then ⊤ else (max_size - q.items.length : ℕ)

theorem ticketed_queue : (blockingQueue α max_size).Ticketed (queueTickets max_size) where
  ready c v q hv := by
    obtain ⟨items, stop⟩ := q
    cases c with
    | push item =>
      cases hv
      cases stop with
      | true => simp [ready, blockingQueue, queueTickets]
      | false =>
        show (decide (items.length < max_size) || false) = true ↔ ((max_size - items.length : ℕ) : ℕ∞) ≠ 0
        rw [Bool.or_false, decide_eq_true_iff, Ne, Nat.cast_eq_zero]
        omega
    | pop =>
      cases hv
      cases stop <;> simp [ready, blockingQueue, queueTickets]
    | shutdown => cases hv
    | size => cases hv
  act c v q hready hall := by
    obtain ⟨items, stop⟩ := q
    cases stop with
    | true =>
      have hstop : ((blockingQueue α max_size).act c ⟨items, true⟩).stop = true := by cases c <;> rfl
      cases v <;> simp [queueTickets, hstop]
    | false =>
      cases c with
      | push item =>
        have hroom : items.length < max_size := by simpa [ready, blockingQueue] using hready
        cases v with
        | not_empty =>
          show ((items ++ [item]).length : ℕ∞) + 0 ≤ (items.length : ℕ∞) + 1
          simp
        | not_full =>
          show ((max_size - (items ++ [item]).length : ℕ) : ℕ∞) + 1 ≤ ((max_size - items.length : ℕ) : ℕ∞) + 0
          rw [List.length_append, List.length_singleton]
          exact_mod_cast (by omega : max_size - (items.length + 1) + 1 ≤ max_size - items.length + 0)
      | pop =>
        cases items with
        | nil => simp [ready, blockingQueue] at hready
        | cons x rest =>
          cases v with
          | not_empty => exact le_of_eq (by simp [queueTickets, blockingQueue, cv])
          | not_full =>
            show ((max_size - rest.length : ℕ) : ℕ∞) + 0 ≤ ((max_size - (rest.length + 1) : ℕ) : ℕ∞) + 1
            exact_mod_cast (by omega : max_size - rest.length + 0 ≤ max_size - (rest.length + 1) + 1)
      | shutdown => exact absurd (by cases v <;> simp [blockingQueue]) hall
      | size => exact le_of_eq rfl

end

/-! ## Runs -/

section

variable {α ι : Type*} [DecidableEq ι] {max_size : ℕ} {tr : List (Event ι (QueueCall α) (QueueResult α) QueueCv)}
  {s : State ι (BlockingQueue α) (QueueCall α) QueueCv}
  (h : Trace (blockingQueue α max_size).Step (start .empty) tr s)
include h

/-- **The calls take effect one at a time.** Whatever the threads that call it, however they get the mutex
and are woken, the calls to a queue take effect as its operations, one after another, each between its
beginning and its end; the mutex has one owner. -/
theorem queue_linearizes :
    Trace (BlockingQueue.Step max_size) .empty ((tr.filterMap Event.acted).filterMap QueueCall.op) s.data ∧
    (∀ i, Trace Life.Step .idle (tr.filterMap (Event.turn i)) (s.pc i).life) ∧
    ∀ i j, (s.pc i).holds = true → (s.pc j).holds = true → i = j := by
  refine ⟨?_, fun i => lives h i, fun i j => (exclusive h).unique⟩
  refine (linearizes h).project id QueueCall.op fun _ q call q' _ hcall => ?_
  exact atomic_op hcall

/-- **No wake-up is lost.** The calls that are under way stop by themselves; then each thread is behind its
call, or pushes to a full queue, or pops from an empty one, before the shutdown. -/
theorem queue_settled [Fintype ι] :
    (¬ ∃ run : ℕ → _, run 0 = s ∧ ∀ n, ∃ e, (blockingQueue α max_size).Internal (run n) e (run (n + 1))) ∧
    ((∀ e s', ¬ (blockingQueue α max_size).Internal s e s') → ∀ i, s.pc i = .idle ∨
      (∃ item, s.pc i = .asleep (.push item) ∧ s.data.canPush max_size = false) ∨
      (s.pc i = .asleep .pop ∧ s.data.items = [] ∧ s.data.stop = false)) := by
  refine ⟨not_infinite s, fun hstuck i => ?_⟩
  have hsettled := settled_of_stuck ticketed_queue h fun e s' he hs => hstuck e s' ⟨he, hs⟩
  refine (hsettled i).imp_right ?_
  rintro ⟨c, hc, hnot⟩
  cases c with
  | push item => exact .inl ⟨item, hc, hnot⟩
  | pop => exact .inr ⟨hc, by simpa [ready, blockingQueue] using hnot⟩
  | shutdown => cases hnot
  | size => cases hnot

end

/-! ## A pop that waits -/

/-- The consumer waits, and is woken by the push of the producer. -/
theorem queue_linearizes_woken : ∃ s : State Bool (BlockingQueue ℕ) (QueueCall ℕ) QueueCv,
    Trace (BlockingQueue.Step 1) .empty [.push 7, .pop 7] s.data ∧
      Trace Life.Step .idle [.call .pop, .act .pop (QueueResult.item (some 7)), .ret]
        (s.pc false).life := by
  have h : Trace (blockingQueue ℕ 1).Step (start .empty : State Bool _ _ _) [] _ := .nil
  have h := (h.snoc (.call (i := false) (c := .pop) rfl)).snoc (.lock (i := false) rfl rfl)
  have h := h.snoc (.sleep (i := false) rfl rfl)
  -- the producer gets in
  have h := (h.snoc (.call (i := true) (c := .push 7) rfl)).snoc (.lock (i := true) rfl rfl)
  have h := (h.snoc (.pass (i := true) rfl rfl)).snoc (.act (i := true) rfl)
  have h := h.snoc (.notify (i := true) (j := false) rfl rfl rfl)
  have h := (h.snoc (.unlock (i := true) rfl)).snoc (.ret (i := true) rfl)
  -- the consumer tests again
  have h := (h.snoc (.lock (i := false) rfl rfl)).snoc (.pass (i := false) rfl rfl)
  have h := h.snoc (.act (i := false) rfl)
  have h := h.snoc (.notifyNone (i := false) rfl (by rintro (_ | _) d hd <;> cases hd))
  have h := (h.snoc (.unlock (i := false) rfl)).snoc (.ret (i := false) rfl)
  exact ⟨_, (queue_linearizes h).1, (queue_linearizes h).2.1 false⟩

/-- The consumer waits, and nobody pushes. -/
theorem queue_settled_waiting : ∃ s : State Bool (BlockingQueue ℕ) (QueueCall ℕ) QueueCv,
    s.pc false = .asleep .pop ∧ s.data.items = [] ∧ s.data.stop = false := by
  have h : Trace (blockingQueue ℕ 1).Step (start .empty : State Bool _ _ _) [] _ := .nil
  have h := (h.snoc (.call (i := false) (c := .pop) rfl)).snoc (.lock (i := false) rfl rfl)
  have h := h.snoc (.sleep (i := false) rfl rfl)
  have hsettled := (queue_settled h).2 (not_internal fun i => by cases i; exacts [.inr ⟨_, rfl⟩, .inl rfl])
  rcases hsettled false with hidle | ⟨item, hitem, -⟩ | hpop
  · cases hidle
  · cases hitem
  · exact ⟨_, hpop⟩

end OsmImport
