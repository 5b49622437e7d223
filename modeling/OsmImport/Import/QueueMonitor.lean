import OsmImport.Lib.BlockingQueue
import OsmImport.Lib.Monitor

/-!
# The class of the queues

`BlockingQueue` with its mutex and its two condition variables. The queues of the import model are what
is left of it when each call takes effect at once.
-/

namespace OsmImport

/-- `cv_not_empty_` and `cv_not_full_`. -/
inductive QueueCv where
  | not_empty
  | not_full
deriving DecidableEq, Repr

/-- The member functions. -/
inductive QueueCall (α : Type*) where
  | push (item : α)
  | pop
  | shutdown
  | size

/-- What they return; `pop` returns `false` if it has no item. -/
inductive QueueResult (α : Type*) where
  | done
  | item (out : Option α)
  | size (n : ℕ)

/-- `BlockingQueue`. -/
def blockingQueue (α : Type*) (max_size : ℕ) :
    Monitor (BlockingQueue α) (QueueCall α) (QueueResult α) QueueCv where
  wait
    | .push _ => some (.not_full, fun q => decide (q.items.length < max_size) || q.stop)
    | .pop => some (.not_empty, fun q => !q.items.isEmpty || q.stop)
    | .shutdown => none
    | .size => none
  act
    | .push item, q => { q with items := q.items ++ [item] }
    | .pop, q => { q with items := q.items.tail }
    | .shutdown, q => { q with stop := true }
    | .size, q => q
  result
    | .pop, q => .item q.items.head?
    | .size, q => .size q.items.length
    | _, _ => .done
  one
    | .push _, _ => some .not_empty
    | .pop, q => if q.items.isEmpty then none else some .not_full
    | _, _ => none
  all
    | .shutdown => [.not_empty, .not_full]
    | _ => []

/-- The operation of the queue that a call was. -/
def QueueCall.op {α : Type*} : QueueCall α × QueueResult α → Option (BlockingQueue.Op α)
  | (.push item, _) => some (.push item)
  | (.pop, .item (some out)) => some (.pop out)
  | (.pop, .item none) => some .drained
  | (.shutdown, _) => some .shutdown
  | _ => none

end OsmImport
