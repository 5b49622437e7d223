import OsmImport.Lib.LittleEndian

/-!
# Readers of bytes

A reader takes a value off the front of a list of bytes, or fails. `Reads p bs a` says that the reader
takes exactly the bytes `bs` for the value `a`, whatever follows: from the encoding of each part and
these rules follows the encoding of the whole. A reader `Extends` if what follows the bytes that it takes
does not matter to it.
-/

/-- A reader. -/
abbrev Reader (α : Type) := StateT (List UInt8) Option α

namespace Reader

open LittleEndian

variable {α β : Type}

/-- No value. -/
def fail : Reader α := fun _ => none

/-- A number of `w` bytes, least significant first. -/
def word (w : ℕ) : Reader ℕ := fun bs =>
  if w ≤ bs.length then some (ofBytes (bs.take w), bs.drop w) else none

theorem run_word_bind {w : ℕ} {f : ℕ → Reader β} {bs : List UInt8} {x : β × List UInt8} :
    (word w >>= f).run bs = some x ↔
      w ≤ bs.length ∧ (f (ofBytes (bs.take w))).run (bs.drop w) = some x := by
  rw [StateT.run_bind]
  show (if w ≤ bs.length then some (ofBytes (bs.take w), bs.drop w) else none).bind _ = _ ↔ _
  split
  · rename_i h
    exact (and_iff_right h).symm
  · rename_i h
    simp [h]

theorem run_map_eq_some {p : Reader α} {f : α → β} {bs r : List UInt8} {b : β} :
    (f <$> p).run bs = some (b, r) ↔ ∃ a, p.run bs = some (a, r) ∧ f a = b := by
  rw [StateT.run_map]
  cases p.run bs with
  | none => simp
  | some ar => simp [Prod.ext_iff, and_comm]

/-- `n` values. -/
def times (p : Reader α) : ℕ → Reader (List α)
  | 0 => pure []
  | n + 1 => do
    let a ← p
    let as ← times p n
    return a :: as

/-- The value of a list of bytes that is taken as a whole. -/
def whole (p : Reader α) (bs : List UInt8) : Option α :=
  match p.run bs with
  | some (a, []) => some a
  | _ => none

theorem whole_eq_some {p : Reader α} {bs : List UInt8} {a : α} :
    p.whole bs = some a ↔ p.run bs = some (a, []) := by
  unfold whole
  split
  · rename_i b h
    simp [h]
  · rename_i h
    simp only [reduceCtorEq, false_iff]
    exact fun h' => h a h'

/-! ## Bytes for a value -/

/-- The reader takes `bs` for `a`. -/
def Reads (p : Reader α) (bs : List UInt8) (a : α) : Prop :=
  ∀ rest, p.run (bs ++ rest) = some (a, rest)

theorem Reads.whole {p : Reader α} {bs : List UInt8} {a : α} (h : Reads p bs a) :
    p.whole bs = some a := by
  rw [whole_eq_some]
  simpa using h []

theorem reads_pure (a : α) : Reads (pure a) [] a := fun _ => rfl

theorem Reads.bind {p : Reader α} {f : α → Reader β} {bs cs : List UInt8} {a : α} {b : β}
    (hp : Reads p bs a) (hf : Reads (f a) cs b) : Reads (p >>= f) (bs ++ cs) b := by
  intro rest
  rw [StateT.run_bind, List.append_assoc, hp]
  exact hf rest

theorem Reads.map {p : Reader α} {f : α → β} {bs : List UInt8} {a : α} (hp : Reads p bs a) :
    Reads (f <$> p) bs (f a) := by
  intro rest
  rw [StateT.run_map, hp]
  rfl

/-- The last step of a reader. -/
theorem Reads.bindPure {p : Reader α} {f : α → β} {bs : List UInt8} {a : α} (hp : Reads p bs a) :
    Reads (p >>= fun a => pure (f a)) bs (f a) := by
  intro rest
  rw [StateT.run_bind, hp]
  rfl

theorem reads_word {w n : ℕ} (h : n < 256 ^ w) : Reads (word w) (toBytes w n) n := by
  intro rest
  have hlen : w ≤ (toBytes w n ++ rest).length := by simp
  show (if w ≤ (toBytes w n ++ rest).length then _ else none) = _
  rw [if_pos hlen, List.take_left' (length_toBytes w n), List.drop_left' (length_toBytes w n),
    ofBytes_toBytes h]

theorem reads_times {p : Reader α} {enc : β → List UInt8} {val : β → α} {l : List β}
    (h : ∀ b ∈ l, Reads p (enc b) (val b)) :
    Reads (p.times l.length) (l.flatMap enc) (l.map val) := by
  induction l with
  | nil => exact reads_pure []
  | cons b l ih =>
    have htail := ih fun b' hb' => h b' (List.mem_cons_of_mem _ hb')
    show Reads (p >>= fun a => p.times l.length >>= fun as => pure (a :: as)) (enc b ++ _) _
    refine (h b List.mem_cons_self).bind ?_
    exact htail.bindPure

/-! ## What follows does not matter -/

/-- The reader does the same when more bytes follow. -/
def Extends (p : Reader α) : Prop :=
  ∀ bs a r rest, p.run bs = some (a, r) → p.run (bs ++ rest) = some (a, r ++ rest)

theorem extends_pure (a : α) : Extends (pure a : Reader α) := by
  rintro bs _ _ rest h
  cases h
  rfl

theorem extends_fail : Extends (fail : Reader α) := by
  rintro bs a r rest h
  cases h

theorem extends_word (w : ℕ) : Extends (word w) := by
  rintro bs a r rest h
  have h' : (if w ≤ bs.length then some (ofBytes (bs.take w), bs.drop w) else none) = some (a, r) := h
  split at h'
  · rename_i hw
    cases h'
    have hlen : w ≤ (bs ++ rest).length := by rw [List.length_append]; omega
    show (if w ≤ (bs ++ rest).length then _ else none) = _
    rw [if_pos hlen, List.take_append_of_le_length hw, List.drop_append_of_le_length hw]
  · cases h'

theorem Extends.bind {p : Reader α} {f : α → Reader β} (hp : Extends p) (hf : ∀ a, Extends (f a)) :
    Extends (p >>= f) := by
  intro bs b r rest h
  rw [StateT.run_bind] at h ⊢
  cases hrun : p.run bs with
  | none =>
    rw [hrun] at h
    cases h
  | some ar =>
    rw [hrun] at h
    rw [hp bs ar.1 ar.2 rest hrun]
    exact hf ar.1 ar.2 b r rest h

theorem Extends.map {p : Reader α} (hp : Extends p) (f : α → β) : Extends (f <$> p) := by
  rw [map_eq_pure_bind]
  exact hp.bind fun a => extends_pure (f a)

theorem Extends.ite {c : Prop} [Decidable c] {p q : Reader α} (hp : Extends p) (hq : Extends q) :
    Extends (if c then p else q) := by
  split
  · exact hp
  · exact hq

theorem Extends.times {p : Reader α} (hp : Extends p) (n : ℕ) : Extends (p.times n) := by
  induction n with
  | zero => exact extends_pure []
  | succ n ih => exact hp.bind fun a => ih.bind fun as => extends_pure (a :: as)

/-- Bytes that are taken as a whole are taken so in front of others. -/
theorem Extends.reads {p : Reader α} (hp : Extends p) {bs : List UInt8} {a : α}
    (h : p.whole bs = some a) : Reads p bs a := by
  intro rest
  have hrun := hp bs a [] rest (whole_eq_some.mp h)
  exact hrun

end Reader
