import Mathlib.Data.List.Cycle
import Mathlib.Data.Multiset.AddSub
import Mathlib.Data.Multiset.MapFold
import Mathlib.Algebra.Order.Group.Multiset
import Mathlib.Tactic.Abel

/-!
# Chains of pieces

Lists of points that are joined end to end. Points are compared by a key. The pieces of a chain are linked:
each one starts where the one before it ends. The pieces of a closed chain are a cycle, and the points of
the chain are those of the cycle up to rotation. Counting ends: in a chain every point other than the two
ends is the end of an even number of pieces.
-/

namespace Chains

variable {α κ : Type*} (key : α → κ)

/-- The first point. -/
def front (p : List α) : Option κ := p.head?.map key

/-- The last point. -/
def back (p : List α) : Option κ := p.getLast?.map key

/-- The second piece starts where the first one ends. -/
def Meets (p q : List α) : Prop := back key p = front key q

/-- Each piece meets the next one. -/
abbrev Linked (ps : List (List α)) : Prop := ps.IsChain (Meets key)

/-- Each piece meets the next one, and the last one meets the first. -/
abbrev Cyclic (ps : List (List α)) : Prop := (ps : Cycle (List α)).Chain (Meets key)

/-- The pieces one behind the other; a shared point is kept once. -/
def join : List (List α) → List α
  | [] => []
  | p :: ps => p ++ ps.flatMap List.tail

/-- One of the two directions of a piece. -/
def Turned (p q : List α) : Prop := q = p ∨ q = p.reverse

/-- The pieces from the last one to the first, each turned around. -/
def reversed (ps : List (List α)) : List (List α) := (ps.map List.reverse).reverse

/-- The points at which pieces start and end. -/
def ends (ps : Multiset (List α)) : Multiset (Option κ) := ps.map (front key) + ps.map (back key)

section Ends

@[simp]
theorem front_cons (a : α) (p : List α) : front key (a :: p) = some (key a) := rfl

@[simp]
theorem back_concat (p : List α) (a : α) : back key (p ++ [a]) = some (key a) := by
  rw [back, List.getLast?_concat, Option.map_some]

@[simp]
theorem front_reverse (p : List α) : front key p.reverse = back key p := by
  rw [front, List.head?_reverse, back]

@[simp]
theorem back_reverse (p : List α) : back key p.reverse = front key p := by
  rw [back, List.getLast?_reverse, front]

theorem front_append {p : List α} (hp : p ≠ []) (q : List α) : front key (p ++ q) = front key p := by
  rw [front, List.head?_append_of_ne_nil _ hp, front]

/-- The points of a piece are those without the last one and the last one. -/
theorem map_eq_dropLast_append {p : List α} :
    p.map key = p.dropLast.map key ++ (back key p).toList := by
  rcases List.eq_nil_or_concat' p with rfl | ⟨q, a, rfl⟩
  · rfl
  · simp

end Ends

section Turn

theorem Turned.refl (p : List α) : Turned p p := .inl rfl

theorem Turned.symm {p q : List α} (h : Turned p q) : Turned q p := by
  rcases h with rfl | rfl
  · exact .inl rfl
  · exact .inr (List.reverse_reverse p).symm

theorem Turned.mem_iff {p q : List α} (h : Turned p q) {a : α} : a ∈ q ↔ a ∈ p := by
  rcases h with rfl | rfl
  · exact Iff.rfl
  · exact List.mem_reverse

/-- A turned piece has the same two ends. -/
theorem Turned.ends_eq {p q : List α} (h : Turned p q) :
    (front key q = front key p ∧ back key q = back key p) ∨
      (front key q = back key p ∧ back key q = front key p) := by
  rcases h with rfl | rfl
  · exact .inl ⟨rfl, rfl⟩
  · exact .inr ⟨front_reverse key p, back_reverse key p⟩

theorem ends_cons (p : List α) (ps : Multiset (List α)) :
    ends key (p ::ₘ ps) = front key p ::ₘ back key p ::ₘ ends key ps := by
  rw [ends, ends, Multiset.map_cons, Multiset.map_cons, Multiset.cons_add, Multiset.add_cons]

theorem ends_add (ps qs : Multiset (List α)) : ends key (ps + qs) = ends key ps + ends key qs := by
  rw [ends, ends, ends, Multiset.map_add, Multiset.map_add]
  exact add_add_add_comm _ _ _ _

/-- Turning pieces around does not change the ends. -/
theorem ends_of_turned {ps qs : Multiset (List α)} (h : Multiset.Rel Turned ps qs) :
    ends key ps = ends key qs := by
  induction h with
  | zero => rfl
  | @cons p q ps qs hpq _ ih =>
    rw [ends_cons, ends_cons, ih]
    rcases hpq.ends_eq key with ⟨hf, hb⟩ | ⟨hf, hb⟩
    · rw [hf, hb]
    · rw [hf, hb, Multiset.cons_swap]

end Turn

section Join

theorem join_concat {ps : List (List α)} (hps : ps ≠ []) (p : List α) :
    join (ps ++ [p]) = join ps ++ p.tail := by
  obtain ⟨q, qs, rfl⟩ := List.exists_cons_of_ne_nil hps
  show q ++ (qs ++ [p]).flatMap List.tail = q ++ qs.flatMap List.tail ++ p.tail
  rw [List.flatMap_append, List.flatMap_singleton, List.append_assoc]

theorem mem_join {ps : List (List α)} {a : α} (h : a ∈ join ps) : ∃ p ∈ ps, a ∈ p := by
  cases ps with
  | nil => cases h
  | cons p ps =>
    rcases List.mem_append.mp h with h | h
    · exact ⟨p, List.mem_cons_self, h⟩
    · obtain ⟨q, hq, ha⟩ := List.mem_flatMap.mp h
      exact ⟨q, List.mem_cons_of_mem p hq, List.mem_of_mem_tail ha⟩

theorem front_join {p : List α} (hp : p ≠ []) (ps : List (List α)) :
    front key (join (p :: ps)) = front key p := front_append key hp _

/-- The points of a chain: those of its pieces without their last ones, and the end of the chain. -/
theorem map_join {ps : List (List α)} {p : List α} (hlink : Linked key (ps ++ [p]))
    (hne : ∀ q ∈ ps ++ [p], q ≠ []) :
    (join (ps ++ [p])).map key =
      ((ps ++ [p]).flatMap List.dropLast).map key ++ (back key p).toList := by
  induction ps using List.reverseRecOn generalizing p with
  | nil => simpa [join] using map_eq_dropLast_append key (p := p)
  | append_singleton ps q ih =>
    obtain ⟨hq, -, hmeets⟩ := List.isChain_append.mp hlink
    have hmeet : back key q = front key p := hmeets q (by simp) p (by simp)
    obtain ⟨a, p, rfl⟩ := List.exists_cons_of_ne_nil (hne p (by simp))
    rw [join_concat (by simp), List.map_append, ih hq fun r hr => hne r (List.mem_append_left _ hr),
      hmeet, @List.flatMap_append _ _ (ps ++ [q]), List.map_append, List.append_assoc, List.append_assoc,
      List.flatMap_singleton, ← map_eq_dropLast_append]
    rfl

/-- A chain ends where its last piece ends. -/
theorem back_join {ps : List (List α)} {p : List α} (hlink : Linked key (ps ++ [p]))
    (hne : ∀ q ∈ ps ++ [p], q ≠ []) : back key (join (ps ++ [p])) = back key p := by
  rw [back, ← List.getLast?_map, map_join key hlink hne]
  obtain ⟨q, a, rfl⟩ := (List.eq_nil_or_concat' p).resolve_left (hne p (by simp))
  simp

/-- A chain goes on with a piece that starts where it ends. -/
theorem linked_concat {ps : List (List α)} (hlink : Linked key ps) (hne : ∀ q ∈ ps, q ≠ [])
    {p : List α} (hmeet : ps ≠ [] → back key (join ps) = front key p) : Linked key (ps ++ [p]) := by
  refine List.isChain_append.mpr ⟨hlink, List.isChain_singleton p, fun q hq r hr => ?_⟩
  obtain rfl : p = r := by simpa using hr
  obtain ⟨qs, rfl⟩ : ∃ qs, ps = qs ++ [q] := List.getLast?_eq_some_iff.mp hq
  rw [Meets, ← hmeet (by simp), back_join key hlink hne]

/-- The ends of the pieces of a chain: its own two ends, and each point between two pieces twice. -/
theorem ends_of_linked {p : List α} {ps : List (List α)} (hlink : Linked key (p :: ps))
    (hne : ∀ q ∈ p :: ps, q ≠ []) :
    ends key (p :: ps : List (List α)) = front key p ::ₘ back key (join (p :: ps)) ::ₘ
      ((ps.map (front key) : Multiset _) + (ps.map (front key) : Multiset _)) := by
  induction ps using List.reverseRecOn with
  | nil => simp [ends, join]
  | append_singleton ps q ih =>
    rw [← List.cons_append] at hlink hne ⊢
    obtain ⟨hlink', -, hmeets⟩ := List.isChain_append.mp hlink
    have hne' : ∀ r ∈ p :: ps, r ≠ [] := fun r hr => hne r (List.mem_append_left _ hr)
    obtain ⟨qs, r, hr⟩ := (List.eq_nil_or_concat' (p :: ps)).resolve_left (by simp)
    have hmeet : back key (join (p :: ps)) = front key q := by
      rw [hr, back_join key (hr ▸ hlink') (hr ▸ hne')]
      exact hmeets r (by rw [hr]; simp) q (by simp)
    rw [back_join key hlink hne, ← Multiset.coe_add, ends_add, ih hlink' hne', hmeet, List.map_append,
      ← Multiset.coe_add]
    simp only [ends, Multiset.coe_singleton, Multiset.map_singleton, List.map_cons, List.map_nil,
      ← Multiset.singleton_add]
    abel

end Join

section Cyclic

variable {key}

theorem Cyclic.linked {ps : List (List α)} (h : Cyclic key ps) : Linked key ps := by
  cases ps with
  | nil => exact List.isChain_nil
  | cons p ps =>
    have hchain : (p :: ps ++ [p]).IsChain (Meets key) := h
    exact hchain.left_of_append

theorem Cyclic.rotated {ps qs : List (List α)} (h : Cyclic key ps) (hr : ps ~r qs) : Cyclic key qs := by
  rw [Cyclic, ← Cycle.coe_eq_coe.mpr hr]
  exact h

/-- A cycle can be walked the other way around. -/
theorem Cyclic.reversed {ps : List (List α)} (h : Cyclic key ps) : Cyclic key (reversed ps) := by
  cases ps with
  | nil => exact Cycle.Chain.nil _
  | cons p ps =>
    have hcons : Cyclic key (p.reverse :: (ps.map List.reverse).reverse) := by
      have hrev : p.reverse :: ((ps.map List.reverse).reverse ++ [p.reverse]) =
          ((p :: (ps ++ [p])).map List.reverse).reverse := by simp
      rw [Cyclic, Cycle.chain_coe_cons, hrev, List.isChain_reverse, List.isChain_map]
      refine List.IsChain.imp (fun q r hqr => ?_) ((Cycle.chain_coe_cons _ _ _).mp h)
      rw [Meets, back_reverse, front_reverse]
      exact Eq.symm hqr
    refine hcons.rotated ?_
    rw [Chains.reversed, List.map_cons, List.reverse_cons]
    exact (List.isRotated_concat _ _).symm

theorem map_back_of_linked {p : List α} {ps : List (List α)} (h : Linked key (p :: ps)) :
    (p :: ps).dropLast.map (back key) = ps.map (front key) := by
  induction ps generalizing p with
  | nil => rfl
  | cons q ps ih =>
    obtain ⟨hpq, hq⟩ := List.isChain_cons_cons.mp h
    rw [List.dropLast_cons_of_ne_nil (List.cons_ne_nil q ps), List.map_cons, List.map_cons, ih hq, hpq]

/-- In a cycle each piece ends where one starts. -/
theorem Cyclic.map_back {ps : List (List α)} (h : Cyclic key ps) :
    (ps.map (back key) : Multiset (Option κ)) = ps.map (front key) := by
  cases ps with
  | nil => rfl
  | cons p ps =>
    have hmap := map_back_of_linked ((Cycle.chain_coe_cons _ _ _).mp h)
    rw [← List.cons_append, List.dropLast_concat] at hmap
    rw [hmap, List.map_append, List.map_cons, List.map_cons]
    exact Multiset.coe_eq_coe.mpr (List.perm_append_singleton _ _)

theorem Cyclic.ends_eq {ps : List (List α)} (h : Cyclic key ps) :
    ends key (ps : Multiset (List α)) =
      (ps.map (front key) : Multiset (Option κ)) + (ps.map (front key) : Multiset (Option κ)) := by
  rw [ends, Multiset.map_coe, Multiset.map_coe, h.map_back]

/-- A cycle ends where it starts. -/
theorem Cyclic.closed {p : List α} {ps : List (List α)} (h : Cyclic key (p :: ps))
    (hne : ∀ q ∈ p :: ps, q ≠ []) : back key (join (p :: ps)) = front key p := by
  obtain ⟨qs, r, hr⟩ := (List.eq_nil_or_concat' (p :: ps)).resolve_left (by simp)
  rw [hr, back_join key (hr ▸ h.linked) (hr ▸ hne)]
  have hchain := (Cycle.chain_coe_cons _ _ _).mp h
  rw [← List.cons_append, List.isChain_append] at hchain
  exact hchain.2.2 r (by rw [hr]; simp) p (by simp)

theorem IsRotated.flatMap {β γ : Type*} {l l' : List β} (h : l ~r l') (f : β → List γ) :
    l.flatMap f ~r l'.flatMap f := by
  obtain ⟨n, rfl⟩ := h
  rw [List.rotate_eq_drop_append_take_mod, List.flatMap_append]
  conv_lhs => rw [← List.take_append_drop (n % l.length) l, List.flatMap_append]
  exact List.isRotated_append

/-- The points of a closed chain, without the closing one. -/
theorem Cyclic.map_join_dropLast {ps : List (List α)} (h : Cyclic key ps) (hne : ∀ q ∈ ps, q ≠ []) :
    (join ps).dropLast.map key = (ps.flatMap List.dropLast).map key := by
  rcases List.eq_nil_or_concat' ps with rfl | ⟨qs, p, rfl⟩
  · rfl
  · obtain ⟨q, a, rfl⟩ := (List.eq_nil_or_concat' p).resolve_left (hne p (by simp))
    rw [List.map_dropLast, map_join key h.linked hne, back_concat]
    exact List.dropLast_concat

/-- The points of a cycle can be listed without the first one of each piece, too. -/
theorem Cyclic.tails {ps : List (List α)} (h : Cyclic key ps) (hne : ∀ q ∈ ps, q ≠ []) :
    (ps.flatMap List.tail).map key ~r (ps.flatMap List.dropLast).map key := by
  cases ps with
  | nil => exact List.IsRotated.refl _
  | cons p ps =>
    obtain ⟨a, p, rfl⟩ := List.exists_cons_of_ne_nil (hne p (by simp))
    have hclosed := h.closed hne
    have hdrop := h.map_join_dropLast hne
    have hall := map_eq_dropLast_append key (p := join ((a :: p) :: ps))
    rw [hdrop, hclosed, front_cons] at hall
    have htail : (join ((a :: p) :: ps)).map key = key a :: (((a :: p) :: ps).flatMap List.tail).map key := by
      simp [join]
    rw [htail] at hall
    generalize (((a :: p) :: ps).flatMap List.tail).map key = tails at hall ⊢
    generalize (((a :: p) :: ps).flatMap List.dropLast).map key = drops at hall ⊢
    cases drops with
    | nil =>
      obtain ⟨-, rfl⟩ := List.cons.inj hall
      exact List.IsRotated.refl _
    | cons b drops =>
      obtain ⟨rfl, rfl⟩ := List.cons.inj hall
      exact List.isRotated_concat _ _

theorem flatMap_dropLast_reversed (ps : List (List α)) :
    (Chains.reversed ps).flatMap List.dropLast = (ps.flatMap List.tail).reverse := by
  induction ps with
  | nil => rfl
  | cons p ps ih =>
    have hcons : Chains.reversed (p :: ps) = Chains.reversed ps ++ [p.reverse] := List.reverse_cons
    rw [hcons, List.flatMap_append, ih, List.flatMap_singleton, List.flatMap_cons, List.reverse_append,
      List.dropLast_reverse]

/-- The points of a cycle that is walked the other way around. -/
theorem Cyclic.map_reversed {ps : List (List α)} (h : Cyclic key ps) (hne : ∀ q ∈ ps, q ≠ []) :
    ((Chains.reversed ps).flatMap List.dropLast).map key ~r
      ((ps.flatMap List.dropLast).map key).reverse := by
  rw [flatMap_dropLast_reversed, List.map_reverse]
  exact (h.tails hne).reverse

end Cyclic

/-! ## Edges -/

/-- Two points that come one behind the other. -/
def Edge (p : List α) (a b : κ) : Prop := [a, b] <:+: p.map key

theorem edge_append {l t : List κ} {k a b : κ} (h : [a, b] <:+: l ++ k :: t) :
    [a, b] <:+: l ++ [k] ∨ [a, b] <:+: k :: t := by
  rcases List.infix_append_iff_ne_nil.mp h with h | h | ⟨l₁, l₂, h₁, h₂, heq, hsuffix, hprefix⟩
  · exact .inl (h.trans (List.prefix_append l [k]).isInfix)
  · exact .inr h
  · obtain ⟨c, l₁, rfl⟩ := List.exists_cons_of_ne_nil h₁
    obtain ⟨d, l₂, rfl⟩ := List.exists_cons_of_ne_nil h₂
    obtain ⟨rfl, hrest⟩ := List.cons.inj heq
    obtain ⟨rfl, rfl⟩ : l₁ = [] ∧ b = d := by
      cases l₁ with
      | nil => exact ⟨rfl, (List.cons.inj hrest).1⟩
      | cons c l₁ => exact absurd (congrArg List.length (List.cons.inj hrest).2) (by simp)
    obtain ⟨rfl, -⟩ := List.cons_prefix_cons.mp hprefix
    obtain ⟨l, rfl⟩ := hsuffix
    exact .inl ⟨l, [], by simp⟩

theorem edge_reverse {p : List α} {a b : κ} : Edge key p.reverse a b ↔ Edge key p b a := by
  rw [Edge, Edge, List.map_reverse, ← List.reverse_infix, List.reverse_reverse]
  rfl

theorem Turned.edge {p q : List α} (h : Turned p q) {a b : κ} (he : Edge key q a b) :
    Edge key p a b ∨ Edge key p b a := by
  rcases h with rfl | rfl
  · exact .inl he
  · exact .inr ((edge_reverse key).mp he)

/-- Joining pieces adds no edge. -/
theorem edge_join {ps : List (List α)} (hlink : Linked key ps) (hne : ∀ q ∈ ps, q ≠ []) {a b : κ}
    (h : Edge key (join ps) a b) : ∃ q ∈ ps, Edge key q a b := by
  induction ps using List.reverseRecOn with
  | nil => exact absurd h.length_le (by simp [join])
  | append_singleton ps q ih =>
    obtain ⟨hlink', -, hmeets⟩ := List.isChain_append.mp hlink
    have hne' : ∀ r ∈ ps, r ≠ [] := fun r hr => hne r (List.mem_append_left _ hr)
    rcases List.eq_nil_or_concat' ps with rfl | ⟨qs, r, rfl⟩
    · exact ⟨q, by simp, by simpa [join] using h⟩
    · have hmeet : back key r = front key q := hmeets r (by simp) q (by simp)
      obtain ⟨c, q, rfl⟩ := List.exists_cons_of_ne_nil (hne q (by simp))
      have hpoints := map_join key hlink' hne'
      rw [hmeet, front_cons] at hpoints
      rw [Edge, join_concat (by simp), List.map_append, hpoints, List.append_assoc] at h
      rcases edge_append h with h | h
      · obtain ⟨s, hs, he⟩ := ih hlink' hne' (by rwa [Edge, hpoints])
        exact ⟨s, List.mem_append_left _ hs, he⟩
      · exact ⟨c :: q, by simp, h⟩

/-! ## Even ends -/

section Even

variable [DecidableEq κ]

/-- Every point is the end of an even number of pieces. -/
def EvenEnds (ps : Multiset (List α)) : Prop := ∀ v, Even ((ends key ps).count v)

variable {key}

theorem EvenEnds.add {ps qs : Multiset (List α)} (hp : EvenEnds key ps) (hq : EvenEnds key qs) :
    EvenEnds key (ps + qs) := by
  intro v
  rw [ends_add, Multiset.count_add]
  exact (hp v).add (hq v)

theorem Cyclic.evenEnds {ps : List (List α)} (h : Cyclic key ps) :
    EvenEnds key (ps : Multiset (List α)) := by
  intro v
  rw [h.ends_eq, Multiset.count_add]
  exact Even.add_self _

/-- **A walk in a graph of even degrees gets stuck at its start only.** -/
theorem EvenEnds.back_join {p : List α} {more : List (List α)} {left : Multiset (List α)}
    (heven : EvenEnds key ((p :: more : List (List α)) + left)) (hlink : Linked key (p :: more))
    (hne : ∀ q ∈ p :: more, q ≠ []) (hstuck : back key (join (p :: more)) ∉ ends key left) :
    back key (join (p :: more)) = front key p := by
  by_contra hback
  have hodd := heven (back key (join (p :: more)))
  rw [ends_add, ends_of_linked key hlink hne, Multiset.count_add, Multiset.count_eq_zero_of_notMem hstuck,
    Multiset.count_cons_of_ne hback, Multiset.count_cons_self, Multiset.count_add] at hodd
  obtain ⟨k, hk⟩ := hodd
  omega

/-- What is left behind a closed walk has even ends again. -/
theorem EvenEnds.left {p : List α} {more : List (List α)} {left : Multiset (List α)}
    (heven : EvenEnds key ((p :: more : List (List α)) + left)) (hlink : Linked key (p :: more))
    (hne : ∀ q ∈ p :: more, q ≠ []) (hback : back key (join (p :: more)) = front key p) :
    EvenEnds key left := by
  intro v
  have hv := heven v
  rw [ends_add, ends_of_linked key hlink hne, hback, Multiset.count_add, Multiset.count_cons,
    Multiset.count_cons, Multiset.count_add] at hv
  obtain ⟨k, hk⟩ := hv
  exact ⟨k - (more.map (front key) : Multiset (Option κ)).count v - if v = front key p then 1 else 0, by omega⟩

end Even

/-! ## Walks through cycles -/

theorem Turned.trans {p q r : List α} (h : Turned p q) (h' : Turned q r) : Turned p r := by
  rcases h with rfl | rfl
  · exact h'
  · rcases h' with rfl | rfl
    · exact .inr rfl
    · exact .inl (List.reverse_reverse p)

theorem rel_turned_symm {ps qs : Multiset (List α)} (h : Multiset.Rel Turned ps qs) :
    Multiset.Rel Turned qs ps :=
  Multiset.rel_flip.mp (h.mono fun _ _ _ _ hpq => hpq.symm)

theorem rel_turned_trans {ps qs rs : Multiset (List α)} (h : Multiset.Rel Turned ps qs)
    (h' : Multiset.Rel Turned qs rs) : Multiset.Rel Turned ps rs := by
  have : IsTrans (List α) Turned := ⟨fun _ _ _ => Turned.trans⟩
  exact h.trans Turned h'

section Walks

variable {key}

/-- The pieces of cycles: no two of them start at the same point, and no two end at the same point. -/
structure Separate (key : α → κ) (ps : Multiset (List α)) : Prop where
  fronts : (ps.map (front key)).Nodup
  backs : (ps.map (back key)).Nodup

theorem Separate.of_le {ps qs : Multiset (List α)} (h : Separate key qs) (hle : ps ≤ qs) :
    Separate key ps :=
  ⟨Multiset.nodup_of_le (Multiset.map_le_map hle) h.fronts,
    Multiset.nodup_of_le (Multiset.map_le_map hle) h.backs⟩

theorem Separate.front_ne {p q : List α} {ps qs : Multiset (List α)} (h : Separate key (ps + qs))
    (hp : p ∈ ps) (hq : q ∈ qs) : front key p ≠ front key q := by
  have hfronts := h.fronts
  rw [Multiset.map_add, Multiset.nodup_add] at hfronts
  exact fun heq => Multiset.disjoint_left.mp hfronts.2.2 (Multiset.mem_map_of_mem _ hp)
    (heq ▸ Multiset.mem_map_of_mem _ hq)

theorem Separate.back_ne {p q : List α} {ps qs : Multiset (List α)} (h : Separate key (ps + qs))
    (hp : p ∈ ps) (hq : q ∈ qs) : back key p ≠ back key q := by
  have hbacks := h.backs
  rw [Multiset.map_add, Multiset.nodup_add] at hbacks
  exact fun heq => Multiset.disjoint_left.mp hbacks.2.2 (Multiset.mem_map_of_mem _ hp)
    (heq ▸ Multiset.mem_map_of_mem _ hq)

/-- The end of a walk along a cycle is where the next piece of the cycle starts, and behind the last one
where the walk has started. -/
theorem Cyclic.back_walk {p : List α} {more todo : List (List α)} (h : Cyclic key (p :: (more ++ todo)))
    (hne : ∀ q ∈ p :: (more ++ todo), q ≠ []) :
    back key (join (p :: more)) = front key ((todo ++ [p]).headI) := by
  cases todo with
  | nil =>
    rw [List.append_nil] at h hne
    exact h.closed hne
  | cons q todo =>
    have hlink := h.linked
    rw [← List.cons_append, Linked, List.isChain_append] at hlink
    obtain ⟨qs, r, hr⟩ := (List.eq_nil_or_concat' (p :: more)).resolve_left (by simp)
    rw [hr, back_join key (hr ▸ hlink.1) fun s hs => hne s (by
      rw [← List.cons_append, hr]
      exact List.mem_append_left _ hs)]
    exact hlink.2.2 r (by rw [hr]; simp) q rfl

/-- A walk among the pieces of separate cycles follows the cycle in which it starts. -/
theorem walk_prefix {p : List α} {todo more : List (List α)} {others taken left : Multiset (List α)}
    (hcyc : Cyclic key (p :: todo)) (hne : ∀ q ∈ p :: todo, q ≠ []) (hmore : ∀ q ∈ more, q ≠ [])
    (hsep : Separate key ((p :: todo : List (List α)) + others))
    (hsum : (todo : Multiset (List α)) + others = taken + left)
    (hturn : Multiset.Rel Turned taken more) (hlink : Linked key (p :: more)) :
    ∃ later, todo = more ++ later ∧ left = (later : Multiset (List α)) + others := by
  induction more using List.reverseRecOn generalizing taken left with
  | nil =>
    rw [Multiset.coe_nil, Multiset.rel_zero_right] at hturn
    exact ⟨todo, rfl, by rw [hsum, hturn, zero_add]⟩
  | append_singleton more q ih =>
    rw [← Multiset.coe_add, Multiset.coe_singleton, add_comm, Multiset.singleton_add,
      Multiset.rel_cons_right] at hturn
    obtain ⟨x, taken', hxq, hturn', rfl⟩ := hturn
    rw [← List.cons_append] at hlink
    obtain ⟨hlink', -, hmeets⟩ := List.isChain_append.mp hlink
    have hsum' : (todo : Multiset (List α)) + others = taken' + (x ::ₘ left) := by
      rw [hsum, Multiset.cons_add, Multiset.add_cons]
    obtain ⟨later, rfl, hleft⟩ := ih (fun r hr => hmore r (List.mem_append_left _ hr)) hsum' hturn' hlink'
    obtain ⟨qs, r, hr⟩ := (List.eq_nil_or_concat' (p :: more)).resolve_left (by simp)
    have hrq : back key r = front key q := hmeets r (by rw [hr]; simp) q (by simp)
    have hsplit : ((p :: (more ++ later) : List (List α)) : Multiset (List α)) + others =
        (p :: more : List (List α)) + (x ::ₘ left) := by
      rw [hleft, ← List.cons_append, ← Multiset.coe_add, add_assoc]
    rw [hsplit] at hsep
    have hfront : front key q = front key ((later ++ [p]).headI) := by
      rw [← hcyc.back_walk hne, hr, back_join key (hr ▸ hlink') fun s hs => ?_, hrq]
      rcases List.mem_cons.mp (hr ▸ hs) with rfl | hs
      · exact hne s List.mem_cons_self
      · exact hmore s (List.mem_append_left _ hs)
    rcases hxq with rfl | rfl
    · cases later with
      | nil => exact absurd hfront.symm (hsep.front_ne (by simp) (Multiset.mem_cons_self q left))
      | cons y later =>
        rw [← Multiset.cons_coe, Multiset.cons_add, Multiset.cons_eq_cons] at hleft
        rcases hleft with ⟨rfl, rfl⟩ | ⟨-, cs, rfl, -⟩
        · exact ⟨later, by simp, rfl⟩
        · rw [← Multiset.singleton_add, ← add_assoc] at hsep
          exact absurd hfront (hsep.front_ne (by simp) (Multiset.mem_cons_self y cs))
    · rw [front_reverse] at hrq
      exact absurd hrq (hsep.back_ne (by rw [hr]; simp) (Multiset.mem_cons_self x left))

/-- A walk that has come back to its start or cannot go on has taken its whole cycle, and nothing else. -/
theorem walk_whole {p : List α} {todo more : List (List α)} {others taken left : Multiset (List α)}
    (hcyc : Cyclic key (p :: todo)) (hne : ∀ q ∈ p :: todo, q ≠ []) (hmore : ∀ q ∈ more, q ≠ [])
    (hsep : Separate key ((p :: todo : List (List α)) + others))
    (hsum : (todo : Multiset (List α)) + others = taken + left)
    (hturn : Multiset.Rel Turned taken more) (hlink : Linked key (p :: more))
    (hend : back key (join (p :: more)) = front key p ∨ back key (join (p :: more)) ∉ ends key left) :
    more = todo ∧ left = others := by
  obtain ⟨later, rfl, rfl⟩ := walk_prefix hcyc hne hmore hsep hsum hturn hlink
  cases later with
  | nil => exact ⟨(List.append_nil more).symm, by simp⟩
  | cons q later =>
    rw [hcyc.back_walk hne] at hend
    rcases hend with hback | hstuck
    · rw [← Multiset.cons_coe, ← Multiset.singleton_add, add_assoc] at hsep
      exact absurd hback.symm (hsep.front_ne (Multiset.mem_singleton_self p) (by simp))
    · refine absurd ?_ hstuck
      rw [← Multiset.cons_coe, Multiset.cons_add, ends_cons]
      exact Multiset.mem_cons_self _ _

end Walks

end Chains
