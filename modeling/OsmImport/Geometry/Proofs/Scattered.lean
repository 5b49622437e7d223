import OsmImport.Geometry.Proofs.Stitch

/-!
# Segments without a ring

A ring is written as soon as it has four points, and the closing point is added where it is missing: two lines
that are walked one after the other are enough. No ring comes out of segments which are scattered: points,
lines at whose second end no later segment goes on, lines there and back, and loops with one point between
their ends. For segments of two points at least there is no other way to come out with nothing.
-/

namespace OsmImport

/-! ## Equal points -/

theorem Coord.eq_true_iff {a b : Coord} :
    a.eq b = true ↔ (a.isNaN = false ∧ b.isNaN = false) ∧ a.value = b.value := by
  simp only [Coord.eq, Double.eq, Coord.value, Coord.isNaN, Prod.mk.injEq, Bool.and_eq_true,
    Bool.not_eq_true', beq_iff_eq, Bool.or_eq_false_iff]
  tauto

theorem Coord.eq_symm {a b : Coord} (h : a.eq b = true) : b.eq a = true := by
  obtain ⟨⟨ha, hb⟩, hv⟩ := Coord.eq_true_iff.mp h
  exact Coord.eq_true_iff.mpr ⟨⟨hb, ha⟩, hv.symm⟩

theorem Coord.eq_trans {a b c : Coord} (h : a.eq b = true) (h' : b.eq c = true) : a.eq c = true := by
  obtain ⟨⟨ha, -⟩, hv⟩ := Coord.eq_true_iff.mp h
  obtain ⟨⟨-, hc⟩, hv'⟩ := Coord.eq_true_iff.mp h'
  exact Coord.eq_true_iff.mpr ⟨⟨ha, hc⟩, hv.trans hv'⟩

/-! ## Scattered segments -/

/-- An end of the segment lies at the point. -/
def Touches (p : Coord) (s : Segment) : Prop :=
  (∃ a ∈ s.head?, a.eq p = true) ∨ ∃ c ∈ s.getLast?, c.eq p = true

/-- A line between the same two points, in one of the two directions. -/
def Along (a b : Coord) (t : Segment) : Prop :=
  ∃ c d, t = [c, d] ∧ (c.eq b = true ∧ a.eq d = true ∨ d.eq b = true ∧ a.eq c = true)

/-- A segment between others that makes no ring with them. -/
inductive Ringless (pre post : List Segment) : Segment → Prop
  /-- A point away from all longer segments. -/
  | point {p : Coord} (h : ∀ t ∈ pre ++ post, t.length ≠ 1 → ¬ Touches p t) : Ringless pre post [p]
  /-- A line that an earlier one takes for its way back. -/
  | again {a b : Coord} {t : Segment} (ht : t ∈ pre) (h : Along a b t) : Ringless pre post [a, b]
  /-- A line to where no later segment goes on. -/
  | line {a b : Coord} (h : ∀ t ∈ post, ¬ Touches b t) : Ringless pre post [a, b]
  /-- A line with a way back, and no further. -/
  | back {a b : Coord} {l r : List Segment} {t : Segment} (hpost : post = l ++ t :: r) (h : Along a b t)
    (hfirst : ∀ u ∈ l, ¬ Touches b u) (hend : ∀ u ∈ l ++ r, ¬ Touches a u) : Ringless pre post [a, b]
  | loop {a b c : Coord} (hclosed : a.eq c = true) (h : ∀ t ∈ post, ¬ Touches c t) : Ringless pre post [a, b, c]

/-- No segment makes a ring with the others. -/
def Scattered (segs : List Segment) : Prop := ∀ pre s post, segs = pre ++ s :: post → Ringless pre post s

section

variable {a b p q : Coord} {s t u : Segment}

theorem touches_of_eq (h : p.eq q = true) (hp : Touches p s) : Touches q s :=
  hp.imp (fun ⟨a, ha, hap⟩ => ⟨a, ha, Coord.eq_trans hap h⟩) fun ⟨c, hc, hcp⟩ => ⟨c, hc, Coord.eq_trans hcp h⟩

theorem touches_line : Touches p [a, b] ↔ a.eq p = true ∨ b.eq p = true := by
  simp [Touches]

/-- A line along another one touches its first point. -/
theorem Along.touches (h : Along a b t) : Touches a t := by
  obtain ⟨c, d, rfl, ⟨-, h⟩ | ⟨-, h⟩⟩ := h
  · exact touches_line.mpr (.inr (Coord.eq_symm h))
  · exact touches_line.mpr (.inl (Coord.eq_symm h))

theorem Along.touches_end (h : Along a b t) : Touches b t := by
  obtain ⟨c, d, rfl, ⟨h, -⟩ | ⟨h, -⟩⟩ := h
  · exact touches_line.mpr (.inl h)
  · exact touches_line.mpr (.inr h)

theorem Along.symm {c d : Coord} (h : Along a b [c, d]) : Along c d [a, b] := by
  obtain ⟨c', d', heq, h⟩ := h
  obtain ⟨rfl, rfl⟩ : c = c' ∧ d = d' := by simpa using heq
  refine ⟨a, b, rfl, ?_⟩
  rcases h with ⟨hcb, had⟩ | ⟨hdb, hac⟩
  · exact .inl ⟨had, hcb⟩
  · exact .inr ⟨Coord.eq_symm hdb, Coord.eq_symm hac⟩

/-- What touches a line along `a, b` touches one of the two points. -/
theorem Along.ends (h : Along a b t) (hp : Touches p t) : p.eq a = true ∨ p.eq b = true := by
  obtain ⟨c, d, rfl, h⟩ := h
  rw [touches_line] at hp
  rcases h with ⟨hcb, had⟩ | ⟨hdb, hac⟩
  · rcases hp with hp | hp
    · exact .inr (Coord.eq_trans (Coord.eq_symm hp) hcb)
    · exact .inl (Coord.eq_symm (Coord.eq_trans had hp))
  · rcases hp with hp | hp
    · exact .inl (Coord.eq_symm (Coord.eq_trans hac hp))
    · exact .inr (Coord.eq_trans (Coord.eq_symm hp) hdb)

/-- What makes no ring makes none without segments along it. -/
theorem Ringless.sublist {pre post pre' post' g : List Segment} (h : Ringless pre post s)
    (hpre : pre'.Sublist pre) (hpost : post'.Sublist post) (hmem : ∀ t ∈ pre, t ∈ pre' ∨ t ∈ g) (hmem' : ∀ t ∈ post, t ∈ post' ∨ t ∈ g)
    (hgone : ∀ a b, s = [a, b] → ∀ t ∈ g, ¬ Along a b t) : Ringless pre' post' s := by
  cases h with
  | point h =>
    refine .point fun t ht => h t ?_
    exact List.mem_append.mpr ((List.mem_append.mp ht).imp (hpre.subset ·) (hpost.subset ·))
  | again ht h => exact .again ((hmem _ ht).resolve_right fun hg => hgone _ _ rfl _ hg h) h
  | line h => exact .line fun t ht => h t (hpost.subset ht)
  | @back a b l r t hsplit h hfirst hend =>
    subst hsplit
    obtain ⟨l', m, rfl, hl, hm⟩ := List.sublist_append_iff.mp hpost
    have hkept : t ∈ l' ++ m :=
      (hmem' t (List.mem_append_right _ List.mem_cons_self)).resolve_right fun hg => hgone _ _ rfl _ hg h
    rcases List.sublist_cons_iff.mp hm with hm | ⟨r', rfl, hr⟩
    · exact absurd h.touches (hend t (List.mem_append.mpr
        ((List.mem_append.mp hkept).imp (hl.subset ·) (hm.subset ·))))
    · refine .back rfl h (fun u hu => hfirst u (hl.subset hu)) fun u hu => hend u ?_
      exact List.mem_append.mpr ((List.mem_append.mp hu).imp (hl.subset ·) (hr.subset ·))
  | loop hclosed h => exact .loop hclosed fun t ht => h t (hpost.subset ht)

/-- Segments stay scattered without some that no other is along. -/
theorem Scattered.sublist {segs rest g : List Segment} (h : Scattered segs) (hrest : rest.Sublist segs)
    (hperm : segs.Perm (rest ++ g)) (hgone : ∀ a b, [a, b] ∈ rest → ∀ t ∈ g, ¬ Along a b t) :
    Scattered rest := by
  rintro pre' k post' rfl
  obtain ⟨m, n, rfl, hpre, htail⟩ := List.append_sublist_iff.mp hrest
  obtain ⟨m', n', rfl, hk, hpost⟩ := List.cons_sublist_iff.mp htail
  obtain ⟨x, y, rfl⟩ := List.append_of_mem hk
  have hpre' : pre'.Sublist (m ++ x) := hpre.trans (List.sublist_append_left m x)
  have hpost' : post'.Sublist (y ++ n') := hpost.trans (List.sublist_append_right y n')
  obtain ⟨d, hd⟩ := hpre'.exists_perm_append
  obtain ⟨e, he⟩ := hpost'.exists_perm_append
  have hde : (d ++ e).Perm g := by
    have hall : (pre' ++ k :: post' ++ (d ++ e)).Perm (pre' ++ k :: post' ++ g) := by
      refine List.Perm.trans ?_ hperm
      have hsegs : (m ++ (x ++ k :: y ++ n')).Perm (pre' ++ d ++ k :: (post' ++ e)) := by
        simpa using hd.append (he.cons k)
      refine List.Perm.trans ?_ hsegs.symm
      simp only [List.append_assoc, List.cons_append]
      refine List.Perm.append_left pre' ?_
      refine List.Perm.trans ?_ List.perm_middle.symm
      refine List.Perm.cons k ?_
      rw [← List.append_assoc, ← List.append_assoc]
      exact List.perm_append_comm.append_right e
    exact (List.perm_append_left_iff _).mp hall
  have hs := h (m ++ x) k (y ++ n') (by simp)
  have hmem : ∀ t ∈ m ++ x, t ∈ pre' ∨ t ∈ g := fun t ht =>
    (List.mem_append.mp (hd.subset ht)).imp_right fun hm => hde.subset (List.mem_append_left e hm)
  have hmem' : ∀ t ∈ y ++ n', t ∈ post' ∨ t ∈ g := fun t ht =>
    (List.mem_append.mp (he.subset ht)).imp_right fun hm => hde.subset (List.mem_append_right d hm)
  refine hs.sublist hpre' hpost' hmem hmem' ?_
  rintro a b rfl t ht
  exact hgone a b (by simp) t ht

end

/-! ## The next segment -/

section

variable {b : Coord} {segs rest : List Segment} {pts : List Coord}

theorem findNext_cons_of_touches {s : Segment} (h : Touches b s) :
    ∃ pts, ∀ segs, findNext b (s :: segs) = some (pts, segs) := by
  unfold findNext
  rcases h with ⟨a, ha, hab⟩ | ⟨c, hc, hcb⟩
  · obtain ⟨c, hc⟩ := Option.ne_none_iff_exists'.mp (List.getLast?_eq_none_iff.not.mpr
      (List.ne_nil_of_mem (List.mem_of_mem_head? ha)))
    rw [Option.mem_def.mp ha, hc]
    exact ⟨_, fun _ => if_pos hab⟩
  · obtain ⟨a, ha⟩ := Option.ne_none_iff_exists'.mp (List.head?_eq_none_iff.not.mpr
      (List.ne_nil_of_mem (List.mem_of_mem_getLast? hc)))
    rw [ha, Option.mem_def.mp hc]
    by_cases hab : a.eq b = true
    · exact ⟨_, fun _ => if_pos hab⟩
    · exact ⟨_, fun _ => (if_neg hab).trans (if_pos hcb)⟩

theorem findNext_cons_of_not_touches {s : Segment} (h : ¬ Touches b s) (segs : List Segment) :
    findNext b (s :: segs) = (findNext b segs).map fun found => (found.1, s :: found.2) := by
  rw [findNext]
  cases ha : s.head? with
  | none => rfl
  | some a =>
    cases hc : s.getLast? with
    | none => rfl
    | some c =>
      have hab : ¬ a.eq b = true := fun hab => h (.inl ⟨a, ha, hab⟩)
      have hcb : ¬ c.eq b = true := fun hcb => h (.inr ⟨c, hc, hcb⟩)
      simp only [if_neg hab, if_neg hcb]

/-- The first segment that touches the end is taken. -/
theorem findNext_append {l : List Segment} (h : ∀ u ∈ l, ¬ Touches b u) (segs : List Segment) :
    findNext b (l ++ segs) = (findNext b segs).map fun found => (found.1, l ++ found.2) := by
  induction l with
  | nil => simp
  | cons u l ih =>
    obtain ⟨hu, hl⟩ := List.forall_mem_cons.mp h
    rw [List.cons_append, findNext_cons_of_not_touches hu, ih hl, Option.map_map]
    rfl

theorem findNext_eq_none_iff : findNext b segs = none ↔ ∀ s ∈ segs, ¬ Touches b s := by
  induction segs with
  | nil => simp [findNext]
  | cons s segs ih =>
    rw [List.forall_mem_cons, ← ih]
    by_cases hs : Touches b s
    · obtain ⟨pts, hfound⟩ := findNext_cons_of_touches hs
      simp [hfound, hs]
    · simp [findNext_cons_of_not_touches hs, hs]

theorem exists_split_of_findNext (h : findNext b segs = some (pts, rest)) :
    ∃ l t r, segs = l ++ t :: r ∧ rest = l ++ r ∧ Touches b t ∧ (∀ u ∈ l, ¬ Touches b u) ∧
      findNext b [t] = some (pts, []) := by
  induction segs generalizing pts rest with
  | nil => cases h
  | cons s segs ih =>
    by_cases hs : Touches b s
    · obtain ⟨pts', hfound⟩ := findNext_cons_of_touches hs
      obtain ⟨rfl, rfl⟩ := Prod.mk.inj (Option.some.inj ((hfound segs).symm.trans h))
      exact ⟨[], s, segs, rfl, rfl, hs, List.forall_mem_nil _, hfound []⟩
    · rw [findNext_cons_of_not_touches hs] at h
      obtain ⟨⟨pts', rest'⟩, hf, heq⟩ := Option.map_eq_some_iff.mp h
      obtain ⟨rfl, rfl⟩ := Prod.mk.inj heq
      obtain ⟨l, t, r, rfl, rfl, ht, hl, hpts⟩ := ih hf
      exact ⟨s :: l, t, r, rfl, rfl, ht, List.forall_mem_cons.mpr ⟨hs, hl⟩, hpts⟩

theorem length_of_findNext {t : Segment} (h : findNext b [t] = some (pts, [])) :
    pts.length + 1 = t.length := by
  cases t with
  | nil => cases h
  | cons c t =>
    obtain ⟨d, hd⟩ := Option.ne_none_iff_exists'.mp (List.getLast?_eq_none_iff.not.mpr (List.cons_ne_nil c t))
    simp only [findNext, List.head?_cons, hd, Option.map_none] at h
    split_ifs at h <;> obtain ⟨rfl, -⟩ := Prod.mk.inj (Option.some.inj h) <;> simp

/-- A line brings the ring back to `a` exactly if it is along `a, b`. -/
theorem eq_iff_along {a x : Coord} {t : Segment} (h : findNext b [t] = some ([x], [])) :
    a.eq x = true ↔ Along a b t := by
  obtain ⟨c, d, rfl⟩ := List.length_eq_two.mp (length_of_findNext h).symm
  by_cases hcb : c.eq b = true
  · obtain rfl : d = x := by simpa [findNext, hcb] using h
    refine ⟨fun had => ⟨c, d, rfl, .inl ⟨hcb, had⟩⟩, ?_⟩
    rintro ⟨c', d', heq, halong⟩
    obtain ⟨rfl, rfl⟩ : c = c' ∧ d = d' := by simpa using heq
    rcases halong with ⟨-, had⟩ | ⟨hdb, hac⟩
    · exact had
    · exact Coord.eq_trans hac (Coord.eq_trans hcb (Coord.eq_symm hdb))
  · by_cases hdb : d.eq b = true
    · obtain rfl : c = x := by simpa [findNext, hcb, hdb] using h
      refine ⟨fun hac => ⟨c, d, rfl, .inr ⟨hdb, hac⟩⟩, ?_⟩
      rintro ⟨c', d', heq, halong⟩
      obtain ⟨rfl, rfl⟩ : c = c' ∧ d = d' := by simpa using heq
      rcases halong with ⟨hcb', -⟩ | ⟨-, hac⟩
      · exact absurd hcb' hcb
      · exact hac
    · simp [findNext, hcb, hdb] at h

end

/-! ## Rings that are dropped -/

/-- A ring of two points at most, or of three and closed: with its closing point it has fewer than four. -/
def Short (ring : Ring) : Prop := ring.length ≤ 2 ∨ ring.length = 3 ∧ closes ring = true

theorem length_closeRing (ring : Ring) : (closeRing ring).length < 4 ↔ Short ring := by
  unfold closeRing Short
  cases ring with
  | nil => simp
  | cons a ring =>
    dsimp only [List.head?_cons]
    split
    · rw [and_iff_left ‹_›]
      omega
    · rw [List.length_append, List.length_singleton]
      exact ⟨fun h => .inl (by omega), fun h => by
        rcases h with h | ⟨-, h⟩
        · omega
        · exact absurd h ‹_›⟩

theorem Short.length_lt {ring : Ring} (h : Short ring) : ring.length < 4 := by
  rcases h with h | ⟨h, -⟩ <;> omega

section

variable {ring ring' : Ring} {segs rest : List Segment} {seg : Segment}

/-- From a point of which only other points are left a walk does not get away. -/
theorem Walk.point (h : Walk ring segs ring' rest) {p : Coord} (hring : ring = [p])
    (hpoint : ∀ t ∈ segs, t.length ≠ 1 → ¬ Touches p t) (hs : Scattered segs) :
    ring' = [p] ∧ Scattered rest := by
  induction h with
  | closed => exact ⟨hring, hs⟩
  | stuck => exact ⟨hring, hs⟩
  | @step ring segs pts segs' ring' rest _ hnext _ ih =>
    subst hring
    obtain ⟨l, t, r, rfl, rfl, ht, -, hpts⟩ := exists_split_of_findNext (b := p) hnext
    have hlen := length_of_findNext hpts
    have hone : t.length = 1 := by
      by_contra hne
      exact hpoint t (List.mem_append_right l List.mem_cons_self) hne ht
    obtain rfl : pts = [] := List.length_eq_zero_iff.mp (by omega)
    have hsub : (l ++ r).Sublist (l ++ t :: r) := (List.Sublist.refl l).append (List.sublist_cons_self t r)
    refine ih rfl (fun u hu => hpoint u (hsub.subset hu)) (hs.sublist (g := [t]) hsub ?_ ?_)
    · simpa using List.perm_middle.trans (List.perm_append_singleton t (l ++ r)).symm
    · rintro a b - u hu ⟨c, d, rfl, -⟩
      rw [← List.mem_singleton.mp hu] at hone
      cases hone

theorem Walk.length_ring (h : Walk ring segs ring' rest) : ring.length ≤ ring'.length := by
  induction h with
  | closed => exact le_rfl
  | stuck => exact le_rfl
  | step _ _ _ ih =>
    rw [List.length_append] at ih
    omega

/-- Without a segment at its end a ring stays what it is. -/
theorem Walk.eq_of_none {b : Coord} (h : Walk ring segs ring' rest) (hback : ring.getLast? = some b)
    (hnone : ∀ t ∈ segs, ¬ Touches b t) : ring' = ring ∧ rest = segs := by
  have hnext : (ring.getLast?.bind fun back => findNext back segs) = none := by
    rw [hback]
    exact findNext_eq_none_iff.mpr hnone
  cases h with
  | closed => exact ⟨rfl, rfl⟩
  | stuck => exact ⟨rfl, rfl⟩
  | step _ hsome => exact absurd (hsome.symm.trans hnext) (Option.some_ne_none _)

/-- A walk there and back. -/
theorem Walk.back {a b : Coord} {l r : List Segment} {t : Segment} (hwalk : Walk [a, b] (l ++ t :: r) ring rest)
    (h : Scattered ([a, b] :: (l ++ t :: r))) (halong : Along a b t) (hfirst : ∀ u ∈ l, ¬ Touches b u)
    (hend : ∀ u ∈ l ++ r, ¬ Touches a u) : Short ring ∧ Scattered rest := by
  obtain ⟨pts, hpts⟩ := findNext_cons_of_touches halong.touches_end
  have hnext : findNext b (l ++ t :: r) = some (pts, l ++ r) := by
    rw [findNext_append hfirst, hpts]
    rfl
  have hlen : pts.length + 1 = 2 := by
    obtain ⟨c, d, rfl, -⟩ := halong
    exact length_of_findNext (hpts [])
  obtain ⟨x, rfl⟩ := List.length_eq_one_iff.mp (by omega : pts.length = 1)
  have hx : a.eq x = true := (eq_iff_along (hpts [])).mpr halong
  cases hwalk with
  | closed h4 => simp at h4
  | stuck _ hnone => exact absurd (hnext.symm.trans hnone) (Option.some_ne_none _)
  | step _ hsome hmore =>
    obtain ⟨rfl, rfl⟩ := Prod.mk.inj (Option.some.inj (hnext.symm.trans hsome))
    obtain ⟨rfl, rfl⟩ := hmore.eq_of_none (b := x) rfl fun u hu hux =>
      hend u hu (touches_of_eq (Coord.eq_symm hx) hux)
    refine ⟨.inr ⟨rfl, hx⟩, h.sublist (g := [[a, b], t]) ?_ ?_ ?_⟩
    · exact ((List.Sublist.refl l).append (List.sublist_cons_self t r)).cons _
    · refine (List.perm_middle.cons _).trans ?_
      exact (List.perm_append_comm : ([[a, b], t] ++ (l ++ r)).Perm _)
    · intro c d hcd u hu hcdu
      rcases List.mem_pair.mp hu with rfl | rfl
      · exact hend _ hcd hcdu.symm.touches
      · exact hend _ hcd (touches_line.mpr ((hcdu.ends halong.touches).imp Coord.eq_symm Coord.eq_symm))

/-- A walk through scattered segments is short, and leaves scattered segments. -/
theorem Walk.scattered (hwalk : Walk seg segs ring rest) (h : Scattered (seg :: segs)) :
    Short ring ∧ Scattered rest := by
  have hhead : (∀ a b, [a, b] ∈ segs → ¬ Along a b seg) → Scattered segs := fun hgone =>
    h.sublist (g := [seg]) (List.sublist_cons_self seg segs)
      (List.perm_append_singleton seg segs).symm fun a b hab t ht => List.mem_singleton.mp ht ▸ hgone a b hab
  have hlong : seg.length ≠ 2 → ∀ a b, [a, b] ∈ segs → ¬ Along a b seg := by
    rintro hlen a b - ⟨c, d, rfl, -⟩
    exact hlen rfl
  cases h [] seg segs rfl with
  | point hpoint =>
    obtain ⟨rfl, hrest⟩ := hwalk.point rfl hpoint (hhead (hlong (by simp)))
    exact ⟨.inl (by simp), hrest⟩
  | again ht => cases ht
  | @line a b hline =>
    obtain ⟨rfl, rfl⟩ := hwalk.eq_of_none rfl hline
    exact ⟨.inl le_rfl, hhead fun c d hcd halong => hline _ hcd halong.symm.touches_end⟩
  | @back a b l r t hpost halong hfirst hend =>
    subst hpost
    exact hwalk.back h halong hfirst hend
  | @loop a b c hclosed hloop =>
    obtain ⟨rfl, rfl⟩ := hwalk.eq_of_none rfl hloop
    exact ⟨.inr ⟨rfl, hclosed⟩, hhead (hlong (by simp))⟩

end

/-- No ring comes out of scattered segments. -/
theorem Stitches.eq_nil {segs : List Segment} {rings : List Ring} (h : Stitches segs rings)
    (hs : Scattered segs) : rings = [] := by
  induction h with
  | done => rfl
  | ring hwalk h4 _ _ => exact absurd h4 (Nat.not_le.mpr ((length_closeRing _).mpr (hwalk.scattered hs).1))
  | short hwalk _ _ ih => exact ih (hwalk.scattered hs).2

/-! ## Segments of two points at least -/

section

variable {a b : Coord} {segs rest l r : List Segment} {ring : Ring} {s t : Segment}

/-- What makes no ring makes none behind more segments. -/
theorem Ringless.weaken {pre pre' post : List Segment} (h : Ringless pre post s) (hs : s.length ≠ 1)
    (hpre : pre ⊆ pre') : Ringless pre' post s := by
  cases h with
  | point => exact absurd rfl hs
  | again ht h => exact .again (hpre ht) h
  | line h => exact .line h
  | back hpost h hfirst hend => exact .back hpost h hfirst hend
  | loop hclosed h => exact .loop hclosed h

/-- What makes no ring makes none before one more segment that does not touch its ends. -/
theorem Ringless.insert {pre m : List Segment} (h : Ringless pre (m ++ r) s) (hs : s.length ≠ 1)
    (hhead : ∀ c ∈ s.head?, ¬ Touches c t) (hlast : ∀ c ∈ s.getLast?, ¬ Touches c t) :
    Ringless pre (m ++ t :: r) s := by
  have hinsert : ∀ {l r : List Segment} {p : Coord}, (∀ u ∈ l ++ r, ¬ Touches p u) → ¬ Touches p t →
      ∀ u ∈ l ++ t :: r, ¬ Touches p u := by
    intro l r p hall ht u hu
    rcases List.mem_cons.mp (List.perm_middle.subset hu) with rfl | hu
    · exact ht
    · exact hall u hu
  cases h with
  | point => exact absurd rfl hs
  | again ht h => exact .again ht h
  | line h => exact .line (hinsert h (hlast _ rfl))
  | @back a b l' r' u hpost h hfirst hend =>
    have hta : ¬ Touches a t := hhead a rfl
    have htb : ¬ Touches b t := hlast b rfl
    rcases List.append_eq_append_iff.mp hpost with ⟨x, rfl, rfl⟩ | ⟨x, rfl, hx⟩
    · refine .back (l := m ++ t :: x) (r := r') (by simp) h (hinsert hfirst htb) ?_
      simpa using hinsert (l := m) (r := x ++ r') (by simpa using hend) hta
    · rcases List.cons_eq_append_iff.mp hx with ⟨rfl, rfl⟩ | ⟨x', rfl, rfl⟩
      · refine .back (l := l' ++ [t]) (r := r') (by simp) h (hinsert (by simpa using hfirst) htb) ?_
        simpa using hinsert hend hta
      · refine .back (l := l') (r := x' ++ t :: r) (by simp) h hfirst ?_
        simpa using hinsert (l := l' ++ x') (by simpa using hend) hta
  | loop hclosed h => exact .loop hclosed (hinsert h (hlast _ rfl))

theorem Scattered.cons (h : Scattered segs) (hs : Ringless [] segs s) (hlen : ∀ t ∈ segs, t.length ≠ 1) :
    Scattered (s :: segs) := by
  intro pre k post hsplit
  rcases List.cons_eq_append_iff.mp hsplit with ⟨rfl, heq⟩ | ⟨pre', rfl, rfl⟩
  · obtain ⟨rfl, rfl⟩ := List.cons.inj heq
    exact hs
  · exact (h pre' k post rfl).weaken (hlen k (by simp)) (List.subset_cons_self s pre')

/-- A line and its way back, with scattered segments around. -/
theorem Scattered.cons_back (h : Scattered (l ++ r)) (halong : Along a b t) (hfirst : ∀ u ∈ l, ¬ Touches b u)
    (hend : ∀ u ∈ l ++ r, ¬ Touches a u) (hlen : ∀ t ∈ l ++ r, t.length ≠ 1) :
    Scattered ([a, b] :: (l ++ t :: r)) := by
  have hagain : Ringless ([a, b] :: l) r t := by
    obtain ⟨c, d, rfl, -⟩ := id halong
    exact .again List.mem_cons_self halong.symm
  intro pre k post hsplit
  rcases List.cons_eq_append_iff.mp hsplit with ⟨rfl, heq⟩ | ⟨pre', rfl, heq⟩
  · obtain ⟨rfl, rfl⟩ := List.cons.inj heq
    exact .back rfl halong hfirst hend
  · rcases List.append_eq_append_iff.mp heq with ⟨m, rfl, hm⟩ | ⟨m, rfl, hm⟩
    · rcases List.cons_eq_append_iff.mp hm with ⟨rfl, hk⟩ | ⟨m', rfl, rfl⟩
      · obtain ⟨rfl, rfl⟩ := List.cons.inj hk
        simpa using hagain
      · refine (h (l ++ m') k post (by simp)).weaken (hlen k (by simp)) fun u hu => ?_
        rcases List.mem_append.mp hu with hu | hu <;> simp [hu]
    · rcases List.cons_eq_append_iff.mp hm with ⟨rfl, hk⟩ | ⟨m', rfl, rfl⟩
      · obtain ⟨rfl, rfl⟩ := List.cons.inj hk
        simpa using hagain
      · have hkl : k ∈ pre' ++ k :: m' := by simp
        have hfar : ∀ c, c ∈ k.head? ∨ c ∈ k.getLast? → ¬ Touches c t := by
          intro c hc ht
          have hk : ∀ {p}, c.eq p = true → Touches p k := fun hp => hc.imp (⟨c, ·, hp⟩) (⟨c, ·, hp⟩)
          rcases halong.ends ht with hca | hcb
          · exact hend k (List.mem_append_left r hkl) (hk hca)
          · exact hfirst k hkl (hk hcb)
        have hk1 : k.length ≠ 1 := hlen k (List.mem_append_left r hkl)
        refine Ringless.weaken ?_ hk1 (List.subset_cons_self _ pre')
        exact (h pre' k (m' ++ r) (by simp)).insert hk1 (fun c hc => hfar c (.inl hc))
          fun c hc => hfar c (.inr hc)

/-- What a short walk through segments of two points at least has done: nothing, or gone along a line and
back. -/
theorem Walk.of_short (hwalk : Walk s segs ring rest) (hshort : Short ring)
    (hlen : ∀ t ∈ s :: segs, 2 ≤ t.length) : Ringless [] segs s ∧ rest = segs ∨
      ∃ a b l t r, s = [a, b] ∧ segs = l ++ t :: r ∧ rest = l ++ r ∧ Along a b t ∧
        (∀ u ∈ l, ¬ Touches b u) ∧ ∀ u ∈ l ++ r, ¬ Touches a u := by
  obtain ⟨hs, hsegs⟩ := List.forall_mem_cons.mp hlen
  have hstep : ∀ {b segs pts rest}, (∀ t ∈ segs, 2 ≤ t.length) → findNext b segs = some (pts, rest) →
      0 < pts.length := by
    intro b segs pts rest hsegs hfound
    obtain ⟨l, t, r, rfl, -, -, -, hpts⟩ := exists_split_of_findNext hfound
    have htwo := hsegs t (by simp)
    have heq := length_of_findNext hpts
    omega
  have hring := hwalk.length_ring
  have hlt := hshort.length_lt
  cases hwalk with
  | closed h4 => omega
  | stuck _ hnone =>
    refine .inl ⟨?_, rfl⟩
    match ring, hs with
    | [a, b], _ => exact .line (findNext_eq_none_iff.mp hnone)
    | [a, b, c], _ =>
      rcases hshort with h | ⟨-, h⟩
      · simp at h
      · exact .loop h (findNext_eq_none_iff.mp hnone)
    | _ :: _ :: _ :: _ :: _, _ =>
      simp only [List.length_cons] at hlt
      omega
  | @step _ _ pts _ _ _ _ hnext hmore =>
    obtain ⟨b, hb, hfound⟩ := Option.bind_eq_some_iff.mp hnext
    have hpos := hstep hsegs hfound
    obtain ⟨l, t, r, rfl, rfl, ht, hl, hpts⟩ := exists_split_of_findNext hfound
    have hlonger := hmore.length_ring
    rw [List.length_append] at hlonger
    obtain ⟨a, b', rfl⟩ := List.length_eq_two.mp (by omega : s.length = 2)
    obtain rfl : b' = b := Option.some.inj hb
    obtain ⟨x, rfl⟩ := List.length_eq_one_iff.mp (by omega : pts.length = 1)
    have hrest : ∀ t ∈ l ++ r, 2 ≤ t.length := fun u hu =>
      hsegs u (((List.Sublist.refl l).append (List.sublist_cons_self t r)).subset hu)
    cases hmore with
    | closed h4 => simp at h4
    | stuck _ hnone =>
      have hx : a.eq x = true := hshort.resolve_left (by simp) |>.2
      refine .inr ⟨a, b', l, t, r, rfl, rfl, rfl, (eq_iff_along hpts).mp hx, hl, fun u hu hua => ?_⟩
      exact findNext_eq_none_iff.mp hnone u hu (touches_of_eq hx hua)
    | step _ hnext' hmore' =>
      have hpos' := hstep hrest hnext'
      have hlonger' := hmore'.length_ring
      simp only [List.length_append, List.length_cons, List.length_nil] at hlonger'
      omega

end

/-- If no ring comes out of segments of two points at least, they are scattered. -/
theorem Stitches.scattered {segs : List Segment} {rings : List Ring} (h : Stitches segs rings)
    (hnil : rings = []) (hlen : ∀ s ∈ segs, 2 ≤ s.length) : Scattered segs := by
  induction h with
  | done => exact fun pre s post hsplit => by simp at hsplit
  | ring => cases hnil
  | @short seg segs ring rest rings hwalk hshort _ ih =>
    have hone : ∀ t ∈ segs, t.length ≠ 1 := fun t ht => by
      have htwo := hlen t (List.mem_cons_of_mem seg ht)
      omega
    rcases hwalk.of_short ((length_closeRing ring).mp hshort) hlen with
      ⟨hs, rfl⟩ | ⟨a, b, l, t, r, rfl, rfl, rfl, halong, hfirst, hend⟩
    · exact (ih hnil fun t ht => hlen t (List.mem_cons_of_mem seg ht)).cons hs hone
    · have hsub : l ++ r ⊆ l ++ t :: r :=
        ((List.Sublist.refl l).append (List.sublist_cons_self t r)).subset
      exact (ih hnil fun u hu => hlen u (List.mem_cons_of_mem _ (hsub hu))).cons_back halong hfirst hend
        fun u hu => hone u (hsub hu)

/-- What comes out of scattered segments, and of which other segments nothing comes out. -/
theorem stitchRings_eq_nil_of_scattered {segs : List Segment} (h : Scattered segs) : stitchRings segs = [] :=
  (stitches_stitchRings segs).eq_nil h

theorem scattered_of_stitchRings_eq_nil {segs : List Segment} (hlen : ∀ s ∈ segs, 2 ≤ s.length)
    (h : stitchRings segs = []) : Scattered segs :=
  (stitches_stitchRings segs).scattered h hlen

end OsmImport
