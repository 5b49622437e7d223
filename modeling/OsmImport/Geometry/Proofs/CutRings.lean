import OsmImport.Geometry.Proofs.Stitch

/-!
# Rings that were cut into pieces

Stitching puts the rings of a family together again when their pieces come in any order and any direction,
as long as each point at which a ring was cut is the end of two pieces only. The walk of the inner loop
then has no choice: it follows the ring of its first segment, and it cannot end before it has all pieces.
-/

namespace OsmImport

open Chains

/-- A closed ring with four points at least and without NaNs. -/
structure IsRing (ring : Ring) : Prop where
  four : 4 ≤ ring.length
  closed : closes ring = true
  numbers : ∀ c ∈ ring, Coord.isNaN c = false

/-- The pieces of a ring that was cut at some of its points, in the order and the direction of the ring:
each one has two points at least and ends where the next one starts, and their points, the shared ones
counted once, are those of the ring from some point on. -/
structure CutInto (ring : Ring) (pieces : List Segment) : Prop where
  two : ∀ p ∈ pieces, 2 ≤ p.length
  cyclic : Cyclic Coord.value pieces
  points : (pieces.flatMap List.dropLast).map Coord.value ~r ring.dropLast.map Coord.value

/-- The second ring is closed and has the points of the first one, from another point on or the other
way around. -/
structure SameRing (ring ring' : Ring) : Prop where
  closed : closes ring' = true
  points : ring'.dropLast.map Coord.value ~r ring.dropLast.map Coord.value ∨
    ring'.dropLast.map Coord.value ~r (ring.dropLast.map Coord.value).reverse

/-! ## The pieces of a ring -/

theorem Double.magnitude_eq (x : Double) : x.magnitude = x.rank.natAbs := by
  unfold Double.rank
  split
  · exact (Int.natAbs_natCast _).symm
  · rw [Int.natAbs_neg, Int.natAbs_natCast]

theorem Coord.isNaN_of_value {a b : Coord} (h : a.value = b.value) : a.isNaN = b.isNaN := by
  obtain ⟨h1, h2⟩ := Prod.mk.inj h
  rw [Coord.isNaN, Coord.isNaN, Double.isNaN, Double.isNaN, Double.isNaN, Double.isNaN,
    Double.magnitude_eq, Double.magnitude_eq, Double.magnitude_eq, Double.magnitude_eq, h1, h2]

/-- A cycle of pieces whose points are numbers, and make a ring. -/
structure RingPieces (pieces : List Segment) : Prop where
  cyclic : Cyclic Coord.value pieces
  comparable : ∀ p ∈ pieces, Comparable p
  three : 3 ≤ (pieces.flatMap List.dropLast).length

theorem CutInto.length_eq {ring : Ring} {pieces : List Segment} (h : CutInto ring pieces) :
    (pieces.flatMap List.dropLast).length = ring.length - 1 := by
  simpa using h.points.perm.length_eq

/-- A point of a piece other than its last one is a point of the ring. -/
theorem CutInto.isNaN_eq_false {ring : Ring} {pieces : List Segment} (h : CutInto ring pieces)
    (hring : IsRing ring) {c : Coord} (hc : c ∈ pieces.flatMap List.dropLast) : c.isNaN = false := by
  obtain ⟨b, hb, heq⟩ := List.mem_map.mp (h.points.mem_iff.mp (List.mem_map_of_mem hc))
  rw [← Coord.isNaN_of_value heq]
  exact hring.numbers b (List.mem_of_mem_dropLast hb)

theorem CutInto.ringPieces {ring : Ring} {pieces : List Segment} (h : CutInto ring pieces)
    (hring : IsRing ring) : RingPieces pieces := by
  have hhead : ∀ p ∈ pieces, ∀ a ∈ p.head?, a.isNaN = false := by
    intro p hp a ha
    refine h.isNaN_eq_false hring (List.mem_flatMap.mpr ⟨p, hp, ?_⟩)
    obtain ⟨p, rfl⟩ := List.head?_eq_some_iff.mp ha
    have htwo := h.two _ hp
    rw [List.dropLast_cons_of_ne_nil (by rintro rfl; simp at htwo)]
    exact List.mem_cons_self
  refine ⟨h.cyclic, fun p hp => ⟨?_, hhead p hp, fun a ha => ?_⟩, ?_⟩
  · intro hnil
    have htwo := h.two p hp
    rw [hnil] at htwo
    simp at htwo
  · have hback : some a.value ∈ (pieces.map (back Coord.value) : Multiset _) :=
      List.mem_map.mpr ⟨p, hp, by rw [back, Option.mem_def.mp ha, Option.map_some]⟩
    rw [h.cyclic.map_back] at hback
    obtain ⟨q, hq, hfront⟩ := List.mem_map.mp hback
    obtain ⟨b, hb, hvalue⟩ := Option.map_eq_some_iff.mp hfront
    rw [← Coord.isNaN_of_value hvalue]
    exact hhead q hq b hb
  · have hfour := hring.four
    rw [h.length_eq]
    omega

theorem RingPieces.ne_nil {pieces : List Segment} (h : RingPieces pieces) :
    ∀ p ∈ pieces, p ≠ [] := fun p hp => (h.comparable p hp).ne_nil

theorem RingPieces.rotated {ps qs : List Segment} (h : RingPieces ps) (hr : ps ~r qs) :
    RingPieces qs := by
  refine ⟨h.cyclic.rotated hr, fun p hp => h.comparable p (hr.mem_iff.mpr hp), ?_⟩
  rw [← (IsRotated.flatMap hr List.dropLast).perm.length_eq]
  exact h.three

theorem RingPieces.reversed {ps : List Segment} (h : RingPieces ps) : RingPieces (Chains.reversed ps) := by
  refine ⟨h.cyclic.reversed, fun p hp => ?_, ?_⟩
  · obtain ⟨q, hq, rfl⟩ := List.mem_map.mp (List.mem_reverse.mp hp)
    exact (h.comparable q hq).turned (.inr rfl)
  · have hlen := (h.cyclic.map_reversed h.ne_nil).perm.length_eq
    rw [List.length_map, List.length_reverse, List.length_map] at hlen
    exact hlen ▸ h.three

/-- The chain of the pieces is closed, and long enough to be a ring. -/
theorem RingPieces.closed_join {p : Segment} {ps : List Segment} (h : RingPieces (p :: ps)) :
    closes (join (p :: ps)) = true ∧ 4 ≤ (join (p :: ps)).length := by
  have hcmp := comparable_join h.comparable
  constructor
  · rw [hcmp.closes_iff, h.cyclic.closed h.ne_nil, front_join Coord.value (h.ne_nil p List.mem_cons_self)]
  · have hlen := congrArg List.length (h.cyclic.map_join_dropLast h.ne_nil)
    rw [List.length_map, List.length_dropLast, List.length_map] at hlen
    have hthree := h.three
    omega

/-! ## One ring -/

/-- The ring of a segment can be read from the segment on, in the direction of the segment. -/
theorem exists_cycle_from {seg p : Segment} {a b : List Segment} (h : RingPieces (a ++ p :: b))
    (hturn : Turned seg p) : ∃ todo, RingPieces (seg :: todo) ∧
      Multiset.Rel Turned (todo : Multiset Segment) (a ++ b : List Segment) ∧
      (seg :: todo ~r a ++ p :: b ∨ seg :: todo ~r reversed (a ++ p :: b)) := by
  rcases hturn with rfl | rfl
  · have hrot : p :: (b ++ a) ~r a ++ p :: b := List.isRotated_append (l := p :: b)
    refine ⟨b ++ a, h.rotated hrot.symm, ?_, .inl hrot⟩
    have hcomm : (b ++ a : List Segment).Perm (a ++ b) := List.perm_append_comm
    rw [Multiset.coe_eq_coe.mpr hcomm]
    exact Multiset.rel_refl_of_refl_on fun q _ => .refl q
  · have hflip : reversed (a ++ seg.reverse :: b) = reversed b ++ seg :: reversed a := by
      simp [reversed]
    have hrot : seg :: (reversed a ++ reversed b) ~r reversed (a ++ seg.reverse :: b) := by
      rw [hflip]
      exact List.isRotated_append (l := seg :: reversed a)
    refine ⟨reversed a ++ reversed b, h.reversed.rotated hrot.symm, ?_, .inr hrot⟩
    have hrev : ∀ qs : List Segment, Multiset.Rel Turned (reversed qs : Multiset Segment) qs := by
      intro qs
      rw [reversed, Multiset.coe_eq_coe.mpr (List.reverse_perm _), ← Multiset.map_coe, Multiset.rel_map_left]
      exact Multiset.rel_refl_of_refl_on fun q _ => .inr (List.reverse_reverse q).symm
    rw [← Multiset.coe_add, ← Multiset.coe_add]
    exact (hrev a).add (hrev b)

/-- Reading a cycle from another piece on, or the other way around, starts and ends pieces at the
same points. -/
theorem fronts_backs_of_rotated {ps qs : List Segment} (h : RingPieces ps) (hq : RingPieces qs)
    (hrot : qs ~r ps ∨ qs ~r reversed ps) :
    (qs.map (front Coord.value) : Multiset (Option (ℤ × ℤ))) = ps.map (front Coord.value) ∧
    (qs.map (back Coord.value) : Multiset (Option (ℤ × ℤ))) = ps.map (back Coord.value) := by
  have hfronts : (qs.map (front Coord.value) : Multiset (Option (ℤ × ℤ))) = ps.map (front Coord.value) := by
    rcases hrot with hrot | hrot
    · exact Multiset.coe_eq_coe.mpr (hrot.perm.map _)
    · rw [Multiset.coe_eq_coe.mpr (hrot.perm.map _), ← h.cyclic.map_back, reversed, List.map_reverse,
        List.map_map, Multiset.coe_eq_coe]
      refine (List.reverse_perm _).trans (List.Perm.of_eq (List.map_congr_left fun p _ => ?_))
      exact front_reverse Coord.value p
  exact ⟨hfronts, by rw [hq.cyclic.map_back, h.cyclic.map_back, hfronts]⟩

/-- The points of the stitched ring are those of the pieces. -/
theorem points_of_rotated {ps qs : List Segment} (h : RingPieces ps) (hq : RingPieces qs)
    (hrot : qs ~r ps ∨ qs ~r reversed ps) :
    (join qs).dropLast.map Coord.value ~r (ps.flatMap List.dropLast).map Coord.value ∨
    (join qs).dropLast.map Coord.value ~r ((ps.flatMap List.dropLast).map Coord.value).reverse := by
  rw [hq.cyclic.map_join_dropLast hq.ne_nil]
  rcases hrot with hrot | hrot
  · exact .inl ((IsRotated.flatMap hrot List.dropLast).map Coord.value)
  · exact .inr (((IsRotated.flatMap hrot List.dropLast).map Coord.value).trans
      (h.cyclic.map_reversed h.ne_nil))

/-- The inner loop puts together the ring of the segment that it starts with, and leaves the pieces of
the other rings. -/
theorem Walk.whole_ring {seg : Segment} {segs rest todo : List Segment} {ring : Ring}
    {others : Multiset Segment} (h : Walk seg segs ring rest) (hpieces : RingPieces (seg :: todo))
    (hothers : ∀ q ∈ others, Comparable q)
    (hsep : Separate Coord.value ((seg :: todo : List Segment) + others))
    (hsegs : Multiset.Rel Turned ((todo : Multiset Segment) + others) segs) :
    ring = join (seg :: todo) ∧ Multiset.Rel Turned others rest := by
  have hcmp : ∀ s ∈ seg :: segs, Comparable s := by
    intro s hs
    rcases List.mem_cons.mp hs with rfl | hs
    · exact hpieces.comparable s List.mem_cons_self
    · obtain ⟨q, hq, hturn⟩ := Multiset.exists_mem_of_rel_of_mem (rel_turned_symm hsegs) hs
      rcases Multiset.mem_add.mp hq with hq | hq
      · exact (hpieces.comparable q (List.mem_cons_of_mem seg hq)).turned hturn.symm
      · exact (hothers q hq).turned hturn.symm
  obtain ⟨taken, more, ha, -⟩ := h.appends_first hcmp
  rw [ha.segs, Multiset.rel_add_right] at hsegs
  obtain ⟨taken', left, htaken, hleft, hsum⟩ := hsegs
  obtain ⟨rfl, rfl⟩ := walk_whole hpieces.cyclic hpieces.ne_nil
    (fun q hq => (ha.comparable q (List.mem_append_right _ hq)).ne_nil) hsep hsum
    (rel_turned_trans htaken ha.turned) ha.linked (by
      have hjoin : ring = join (seg :: more) := ha.join
      rw [← hjoin]
      rcases ha.ended with ⟨-, hcloses⟩ | hstuck
      · left
        rw [← ha.comparable_ring.closes_iff.mp hcloses, hjoin,
          front_join Coord.value (hpieces.ne_nil seg List.mem_cons_self)]
      · right
        rwa [ends_of_turned Coord.value hleft])
  exact ⟨ha.join, hleft⟩

theorem closeRing_of_closes {ring : Ring} (h : closes ring = true) : closeRing ring = ring := by
  unfold closeRing
  split
  · rfl
  · exact if_pos h

/-! ## The family -/

/-- The first segment belongs to one of the cycles; the others are the pieces of the rest of this cycle
and of the other cycles. -/
theorem exists_cycle_of_first {seg : Segment} {segs : List Segment} {family : List (List Segment)}
    (hsegs : Multiset.Rel Turned (seg :: segs : List Segment) (family.flatten : Multiset Segment)) :
    ∃ before a p b later, family = before ++ (a ++ p :: b) :: later ∧ Turned seg p ∧
      Multiset.Rel Turned (segs : Multiset Segment)
        ((a ++ b : List Segment) + ((before ++ later).flatten : Multiset Segment)) := by
  rw [← Multiset.cons_coe, Multiset.rel_cons_left] at hsegs
  obtain ⟨p, pieces, hturn, hrel, hflat⟩ := hsegs
  have hp : p ∈ family.flatten := by
    rw [← Multiset.mem_coe, hflat]
    exact Multiset.mem_cons_self p pieces
  obtain ⟨cycle, hcycle, hmem⟩ := List.mem_flatten.mp hp
  obtain ⟨before, later, rfl⟩ := List.append_of_mem hcycle
  obtain ⟨a, b, rfl⟩ := List.append_of_mem hmem
  refine ⟨before, a, p, b, later, rfl, hturn, ?_⟩
  have hpieces : pieces = (a ++ b : List Segment) + ((before ++ later).flatten : Multiset Segment) := by
    refine (Multiset.cons_inj_right p).mp ?_
    rw [← hflat]
    simp only [List.flatten_append, List.flatten_cons, ← Multiset.coe_add, ← Multiset.cons_coe,
      ← Multiset.singleton_add]
    abel
  exact hpieces ▸ hrel

/-- A closed ring with the points of the pieces, in the order of the cycle or the other way around. -/
structure Restores (ps : List Segment) (ring : Ring) : Prop where
  closed : closes ring = true
  points : ring.dropLast.map Coord.value ~r (ps.flatMap List.dropLast).map Coord.value ∨
    ring.dropLast.map Coord.value ~r ((ps.flatMap List.dropLast).map Coord.value).reverse

/-- One round of the outer loop takes one cycle of the family. -/
theorem Walk.round {seg : Segment} {segs rest : List Segment} {ring : Ring}
    {family : List (List Segment)} (h : Walk seg segs ring rest) (hfam : ∀ ps ∈ family, RingPieces ps)
    (hsep : Separate Coord.value (family.flatten : Multiset Segment))
    (hsegs : Multiset.Rel Turned (seg :: segs : List Segment) (family.flatten : Multiset Segment)) :
    ∃ before ps later, family = before ++ ps :: later ∧ Restores ps ring ∧ 4 ≤ ring.length ∧
      Multiset.Rel Turned (rest : Multiset Segment) ((before ++ later).flatten : Multiset Segment) := by
  obtain ⟨before, a, p, b, later, rfl, hturn, hrel⟩ := exists_cycle_of_first hsegs
  have hps := hfam (a ++ p :: b) (by simp)
  obtain ⟨todo, htodo, hpieces, hrot⟩ := exists_cycle_from hps hturn
  obtain ⟨hfronts, hbacks⟩ := fronts_backs_of_rotated hps htodo hrot
  have hflat : ((before ++ (a ++ p :: b) :: later).flatten : Multiset Segment) =
      (a ++ p :: b : List Segment) + ((before ++ later).flatten : Multiset Segment) := by
    simp only [List.flatten_append, List.flatten_cons, ← Multiset.coe_add]
    abel
  rw [hflat] at hsep
  have hsep' : Separate Coord.value
      ((seg :: todo : List Segment) + ((before ++ later).flatten : Multiset Segment)) := by
    constructor
    · rw [Multiset.map_add, Multiset.map_coe, hfronts, ← Multiset.map_coe, ← Multiset.map_add]
      exact hsep.fronts
    · rw [Multiset.map_add, Multiset.map_coe, hbacks, ← Multiset.map_coe, ← Multiset.map_add]
      exact hsep.backs
  have hothers : ∀ q ∈ ((before ++ later).flatten : Multiset Segment), Comparable q := by
    intro q hq
    obtain ⟨ps, hmem, hq⟩ := List.mem_flatten.mp (Multiset.mem_coe.mp hq)
    refine (hfam ps ?_).comparable q hq
    rcases List.mem_append.mp hmem with hmem | hmem
    · exact List.mem_append_left _ hmem
    · exact List.mem_append_right _ (List.mem_cons_of_mem _ hmem)
  obtain ⟨rfl, hrest⟩ := h.whole_ring htodo hothers hsep'
    (rel_turned_trans (hpieces.add (Multiset.rel_refl_of_refl_on fun q _ => .refl q))
      (rel_turned_symm hrel))
  obtain ⟨hcloses, hfour⟩ := htodo.closed_join
  exact ⟨before, a ++ p :: b, later, rfl, ⟨hcloses, points_of_rotated hps htodo hrot⟩, hfour,
    rel_turned_symm hrest⟩

/-- The rings that come out are those of the cycles. -/
theorem Stitches.restores {segs : List Segment} {rings : List Ring} (h : Stitches segs rings)
    {family : List (List Segment)} (hfam : ∀ ps ∈ family, RingPieces ps)
    (hsep : Separate Coord.value (family.flatten : Multiset Segment))
    (hsegs : Multiset.Rel Turned (segs : Multiset Segment) (family.flatten : Multiset Segment)) :
    ∃ order : List (List Segment), order.Perm family ∧ List.Forall₂ Restores order rings := by
  induction h generalizing family with
  | done =>
    rw [Multiset.coe_nil, Multiset.rel_zero_left, Multiset.coe_eq_zero] at hsegs
    cases family with
    | nil => exact ⟨[], .refl [], .nil⟩
    | cons ps family =>
      have hps := hfam ps List.mem_cons_self
      have hnil : ps = [] := List.flatten_eq_nil_iff.mp hsegs ps List.mem_cons_self
      have hthree := hps.three
      rw [hnil] at hthree
      simp at hthree
  | @ring seg segs ring rest rings hwalk _ _ ih =>
    obtain ⟨before, ps, later, rfl, hring, -, hrest⟩ := hwalk.round hfam hsep hsegs
    have hsub : (before ++ later).Sublist (before ++ ps :: later) :=
      (List.Sublist.refl before).append (List.sublist_cons_self ps later)
    obtain ⟨order, hperm, hall⟩ := ih (fun qs hqs => hfam qs (hsub.subset hqs))
      (hsep.of_le (Multiset.coe_le.mpr hsub.flatten.subperm)) hrest
    refine ⟨ps :: order, (hperm.cons ps).trans List.perm_middle.symm, .cons ?_ hall⟩
    rwa [closeRing_of_closes hring.closed]
  | @short seg segs ring rest rings hwalk hshort _ _ =>
    obtain ⟨_, _, _, -, hring, hfour, -⟩ := hwalk.round hfam hsep hsegs
    rw [closeRing_of_closes hring.closed] at hshort
    omega

/-- Points that are the ends of exactly two pieces of closed rings start one piece and end one. -/
theorem separate_of_count {family : List (Ring × List Segment)}
    (hcut : ∀ f ∈ family, CutInto f.1 f.2)
    (hends : ∀ v ∈ ends Coord.value (family.flatMap Prod.snd : Multiset Segment),
      (ends Coord.value (family.flatMap Prod.snd : Multiset Segment)).count v = 2) :
    Separate Coord.value (family.flatMap Prod.snd : Multiset Segment) := by
  have hbacks : (family.flatMap Prod.snd : Multiset Segment).map (back Coord.value) =
      (family.flatMap Prod.snd : Multiset Segment).map (front Coord.value) := by
    clear hends
    induction family with
    | nil => rfl
    | cons f family ih =>
      have hf : (f.2 : Multiset Segment).map (back Coord.value) =
          (f.2 : Multiset Segment).map (front Coord.value) :=
        (hcut f List.mem_cons_self).cyclic.map_back
      rw [List.flatMap_cons, ← Multiset.coe_add, Multiset.map_add, Multiset.map_add, hf,
        ih fun g hg => hcut g (List.mem_cons_of_mem f hg)]
  have hfronts : ((family.flatMap Prod.snd : Multiset Segment).map (front Coord.value)).Nodup := by
    rw [ends, hbacks] at hends
    refine Multiset.nodup_iff_count_le_one.mpr fun v => ?_
    by_cases hv : v ∈ (family.flatMap Prod.snd : Multiset Segment).map (front Coord.value)
    · have htwo := hends v (Multiset.mem_add.mpr (.inl hv))
      rw [Multiset.count_add] at htwo
      omega
    · rw [Multiset.count_eq_zero_of_notMem hv]
      exact Nat.zero_le 1
  exact ⟨hfronts, hbacks ▸ hfronts⟩

theorem sameRing_of_restores {cycles : List (List Segment)} {rings rings' : List Ring}
    (hcut : List.Forall₂ (fun ps ring => CutInto ring ps) cycles rings)
    (hall : List.Forall₂ Restores cycles rings') : List.Forall₂ SameRing rings rings' := by
  induction hcut generalizing rings' with
  | nil =>
    cases hall
    exact .nil
  | cons hc _ ih =>
    obtain _ | ⟨hr, hall⟩ := hall
    refine .cons ⟨hr.closed, ?_⟩ (ih hall)
    rcases hr.points with h | h
    · exact .inl (h.trans hc.points)
    · exact .inr (h.trans hc.points.reverse)

/-- **Completeness of stitching.** Closed rings are cut at some of their points, so that every end of a
piece is the end of exactly two pieces of the whole family. From the pieces in any order and any direction
`stitchRings` returns one ring for each of the rings, with the same points up to the start and the
direction. -/
theorem stitchRings_cut (family : List (Ring × List Segment)) (hring : ∀ f ∈ family, IsRing f.1)
    (hcut : ∀ f ∈ family, CutInto f.1 f.2)
    (hends : ∀ v ∈ ends Coord.value (family.flatMap Prod.snd : Multiset Segment),
      (ends Coord.value (family.flatMap Prod.snd : Multiset Segment)).count v = 2)
    {segs : List Segment}
    (hsegs : Multiset.Rel Turned (family.flatMap Prod.snd : Multiset Segment) segs) :
    ∃ order : List Ring, order.Perm (family.map Prod.fst) ∧
      List.Forall₂ SameRing order (stitchRings segs) := by
  have hpieces : ∀ ps ∈ family.map Prod.snd, RingPieces ps := by
    intro ps hps
    obtain ⟨f, hf, rfl⟩ := List.mem_map.mp hps
    exact (hcut f hf).ringPieces (hring f hf)
  have hflat : family.flatMap Prod.snd = (family.map Prod.snd).flatten := rfl
  have hsep := separate_of_count hcut hends
  rw [hflat] at hsep hsegs
  obtain ⟨order, hperm, hall⟩ :=
    (stitches_stitchRings segs).restores hpieces hsep (rel_turned_symm hsegs)
  have hcuts : List.Forall₂ (fun ps ring => CutInto ring ps) (family.map Prod.snd) (family.map Prod.fst) := by
    rw [List.forall₂_map_left_iff, List.forall₂_map_right_iff, List.forall₂_same]
    exact hcut
  obtain ⟨rings, hpair, hrings⟩ := List.perm_comp_forall₂ hperm hcuts
  exact ⟨rings, hrings, sameRing_of_restores hpair hall⟩

/-- A square, from its corners. -/
def squareRing (a b c d : Coord) : Ring := [a, b, c, d, a]

/-- Two halves of the unit square, the second one turned around and in front. -/
def squareHalves : List Segment :=
  [[corner 0 0, corner 0 1, corner 1 1], [corner 0 0, corner 1 0, corner 1 1]]

theorem stitchRings_cut_square : ∃ order : List Ring,
    order.Perm [squareRing (corner 0 0) (corner 1 0) (corner 1 1) (corner 0 1)] ∧
    List.Forall₂ SameRing order (stitchRings squareHalves) := by
  refine stitchRings_cut [(squareRing (corner 0 0) (corner 1 0) (corner 1 1) (corner 0 1),
    [[corner 0 0, corner 1 0, corner 1 1], [corner 1 1, corner 0 1, corner 0 0]])] ?_ ?_ ?_ ?_
  · rw [List.forall_mem_singleton]
    exact ⟨by decide, by decide, by decide⟩
  · rw [List.forall_mem_singleton]
    exact ⟨by decide, .cons_cons rfl (.cons_cons rfl (.singleton _)), by decide⟩
  · decide
  · have hswap : (squareHalves : Multiset Segment) = squareHalves.reverse :=
      Multiset.coe_eq_coe.mpr (List.reverse_perm _).symm
    rw [hswap]
    exact .cons (.inl rfl) (.cons (.inr rfl) .zero)

end OsmImport
