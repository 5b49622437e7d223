import OsmImport.Geometry.Multipolygon
import OsmImport.Lib.Chains

/-!
# What the stitched rings are made of

The two loops of `stitchRings` as derivations, one for each run that ends. The inner loop links pieces: the
segments that it takes, each one in the direction in which it is appended. It ends when the ring is closed
or when no segment that is left touches the end of the ring.
-/

namespace OsmImport

open Chains

/-! ## Comparing points -/

/-- The numbers of a point. -/
def Coord.value (c : Coord) : ℤ × ℤ := (c.1.rank, c.2.rank)

/-- One of the numbers is a NaN. -/
def Coord.isNaN (c : Coord) : Bool := c.1.isNaN || c.2.isNaN

theorem Coord.eq_iff {a b : Coord} (ha : a.isNaN = false) (hb : b.isNaN = false) :
    a.eq b = true ↔ a.value = b.value := by
  obtain ⟨ha1, ha2⟩ := Bool.or_eq_false_iff.mp ha
  obtain ⟨hb1, hb2⟩ := Bool.or_eq_false_iff.mp hb
  simp [Coord.eq, Double.eq, Coord.value, ha1, ha2, hb1, hb2]

/-- A segment with points, of which the first and the last one can be compared. -/
structure Comparable (seg : Segment) : Prop where
  ne_nil : seg ≠ []
  head : ∀ a ∈ seg.head?, a.isNaN = false
  last : ∀ a ∈ seg.getLast?, a.isNaN = false

theorem Comparable.exists_ends {seg : Segment} (h : Comparable seg) :
    ∃ a c, seg.head? = some a ∧ seg.getLast? = some c := by
  obtain ⟨a, ha⟩ := Option.ne_none_iff_exists'.mp (List.head?_eq_none_iff.not.mpr h.ne_nil)
  obtain ⟨c, hc⟩ := Option.ne_none_iff_exists'.mp (List.getLast?_eq_none_iff.not.mpr h.ne_nil)
  exact ⟨a, c, ha, hc⟩

theorem Comparable.turned {p q : Segment} (h : Turned p q) (hp : Comparable p) : Comparable q := by
  rcases h with rfl | rfl
  · exact hp
  · refine ⟨by simpa using hp.ne_nil, fun a ha => hp.last a ?_, fun a ha => hp.head a ?_⟩
    · rwa [List.head?_reverse] at ha
    · rwa [List.getLast?_reverse] at ha

theorem comparable_of_points {seg : Segment} (hne : seg ≠ []) (h : ∀ c ∈ seg, c.isNaN = false) :
    Comparable seg :=
  ⟨hne, fun a ha => h a (List.mem_of_mem_head? ha), fun a ha => h a (List.mem_of_mem_getLast? ha)⟩

theorem Comparable.closes_iff {ring : Ring} (h : Comparable ring) :
    closes ring = true ↔ front Coord.value ring = back Coord.value ring := by
  obtain ⟨a, ha⟩ := Option.ne_none_iff_exists'.mp (List.head?_eq_none_iff.not.mpr h.ne_nil)
  obtain ⟨b, hb⟩ := Option.ne_none_iff_exists'.mp (List.getLast?_eq_none_iff.not.mpr h.ne_nil)
  rw [closes, front, back, ha, hb]
  simpa using Coord.eq_iff (h.head a ha) (h.last b hb)

theorem comparable_join {p : Segment} {ps : List Segment} (h : ∀ q ∈ p :: ps, Comparable q) :
    Comparable (join (p :: ps)) := by
  have hp : Comparable p := h p List.mem_cons_self
  refine ⟨List.append_ne_nil_of_left_ne_nil hp.ne_nil _, fun a ha => hp.head a ?_, ?_⟩
  · rwa [join, List.head?_append_of_ne_nil _ hp.ne_nil] at ha
  · induction ps using List.reverseRecOn with
    | nil => simpa [join] using hp.last
    | append_singleton ps q ih =>
      intro a ha
      rw [← List.cons_append, join_concat (List.cons_ne_nil p ps), List.getLast?_append] at ha
      cases htail : q.tail.getLast? with
      | none =>
        rw [htail, Option.none_or] at ha
        exact ih (fun r hr => h r (List.mem_append_left [q] hr)) a ha
      | some b =>
        rw [htail] at ha
        obtain rfl : b = a := by simpa using ha
        refine (h q (by simp)).last b ?_
        rw [List.getLast?_tail] at htail
        split at htail
        · cases htail
        · exact htail

/-! ## The next segment -/

/-- The segment that `findNext` takes continues the ring, in one of its directions. -/
theorem findNext_eq_some {b : Coord} (hb : b.isNaN = false) {segs : List Segment}
    (hsegs : ∀ s ∈ segs, Comparable s) {pts : List Coord} {rest : List Segment}
    (h : findNext b segs = some (pts, rest)) :
    ∃ seg piece : Segment, (segs : Multiset Segment) = seg ::ₘ (rest : Multiset Segment) ∧
      Turned seg piece ∧ front Coord.value piece = some b.value ∧ pts = piece.tail := by
  induction segs generalizing pts rest with
  | nil => cases h
  | cons seg segs ih =>
    have hseg : Comparable seg := hsegs seg List.mem_cons_self
    obtain ⟨a, c, ha, hc⟩ := hseg.exists_ends
    rw [findNext, ha, hc] at h
    dsimp only at h
    split at h
    · obtain ⟨rfl, rfl⟩ := Prod.mk.inj (Option.some.inj h)
      have hab := (Coord.eq_iff (hseg.head a ha) hb).mp ‹_›
      exact ⟨seg, seg, rfl, .refl seg, by rw [front, ha, Option.map_some, hab], rfl⟩
    · split at h
      · obtain ⟨rfl, rfl⟩ := Prod.mk.inj (Option.some.inj h)
        have hcb := (Coord.eq_iff (hseg.last c hc) hb).mp ‹_›
        refine ⟨seg, seg.reverse, rfl, .inr rfl, ?_, rfl⟩
        rw [front_reverse, back, hc, Option.map_some, hcb]
      · obtain ⟨⟨pts', rest'⟩, hf, heq⟩ := Option.map_eq_some_iff.mp h
        obtain ⟨rfl, rfl⟩ := Prod.mk.inj heq
        obtain ⟨s, piece, hperm, hrest⟩ := ih (fun s hs => hsegs s (List.mem_cons_of_mem seg hs)) hf
        refine ⟨s, piece, ?_, hrest⟩
        rw [← Multiset.cons_coe, hperm, Multiset.cons_swap, Multiset.cons_coe]

/-- No segment touches the end of the ring when `findNext` finds none. -/
theorem findNext_eq_none {b : Coord} (hb : b.isNaN = false) {segs : List Segment}
    (hsegs : ∀ s ∈ segs, Comparable s) (h : findNext b segs = none) :
    some b.value ∉ ends Coord.value (segs : Multiset Segment) := by
  induction segs with
  | nil => simp [ends]
  | cons seg segs ih =>
    have hseg : Comparable seg := hsegs seg List.mem_cons_self
    obtain ⟨a, c, ha, hc⟩ := hseg.exists_ends
    rw [findNext, ha, hc] at h
    dsimp only at h
    split at h
    · cases h
    · split at h
      · cases h
      · have hfront : some b.value ≠ front Coord.value seg := by
          rw [front, ha]
          intro heq
          exact ‹¬a.eq b = true› ((Coord.eq_iff (hseg.head a ha) hb).mpr (Option.some.inj heq).symm)
        have hback : some b.value ≠ back Coord.value seg := by
          rw [back, hc]
          intro heq
          exact ‹¬c.eq b = true› ((Coord.eq_iff (hseg.last c hc) hb).mpr (Option.some.inj heq).symm)
        rw [← Multiset.cons_coe, ends_cons, Multiset.mem_cons, Multiset.mem_cons]
        rintro (heq | heq | hmem)
        · exact hfront heq
        · exact hback heq
        · exact ih (fun s hs => hsegs s (List.mem_cons_of_mem seg hs)) (Option.map_eq_none_iff.mp h) hmem

theorem findNext_length {b : Coord} {segs : List Segment} {pts : List Coord} {rest : List Segment}
    (h : findNext b segs = some (pts, rest)) : rest.length + 1 = segs.length := by
  induction segs generalizing pts rest with
  | nil => cases h
  | cons seg segs ih =>
    have hlater : ((findNext b segs).map fun found => (found.1, seg :: found.2)) = some (pts, rest) →
        rest.length + 1 = (seg :: segs).length := by
      intro hmap
      obtain ⟨⟨pts', rest'⟩, hf, heq⟩ := Option.map_eq_some_iff.mp hmap
      obtain ⟨rfl, rfl⟩ := Prod.mk.inj heq
      rw [List.length_cons, List.length_cons, ih hf]
    unfold findNext at h
    split at h
    · split at h
      · obtain ⟨rfl, rfl⟩ := Prod.mk.inj (Option.some.inj h)
        rfl
      · split at h
        · obtain ⟨rfl, rfl⟩ := Prod.mk.inj (Option.some.inj h)
          rfl
        · exact hlater h
    · exact hlater h

/-! ## The loops -/

/-- A run of the `while (progress)` loop that ends: from a ring and the segments that are left to the ring
and the segments behind it. -/
inductive Walk : Ring → List Segment → Ring → List Segment → Prop
  | closed {ring segs} : 4 ≤ ring.length → closes ring = true → Walk ring segs ring segs
  | stuck {ring segs} : ¬ (4 ≤ ring.length ∧ closes ring = true) →
      (ring.getLast?.bind fun back => findNext back segs) = none → Walk ring segs ring segs
  | step {ring segs pts segs' ring' rest} : ¬ (4 ≤ ring.length ∧ closes ring = true) →
      (ring.getLast?.bind fun back => findNext back segs) = some (pts, segs') →
      Walk (ring ++ pts) segs' ring' rest → Walk ring segs ring' rest

/-- A run of the loop over the segments that ends, with the rings that it returns. -/
inductive Stitches : List Segment → List Ring → Prop
  | done : Stitches [] []
  | ring {seg segs ring rest rings} : Walk seg segs ring rest → 4 ≤ (closeRing ring).length →
      Stitches rest rings → Stitches (seg :: segs) (closeRing ring :: rings)
  | short {seg segs ring rest rings} : Walk seg segs ring rest → (closeRing ring).length < 4 →
      Stitches rest rings → Stitches (seg :: segs) rings

theorem walk_extendRing {n : ℕ} {ring : Ring} {segs : List Segment} (hn : segs.length ≤ n) :
    Walk ring segs (extendRing n ring segs).1 (extendRing n ring segs).2 := by
  induction n generalizing ring segs with
  | zero =>
    obtain rfl : segs = [] := List.length_eq_zero_iff.mp (Nat.le_zero.mp hn)
    by_cases hc : 4 ≤ ring.length ∧ closes ring = true
    · exact .closed hc.1 hc.2
    · refine .stuck hc ?_
      cases ring.getLast? <;> rfl
  | succ n ih =>
    unfold extendRing
    by_cases hc : 4 ≤ ring.length ∧ closes ring = true
    · rw [if_pos (by simpa using hc)]
      exact .closed hc.1 hc.2
    · rw [if_neg (by simpa using hc)]
      cases hnext : ring.getLast?.bind fun back => findNext back segs with
      | none => exact .stuck hc hnext
      | some found =>
        obtain ⟨back, -, hf⟩ := Option.bind_eq_some_iff.mp hnext
        have hlen := findNext_length hf
        exact .step hc hnext (ih (by omega))

theorem Walk.length_le {ring ring' : Ring} {segs rest : List Segment} (h : Walk ring segs ring' rest) :
    rest.length ≤ segs.length := by
  induction h with
  | closed => exact le_rfl
  | stuck => exact le_rfl
  | step _ hnext _ ih =>
    obtain ⟨back, -, hf⟩ := Option.bind_eq_some_iff.mp hnext
    have hlen := findNext_length hf
    omega

theorem stitches_stitchLoop {n : ℕ} {segs : List Segment} (hn : segs.length ≤ n) :
    Stitches segs (stitchLoop n segs) := by
  induction n generalizing segs with
  | zero =>
    obtain rfl : segs = [] := List.length_eq_zero_iff.mp (Nat.le_zero.mp hn)
    exact .done
  | succ n ih =>
    cases segs with
    | nil => exact .done
    | cons seg segs =>
      have hwalk : Walk seg segs _ _ := walk_extendRing (le_refl segs.length)
      have hrest := hwalk.length_le
      rw [List.length_cons] at hn
      rw [stitchLoop]
      dsimp only
      split
      · exact .ring hwalk ‹_› (ih (by omega))
      · exact .short hwalk (Nat.not_le.mp ‹_›) (ih (by omega))

/-- Both loops end, whatever the segments are. -/
theorem stitches_stitchRings (segs : List Segment) : Stitches segs (stitchRings segs) :=
  stitches_stitchLoop le_rfl

/-! ## Pieces -/

/-- What a run of the inner loop does: it appends the pieces `more`, which are `taken` from the segments,
and ends with a closed ring or where no segment goes on. -/
structure Appends (used : List Segment) (segs : List Segment) (ring : Ring) (rest : List Segment)
    (taken : Multiset Segment) (more : List Segment) : Prop where
  join : ring = join (used ++ more)
  linked : Linked Coord.value (used ++ more)
  segs : (segs : Multiset Segment) = taken + rest
  turned : Multiset.Rel Turned taken more
  comparable : ∀ p ∈ used ++ more, Comparable p
  ended : (4 ≤ ring.length ∧ closes ring = true) ∨
    back Coord.value ring ∉ ends Coord.value (rest : Multiset Segment)

theorem back_of_getLast? {ring : Ring} {b : Coord} (h : ring.getLast? = some b) :
    back Coord.value ring = some b.value := by
  rw [back, h, Option.map_some]

/-- The inner loop appends pieces. -/
theorem Walk.appends {ring ring' : Ring} {segs rest : List Segment} (h : Walk ring segs ring' rest)
    {p : Segment} {ps : List Segment} (hring : ring = Chains.join (p :: ps))
    (hlink : Linked Coord.value (p :: ps)) (hps : ∀ q ∈ p :: ps, Comparable q)
    (hsegs : ∀ s ∈ segs, Comparable s) :
    ∃ taken more, Appends (p :: ps) segs ring' rest taken more := by
  induction h generalizing ps with
  | closed h4 hc =>
    exact ⟨0, [], by simpa using hring, by simpa using hlink, (zero_add _).symm, .zero,
      by simpa using hps, .inl ⟨h4, hc⟩⟩
  | @stuck ring segs _ hnext =>
    refine ⟨0, [], by simpa using hring, by simpa using hlink, (zero_add _).symm, .zero,
      by simpa using hps, .inr ?_⟩
    have hcmp : Comparable ring := hring ▸ comparable_join hps
    obtain ⟨b, hb⟩ := Option.ne_none_iff_exists'.mp (List.getLast?_eq_none_iff.not.mpr hcmp.ne_nil)
    rw [hb, Option.bind_some] at hnext
    rw [back_of_getLast? hb]
    exact findNext_eq_none (hcmp.last b hb) hsegs hnext
  | @step ring segs pts segs' ring' rest _ hnext _ ih =>
    have hcmp : Comparable ring := hring ▸ comparable_join hps
    obtain ⟨b, hb, hf⟩ := Option.bind_eq_some_iff.mp hnext
    obtain ⟨seg, piece, hperm, hturn, hfront, rfl⟩ := findNext_eq_some (hcmp.last b hb) hsegs hf
    have hmem : ∀ s ∈ seg :: segs', Comparable s := by
      intro s hs
      refine hsegs s ?_
      rw [← Multiset.mem_coe, hperm, Multiset.cons_coe]
      exact hs
    have hpiece : Comparable piece := (hmem seg List.mem_cons_self).turned hturn
    have hlink' : Linked Coord.value (p :: (ps ++ [piece])) :=
      linked_concat Coord.value hlink (fun q hq => (hps q hq).ne_nil) fun _ => by
        rw [← hring, back_of_getLast? hb, hfront]
    have hps' : ∀ q ∈ p :: (ps ++ [piece]), Comparable q := by
      rw [← List.cons_append, List.forall_mem_append]
      exact ⟨hps, by simpa using hpiece⟩
    obtain ⟨taken, more, h⟩ := ih
      (by rw [hring, ← List.cons_append, join_concat (List.cons_ne_nil p ps)]) hlink' hps'
      fun s hs => hmem s (List.mem_cons_of_mem seg hs)
    have hlist : p :: (ps ++ [piece]) ++ more = p :: ps ++ piece :: more := by simp
    refine ⟨seg ::ₘ taken, piece :: more, hlist ▸ h.join, hlist ▸ h.linked, ?_, .cons hturn h.turned,
      hlist ▸ h.comparable, h.ended⟩
    rw [hperm, h.segs, Multiset.cons_add]

theorem Appends.mem_of_rest {used segs : List Segment} {ring : Ring} {rest : List Segment}
    {taken : Multiset Segment} {more : List Segment} (h : Appends used segs ring rest taken more)
    {s : Segment} (hs : s ∈ rest) : s ∈ segs := by
  rw [← Multiset.mem_coe, h.segs]
  exact Multiset.mem_add.mpr (.inr hs)

/-- What the loop does with the segment that it takes first. -/
theorem Walk.appends_first {seg : Segment} {segs rest : List Segment} {ring : Ring}
    (h : Walk seg segs ring rest) (hsegs : ∀ s ∈ seg :: segs, Comparable s) :
    ∃ taken more, Appends [seg] segs ring rest taken more ∧ ∀ s ∈ rest, Comparable s := by
  have hseg : ∀ s ∈ [seg], Comparable s := by
    intro s hs
    exact hsegs s (List.mem_cons.mpr (.inl (List.mem_singleton.mp hs)))
  have htail : ∀ s ∈ segs, Comparable s := fun s hs => hsegs s (List.mem_cons_of_mem seg hs)
  obtain ⟨taken, more, ha⟩ := h.appends (by simp [join]) (List.isChain_singleton seg) hseg htail
  exact ⟨taken, more, ha, fun s hs => htail s (ha.mem_of_rest hs)⟩

/-! ## Soundness -/

/-- A ring that is made of the pieces: linked at equal points, behind them the first point again if they
do not end there; closed and with four points at least. -/
structure RingOf (pieces : List Segment) (ring : Ring) : Prop where
  linked : Linked Coord.value pieces
  points : ring = join pieces ∨ ∃ a ∈ (join pieces).head?, ring = join pieces ++ [a]
  four : 4 ≤ ring.length
  closed : closes ring = true

theorem exists_pieces {chains : List (List Segment)} {rings : List Ring}
    (h : List.Forall₂ RingOf chains rings) {ring : Ring} (hr : ring ∈ rings) :
    ∃ pieces ∈ chains, RingOf pieces ring := by
  induction h with
  | nil => cases hr
  | cons hring _ ih =>
    rcases List.mem_cons.mp hr with rfl | hr
    · exact ⟨_, List.mem_cons_self, hring⟩
    · obtain ⟨pieces, hp, hring⟩ := ih hr
      exact ⟨pieces, List.mem_cons_of_mem _ hp, hring⟩

theorem Comparable.closes_closeRing {ring : Ring} (h : Comparable ring) :
    closes (closeRing ring) = true ∧
      (closeRing ring = ring ∨ ∃ a ∈ ring.head?, closeRing ring = ring ++ [a]) := by
  obtain ⟨a, -, ha, -⟩ := h.exists_ends
  unfold closeRing
  rw [ha]
  dsimp only
  split
  · exact ⟨‹_›, .inl rfl⟩
  · refine ⟨?_, .inr ⟨a, rfl, rfl⟩⟩
    rw [closes, List.head?_append, ha, List.getLast?_concat]
    exact (Coord.eq_iff (h.head a ha) (h.head a ha)).mpr rfl

theorem Appends.comparable_ring {seg : Segment} {segs : List Segment} {ring : Ring} {rest : List Segment}
    {taken : Multiset Segment} {more : List Segment} (h : Appends [seg] segs ring rest taken more) :
    Comparable ring := by
  rw [h.join]
  exact comparable_join h.comparable

/-- Every ring of a run is made of segments that no other ring has. -/
theorem Stitches.sound {segs : List Segment} {rings : List Ring} (h : Stitches segs rings)
    (hsegs : ∀ s ∈ segs, Comparable s) :
    ∃ chains : List (List Segment), List.Forall₂ RingOf chains rings ∧
      ∃ taken ≤ (segs : Multiset Segment), Multiset.Rel Turned taken (chains.flatten : Multiset Segment) := by
  induction h with
  | done => exact ⟨[], .nil, 0, Multiset.zero_le _, .zero⟩
  | @ring seg segs ring rest rings hwalk h4 _ ih =>
    obtain ⟨taken, more, ha, hcmp⟩ := hwalk.appends_first hsegs
    obtain ⟨chains, hrings, later, hle, hturned⟩ := ih hcmp
    obtain ⟨hcloses, hpoints⟩ := ha.comparable_ring.closes_closeRing
    refine ⟨(seg :: more) :: chains, .cons ⟨ha.linked, ha.join ▸ hpoints, h4, hcloses⟩ hrings,
      seg ::ₘ (taken + later), ?_, ?_⟩
    · rw [← Multiset.cons_coe, ha.segs]
      exact Multiset.cons_le_cons seg (Multiset.add_le_add_left hle)
    · rw [List.flatten_cons, List.cons_append, ← Multiset.cons_coe, ← Multiset.coe_add]
      exact .cons (.refl seg) (ha.turned.add hturned)
  | @short seg segs ring rest rings hwalk _ _ ih =>
    obtain ⟨taken, more, ha, hcmp⟩ := hwalk.appends_first hsegs
    obtain ⟨chains, hrings, later, hle, hturned⟩ := ih hcmp
    refine ⟨chains, hrings, later, hle.trans ?_, hturned⟩
    rw [← Multiset.cons_coe, ha.segs]
    exact (Multiset.le_add_left _ _).trans (Multiset.le_cons_self _ _)

/-- **Soundness of stitching.** On any segments with points and without NaNs the loops end, and each ring
that is returned is closed, has four points at least, and is made of whole segments, forward or reversed,
joined at equal points, with at most the closing point behind them; no segment is used twice. -/
theorem stitchRings_sound (segs : List Segment) (hne : ∀ s ∈ segs, s ≠ [])
    (hnan : ∀ s ∈ segs, ∀ c ∈ s, Coord.isNaN c = false) :
    Stitches segs (stitchRings segs) ∧
    ∃ chains : List (List Segment), List.Forall₂ RingOf chains (stitchRings segs) ∧
      ∃ taken ≤ (segs : Multiset Segment), Multiset.Rel Turned taken (chains.flatten : Multiset Segment) :=
  ⟨stitches_stitchRings segs,
    (stitches_stitchRings segs).sound fun s hs => comparable_of_points (hne s hs) (hnan s hs)⟩

/-- A point with these bits. -/
def corner (x y : UInt64) : Coord := (⟨x⟩, ⟨y⟩)

/-- Two sides of a triangle, the second one turned around, and a point. -/
def twoSides : List Segment := [[corner 0 0, corner 1 0], [corner 1 1, corner 1 0], [corner 1 1]]

theorem stitchRings_sound_two_sides :
    Stitches twoSides [[corner 0 0, corner 1 0, corner 1 1, corner 0 0]] ∧
    ∃ chains : List (List Segment),
      List.Forall₂ RingOf chains [[corner 0 0, corner 1 0, corner 1 1, corner 0 0]] ∧
      ∃ taken ≤ (twoSides : Multiset Segment),
        Multiset.Rel Turned taken (chains.flatten : Multiset Segment) := by
  have hrings : stitchRings twoSides = [[corner 0 0, corner 1 0, corner 1 1, corner 0 0]] := by decide
  rw [← hrings]
  exact stitchRings_sound twoSides (by decide) (by decide)

end OsmImport
