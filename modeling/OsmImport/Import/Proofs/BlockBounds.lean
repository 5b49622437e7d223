import OsmImport.Import.Proofs.BlockRoundTrip

/-!
# The indices of a primitive block

A block is followed through six arrays of indices and lengths, and only the upper bound of a role is tested
before the access. So every access is inside its array exactly if the arrays fit each other and the string
table.
-/

namespace OsmImport

namespace PrimitiveBlock

open OSMPBF

/-! ## Blocks whose indices fit -/

section

variable (strtable : List Str)

/-- A place of the string table. -/
def InTable (i : ℤ) : Prop := 0 ≤ i ∧ i < strtable.length

/-- There is a value for each key, and both are in the table. -/
structure TagsFit (keys vals : List ℕ) : Prop where
  enough : keys.length ≤ vals.length
  key : ∀ k ∈ keys, InTable strtable k
  val : ∀ v ∈ vals.take keys.length, InTable strtable v

/-- Pairs of a key and a value, as they are in `keys_vals`. -/
def interleaved (pairs : List (ℤ × ℤ)) : List ℤ := pairs.flatMap fun kv => [kv.1, kv.2]

/-- The key is no delimiter, and both are in the table. -/
def PairsFit (pairs : List (ℤ × ℤ)) : Prop :=
  ∀ kv ∈ pairs, kv.1 ≠ 0 ∧ InTable strtable kv.1 ∧ InTable strtable kv.2

/-- `keys_vals` for a number of nodes: pairs and a delimiter for each; behind the pairs of any node it may
be at its end. -/
inductive KeysValsFit : ℕ → List ℤ → Prop
  | done (kv : List ℤ) : KeysValsFit 0 kv
  | ended {n : ℕ} {pairs : List (ℤ × ℤ)} (h : PairsFit strtable pairs) :
    KeysValsFit (n + 1) (interleaved pairs)
  | node {n : ℕ} {pairs : List (ℤ × ℤ)} {kv : List ℤ} (h : PairsFit strtable pairs)
    (hkv : KeysValsFit n kv) : KeysValsFit (n + 1) (interleaved pairs ++ 0 :: kv)

/-- Every dense node has its coordinates and its tags. -/
structure DenseFits (dense : DenseNodes) : Prop where
  lat : dense.id.length ≤ dense.lat.length
  lon : dense.id.length ≤ dense.lon.length
  keys_vals : KeysValsFit strtable dense.id.length dense.keys_vals

/-- Every member has a type, and each way among them a role that is not negative. -/
structure MembersFit (memids : List Int64) (types : List MemberType) (roles_sid : List ℤ) : Prop where
  typed : memids.length ≤ types.length
  role : ∀ i < memids.length, types[i]? = some .WAY → ∃ sid, roles_sid[i]? = some sid ∧ 0 ≤ sid

structure GroupFits (group : PrimitiveGroup) : Prop where
  dense : ∀ dense, group.dense = some dense → DenseFits strtable dense
  nodes : ∀ n ∈ group.nodes, TagsFit strtable n.keys n.vals
  ways : ∀ w ∈ group.ways, TagsFit strtable w.keys w.vals
  relations : ∀ r ∈ group.relations, TagsFit strtable r.keys r.vals ∧
    MembersFit r.memids r.types r.roles_sid

end

/-- The indices of a block fit its string table, and its arrays each other. -/
def BlockFits (pb : OSMPBF.PrimitiveBlock) : Prop :=
  ∀ group ∈ pb.primitivegroup, GroupFits pb.stringtable group

/-! ## Results of a sequence of reads -/

section

variable {α β : Type}

/-- Two reads, the second of which succeeds or not whatever the first gives. -/
theorem isSome_bind_iff {x : Option α} {f : α → Option β} {p : Prop} (h : ∀ a, (f a).isSome ↔ p) :
    (x >>= f).isSome ↔ x.isSome ∧ p := by
  cases x with
  | none => simp
  | some a => simpa using h a

theorem isSome_return_iff {x : Option α} {f : α → β} : (x >>= fun a => pure (f a)).isSome ↔ x.isSome := by
  cases x <;> exact Iff.rfl

theorem isSome_mapM_iff {f : α → Option β} {l : List α} :
    (l.mapM f).isSome ↔ ∀ a ∈ l, (f a).isSome := by
  induction l with
  | nil => simp
  | cons a l ih =>
    rw [List.mapM_cons, List.forall_mem_cons]
    exact isSome_bind_iff fun b => isSome_return_iff.trans ih

end

/-! ## Tags -/

section

variable {strtable : List Str}

theorem isSome_get_iff {i : ℤ} : (get strtable i).isSome ↔ InTable strtable i := by
  unfold get InTable
  by_cases h : i < 0
  · rw [if_pos h]
    exact iff_of_false Bool.false_ne_true fun hi => by omega
  · rw [if_neg h, Option.isSome_iff_ne_none, ne_eq, List.getElem?_eq_none_iff]
    omega

theorem isSome_getTagsFrom_iff {keys vals : List ℕ} (tags : Tags) :
    (getTagsFrom strtable tags keys vals).isSome ↔ TagsFit strtable keys vals := by
  induction keys generalizing vals tags with
  | nil =>
    refine iff_of_true ?_ ⟨Nat.zero_le _, by simp, by simp⟩
    cases vals <;> rfl
  | cons k keys ih =>
    cases vals with
    | nil => exact iff_of_false Bool.false_ne_true fun h => absurd h.enough (by simp)
    | cons v vals =>
      have hread : (getTagsFrom strtable tags (k :: keys) (v :: vals)).isSome ↔
          (get strtable k).isSome ∧ (get strtable v).isSome ∧ TagsFit strtable keys vals :=
        isSome_bind_iff fun key => isSome_bind_iff fun val => ih (tags.set key val)
      rw [hread, isSome_get_iff, isSome_get_iff]
      constructor
      · rintro ⟨hk, hv, h⟩
        exact ⟨Nat.succ_le_succ h.enough, List.forall_mem_cons.mpr ⟨hk, h.key⟩,
          List.forall_mem_cons.mpr ⟨hv, h.val⟩⟩
      · rintro ⟨hlen, hkeys, hvals⟩
        rw [List.forall_mem_cons] at hkeys
        rw [List.length_cons, List.take_succ_cons, List.forall_mem_cons] at hvals
        exact ⟨hkeys.1, hvals.1, Nat.le_of_succ_le_succ hlen, hkeys.2, hvals.2⟩

theorem isSome_getTags_iff {keys vals : List ℕ} :
    (getTags strtable keys vals).isSome ↔ TagsFit strtable keys vals :=
  isSome_getTagsFrom_iff .none

/-! ## Dense nodes -/

/-- The cursor stands behind the delimiter of the pairs, or at the end. -/
theorem takeTags_reads {tags tags' : Tags} {kv rest : List ℤ}
    (h : takeTags strtable tags kv = some (tags', rest)) : ∃ pairs, PairsFit strtable pairs ∧
      (kv = interleaved pairs ++ 0 :: rest ∨ kv = interleaved pairs ∧ rest = []) := by
  have hnil : PairsFit strtable [] := List.forall_mem_nil _
  induction tags, kv using takeTags.induct with
  | case1 tags =>
    cases h
    exact ⟨[], hnil, .inr ⟨rfl, rfl⟩⟩
  | case2 tags =>
    cases h
    exact ⟨[], hnil, .inl rfl⟩
  | case3 tags k hk =>
    rw [takeTags, if_neg hk] at h
    cases h
  | case4 tags v kv =>
    cases h
    exact ⟨[], hnil, .inl rfl⟩
  | case5 tags k v kv hk ih =>
    rw [takeTags, if_neg hk] at h
    obtain ⟨key, hkey, h⟩ := Option.bind_eq_some_iff.mp h
    obtain ⟨val, hval, h⟩ := Option.bind_eq_some_iff.mp h
    obtain ⟨pairs, hpairs, hkv⟩ := ih key val h
    have hk' : InTable strtable k := isSome_get_iff.mp (Option.isSome_of_eq_some hkey)
    have hv' : InTable strtable v := isSome_get_iff.mp (Option.isSome_of_eq_some hval)
    refine ⟨(k, v) :: pairs, List.forall_mem_cons.mpr ⟨⟨hk, hk', hv'⟩, hpairs⟩, ?_⟩
    rcases hkv with rfl | ⟨rfl, hrest⟩
    · exact .inl rfl
    · exact .inr ⟨rfl, hrest⟩

/-- The loop takes the pairs in front of a piece where it stops. -/
theorem takeTags_append {tail rest : List ℤ}
    (htail : ∀ tags, takeTags strtable tags tail = some (tags, rest)) {pairs : List (ℤ × ℤ)}
    (h : PairsFit strtable pairs) (tags : Tags) :
    ∃ tags', takeTags strtable tags (interleaved pairs ++ tail) = some (tags', rest) := by
  induction pairs generalizing tags with
  | nil => exact ⟨tags, htail tags⟩
  | cons kv pairs ih =>
    obtain ⟨⟨hk, hkey, hval⟩, hpairs⟩ := List.forall_mem_cons.mp h
    obtain ⟨key, hkey⟩ := Option.isSome_iff_exists.mp (isSome_get_iff.mpr hkey)
    obtain ⟨val, hval⟩ := Option.isSome_iff_exists.mp (isSome_get_iff.mpr hval)
    obtain ⟨tags', htags'⟩ := ih hpairs (tags.set key val)
    refine ⟨tags', ?_⟩
    show takeTags strtable tags (kv.1 :: kv.2 :: (interleaved pairs ++ tail)) = _
    rw [takeTags, if_neg hk, hkey, hval]
    exact htags'

theorem keysValsFit_nil (n : ℕ) : KeysValsFit strtable n [] := by
  cases n with
  | zero => exact .done []
  | succ n => exact @KeysValsFit.ended strtable n [] (List.forall_mem_nil _)

/-- The tags of a node and those of the nodes behind it. -/
theorem keysValsFit_succ_iff {n : ℕ} {kv : List ℤ} : KeysValsFit strtable (n + 1) kv ↔
    ∃ tags rest, takeTags strtable .none kv = some (tags, rest) ∧ KeysValsFit strtable n rest := by
  constructor
  · intro h
    cases h with
    | ended h =>
      obtain ⟨tags, htags⟩ := takeTags_append
        (fun tags => (rfl : takeTags strtable tags [] = some (tags, []))) h .none
      rw [List.append_nil] at htags
      exact ⟨tags, [], htags, keysValsFit_nil n⟩
    | node h hkv =>
      obtain ⟨tags, htags⟩ := takeTags_append (fun tags => takeTags_delimiter strtable tags _) h .none
      exact ⟨tags, _, htags, hkv⟩
  · rintro ⟨tags, rest, htags, hrest⟩
    obtain ⟨pairs, hpairs, rfl | ⟨rfl, -⟩⟩ := takeTags_reads htags
    · exact .node hpairs hrest
    · exact .ended hpairs

end

section

variable {degrees : Int64 → Double} {pb : OSMPBF.PrimitiveBlock}

/-- One round of the loop over the dense nodes. -/
theorem isSome_denseNodes_cons {i la lo : Int64} {ids lats lons : List Int64} {kv : List ℤ}
    (id lat lon : Int64) :
    (denseNodes degrees pb id lat lon (i :: ids) (la :: lats) (lo :: lons) kv).isSome ↔
      ∃ tags rest, takeTags pb.stringtable .none kv = some (tags, rest) ∧
        (denseNodes degrees pb (id + i) (lat + la) (lon + lo) ids lats lons rest).isSome := by
  rw [denseNodes]
  cases takeTags pb.stringtable .none kv with
  | none => simp
  | some r =>
    obtain ⟨tags, rest⟩ := r
    have hread : (denseNodes degrees pb (id + i) (lat + la) (lon + lo) ids lats lons rest >>= fun nodes =>
        pure (nodeEntry degrees pb (id + i) (lat + la) (lon + lo) tags :: nodes)).isSome ↔
        (denseNodes degrees pb (id + i) (lat + la) (lon + lo) ids lats lons rest).isSome :=
      isSome_return_iff
    refine hread.trans ⟨fun h => ⟨tags, rest, rfl, h⟩, ?_⟩
    rintro ⟨tags', rest', h, hrest⟩
    cases h
    exact hrest

theorem isSome_denseNodes_iff {ids lats lons : List Int64} {kv : List ℤ} (id lat lon : Int64) :
    (denseNodes degrees pb id lat lon ids lats lons kv).isSome ↔
      ids.length ≤ lats.length ∧ ids.length ≤ lons.length ∧
        KeysValsFit pb.stringtable ids.length kv := by
  induction ids generalizing lats lons kv id lat lon with
  | nil =>
    refine iff_of_true ?_ ⟨Nat.zero_le _, Nat.zero_le _, .done kv⟩
    unfold denseNodes
    rfl
  | cons i ids ih =>
    rcases lats with _ | ⟨la, lats⟩
    · refine iff_of_false ?_ fun h => absurd h.1 (by simp)
      unfold denseNodes
      exact Bool.false_ne_true
    rcases lons with _ | ⟨lo, lons⟩
    · refine iff_of_false ?_ fun h => absurd h.2.1 (by simp)
      unfold denseNodes
      exact Bool.false_ne_true
    simp only [isSome_denseNodes_cons, ih, List.length_cons, keysValsFit_succ_iff,
      Nat.add_le_add_iff_right]
    constructor
    · rintro ⟨tags, rest, htags, hlat, hlon, hrest⟩
      exact ⟨hlat, hlon, tags, rest, htags, hrest⟩
    · rintro ⟨hlat, hlon, tags, rest, htags, hrest⟩
      exact ⟨tags, rest, htags, hlat, hlon, hrest⟩

theorem isSome_parseDense_iff {dense : Option DenseNodes} : (parseDense degrees pb dense).isSome ↔
    ∀ d, dense = some d → DenseFits pb.stringtable d := by
  cases dense with
  | none => exact iff_of_true rfl fun d hd => by cases hd
  | some d =>
    refine (isSome_denseNodes_iff 0 0 0).trans ⟨fun h d' hd => ?_, fun h => ?_⟩
    · obtain rfl := Option.some.inj hd
      exact ⟨h.1, h.2.1, h.2.2⟩
    · obtain ⟨hlat, hlon, hkv⟩ := h d rfl
      exact ⟨hlat, hlon, hkv⟩

/-! ## Relations -/

/-- A role is not read behind the table; only a negative number gets past the test. -/
theorem isSome_roleOf_iff {sid : ℤ} : (roleOf pb sid).isSome ↔ 0 ≤ sid := by
  unfold roleOf
  by_cases h : sid < pb.stringtable.length
  · rw [if_pos h, isSome_get_iff, InTable, and_iff_left h]
  · rw [if_neg h]
    exact iff_of_true rfl (by omega)

theorem membersFit_cons_iff {memid : Int64} {memids : List Int64} {type : MemberType}
    {types : List MemberType} {sids : List ℤ} :
    MembersFit (memid :: memids) (type :: types) sids ↔
      (type = .WAY → ∃ sid, sids.head? = some sid ∧ 0 ≤ sid) ∧ MembersFit memids types sids.tail := by
  have hroles : (∀ i < memids.length + 1, (type :: types)[i]? = some .WAY →
      ∃ sid, sids[i]? = some sid ∧ 0 ≤ sid) ↔
      (type = .WAY → ∃ sid, sids.head? = some sid ∧ 0 ≤ sid) ∧ ∀ i < memids.length,
        types[i]? = some .WAY → ∃ sid, sids.tail[i]? = some sid ∧ 0 ≤ sid := by
    rw [Nat.forall_lt_succ_left]
    simp only [List.getElem?_cons_zero, List.getElem?_cons_succ, List.getElem?_tail,
      List.head?_eq_getElem?, Option.some_inj]
  constructor
  · rintro ⟨htyped, hrole⟩
    obtain ⟨hhead, htail⟩ := hroles.mp hrole
    exact ⟨hhead, Nat.le_of_succ_le_succ htyped, htail⟩
  · rintro ⟨hhead, htyped, htail⟩
    exact ⟨Nat.succ_le_succ htyped, hroles.mpr ⟨hhead, htail⟩⟩

theorem isSome_wayMembers_iff {memids : List Int64} {types : List MemberType} {sids : List ℤ}
    (id : Int64) : (wayMembers pb id memids types sids).isSome ↔ MembersFit memids types sids := by
  induction memids generalizing types sids id with
  | nil =>
    refine iff_of_true ?_ ⟨Nat.zero_le _, fun i hi => absurd hi (Nat.not_lt_zero i)⟩
    unfold wayMembers
    rfl
  | cons memid memids ih =>
    rcases types with _ | ⟨type, types⟩
    · exact iff_of_false Bool.false_ne_true fun h => absurd h.typed (by simp)
    rw [membersFit_cons_iff, wayMembers]
    by_cases hway : type = .WAY
    · rw [if_pos hway, forall_prop_of_true hway]
      cases sids with
      | nil => simp
      | cons sid sids =>
        have hread : (roleOf pb sid >>= fun role => wayMembers pb (id + memid) memids types sids >>= fun rest =>
            pure (⟨id + memid, role⟩ :: rest : List RelationMember)).isSome ↔
            (roleOf pb sid).isSome ∧ (wayMembers pb (id + memid) memids types sids).isSome :=
          isSome_bind_iff fun role =>
            isSome_return_iff
        refine hread.trans ?_
        rw [isSome_roleOf_iff, ih]
        simp
    · rw [if_neg hway, ih]
      exact (and_iff_right fun h => absurd h hway).symm

/-! ## Blocks -/

/-- Behind the tags of an entity nothing else is read. -/
theorem isSome_parseNode_iff {n : Node} :
    (parseNode degrees pb n).isSome ↔ TagsFit pb.stringtable n.keys n.vals := by
  rw [← isSome_getTags_iff]
  exact isSome_return_iff

theorem isSome_parseWay_iff {w : Way} :
    (parseWay pb w).isSome ↔ TagsFit pb.stringtable w.keys w.vals := by
  rw [← isSome_getTags_iff]
  exact isSome_return_iff

theorem isSome_parseRelation_iff {r : Relation} : (parseRelation pb r).isSome ↔
    TagsFit pb.stringtable r.keys r.vals ∧ MembersFit r.memids r.types r.roles_sid := by
  have hmembers : (wayMembers pb 0 r.memids r.types r.roles_sid).isSome ↔ _ := isSome_wayMembers_iff 0
  rw [← isSome_getTags_iff, ← hmembers]
  exact isSome_bind_iff fun _ =>
    isSome_return_iff

theorem isSome_parseGroup_iff {group : PrimitiveGroup} :
    (parseGroup degrees pb group).isSome ↔ GroupFits pb.stringtable group := by
  have hread : (parseGroup degrees pb group).isSome ↔ (parseDense degrees pb group.dense).isSome ∧
      (group.nodes.mapM (parseNode degrees pb)).isSome ∧ (group.ways.mapM (parseWay pb)).isSome ∧
        (group.relations.mapM (parseRelation pb)).isSome :=
    isSome_bind_iff fun _ => isSome_bind_iff fun _ => isSome_bind_iff fun _ =>
      isSome_return_iff
  rw [hread, isSome_parseDense_iff, isSome_mapM_iff, isSome_mapM_iff, isSome_mapM_iff]
  simp only [isSome_parseNode_iff, isSome_parseWay_iff, isSome_parseRelation_iff]
  constructor
  · rintro ⟨hdense, hnodes, hways, hrelations⟩
    exact ⟨hdense, hnodes, hways, hrelations⟩
  · rintro ⟨hdense, hnodes, hways, hrelations⟩
    exact ⟨hdense, hnodes, hways, hrelations⟩

/-- Every access to the string table and to the arrays of a block is inside of them exactly if the indices
and lengths fit. -/
theorem accesses_inside_iff (degrees : Int64 → Double) (pb : OSMPBF.PrimitiveBlock) :
    parsePrimitiveBlock degrees pb ≠ none ↔ BlockFits pb := by
  rw [← Option.isSome_iff_ne_none, parsePrimitiveBlock, Option.isSome_map, isSome_mapM_iff]
  exact forall₂_congr fun group _ => isSome_parseGroup_iff

/-- A block with an empty string table, and a way whose key is its first string. -/
def emptyTableBlock : OSMPBF.PrimitiveBlock :=
  ⟨[], [⟨[], none, [⟨1, [0], [0], []⟩], []⟩], 100, 0, 0⟩

/-- The key is read behind the table. -/
theorem key_outside_table : ¬ ∀ (degrees : Int64 → Double) (pb : OSMPBF.PrimitiveBlock),
    parsePrimitiveBlock degrees pb ≠ none :=
  fun h => h (fun x => ⟨x.toUInt64⟩) emptyTableBlock rfl

end

end PrimitiveBlock

end OsmImport
