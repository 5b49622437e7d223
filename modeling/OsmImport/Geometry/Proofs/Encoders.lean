import OsmImport.Delta.DeltaApplier
import OsmImport.Geometry.Encoders
import OsmImport.Geometry.Proofs.Wkb

/-!
# The copies and the shared model

Each copy of an encoder computes what the function of `Geometry.Wkb` computes that stands for both.
-/

namespace OsmImport

open LittleEndian

/-! ## Words -/

theorem pushWord_eq (v : ℕ) : pushWord (UInt32.ofNat v) = wu32 v := by
  have hmask : ∀ n : ℕ, n &&& 255 = n % 256 := fun n => Nat.and_two_pow_sub_one_eq_mod n 8
  have h0 : ((UInt32.ofNat v) &&& 0xFF).toUInt8 = UInt8.ofNat (v % 256) :=
    UInt8.toNat_inj.mp (by simp [hmask])
  have h1 : ((UInt32.ofNat v >>> 8) &&& 0xFF).toUInt8 = UInt8.ofNat (v / 256 % 256) :=
    UInt8.toNat_inj.mp (by simp [hmask, Nat.shiftRight_eq_div_pow]; omega)
  have h2 : ((UInt32.ofNat v >>> 16) &&& 0xFF).toUInt8 = UInt8.ofNat (v / 256 / 256 % 256) :=
    UInt8.toNat_inj.mp (by simp [hmask, Nat.shiftRight_eq_div_pow]; omega)
  have h3 : ((UInt32.ofNat v >>> 24) &&& 0xFF).toUInt8 = UInt8.ofNat (v / 256 / 256 / 256 % 256) :=
    UInt8.toNat_inj.mp (by simp [hmask, Nat.shiftRight_eq_div_pow]; omega)
  rw [pushWord, h0, h1, h2, h3]
  rfl

/-- The mask leaves the two low bytes. -/
theorem toNat_typeWord (b1 b2 b3 b4 : UInt8) :
    (typeWord b1 b2 b3 b4).toNat = b1.toNat + 256 * b2.toNat := by
  have hmask : ∀ n : ℕ, n &&& 65535 = n % 2 ^ 16 := fun n => Nat.and_two_pow_sub_one_eq_mod n 16
  have h1 := b1.toNat_lt
  have h2 := b2.toNat_lt
  have hlow : b1.toNat ||| b2.toNat <<< 8 = b1.toNat + 256 * b2.toNat := by
    rw [Nat.or_comm, ← Nat.shiftLeft_add_eq_or_of_lt h1, Nat.shiftLeft_eq]
    omega
  have hword : (typeWord b1 b2 b3 b4).toNat = (b1.toNat ||| b2.toNat <<< 8 % 4294967296 |||
      b3.toNat <<< 16 % 4294967296 ||| b4.toNat <<< 24 % 4294967296) % 2 ^ 16 := by
    unfold typeWord
    simp [hmask]
  have h8 : b2.toNat <<< 8 % 4294967296 = b2.toNat <<< 8 := by
    rw [Nat.shiftLeft_eq]
    omega
  have h16 : b3.toNat <<< 16 % 4294967296 % 2 ^ 16 = 0 := by
    rw [Nat.shiftLeft_eq]
    omega
  have h24 : b4.toNat <<< 24 % 4294967296 % 2 ^ 16 = 0 := by
    rw [Nat.shiftLeft_eq]
    omega
  rw [hword, h8, hlow, Nat.or_mod_two_pow, Nat.or_mod_two_pow, h16, h24, Nat.or_zero, Nat.or_zero]
  omega

/-- The type of a linestring or a multilinestring, by the word and by the bytes. -/
theorem typeWord_isLinear {b : Bytes} (h : ¬ b.length < 5) :
    (typeWord (b.getD 1 0) (b.getD 2 0) (b.getD 3 0) (b.getD 4 0) == 2 ||
      typeWord (b.getD 1 0) (b.getD 2 0) (b.getD 3 0) (b.getD 4 0) == 5) = isLinear b := by
  rcases b with _ | ⟨b0, _ | ⟨b1, _ | ⟨b2, _ | ⟨b3, _ | ⟨b4, rest⟩⟩⟩⟩⟩
  case cons.cons.cons.cons.cons =>
    have hword := toNat_typeWord b1 b2 b3 b4
    have hbytes : ofBytes (((b0 :: b1 :: b2 :: b3 :: b4 :: rest).drop 1).take 4) % 2 ^ 16 =
        b1.toNat + 256 * b2.toNat := by
      have h1 := b1.toNat_lt
      have h2 := b2.toNat_lt
      simp only [List.drop_succ_cons, List.drop_zero, List.take_succ_cons, List.take_zero, ofBytes]
      omega
    have heq : ∀ n : ℕ, n < 2 ^ 32 → (typeWord b1 b2 b3 b4 == UInt32.ofNat n) =
        (ofBytes (((b0 :: b1 :: b2 :: b3 :: b4 :: rest).drop 1).take 4) % 2 ^ 16 == n) := by
      intro n hn
      rw [Bool.eq_iff_iff, beq_iff_eq, beq_iff_eq, ← UInt32.toNat_inj, hword, hbytes,
        UInt32.toNat_ofNat_of_lt' hn]
    rw [isLinear, if_neg h]
    dsimp only
    rw [← heq 2 (by omega), ← heq 5 (by omega)]
    rfl
  all_goals simp at h

/-! ## Digits -/

theorem hexDigits_main : ∀ x : Fin 256,
    (str "0123456789ABCDEF").getD (UInt8.ofNat x.val >>> 4).toNat 0 = hexDigit 65 (UInt8.ofNat x.val >>> 4) ∧
    (str "0123456789ABCDEF").getD (UInt8.ofNat x.val &&& 0xF).toNat 0 =
      hexDigit 65 (UInt8.ofNat x.val &&& 0xF) := by
  decide +kernel

theorem formatByte_eq : ∀ x : Fin 256, DeltaEncoders.formatByte (UInt8.ofNat x.val) =
    [hexDigit 97 (UInt8.ofNat x.val >>> 4), hexDigit 97 (UInt8.ofNat x.val &&& 0xF)] := by
  decide +kernel

theorem n_eq : ∀ x : Fin 256, MainEncoders.n (UInt8.ofNat x.val) = fromHexChar (UInt8.ofNat x.val) := by
  decide +kernel

theorem main_toHex_eq (b : Bytes) : MainEncoders.toHex b = toHexUpper b := by
  refine List.flatMap_congr fun x _ => ?_
  obtain ⟨hhi, hlo⟩ := hexDigits_main ⟨x.toNat, x.toNat_lt⟩
  rw [UInt8.ofNat_toNat] at hhi hlo
  rw [hhi, hlo]

theorem delta_toHex_eq (b : Bytes) : DeltaEncoders.toHex b = toHexLower b := by
  refine List.flatMap_congr fun x _ => ?_
  have hx := formatByte_eq ⟨x.toNat, x.toNat_lt⟩
  rwa [UInt8.ofNat_toNat] at hx

theorem main_fromHex_eq (h : Str) : MainEncoders.fromHex h = fromHex h := by
  have hn : ∀ c : UInt8, MainEncoders.n c = fromHexChar c := by
    intro c
    have hc := n_eq ⟨c.toNat, c.toNat_lt⟩
    rwa [UInt8.ofNat_toNat] at hc
  fun_induction MainEncoders.fromHex h with
  | case1 a b rest ih => rw [ih, hn, hn, fromHex]
  | case2 h hno =>
    rw [fromHex.eq_def]
    split
    · exact absurd rfl (hno _ _ _)
    · rfl

theorem byte_cons (a b : UInt8) (rest : Str) (i : ℕ) :
    DeltaEncoders.byte (a :: b :: rest) (i + 1) = DeltaEncoders.byte rest i := by
  have htwo : (i + 1) * 2 = i * 2 + 1 + 1 := by omega
  rw [DeltaEncoders.byte, htwo]
  rfl

/-- The bytes of a text, one by one. -/
theorem map_byte (h : Str) : (List.range (h.length / 2)).map (DeltaEncoders.byte h) = fromHex h := by
  fun_induction fromHex h with
  | case1 a b rest ih =>
    have hlen : (a :: b :: rest).length / 2 = rest.length / 2 + 1 := by
      rw [List.length_cons, List.length_cons]
      omega
    rw [hlen, List.range_succ_eq_map, List.map_cons, List.map_map, ← ih]
    exact congrArg₂ _ rfl (List.map_congr_left fun i _ => byte_cons a b rest i)
  | case2 h hno =>
    rcases h with _ | ⟨a, _ | ⟨b, rest⟩⟩
    · rfl
    · have hlen : [a].length / 2 = 0 := by simp
      rw [hlen]
      rfl
    · exact absurd rfl (hno a b rest)

theorem getD_fromHex {h : Str} (hlen : ¬ h.length < 10) {i : ℕ} (hi : i < 5) :
    (fromHex h).getD i 0 = DeltaEncoders.byte h i := by
  have hrange : i < h.length / 2 := by omega
  rw [← map_byte, List.getD_eq_getElem?_getD, List.getElem?_map, List.getElem?_range hrange]
  rfl

/-! ## Encoders -/

theorem main_buildWayGeom_eq (g_srid : ℕ) (coords : List Coord) (is_closed : Bool) :
    MainEncoders.buildWayGeom g_srid coords is_closed = buildWayGeom g_srid coords is_closed := by
  have hmeets : MainEncoders.meets coords = closes coords := rfl
  have hpolygon : pushWord 0x20000003 = wu32 0x20000003 := pushWord_eq 0x20000003
  have hline : pushWord 0x20000002 = wu32 0x20000002 := pushWord_eq 0x20000002
  have hone : pushWord 1 = wu32 1 := pushWord_eq 1
  unfold MainEncoders.buildWayGeom buildWayGeom
  rw [hmeets, hpolygon, hline, hone]
  cases decide (coords.length ≥ 4) && closes coords <;>
    simp [lineBytes, main_toHex_eq, points, List.flatMap_def, pushWord_eq]

theorem delta_buildLineWKB_eq (g_srid : ℕ) (pts : List Coord) (closed : Bool) :
    DeltaEncoders.buildLineWKB g_srid pts closed = buildLineWKB g_srid pts closed := by
  have hpolygon : pushWord 0x20000003 = wu32 0x20000003 := pushWord_eq 0x20000003
  have hline : pushWord 0x20000002 = wu32 0x20000002 := pushWord_eq 0x20000002
  have hone : pushWord 1 = wu32 1 := pushWord_eq 1
  unfold DeltaEncoders.buildLineWKB buildLineWKB
  rw [hpolygon, hline, hone]
  cases closed && decide (pts.length ≥ 4) <;>
    simp [lineBytes, delta_toHex_eq, points, List.flatMap_def, pushWord_eq]

/-- `DeltaApplier::buildWayGeom`, with its loop. -/
theorem delta_buildWayGeom_eq (env : Env) (osmmap : OSMMMap) (w : WayEntry) :
    DeltaEncoders.buildWayGeom env.g_srid (w.node_refs.filterMap osmmap.select) =
      DeltaApplier.buildWayGeom env osmmap w := by
  unfold DeltaEncoders.buildWayGeom
  simp only [delta_buildLineWKB_eq]
  rfl

/-! ## Merged geometries -/

theorem foldl_parts (parts : List Bytes) (buf : Bytes) :
    parts.foldl (fun buf p => buf ++ p) buf = buf ++ parts.flatten := by
  induction parts generalizing buf with
  | nil => exact (List.append_nil buf).symm
  | cons p parts ih => rw [List.foldl_cons, ih, List.append_assoc, List.flatten_cons]

theorem main_isLinear_eq (b : Bytes) : MainEncoders.isLinear b = isLinear b := by
  by_cases h : b.length < 5
  · rw [MainEncoders.isLinear, isLinear, if_pos h, if_pos h]
  · rw [MainEncoders.isLinear, if_neg h]
    exact typeWord_isLinear h

/-- What a loop collects that appends to its result or skips. -/
theorem foldl_collect {α β : Type} (f : α → Option β) (step : List β → α → List β)
    (hstep : ∀ parts a, step parts a = parts ++ (f a).toList) (l : List α) (parts : List β) :
    l.foldl step parts = parts ++ l.filterMap f := by
  induction l generalizing parts with
  | nil => exact (List.append_nil parts).symm
  | cons a l ih =>
    rw [List.foldl_cons, ih, hstep, List.append_assoc]
    cases hf : f a <;> simp [hf]

theorem main_mergeWayGeoms_eq (g_srid : ℕ) (wkb_hexes : List Str) :
    MainEncoders.mergeWayGeoms g_srid wkb_hexes = mergeWayGeoms g_srid wkb_hexes := by
  have hmulti : pushWord 0x20000005 = wu32 0x20000005 := pushWord_eq 0x20000005
  have hparts : MainEncoders.partsOf wkb_hexes =
      ((wkb_hexes.filter fun h => !h.isEmpty).map fromHex).filter isLinear := by
    rw [MainEncoders.partsOf, foldl_collect (fun h =>
      if h.isEmpty then none else if isLinear (fromHex h) then some (fromHex h) else none)]
    · rw [List.nil_append]
      induction wkb_hexes with
      | nil => rfl
      | cons h hexes ih =>
        rw [List.filterMap_cons, ih]
        cases hempty : h.isEmpty <;> cases hlin : isLinear (fromHex h) <;> simp [hempty, hlin]
    · intro parts h
      dsimp only
      rw [main_fromHex_eq, main_isLinear_eq]
      cases h.isEmpty <;> cases isLinear (fromHex h) <;> simp
  unfold MainEncoders.mergeWayGeoms mergeWayGeoms
  rw [hparts, hmulti]
  simp [multiLineBytes, main_toHex_eq, foldl_parts, pushWord_eq]

theorem delta_mergeLinestrings_eq (g_srid : ℕ) (hexes : List Str) :
    DeltaEncoders.mergeLinestrings g_srid hexes = mergeLinestrings g_srid hexes := by
  have hmulti : pushWord 0x20000005 = wu32 0x20000005 := pushWord_eq 0x20000005
  have hparts : DeltaEncoders.partsOf hexes = hexes.filterMap linearPart := by
    rw [DeltaEncoders.partsOf, foldl_collect linearPart, List.nil_append]
    intro parts h
    dsimp only
    by_cases hlen : h.length < 10
    · simp [linearPart, hlen, Nat.not_le.mpr hlen]
    · have hshort : ¬ (fromHex h).length < 5 := by
        rw [← map_byte, List.length_map, List.length_range]
        omega
      have hlin := typeWord_isLinear hshort
      rw [getD_fromHex hlen (by omega), getD_fromHex hlen (by omega), getD_fromHex hlen (by omega),
        getD_fromHex hlen (by omega)] at hlin
      rw [if_neg hlen, map_byte, ← Bool.not_or, hlin, linearPart]
      cases isLinear (fromHex h) <;> simp [Nat.not_lt.mp hlen]
  rw [mergeLinestrings_eq]
  unfold DeltaEncoders.mergeLinestrings
  rw [hparts, hmulti]
  cases hexes with
  | nil => rfl
  | cons h hexes => simp [multiLineBytes, delta_toHex_eq, foldl_parts, pushWord_eq]

end OsmImport
