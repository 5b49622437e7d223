import Mathlib.Data.List.TakeWhile
import Mathlib.Data.Nat.Digits.Defs
import Mathlib.Tactic.Ring

/-!
# Decimal numbers in ASCII

An integer written in decimal digits, and the scan of `strtoll` with base 10: spaces are skipped, a sign
may follow, and the digits end where something else begins.
-/

namespace Decimal

/-! ## Writing -/

def digitChar (d : ℕ) : UInt8 := UInt8.ofNat (48 + d)

def ofNat (n : ℕ) : List UInt8 :=
  if n = 0 then [48] else (Nat.digits 10 n).reverse.map digitChar

def ofInt (i : ℤ) : List UInt8 := if i < 0 then 45 :: ofNat i.natAbs else ofNat i.natAbs

/-! ## Reading -/

def isDigit (c : UInt8) : Bool := 48 ≤ c && c ≤ 57

/-- `isspace` in the "C" locale. -/
def isSpace (c : UInt8) : Bool := c == 32 || (9 ≤ c && c ≤ 13)

/-- The number that digits write. -/
def value (cs : List UInt8) : ℕ := cs.foldl (fun n c => 10 * n + (c.toNat - 48)) 0

/-- The digits at the front, if there is one. -/
def scanNat (cs : List UInt8) : Option ℕ :=
  if (cs.takeWhile isDigit).isEmpty then none else some (value (cs.takeWhile isDigit))

def scanSigned : List UInt8 → Option ℤ
  | 45 :: cs => (scanNat cs).map fun n : ℕ => -(n : ℤ)
  | 43 :: cs => (scanNat cs).map fun n : ℕ => (n : ℤ)
  | cs => (scanNat cs).map fun n : ℕ => (n : ℤ)

def scan (cs : List UInt8) : Option ℤ := scanSigned (cs.dropWhile isSpace)

/-! ## What is written is read -/

theorem digitChar_facts : ∀ d : Fin 10, isDigit (digitChar d) = true ∧ isSpace (digitChar d) = false ∧
    digitChar d ≠ 45 ∧ digitChar d ≠ 43 ∧ (digitChar d).toNat - 48 = d := by
  decide

theorem forall_mem_ofNat {P : UInt8 → Prop} (h : ∀ d : Fin 10, P (digitChar d)) (n : ℕ) :
    ∀ c ∈ ofNat n, P c := by
  intro c hc
  unfold ofNat at hc
  split at hc
  · rw [List.mem_singleton.mp hc]
    exact h 0
  · obtain ⟨d, hd, rfl⟩ := List.mem_map.mp hc
    exact h ⟨d, Nat.digits_lt_base (by norm_num) (List.mem_reverse.mp hd)⟩

theorem ofNat_ne_nil (n : ℕ) : ofNat n ≠ [] := by
  unfold ofNat
  split
  · simp
  · rename_i hn
    simpa [Nat.digits_eq_nil_iff_eq_zero] using hn

theorem value_ofNat (n : ℕ) : value (ofNat n) = n := by
  unfold ofNat
  split
  · rename_i hn
    rw [hn]
    rfl
  · have hfold : ∀ ds : List ℕ, (∀ d ∈ ds, d < 10) →
        value (ds.reverse.map digitChar) = Nat.ofDigits 10 ds := by
      intro ds
      induction ds with
      | nil => exact fun _ => rfl
      | cons d ds ih =>
        intro hds
        have hd := (digitChar_facts ⟨d, hds d List.mem_cons_self⟩).2.2.2.2
        have hrest := ih fun d' hd' => hds d' (List.mem_cons_of_mem _ hd')
        unfold value at hrest ⊢
        rw [List.reverse_cons, List.map_append, List.foldl_append, hrest, Nat.ofDigits_cons]
        show 10 * _ + ((digitChar d).toNat - 48) = _
        dsimp only at hd
        rw [hd]
        exact Nat.add_comm ..
    rw [hfold _ fun d hd => Nat.digits_lt_base (by norm_num) hd, Nat.ofDigits_digits]

theorem scanNat_ofNat (n : ℕ) : scanNat (ofNat n) = some n := by
  have hall : (ofNat n).takeWhile isDigit = ofNat n :=
    List.takeWhile_eq_self_iff.mpr (forall_mem_ofNat (fun d => (digitChar_facts d).1) n)
  unfold scanNat
  rw [hall, value_ofNat]
  simp [ofNat_ne_nil n]

/-- Digits begin a number without a sign. -/
theorem scanSigned_ofNat (n : ℕ) : scanSigned (ofNat n) = some (n : ℤ) := by
  have hsign : ∀ c ∈ ofNat n, c ≠ 45 ∧ c ≠ 43 := forall_mem_ofNat
    (fun d => ⟨(digitChar_facts d).2.2.1, (digitChar_facts d).2.2.2.1⟩) n
  have hscan := scanNat_ofNat n
  unfold scanSigned
  split
  · rename_i cs heq
    exact absurd rfl (hsign 45 (by rw [heq]; exact List.mem_cons_self)).1
  · rename_i cs heq
    exact absurd rfl (hsign 43 (by rw [heq]; exact List.mem_cons_self)).2
  · rw [hscan]
    rfl

theorem scan_ofInt (i : ℤ) : scan (ofInt i) = some i := by
  unfold scan ofInt
  split
  · have hspace : (45 :: ofNat i.natAbs).dropWhile isSpace = 45 :: ofNat i.natAbs := rfl
    rw [hspace]
    have hneg : scanSigned (45 :: ofNat i.natAbs) = (scanNat (ofNat i.natAbs)).map fun n : ℕ => -(n : ℤ) :=
      rfl
    rw [hneg, scanNat_ofNat, Option.map_some]
    congr 1
    omega
  · have hspace : (ofNat i.natAbs).dropWhile isSpace = ofNat i.natAbs := by
      cases hcs : ofNat i.natAbs with
      | nil => exact absurd hcs (ofNat_ne_nil _)
      | cons c cs =>
        have hc : isSpace c = false := forall_mem_ofNat (P := fun c => isSpace c = false)
          (fun d => (digitChar_facts d).2.1) i.natAbs c (by rw [hcs]; exact List.mem_cons_self)
        rw [List.dropWhile_cons_of_neg (by rw [hc]; exact Bool.false_ne_true)]
    rw [hspace, scanSigned_ofNat]
    congr 1
    omega

/-! ## Leading zeros -/

/-- `std::setfill('0') << std::setw(n) << i`: zeros stand before the sign. -/
def padded (n : ℕ) (i : ℤ) : List UInt8 := List.replicate (n - (ofInt i).length) 48 ++ ofInt i

theorem mem_ofInt {i : ℤ} {c : UInt8} (h : c ∈ ofInt i) : isDigit c = true ∨ c = 45 ∧ i < 0 := by
  have hdigits := forall_mem_ofNat (P := fun c => isDigit c = true) (fun d => (digitChar_facts d).1) i.natAbs
  unfold ofInt at h
  split at h
  · rename_i hi
    rcases List.mem_cons.mp h with rfl | h
    · exact .inr ⟨rfl, hi⟩
    · exact .inl (hdigits c h)
  · exact .inl (hdigits c h)

theorem mem_padded {n : ℕ} {i : ℤ} {c : UInt8} (h : c ∈ padded n i) : isDigit c = true ∨ c = 45 := by
  rcases List.mem_append.mp h with h | h
  · rw [List.eq_of_mem_replicate h]
    exact .inl rfl
  · exact (mem_ofInt h).imp_right And.left

theorem filter_ofInt (i : ℤ) : (ofInt i).filter isDigit = ofNat i.natAbs := by
  have hdigits : (ofNat i.natAbs).filter isDigit = ofNat i.natAbs :=
    List.filter_eq_self.mpr (forall_mem_ofNat (fun d => (digitChar_facts d).1) i.natAbs)
  unfold ofInt
  split
  · rw [List.filter_cons_of_neg (by decide), hdigits]
  · exact hdigits

/-- The digits behind leading zeros write the same number. -/
theorem value_replicate_append (n : ℕ) (cs : List UInt8) : value (List.replicate n 48 ++ cs) = value cs := by
  induction n with
  | zero => rfl
  | succ n ih => exact ih

theorem value_padded (n : ℕ) (i : ℤ) : value ((padded n i).filter isDigit) = i.natAbs := by
  have hzeros : (List.replicate (n - (ofInt i).length) 48).filter isDigit =
      List.replicate (n - (ofInt i).length) 48 :=
    List.filter_eq_self.mpr fun c hc => by rw [List.eq_of_mem_replicate hc]; rfl
  rw [padded, List.filter_append, hzeros, filter_ofInt, value_replicate_append, value_ofNat]

theorem minus_mem_padded (n : ℕ) (i : ℤ) : 45 ∈ padded n i ↔ i < 0 := by
  constructor
  · intro h
    rcases List.mem_append.mp h with h | h
    · exact absurd (List.eq_of_mem_replicate h) (by decide)
    · exact (mem_ofInt h).elim (fun h => absurd h (by decide)) And.right
  · intro h
    refine List.mem_append_right _ ?_
    rw [ofInt, if_pos h]
    exact List.mem_cons_self

/-- Different numbers are written differently. -/
theorem padded_injective (n : ℕ) : Function.Injective (padded n) := by
  intro i j h
  have habs : i.natAbs = j.natAbs := by rw [← value_padded n i, h, value_padded]
  have hsign : i < 0 ↔ j < 0 := by rw [← minus_mem_padded n i, h, minus_mem_padded]
  omega

end Decimal
