/-
Runs of bytes at the start of a text, and decimal numerals of naturals and integers.
-/
import Mathlib.Tactic
import Treewalk.Number.Numeral

namespace Treewalk

namespace Bytes

variable {p : UInt8 → Bool} {w rest : Bytes}

/-- the text does not start with a byte of the class -/
def Stops (p : UInt8 → Bool) (t : Bytes) : Prop := ∀ b ∈ t.head?, p b = false

theorem bne_of_notMem {a : UInt8} (h : a ∉ w) : ∀ b ∈ w, (b != a) = true := by
  intro b hb
  rw [bne_iff_ne]
  rintro rfl
  exact h hb

theorem stops_cons {b : UInt8} (h : p b = false) : Stops p (b :: rest) := by
  intro c hc
  rwa [← Option.some.inj hc]

theorem takeWhile_append (hw : ∀ b ∈ w, p b) (hr : Stops p rest) : (w ++ rest).takeWhile p = w := by
  rw [List.takeWhile_append_of_pos hw]
  cases rest with
  | nil => simp
  | cons b r => simp [hr b rfl]

theorem dropWhile_append (hw : ∀ b ∈ w, p b) (hr : Stops p rest) : (w ++ rest).dropWhile p = rest := by
  rw [List.dropWhile_append_of_pos hw]
  cases rest with
  | nil => rfl
  | cons b r => simp [hr b rfl]

/-- a run of bytes of the class ends where the first other byte stands -/
theorem append_inj_of_stops {v r : Bytes} (hw : ∀ b ∈ w, p b) (hv : ∀ b ∈ v, p b) (hrest : Stops p rest)
    (hr : Stops p r) (h : w ++ rest = v ++ r) : w = v ∧ rest = r := by
  have htake : w = v := by
    rw [← takeWhile_append hw hrest, h, takeWhile_append hv hr]
  rw [htake] at h
  exact ⟨htake, List.append_cancel_left h⟩

end Bytes

/-! ## Digits -/

namespace Numeral

/-- the value of digits, one digit after the others -/
theorem foldl_digits_append (n : Nat) (ds : Bytes) :
    ds.foldl (fun n d => 10 * n + (d.toNat - 48)) n = n * 10 ^ ds.length + digitsValue ds := by
  unfold digitsValue
  induction ds generalizing n with
  | nil => simp
  | cons d ds ih =>
    rw [List.foldl_cons, List.foldl_cons, ih, ih (10 * 0 + (d.toNat - 48)), List.length_cons]
    ring

theorem digitsValue_append (ds es : Bytes) :
    digitsValue (ds ++ es) = digitsValue ds * 10 ^ es.length + digitsValue es := by
  rw [digitsValue, List.foldl_append, foldl_digits_append]
  rfl

theorem digitsValue_replicate_zero (n : Nat) : digitsValue (List.replicate n 48) = 0 := by
  induction n with
  | zero => rfl
  | succ n ih => rw [List.replicate_succ', digitsValue_append, ih]; rfl

theorem digitsValue_zeros_append (n : Nat) (ds : Bytes) : digitsValue (List.replicate n 48 ++ ds) = digitsValue ds := by
  rw [digitsValue_append, digitsValue_replicate_zero, zero_mul, zero_add]

theorem digitsValue_concat (ds : Bytes) (d : UInt8) :
    digitsValue (ds ++ [d]) = 10 * digitsValue ds + (d.toNat - 48) := by
  rw [digitsValue, List.foldl_concat]
  rfl

theorem toNat_of_isDigit {b : UInt8} (h : isDigit b) : 48 ≤ b.toNat ∧ b.toNat ≤ 57 := by
  simpa [isDigit, UInt8.le_iff_toNat_le] using h

/-- digits that do not end in a zero write no multiple of ten -/
theorem digitsValue_mod_ten_ne {ds : Bytes} (hne : ds ≠ []) (hds : ∀ b ∈ ds, isDigit b)
    (hlast : ds.getLast? ≠ some 48) : digitsValue ds % 10 ≠ 0 := by
  obtain ⟨es, d, rfl⟩ := (List.eq_nil_or_concat' ds).resolve_left hne
  have hd := toNat_of_isDigit (hds d (by simp))
  have hzero : d.toNat ≠ 48 := by
    intro h
    obtain rfl : d = 48 := UInt8.toNat_inj.1 h
    exact hlast List.getLast?_concat
  rw [digitsValue_concat]
  omega

end Numeral

namespace Bytes

open Numeral

theorem ofNat_ne_nil (n : Nat) : ofNat n ≠ [] := by simp [ofNat, Nat.toDigits_ne_nil]

theorem ofNat_of_lt {n : Nat} (h : n < 10) : ofNat n = [(n + 48).toUInt8] := by
  rw [ofNat, Nat.toDigits_of_lt_base h]
  interval_cases n <;> rfl

theorem ofNat_of_le {n : Nat} (h : 10 ≤ n) : ofNat n = ofNat (n / 10) ++ ofNat (n % 10) := by
  rw [ofNat, Nat.toDigits_of_base_le (by decide) h, List.map_append, ofNat, ofNat,
    Nat.toDigits_of_lt_base (Nat.mod_lt n (by decide))]

theorem isDigit_of_mem_ofNat {n : Nat} : ∀ b ∈ ofNat n, isDigit b := by
  induction n using Nat.strong_induction_on with
  | _ n ih =>
    rcases Nat.lt_or_ge n 10 with h | h
    · rw [ofNat_of_lt h]
      refine List.forall_mem_singleton.2 ?_
      interval_cases n <;> rfl
    · rw [ofNat_of_le h]
      intro b hb
      rcases List.mem_append.1 hb with hb | hb
      · exact ih _ (by omega) b hb
      · exact ih _ (by omega) b hb

theorem digitsValue_ofNat (n : Nat) : digitsValue (ofNat n) = n := by
  induction n using Nat.strong_induction_on with
  | _ n ih =>
    rcases Nat.lt_or_ge n 10 with h | h
    · rw [ofNat_of_lt h]
      interval_cases n <;> rfl
    · have h1 : (ofNat (n % 10)).length = 1 := by rw [ofNat_of_lt (Nat.mod_lt n (by decide))]; rfl
      rw [ofNat_of_le h, digitsValue_append, ih _ (by omega), ih _ (by omega), h1]
      omega

theorem ofNat_injective : Function.Injective ofNat := by
  intro m n h
  rw [← digitsValue_ofNat m, h, digitsValue_ofNat]

/-- a numeral starts with a zero only if it is zero -/
theorem head?_ofNat_ne {n : Nat} (hn : n ≠ 0) : (ofNat n).head? ≠ some 48 := by
  induction n using Nat.strong_induction_on with
  | _ n ih =>
    rcases Nat.lt_or_ge n 10 with h | h
    · rw [ofNat_of_lt h]
      interval_cases n
      · exact absurd rfl hn
      all_goals decide
    · rw [ofNat_of_le h, List.head?_append_of_ne_nil _ (ofNat_ne_nil _)]
      exact ih (n / 10) (by omega) (by omega)

theorem getLast?_ofNat (n : Nat) : (ofNat n).getLast? = some (n % 10 + 48).toUInt8 := by
  rcases Nat.lt_or_ge n 10 with h | h
  · rw [ofNat_of_lt h, Nat.mod_eq_of_lt h]
    rfl
  · rw [ofNat_of_le h, ofNat_of_lt (Nat.mod_lt n (by decide)), List.getLast?_concat]

/-- a power of ten adds its zeros -/
theorem ofNat_mul_ten_pow {n : Nat} (hn : n ≠ 0) (k : Nat) : ofNat (n * 10 ^ k) = ofNat n ++ List.replicate k 48 := by
  induction k with
  | zero => simp
  | succ k ih =>
    have hpos : 0 < n * 10 ^ k := by positivity
    rw [pow_succ, ← mul_assoc, ofNat_of_le (by omega), Nat.mul_div_cancel _ (by decide), Nat.mul_mod_left, ih,
      List.replicate_succ', List.append_assoc]
    rfl

/-- digits that do not start with a zero are the numeral of their value -/
theorem ofNat_digitsValue {ds : Bytes} (hne : ds ≠ []) (hds : ∀ b ∈ ds, isDigit b) (hhead : ds.head? ≠ some 48) :
    ofNat (digitsValue ds) = ds := by
  induction ds using List.reverseRecOn with
  | nil => exact absurd rfl hne
  | append_singleton es d ih =>
    have hvalue := digitsValue_concat es d
    have hd := toNat_of_isDigit (hds d (by simp))
    have hlast : ofNat (d.toNat - 48) = [d] := by
      rw [ofNat_of_lt (by omega), Nat.sub_add_cancel hd.1]
      simp
    rcases eq_or_ne es [] with rfl | hes
    · rw [hvalue, show digitsValue [] = 0 from rfl, mul_zero, zero_add, hlast, List.nil_append]
    · rw [List.head?_append_of_ne_nil _ hes] at hhead
      have hnumeral := ih hes (fun b hb => hds b (by simp [hb])) hhead
      have hpos : digitsValue es ≠ 0 := by
        intro h0
        rw [h0] at hnumeral
        exact hhead (hnumeral ▸ rfl)
      rw [hvalue, ofNat_of_le (by omega), show (10 * digitsValue es + (d.toNat - 48)) / 10 = digitsValue es by omega,
        show (10 * digitsValue es + (d.toNat - 48)) % 10 = d.toNat - 48 by omega, hnumeral, hlast]

/-! ## Integers -/

theorem ofInt_eq (n : Int) : ofInt n = (if n < 0 then bytes "-" else []) ++ ofNat n.natAbs := by
  cases n with
  | ofNat n => rfl
  | negSucc n => rw [if_pos (Int.negSucc_lt_zero n)]; rfl

/-- the bytes of integers: digits and the minus sign -/
def isSigned (b : UInt8) : Bool := isDigit b || b = 45

theorem isSigned_of_mem_ofInt {n : Int} : ∀ b ∈ ofInt n, isSigned b := by
  intro b hb
  cases n with
  | ofNat n => simp [isSigned, isDigit_of_mem_ofNat b hb]
  | negSucc n =>
    rcases List.mem_append.1 hb with hb | hb
    · obtain rfl : b = 45 := List.mem_singleton.1 hb
      rfl
    · simp [isSigned, isDigit_of_mem_ofNat b hb]

theorem ofInt_injective : Function.Injective ofInt := by
  -- digits do not start with a minus sign
  have hsign : ∀ m n : Nat, ofNat m ≠ bytes "-" ++ ofNat n := by
    intro m n h
    have hminus : (45 : UInt8) ∈ ofNat m := h ▸ List.mem_cons_self
    exact absurd (isDigit_of_mem_ofNat _ hminus) (by decide)
  intro m n h
  cases m with
  | ofNat m =>
    cases n with
    | ofNat n => rw [ofNat_injective h]
    | negSucc n => exact absurd h (hsign _ _)
  | negSucc m =>
    cases n with
    | ofNat n => exact absurd h.symm (hsign _ _)
    | negSucc n =>
      have hdigits : m + 1 = n + 1 := ofNat_injective (List.append_cancel_left h)
      rw [Nat.add_right_cancel hdigits]

end Bytes

end Treewalk
