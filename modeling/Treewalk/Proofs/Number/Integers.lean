/-
Whole numbers print exactly.

Up to `2 ^ 53` the last place of a whole number is at most a unit, so no other whole number rounds to it
(`eq_of_rounds`); only `2 ^ 53` has the next one at the end of its interval. The shortest decimal of such a magnitude is
a multiple of a power of ten that is itself whole, so it is the number exactly (`shortest_eq_of_whole`), and its plain
layout restores the zeros that the walk took off (`Decimal.text_of_whole`).
-/
import Treewalk.Proofs.Number.Layout

namespace Treewalk

namespace Magnitude

variable {x : Magnitude} {n : Nat}

theorem toRat_eq_zero_iff : x.toRat = 0 ↔ x.significand = 0 := by
  rw [toRat, mul_eq_zero_iff_right (two_zpow_pos x.exponent).ne', Nat.cast_eq_zero]

/-- the magnitude lies in its own interval -/
theorem rounds_toRat (x : Magnitude) : x.Rounds x.toRat := by
  have hp := two_zpow_pos x.exponent
  have hqb : (0 : ℚ) < x.quartersBelow := by exact_mod_cast x.quartersBelow_pos
  have hlow : x.lower < x.toRat := by rw [lower, toRat]; nlinarith
  have hup : x.toRat < x.upper := by rw [upper, toRat]; nlinarith
  exact ⟨hlow.le, hup.le, fun _ => ⟨hlow, hup⟩⟩

/-- where a unit holds the last place, no other whole number rounds to a whole number -/
theorem eq_of_rounds (he : x.exponent ≤ 0) (hx : x.toRat = n) {k : Nat} (h : x.Rounds k) : k = n := by
  have hp := two_zpow_pos x.exponent
  have hone : (2 : ℚ) ^ x.exponent ≤ 1 := by simpa using two_zpow_le he
  have hqb : (x.quartersBelow : ℚ) ≤ 2 := by exact_mod_cast x.quartersBelow_le
  rw [toRat] at hx
  have hlow : (n : ℚ) < k + 1 := by
    have := h.lower_le
    rw [lower] at this
    nlinarith
  have hup : (k : ℚ) < n + 1 := by
    have := h.le_upper
    rw [upper] at this
    linarith
  have hlow' : n < k + 1 := by exact_mod_cast hlow
  have hup' : k < n + 1 := by exact_mod_cast hup
  omega

/-- up to `2 ^ 53` the last place of a whole number is at most a unit, unless it is `2 ^ 53` -/
theorem exponent_nonpos_or (hx : x.toRat = n) (hn : n ≤ 2 ^ 53) :
    x.exponent ≤ 0 ∨ n = 2 ^ 53 ∧ x.significand = 2 ^ 52 ∧ x.exponent = 1 := by
  by_contra hcon
  push Not at hcon
  obtain ⟨hpos, hrest⟩ := hcon
  have hs : 2 ^ 52 ≤ x.significand := le_significand (by simp only [minExponent]; omega)
  obtain ⟨k, hk⟩ : ∃ k : Nat, x.exponent = k + 1 := ⟨(x.exponent - 1).toNat, by omega⟩
  have hvalue : x.significand * 2 ^ (k + 1) = n := by
    rw [toRat, hk] at hx
    exact_mod_cast hx
  have hk0 : k = 0 := by
    by_contra hk0
    have : 2 ^ 2 ≤ 2 ^ (k + 1) := Nat.pow_le_pow_right (by decide) (by omega)
    nlinarith
  subst hk0
  exact hrest (by omega) (by omega) (by omega)

/-- **The shortest decimal of a whole number is the number itself.** -/
theorem shortest_eq_of_whole (hx : x.toRat = n) (hn0 : n ≠ 0) (hn : n ≤ 2 ^ 53) :
    0 ≤ x.shortest.exponent ∧ x.shortest.digits * 10 ^ x.shortest.exponent.toNat = n := by
  have hx0 : x.significand ≠ 0 := by
    rw [ne_eq, ← toRat_eq_zero_iff, hx, Nat.cast_eq_zero]
    exact hn0
  have hexp : 0 ≤ x.shortest.exponent := by
    by_contra hneg
    refine not_rounds_of_shortest_lt hx0 hn0 (not_le.1 hneg) ?_
    rw [zpow_zero, mul_one, ← hx]
    exact rounds_toRat x
  refine ⟨hexp, ?_⟩
  rcases exponent_nonpos_or hx hn with he | ⟨rfl, hs, he⟩
  · have hrounds := (shortest_spec hx0).2
    rw [← Int.toNat_of_nonneg hexp, zpow_natCast] at hrounds
    exact eq_of_rounds he hx (by exact_mod_cast hrounds)
  · -- the interval ends in `2 ^ 53 + 1`: the nearer one of the two is taken
    obtain rfl : x = ⟨2 ^ 52, 1, by decide⟩ := by
      cases x
      simp_all
    decide +kernel

/-- every whole number up to `2 ^ 53` is a magnitude -/
theorem exists_toRat_eq (hn : n ≤ 2 ^ 53) : ∃ x : Magnitude, x.toRat = n := by
  rcases hn.eq_or_lt with rfl | hlt
  · exact ⟨⟨2 ^ 52, 1, by decide⟩, by norm_num [toRat]⟩
  rcases eq_or_ne n 0 with rfl | h0
  · exact ⟨.zero, by simp [toRat, zero]⟩
  have hlog : n.log2 < 53 := (Nat.log2_lt h0).2 hlt
  obtain ⟨k, hk⟩ : ∃ k, n.log2 + k = 52 := ⟨52 - n.log2, by omega⟩
  have hlow : 2 ^ 52 ≤ n * 2 ^ k := by
    rw [← hk, pow_add]
    exact Nat.mul_le_mul_right _ (Nat.log2_self_le h0)
  have hup : n * 2 ^ k < 2 ^ 53 := by
    rw [show 53 = n.log2 + 1 + k by omega, pow_add]
    exact Nat.mul_lt_mul_of_pos_right Nat.lt_log2_self (by positivity)
  have hcanonical : Canonical (n * 2 ^ k) (-k) :=
    ⟨hup, by simp only [minExponent]; omega, by simp only [maxExponent]; omega, fun h => absurd hlow (not_le.2 h)⟩
  refine ⟨⟨n * 2 ^ k, -k, hcanonical⟩, ?_⟩
  rw [toRat, zpow_neg, zpow_natCast]
  push_cast
  field_simp

end Magnitude

namespace Decimal

/-- a whole decimal below `10 ^ 21` has the text of its value -/
theorem text_of_whole {d : Decimal} (hd : d.digits ≠ 0) (he : 0 ≤ d.exponent)
    (hlt : d.digits * 10 ^ d.exponent.toNat < 10 ^ 21) : d.text = Bytes.ofNat (d.digits * 10 ^ d.exponent.toNat) := by
  have hzeros := Bytes.ofNat_mul_ten_pow hd d.exponent.toNat
  have hlength : (Bytes.ofNat (d.digits * 10 ^ d.exponent.toNat)).length ≤ 21 := by
    rw [Bytes.ofNat, List.length_map]
    exact (Nat.length_toDigits_le_iff (by decide) (by decide)).2 hlt
  have hpos : 0 < (Bytes.ofNat d.digits).length := List.length_pos_of_ne_nil (Bytes.ofNat_ne_nil _)
  rw [hzeros, List.length_append, List.length_replicate] at hlength
  have hplain : plainFrom ≤ d.exponent + (Bytes.ofNat d.digits).length - 1 ∧
      d.exponent + (Bytes.ofNat d.digits).length - 1 < plainTo := by
    simp only [plainFrom, plainTo]
    omega
  rw [hzeros, text, layout, if_pos hplain, plain, if_pos (by omega)]
  congr 2
  omega

end Decimal

namespace Number

/-- the exact value of a finite number -/
def value? : Number → Option ℚ
  | .finite s m => some (if s then -m.toRat else m.toRat)
  | _ => none

/-- a number whose value is a whole number: its magnitude, and its sign unless it is zero -/
theorem exists_of_value? {x : Number} {n : Int} (h : x.value? = some (n : ℚ)) :
    ∃ s m, x = .finite s m ∧ m.toRat = n.natAbs ∧ (n ≠ 0 → s = decide (n < 0)) := by
  cases x with
  | nan => cases h
  | infinity s => cases h
  | finite s m =>
    have hm : 0 ≤ m.toRat := mul_nonneg (Nat.cast_nonneg _) (two_zpow_pos _).le
    have hvalue : (if s then -m.toRat else m.toRat) = n := Option.some.inj h
    have habs : m.toRat = n.natAbs := by
      rw [Nat.cast_natAbs, Int.cast_abs, ← hvalue]
      cases s
      · simp [abs_of_nonneg hm]
      · simp [abs_of_nonneg hm]
    refine ⟨s, m, rfl, habs, fun hn => ?_⟩
    cases s with
    | false =>
      have : (0 : ℚ) ≤ n := by rw [← hvalue]; exact hm
      have : 0 ≤ n := by exact_mod_cast this
      simp [this]
    | true =>
      have : (n : ℚ) ≤ 0 := by rw [← hvalue]; simpa using hm
      have : n ≤ 0 := by exact_mod_cast this
      simp [lt_of_le_of_ne this hn]

/-- the conversion of a whole number up to `2 ^ 53` is exact -/
theorem value?_ofScaledInt {n : Int} (hn : n.natAbs ≤ 2 ^ 53) : (ofScaledInt n 0).value? = some (n : ℚ) := by
  obtain ⟨y, hy⟩ := Magnitude.exists_toRat_eq hn
  have hrounds := y.rounds_toRat
  obtain ⟨hsome, hnone⟩ := Magnitude.ofRatio?_spec n.natAbs one_pos
  rw [Nat.cast_one, div_one, ← hy] at hsome hnone
  have hconvert : ofScaledInt n 0 = ofRatio (n < 0) n.natAbs 1 := by simp [ofScaledInt, ofDyadic]
  rw [hconvert, ofRatio]
  cases h : Magnitude.ofRatio? n.natAbs 1 with
  | none => exact absurd (hnone h) (not_le.2 hrounds.lt_overflow)
  | some x =>
    obtain rfl : x = y := (hsome x h).nearest.eq hrounds.nearest
    rw [value?, hy, Nat.cast_natAbs]
    by_cases hneg : n < 0
    · simp [hneg, abs_of_neg hneg]
    · simp [hneg, abs_of_nonneg (not_lt.1 hneg)]

/-- the text of a whole magnitude up to `2 ^ 53` -/
theorem text_of_toRat {m : Magnitude} {n : Nat} (hm : m.toRat = n) (hn : n ≤ 2 ^ 53) :
    (finite false m).text = Bytes.ofNat n := by
  have hzero : m.significand = 0 ↔ n = 0 := by
    rw [← Magnitude.toRat_eq_zero_iff, hm, Nat.cast_eq_zero]
  by_cases hs : m.significand = 0
  · rw [text, if_pos hs, hzero.1 hs]
    decide
  · obtain ⟨he, hvalue⟩ := Magnitude.shortest_eq_of_whole hm (mt hzero.2 hs) hn
    have htext := Decimal.text_of_whole (Magnitude.shortest_spec hs).1 he (by omega)
    rw [text, if_neg hs, htext, hvalue]
    rfl

theorem text_eq_ofInt {x : Number} {n : Int} (hn : n.natAbs ≤ 2 ^ 53) (h : x.value? = some (n : ℚ)) :
    x.text = Bytes.ofInt n := by
  obtain ⟨s, m, rfl, hm, hs⟩ := exists_of_value? h
  have hzero : m.significand = 0 ↔ n = 0 := by
    rw [← Magnitude.toRat_eq_zero_iff, hm, Nat.cast_eq_zero, Int.natAbs_eq_zero]
  rw [text_finite, text_of_toRat hm hn, Bytes.ofInt_eq, show bytes "-" = [45] by decide]
  by_cases h0 : n = 0
  · simp [h0, hzero.2 h0]
  · simp [hs h0, mt hzero.1 h0]

/-- **Whole numbers print exactly.** A whole number of at most `2 ^ 53` in size is a number exactly, and the text of
every number with this value is its decimal numeral: a minus if it is negative, and then the digits of its size, without
a zero in front of others. -/
theorem integers_print_exactly {n : Int} (hn : |n| ≤ 2 ^ 53) :
    (ofScaledInt n 0).value? = some (n : ℚ) ∧
      ∀ x : Number, x.value? = some (n : ℚ) → x.text = Bytes.ofInt n ∧
        ∃ ds : Bytes, x.text = (if n < 0 then bytes "-" else []) ++ ds ∧ ds ≠ [] ∧
          (∀ b ∈ ds, Numeral.isDigit b) ∧ (ds.head? = some 48 → ds = [48]) ∧ Numeral.digitsValue ds = n.natAbs := by
  have hsize : n.natAbs ≤ 2 ^ 53 := by
    rw [Int.abs_eq_natAbs] at hn
    exact_mod_cast hn
  refine ⟨value?_ofScaledInt hsize, fun x hx => ?_⟩
  have htext := text_eq_ofInt hsize hx
  refine ⟨htext, Bytes.ofNat n.natAbs, by rw [htext, Bytes.ofInt_eq], Bytes.ofNat_ne_nil _,
    Bytes.isDigit_of_mem_ofNat, fun hhead => ?_, Bytes.digitsValue_ofNat _⟩
  have h0 : n.natAbs = 0 := by
    by_contra h0
    exact Bytes.head?_ofNat_ne h0 hhead
  rw [h0]
  decide

/-- `-2 ^ 53` has its neighbours at one unit on one side and at two on the other. -/
theorem integers_print_exactly_last :
    |(-9007199254740992 : Int)| ≤ 2 ^ 53 ∧ (ofScaledInt (-9007199254740992) 0).text = bytes "-9007199254740992" := by
  have hn : |(-9007199254740992 : Int)| ≤ 2 ^ 53 := by norm_num
  obtain ⟨hvalue, htext⟩ := integers_print_exactly hn
  exact ⟨hn, (htext _ hvalue).1.trans (by decide)⟩

end Number

end Treewalk
