/-
The shortest decimal of a magnitude.

`roundsBack` decides with whole numbers whether a decimal lies in the magnitude's rounding interval (`roundsBack_iff`).
So the walk has a hit at a power of ten if and only if a multiple of it rounds to the magnitude, and it has one at the
latest at the power of ten of which the magnitude is a multiple. It stops at the first one (`shortest_hit`). Hence the
result rounds to the magnitude (`shortest_spec`), while no multiple of a greater power of ten does
(`not_rounds_of_shortest_lt`), and its digits do not end in a zero.
-/
import Treewalk.Proofs.Number.Spelling

namespace Treewalk

namespace Magnitude

open Numeral

variable {x : Magnitude} {q : Int} {n : Nat}

/-! ## Hits of the walk -/

theorem quartersBelow_pos (x : Magnitude) : 0 < x.quartersBelow := by
  unfold quartersBelow
  split_ifs <;> decide

theorem quartersBelow_le (x : Magnitude) : x.quartersBelow ≤ 2 := by
  unfold quartersBelow
  split_ifs <;> decide

/-- the interval test in quarters of the last place is the interval test -/
theorem roundsBack_iff (hx : x.significand ≠ 0) {d : Nat} (hd : 0 < d) :
    x.roundsBack n d = true ↔ x.Rounds (n / d * (2 ^ x.exponent / 4)) := by
  have hp : (0 : ℚ) < 2 ^ x.exponent / 4 := by positivity
  have hd' : (0 : ℚ) < d := by exact_mod_cast hd
  have hsub : (4 * x.significand - x.quartersBelow : ℚ) = (4 * x.significand - x.quartersBelow : Nat) := by
    have := x.quartersBelow_le
    rw [Nat.cast_sub (by omega)]
    push_cast
    rfl
  have hlow : x.lower ≤ n / d * (2 ^ x.exponent / 4) ↔ (4 * x.significand - x.quartersBelow) * d ≤ n := by
    rw [lower, hsub, mul_le_mul_iff_of_pos_right hp, le_div_iff₀ hd']
    exact_mod_cast Iff.rfl
  have hlow' : x.lower < n / d * (2 ^ x.exponent / 4) ↔ (4 * x.significand - x.quartersBelow) * d < n := by
    rw [lower, hsub, mul_lt_mul_iff_of_pos_right hp, lt_div_iff₀ hd']
    exact_mod_cast Iff.rfl
  have hup : n / d * (2 ^ x.exponent / 4) ≤ x.upper ↔ n ≤ (4 * x.significand + 2) * d := by
    rw [upper, mul_le_mul_iff_of_pos_right hp, div_le_iff₀ hd']
    exact_mod_cast Iff.rfl
  have hup' : n / d * (2 ^ x.exponent / 4) < x.upper ↔ n < (4 * x.significand + 2) * d := by
    rw [upper, mul_lt_mul_iff_of_pos_right hp, div_lt_iff₀ hd']
    exact_mod_cast Iff.rfl
  unfold roundsBack
  simp only
  split_ifs with heven
  · simp only [Bool.and_eq_true, decide_eq_true_eq, ← hlow, ← hup]
    exact ⟨fun h => ⟨h.1, h.2, fun hodd => by omega⟩, fun h => ⟨h.lower_le, h.le_upper⟩⟩
  · simp only [Bool.and_eq_true, decide_eq_true_eq, ← hlow', ← hup']
    exact ⟨fun h => ⟨h.1.le, h.2.le, fun _ => h⟩, fun h => h.odd (by omega)⟩

/-- a unit of the walk in quarters of the last place -/
theorem unit_eq (x : Magnitude) (q : Int) (n : Nat) :
    ((n * (10 ^ q.toNat * 2 ^ (2 - x.exponent).toNat) : Nat) : ℚ) /
      ((10 ^ (-q).toNat * 2 ^ (x.exponent - 2).toNat : Nat) : ℚ) * (2 ^ x.exponent / 4) = n * 10 ^ q := by
  have h2 := two_zpow_eq_div (2 - x.exponent)
  rw [show -(2 - x.exponent) = x.exponent - 2 by ring] at h2
  have hone : (2 : ℚ) ^ (2 - x.exponent) * (2 ^ x.exponent / 4) = 1 := by
    rw [mul_div_assoc', ← zpow_add₀ (by norm_num), sub_add_cancel]
    norm_num
  rw [h2] at hone
  rw [ten_zpow_eq_div]
  calc ((n * (10 ^ q.toNat * 2 ^ (2 - x.exponent).toNat) : Nat) : ℚ) /
        ((10 ^ (-q).toNat * 2 ^ (x.exponent - 2).toNat : Nat) : ℚ) * (2 ^ x.exponent / 4)
      = n * ((10 ^ q.toNat : Nat) / (10 ^ (-q).toNat : Nat)) *
        ((2 ^ (2 - x.exponent).toNat : Nat) / (2 ^ (x.exponent - 2).toNat : Nat) * (2 ^ x.exponent / 4)) := by
        push_cast
        ring
    _ = n * ((10 ^ q.toNat : Nat) / (10 ^ (-q).toNat : Nat)) := by rw [hone, mul_one]

theorem roundsBack_multiple_iff (hx : x.significand ≠ 0) (q : Int) (n : Nat) :
    x.roundsBack (n * (10 ^ q.toNat * 2 ^ (2 - x.exponent).toNat))
      (10 ^ (-q).toNat * 2 ^ (x.exponent - 2).toNat) = true ↔ x.Rounds (n * 10 ^ q) := by
  rw [roundsBack_iff hx (by positivity), unit_eq]

/-- a hit of the walk is not zero and rounds to the magnitude -/
theorem multipleOfTen?_spec (hx : x.significand ≠ 0) (h : x.multipleOfTen? q = some n) :
    n ≠ 0 ∧ x.Rounds (n * 10 ^ q) := by
  simp only [multipleOfTen?] at h
  generalize 4 * x.significand * (10 ^ (-q).toNat * 2 ^ (x.exponent - 2).toNat) /
    (10 ^ q.toNat * 2 ^ (2 - x.exponent).toNat) = below at h
  split_ifs at h with hboth hnear hbelow habove
  · cases h
    simp only [Bool.and_eq_true, bne_iff_ne] at hboth
    exact ⟨hboth.1.1, (roundsBack_multiple_iff hx q _).1 hboth.1.2⟩
  · cases h
    simp only [Bool.and_eq_true] at hboth
    exact ⟨Nat.succ_ne_zero _, (roundsBack_multiple_iff hx q _).1 hboth.2⟩
  · cases h
    simp only [Bool.and_eq_true, bne_iff_ne] at hbelow
    exact ⟨hbelow.1, (roundsBack_multiple_iff hx q _).1 hbelow.2⟩
  · cases h
    exact ⟨Nat.succ_ne_zero _, (roundsBack_multiple_iff hx q _).1 habove⟩

/-- the magnitude lies inside its rounding interval -/
theorem quarters_lt (hx : x.significand ≠ 0) {d : Nat} (hd : 0 < d) :
    (4 * x.significand - x.quartersBelow) * d < 4 * x.significand * d ∧
      4 * x.significand * d < (4 * x.significand + 2) * d := by
  have := x.quartersBelow_pos
  exact ⟨Nat.mul_lt_mul_of_pos_right (by omega) hd, Nat.mul_lt_mul_of_pos_right (by omega) hd⟩

/-- with a decimal, the interval holds what lies between it and the magnitude -/
theorem roundsBack_of_between (hx : x.significand ≠ 0) {d k : Nat} (hd : 0 < d) (h : x.roundsBack n d = true)
    (hk : n ≤ k ∧ k ≤ 4 * x.significand * d ∨ 4 * x.significand * d ≤ k ∧ k ≤ n) : x.roundsBack k d = true := by
  obtain ⟨hlow, hup⟩ := quarters_lt hx hd
  unfold roundsBack at h ⊢
  generalize (4 * x.significand - x.quartersBelow) * d = l at *
  generalize (4 * x.significand + 2) * d = u at *
  generalize 4 * x.significand * d = v at *
  simp only at h ⊢
  split_ifs at h ⊢
  · simp only [Bool.and_eq_true, decide_eq_true_eq] at h ⊢
    omega
  · simp only [Bool.and_eq_true, decide_eq_true_eq] at h ⊢
    omega

/-- if any multiple of the power of ten reads back, then one of the two next to the magnitude does -/
theorem multipleOfTen?_isSome (hx : x.significand ≠ 0) (hn : n ≠ 0)
    (h : x.roundsBack (n * (10 ^ q.toNat * 2 ^ (2 - x.exponent).toNat))
      (10 ^ (-q).toNat * 2 ^ (x.exponent - 2).toNat) = true) : (x.multipleOfTen? q).isSome := by
  have hden : 0 < 10 ^ (-q).toNat * 2 ^ (x.exponent - 2).toNat := by positivity
  have hunit : 0 < 10 ^ q.toNat * 2 ^ (2 - x.exponent).toNat := by positivity
  simp only [multipleOfTen?]
  generalize 10 ^ q.toNat * 2 ^ (2 - x.exponent).toNat = unit at *
  generalize 10 ^ (-q).toNat * 2 ^ (x.exponent - 2).toNat = den at *
  have hbelow := Nat.div_mul_le_self (4 * x.significand * den) unit
  have habove := (Nat.lt_mul_div_succ (4 * x.significand * den) hunit).le
  rw [mul_comm unit] at habove
  generalize 4 * x.significand * den / unit = below at *
  rcases Nat.lt_or_ge below n with hlt | hge
  · have hle : (below + 1) * unit ≤ n * unit := Nat.mul_le_mul_right unit hlt
    have hok := roundsBack_of_between hx hden h (.inr ⟨habove, hle⟩)
    split_ifs <;> simp_all
  · have hle : n * unit ≤ below * unit := Nat.mul_le_mul_right unit hge
    have hok := roundsBack_of_between hx hden h (.inl ⟨hle, hbelow⟩)
    have hne : below ≠ 0 := by omega
    split_ifs <;> simp_all

theorem multipleOfTen?_isSome_of_rounds (hx : x.significand ≠ 0) (hn : n ≠ 0) (h : x.Rounds (n * 10 ^ q)) :
    (x.multipleOfTen? q).isSome :=
  multipleOfTen?_isSome hx hn ((roundsBack_multiple_iff hx q n).2 h)

/-- the magnitude is a multiple of every power of ten from the last one of the walk downward -/
theorem multipleOfTen?_isSome_of_le (hx : x.significand ≠ 0) (hq : q ≤ min x.exponent 0) :
    (x.multipleOfTen? q).isSome := by
  have hq0 : q.toNat = 0 := by omega
  have hden : 0 < 10 ^ (-q).toNat * 2 ^ (x.exponent - 2).toNat := by positivity
  have hdvd : 10 ^ q.toNat * 2 ^ (2 - x.exponent).toNat ∣
      4 * x.significand * (10 ^ (-q).toNat * 2 ^ (x.exponent - 2).toNat) := by
    have h1 : 2 ^ (2 - x.exponent).toNat ∣ 2 ^ (2 + (-q).toNat) := pow_dvd_pow 2 (by omega)
    have h2 : 2 ^ (2 + (-q).toNat) ∣ 4 * 10 ^ (-q).toNat := by
      rw [pow_add, show (10 : Nat) = 2 * 5 by norm_num, mul_pow, ← mul_assoc]
      exact dvd_mul_right _ _
    rw [hq0, pow_zero, one_mul]
    refine (h1.trans h2).trans ⟨x.significand * 2 ^ (x.exponent - 2).toNat, by ring⟩
  obtain ⟨k, hk⟩ := hdvd
  refine multipleOfTen?_isSome (n := k) hx ?_ ?_
  · rintro rfl
    have : 0 < 4 * x.significand * (10 ^ (-q).toNat * 2 ^ (x.exponent - 2).toNat) := by positivity
    omega
  · obtain ⟨hlow, hup⟩ := quarters_lt hx hden
    rw [mul_comm, ← hk, roundsBack]
    split_ifs
    · simp [hlow.le, hup.le]
    · simp [hlow, hup]

/-! ## The first hit -/

/-- the walk ends with a hit, and has none before -/
theorem shortestFrom_hit (hx : x.significand ≠ 0) (steps : Nat) (q : Int) (hq : q - steps ≤ min x.exponent 0) :
    x.multipleOfTen? (x.shortestFrom q steps).exponent = some (x.shortestFrom q steps).digits ∧
      ∀ r, (x.shortestFrom q steps).exponent < r → r ≤ q → x.multipleOfTen? r = none := by
  induction steps generalizing q with
  | zero =>
    obtain ⟨n, hn⟩ := Option.isSome_iff_exists.1 (multipleOfTen?_isSome_of_le hx (q := q) (by simpa using hq))
    simp only [shortestFrom, hn, Option.getD_some, true_and]
    exact fun r h h' => absurd h (not_lt.2 h')
  | succ steps ih =>
    rw [shortestFrom]
    cases hn : x.multipleOfTen? q with
    | some n => exact ⟨hn, fun r h h' => absurd h (not_lt.2 h')⟩
    | none =>
      obtain ⟨hhit, hfirst⟩ := ih (q - 1) (by push_cast at hq; omega)
      refine ⟨hhit, fun r h h' => ?_⟩
      rcases h'.eq_or_lt with rfl | h'
      · exact hn
      · exact hfirst r h (by omega)

theorem shortest_hit (hx : x.significand ≠ 0) :
    x.multipleOfTen? x.shortest.exponent = some x.shortest.digits ∧
      ∀ r, x.shortest.exponent < r → r ≤ x.decimalCeiling → x.multipleOfTen? r = none :=
  shortestFrom_hit hx _ _ (by omega)

/-- **The walk's result rounds to the magnitude.** -/
theorem shortest_spec (hx : x.significand ≠ 0) :
    x.shortest.digits ≠ 0 ∧ x.Rounds (x.shortest.digits * 10 ^ x.shortest.exponent) :=
  multipleOfTen?_spec hx (shortest_hit hx).1

/-- a hundred bits are more than 30 decimal places and less than 31 -/
theorem two_zpow_le_ten_zpow {t c : Int} (h : 0 ≤ t ∧ 31 * t ≤ 100 * c ∨ t ≤ 0 ∧ 30 * t ≤ 100 * c) :
    (2 : ℚ) ^ t ≤ 10 ^ c := by
  refine le_of_pow_le_pow_left₀ (n := 100) (by norm_num) (by positivity) ?_
  have hpow (b : ℚ) (e : Int) : (b ^ e) ^ 100 = b ^ (100 * e) := by
    rw [← zpow_natCast, ← zpow_mul, mul_comm]
    norm_cast
  rw [hpow, hpow]
  rcases h with ⟨h0, h⟩ | ⟨h0, h⟩
  · calc (2 : ℚ) ^ (100 * t) = (2 ^ (100 : Int)) ^ t := zpow_mul _ _ _
      _ ≤ (10 ^ (31 : Int)) ^ t := zpow_le_zpow_left₀ h0 (by positivity) (by norm_num)
      _ = 10 ^ (31 * t) := (zpow_mul _ _ _).symm
      _ ≤ 10 ^ (100 * c) := zpow_le_zpow_right₀ (by norm_num) h
  · calc (2 : ℚ) ^ (100 * t) = (2 ^ (100 : Int)) ^ t := zpow_mul _ _ _
      _ ≤ (10 ^ (30 : Int)) ^ t := by
          rw [← inv_le_inv₀ (by positivity) (by positivity), ← zpow_neg, ← zpow_neg]
          exact zpow_le_zpow_left₀ (neg_nonneg.2 h0) (by positivity) (by norm_num)
      _ = 10 ^ (30 * t) := (zpow_mul _ _ _).symm
      _ ≤ 10 ^ (100 * c) := zpow_le_zpow_right₀ (by norm_num) h

/-- the walk starts above the magnitude -/
theorem toRat_lt_ten_zpow (x : Magnitude) : x.toRat < 10 ^ x.decimalCeiling := by
  have hlog : (x.significand : ℚ) < 2 ^ ((x.significand.log2 : Int) + 1) := by
    exact_mod_cast Nat.lt_log2_self (n := x.significand)
  have hceil : (2 : ℚ) ^ (x.exponent + x.significand.log2 + 1) ≤ 10 ^ x.decimalCeiling := by
    apply two_zpow_le_ten_zpow
    simp only [decimalCeiling]
    split_ifs <;> omega
  calc x.toRat = x.significand * 2 ^ x.exponent := rfl
    _ < 2 ^ ((x.significand.log2 : Int) + 1) * 2 ^ x.exponent := mul_lt_mul_of_pos_right hlog (two_zpow_pos _)
    _ = 2 ^ (x.exponent + x.significand.log2 + 1) := by
        rw [← zpow_add₀ (by norm_num)]
        congr 1
        ring
    _ ≤ 10 ^ x.decimalCeiling := hceil

/-- **No multiple of a greater power of ten rounds to the magnitude.** -/
theorem not_rounds_of_shortest_lt (hx : x.significand ≠ 0) (hn : n ≠ 0) (hq : x.shortest.exponent < q) :
    ¬ x.Rounds (n * 10 ^ q) := by
  intro h
  rcases le_or_gt q x.decimalCeiling with hle | hgt
  · have hhit := multipleOfTen?_isSome_of_rounds hx hn h
    rw [(shortest_hit hx).2 q hq hle] at hhit
    cases hhit
  · -- above the start of the walk, every multiple is more than ten times the magnitude
    have hx1 : (1 : ℚ) ≤ x.significand := by exact_mod_cast Nat.pos_of_ne_zero hx
    have hn1 : (1 : ℚ) ≤ n := by exact_mod_cast Nat.pos_of_ne_zero hn
    have hp := two_zpow_pos x.exponent
    have hceil := x.toRat_lt_ten_zpow
    have hten : 10 * (10 : ℚ) ^ x.decimalCeiling ≤ n * 10 ^ q :=
      calc 10 * (10 : ℚ) ^ x.decimalCeiling = 10 ^ (x.decimalCeiling + 1) := by
            rw [zpow_add_one₀ (by norm_num), mul_comm]
        _ ≤ 10 ^ q := zpow_le_zpow_right₀ (by norm_num) hgt
        _ ≤ n * 10 ^ q := le_mul_of_one_le_left (by positivity) hn1
    have hup := h.le_upper
    rw [upper] at hup
    rw [toRat] at hceil
    nlinarith

/-- the digits do not end in a zero -/
theorem shortest_digits_mod_ten_ne (hx : x.significand ≠ 0) : x.shortest.digits % 10 ≠ 0 := by
  intro h
  obtain ⟨hne, hrounds⟩ := shortest_spec hx
  obtain ⟨n, hn⟩ := Nat.dvd_of_mod_eq_zero h
  refine not_rounds_of_shortest_lt (n := n) hx (by omega) (lt_add_one x.shortest.exponent) ?_
  rw [zpow_add_one₀ (by norm_num), ← mul_assoc, mul_right_comm]
  rw [hn] at hrounds
  convert hrounds using 2
  push_cast
  ring

end Magnitude

end Treewalk
