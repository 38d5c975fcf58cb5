/-
Rounding is to the nearest magnitude.

`Magnitude.Nearest q x` says that no magnitude is as near to the ratio `q` as `x`, but for a neighbour that is equally
near and odd where `x` is even. The magnitudes that `q` rounds to are described by an interval around each magnitude
(`Magnitude.Rounds`), which reaches half way to its two neighbours. `Number.ofRatio_isNearest`: rounding a ratio gives
its nearest magnitude, and infinity from half a place above the largest magnitude on.
-/
import Mathlib.Tactic
import Treewalk.Number.Rounding
import Treewalk.Number.Shortest

namespace Treewalk

/-! ## Whole numbers -/

/-- the rounded quotient is at most half away, and less than half if it is odd -/
theorem roundHalfEven_bounds (a : Nat) {b : Nat} (hb : 0 < b) :
    (2 * roundHalfEven a b * b ≤ 2 * a + b ∧ 2 * a ≤ 2 * roundHalfEven a b * b + b) ∧
      (roundHalfEven a b % 2 = 1 →
        2 * roundHalfEven a b * b < 2 * a + b ∧ 2 * a < 2 * roundHalfEven a b * b + b) := by
  have ha : b * (a / b) + a % b = a := Nat.div_add_mod a b
  have hr : a % b < b := Nat.mod_lt a hb
  unfold roundHalfEven
  generalize a / b = q at ha
  generalize a % b = r at ha hr
  subst ha
  simp only
  split_ifs with h1 h2
  · exact ⟨⟨by nlinarith, by nlinarith⟩, fun _ => ⟨by nlinarith, by nlinarith⟩⟩
  · exact ⟨⟨by nlinarith, by nlinarith⟩, fun _ => ⟨by nlinarith, by nlinarith⟩⟩
  · -- half way: the even one of `q` and `q + 1`
    have h3 : b = 2 * r := by omega
    obtain hq | hq : q % 2 = 0 ∨ q % 2 = 1 := by omega
    · rw [hq]
      exact ⟨⟨by nlinarith, by nlinarith⟩, fun h => by omega⟩
    · rw [hq]
      exact ⟨⟨by nlinarith, by nlinarith⟩, fun h => by omega⟩

/-- an integer power as a quotient of whole numbers -/
theorem zpow_eq_div (b : Nat) (hb : 0 < b) (e : Int) : (b : ℚ) ^ e = (b ^ e.toNat : Nat) / (b ^ (-e).toNat : Nat) := by
  have hb' : (b : ℚ) ≠ 0 := by positivity
  rcases Int.le_total 0 e with h | h
  · obtain ⟨n, rfl⟩ := Int.eq_ofNat_of_zero_le h
    simp
  · obtain ⟨n, hn⟩ := Int.eq_ofNat_of_zero_le (show 0 ≤ -e by omega)
    obtain rfl : e = -n := by omega
    simp

theorem two_zpow_eq_div (e : Int) : (2 : ℚ) ^ e = (2 ^ e.toNat : Nat) / (2 ^ (-e).toNat : Nat) :=
  zpow_eq_div 2 (by decide) e

theorem two_zpow_pos (e : Int) : (0 : ℚ) < 2 ^ e := by positivity

theorem two_zpow_succ (e : Int) : (2 : ℚ) ^ (e + 1) = 2 * 2 ^ e := by
  rw [zpow_add_one₀ (by norm_num), mul_comm]

theorem div_lt_two_zpow_iff (num : Nat) {den : Nat} (hd : 0 < den) (l : Int) :
    (num / den : ℚ) < 2 ^ l ↔ num * 2 ^ (-l).toNat < den * 2 ^ l.toNat := by
  rw [two_zpow_eq_div, div_lt_div_iff₀ (by positivity) (by positivity), mul_comm _ (den : ℚ)]
  exact_mod_cast Iff.rfl

theorem floorLog2_bounds {num den : Nat} (hn : 0 < num) (hd : 0 < den) :
    (2 : ℚ) ^ floorLog2 num den ≤ num / den ∧ (num / den : ℚ) < 2 ^ (floorLog2 num den + 1) := by
  have hd' : (0 : ℚ) < den := by positivity
  have hn1 : ((2 : ℚ) ^ (num.log2 : Int)) ≤ num := by
    exact_mod_cast Nat.log2_self_le hn.ne'
  have hn2 : (num : ℚ) < 2 ^ ((num.log2 : Int) + 1) := by
    exact_mod_cast Nat.lt_log2_self (n := num)
  have hd1 : ((2 : ℚ) ^ (den.log2 : Int)) ≤ den := by
    exact_mod_cast Nat.log2_self_le hd.ne'
  have hd2 : (den : ℚ) < 2 ^ ((den.log2 : Int) + 1) := by
    exact_mod_cast Nat.lt_log2_self (n := den)
  generalize hl : (num.log2 : Int) - den.log2 = l
  have hup : (num / den : ℚ) < 2 ^ (l + 1) := by
    rw [div_lt_iff₀ hd']
    calc (num : ℚ) < 2 ^ ((num.log2 : Int) + 1) := hn2
      _ = 2 ^ (l + 1) * 2 ^ (den.log2 : Int) := by rw [← zpow_add₀ (by norm_num)]; congr 1; omega
      _ ≤ 2 ^ (l + 1) * den := by gcongr
  have hlow : (2 : ℚ) ^ (l - 1) ≤ num / den := by
    rw [le_div_iff₀ hd']
    calc (2 : ℚ) ^ (l - 1) * den ≤ 2 ^ (l - 1) * 2 ^ ((den.log2 : Int) + 1) := by gcongr
      _ = 2 ^ (num.log2 : Int) := by rw [← zpow_add₀ (by norm_num)]; congr 1; omega
      _ ≤ num := hn1
  have hiff := div_lt_two_zpow_iff num hd l
  simp only [floorLog2, hl]
  split_ifs with h
  · exact ⟨hlow, by simpa using hiff.2 h⟩
  · exact ⟨not_lt.1 (mt hiff.1 h), hup⟩

namespace Magnitude

/-! ## The interval that rounds to a magnitude -/

/-- the value of a magnitude -/
def toRat (x : Magnitude) : ℚ := x.significand * 2 ^ x.exponent

/-- half way to the next magnitude below -/
def lower (x : Magnitude) : ℚ := (4 * x.significand - x.quartersBelow) * (2 ^ x.exponent / 4)

/-- half way to the next magnitude above -/
def upper (x : Magnitude) : ℚ := (4 * x.significand + 2) * (2 ^ x.exponent / 4)

/-- the ratio lies between the middles to the two neighbours, and on one of them only if the significand is even -/
structure Rounds (x : Magnitude) (q : ℚ) : Prop where
  lower_le : x.lower ≤ q
  le_upper : q ≤ x.upper
  odd : x.significand % 2 = 1 → x.lower < q ∧ q < x.upper

/-- the middle between the largest magnitude and the next power of two -/
def overflow : ℚ := (2 ^ 54 - 1) * 2 ^ (970 : Int)

/-- the exponent of a rounding leaves at most 53 bits, and 53 bits unless it is the least one -/
theorem roundingExponent_bounds (num : Nat) {den : Nat} (hd : 0 < den) :
    minExponent ≤ roundingExponent num den ∧ (num / den : ℚ) < 2 ^ 53 * 2 ^ roundingExponent num den ∧
      (roundingExponent num den ≠ minExponent → 2 ^ 52 * (2 : ℚ) ^ roundingExponent num den ≤ num / den) := by
  unfold roundingExponent
  split_ifs with h0
  · subst h0
    refine ⟨le_rfl, ?_, fun h => absurd rfl h⟩
    rw [Nat.cast_zero, zero_div]
    positivity
  · obtain ⟨h1, h2⟩ := floorLog2_bounds (Nat.pos_of_ne_zero h0) hd
    generalize floorLog2 num den = l at h1 h2
    simp only [precision]
    refine ⟨le_max_left _ _, h2.trans_le ?_, fun hne => le_trans (le_of_eq ?_) h1⟩
    · rw [show (2 : ℚ) ^ 53 = 2 ^ (53 : Int) by norm_num, ← zpow_add₀ (by norm_num)]
      exact zpow_le_zpow_right₀ (by norm_num) (by omega)
    · rw [show (2 : ℚ) ^ 52 = 2 ^ (52 : Int) by norm_num, ← zpow_add₀ (by norm_num)]
      congr 1
      omega

/-- the rounded significand is at most half away from the ratio in units of the last place -/
theorem roundHalfEven_scaled_bounds (num : Nat) {den : Nat} (hd : 0 < den) (e : Int) {r : ℚ}
    (hr : (num / den : ℚ) = r * 2 ^ e) :
    let m := roundHalfEven (num * 2 ^ (-e).toNat) (den * 2 ^ e.toNat)
    ((m : ℚ) - 1 / 2 ≤ r ∧ r ≤ m + 1 / 2) ∧ (m % 2 = 1 → (m : ℚ) - 1 / 2 < r ∧ r < m + 1 / 2) := by
  intro m
  have hb : 0 < den * 2 ^ e.toNat := by positivity
  have hb' : (0 : ℚ) < (den * 2 ^ e.toNat : Nat) := by exact_mod_cast hb
  have hrb : r * (den * 2 ^ e.toNat : Nat) = (num * 2 ^ (-e).toNat : Nat) := by
    have h2 := two_zpow_eq_div e
    have hd' : (den : ℚ) ≠ 0 := by positivity
    rw [h2] at hr
    field_simp at hr
    push_cast at hr ⊢
    linarith
  obtain ⟨⟨h1, h2⟩, h3⟩ := roundHalfEven_bounds (num * 2 ^ (-e).toNat) hb
  change 2 * m * _ ≤ _ at h1
  change _ ≤ 2 * m * _ + _ at h2
  change m % 2 = 1 → 2 * m * _ < _ ∧ _ < 2 * m * _ + _ at h3
  generalize num * 2 ^ (-e).toNat = a at *
  generalize den * 2 ^ e.toNat = b at *
  have h1' : (2 * m * b : ℚ) ≤ 2 * a + b := by exact_mod_cast h1
  have h2' : (2 * a : ℚ) ≤ 2 * m * b + b := by exact_mod_cast h2
  refine ⟨⟨?_, ?_⟩, fun hm => ?_⟩
  · rw [← hrb] at h1'; nlinarith
  · rw [← hrb] at h2'; nlinarith
  · have h4 : (2 * m * b : ℚ) < 2 * a + b := by exact_mod_cast (h3 hm).1
    have h5 : (2 * a : ℚ) < 2 * m * b + b := by exact_mod_cast (h3 hm).2
    rw [← hrb] at h4 h5
    constructor <;> nlinarith

theorem two_zpow_le {d e : Int} (h : d ≤ e) : (2 : ℚ) ^ d ≤ 2 ^ e := zpow_le_zpow_right₀ (by norm_num) h

/-- a canonical significand and exponent that are rounded to, without a carry -/
theorem rounds_of_scaled {x : Magnitude} {q r : ℚ} (hr : q = r * 2 ^ x.exponent)
    (hm : ((x.significand : ℚ) - 1 / 2 ≤ r ∧ r ≤ x.significand + 1 / 2) ∧
      (x.significand % 2 = 1 → (x.significand : ℚ) - 1 / 2 < r ∧ r < x.significand + 1 / 2))
    (he : x.exponent ≠ minExponent → 2 ^ 52 ≤ r) : x.Rounds q := by
  have hp := two_zpow_pos x.exponent
  obtain ⟨⟨h1, h2⟩, h3⟩ := hm
  by_cases hb : x.significand = 2 ^ (precision - 1) ∧ x.exponent ≠ minExponent
  · have hq : x.quartersBelow = 1 := if_pos hb
    have hs : (x.significand : ℚ) = 2 ^ 52 := by rw [hb.1]; norm_num [precision]
    have h4 := he hb.2
    refine ⟨?_, ?_, fun h => ?_⟩
    · rw [lower, hq, hr, hs]; push_cast; nlinarith
    · rw [upper, hr, hs]; nlinarith
    · rw [hb.1] at h; exact absurd h (by decide)
  · have hq : x.quartersBelow = 2 := if_neg hb
    refine ⟨?_, ?_, fun h => ⟨?_, ?_⟩⟩
    · rw [lower, hq, hr]; push_cast; nlinarith
    · rw [upper, hr]; nlinarith
    · rw [lower, hq, hr]; push_cast; nlinarith [(h3 h).1]
    · rw [upper, hr]; nlinarith [(h3 h).2]

/-- a significand that is rounded up to 54 bits, carried into the exponent -/
theorem rounds_of_carry {x : Magnitude} {q r : ℚ} {e : Int} (hr : q = r * 2 ^ e) (hx : x.exponent = e + 1)
    (hs : x.significand = 2 ^ 52) (he : minExponent ≤ e) (hm : (2 ^ 53 : ℚ) - 1 / 2 ≤ r ∧ r < 2 ^ 53) : x.Rounds q := by
  have hp := two_zpow_pos e
  have hq : x.quartersBelow = 1 := if_pos ⟨hs, by omega⟩
  have hs' : (x.significand : ℚ) = 2 ^ 52 := by rw [hs]; norm_num
  refine ⟨?_, ?_, fun h => ?_⟩
  · rw [lower, hq, hr, hs', hx, two_zpow_succ]; push_cast; nlinarith
  · rw [upper, hr, hs', hx, two_zpow_succ]; nlinarith
  · rw [hs] at h; exact absurd h (by decide)

/-- the magnitude of a rounded significand, with a carry into the exponent if it has 54 bits -/
def carried (m : Nat) (e : Int) : Option Magnitude :=
  let (m, e) := if m = 2 ^ precision then (2 ^ (precision - 1), e + 1) else (m, e)
  if h : Canonical m e then some ⟨m, e, h⟩ else none

theorem carried_spec {m : Nat} {e : Int} {r : ℚ} (he : minExponent ≤ e) (hr53 : r < 2 ^ 53)
    (hr52 : e ≠ minExponent → 2 ^ 52 ≤ r)
    (hm : ((m : ℚ) - 1 / 2 ≤ r ∧ r ≤ m + 1 / 2) ∧ (m % 2 = 1 → (m : ℚ) - 1 / 2 < r ∧ r < m + 1 / 2)) :
    (∀ x, carried m e = some x → x.Rounds (r * 2 ^ e)) ∧ (carried m e = none → overflow ≤ r * 2 ^ e) := by
  have hm53 : m ≤ 2 ^ 53 := by
    have : (m : ℚ) < 2 ^ 53 + 1 := by linarith [hm.1.1]
    exact Nat.lt_succ_iff.1 (by exact_mod_cast this)
  have hm52 : e ≠ minExponent → 2 ^ 52 ≤ m := fun h => by
    have : (2 ^ 52 : ℚ) < m + 1 := by linarith [hm.1.2, hr52 h]
    exact Nat.lt_succ_iff.1 (by exact_mod_cast this)
  by_cases hc : m = 2 ^ precision
  · have hlow : (2 ^ 53 : ℚ) - 1 / 2 ≤ r := by
      have := hm.1.1
      rw [hc, precision] at this
      exact_mod_cast this
    rw [carried, if_pos hc]
    simp only
    split_ifs with hcan
    · refine ⟨?_, by simp⟩
      rintro x ⟨⟩
      exact rounds_of_carry rfl rfl rfl he ⟨hlow, hr53⟩
    · refine ⟨by simp, fun _ => ?_⟩
      have h971 : 970 + 1 ≤ e := by
        by_contra h
        exact hcan ⟨by decide, by simp only [minExponent] at *; omega, by simp only [maxExponent]; omega,
          fun h => absurd h (lt_irrefl _)⟩
      calc overflow = (2 ^ 53 - 1 / 2) * 2 ^ (970 + 1 : Int) := by rw [overflow, two_zpow_succ]; ring
        _ ≤ r * 2 ^ e := mul_le_mul hlow (two_zpow_le h971) (by positivity) (by linarith)
  · rw [carried, if_neg hc]
    simp only
    split_ifs with hcan
    · refine ⟨?_, by simp⟩
      rintro x ⟨⟩
      exact rounds_of_scaled rfl hm hr52
    · refine ⟨by simp, fun _ => ?_⟩
      have h972 : 970 + 2 ≤ e := by
        by_contra h
        refine hcan ⟨by simp only [precision] at *; omega, he, by simp only [maxExponent]; omega, fun h => ?_⟩
        by_contra hne
        exact absurd (hm52 hne) (by simpa [precision] using h)
      have hr := hr52 (by simp only [minExponent]; omega)
      calc overflow ≤ 2 ^ 54 * 2 ^ (970 : Int) := mul_le_mul_of_nonneg_right (by norm_num) (two_zpow_pos _).le
        _ = 2 ^ 52 * 2 ^ (970 + 2 : Int) := by rw [zpow_add₀ (by norm_num)]; ring
        _ ≤ r * 2 ^ e := mul_le_mul hr (two_zpow_le h972) (by positivity) (by linarith)

/-- **Rounding a ratio.** The result's interval holds the ratio, and there is none only beyond the largest magnitude. -/
theorem ofRatio?_spec (num : Nat) {den : Nat} (hd : 0 < den) :
    (∀ x, ofRatio? num den = some x → x.Rounds (num / den)) ∧ (ofRatio? num den = none → overflow ≤ num / den) := by
  obtain ⟨he1, he2, he3⟩ := roundingExponent_bounds num hd
  have hp := two_zpow_pos (roundingExponent num den)
  generalize hr : (num / den : ℚ) / 2 ^ roundingExponent num den = r
  have hq : (num / den : ℚ) = r * 2 ^ roundingExponent num den := by rw [← hr]; field_simp
  have hm := roundHalfEven_scaled_bounds num hd (roundingExponent num den) hq
  rw [hq] at he2 he3 ⊢
  exact carried_spec he1 (lt_of_mul_lt_mul_right he2 hp.le) (fun h => le_of_mul_le_mul_right (he3 h) hp) hm

/-! ## Neighbours -/

variable {x y : Magnitude} {q : ℚ}

theorem significand_lt (x : Magnitude) : x.significand < 2 ^ 53 := x.canonical.1

theorem le_significand (h : x.exponent ≠ minExponent) : 2 ^ 52 ≤ x.significand := by
  by_contra hlt
  exact h (x.canonical.2.2.2 (not_le.1 hlt))

/-- a magnitude of a greater exponent, in units of the last place of the other -/
theorem toRat_eq_of_exponent_le (h : x.exponent ≤ y.exponent) :
    y.toRat = (y.significand * 2 ^ (y.exponent - x.exponent).toNat : Nat) * 2 ^ x.exponent := by
  have he : y.exponent = ((y.exponent - x.exponent).toNat : Int) + x.exponent := by omega
  rw [toRat]
  conv_lhs => rw [he, zpow_add₀ (by norm_num), zpow_natCast]
  push_cast
  ring

theorem toRat_lt_of_exponent_lt (h : x.exponent < y.exponent) : x.toRat < y.toRat := by
  have hy : 2 ^ 52 ≤ y.significand := le_significand (by have := x.canonical.2.1; omega)
  have hk : 2 ≤ 2 ^ (y.exponent - x.exponent).toNat :=
    Nat.le_self_pow (by omega) 2
  have hlt : x.significand < y.significand * 2 ^ (y.exponent - x.exponent).toNat := by
    have := x.significand_lt
    nlinarith
  rw [toRat_eq_of_exponent_le h.le, toRat]
  exact mul_lt_mul_of_pos_right (by exact_mod_cast hlt) (two_zpow_pos _)

theorem toRat_injective (h : x.toRat = y.toRat) : x = y := by
  rcases lt_trichotomy x.exponent y.exponent with he | he | he
  · exact absurd h (toRat_lt_of_exponent_lt he).ne
  · have hs : x.significand = y.significand := by
      rw [toRat, toRat, he] at h
      exact_mod_cast mul_right_cancel₀ (two_zpow_pos y.exponent).ne' h
    cases x; cases y; simp_all
  · exact absurd h (toRat_lt_of_exponent_lt he).ne'

/-- the next magnitude above is a unit of the last place away, and of the other parity -/
theorem toRat_add_le (h : x.toRat < y.toRat) :
    x.toRat + 2 ^ x.exponent ≤ y.toRat ∧
      (x.toRat + 2 ^ x.exponent = y.toRat → x.significand % 2 = 0 → y.significand % 2 = 1) := by
  have he : x.exponent ≤ y.exponent := not_lt.1 fun h' => lt_asymm h (toRat_lt_of_exponent_lt h')
  have hx : x.toRat + 2 ^ x.exponent = (x.significand + 1 : Nat) * 2 ^ x.exponent := by
    rw [toRat]; push_cast; ring
  have hp := two_zpow_pos x.exponent
  rw [hx, toRat_eq_of_exponent_le he]
  rw [toRat, toRat_eq_of_exponent_le he] at h
  have hlt : x.significand < y.significand * 2 ^ (y.exponent - x.exponent).toNat := by
    exact_mod_cast lt_of_mul_lt_mul_right h hp.le
  refine ⟨mul_le_mul_of_nonneg_right (by exact_mod_cast hlt) hp.le, fun heq heven => ?_⟩
  have heq' : x.significand + 1 = y.significand * 2 ^ (y.exponent - x.exponent).toNat := by
    exact_mod_cast mul_right_cancel₀ hp.ne' heq
  cases hk : (y.exponent - x.exponent).toNat with
  | zero => rw [hk] at heq'; omega
  | succ k => rw [hk, pow_succ, ← mul_assoc] at heq'; omega

/-- the next magnitude below is twice as far away as the lower end of the interval, and of the other parity -/
theorem toRat_le_sub (h : y.toRat < x.toRat) :
    y.toRat ≤ x.toRat - x.quartersBelow * (2 ^ x.exponent / 2) ∧
      (y.toRat = x.toRat - x.quartersBelow * (2 ^ x.exponent / 2) → x.significand % 2 = 0 → y.significand % 2 = 1) := by
  have he : y.exponent ≤ x.exponent := not_lt.1 fun h' => lt_asymm h (toRat_lt_of_exponent_lt h')
  have hp := two_zpow_pos x.exponent
  rcases he.eq_or_lt with he | he
  · -- the same exponent: the significands are whole numbers
    have hlt : y.significand + 1 ≤ x.significand := by
      rw [toRat, toRat, he] at h
      exact_mod_cast lt_of_mul_lt_mul_right h hp.le
    have hle : (y.significand + 1 : ℚ) ≤ x.significand := by exact_mod_cast hlt
    have hqb : (x.quartersBelow : ℚ) ≤ 2 := by
      unfold quartersBelow; split_ifs <;> norm_num
    have hmul : (x.quartersBelow : ℚ) * (2 ^ x.exponent / 2) ≤ 2 ^ x.exponent := by nlinarith
    have hy : y.toRat + 2 ^ x.exponent ≤ x.toRat := by
      rw [toRat, toRat, he]; nlinarith
    refine ⟨by linarith, fun heq heven => ?_⟩
    have : (y.significand + 1 : ℚ) * 2 ^ x.exponent = x.significand * 2 ^ x.exponent := by
      have h1 : y.toRat + 2 ^ x.exponent = x.toRat := by linarith
      rw [toRat, toRat, he] at h1
      linarith
    have : y.significand + 1 = x.significand := by exact_mod_cast mul_right_cancel₀ hp.ne' this
    omega
  · -- a smaller exponent: the other significand has all 53 bits at most where this one has its first
    obtain ⟨k, hk⟩ : ∃ k : Nat, x.exponent = (k : Int) + y.exponent + 1 :=
      ⟨(x.exponent - y.exponent - 1).toNat, by omega⟩
    have hne : x.exponent ≠ minExponent := by have := y.canonical.2.1; omega
    have hm := le_significand hne
    have hm' := y.significand_lt
    have hu := two_zpow_pos y.exponent
    have hK : 1 ≤ 2 ^ k := Nat.one_le_two_pow
    have hpow : (2 : ℚ) ^ x.exponent / 2 = (2 ^ k : Nat) * 2 ^ y.exponent := by
      rw [hk, two_zpow_succ, zpow_add₀ (by norm_num), zpow_natCast]; push_cast; ring
    have hx : x.toRat - x.quartersBelow * (2 ^ x.exponent / 2) =
        ((2 * x.significand - x.quartersBelow) * (2 ^ k : Nat) : ℚ) * 2 ^ y.exponent := by
      rw [toRat, show (2 : ℚ) ^ x.exponent = 2 * (2 ^ x.exponent / 2) by ring, hpow]; ring
    rw [hx, toRat]
    generalize 2 ^ k = K at hK
    by_cases hb : x.significand = 2 ^ (precision - 1) ∧ x.exponent ≠ minExponent
    · have hq : x.quartersBelow = 1 := if_pos hb
      have hs : x.significand = 2 ^ 52 := hb.1
      have hle : y.significand ≤ (2 ^ 53 - 1) * K := by omega
      have hcast : ((2 * x.significand - x.quartersBelow) * K : ℚ) = ((2 ^ 53 - 1) * K : Nat) := by
        rw [hq, hs]; push_cast; norm_num
      rw [hcast]
      refine ⟨mul_le_mul_of_nonneg_right (by exact_mod_cast hle) hu.le, fun heq _ => ?_⟩
      have heq' : y.significand = (2 ^ 53 - 1) * K := by exact_mod_cast mul_right_cancel₀ hu.ne' heq
      omega
    · have hq : x.quartersBelow = 2 := if_neg hb
      have hs : x.significand ≠ 2 ^ 52 := fun h => hb ⟨h, hne⟩
      have hlt : y.significand < 2 * (x.significand - 1) * K := by
        have : 2 ^ 53 ≤ 2 * (x.significand - 1) := by omega
        nlinarith
      have hcast : ((2 * x.significand - x.quartersBelow) * K : ℚ) = (2 * (x.significand - 1) * K : Nat) := by
        rw [hq]; push_cast [show 1 ≤ x.significand by omega]; ring
      rw [hcast]
      have hlt' : (y.significand : ℚ) * 2 ^ y.exponent < (2 * (x.significand - 1) * K : Nat) * 2 ^ y.exponent :=
        mul_lt_mul_of_pos_right (by exact_mod_cast hlt) hu
      exact ⟨hlt'.le, fun heq => absurd heq hlt'.ne⟩

/-! ## The nearest magnitude -/

/-- every other magnitude is farther away, or just as far and odd where this one is even -/
def Nearest (q : ℚ) (x : Magnitude) : Prop :=
  ∀ y : Magnitude, y ≠ x → |x.toRat - q| < |y.toRat - q| ∨
    |x.toRat - q| = |y.toRat - q| ∧ x.significand % 2 = 0 ∧ y.significand % 2 = 1

theorem Nearest.eq (hx : Nearest q x) (hy : Nearest q y) : x = y := by
  by_contra h
  rcases hx y (Ne.symm h), hy x h with ⟨h1 | ⟨h1, h2, h3⟩, h4 | ⟨h4, h5, h6⟩⟩
  · exact lt_asymm h1 h4
  · exact h1.ne h4.symm
  · exact h4.ne h1.symm
  · omega

theorem Rounds.nearest (h : x.Rounds q) : Nearest q x := by
  intro y hne
  have hp := two_zpow_pos x.exponent
  have hlow : x.lower = x.toRat - x.quartersBelow * (2 ^ x.exponent / 2) / 2 := by rw [lower, toRat]; ring
  have hup : x.upper = x.toRat + 2 ^ x.exponent / 2 := by rw [upper, toRat]; ring
  obtain ⟨h1, h2, h3⟩ := h
  rw [hlow] at h1 h3
  rw [hup] at h2 h3
  have hqb : 0 < (x.quartersBelow : ℚ) * (2 ^ x.exponent / 2) := by
    have : 0 < x.quartersBelow := by unfold quartersBelow; split_ifs <;> decide
    positivity
  have heven : ¬ (x.significand % 2 = 1) → x.significand % 2 = 0 := by omega
  rcases lt_or_gt_of_ne (fun h => hne (toRat_injective h)) with hlt | hgt
  · obtain ⟨h4, h5⟩ := toRat_le_sub hlt
    generalize (x.quartersBelow : ℚ) * (2 ^ x.exponent / 2) = g at *
    rw [abs_of_nonpos (show y.toRat - q ≤ 0 by linarith)]
    rcases lt_or_ge |x.toRat - q| (-(y.toRat - q)) with h | h
    · exact .inl h
    · -- as near as the neighbour below: the ratio is the lower end
      have hx : x.toRat - q ≤ g / 2 := by linarith
      have habs : |x.toRat - q| = x.toRat - q := by
        refine abs_of_nonneg (le_of_not_gt fun hneg => ?_)
        rw [abs_of_neg hneg] at h
        linarith
      rw [habs] at h ⊢
      have hev := heven fun hodd => by linarith [(h3 hodd).1]
      exact .inr ⟨by linarith, hev, h5 (by linarith) hev⟩
  · obtain ⟨h4, h5⟩ := toRat_add_le hgt
    rw [abs_of_nonneg (show 0 ≤ y.toRat - q by linarith)]
    rcases lt_or_ge |x.toRat - q| (y.toRat - q) with h | h
    · exact .inl h
    · have habs : |x.toRat - q| = -(x.toRat - q) := by
        refine abs_of_nonpos (le_of_not_gt fun hpos => ?_)
        rw [abs_of_pos hpos] at h
        linarith
      rw [habs] at h ⊢
      have hev := heven fun hodd => by linarith [(h3 hodd).2]
      exact .inr ⟨by linarith, hev, h5 (by linarith) hev⟩

theorem Rounds.lt_overflow (h : x.Rounds q) : q < overflow := by
  have hp := two_zpow_pos x.exponent
  have hexp : (2 : ℚ) ^ x.exponent ≤ 2 * 2 ^ (970 : Int) := by
    rw [← two_zpow_succ]
    exact two_zpow_le x.canonical.2.2.1
  have hs : (x.significand : ℚ) ≤ 2 ^ 53 - 1 := by
    have := x.significand_lt
    have : x.significand + 1 ≤ 2 ^ 53 := this
    have : (x.significand + 1 : ℚ) ≤ 2 ^ 53 := by exact_mod_cast this
    linarith
  have hup : x.upper ≤ overflow :=
    calc x.upper = (4 * x.significand + 2) * 2 ^ x.exponent / 4 := by rw [upper]; ring
      _ ≤ (4 * (2 ^ 53 - 1) + 2) * (2 * 2 ^ (970 : Int)) / 4 := by gcongr
      _ = overflow := by rw [overflow]; ring
  refine lt_of_le_of_ne (h.le_upper.trans hup) fun heq => ?_
  -- only the largest magnitude reaches up to the bound, and it is odd
  have hq : q = x.upper := le_antisymm h.le_upper (heq ▸ hup)
  rcases Nat.mod_two_eq_zero_or_one x.significand with heven | hodd
  · have hs' : (x.significand : ℚ) ≤ 2 ^ 53 - 2 := by
      have := x.significand_lt
      have : x.significand + 2 ≤ 2 ^ 53 := by omega
      have : (x.significand + 2 : ℚ) ≤ 2 ^ 53 := by exact_mod_cast this
      linarith
    have : x.upper < overflow :=
      calc x.upper = (4 * x.significand + 2) * 2 ^ x.exponent / 4 := by rw [upper]; ring
        _ ≤ (4 * (2 ^ 53 - 2) + 2) * (2 * 2 ^ (970 : Int)) / 4 := by gcongr
        _ < (4 * (2 ^ 53 - 1) + 2) * (2 * 2 ^ (970 : Int)) / 4 := by gcongr; norm_num
        _ = overflow := by rw [overflow]; ring
    exact this.ne (hq ▸ heq)
  · exact (h.odd hodd).2.ne hq

end Magnitude

namespace Number

/-- the number is the nearest one to a non-negative ratio; from the bound on, infinity is -/
def IsNearest (q : ℚ) : Number → Prop
  | .finite false x => q < Magnitude.overflow ∧ Magnitude.Nearest q x
  | .infinity false => Magnitude.overflow ≤ q
  | _ => False

variable {q : ℚ} {x y : Number}

theorem IsNearest.finite_or_infinity (h : IsNearest q x) :
    (∃ m, x = .finite false m ∧ q < Magnitude.overflow ∧ Magnitude.Nearest q m) ∨
      (x = .infinity false ∧ Magnitude.overflow ≤ q) := by
  cases x with
  | nan => exact h.elim
  | infinity s =>
    cases s with
    | true => exact h.elim
    | false => exact .inr ⟨rfl, h⟩
  | finite s m =>
    cases s with
    | true => exact h.elim
    | false => exact .inl ⟨m, rfl, h⟩

theorem IsNearest.eq (hx : IsNearest q x) (hy : IsNearest q y) : x = y := by
  rcases hx.finite_or_infinity, hy.finite_or_infinity with
    ⟨⟨m, rfl, hm, hm'⟩ | ⟨rfl, hm⟩, ⟨n, rfl, hn, hn'⟩ | ⟨rfl, hn⟩⟩
  · rw [hm'.eq hn']
  · exact absurd hn (not_le.2 hm)
  · exact absurd hm (not_le.2 hn)
  · rfl

theorem isNearest_of_rounds {x : Magnitude} (h : x.Rounds q) : IsNearest q (.finite false x) :=
  ⟨h.lt_overflow, h.nearest⟩

/-- **Rounding gives the nearest number.** -/
theorem ofRatio_isNearest (num : Nat) {den : Nat} (hd : 0 < den) : IsNearest (num / den) (ofRatio false num den) := by
  obtain ⟨hsome, hnone⟩ := Magnitude.ofRatio?_spec num hd
  unfold ofRatio
  cases h : Magnitude.ofRatio? num den with
  | some x => exact isNearest_of_rounds (hsome x h)
  | none => exact hnone h

end Number

end Treewalk
