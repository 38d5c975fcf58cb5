/-
Subscripts are exact.

The value of a number is read off its 64-bit pattern by the binary64 format (`Number.bitsValue?`). A whole index is
compared with zero and with the length of the array, as numbers. Below lengths of `2 ^ 53`, where a length is itself a
number, this tells whether its value is from zero up to the length (`Number.out_of_range_iff`). So an index selects the
place that is its value, a whole number beyond is out of range, and everything else is no whole number
(`Number.index_of_value?`, `Number.index_of_not_whole`); a subscript gives the item at its index, or fails by what its
index is (`Expr.subscript_is_exact`).
-/
import Treewalk.Proofs.Eval.Rules
import Treewalk.Proofs.Number.Integers

namespace Treewalk

namespace Magnitude

variable {m : Magnitude} {n : Nat}

theorem toRat_eq_div (m : Magnitude) :
    m.toRat = (m.significand * 2 ^ m.exponent.toNat : Nat) / (2 ^ (-m.exponent).toNat : Nat) := by
  rw [toRat, two_zpow_eq_div, Nat.cast_mul, mul_div_assoc]

/-- one of the two powers is one -/
theorem isInteger_iff : m.isInteger = true ↔ 2 ^ (-m.exponent).toNat ∣ m.significand * 2 ^ m.exponent.toNat := by
  rw [isInteger, beq_iff_eq, ← Nat.dvd_iff_mod_eq_zero]
  rcases Int.le_total 0 m.exponent with he | he
  · rw [show (-m.exponent).toNat = 0 by omega, pow_zero]
    simp
  · rw [show m.exponent.toNat = 0 by omega, pow_zero, mul_one]

theorem toRat_eq_natCast_iff : m.toRat = n ↔ m.isInteger = true ∧ m.floor = n := by
  have hpos : 0 < 2 ^ (-m.exponent).toNat := by positivity
  rw [toRat_eq_div, div_eq_iff (by positivity), isInteger_iff, floor]
  norm_cast
  constructor
  · intro h
    exact ⟨⟨n, by rw [h, mul_comm]⟩, by rw [h, Nat.mul_div_cancel _ hpos]⟩
  · rintro ⟨hdvd, rfl⟩
    rw [Nat.div_mul_cancel hdvd]

end Magnitude

namespace Number

variable {x y : Number} {n : Nat}

/-- the exact value of a 64-bit pattern by the binary64 format; the infinities and NaN have none -/
def bitsValue? (w : UInt64) : Option ℚ :=
  let fraction : Nat := w.toNat % 2 ^ 52
  let field : Nat := w.toNat / 2 ^ 52 % 2 ^ 11
  let sign : ℚ := if w.toNat / 2 ^ 63 = 1 then -1 else 1
  if field = 2047 then none
  else if field = 0 then some (sign * (fraction * 2 ^ (-1074 : Int)))
  else some (sign * ((2 ^ 52 + fraction) * 2 ^ ((field : Int) - 1075)))

theorem value?_ofBits (w : UInt64) : (ofBits w).value? = bitsValue? w := by
  have hsign : (w.toNat / 2 ^ 63 % 2 == 1) = decide (w.toNat / 2 ^ 63 = 1) := by
    have hw : w.toNat < 2 ^ 64 := w.toNat_lt
    rw [Nat.mod_eq_of_lt (by omega)]
    rfl
  have hvalue : ∀ m : Magnitude, (finite (w.toNat / 2 ^ 63 % 2 == 1) m).value? =
      some ((if w.toNat / 2 ^ 63 = 1 then -1 else 1) * m.toRat) := by
    intro m
    rw [value?, hsign]
    split_ifs <;> simp_all
  simp only [ofBits, bitsValue?]
  by_cases hfield : w.toNat / 2 ^ 52 % 2 ^ 11 = 2047
  · rw [dif_pos hfield, if_pos hfield]
    split_ifs <;> rfl
  · rw [dif_neg hfield, if_neg hfield]
    by_cases hzero : w.toNat / 2 ^ 52 % 2 ^ 11 = 0
    · rw [dif_pos hzero, if_pos hzero, hvalue]
      rfl
    · rw [dif_neg hzero, if_neg hzero, hvalue, Magnitude.toRat]
      push_cast
      rfl

/-! ## Comparisons -/

/-- the value of a finite number, at an exponent not above its own -/
theorem value?_eq_scaledTo (s : Bool) (m : Magnitude) {e : Int} (he : e ≤ m.exponent) :
    (finite s m).value? = some (((if s then -(m.scaledTo e) else m.scaledTo e : Int) : ℚ) * 2 ^ e) := by
  have hscaled : m.toRat = m.scaledTo e * 2 ^ e := by
    obtain ⟨k, hk⟩ : ∃ k : Nat, m.exponent - e = k := ⟨(m.exponent - e).toNat, by omega⟩
    rw [Magnitude.toRat, Magnitude.scaledTo, hk, Int.toNat_natCast, show m.exponent = k + e by omega,
      zpow_add₀ two_ne_zero, zpow_natCast]
    push_cast
    ring
  rw [value?, hscaled]
  cases s <;> simp

theorem compare_mul_right {a b : Int} {c : ℚ} (hc : 0 < c) : Ord.compare (a * c : ℚ) (b * c) = Ord.compare a b := by
  rcases lt_trichotomy a b with h | rfl | h
  · rw [compare_lt_iff_lt.2 h, compare_lt_iff_lt.2 (mul_lt_mul_of_pos_right (Int.cast_lt.2 h) hc)]
  · rw [compare_eq_iff_eq.2 rfl, compare_eq_iff_eq.2 rfl]
  · rw [compare_gt_iff_gt.2 h, compare_gt_iff_gt.2 (mul_lt_mul_of_pos_right (Int.cast_lt.2 h) hc)]

/-- numbers compare as their values do -/
theorem compare?_of_value? {p q : ℚ} (hx : x.value? = some p) (hy : y.value? = some q) :
    x.compare? y = some (Ord.compare p q) := by
  cases x with
  | nan => cases hx
  | infinity s => cases hx
  | finite s m =>
    cases y with
    | nan => cases hy
    | infinity t => cases hy
    | finite t k =>
      rw [value?_eq_scaledTo s m (min_le_left m.exponent k.exponent)] at hx
      rw [value?_eq_scaledTo t k (min_le_right m.exponent k.exponent)] at hy
      obtain rfl := Option.some.inj hx
      obtain rfl := Option.some.inj hy
      rw [compare_mul_right (two_zpow_pos _)]
      rfl

theorem lt_iff_of_value? {p q : ℚ} (hx : x.value? = some p) (hy : y.value? = some q) : x.lt y = true ↔ p < q := by
  rw [lt, compare?_of_value? hx hy, beq_iff_eq, Option.some.injEq, compare_lt_iff_lt]

theorem le_iff_of_value? {p q : ℚ} (hx : x.value? = some p) (hy : y.value? = some q) : x.le y = true ↔ p ≤ q := by
  rw [le, Bool.or_eq_true, lt_iff_of_value? hx hy, compare?_of_value? hx hy, beq_iff_eq, Option.some.injEq,
    compare_eq_iff_eq, le_iff_lt_or_eq]

/-- below `2 ^ 53` a length is a number, so that an index can be compared with it -/
theorem out_of_range_iff {z : Int} (hx : x.value? = some (z : ℚ)) (hn : n < 2 ^ 53) :
    (x.lt .zero || (ofScaledInt n 0).le x) = true ↔ ¬ (0 ≤ z ∧ z < n) := by
  have hzero : zero.value? = some ((0 : Int) : ℚ) := by simp [value?, zero, Magnitude.toRat, Magnitude.zero]
  have hlength : (ofScaledInt n 0).value? = some ((n : Int) : ℚ) := value?_ofScaledInt (by omega)
  rw [Bool.or_eq_true, lt_iff_of_value? hx hzero, le_iff_of_value? hlength hx, Int.cast_lt, Int.cast_le]
  omega

/-! ## Indices -/

theorem exists_value?_of_isInteger {s : Bool} {m : Magnitude} (h : m.isInteger = true) :
    ∃ z : Int, (finite s m).value? = some (z : ℚ) := by
  have hm : m.toRat = m.floor := Magnitude.toRat_eq_natCast_iff.2 ⟨h, rfl⟩
  refine ⟨if s then -m.floor else m.floor, ?_⟩
  rw [value?, hm]
  cases s <;> simp

/-- a whole number is the place with its value, or out of range -/
theorem index_of_value? {z : Int} (h : x.value? = some (z : ℚ)) (hn : n < 2 ^ 53) : x.index n =
    if hz : 0 ≤ z ∧ z < n then .ok ⟨z.toNat, by omega⟩ else .error (.indexRange x n) := by
  have htests := out_of_range_iff h hn
  obtain ⟨s, m, rfl, hm, -⟩ := exists_of_value? h
  obtain ⟨hinteger, hfloor⟩ := Magnitude.toRat_eq_natCast_iff.1 hm
  simp only [index, hinteger, if_true, hfloor]
  by_cases hz : 0 ≤ z ∧ z < n
  · have hinside : z.natAbs < n := by omega
    rw [if_neg fun h => htests.1 h hz, dif_pos hinside, dif_pos hz]
    congr 2
    omega
  · rw [if_pos (htests.2 hz), dif_neg hz]

/-- everything else is no whole number -/
theorem index_of_not_whole (h : ∀ z : Int, x.value? ≠ some (z : ℚ)) : x.index n = .error (.indexFraction x) := by
  cases x with
  | nan => rfl
  | infinity s => rfl
  | finite s m =>
    have hinteger : m.isInteger = false := by
      rw [← Bool.not_eq_true]
      intro hinteger
      obtain ⟨z, hz⟩ := exists_value?_of_isInteger (s := s) hinteger
      exact h z hz
    simp [index, hinteger]

/-- an index is a place, out of range, or no whole number -/
theorem index_cases (x : Number) (n : Nat) : (∃ i, x.index n = .ok i) ∨ x.index n = .error (.indexRange x n) ∨
    x.index n = .error (.indexFraction x) := by
  cases x with
  | nan => exact .inr (.inr rfl)
  | infinity s => exact .inr (.inr rfl)
  | finite s m =>
    rw [index]
    split_ifs with hinteger hrange hinside
    · exact .inr (.inl rfl)
    · exact .inl ⟨_, rfl⟩
    · exact .inr (.inl rfl)
    · exact .inr (.inr rfl)

theorem index_eq_ok_iff (hn : n < 2 ^ 53) {i : Fin n} : x.index n = .ok i ↔ x.value? = some (i : ℚ) := by
  constructor
  · intro h
    by_cases hwhole : ∃ z : Int, x.value? = some (z : ℚ)
    · obtain ⟨z, hz⟩ := hwhole
      rw [index_of_value? hz hn] at h
      split_ifs at h with hrange
      obtain rfl := Except.ok.inj h
      rw [hz, Fin.val_mk, ← Int.cast_natCast, Int.toNat_of_nonneg hrange.1]
    · rw [index_of_not_whole (not_exists.1 hwhole)] at h
      cases h
  · intro h
    have hi : x.value? = some (((i : Nat) : Int) : ℚ) := by rw [h, Int.cast_natCast]
    have hrange : 0 ≤ ((i : Nat) : Int) ∧ ((i : Nat) : Int) < n := by omega
    rw [index_of_value? hi hn, dif_pos hrange]
    rfl

theorem index_eq_range_iff (hn : n < 2 ^ 53) : x.index n = .error (.indexRange x n) ↔
    ∃ z : Int, x.value? = some (z : ℚ) ∧ ¬ (0 ≤ z ∧ z < n) := by
  constructor
  · intro h
    by_cases hwhole : ∃ z : Int, x.value? = some (z : ℚ)
    · obtain ⟨z, hz⟩ := hwhole
      rw [index_of_value? hz hn] at h
      split_ifs at h with hrange
      exact ⟨z, hz, hrange⟩
    · rw [index_of_not_whole (not_exists.1 hwhole)] at h
      cases h
  · rintro ⟨z, hz, hrange⟩
    rw [index_of_value? hz hn, dif_neg hrange]

theorem index_eq_fraction_iff (hn : n < 2 ^ 53) : x.index n = .error (.indexFraction x) ↔
    x.value? = none ∨ ∃ q, x.value? = some q ∧ Int.fract q ≠ 0 := by
  constructor
  · intro h
    cases hx : x.value? with
    | none => exact .inl rfl
    | some q =>
      refine .inr ⟨q, rfl, fun hfract => ?_⟩
      obtain ⟨z, rfl⟩ := Int.fract_eq_zero_iff.1 hfract
      rw [index_of_value? hx hn] at h
      split_ifs at h
      cases h
  · intro h
    refine index_of_not_whole fun z hz => ?_
    rcases h with hnone | ⟨q, hq, hfract⟩
    · rw [hnone] at hz
      cases hz
    · rw [hq, Option.some.injEq] at hz
      exact hfract (by rw [hz, Int.fract_intCast])

end Number

/-! ## Subscripts -/

namespace Value

variable {t : Token} {items : List Value} {x : Number} {w : World}

theorem runIn_item_of_ok {i : Fin items.length} (h : x.index items.length = .ok i) :
    (item t items (.number x)).runIn w = (.ok (items.get i), w) := by
  simp only [item, h]
  rfl

theorem runIn_item_of_error {c : Cause} (h : x.index items.length = .error c) :
    (item t items (.number x)).runIn w = (.error ⟨c, t.location⟩, w) := by
  simp only [item, h]
  rfl

/-- what the item at an index comes to is told by what the index is -/
theorem runIn_item_number (t : Token) (items : List Value) (x : Number) (w : World) :
    ∃ r, (item t items (.number x)).runIn w = (r, w) ∧
      (∀ v, r = .ok v ↔ ∃ i, x.index items.length = .ok i ∧ items.get i = v) ∧
      ((∃ d, r = .error d ∧ d.cause.kind = .indexOutOfRange) ↔
        x.index items.length = .error (.indexRange x items.length)) ∧
      ((∃ d, r = .error d ∧ d.cause.kind = .type) ↔ x.index items.length = .error (.indexFraction x)) := by
  rcases x.index_cases items.length with ⟨i, hi⟩ | hc | hc
  · exact ⟨_, runIn_item_of_ok hi, by simp [hi]⟩
  · exact ⟨_, runIn_item_of_error hc, by simp [hc, Cause.kind]⟩
  · exact ⟨_, runIn_item_of_error hc, by simp [hc, Cause.kind]⟩

end Value

namespace Expr

variable {limit : Nat} {frame : FrameId} {t : Token} {a e : Expr} {w w₁ w₂ : World} {id : ArrayId}

theorem runIn_subscript {v : Value} (ha : (a.eval limit frame).runIn w = (.ok (.array id), w₁))
    (he : (e.eval limit frame).runIn w₁ = (.ok v, w₂)) :
    ((subscript t a e).eval limit frame).runIn w = (Value.item t (w₂.heap.items id) v).runIn w₂ := by
  rw [eval] at ha he ⊢
  rw [evalWith, Eval.runIn_bind_ok ha]
  exact Eval.runIn_bind_ok he _

/-- **Subscripts are exact.** A subscript gives item `i` exactly if the value of the index is `i`. It is out of range
exactly if the value is another whole number, and of the wrong type if the index is NaN, infinite or has a fractional
part. -/
theorem subscript_is_exact {items : List Value} {bits : UInt64}
    (ha : (a.eval limit frame).runIn w = (.ok (.array id), w₁))
    (he : (e.eval limit frame).runIn w₁ = (.ok (.number (.ofBits bits)), w₂))
    (hitems : w₂.heap.items id = items) (hlength : items.length < 2 ^ 53) :
    ∃ r, ((subscript t a e).eval limit frame).runIn w = (r, w₂) ∧
      (∀ i : Fin items.length, (Number.ofBits bits).index items.length = .ok i ↔
        Number.bitsValue? bits = some (i : ℚ)) ∧
      (∀ v, r = .ok v ↔ ∃ i : Fin items.length, Number.bitsValue? bits = some (i : ℚ) ∧ items.get i = v) ∧
      ((∃ d, r = .error d ∧ d.cause.kind = .indexOutOfRange) ↔
        ∃ z : Int, Number.bitsValue? bits = some (z : ℚ) ∧ ¬ (0 ≤ z ∧ z < items.length)) ∧
      ((∃ d, r = .error d ∧ d.cause.kind = .type) ↔
        Number.bitsValue? bits = none ∨ ∃ q, Number.bitsValue? bits = some q ∧ Int.fract q ≠ 0) ∧
      ∀ z : Int, Number.bitsValue? bits = some (z : ℚ) →
        (((Number.ofBits bits).lt .zero || (Number.ofScaledInt items.length 0).le (Number.ofBits bits)) = true ↔
          ¬ (0 ≤ z ∧ z < items.length)) := by
  subst hitems
  obtain ⟨r, hrun, hok, hrange, hfraction⟩ :=
    Value.runIn_item_number t (w₂.heap.items id) (Number.ofBits bits) w₂
  simp only [Number.index_eq_ok_iff hlength, Number.index_eq_range_iff hlength,
    Number.index_eq_fraction_iff hlength, Number.value?_ofBits] at hok hrange hfraction
  refine ⟨r, by rw [runIn_subscript ha he, hrun], ?_, hok, hrange, hfraction, ?_⟩
  · intro i
    rw [Number.index_eq_ok_iff hlength, Number.value?_ofBits]
  · intro z hz
    exact Number.out_of_range_iff ((Number.value?_ofBits bits).trans hz) hlength

/-- Negative zero selects the first item. -/
theorem subscript_is_exact_negative_zero :
    let t : Token := .unplaced
    let a : Expr := .array t [.boolean t true, .boolean t false]
    let e : Expr := .numeral t (.ofBits 0x8000000000000000)
    let w : World := ⟨#[], #[], []⟩
    let w' : World := ⟨#[], #[[.boolean true, .boolean false]], []⟩
    (a.eval 0 0).runIn w = (.ok (.array 0), w') ∧
      (e.eval 0 0).runIn w' = (.ok (.number (.ofBits 0x8000000000000000)), w') ∧
      Number.bitsValue? 0x8000000000000000 = some 0 ∧
      ((subscript t a e).eval 0 0).runIn w = (.ok (.boolean true), w') := by
  intro t a e w w'
  have ha : (a.eval 0 0).runIn w = (.ok (.array 0), w') := rfl
  have he : (e.eval 0 0).runIn w' = (.ok (.number (.ofBits 0x8000000000000000)), w') := rfl
  have hvalue : Number.bitsValue? 0x8000000000000000 = some 0 := by simp [Number.bitsValue?]
  obtain ⟨r, hrun, -, hok, -⟩ := subscript_is_exact (t := t) ha he rfl (by decide)
  have hr : r = .ok (.boolean true) := (hok _).2 ⟨⟨0, by decide⟩, by simpa using hvalue, rfl⟩
  exact ⟨ha, he, hvalue, by rw [hrun, hr]⟩

end Expr

end Treewalk
