/-
Numerals as they are spelled, and what they are read as.

A `Spelling` is a numeral of the language in its parts: digits, a fraction or none, an exponent or none. Its value is an
exact rational. The scanner's numbers are spellings and nothing else, and reading a spelling gives the nearest number,
but for one thing: a numeral that is out of range is taken for zero or for infinity by its spelling
(`Spelling.LooksSmall`), not by its value.
-/
import Treewalk.Proofs.Number.Nearest
import Treewalk.Proofs.Text

namespace Treewalk

namespace Numeral

open Bytes (Stops)

/-- an exponent part: its mark, a sign or none, and digits -/
structure Exponent where
  mark : UInt8
  sign : Bytes
  digits : Bytes
  mark_eq : mark = 101 ∨ mark = 69
  sign_eq : sign = [] ∨ sign = [43] ∨ sign = [45]
  digits_ne_nil : digits ≠ []
  isDigit_digits : ∀ b ∈ digits, isDigit b

namespace Exponent

def text (x : Exponent) : Bytes := x.mark :: (x.sign ++ x.digits)

def value (x : Exponent) : Int := if x.sign = [45] then -(digitsValue x.digits : Int) else digitsValue x.digits

end Exponent

/-- a numeral in its parts; without a fraction there is no point -/
structure Spelling where
  whole : Bytes
  fraction : Bytes
  exponent : Option Exponent
  whole_ne_nil : whole ≠ []
  isDigit_whole : ∀ b ∈ whole, isDigit b
  isDigit_fraction : ∀ b ∈ fraction, isDigit b

namespace Spelling

def fractionText (n : Spelling) : Bytes := if n.fraction = [] then [] else 46 :: n.fraction

def exponentText (n : Spelling) : Bytes := (n.exponent.map Exponent.text).getD []

def text (n : Spelling) : Bytes := n.whole ++ (n.fractionText ++ n.exponentText)

def exponentValue (n : Spelling) : Int := (n.exponent.map Exponent.value).getD 0

/-- the exact decimal value -/
def value (n : Spelling) : ℚ :=
  (digitsValue n.whole + digitsValue n.fraction / 10 ^ n.fraction.length) * 10 ^ n.exponentValue

/-- the numeral as one whole number and a power of ten -/
def written (n : Spelling) : Written :=
  ⟨false, digitsValue (n.whole ++ n.fraction), n.exponentValue - n.fraction.length⟩

theorem value_eq_written (n : Spelling) : n.value = n.written.digits * 10 ^ n.written.exponent := by
  have h10 : (10 : ℚ) ≠ 0 := by norm_num
  simp only [value, written, digitsValue_append]
  rw [zpow_sub₀ h10, zpow_natCast]
  push_cast
  field_simp

theorem exists_digit_text (n : Spelling) : ∃ d ds, n.text = d :: ds ∧ isDigit d = true := by
  obtain ⟨d, ds, hds⟩ := List.exists_cons_of_ne_nil n.whole_ne_nil
  exact ⟨d, ds ++ (n.fractionText ++ n.exponentText), by simp [text, hds], n.isDigit_whole d (by simp [hds])⟩

/-- without a digit that could be left out: no zero before other digits of the whole part, none at the end of the
fraction, and in the exponent, which has a sign, none in front -/
structure Canonical (n : Spelling) : Prop where
  whole : n.whole = [48] ∨ n.whole.head? ≠ some 48
  fraction : n.fraction.getLast? ≠ some 48
  exponent : ∀ x ∈ n.exponent, x.sign ≠ [] ∧ x.digits.head? ≠ some 48

end Spelling

/-! ## Reading a spelling -/

/-- a byte that a numeral can go on with -/
def continues (b : UInt8) : Bool := isDigit b || b = 46 || b = 101 || b = 69

variable {t rest : Bytes}

theorem Stops.digit (h : Stops continues rest) : Stops isDigit rest := by
  intro b hb
  have := h b hb
  simp only [continues, Bool.or_eq_false_iff] at this
  exact this.1.1.1

theorem stops_isDigit_exponentText (n : Spelling) (h : Stops continues rest) :
    Stops isDigit (n.exponentText ++ rest) := by
  intro b hb
  cases he : n.exponent with
  | none => exact (Stops.digit h) b (by simpa [Spelling.exponentText, he] using hb)
  | some x =>
    obtain rfl : x.mark = b := by simpa [Spelling.exponentText, he, Exponent.text] using hb
    rcases x.mark_eq with h | h <;> rw [h] <;> decide

theorem ne_sign_of_isDigit {b : UInt8} (h : isDigit b) : b ≠ 45 ∧ b ≠ 43 ∧ b ≠ 46 ∧ b ≠ 101 ∧ b ≠ 69 := by
  refine ⟨?_, ?_, ?_, ?_, ?_⟩ <;> rintro rfl <;> exact absurd h (by decide)

theorem exponentPart_text (n : Spelling) (h : Stops continues rest) :
    exponentPart (n.exponentText ++ rest) = (n.exponentValue, rest) := by
  cases he : n.exponent with
  | none =>
    simp only [Spelling.exponentText, Spelling.exponentValue, he, Option.map_none, Option.getD_none, List.nil_append]
    cases rest with
    | nil => rfl
    | cons b r =>
      have hb := h b rfl
      simp only [continues, Bool.or_eq_false_iff, decide_eq_false_iff_not] at hb
      simp [exponentPart, hb.1.2, hb.2]
  | some x =>
    obtain ⟨d, ds, hds⟩ := List.exists_cons_of_ne_nil x.digits_ne_nil
    have hd := ne_sign_of_isDigit (x.isDigit_digits d (by simp [hds]))
    have htake := Bytes.takeWhile_append x.isDigit_digits (Stops.digit h)
    have hdrop := Bytes.dropWhile_append x.isDigit_digits (Stops.digit h)
    simp only [Spelling.exponentText, Spelling.exponentValue, he, Option.map_some, Option.getD_some, Exponent.text,
      Exponent.value, List.cons_append, exponentPart, if_pos x.mark_eq]
    rcases x.sign_eq with hs | hs | hs
    · rw [hs, List.nil_append, hds, List.cons_append]
      simp only [if_neg hd.1, if_neg hd.2.1]
      rw [← List.cons_append, ← hds, htake, hdrop]
      simp [x.digits_ne_nil]
    · simp [hs, htake, hdrop, x.digits_ne_nil]
    · simp [hs, htake, hdrop, x.digits_ne_nil]

theorem stops_isDigit_fractionText (n : Spelling) (h : Stops continues rest) :
    Stops isDigit (n.fractionText ++ (n.exponentText ++ rest)) := by
  unfold Spelling.fractionText
  split_ifs
  · exact stops_isDigit_exponentText n h
  · exact Bytes.stops_cons (by decide)

/-- what the exponent part starts with, or what follows, is no point -/
theorem head_exponentText_ne (n : Spelling) (h : Stops continues rest) {r : Bytes} :
    n.exponentText ++ rest ≠ 46 :: r := by
  intro heq
  cases he : n.exponent with
  | none =>
    have := h 46 (by simpa [Spelling.exponentText, he] using congrArg List.head? heq)
    exact absurd this (by decide)
  | some x =>
    have hm : x.mark = 46 := by simpa [Spelling.exponentText, he, Exponent.text] using congrArg List.head? heq
    rcases x.mark_eq with h | h <;> rw [h] at hm <;> exact absurd hm (by decide)

theorem Exponent.text_injective : Function.Injective Exponent.text := by
  intro x y h
  have hsign : ∀ z : Exponent, ∀ b ∈ z.sign, (!isDigit b) = true := by
    intro z b hb
    rcases z.sign_eq with hz | hz | hz <;> rw [hz] at hb
    · cases hb
    · rw [List.mem_singleton.1 hb]
      decide
    · rw [List.mem_singleton.1 hb]
      decide
  have hdigits : ∀ z : Exponent, Stops (fun b => !isDigit b) z.digits := by
    intro z b hb
    simp [z.isDigit_digits b (List.mem_of_mem_head? hb)]
  obtain ⟨hmark, hrest⟩ := List.cons.inj h
  obtain ⟨hs, hd⟩ := Bytes.append_inj_of_stops (hsign x) (hsign y) (hdigits x) (hdigits y) hrest
  cases x
  cases y
  simp_all

theorem Spelling.exponent_eq {n m : Spelling} (h : n.exponentText = m.exponentText) : n.exponent = m.exponent := by
  unfold Spelling.exponentText at h
  cases hn : n.exponent with
  | none =>
    cases hm : m.exponent with
    | none => rfl
    | some y => simp [hn, hm, Exponent.text] at h
  | some x =>
    cases hm : m.exponent with
    | none => simp [hn, hm, Exponent.text] at h
    | some y =>
      rw [hn, hm] at h
      rw [Exponent.text_injective h]

/-- **A text spells one numeral at most.** -/
theorem Spelling.text_injective : Function.Injective Spelling.text := by
  intro n m h
  have hstop : Stops continues [] := by simp [Stops]
  have hn := stops_isDigit_fractionText n hstop
  have hm := stops_isDigit_fractionText m hstop
  have hn' := stops_isDigit_exponentText n hstop
  have hm' := stops_isDigit_exponentText m hstop
  have hnp {r : Bytes} := head_exponentText_ne n hstop (r := r)
  have hmp {r : Bytes} := head_exponentText_ne m hstop (r := r)
  simp only [List.append_nil] at hn hm hn' hm' hnp hmp
  obtain ⟨hwhole, hrest⟩ := Bytes.append_inj_of_stops n.isDigit_whole m.isDigit_whole hn hm h
  -- a point tells whether there is a fraction
  have hparts : n.fraction = m.fraction ∧ n.exponentText = m.exponentText := by
    unfold Spelling.fractionText at hrest
    split_ifs at hrest with hnf hmf hmf
    · exact ⟨hnf.trans hmf.symm, hrest⟩
    · exact absurd hrest hnp
    · exact absurd hrest.symm hmp
    · exact Bytes.append_inj_of_stops n.isDigit_fraction m.isDigit_fraction hn' hm' (List.cons.inj hrest).2
  have hexponent := Spelling.exponent_eq hparts.2
  cases n
  cases m
  simp_all

theorem decimal?_text (n : Spelling) (h : Stops continues rest) :
    decimal? false (n.text ++ rest) = some (n.written, rest) := by
  have htext : n.text ++ rest = n.whole ++ (n.fractionText ++ (n.exponentText ++ rest)) := by
    simp [Spelling.text]
  have htake := Bytes.takeWhile_append n.isDigit_whole (stops_isDigit_fractionText n h)
  have hdrop := Bytes.dropWhile_append n.isDigit_whole (stops_isDigit_fractionText n h)
  have hexp := exponentPart_text n h
  unfold decimal?
  rw [htext, htake, hdrop]
  by_cases hf : n.fraction = []
  · have hft : n.fractionText ++ (n.exponentText ++ rest) = n.exponentText ++ rest := by
      simp [Spelling.fractionText, hf]
    rw [hft]
    simp only
    split
    · rename_i r' heq
      exact absurd heq (head_exponentText_ne n h)
    · simp [hexp, n.whole_ne_nil, Spelling.written, hf]
  · have hft : n.fractionText ++ (n.exponentText ++ rest) = 46 :: (n.fraction ++ (n.exponentText ++ rest)) := by
      simp [Spelling.fractionText, hf]
    have htake' := Bytes.takeWhile_append n.isDigit_fraction (stops_isDigit_exponentText n h)
    have hdrop' := Bytes.dropWhile_append n.isDigit_fraction (stops_isDigit_exponentText n h)
    rw [hft]
    simp only [htake', hdrop', hexp]
    simp [n.whole_ne_nil, Spelling.written]

theorem scan?_text (n : Spelling) : scan? n.text = some (n.written.scanned, []) := by
  obtain ⟨d, ds, hds⟩ := List.exists_cons_of_ne_nil n.whole_ne_nil
  have hd := ne_sign_of_isDigit (n.isDigit_whole d (by simp [hds]))
  have hdec : decimal? false (n.text ++ []) = some (n.written, []) := decimal?_text n (by simp [Stops])
  have hcons : n.text = d :: (ds ++ (n.fractionText ++ n.exponentText)) := by simp [Spelling.text, hds]
  rw [List.append_nil] at hdec
  unfold scan?
  split
  rename_i negative r heq
  split at heq
  · rename_i r' hr
    rw [hcons] at hr
    exact absurd (List.cons.inj hr).1 hd.1
  · cases heq
    rw [hdec]

/-- how an out-of-range numeral is taken for a small one: by a minus in its exponent, or by `0.` without an exponent -/
def Spelling.LooksSmall (n : Spelling) : Prop :=
  match n.exponent with
  | some x => x.sign = [45]
  | none => n.whole = [48] ∧ n.fraction ≠ []

theorem looksSmall_text (n : Spelling) : looksSmall n.text = true ↔ n.LooksSmall := by
  have hbefore : ∀ b ∈ n.whole ++ n.fractionText, decide (b ≠ 101 ∧ b ≠ 69) = true := by
    intro b hb
    have hdigit : isDigit b ∨ b = 46 := by
      rcases List.mem_append.1 hb with hb | hb
      · exact .inl (n.isDigit_whole b hb)
      · unfold Spelling.fractionText at hb
        split_ifs at hb with hf
        · cases hb
        · rcases List.mem_cons.1 hb with rfl | hb
          · exact .inr rfl
          · exact .inl (n.isDigit_fraction b hb)
    rcases hdigit with h | rfl
    · have := ne_sign_of_isDigit h
      simp [this]
    · decide
  have htext : n.text = n.whole ++ n.fractionText ++ n.exponentText := by simp [Spelling.text]
  unfold looksSmall Spelling.LooksSmall
  rw [htext, List.dropWhile_append_of_pos hbefore]
  cases he : n.exponent with
  | none =>
    obtain ⟨d, ds, hds⟩ := List.exists_cons_of_ne_nil n.whole_ne_nil
    simp only [Spelling.exponentText, he, Option.map_none, Option.getD_none, List.dropWhile_nil, List.append_nil,
      decide_eq_true_eq, hds]
    rw [show bytes "0." = [48, 46] by decide, List.cons_append, List.cons_prefix_cons]
    cases ds with
    | nil =>
      by_cases hf : n.fraction = [] <;> simp [Spelling.fractionText, hf, eq_comm]
    | cons d' ds =>
      have hd' := ne_sign_of_isDigit (n.isDigit_whole d' (by simp [hds]))
      simp [hd'.2.2.1.symm]
  | some x =>
    obtain ⟨d, ds, hds⟩ := List.exists_cons_of_ne_nil x.digits_ne_nil
    have hd := ne_sign_of_isDigit (x.isDigit_digits d (by simp [hds]))
    have hmark : decide (x.mark ≠ 101 ∧ x.mark ≠ 69) = false := by
      rcases x.mark_eq with h | h <;> rw [h] <;> decide
    simp only [Spelling.exponentText, he, Option.map_some, Option.getD_some, Exponent.text]
    rw [List.dropWhile_cons_of_neg (by simpa using hmark)]
    rcases x.sign_eq with hs | hs | hs
    · simp [hs, hds, hd.1]
    · simp [hs]
    · simp [hs]

/-! ## Values in and out of range -/

/-- the middle between zero and the least magnitude above it -/
def underflow : ℚ := 2 ^ (-1075 : Int)

theorem zero_rounds {q : ℚ} (h0 : 0 ≤ q) (h : q ≤ underflow) : Magnitude.zero.Rounds q := by
  have hp := two_zpow_pos Magnitude.minExponent
  have hu : underflow = 2 * ((2 : ℚ) ^ Magnitude.minExponent / 4) := by
    rw [underflow, Magnitude.minExponent, show (-1074 : Int) = -1075 + 1 by norm_num, two_zpow_succ]
    ring
  have hlower : Magnitude.zero.lower = -2 * (2 ^ Magnitude.minExponent / 4) := by
    rw [Magnitude.lower, show Magnitude.zero.quartersBelow = 2 by decide]
    simp [Magnitude.zero]
  have hupper : Magnitude.zero.upper = 2 * (2 ^ Magnitude.minExponent / 4) := by
    simp [Magnitude.upper, Magnitude.zero]
  generalize (2 : ℚ) ^ Magnitude.minExponent = p at *
  exact ⟨by linarith, by linarith, fun h => absurd h (by decide)⟩

theorem eight_zpow (e : Int) : (8 : ℚ) ^ e = 2 ^ (3 * e) := by
  rw [zpow_mul]
  norm_num

theorem overflow_le_ten_zpow : Magnitude.overflow ≤ 10 ^ (400 : Int) :=
  calc Magnitude.overflow ≤ 2 ^ 54 * 2 ^ (970 : Int) :=
        mul_le_mul_of_nonneg_right (by norm_num) (two_zpow_pos _).le
    _ = 2 ^ (54 + 970 : Int) := by
        rw [zpow_add₀ (by norm_num), show (2 : ℚ) ^ (54 : Int) = 2 ^ 54 from zpow_natCast 2 54]
    _ ≤ 2 ^ (3 * 400 : Int) := Magnitude.two_zpow_le (by norm_num)
    _ = 8 ^ (400 : Int) := (eight_zpow 400).symm
    _ ≤ 10 ^ (400 : Int) := zpow_le_zpow_left₀ (by norm_num) (by norm_num) (by norm_num)

theorem ten_zpow_le_underflow : (10 : ℚ) ^ (-400 : Int) ≤ underflow :=
  calc (10 : ℚ) ^ (-400 : Int) ≤ 8 ^ (-400 : Int) := by
        rw [zpow_neg, zpow_neg]
        exact inv_anti₀ (by positivity) (zpow_le_zpow_left₀ (by norm_num) (by norm_num) (by norm_num))
    _ = 2 ^ (3 * -400 : Int) := eight_zpow (-400)
    _ ≤ underflow := Magnitude.two_zpow_le (by norm_num)

/-- the place of the first digit bounds a decimal -/
theorem digits_bounds {n : Nat} (hn : n ≠ 0) (e : Int) :
    (10 : ℚ) ^ (e + (Nat.toDigits 10 n).length - 1) ≤ n * 10 ^ e ∧
      (n * 10 ^ e : ℚ) < 10 ^ (e + (Nat.toDigits 10 n).length) := by
  have hpos : 0 < (Nat.toDigits 10 n).length := Nat.length_toDigits_pos
  have hlt : n < 10 ^ (Nat.toDigits 10 n).length :=
    (Nat.length_toDigits_le_iff (by decide) hpos).1 le_rfl
  have hle : 10 ^ ((Nat.toDigits 10 n).length - 1) ≤ n := by
    by_cases h1 : (Nat.toDigits 10 n).length = 1
    · rw [h1]
      exact Nat.one_le_iff_ne_zero.2 hn
    · by_contra h
      have := (Nat.length_toDigits_le_iff (b := 10) (by decide) (by omega)).2 (not_le.1 h)
      omega
  generalize (Nat.toDigits 10 n).length = k at *
  obtain ⟨j, rfl⟩ := Nat.exists_eq_add_of_lt hpos
  have h10 : (0 : ℚ) < 10 ^ e := by positivity
  constructor
  · rw [show e + ((0 + j + 1 : Nat) : Int) - 1 = j + e by push_cast; ring, zpow_add₀ (by norm_num), zpow_natCast]
    exact mul_le_mul_of_nonneg_right (by exact_mod_cast (by simpa using hle)) h10.le
  · rw [add_comm, zpow_add₀ (by norm_num), zpow_natCast]
    exact mul_lt_mul_of_pos_right (by exact_mod_cast hlt) h10

theorem ten_zpow_eq_div (e : Int) : (10 : ℚ) ^ e = (10 ^ e.toNat : Nat) / (10 ^ (-e).toNat : Nat) :=
  zpow_eq_div 10 (by decide) e

theorem ratio_eq (n : Nat) (e : Int) :
    ((n * 10 ^ e.toNat : Nat) / (10 ^ (-e).toNat : Nat) : ℚ) = n * 10 ^ e := by
  rw [ten_zpow_eq_div]
  push_cast
  ring

/-- a value whose nearest number is infinity, or zero although it is not zero itself -/
def OutOfRange (q : ℚ) : Prop := Magnitude.overflow ≤ q ∨ 0 < q ∧ q ≤ underflow

theorem overflow_pos : 0 < Magnitude.overflow := mul_pos (by norm_num) (two_zpow_pos _)

theorem underflow_lt_overflow : underflow < Magnitude.overflow :=
  calc underflow < 2 ^ (970 : Int) := zpow_lt_zpow_right₀ (by norm_num) (by norm_num)
    _ ≤ Magnitude.overflow := le_mul_of_one_le_left (two_zpow_pos _).le (by norm_num)

theorem le_underflow_of_significand_eq_zero {x : Magnitude} {q : ℚ} (hx : x.significand = 0) (h : x.Rounds q) :
    q ≤ underflow := by
  have he : x.exponent = -1075 + 1 := x.canonical.2.2.2 (by rw [hx]; decide)
  refine h.le_upper.trans (le_of_eq ?_)
  rw [Magnitude.upper, hx, he, two_zpow_succ, underflow]
  generalize (2 : ℚ) ^ (-1075 : Int) = p
  push_cast
  ring

/-- A decimal is out of range or given its nearest number. -/
theorem scanned_spec (w : Written) (hw : w.negative = false) :
    (w.scanned = .outOfRange ∧ OutOfRange (w.digits * 10 ^ w.exponent)) ∨
      ∃ x, w.scanned = .value x ∧ x.IsNearest (w.digits * 10 ^ w.exponent) ∧
        ¬ OutOfRange (w.digits * 10 ^ w.exponent) := by
  simp only [Written.scanned, hw]
  split_ifs with h0 hfar
  · refine .inr ⟨_, rfl, ?_, ?_⟩ <;> rw [h0, Nat.cast_zero, zero_mul]
    · exact Number.isNearest_of_rounds (zero_rounds le_rfl (two_zpow_pos _).le)
    · exact fun h => h.elim (not_le.2 overflow_pos) (fun h => lt_irrefl _ h.1)
  · obtain ⟨hlow, hup⟩ := digits_bounds h0 w.exponent
    refine .inl ⟨rfl, ?_⟩
    rcases hfar with hfar | hfar
    · refine .inl (overflow_le_ten_zpow.trans (le_trans ?_ hlow))
      exact zpow_le_zpow_right₀ (by norm_num) (by omega)
    · refine .inr ⟨by positivity, (hup.le.trans ?_).trans ten_zpow_le_underflow⟩
      exact zpow_le_zpow_right₀ (by norm_num) (by omega)
  · have hpos : (0 : ℚ) < w.digits * 10 ^ w.exponent := by positivity
    have hden : 0 < 10 ^ (-w.exponent).toNat := by positivity
    obtain ⟨hsome, hnone⟩ := Magnitude.ofRatio?_spec (w.digits * 10 ^ w.exponent.toNat) hden
    rw [ratio_eq] at hsome hnone
    cases hx : Magnitude.ofRatio? (w.digits * 10 ^ w.exponent.toNat) (10 ^ (-w.exponent).toNat) with
    | none => exact .inl ⟨rfl, .inl (hnone hx)⟩
    | some x =>
      have hr := hsome x hx
      by_cases hs : x.significand = 0
      · exact .inl ⟨if_pos hs, .inr ⟨hpos, le_underflow_of_significand_eq_zero hs hr⟩⟩
      · refine .inr ⟨_, if_neg hs, Number.isNearest_of_rounds hr, ?_⟩
        rintro (h | ⟨-, h⟩)
        · exact not_le.2 hr.lt_overflow h
        · have := (zero_rounds hpos.le h).nearest.eq hr.nearest
          exact hs (this ▸ rfl)

/-! ## The value of a numeral -/

/-- an out-of-range numeral whose spelling points the wrong way -/
def Spelling.Misread (n : Spelling) : Prop :=
  Magnitude.overflow ≤ n.value ∧ n.LooksSmall ∨ (0 < n.value ∧ n.value ≤ underflow) ∧ ¬ n.LooksSmall

/-- **Reading a spelling.** The nearest number is read, unless the spelling points the wrong way: then a large decimal
is read as zero, and a small one as infinity. -/
theorem read?_text (n : Spelling) :
    ∃ x, read? n.text = some x ∧ (x.IsNearest n.value ↔ ¬ n.Misread) ∧
      (n.Misread → (Magnitude.overflow ≤ n.value ∧ x = .zero) ∨ (n.value ≤ underflow ∧ x = .infinity false)) := by
  have hsmall := looksSmall_text n
  have hlt := underflow_lt_overflow
  unfold read?
  rw [scan?_text]
  rcases scanned_spec n.written rfl with ⟨hs, hout⟩ | ⟨x, hs, hx, hin⟩
  · rw [hs]
    rw [← n.value_eq_written] at hout
    refine ⟨_, rfl, ?_⟩
    by_cases hl : n.LooksSmall
    · rw [if_pos (hsmall.2 hl)]
      rcases hout with h | ⟨h0, h⟩
      · exact ⟨iff_of_false (fun hn => not_le.2 hn.1 h) (fun hn => hn (.inl ⟨h, hl⟩)), fun _ => .inl ⟨h, rfl⟩⟩
      · have hgood : ¬ n.Misread := by
          rintro (⟨h', -⟩ | ⟨-, h'⟩)
          · exact not_le.2 hlt (h'.trans h)
          · exact h' hl
        exact ⟨iff_of_true (Number.isNearest_of_rounds (zero_rounds h0.le h)) hgood, fun h' => absurd h' hgood⟩
    · rw [if_neg (mt hsmall.1 hl)]
      rcases hout with h | h
      · have hgood : ¬ n.Misread := by
          rintro (⟨-, h'⟩ | ⟨h', -⟩)
          · exact hl h'
          · exact not_le.2 hlt (h.trans h'.2)
        exact ⟨iff_of_true h hgood, fun h' => absurd h' hgood⟩
      · exact ⟨iff_of_false (fun hn => not_le.2 hlt (hn.trans h.2)) (fun hn => hn (.inr ⟨h, hl⟩)),
          fun _ => .inr ⟨h.2, rfl⟩⟩
  · rw [hs]
    rw [← n.value_eq_written] at hx hin
    have hgood : ¬ n.Misread := by
      rintro (⟨h, -⟩ | ⟨h, -⟩)
      · exact hin (.inl h)
      · exact hin (.inr h)
    exact ⟨x, rfl, iff_of_true hx hgood, fun h => absurd h hgood⟩

end Numeral

end Treewalk
