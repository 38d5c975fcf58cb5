/-
The layout of digits as a text.

The digits of a number's shortest decimal have no zero at either end (`Significant`). Each layout of such digits is a
canonical spelling with their value, and it has an exponent outside the plain range only (`exists_spelling_layout`).
Decimals without a zero at the end have different values, so the digits and the exponent can be told from the text
(`layout_inj`). `Number.text` is this layout of the shortest decimal after the sign: it is canonical and exact
(`text_is_canonical`), and without the sign it reads back (`exists_spelling_text`).
-/
import Treewalk.Number.Layout
import Treewalk.Proofs.Number.Shortest

namespace Treewalk

namespace Decimal

open Numeral

/-- digits that neither start with a zero nor, if there are several, end in one -/
structure Significant (ds : Bytes) : Prop where
  isDigit : ∀ b ∈ ds, isDigit b
  ne_nil : ds ≠ []
  head : ds.head? ≠ some 48
  last : 1 < ds.length → ds.getLast? ≠ some 48

variable {ds : Bytes}

theorem Significant.getLast?_ne (h : Significant ds) : ds.getLast? ≠ some 48 := by
  obtain ⟨d, r, rfl⟩ := List.exists_cons_of_ne_nil h.ne_nil
  cases r with
  | nil => exact h.head
  | cons d' r => exact h.last (by simp)

theorem significant_ofNat {n : Nat} (hn : n % 10 ≠ 0) : Significant (Bytes.ofNat n) where
  isDigit := Bytes.isDigit_of_mem_ofNat
  ne_nil := Bytes.ofNat_ne_nil n
  head := Bytes.head?_ofNat_ne (by rintro rfl; exact hn rfl)
  last := by
    intro _ h
    rw [Bytes.getLast?_ofNat] at h
    have hlt : n % 10 < 10 := Nat.mod_lt n (by decide)
    generalize n % 10 = d at *
    interval_cases d
    · exact hn rfl
    all_goals exact absurd h (by decide)

/-! ## Spellings -/

theorem isDigit_zeros (k : Nat) : ∀ b ∈ List.replicate k (48 : UInt8), Numeral.isDigit b := by
  intro b hb
  rw [List.eq_of_mem_replicate hb]
  rfl

/-- the digits in plain notation spell their value -/
theorem exists_spelling_plain (h : Significant ds) (point : Int) :
    ∃ n : Spelling, plain ds point = n.text ∧ n.value = digitsValue ds * 10 ^ (point - ds.length) ∧
      n.exponent = none ∧ n.Canonical := by
  unfold plain
  simp only
  split_ifs with hlong hpos
  · -- no point: zeros stand for the places up to it
    obtain ⟨k, hk⟩ : ∃ k : Nat, point - ds.length = k := ⟨(point - ds.length).toNat, by omega⟩
    have hdigit : ∀ b ∈ ds ++ List.replicate k 48, Numeral.isDigit b := fun b hb =>
      (List.mem_append.1 hb).elim (h.isDigit b) (isDigit_zeros k b)
    refine ⟨⟨ds ++ List.replicate k 48, [], none, by simp [h.ne_nil], hdigit, by simp⟩, ?_, ?_, rfl, ?_⟩
    · simp [Spelling.text, Spelling.fractionText, Spelling.exponentText, hk]
    · rw [Spelling.value_eq_written]
      simp [Spelling.written, Spelling.exponentValue, digitsValue_append, digitsValue_replicate_zero, hk]
    · refine ⟨.inr ?_, by simp, by simp⟩
      rw [List.head?_append_of_ne_nil _ h.ne_nil]
      exact h.head
  · -- the point stands between the digits
    obtain ⟨k, rfl⟩ : ∃ k : Nat, point = k := ⟨point.toNat, by omega⟩
    have hlt : k < ds.length := by exact_mod_cast not_le.1 hlong
    have hk : k ≠ 0 := by omega
    have hdrop : ds.drop k ≠ [] := by simpa using hlt
    refine ⟨⟨ds.take k, ds.drop k, none, by simp [h.ne_nil, hk], fun b hb => h.isDigit b (List.mem_of_mem_take hb),
      fun b hb => h.isDigit b (List.mem_of_mem_drop hb)⟩, ?_, ?_, rfl, ?_⟩
    · simp [Spelling.text, Spelling.fractionText, Spelling.exponentText, hdrop, show bytes "." = [46] by decide]
    · rw [Spelling.value_eq_written]
      simp only [Spelling.written, Spelling.exponentValue, List.take_append_drop, List.length_drop, Option.map_none,
        Option.getD_none]
      congr 2
      omega
    · refine ⟨.inr ?_, ?_, by simp⟩
      · rw [List.head?_take, if_neg hk]
        exact h.head
      · rw [List.getLast?_drop, if_neg (by omega)]
        exact h.getLast?_ne
  · -- zeros stand between the point and the digits
    obtain ⟨k, hk⟩ : ∃ k : Nat, -point = k := ⟨(-point).toNat, by omega⟩
    have hdigit : ∀ b ∈ List.replicate k 48 ++ ds, Numeral.isDigit b := fun b hb =>
      (List.mem_append.1 hb).elim (isDigit_zeros k b) (h.isDigit b)
    refine ⟨⟨[48], List.replicate k 48 ++ ds, none, by simp, List.forall_mem_singleton.2 rfl, hdigit⟩, ?_, ?_, rfl, ?_⟩
    · simp [Spelling.text, Spelling.fractionText, Spelling.exponentText, h.ne_nil, hk,
        show bytes "0." = [48, 46] by decide]
    · rw [Spelling.value_eq_written]
      simp only [Spelling.written, Spelling.exponentValue, List.length_append, List.length_replicate]
      have hvalue : digitsValue ([48] ++ (List.replicate k 48 ++ ds)) = digitsValue ds :=
        (digitsValue_zeros_append 1 _).trans (digitsValue_zeros_append k ds)
      rw [hvalue, Option.map_none, Option.getD_none]
      congr 2
      omega
    · refine ⟨.inl rfl, ?_, by simp⟩
      rw [List.getLast?_append_of_ne_nil _ h.ne_nil]
      exact h.getLast?_ne

/-- the digits in scientific notation spell their value -/
theorem exists_spelling_scientific (h : Significant ds) {e : Int} (he0 : e ≠ 0) :
    ∃ n : Spelling, scientific ds e = n.text ∧ n.value = digitsValue ds * 10 ^ (e + 1 - ds.length) ∧
      n.exponent.isSome ∧ n.Canonical := by
  obtain ⟨d, r, rfl⟩ := List.exists_cons_of_ne_nil h.ne_nil
  let x : Exponent := ⟨101, [if e < 0 then 45 else 43], Bytes.ofNat e.natAbs, .inl rfl, by split_ifs <;> simp,
    Bytes.ofNat_ne_nil _, Bytes.isDigit_of_mem_ofNat⟩
  have hx : x.value = e := by
    have hdigits : digitsValue x.digits = e.natAbs := Bytes.digitsValue_ofNat _
    by_cases he : e < 0
    · rw [Exponent.value, if_pos (by simp [x, he]), hdigits]
      omega
    · rw [Exponent.value, if_neg (by simp [x, he]), hdigits]
      omega
  refine ⟨⟨[d], r, some x, by simp, by simpa using h.isDigit d, fun b hb => h.isDigit b (List.mem_cons_of_mem _ hb)⟩,
    ?_, ?_, rfl, ?_⟩
  · by_cases hr : r = [] <;> by_cases he : e < 0 <;>
      simp [scientific, Spelling.text, Spelling.fractionText, Spelling.exponentText, Exponent.text, x, hr, he,
        show bytes "." = [46] by decide, show bytes "e-" = [101, 45] by decide, show bytes "e+" = [101, 43] by decide]
  · rw [Spelling.value_eq_written]
    simp only [Spelling.written, Spelling.exponentValue, Option.map_some, Option.getD_some, hx, List.singleton_append]
    congr 2
    simp
  · refine ⟨.inr h.head, ?_, ?_⟩
    · cases r with
      | nil => simp
      | cons d' r => exact h.last (by simp)
    · rintro y ⟨⟩
      exact ⟨List.cons_ne_nil _ _, Bytes.head?_ofNat_ne (Int.natAbs_ne_zero.2 he0)⟩

/-- **A layout is a canonical spelling of the digits' value.** -/
theorem exists_spelling_layout (h : Significant ds) (x : Int) :
    ∃ n : Spelling, layout ds x = n.text ∧ n.value = digitsValue ds * 10 ^ (x + 1 - ds.length) ∧
      (n.exponent.isSome ↔ x < plainFrom ∨ plainTo ≤ x) ∧ n.Canonical := by
  unfold layout
  split_ifs with hplain
  · obtain ⟨n, hn, hv, he, hc⟩ := exists_spelling_plain h (x + 1)
    refine ⟨n, hn, hv, ?_, hc⟩
    rw [he]
    exact iff_of_false (by simp) (by omega)
  · obtain ⟨n, hn, hv, he, hc⟩ := exists_spelling_scientific h (show x ≠ 0 by rintro rfl; exact hplain (by decide))
    exact ⟨n, hn, hv, iff_of_true he (by omega), hc⟩

/-! ## Digits and exponent from the text -/

/-- of two decimals with one value, the one of the lesser exponent has the other's digits and zeros behind them -/
theorem digits_eq_of_value_eq {d d' : Decimal} {k : Nat} (hk : d'.exponent = d.exponent + k)
    (h : (d.digits * 10 ^ d.exponent : ℚ) = d'.digits * 10 ^ d'.exponent) : d.digits = d'.digits * 10 ^ k := by
  have hpos : (0 : ℚ) < 10 ^ d.exponent := by positivity
  rw [hk, zpow_add₀ (by norm_num), zpow_natCast, mul_comm ((10 : ℚ) ^ d.exponent), ← mul_assoc] at h
  exact_mod_cast mul_right_cancel₀ hpos.ne' h

theorem exponent_le_of_value_eq {d d' : Decimal} (hd : d.digits % 10 ≠ 0)
    (h : (d.digits * 10 ^ d.exponent : ℚ) = d'.digits * 10 ^ d'.exponent) : d'.exponent ≤ d.exponent := by
  by_contra hlt
  obtain ⟨k, hk⟩ : ∃ k : Nat, d'.exponent = d.exponent + (k + 1 : Nat) :=
    ⟨(d'.exponent - d.exponent - 1).toNat, by omega⟩
  rw [digits_eq_of_value_eq hk h, pow_succ, ← mul_assoc, Nat.mul_mod_left] at hd
  exact hd rfl

/-- decimals without a zero at the end have different values -/
theorem eq_of_value_eq {d d' : Decimal} (hd : d.digits % 10 ≠ 0) (hd' : d'.digits % 10 ≠ 0)
    (h : (d.digits * 10 ^ d.exponent : ℚ) = d'.digits * 10 ^ d'.exponent) : d = d' := by
  have hexp : d'.exponent = d.exponent :=
    le_antisymm (exponent_le_of_value_eq hd h) (exponent_le_of_value_eq hd' h.symm)
  have hdigits := digits_eq_of_value_eq (k := 0) (by simpa using hexp) h
  cases d
  cases d'
  simp_all

theorem Significant.digitsValue_mod_ten_ne (h : Significant ds) : digitsValue ds % 10 ≠ 0 :=
  Numeral.digitsValue_mod_ten_ne h.ne_nil h.isDigit h.getLast?_ne

/-- **Digits and exponent can be told from the text.** -/
theorem layout_inj {ds' : Bytes} {x x' : Int} (h : Significant ds) (h' : Significant ds')
    (heq : layout ds x = layout ds' x') : ds = ds' ∧ x = x' := by
  obtain ⟨n, hn, hv, -⟩ := exists_spelling_layout h x
  obtain ⟨n', hn', hv', -⟩ := exists_spelling_layout h' x'
  obtain rfl : n = n' := Spelling.text_injective (hn.symm.trans (heq.trans hn'))
  rw [hv] at hv'
  have hdecimal : (⟨digitsValue ds, x + 1 - ds.length⟩ : Decimal) = ⟨digitsValue ds', x' + 1 - ds'.length⟩ :=
    eq_of_value_eq h.digitsValue_mod_ten_ne h'.digitsValue_mod_ten_ne hv'
  obtain ⟨hdigits, hexp⟩ := Decimal.mk.inj hdecimal
  have hds : ds = ds' := by
    rw [← Bytes.ofNat_digitsValue h.ne_nil h.isDigit h.head, hdigits,
      Bytes.ofNat_digitsValue h'.ne_nil h'.isDigit h'.head]
  subst hds
  exact ⟨rfl, by omega⟩

end Decimal

namespace Number

open Decimal (Significant layout)

/-! ## The text of a number -/

theorem significant_shortest {x : Magnitude} (hx : x.significand ≠ 0) : Significant (Bytes.ofNat x.shortest.digits) :=
  Decimal.significant_ofNat (Magnitude.shortest_digits_mod_ten_ne hx)

/-- **The text of a number reads back.** -/
theorem exists_spelling_text (x : Magnitude) :
    ∃ n : Numeral.Spelling, (Number.finite false x).text = n.text ∧ Numeral.read? n.text = some (.finite false x) := by
  by_cases hx : x.significand = 0
  · have hzero : x = .zero := Magnitude.toRat_injective (by simp [Magnitude.toRat, hx, Magnitude.zero])
    refine ⟨⟨[48], [], none, by simp, List.forall_mem_singleton.2 rfl, by simp⟩, ?_, ?_⟩
    · simp [text, hx, Numeral.Spelling.text, Numeral.Spelling.fractionText, Numeral.Spelling.exponentText]
      decide
    · rw [hzero]
      decide
  · obtain ⟨n, hn, hv, -⟩ := Decimal.exists_spelling_layout (significant_shortest hx)
      (x.shortest.exponent + (Bytes.ofNat x.shortest.digits).length - 1)
    rw [Bytes.digitsValue_ofNat, sub_add_cancel, add_sub_cancel_right] at hv
    have hr := (Magnitude.shortest_spec hx).2
    rw [← hv] at hr
    have hgood : ¬ n.Misread := by
      rintro (⟨h, -⟩ | ⟨⟨h0, h⟩, -⟩)
      · exact not_le.2 hr.lt_overflow h
      · have := (Numeral.zero_rounds h0.le h).nearest.eq hr.nearest
        exact hx (this ▸ rfl)
    obtain ⟨y, hy, hnear, -⟩ := Numeral.read?_text n
    refine ⟨n, by simp [text, hx, Decimal.text, hn], ?_⟩
    rw [hy, (hnear.2 hgood).eq (isNearest_of_rounds hr)]

/-- a number's text is that of its magnitude, with a minus in front unless it is zero -/
theorem text_finite (s : Bool) (m : Magnitude) :
    (finite s m).text = (if s && m.significand != 0 then [45] else []) ++ (finite false m).text := by
  by_cases hm : m.significand = 0
  · simp [text, hm]
  · cases s with
    | false => simp
    | true => simp [text, hm, show bytes "-" = [45] by decide]

/-- no numeral starts with a minus -/
theorem signed_text_inj {b b' : Bool} {n n' : Numeral.Spelling}
    (h : (if b then [45] else []) ++ n.text = (if b' then [45] else []) ++ n'.text) : b = b' ∧ n.text = n'.text := by
  obtain ⟨d, ds, hd, hdigit⟩ := n.exists_digit_text
  obtain ⟨d', ds', hd', hdigit'⟩ := n'.exists_digit_text
  rw [hd, hd'] at h ⊢
  cases b <;> cases b'
  · exact ⟨rfl, h⟩
  · obtain ⟨rfl, -⟩ := List.cons.inj h
    cases hdigit
  · obtain ⟨rfl, -⟩ := List.cons.inj h
    cases hdigit'
  · exact ⟨rfl, (List.cons.inj h).2⟩

/-- digits laid out after the sign of a number -/
def signedLayout (negative : Bool) (ds : Bytes) (x : Int) : Bytes := (if negative then [45] else []) ++ layout ds x

theorem signedLayout_inj {s s' : Bool} {ds ds' : Bytes} {x x' : Int} (h : Significant ds) (h' : Significant ds')
    (heq : signedLayout s ds x = signedLayout s' ds' x') : s = s' ∧ ds = ds' ∧ x = x' := by
  obtain ⟨n, hn, -⟩ := Decimal.exists_spelling_layout h x
  obtain ⟨n', hn', -⟩ := Decimal.exists_spelling_layout h' x'
  rw [signedLayout, signedLayout, hn, hn'] at heq
  obtain ⟨hs, htext⟩ := signed_text_inj heq
  exact ⟨hs, Decimal.layout_inj h h' (hn.trans (htext.trans hn'.symm))⟩

/-- **The text of a number is canonical and exact.** It is the shortest decimal laid out after the sign. Significant
digits with the exponent `x` of the first one are laid out as one canonical numeral of exactly their value, which has an
exponent if and only if `x` is less than -6 or at least 21; no other sign, digits and exponent have the same layout. -/
theorem text_is_canonical :
    (∀ (s : Bool) (m : Magnitude), m.significand ≠ 0 → ∃ (ds : Bytes) (x : Int), Significant ds ∧
        m.shortest = ⟨Numeral.digitsValue ds, x - ds.length + 1⟩ ∧ (finite s m).text = signedLayout s ds x) ∧
      ∀ (s : Bool) (ds : Bytes) (x : Int), Significant ds →
        (∃ n : Numeral.Spelling, signedLayout s ds x = (if s then bytes "-" else []) ++ n.text) ∧
        (∀ (s' : Bool) (n : Numeral.Spelling), signedLayout s ds x = (if s' then bytes "-" else []) ++ n.text →
          s' = s ∧ n.value = Numeral.digitsValue ds * 10 ^ (x - ds.length + 1) ∧
            (n.exponent.isSome ↔ x < -6 ∨ 21 ≤ x) ∧ n.Canonical) ∧
        ∀ (s' : Bool) (ds' : Bytes) (x' : Int), Significant ds' → signedLayout s' ds' x' = signedLayout s ds x →
          s' = s ∧ ds' = ds ∧ x' = x := by
  rw [show bytes "-" = [45] by decide]
  refine ⟨?_, ?_⟩
  · intro s m hm
    refine ⟨Bytes.ofNat m.shortest.digits, m.shortest.exponent + (Bytes.ofNat m.shortest.digits).length - 1,
      significant_shortest hm, ?_, ?_⟩
    · rw [Bytes.digitsValue_ofNat, sub_right_comm, add_sub_cancel_right, sub_add_cancel]
    · rw [text_finite, signedLayout]
      simp [text, hm, Decimal.text]
  · intro s ds x h
    obtain ⟨n, hn, hv, hexp, hc⟩ := Decimal.exists_spelling_layout h x
    refine ⟨⟨n, by rw [signedLayout, hn]⟩, ?_, fun s' ds' x' h' heq => signedLayout_inj h' h heq⟩
    intro s' n' hn'
    rw [signedLayout, hn] at hn'
    obtain ⟨rfl, htext⟩ := signed_text_inj hn'
    obtain rfl := Numeral.Spelling.text_injective htext
    exact ⟨rfl, by rw [hv, add_sub_right_comm], hexp, hc⟩

example : [20, 2, 1, -6, 21, -7].map (signedLayout true (bytes "125")) =
    [bytes "-125000000000000000000", bytes "-125", bytes "-12.5", bytes "-0.00000125", bytes "-1.25e+21",
      bytes "-1.25e-7"] := by decide +kernel

end Number

end Treewalk
