/-
Number texts are faithful.

A 64-bit pattern is recovered from the finite number that it stands for (`toBits_ofBits`). The text of that number is a
numeral, with a minus in front of it for a negative number other than zero (`exists_signed_text`). The lexer cuts the
numeral as one lexeme (`Token.scan_numeral`), and the reader gives it the number's magnitude
(`Reader.State.step_numeral`). So the pattern can be computed from the text, but for the sign of zero, and two patterns
with one text are both zeros (`text_is_faithful`).
-/
import Treewalk.Proofs.Number.Layout
import Treewalk.Proofs.Reader.Steps
import Treewalk.Proofs.Token.Longest
import Treewalk.Proofs.Token.Scanning

namespace Treewalk

namespace Number

/-- neither an infinity nor NaN -/
def isFinite : Number → Bool
  | .finite _ _ => true
  | _ => false

theorem exists_of_isFinite {x : Number} (h : x.isFinite = true) : ∃ s m, x = .finite s m := by
  cases x with
  | nan => cases h
  | infinity s => cases h
  | finite s m => exact ⟨s, m, rfl⟩

/-! ## Patterns -/

/-- the pattern with the sign bit only: negative zero -/
def signPattern : UInt64 := 0x8000000000000000

/-- the pattern of a finite number as a natural number: no place of it overflows -/
theorem toNat_toBits (s : Bool) (m : Magnitude) :
    (finite s m).toBits.toNat = (if s then 9223372036854775808 else 0) +
      if m.significand < 4503599627370496 then m.significand
      else (m.exponent + 1075).toNat * 4503599627370496 + (m.significand - 4503599627370496) := by
  obtain ⟨hm, -, he, -⟩ := m.canonical
  simp only [Magnitude.precision, Magnitude.maxExponent, Nat.reducePow] at hm he
  simp only [toBits, toBits.signBit, Nat.reducePow]
  split
  · rw [Nat.toUInt64_eq, UInt64.toNat_ofNat', Nat.mod_eq_of_lt]
    split <;> omega
  · rw [Nat.toUInt64_eq, UInt64.toNat_ofNat', Nat.mod_eq_of_lt]
    split <;> omega

/-- a finite number keeps every bit of its pattern -/
theorem toBits_ofBits {w : UInt64} (h : (ofBits w).isFinite = true) : (ofBits w).toBits = w := by
  have hw := w.toNat_lt
  apply UInt64.toNat_inj.1
  unfold ofBits at h ⊢
  simp only [Nat.reducePow] at h hw ⊢
  split at h
  · split at h <;> cases h
  rename_i hfield
  rw [dif_neg hfield]
  have hsign : ∀ b : Nat, (if b % 2 == 1 then 9223372036854775808 else 0) = b % 2 * 9223372036854775808 := by
    intro b
    rcases Nat.mod_two_eq_zero_or_one b with hb | hb <;> simp [hb]
  split
  · rw [toNat_toBits, hsign]
    dsimp only
    rw [if_pos (by omega)]
    omega
  · rw [toNat_toBits, hsign]
    dsimp only
    rw [if_neg (by simp)]
    omega

/-- without the sign of zero, a finite number has the pattern it was made of, unless that is negative zero's -/
theorem toBits_unsigned_zero {w : UInt64} {s : Bool} {m : Magnitude} (h : ofBits w = .finite s m) :
    (finite (s && m.significand != 0) m).toBits = if w = signPattern then 0 else w := by
  have hw : (finite s m).toBits = w := by
    rw [← h]
    exact toBits_ofBits (by rw [h]; rfl)
  by_cases hm : m.significand = 0
  · -- the pattern of a zero is nothing but its sign
    have hzero : m = .zero := Magnitude.toRat_injective (by simp [Magnitude.toRat, hm, Magnitude.zero])
    rw [← hw, hzero]
    cases s <;> decide
  · have hne : w ≠ signPattern := by
      rintro rfl
      cases h
      exact hm (by decide)
    rw [if_neg hne, show (s && m.significand != 0) = s by simp [hm], hw]

/-- patterns that differ only when negative zero is not taken for zero are zeros -/
theorem zeros_of_unsigned_eq {w w' : UInt64}
    (h : (if w = signPattern then 0 else w) = if w' = signPattern then 0 else w') (hne : w' ≠ w) :
    (ofBits w').isZero = true ∧ (ofBits w).isZero = true := by
  by_cases hw : w = signPattern <;> by_cases hw' : w' = signPattern
  · exact absurd (hw'.trans hw.symm) hne
  · rw [if_pos hw, if_neg hw'] at h
    subst h hw
    decide
  · rw [if_neg hw, if_pos hw'] at h
    subst h hw'
    decide
  · rw [if_neg hw, if_neg hw'] at h
    exact absurd h.symm hne

/-! ## Texts -/

/-- a finite number's text: a minus unless the number is positive or zero, and a numeral that reads as the magnitude -/
theorem exists_signed_text (s : Bool) (m : Magnitude) :
    ∃ n : Numeral.Spelling, (finite s m).text = (if s && m.significand != 0 then [45] else []) ++ n.text ∧
      Numeral.read? n.text = some (.finite false m) := by
  obtain ⟨n, htext, hread⟩ := exists_spelling_text m
  exact ⟨n, by rw [text_finite, htext], hread⟩

/-- the text of a finite number is not one of the words for the others -/
theorem text_ne_words (s : Bool) (m : Magnitude) :
    (finite s m).text ∉ [bytes "NaN", bytes "Infinity", bytes "-Infinity"] := by
  obtain ⟨n, htext, -⟩ := exists_signed_text s m
  obtain ⟨d, ds, hd, hdigit⟩ := n.exists_digit_text
  rw [htext, hd]
  -- past a minus, each of the words starts with a letter
  have hletter : ∀ t ∈ [bytes "NaN", bytes "Infinity", bytes "-Infinity"],
      ∀ b ∈ (if t.head? = some 45 then t.tail else t).head?, Numeral.isDigit b = false := by decide +kernel
  have hne : d ≠ 45 := by
    rintro rfl
    cases hdigit
  intro hmem
  have hd' : Numeral.isDigit d = false := by
    refine hletter _ hmem d ?_
    cases s && m.significand != 0 <;> simp [hne]
  rw [hdigit] at hd'
  cases hd'

end Number

namespace Token

/-- a numeral is one lexeme -/
theorem scan_numeral (n : Numeral.Spelling) (o : Origin) :
    ∃ t last, scan o n.text = .ok [t, last] ∧ t.kind = .number ∧ t.text = n.text ∧ last.kind = .endOfInput := by
  have hscan := Scans.number n (by simp [Bytes.Stops]) scans_nil
  rw [List.append_nil] at hscan
  obtain ⟨ts, hts, hls⟩ := hscan o .start
  obtain ⟨t, us, rfl, hkind, htext, hus⟩ := exists_of_map_cons hls
  obtain ⟨last, rfl, hlast, -⟩ := exists_of_map_singleton hus
  exact ⟨t, last, hts, hkind, htext, hlast⟩

end Token

namespace Reader.State

/-- where an expression may start, a number token becomes a numeral with the value of its text -/
theorem step_numeral {s : State} {goal : Goal} {p : List Pending} {t : Token} {x : Number}
    (hs : s.phase = .operand goal p) (hk : t.kind = .number) (hx : Numeral.read? t.text = some x) :
    s.step t = .ok { s with phase := .operator goal p (.numeral t x) } := by
  simp [step, startOperand, hs, hk, hx]

end Reader.State

namespace Number

/-- **The text of a finite number is faithful.** The text of the pattern `w` is a numeral after a minus or nothing, one
lexeme wherever it stands, and reading it and applying the sign gives `w` back, or zero for negative zero. So no other
finite pattern has this text unless both are zeros, and it is not the text of NaN or of an infinity. -/
theorem text_is_faithful {w : UInt64} (hw : (ofBits w).isFinite = true) :
    (∃ (sign : Bytes) (n : Numeral.Spelling) (x : Number), (ofBits w).text = sign ++ n.text ∧
        (sign = [] ∨ sign = bytes "-") ∧
        (∀ o : Origin, ∃ t last, Token.scan o n.text = .ok [t, last] ∧ t.kind = .number ∧ t.text = n.text ∧
          last.kind = .endOfInput ∧
          ∀ (s : Reader.State) (goal : Reader.Goal) (p : List Reader.Pending), s.phase = .operand goal p →
            s.step t = .ok { s with phase := .operator goal p (.numeral t x) }) ∧
        (if sign = [] then x else x.neg).toBits = if w = signPattern then 0 else w) ∧
      (∀ w', (ofBits w').isFinite = true → (ofBits w').text = (ofBits w).text → w' ≠ w →
        (ofBits w').isZero = true ∧ (ofBits w).isZero = true) ∧
      (ofBits w).text ∉ [bytes "NaN", bytes "Infinity", bytes "-Infinity"] := by
  obtain ⟨s, m, hsm⟩ := exists_of_isFinite hw
  obtain ⟨n, htext, hread⟩ := exists_signed_text s m
  have hbits := toBits_unsigned_zero hsm
  refine ⟨⟨if s && m.significand != 0 then [45] else [], n, .finite false m, by rw [hsm, htext], ?_, ?_, ?_⟩, ?_, ?_⟩
  · cases s && m.significand != 0
    · exact .inl rfl
    · exact .inr (by decide)
  · intro o
    obtain ⟨t, last, hscan, hkind, hnumeral, hlast⟩ := Token.scan_numeral n o
    refine ⟨t, last, hscan, hkind, hnumeral, hlast, fun st goal p hst => ?_⟩
    exact Reader.State.step_numeral hst hkind (by rw [hnumeral, hread])
  · rw [← hbits]
    cases s && m.significand != 0 <;> rfl
  · intro w' hw' hsame hne
    obtain ⟨s', m', hsm'⟩ := exists_of_isFinite hw'
    obtain ⟨n', htext', hread'⟩ := exists_signed_text s' m'
    rw [hsm, hsm', htext, htext'] at hsame
    obtain ⟨hsign, hn⟩ := signed_text_inj hsame
    rw [hn, hread] at hread'
    cases hread'
    have hbits' := toBits_unsigned_zero hsm'
    rw [hsign, hbits] at hbits'
    exact zeros_of_unsigned_eq hbits' hne
  · rw [hsm]
    exact text_ne_words s m

/-- `-5e-324`, the negative number next to zero. -/
theorem text_is_faithful_least :
    (ofBits 0x8000000000000001).isFinite = true ∧ (ofBits 0x8000000000000001).text = bytes "-5e-324" ∧
      (ofBits 0x8000000000000001).text ∉ [bytes "NaN", bytes "Infinity", bytes "-Infinity"] ∧
      ∃ (sign : Bytes) (n : Numeral.Spelling) (x : Number), bytes "-5e-324" = sign ++ n.text ∧
        (if sign = [] then x else x.neg).toBits = 0x8000000000000001 := by
  have hfinite : (ofBits 0x8000000000000001).isFinite = true := by decide
  have htext : (ofBits 0x8000000000000001).text = bytes "-5e-324" := by decide +kernel
  obtain ⟨⟨sign, n, x, hn, -, -, hx⟩, -, hwords⟩ := text_is_faithful hfinite
  exact ⟨hfinite, htext, hwords, sign, n, x, by rw [← htext, hn], hx⟩

end Number

end Treewalk
