/-
Lexemes at the start of a text.

The number there is a spelling of a numeral, whatever follows it. Conversely a spelling, a word or an operator stands
there whole, if what follows cannot continue it.
-/
import Mathlib.Data.List.TakeWhile
import Treewalk.Proofs.Number.Spelling
import Treewalk.Token.Lexer

namespace Treewalk

namespace Lexeme

open Numeral Bytes

variable {t rest : Bytes}

theorem fraction_eq (t : Bytes) :
    ∃ ds : Bytes, (∀ b ∈ ds, isDigit b) ∧ fraction t = if ds = [] then [] else 46 :: ds := by
  unfold fraction
  split
  · rename_i r
    refine ⟨r.takeWhile isDigit, fun b hb => List.mem_takeWhile_imp hb, ?_⟩
    simp
  · exact ⟨[], by simp⟩

theorem sign_eq (t : Bytes) : sign t = [] ∨ sign t = [43] ∨ sign t = [45] := by
  unfold sign
  split
  · rename_i s r
    by_cases h : s = 43
    · simp [h]
    · by_cases h' : s = 45 <;> simp [h, h']
  · exact .inl rfl

theorem exponent_eq (t : Bytes) : ∃ x : Option Exponent, exponent t = (x.map Exponent.text).getD [] := by
  unfold exponent
  split
  · rename_i e r
    by_cases he : e = 101 ∨ e = 69
    · by_cases hd : (r.drop (sign r).length).takeWhile isDigit = []
      · exact ⟨none, by simp [hd]⟩
      · have hdigits : ∀ b ∈ (r.drop (sign r).length).takeWhile isDigit, isDigit b :=
          fun b hb => List.mem_takeWhile_imp hb
        refine ⟨some ⟨e, sign r, _, he, sign_eq r, hd, hdigits⟩, ?_⟩
        simp [he, hd, Exponent.text]
    · exact ⟨none, by simp [he]⟩
  · exact ⟨none, rfl⟩

/-- the number at the start of a text is a spelling -/
theorem exists_spelling {b : UInt8} (hb : isDigit b) (r : Bytes) : ∃ n : Spelling, number (b :: r) = n.text := by
  obtain ⟨ds, hds, hf⟩ := fraction_eq ((b :: r).dropWhile isDigit)
  obtain ⟨x, hx⟩ := exponent_eq
    (((b :: r).dropWhile isDigit).drop (fraction ((b :: r).dropWhile isDigit)).length)
  have hw : (b :: r).takeWhile isDigit ≠ [] := by simp [hb]
  refine ⟨⟨(b :: r).takeWhile isDigit, ds, x, hw, fun c hc => List.mem_takeWhile_imp hc, hds⟩, ?_⟩
  simp only [number, hx, Spelling.text, Spelling.fractionText, Spelling.exponentText, List.append_assoc]
  rw [hf]

theorem fraction_text (n : Spelling) (h : Stops continues rest) :
    fraction (n.fractionText ++ (n.exponentText ++ rest)) = n.fractionText := by
  by_cases hf : n.fraction = []
  · have hft : n.fractionText = [] := by simp [Spelling.fractionText, hf]
    rw [hft, List.nil_append]
    unfold fraction
    split
    · rename_i heq
      exact absurd heq (head_exponentText_ne n h)
    · rfl
  · have htake := Bytes.takeWhile_append n.isDigit_fraction (stops_isDigit_exponentText n h)
    simp [fraction, Spelling.fractionText, hf, htake]

theorem sign_text (x : Exponent) (rest : Bytes) : sign (x.sign ++ (x.digits ++ rest)) = x.sign := by
  obtain ⟨d, ds, hds⟩ := List.exists_cons_of_ne_nil x.digits_ne_nil
  have hd := ne_sign_of_isDigit (x.isDigit_digits d (by simp [hds]))
  rcases x.sign_eq with hs | hs | hs
  · simp [sign, hs, hds, hd]
  · simp [sign, hs]
  · simp [sign, hs]

theorem exponent_text (n : Spelling) (h : Stops continues rest) :
    exponent (n.exponentText ++ rest) = n.exponentText := by
  cases he : n.exponent with
  | none =>
    simp only [Spelling.exponentText, he, Option.map_none, Option.getD_none, List.nil_append]
    cases rest with
    | nil => rfl
    | cons b r =>
      have hb := h b rfl
      simp only [continues, Bool.or_eq_false_iff, decide_eq_false_iff_not] at hb
      simp [exponent, hb.1.2, hb.2]
  | some x =>
    have htake := Bytes.takeWhile_append x.isDigit_digits (Numeral.Stops.digit h)
    have hmark : (decide (x.mark = 101) || decide (x.mark = 69)) = true := by simpa using x.mark_eq
    simp only [Spelling.exponentText, he, Option.map_some, Option.getD_some, Exponent.text, List.cons_append,
      List.append_assoc, exponent, hmark, if_true, sign_text, List.drop_left, htake]
    simp [x.digits_ne_nil]

/-- a spelling is scanned whole, before what cannot continue it -/
theorem number_text (n : Spelling) (h : Stops continues rest) : number (n.text ++ rest) = n.text := by
  have htext : n.text ++ rest = n.whole ++ (n.fractionText ++ (n.exponentText ++ rest)) := by simp [Spelling.text]
  have htake := Bytes.takeWhile_append n.isDigit_whole (stops_isDigit_fractionText n h)
  have hdrop := Bytes.dropWhile_append n.isDigit_whole (stops_isDigit_fractionText n h)
  simp only [number]
  rw [htext, htake, hdrop, fraction_text n h, List.drop_left, exponent_text n h, List.append_assoc]
  rfl

/-! ## The kinds of lexemes -/

theorem mem_of_lookup {w : Bytes} {k : Kind} {l : List (Bytes × Kind)} (h : l.lookup w = some k) : (w, k) ∈ l := by
  obtain ⟨l₁, l₂, rfl, -⟩ := List.lookup_eq_some_iff.1 h
  simp

theorem wordKind_mem (w : Bytes) : wordKind w ∈ [.identifier, .function, .print, .loop, .boolean] := by
  unfold wordKind
  cases h : keywords.lookup w with
  | none => decide
  | some k =>
    have hk : ∀ p ∈ keywords, p.2 ∈ [.identifier, .function, .print, .loop, .boolean] := by decide
    exact hk _ (mem_of_lookup h)

theorem wordKind_ne_number (w : Bytes) : wordKind w ≠ .number := by
  intro h
  have hmem := wordKind_mem w
  rw [h] at hmem
  exact absurd hmem (by decide)

theorem operator?_ne_number {k : Kind} {w : Bytes} (h : operator? t = some (k, w)) : k ≠ .number := by
  have hp : ∀ p ∈ pairs, p.2 ≠ .number := by decide
  have hs : ∀ p ∈ singles, p.2 ≠ .number := by decide
  unfold operator? at h
  cases h2 : pairs.lookup (t.take 2) with
  | some k' =>
    rw [h2] at h
    cases h
    exact hp _ (mem_of_lookup h2)
  | none =>
    rw [h2] at h
    obtain ⟨k', h1, heq⟩ := Option.map_eq_some_iff.1 h
    cases heq
    exact hs _ (mem_of_lookup h1)

/-- a number lexeme is a spelling -/
theorem exists_spelling_of_next? {w : Bytes} (h : next? t = some (.number, w)) : ∃ n : Spelling, n.text = w := by
  cases t with
  | nil => cases h
  | cons b r =>
    simp only [next?] at h
    split_ifs at h with hd hw
    · cases h
      obtain ⟨n, hn⟩ := exists_spelling hd r
      exact ⟨n, hn.symm⟩
    · simp only [Option.some.injEq, Prod.mk.injEq] at h
      exact absurd h.1 (wordKind_ne_number _)
    · exact absurd rfl (operator?_ne_number h)

/-! ## Words and operators in front of a text -/

/-- a word: a start byte and bytes that go on with it -/
def IsWord : Bytes → Prop
  | [] => False
  | b :: r => isWordStart b = true ∧ ∀ c ∈ r, isWordByte c = true

instance : DecidablePred IsWord
  | [] => isFalse id
  | _ :: r => @instDecidableAnd _ _ _ (List.decidableBAll _ r)

theorem not_isDigit_of_isWordStart {b : UInt8} (h : isWordStart b = true) : isDigit b = false := by
  simp only [isWordStart, isLetter, isDigit, Bool.or_eq_true, Bool.and_eq_true, decide_eq_true_eq,
    Bool.and_eq_false_iff, decide_eq_false_iff_not, UInt8.le_iff_toNat_le, ← UInt8.toNat_inj] at *
  simp only [UInt8.reduceToNat] at *
  omega

theorem isWordByte_of_mem {w : Bytes} (hw : IsWord w) : ∀ b ∈ w, isWordByte b = true := by
  cases w with
  | nil => exact hw.elim
  | cons b r =>
    intro c hc
    rcases List.mem_cons.1 hc with rfl | hc
    · rw [isWordByte, hw.1, Bool.true_or]
    · exact hw.2 c hc

theorem not_blank_of_isWordByte {b : UInt8} (h : isWordByte b = true) : isBlank b = false ∧ b ≠ 47 := by
  simp only [isWordByte, isWordStart, isLetter, isBlank, isDigit, Bool.or_eq_true, Bool.and_eq_true, decide_eq_true_eq,
    Bool.or_eq_false_iff, decide_eq_false_iff_not, UInt8.le_iff_toNat_le, ← UInt8.toNat_inj, ne_eq] at *
  simp only [UInt8.reduceToNat] at *
  omega

theorem next?_word {w : Bytes} (hw : IsWord w) (hr : Stops isWordByte rest) :
    next? (w ++ rest) = some (wordKind w, w) := by
  have htake : word (w ++ rest) = w := Bytes.takeWhile_append (isWordByte_of_mem hw) hr
  cases w with
  | nil => exact hw.elim
  | cons b r =>
    rw [List.cons_append] at htake ⊢
    simp [next?, not_isDigit_of_isWordStart hw.1, hw.1, htake]

theorem next?_number (n : Spelling) (h : Stops continues rest) : next? (n.text ++ rest) = some (.number, n.text) := by
  obtain ⟨d, ds, hds⟩ := List.exists_cons_of_ne_nil n.whole_ne_nil
  have hd := n.isDigit_whole d (by simp [hds])
  have hcons : n.text ++ rest = d :: (ds ++ (n.fractionText ++ (n.exponentText ++ rest))) := by
    simp [Spelling.text, hds]
  have hnum := number_text n h
  rw [hcons] at hnum ⊢
  simp [next?, hd, hnum]

theorem lookup_take_two {op : Bytes} {k : Kind} (h : pairs.lookup op = some k) (rest : Bytes) :
    (op ++ rest).take 2 = op := by
  have hlen : ∀ p ∈ pairs, p.1.length = 2 := by decide
  rw [List.take_append_of_le_length (by rw [hlen _ (mem_of_lookup h)]), List.take_of_length_le]
  rw [hlen _ (mem_of_lookup h)]

theorem operator?_pair {op : Bytes} {k : Kind} (h : pairs.lookup op = some k) (rest : Bytes) :
    operator? (op ++ rest) = some (k, op) := by
  rw [operator?, lookup_take_two h, h]

theorem operator?_single {op : Bytes} {k : Kind} (h : singles.lookup op = some k)
    (hr : ∀ b ∈ rest.head?, pairs.lookup (op ++ [b]) = none) : operator? (op ++ rest) = some (k, op) := by
  have hlen : ∀ p ∈ singles, p.1.length = 1 ∧ pairs.lookup p.1 = none := by decide
  obtain ⟨h1, h2⟩ := hlen _ (mem_of_lookup h)
  obtain ⟨c, rfl⟩ := List.length_eq_one_iff.1 h1
  cases rest with
  | nil => simp [operator?, h2, h]
  | cons b r =>
    have := hr b rfl
    rw [List.singleton_append] at this
    simp [operator?, this, h]

/-- the bytes that start an operator start nothing else -/
theorem next?_operator {b : UInt8} {r : Bytes} {k : Kind} {op : Bytes} (hb : isDigit b = false ∧ isWordStart b = false)
    (h : operator? (b :: r) = some (k, op)) : next? (b :: r) = some (k, op) := by
  simp [next?, hb, h]

end Lexeme

end Treewalk
