/-
The longest lexeme.

`IsLexeme` says what a lexeme is, class by class and without the scanner: a number, a word or an operator. What the
scanner takes is the longest lexeme that the text starts with (`longest_of_next?`), and it takes nothing only where no
lexeme starts (`not_isLexeme_of_next?_none`). The first byte of a lexeme tells its class, so lexemes of different
classes never compete.
-/
import Treewalk.Proofs.Token.Lexeme

namespace Treewalk

namespace Lexeme

open Numeral Bytes

/-- a number, a word or an operator, and its kind -/
inductive IsLexeme : Kind → Bytes → Prop where
  | number (n : Spelling) : IsLexeme .number n.text
  | word {w : Bytes} (hw : IsWord w) : IsLexeme (wordKind w) w
  | operator {w : Bytes} {k : Kind} (hop : (w, k) ∈ pairs ++ singles) : IsLexeme k w

/-- a lexeme in front of `rest`, and no longer one starts at the same place -/
structure Longest (k : Kind) (w rest : Bytes) : Prop where
  isLexeme : IsLexeme k w
  length_le : ∀ k' u, IsLexeme k' u → u <+: w ++ rest → u.length ≤ w.length

variable {t w : Bytes} {k : Kind} {b : UInt8} {r u : Bytes}

/-! ## The first byte -/

/-- operators have one or two bytes, and the first one starts neither a number nor a word -/
theorem operator_bytes : ∀ p ∈ pairs ++ singles, p.1 ≠ [] ∧ p.1.length ≤ 2 ∧
    ∀ b ∈ p.1.head?, isDigit b = false ∧ isWordStart b = false := by
  decide +kernel

theorem IsLexeme.ne_nil (h : IsLexeme k w) : w ≠ [] := by
  cases h with
  | number n =>
    obtain ⟨d, ds, hd, -⟩ := n.exists_digit_text
    rw [hd]
    exact List.cons_ne_nil _ _
  | word hw =>
    rintro rfl
    exact hw
  | operator hop => exact (operator_bytes _ hop).1

/-- the class of a lexeme by its first byte -/
theorem IsLexeme.of_cons (h : IsLexeme k (b :: r)) :
    (isDigit b = true ∧ ∃ n : Spelling, n.text = b :: r ∧ k = .number) ∨
      (isDigit b = false ∧ isWordStart b = true ∧ IsWord (b :: r) ∧ k = wordKind (b :: r)) ∨
      (isDigit b = false ∧ isWordStart b = false ∧ (b :: r, k) ∈ pairs ++ singles) := by
  generalize hw : b :: r = w at h
  cases h with
  | number n =>
    obtain ⟨d, ds, hd, hdigit⟩ := n.exists_digit_text
    obtain ⟨rfl, -⟩ := List.cons.inj (hw.trans hd)
    exact .inl ⟨hdigit, n, rfl, rfl⟩
  | word hword =>
    subst hw
    exact .inr (.inl ⟨not_isDigit_of_isWordStart hword.1, hword.1, hword, rfl⟩)
  | operator hop =>
    subst hw
    obtain ⟨hd, hs⟩ := (operator_bytes _ hop).2.2 b rfl
    exact .inr (.inr ⟨hd, hs, hop⟩)

/-! ## Lexemes have no blanks -/

/-- a byte of a numeral is a digit, a point, an exponent mark or a sign -/
theorem not_isBlank_of_mem_text {n : Spelling} (hb : b ∈ n.text) : isBlank b = false := by
  have hdigits : ∀ {ds : Bytes}, (∀ d ∈ ds, isDigit d) → b ∈ ds → isBlank b = false :=
    fun hds hmem => (not_blank_of_isWordByte (by simp [isWordByte, hds b hmem])).1
  rw [Spelling.text, List.mem_append, List.mem_append] at hb
  rcases hb with hb | hb | hb
  · exact hdigits n.isDigit_whole hb
  · rw [Spelling.fractionText] at hb
    split at hb
    · cases hb
    · rcases List.mem_cons.1 hb with rfl | hb
      · rfl
      · exact hdigits n.isDigit_fraction hb
  · rw [Spelling.exponentText] at hb
    cases hx : n.exponent with
    | none => simp [hx] at hb
    | some x =>
      simp only [hx, Option.map_some, Option.getD_some, Exponent.text, List.mem_cons, List.mem_append] at hb
      rcases hb with rfl | hb | hb
      · rcases x.mark_eq with h | h <;> rw [h] <;> rfl
      · rcases x.sign_eq with h | h | h <;> rw [h] at hb
        · cases hb
        · rw [List.mem_singleton.1 hb]
          rfl
        · rw [List.mem_singleton.1 hb]
          rfl
      · exact hdigits x.isDigit_digits hb

theorem IsLexeme.not_isBlank (h : IsLexeme k w) (hb : b ∈ w) : isBlank b = false := by
  cases h with
  | number n => exact not_isBlank_of_mem_text hb
  | word hw => exact (not_blank_of_isWordByte (isWordByte_of_mem hw b hb)).1
  | operator hop =>
    have hall : ∀ p ∈ pairs ++ singles, ∀ c ∈ p.1, isBlank c = false := by decide +kernel
    exact hall _ hop b hb

/-! ## Numbers -/

theorem length_le_exponent (x : Exponent) (rest : Bytes) : x.text.length ≤ (exponent (x.text ++ rest)).length := by
  have hmark : (decide (x.mark = 101) || decide (x.mark = 69)) = true := by simpa using x.mark_eq
  have htake : (x.digits ++ rest).takeWhile isDigit = x.digits ++ rest.takeWhile isDigit :=
    List.takeWhile_append_of_pos x.isDigit_digits
  simp only [Exponent.text, List.cons_append, List.append_assoc, exponent, hmark, if_true, sign_text, List.drop_left,
    htake]
  rw [if_neg (by simp [x.digits_ne_nil])]
  simp only [List.length_cons, List.length_append]
  omega

theorem fraction_cons (ds rest : Bytes) (hds : ∀ b ∈ ds, isDigit b) (hne : ds ≠ []) :
    fraction (46 :: (ds ++ rest)) = 46 :: (ds ++ rest.takeWhile isDigit) := by
  have htake : (ds ++ rest).takeWhile isDigit = ds ++ rest.takeWhile isDigit := List.takeWhile_append_of_pos hds
  simp [fraction, htake, hne]

theorem not_isDigit_mark (x : Exponent) : isDigit x.mark = false := by
  rcases x.mark_eq with h | h <;> rw [h] <;> rfl

/-- a numeral that the text starts with is no longer than the one that is scanned: digits go on as long as there are
any, and where the numeral has another part the scanner finds it too -/
theorem length_le_number (n : Spelling) (rest : Bytes) : n.text.length ≤ (number (n.text ++ rest)).length := by
  have htext : n.text ++ rest = n.whole ++ (n.fractionText ++ (n.exponentText ++ rest)) := by simp [Spelling.text]
  -- the part behind the whole digits starts with a point or an exponent mark, or there is none
  have hwhole : ∀ r, Stops isDigit r → number (n.whole ++ r) =
      n.whole ++ fraction r ++ exponent (r.drop (fraction r).length) := by
    intro r hr
    simp only [number, Bytes.takeWhile_append n.isDigit_whole hr, Bytes.dropWhile_append n.isDigit_whole hr]
  have hlength : n.text.length = n.whole.length + (n.fractionText.length + n.exponentText.length) := by
    simp [Spelling.text]
  rw [htext, hlength]
  by_cases hf : n.fraction = []
  · have hft : n.fractionText = [] := by simp [Spelling.fractionText, hf]
    rw [hft, List.nil_append]
    cases he : n.exponent with
    | none =>
      have htake : (n.whole ++ rest).takeWhile isDigit = n.whole ++ rest.takeWhile isDigit :=
        List.takeWhile_append_of_pos n.isDigit_whole
      simp only [Spelling.exponentText, he, Option.map_none, Option.getD_none, List.nil_append, number, htake,
        List.length_append, List.length_nil]
      omega
    | some x =>
      have hxt : n.exponentText = x.text := by simp [Spelling.exponentText, he]
      have hstop : Stops isDigit (x.text ++ rest) := Bytes.stops_cons (not_isDigit_mark x)
      have hfraction : fraction (x.text ++ rest) = [] := by
        unfold fraction
        split
        · rename_i heq
          have hm : x.mark = 46 := (List.cons.inj heq).1
          rcases x.mark_eq with h | h <;> rw [h] at hm <;> exact absurd hm (by decide)
        · rfl
      have hle := length_le_exponent x rest
      rw [hxt, hwhole _ hstop, hfraction]
      simp only [List.length_append, List.length_nil, List.drop_zero]
      omega
  · have hft : n.fractionText = 46 :: n.fraction := by simp [Spelling.fractionText, hf]
    have hstop : Stops isDigit (46 :: (n.fraction ++ (n.exponentText ++ rest))) := Bytes.stops_cons (by decide)
    rw [hft, List.cons_append, hwhole _ hstop, fraction_cons _ _ n.isDigit_fraction hf]
    cases he : n.exponent with
    | none =>
      simp only [Spelling.exponentText, he, Option.map_none, Option.getD_none, List.nil_append, List.length_append,
        List.length_cons, List.length_nil]
      omega
    | some x =>
      have hxt : n.exponentText = x.text := by simp [Spelling.exponentText, he]
      have htake : (x.text ++ rest).takeWhile isDigit = [] := by
        simp [Exponent.text, not_isDigit_mark x]
      have hdrop : (46 :: (n.fraction ++ (x.text ++ rest))).drop (46 :: n.fraction).length = x.text ++ rest := by simp
      have hle := length_le_exponent x rest
      rw [hxt, htake, List.append_nil, hdrop]
      simp only [List.length_append]
      omega

/-- what a text starts with, and what starts behind that -/
theorem append_isPrefix {v : Bytes} (hu : u <+: t) (hv : v <+: t.drop u.length) : u ++ v <+: t := by
  obtain ⟨rest, rfl⟩ := hu
  rw [List.drop_left] at hv
  exact (List.prefix_append_right_inj u).2 hv

theorem sign_isPrefix (t : Bytes) : sign t <+: t := by
  unfold sign
  split
  · split_ifs
    · exact List.prefix_append [_] _
    · exact List.nil_prefix
  · exact List.nil_prefix

theorem fraction_isPrefix (t : Bytes) : fraction t <+: t := by
  unfold fraction
  split
  · simp only
    split_ifs
    · exact List.nil_prefix
    · exact List.cons_prefix_cons.2 ⟨rfl, List.takeWhile_prefix _⟩
  · exact List.nil_prefix

theorem exponent_isPrefix (t : Bytes) : exponent t <+: t := by
  unfold exponent
  split
  · rename_i e r
    simp only
    split_ifs
    · exact List.nil_prefix
    · exact List.cons_prefix_cons.2 ⟨rfl, append_isPrefix (sign_isPrefix r) (List.takeWhile_prefix _)⟩
    · exact List.nil_prefix
  · exact List.nil_prefix

theorem number_isPrefix (t : Bytes) : number t <+: t := by
  have htail : fraction (t.dropWhile isDigit) ++
      exponent ((t.dropWhile isDigit).drop (fraction (t.dropWhile isDigit)).length) <+: t.dropWhile isDigit :=
    append_isPrefix (fraction_isPrefix _) (exponent_isPrefix _)
  have hall := (List.prefix_append_right_inj (t.takeWhile isDigit)).2 htail
  rw [List.takeWhile_append_dropWhile, ← List.append_assoc] at hall
  exact hall

/-! ## Operators -/

theorem length_of_mem_pairs : ∀ p ∈ pairs, p.1.length = 2 := by decide

theorem length_of_mem_singles : ∀ p ∈ singles, p.1.length = 1 := by decide

theorem lookup_isSome_of_mem {l : List (Bytes × Kind)} (h : (w, k) ∈ l) : (l.lookup w).isSome := by
  rw [Option.isSome_iff_ne_none]
  intro hnone
  simpa using List.lookup_eq_none_iff.1 hnone _ h

theorem eq_take_of_isPrefix (hu : u <+: t) {n : Nat} (hn : u.length = n) : t.take n = u := by
  obtain ⟨rest, rfl⟩ := hu
  rw [← hn, List.take_left]

theorem longest_of_operator? (h : operator? t = some (k, w)) :
    w <+: t ∧ (w, k) ∈ pairs ++ singles ∧ ∀ k' u, (u, k') ∈ pairs ++ singles → u <+: t → u.length ≤ w.length := by
  unfold operator? at h
  cases hp : pairs.lookup (t.take 2) with
  | some k₂ =>
    rw [hp] at h
    cases h
    have hmem := mem_of_lookup hp
    refine ⟨List.take_prefix _ _, List.mem_append_left _ hmem, ?_⟩
    intro k' u hu _
    rw [length_of_mem_pairs _ hmem]
    exact (operator_bytes _ hu).2.1
  | none =>
    rw [hp] at h
    obtain ⟨k₁, hs, heq⟩ := Option.map_eq_some_iff.1 h
    cases heq
    have hmem := mem_of_lookup hs
    refine ⟨List.take_prefix _ _, List.mem_append_right _ hmem, ?_⟩
    intro k' u hu hpre
    rcases List.mem_append.1 hu with hu | hu
    · rw [eq_take_of_isPrefix hpre (length_of_mem_pairs _ hu)] at hp
      exact absurd (lookup_isSome_of_mem hu) (by simp [hp])
    · rw [length_of_mem_singles _ hmem, length_of_mem_singles _ hu]

theorem not_mem_of_operator?_none (h : operator? t = none) : ∀ k u, (u, k) ∈ pairs ++ singles → ¬ u <+: t := by
  intro k u hu hpre
  unfold operator? at h
  cases hp : pairs.lookup (t.take 2) with
  | some k₂ =>
    rw [hp] at h
    cases h
  | none =>
    rw [hp] at h
    rcases List.mem_append.1 hu with hu | hu
    · rw [eq_take_of_isPrefix hpre (length_of_mem_pairs _ hu)] at hp
      exact absurd (lookup_isSome_of_mem hu) (by simp [hp])
    · have hs := Option.map_eq_none_iff.1 h
      rw [eq_take_of_isPrefix hpre (length_of_mem_singles _ hu)] at hs
      exact absurd (lookup_isSome_of_mem hu) (by simp [hs])

/-! ## The scanner takes the longest lexeme -/

/-- a lexeme that a text starts with has the text's first byte -/
theorem exists_cons_of_isPrefix (h : IsLexeme k u) (hu : u <+: b :: r) : ∃ v, u = b :: v := by
  obtain ⟨c, v, rfl⟩ := List.exists_cons_of_ne_nil h.ne_nil
  obtain ⟨rfl, -⟩ := List.cons_prefix_cons.1 hu
  exact ⟨v, rfl⟩

/-- **What is scanned is the longest lexeme.** -/
theorem longest_of_next? (h : next? t = some (k, w)) : ∃ rest, t = w ++ rest ∧ Longest k w rest := by
  cases t with
  | nil => cases h
  | cons b r =>
    simp only [next?] at h
    split_ifs at h with hd hs
    · cases h
      obtain ⟨rest, hrest⟩ := number_isPrefix (b :: r)
      obtain ⟨n, hn⟩ := exists_spelling hd r
      refine ⟨rest, hrest.symm, hn ▸ .number n, ?_⟩
      intro k' u hu hpre
      rw [hrest] at hpre
      obtain ⟨v, rfl⟩ := exists_cons_of_isPrefix hu hpre
      rcases hu.of_cons with ⟨-, m, hm, -⟩ | ⟨hd', -⟩ | ⟨hd', -⟩
      · obtain ⟨rest', hrest'⟩ := hpre
        have hle := length_le_number m rest'
        rwa [hm, hrest'] at hle
      · simp [hd] at hd'
      · simp [hd] at hd'
    · cases h
      have hword : IsWord (word (b :: r)) := by
        have hb : isWordByte b = true := by simp [isWordByte, hs]
        rw [word, List.takeWhile_cons_of_pos hb]
        exact ⟨hs, fun c hc => List.mem_takeWhile_imp hc⟩
      refine ⟨(b :: r).dropWhile isWordByte, List.takeWhile_append_dropWhile.symm, .word hword, ?_⟩
      intro k' u hu hpre
      rw [word, List.takeWhile_append_dropWhile] at hpre
      obtain ⟨v, rfl⟩ := exists_cons_of_isPrefix hu hpre
      rcases hu.of_cons with ⟨hd', -⟩ | ⟨-, -, hw, -⟩ | ⟨-, hs', -⟩
      · exact absurd hd' hd
      · obtain ⟨rest', hrest'⟩ := hpre
        rw [word, ← hrest', List.takeWhile_append_of_pos (isWordByte_of_mem hw), List.length_append]
        exact Nat.le_add_right _ _
      · simp [hs] at hs'
    · obtain ⟨hpre, hmem, hmax⟩ := longest_of_operator? h
      obtain ⟨rest, hrest⟩ := hpre
      refine ⟨rest, hrest.symm, .operator hmem, ?_⟩
      intro k' u hu hpre
      rw [hrest] at hpre
      obtain ⟨v, rfl⟩ := exists_cons_of_isPrefix hu hpre
      rcases hu.of_cons with ⟨hd', -⟩ | ⟨-, hs', -⟩ | ⟨-, -, hop⟩
      · exact absurd hd' hd
      · exact absurd hs' hs
      · exact hmax _ _ hop hpre

-- an exponent needs digits, and three stars start with a power
example : next? (bytes "1e+") = some (.number, bytes "1") ∧ next? (bytes "***") = some (.power, bytes "**") := by
  decide

/-- where nothing is scanned, no lexeme starts -/
theorem not_isLexeme_of_next?_none (h : next? t = none) : ∀ k u, IsLexeme k u → ¬ u <+: t := by
  intro k u hu hpre
  cases t with
  | nil => exact hu.ne_nil (List.prefix_nil.1 hpre)
  | cons b r =>
    simp only [next?] at h
    split_ifs at h with hd hs
    obtain ⟨v, rfl⟩ := exists_cons_of_isPrefix hu hpre
    rcases hu.of_cons with ⟨hd', -⟩ | ⟨-, hs', -⟩ | ⟨-, -, hop⟩
    · exact absurd hd' hd
    · exact absurd hs' hs
    · exact not_mem_of_operator?_none h _ _ hop hpre

end Lexeme

end Treewalk
