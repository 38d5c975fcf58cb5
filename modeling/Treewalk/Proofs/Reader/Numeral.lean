/-
The value of a numeral in a program.

Every number token is a spelling, and the reader gives it a value wherever it takes it (`numeral_isNearest_iff`). The
value is the nearest number unless the numeral is out of range and spelled against its size; `Spelling.wide` is such a
numeral. So what the lexer takes for a number is a numeral to its last byte, and no token of a text is refused as one
(`Block.numerals_are_valid`).
-/
import Treewalk.Proofs.Grammar.Complete
import Treewalk.Proofs.Reader.Refusals
import Treewalk.Proofs.Token.Scanning

namespace Treewalk

namespace Numeral

/-- a one with 401 zeros, times a tenth: far beyond the largest number, with a minus in its exponent -/
def Spelling.wide : Spelling where
  whole := 49 :: List.replicate 401 48
  fraction := []
  exponent := some ⟨101, [45], [49], .inl rfl, .inr (.inr rfl), by decide, List.forall_mem_singleton.2 rfl⟩
  whole_ne_nil := List.cons_ne_nil _ _
  isDigit_whole := by
    intro b hb
    rcases List.mem_cons.1 hb with rfl | hb
    · rfl
    · rw [List.eq_of_mem_replicate hb]
      rfl
  isDigit_fraction := by simp

theorem Spelling.value_wide : Spelling.wide.value = 10 ^ (400 : Int) := by
  have hwhole : digitsValue Spelling.wide.whole = 10 ^ 401 := by
    rw [show Spelling.wide.whole = [49] ++ List.replicate 401 48 from rfl, digitsValue_append,
      digitsValue_replicate_zero, List.length_replicate, show digitsValue [49] = 1 from rfl, one_mul, add_zero]
  have hfraction : digitsValue Spelling.wide.fraction = 0 := rfl
  have hexp : Spelling.wide.exponentValue = -1 := by decide
  rw [Spelling.value, hwhole, hfraction, hexp, Nat.cast_zero, zero_div, add_zero, Nat.cast_pow, ← zpow_natCast,
    Nat.cast_ofNat, ← zpow_add₀ (by norm_num)]
  rfl

theorem Spelling.misread_wide : Spelling.wide.Misread :=
  .inl ⟨by rw [Spelling.value_wide]; exact overflow_le_ten_zpow, rfl⟩

end Numeral

namespace Token

/-- **The value of a numeral.** A number token of a text is a spelling, and where an expression starts it is read as a
node with a value. The value is the nearest number to the decimal, except for an out-of-range decimal whose spelling
points the wrong way: a large one gets zero, and a small one infinity. -/
theorem numeral_isNearest_iff {o : Origin} {t : Bytes} {ts : List Token} {tk : Token} (h : scan o t = .ok ts)
    (htk : tk ∈ ts) (hk : tk.kind = .number) :
    (∃ n : Numeral.Spelling, n.text = tk.text) ∧
      ∀ n : Numeral.Spelling, n.text = tk.text → ∃ x : Number,
        (∀ (s : Reader.State) (goal : Reader.Goal) (p : List Reader.Pending), s.phase = .operand goal p →
          s.step tk = .ok { s with phase := .operator goal p (.numeral tk x) }) ∧
        (x.IsNearest n.value ↔ ¬ n.Misread) ∧
        (n.Misread → (Magnitude.overflow ≤ n.value ∧ x = .zero) ∨
          (n.value ≤ Numeral.underflow ∧ x = .infinity false)) := by
  constructor
  · rcases exists_next?_of_mem_scanFrom h htk with hend | ⟨u, hu⟩
    · rw [hk] at hend
      cases hend
    · rw [hk] at hu
      exact Lexeme.exists_spelling_of_next? hu
  · intro n hn
    obtain ⟨x, hx, hnear, hmis⟩ := Numeral.read?_text n
    refine ⟨x, fun s goal p hs => ?_, hnear, hmis⟩
    rw [hn] at hx
    simp [Reader.State.step, Reader.State.startOperand, hs, hk, hx]

/-- `10 ^ 400`, written with the exponent `-1`, is read as zero. -/
theorem wide_numeral_is_zero :
    ∃ ts tk, scan ⟨bytes "wide", none⟩ Numeral.Spelling.wide.text = .ok ts ∧ tk ∈ ts ∧ tk.kind = .number ∧
      ∃ x : Number, (∀ (s : Reader.State) (goal : Reader.Goal) (p : List Reader.Pending), s.phase = .operand goal p →
          s.step tk = .ok { s with phase := .operator goal p (.numeral tk x) }) ∧
        x = .zero ∧ ¬ x.IsNearest Numeral.Spelling.wide.value := by
  have hscan := Scans.number Numeral.Spelling.wide (by simp [Bytes.Stops]) scans_nil
  rw [List.append_nil] at hscan
  obtain ⟨ts, hts, hls⟩ := hscan ⟨bytes "wide", none⟩ .start
  obtain ⟨tk, htk, hlex⟩ : ∃ tk ∈ ts, tk.lexeme = (.number, Numeral.Spelling.wide.text) := by
    rw [← List.mem_map, hls]
    exact List.mem_cons_self
  obtain ⟨hkind, htext⟩ := Prod.mk.inj hlex
  obtain ⟨x, hstep, hnear, hmis⟩ := (numeral_isNearest_iff hts htk hkind).2 Numeral.Spelling.wide htext.symm
  refine ⟨ts, tk, hts, htk, hkind, x, hstep, ?_, fun h => hnear.1 h Numeral.Spelling.misread_wide⟩
  rcases hmis Numeral.Spelling.misread_wide with ⟨-, hx⟩ | ⟨hle, -⟩
  · exact hx
  · refine absurd (Numeral.underflow_lt_overflow.trans_le ?_) (not_lt.2 hle)
    rw [Numeral.Spelling.value_wide]
    exact Numeral.overflow_le_ten_zpow

/-- every number token that is scanned has a value -/
theorem numeralsRead_of_scan {o : Origin} {t : Bytes} {ts : List Token} (h : scan o t = .ok ts) : NumeralsRead ts := by
  intro tk htk hk
  obtain ⟨n, hn⟩ := exists_spelling_of_mem_scanFrom h htk hk
  obtain ⟨x, hx, -⟩ := Numeral.read?_text n
  rw [← hn, hx, Option.isSome_some]

end Token

/-- the only objection with such a message is to a number -/
theorem Reader.Objection.numeral_of_message {t : Token} {c : Cause} (h : Objection t c)
    (hmessage : bytes "Invalid numeric literal" <+: c.message) : t.kind = .number ∧ Numeral.read? t.text = none := by
  -- the other messages start with another letter
  have hhead : c.message.head? = some 73 := by
    obtain ⟨rest, hrest⟩ := hmessage
    rw [← hrest]
    rfl
  cases h with
  | numeral hk hr => exact ⟨hk, hr⟩
  | expected what => cases what <;> cases hhead
  | statement => cases hhead
  | expression => cases hhead
  | binding name => cases hhead
  | duplicate function => cases hhead
  | unterminated => cases hhead

/-- **Numerals are valid.** What the lexer takes for a number at the start of a text is a numeral to its last byte, in
range or not, and so is every number token of a text. If the reader refuses the tokens of a text, it is for another
reason than an invalid numeral. -/
theorem Block.numerals_are_valid :
    (∀ t w, Lexeme.next? t = some (.number, w) → ∃ r, Numeral.scan? w = some (r, [])) ∧
      ∀ o t ts, Token.scan o t = .ok ts →
        (∀ tk ∈ ts, tk.kind = .number → ∃ r, Numeral.scan? tk.text = some (r, [])) ∧
        ∀ d, Block.parse ts = .error d → ¬ bytes "Invalid numeric literal" <+: d.cause.message := by
  refine ⟨fun t w h => ?_, fun o t ts hts => ⟨fun tk htk hk => ?_, fun d hd hmessage => ?_⟩⟩
  · obtain ⟨n, rfl⟩ := Lexeme.exists_spelling_of_next? h
    exact ⟨_, Numeral.scan?_text n⟩
  · obtain ⟨n, hn⟩ := Token.exists_spelling_of_mem_scanFrom hts htk hk
    exact ⟨_, hn ▸ Numeral.scan?_text n⟩
  · obtain ⟨us, tk, s, hprefix, -, -, ⟨-, hobjection⟩, -⟩ := Reader.exists_objection hd
    obtain ⟨hk, hread⟩ := hobjection.numeral_of_message hmessage
    have htk : tk ∈ ts ++ [Reader.endToken] := hprefix.subset (by simp)
    rcases List.mem_append.1 htk with htk | htk
    · have hsome := Token.numeralsRead_of_scan hts tk htk hk
      rw [hread] at hsome
      cases hsome
    · obtain rfl := List.mem_singleton.1 htk
      cases hk

/-- the tokens of `print 12.5e+x`, where no digits make an exponent -/
def Token.bareMark : List Token :=
  let token (k : Kind) (text : String) (column : Int) : Token :=
    ⟨k, bytes text, ⟨bytes "mark", 1, column, (bytes text).length, none⟩⟩
  [token .print "print" 1, token .number "12.5" 7, token .identifier "e" 11, token .plus "+" 12,
    token .identifier "x" 13, token .endOfInput "" 14]

/-- The letter `e` is left to a statement of its own, and that is refused, not the numeral. -/
theorem Block.numerals_are_valid_bareMark :
    let d : Diagnostic := ⟨.expectedBinding (bytes "e"), ⟨bytes "mark", 1, 12, 1, none⟩⟩
    Token.scan ⟨bytes "mark", none⟩ (bytes "print 12.5e+x") = .ok Token.bareMark ∧
      Block.parse Token.bareMark = .error d ∧ (∃ r, Numeral.scan? (bytes "12.5") = some (r, [])) ∧
      ¬ bytes "Invalid numeric literal" <+: d.cause.message := by
  intro d
  have hscan : Token.scan ⟨bytes "mark", none⟩ (bytes "print 12.5e+x") = .ok Token.bareMark := by decide +kernel
  have hparse : Block.parse Token.bareMark = .error d := rfl
  obtain ⟨hlexemes, htexts⟩ := Block.numerals_are_valid
  exact ⟨hscan, hparse, hlexemes (bytes "12.5e+x") _ (by decide +kernel), (htexts _ _ _ hscan).2 d hparse⟩

end Treewalk
