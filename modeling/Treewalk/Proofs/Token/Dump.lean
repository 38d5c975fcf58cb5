/-
Dumps of token lists.

An escaped text ends at the first bare quote (`Bytes.unquote`), a kind's name has no quotes, and a number ends where the
digits do: so the fields of a token tell their values, but for the file name, which is written as it is. A dump is then
told apart from all others as long as no file name holds a `seam`, which is all that stands between the file names of two
neighbours; a file name that holds one makes one token look like two (`Token.dump_tells_tokens`).

For this, let the place of one token be a start of the place of another one in the same dump. What the longer place has
more ends in a digit. Labels have no digits, and the fields that stand behind a place start neither in a number nor in
an escaped text; so the longer place reaches into the place of the next token, and the seam is in its file name.
-/
import Mathlib.Data.List.Forall2
import Treewalk.Proofs.Text
import Treewalk.Token.Dump

namespace Treewalk

/-! ## Escaped text -/

namespace Bytes

/-- the text before the first quote that is not escaped, and what follows the quote -/
def unquote : Bytes → Option (Bytes × Bytes)
  | [] => none
  | 34 :: r => some ([], r)
  | 92 :: b :: r => (unquote r).map fun p => ((if b = 110 then lf else b) :: p.1, p.2)
  | b :: r => (unquote r).map fun p => (b :: p.1, p.2)

theorem escape_cons (b : UInt8) (t : Bytes) : escape (b :: t) = escape [b] ++ escape t := by
  simp [escape]

/-- a line feed, a quote and a backslash take two bytes, and all other bytes stand for themselves -/
theorem escape_singleton (b : UInt8) : (b = lf ∧ escape [b] = [92, 110]) ∨
    ((b = 34 ∨ b = 92) ∧ escape [b] = [92, b]) ∨ (b ≠ lf ∧ b ≠ 34 ∧ b ≠ 92 ∧ escape [b] = [b]) := by
  by_cases hlf : b = lf
  · exact .inl ⟨hlf, by subst hlf; decide⟩
  · by_cases hb : b = 34 ∨ b = 92
    · exact .inr (.inl ⟨hb, by simp [escape, hlf, hb]⟩)
    · rw [not_or] at hb
      exact .inr (.inr ⟨hlf, hb.1, hb.2, by simp [escape, hlf, hb]⟩)

theorem lf_notMem_escape (t : Bytes) : lf ∉ escape t := by
  induction t with
  | nil => exact List.not_mem_nil
  | cons b t ih =>
    rw [escape_cons, List.mem_append, not_or]
    refine ⟨?_, ih⟩
    rcases escape_singleton b with ⟨-, h⟩ | ⟨hb, h⟩ | ⟨hlf, -, -, h⟩
    · rw [h]
      decide
    · rw [h]
      rcases hb with rfl | rfl <;> decide
    · rw [h]
      exact fun hmem => hlf (List.mem_singleton.1 hmem).symm

theorem unquote_escape (t r : Bytes) : unquote (escape t ++ 34 :: r) = some (t, r) := by
  induction t with
  | nil => rfl
  | cons b t ih =>
    rw [escape_cons, List.append_assoc]
    rcases escape_singleton b with ⟨rfl, h⟩ | ⟨hb, h⟩ | ⟨-, h34, h92, h⟩
    · rw [h]
      simp [unquote, ih]
    · rw [h]
      rcases hb with rfl | rfl <;> simp [unquote, ih]
    · rw [h, List.singleton_append, unquote.eq_4 b _ h34 (fun _ _ hb => absurd hb h92), ih]
      rfl

/-- an escaped text ends at the first quote that is not escaped -/
theorem escape_append_inj {t u r s : Bytes} (h : escape t ++ 34 :: r = escape u ++ 34 :: s) : t = u ∧ r = s := by
  have hread : some (t, r) = some (u, s) := by
    rw [← unquote_escape, h, unquote_escape]
  exact Prod.mk.inj (Option.some.inj hread)

/-- a text without quotes ends at the first quote -/
theorem plain_append_inj {t u r s : Bytes} (ht : t.all (· != 34)) (hu : u.all (· != 34))
    (h : t ++ 34 :: r = u ++ 34 :: s) : t = u ∧ r = s := by
  obtain ⟨htext, hrest⟩ :=
    append_inj_of_stops (List.all_eq_true.1 ht) (List.all_eq_true.1 hu) (stops_cons rfl) (stops_cons rfl) h
  exact ⟨htext, (List.cons.inj hrest).2⟩

end Bytes

/-! ## Kinds by their names -/

namespace Kind

/-- the kind is one of the language -/
def Listed : Kind → Prop
  | .unlisted _ => False
  | _ => True

/-- the kinds of the language -/
def all : List Kind :=
  [.function, .print, .loop, .identifier, .number, .boolean, .semicolon, .comma, .openParen, .closeParen, .openBrace,
    .closeBrace, .openBracket, .closeBracket, .colon, .question, .walrus, .assign, .endOfInput, .plus, .minus, .star,
    .slash, .percent, .power, .and, .or, .not, .greater, .greaterEqual, .less, .lessEqual, .equal, .notEqual, .unknown]

theorem mem_all {k : Kind} (h : k.Listed) : k ∈ all := by
  cases k with
  | unlisted => exact h.elim
  | _ => decide

theorem name_injOn : ∀ k ∈ all, ∀ k' ∈ all, bytes k.name = bytes k'.name → k = k' := by
  decide +kernel

theorem name_plain : ∀ k ∈ all, (bytes k.name).all (· != 34) := by
  decide +kernel

theorem name_digitFree : ∀ k ∈ all, (bytes k.name).all (fun b => !Numeral.isDigit b) := by
  decide +kernel

/-- a name in quotes tells the kind -/
theorem name_append_inj {k k' : Kind} (hk : k.Listed) (hk' : k'.Listed) {r s : Bytes}
    (h : bytes k.name ++ 34 :: r = bytes k'.name ++ 34 :: s) : k = k' ∧ r = s := by
  obtain ⟨hname, hrest⟩ := Bytes.plain_append_inj (name_plain k (mem_all hk)) (name_plain k' (mem_all hk')) h
  exact ⟨name_injOn k (mem_all hk) k' (mem_all hk') hname, hrest⟩

end Kind

/-! ## The parts of a token's fields -/

namespace Token

/-- the fields up to the place -/
def opening (t : Token) : Bytes :=
  bytes "  \x7b\n" ++ (bytes "    \"type\": \"" ++ (bytes t.kind.name ++ (bytes "\",\n" ++ (bytes "    \"value\": \"" ++
    (t.text.escape ++ (bytes "\",\n" ++ bytes "    \"loc\": \""))))))

/-- the fields behind the place -/
def closing (t : Token) : Bytes :=
  bytes "\",\n" ++ (bytes "    \"length\": " ++ (Bytes.ofInt t.location.length ++ (bytes "\n" ++ bytes "  \x7d")))

theorem dumpFields_eq (t : Token) : t.dumpFields = t.opening ++ (t.location.text ++ t.closing) := by
  simp only [dumpFields, opening, closing, List.append_assoc]

variable {t u : Token} {r s : Bytes}

theorem opening_append_inj (ht : t.kind.Listed) (hu : u.kind.Listed) (h : t.opening ++ r = u.opening ++ s) :
    t.kind = u.kind ∧ t.text = u.text ∧ r = s := by
  simp only [opening, List.append_assoc] at h
  obtain ⟨hkind, hvalue⟩ := Kind.name_append_inj ht hu (List.append_cancel_left (List.append_cancel_left h))
  obtain ⟨htext, hplace⟩ := Bytes.escape_append_inj (List.append_cancel_left (List.append_cancel_left hvalue))
  exact ⟨hkind, htext, List.append_cancel_left (List.append_cancel_left hplace)⟩

theorem closing_append_inj (h : t.closing ++ r = u.closing ++ s) :
    t.location.length = u.location.length ∧ r = s := by
  simp only [closing, List.append_assoc] at h
  have hstop : ∀ r : Bytes, Bytes.Stops Bytes.isSigned (bytes "\n" ++ r) := fun r => Bytes.stops_cons (b := 10) rfl
  obtain ⟨hlength, hrest⟩ := Bytes.append_inj_of_stops Bytes.isSigned_of_mem_ofInt Bytes.isSigned_of_mem_ofInt
    (hstop _) (hstop _) (List.append_cancel_left (List.append_cancel_left h))
  exact ⟨Bytes.ofInt_injective hlength, List.append_cancel_left (List.append_cancel_left hrest)⟩

/-! ## The list -/

/-- what follows a token's fields in a dump -/
def after : List Token → Bytes
  | [] => bytes "\n" ++ bytes "]\n"
  | u :: us => bytes ",\n" ++ (u.opening ++ (u.location.text ++ (u.closing ++ after us)))

theorem dump_cons (t : Token) (ts : List Token) :
    dump (t :: ts) = bytes "[\n" ++ (t.opening ++ (t.location.text ++ (t.closing ++ after ts))) := by
  have hall : dump.dumpAll (t :: ts) ++ bytes "]\n" = t.opening ++ (t.location.text ++ (t.closing ++ after ts)) := by
    induction ts generalizing t with
    | nil => simp only [dump.dumpAll, dumpFields_eq, after, List.append_assoc]
    | cons u us ih =>
      rw [dump.dumpAll, List.append_assoc, ih, after, dumpFields_eq]
      · simp only [List.append_assoc]
      · exact nofun
  rw [dump, List.append_assoc, hall]

/-! ## Seams -/

/-- the line and the column of a place, as they follow the file name -/
def stamp (t : Token) : Bytes :=
  bytes ":" ++ (Bytes.ofInt t.location.line ++ (bytes ":" ++ Bytes.ofInt t.location.column))

theorem text_location (t : Token) : t.location.text = t.location.file ++ t.stamp := by
  simp only [Location.text, stamp, List.append_assoc]

/-- all that stands between the file names of two neighbours in a dump -/
def seam (t u : Token) : Bytes := t.stamp ++ (t.closing ++ (bytes ",\n" ++ u.opening))

/-- the file name has the seam of two tokens in it -/
def Forges (file : Bytes) : Prop := ∃ t u : Token, u.kind.Listed ∧ t.seam u <:+: file

/-- the last byte is a digit -/
def EndsInDigit (d : Bytes) : Prop := ∃ b ∈ d.getLast?, Numeral.isDigit b = true

theorem EndsInDigit.ne_nil {d : Bytes} (h : EndsInDigit d) : d ≠ [] := by
  rintro rfl
  obtain ⟨b, hb, -⟩ := h
  cases hb

theorem EndsInDigit.of_append {d e : Bytes} (h : EndsInDigit (d ++ e)) (he : e ≠ []) : EndsInDigit e := by
  obtain ⟨b, hb, hdigit⟩ := h
  rw [List.getLast?_append_of_ne_nil _ he] at hb
  exact ⟨b, hb, hdigit⟩

theorem EndsInDigit.append {e : Bytes} (h : EndsInDigit e) (d : Bytes) : EndsInDigit (d ++ e) := by
  rwa [EndsInDigit, List.getLast?_append_of_ne_nil _ h.ne_nil]

theorem endsInDigit_ofInt (n : Int) : EndsInDigit (Bytes.ofInt n) := by
  have hnat : ∀ m, EndsInDigit (Bytes.ofNat m) := by
    intro m
    have hne := Bytes.ofNat_ne_nil m
    exact ⟨(Bytes.ofNat m).getLast hne, List.getLast?_eq_some_getLast hne,
      Bytes.isDigit_of_mem_ofNat _ (List.getLast_mem hne)⟩
  cases n with
  | ofNat m => exact hnat m
  | negSucc m => exact (hnat (m + 1)).append _

theorem endsInDigit_stamp (t : Token) : EndsInDigit t.stamp :=
  (((endsInDigit_ofInt _).append _).append _).append _

/-- `d` goes on behind `v`, if what follows `d` does not start in `v` or right behind it -/
theorem EndsInDigit.skip_field {v x d y : Bytes} (hd : EndsInDigit d) (h : v ++ x = d ++ y)
    (hv : ∀ c, v = d ++ c → y ≠ c ++ x) : ∃ e, d = v ++ e ∧ x = e ++ y ∧ EndsInDigit e := by
  rcases List.append_eq_append_iff.1 h with ⟨e, rfl, rfl⟩ | ⟨c, rfl, rfl⟩
  · refine ⟨e, rfl, rfl, hd.of_append ?_⟩
    rintro rfl
    exact hv [] (by simp) rfl
  · exact absurd rfl (hv c rfl)

/-- `d` ends in no text without digits -/
theorem EndsInDigit.skip {v x d y : Bytes} (hd : EndsInDigit d) (h : v ++ x = d ++ y)
    (hv : v.all (fun b => !Numeral.isDigit b)) : ∃ e, d = v ++ e ∧ x = e ++ y ∧ EndsInDigit e := by
  refine hd.skip_field h fun c hc => ?_
  obtain ⟨b, hb, hdigit⟩ := hd
  have hmem : b ∈ v := hc ▸ List.mem_append_left c (List.mem_of_getLast? hb)
  exact absurd (List.all_eq_true.1 hv b hmem) (by simp [hdigit])

/-- a line and a column have no quotes -/
theorem quote_notMem_stamp (t : Token) : 34 ∉ t.stamp := by
  have hnumber : ∀ n, 34 ∉ Bytes.ofInt n := fun n hmem => absurd (Bytes.isSigned_of_mem_ofInt _ hmem) (by decide)
  simp only [stamp, List.mem_append, not_or]
  exact ⟨by decide, hnumber _, by decide, hnumber _⟩

variable {v : Token} {x d : Bytes}

/-- the fields behind a place are a label without digits, a number and a brace; the fields behind another place do not
start in them -/
theorem EndsInDigit.skip_closing (hd : EndsInDigit d) (h : t.closing ++ x = d ++ (u.closing ++ r)) :
    ∃ e, d = t.closing ++ e ∧ x = e ++ (u.closing ++ r) ∧ EndsInDigit e := by
  simp only [closing, List.append_assoc] at h
  obtain ⟨d₁, rfl, h₁, hd₁⟩ := hd.skip h (by decide +kernel)
  obtain ⟨d₂, rfl, h₂, hd₂⟩ := hd₁.skip h₁ (by decide +kernel)
  obtain ⟨d₃, rfl, h₃, hd₃⟩ := hd₂.skip_field h₂ fun c hc heq => by
    cases c with
    | nil => exact absurd (List.cons.inj heq).1 (by decide)
    | cons b c =>
      have hquote : 34 ∈ Bytes.ofInt t.location.length := by simp [hc, ← (List.cons.inj heq).1]
      exact absurd (Bytes.isSigned_of_mem_ofInt _ hquote) (by decide)
  obtain ⟨d₄, rfl, h₄, hd₄⟩ := hd₃.skip h₃ (by decide +kernel)
  obtain ⟨d₅, rfl, h₅, hd₅⟩ := hd₄.skip h₄ (by decide +kernel)
  exact ⟨d₅, by simp only [closing, List.append_assoc], by simpa only [closing, List.append_assoc] using h₅, hd₅⟩

/-- the fields behind a place start neither in an escaped text nor right behind one: such a text has no line feed, and
the label that follows it is another one -/
theorem closing_append_ne {c : Bytes} (hc : Bytes.lf ∉ c) :
    u.closing ++ r ≠ c ++ (bytes "\",\n" ++ (bytes "    \"loc\": \"" ++ x)) := by
  intro h
  have hline : Bytes.lf ∉ c ++ [34, 44] := by
    rw [List.mem_append, not_or]
    exact ⟨hc, by decide⟩
  have hcut : [34, 44] ++ Bytes.lf :: (bytes "    \"length\": " ++ (Bytes.ofInt u.location.length ++
      (bytes "\n" ++ bytes "  \x7d")) ++ r) = c ++ [34, 44] ++ Bytes.lf :: (bytes "    \"loc\": \"" ++ x) := by
    rw [List.append_assoc c]
    exact h
  obtain ⟨-, hlabel⟩ := Bytes.append_inj_of_stops (Bytes.bne_of_notMem (by decide)) (Bytes.bne_of_notMem hline)
    (Bytes.stops_cons rfl) (Bytes.stops_cons rfl) hcut
  have hletter : some (101 : UInt8) = some 111 := congrArg (fun t : Bytes => t[7]?) hlabel
  exact absurd hletter (by decide)

/-- the fields before a place are labels and a kind without digits, and an escaped text -/
theorem EndsInDigit.skip_opening (hv : v.kind.Listed) (hd : EndsInDigit d)
    (h : v.opening ++ x = d ++ (u.closing ++ r)) :
    ∃ e, d = v.opening ++ e ∧ x = e ++ (u.closing ++ r) ∧ EndsInDigit e := by
  simp only [opening, List.append_assoc] at h
  obtain ⟨d₁, rfl, h₁, hd₁⟩ := hd.skip h (by decide +kernel)
  obtain ⟨d₂, rfl, h₂, hd₂⟩ := hd₁.skip h₁ (by decide +kernel)
  obtain ⟨d₃, rfl, h₃, hd₃⟩ := hd₂.skip h₂ (Kind.name_digitFree _ (Kind.mem_all hv))
  obtain ⟨d₄, rfl, h₄, hd₄⟩ := hd₃.skip h₃ (by decide +kernel)
  obtain ⟨d₅, rfl, h₅, hd₅⟩ := hd₄.skip h₄ (by decide +kernel)
  obtain ⟨d₆, rfl, h₆, hd₆⟩ := hd₅.skip_field h₅ fun c hc =>
    closing_append_ne fun hlf => Bytes.lf_notMem_escape v.text (hc ▸ List.mem_append_right _ hlf)
  obtain ⟨d₇, rfl, h₇, hd₇⟩ := hd₆.skip h₆ (by decide +kernel)
  obtain ⟨d₈, rfl, h₈, hd₈⟩ := hd₇.skip h₇ (by decide +kernel)
  exact ⟨d₈, by simp only [opening, List.append_assoc], h₈, hd₈⟩

theorem getLast?_seam (t v : Token) : (t.seam v).getLast? = some 34 := by
  have hlabel : (bytes "    \"loc\": \"").getLast? = some 34 := by decide
  simp [seam, opening, List.getLast?_append, hlabel]

/-- a place that goes on where another one ends has a seam in its file name -/
theorem eq_nil_or_forges {ts : List Token} (hts : ∀ v ∈ ts, v.kind.Listed)
    (hplace : u.location.text = t.location.text ++ d) (h : t.closing ++ after ts = d ++ (u.closing ++ r)) :
    d = [] ∨ Forges u.location.file := by
  by_cases hne : d = []
  · exact .inl hne
  right
  have hd : EndsInDigit d := by
    have hend := (endsInDigit_stamp u).append u.location.file
    rw [← text_location, hplace] at hend
    exact hend.of_append hne
  obtain ⟨d₁, rfl, h₁, hd₁⟩ := hd.skip_closing h
  cases ts with
  | nil =>
    -- no digit follows the last token's fields
    obtain ⟨d₂, -, h₂, hd₂⟩ := hd₁.skip (v := after []) (x := []) (by rwa [List.append_nil])
      (by decide +kernel)
    exact absurd (List.append_eq_nil_iff.1 h₂.symm).1 hd₂.ne_nil
  | cons v vs =>
    obtain ⟨d₂, rfl, h₂, hd₂⟩ := hd₁.skip h₁ (by decide +kernel)
    obtain ⟨d₃, rfl, h₃, hd₃⟩ := hd₂.skip_opening (hts v List.mem_cons_self) h₂
    have hsplit : u.location.file ++ u.stamp = t.location.file ++ t.seam v ++ d₃ := by
      rw [← text_location, hplace, text_location, seam]
      simp only [List.append_assoc]
    refine ⟨t, v, hts v List.mem_cons_self, ?_⟩
    rcases List.append_eq_append_iff.1 hsplit with ⟨c, hfile, hstamp⟩ | ⟨c, hfile, -⟩
    · -- the seam ends with a quote, and there is none in the line and the column
      cases hc : c.getLast? with
      | none =>
        rw [List.getLast?_eq_none_iff.1 hc, List.append_nil] at hfile
        exact ⟨t.location.file, [], by rw [hfile, List.append_nil]⟩
      | some b =>
        have hlast := congrArg List.getLast? hfile
        rw [List.getLast?_append, List.getLast?_append, getLast?_seam, hc] at hlast
        obtain rfl : 34 = b := Option.some.inj hlast
        refine absurd ?_ (quote_notMem_stamp u)
        exact hstamp ▸ List.mem_append_left _ (List.mem_of_getLast? hc)
    · exact ⟨t.location.file, c, hfile.symm⟩

/-! ## Reading a dump back -/

/-- tokens that agree in all that a dump shows: whether their sources are at hand is not shown -/
structure Alike (t u : Token) : Prop where
  kind : t.kind = u.kind
  text : t.text = u.text
  place : t.location.text = u.location.text
  length : t.location.length = u.location.length

theorem dump_eq_iff {ts us : List Token} : dump ts = dump us ↔ after ts = after us := by
  cases ts with
  | nil =>
    cases us with
    | nil => simp
    | cons u us =>
      rw [dump_cons]
      exact ⟨fun h => absurd (List.append_cancel_left h) nofun, nofun⟩
  | cons t ts =>
    cases us with
    | nil =>
      rw [dump_cons]
      exact ⟨fun h => absurd (List.append_cancel_left h) nofun, nofun⟩
    | cons u us => rw [dump_cons, dump_cons, after, after, List.append_right_inj, List.append_right_inj]

/-- a token's fields and what follows them tell the token, if no file name has a seam in it -/
theorem alike_of_fields {ts us : List Token} (ht : t.kind.Listed) (hu : u.kind.Listed) (hts : ∀ v ∈ ts, v.kind.Listed)
    (hus : ∀ v ∈ us, v.kind.Listed) (htf : ¬ Forges t.location.file) (huf : ¬ Forges u.location.file)
    (h : t.opening ++ (t.location.text ++ (t.closing ++ after ts)) =
      u.opening ++ (u.location.text ++ (u.closing ++ after us))) : t.Alike u ∧ after ts = after us := by
  obtain ⟨hkind, htext, hrest⟩ := opening_append_inj ht hu h
  have hplace : t.location.text = u.location.text := by
    rcases List.append_eq_append_iff.1 hrest with ⟨d, hd, hclosing⟩ | ⟨d, hd, hclosing⟩
    · rcases eq_nil_or_forges hts hd hclosing with rfl | hforges
      · rw [hd, List.append_nil]
      · exact absurd hforges huf
    · rcases eq_nil_or_forges hus hd hclosing with rfl | hforges
      · rw [hd, List.append_nil]
      · exact absurd hforges htf
  rw [hplace] at hrest
  obtain ⟨hlength, hafter⟩ := closing_append_inj (List.append_cancel_left hrest)
  exact ⟨⟨hkind, htext, hplace, hlength⟩, hafter⟩

theorem alike_of_after {ts us : List Token} (hts : ∀ t ∈ ts, t.kind.Listed ∧ ¬ Forges t.location.file)
    (hus : ∀ u ∈ us, u.kind.Listed ∧ ¬ Forges u.location.file) (h : after ts = after us) :
    List.Forall₂ Alike ts us := by
  induction ts generalizing us with
  | nil =>
    cases us with
    | nil => exact .nil
    | cons u us => cases h
  | cons t ts ih =>
    cases us with
    | nil => cases h
    | cons u us =>
      rw [List.forall_mem_cons] at hts hus
      obtain ⟨⟨ht, htf⟩, hts⟩ := hts
      obtain ⟨⟨hu, huf⟩, hus⟩ := hus
      obtain ⟨halike, hafter⟩ := alike_of_fields ht hu (fun v hv => (hts v hv).1) (fun v hv => (hus v hv).1) htf huf
        (List.append_cancel_left h)
      exact .cons halike (ih hts hus hafter)

/-- a token whose file name has a seam in it is dumped as the two tokens of the seam -/
theorem exists_split (h : Forges t.location.file) : ∃ p q : Token, p.kind = t.kind ∧ q.kind.Listed ∧
    ∀ x, p.opening ++ (p.location.text ++ (p.closing ++ (bytes ",\n" ++ (q.opening ++ (q.location.text ++
      (q.closing ++ x)))))) = t.opening ++ (t.location.text ++ (t.closing ++ x)) := by
  obtain ⟨p, q, hq, before, behind, hfile⟩ := h
  refine ⟨⟨t.kind, t.text, { p.location with file := before }⟩, ⟨q.kind, q.text, { t.location with file := behind }⟩,
    rfl, hq, fun x => ?_⟩
  rw [text_location, text_location, text_location, ← hfile, seam]
  simp only [List.append_assoc]
  rfl

theorem exists_longer {ts : List Token} (hts : ∀ t ∈ ts, t.kind.Listed) (h : ∃ t ∈ ts, Forges t.location.file) :
    ∃ us, (∀ u ∈ us, u.kind.Listed) ∧ after us = after ts ∧ us.length = ts.length + 1 := by
  obtain ⟨t, ht, hforges⟩ := h
  obtain ⟨p, q, hp, hq, hsplit⟩ := exists_split hforges
  induction ts with
  | nil => cases ht
  | cons v vs ih =>
    rw [List.forall_mem_cons] at hts
    rcases List.mem_cons.1 ht with rfl | ht
    · refine ⟨p :: q :: vs, ?_, congrArg (bytes ",\n" ++ ·) (hsplit (after vs)), rfl⟩
      exact List.forall_mem_cons.2 ⟨hp ▸ hts.1, List.forall_mem_cons.2 ⟨hq, hts.2⟩⟩
    · obtain ⟨us, hus, hafter, hlength⟩ := ih hts.2 ht
      refine ⟨v :: us, List.forall_mem_cons.2 ⟨hts.1, hus⟩, ?_, congrArg (· + 1) hlength⟩
      rw [after, hafter, after]

/-- **A dump tells its tokens, unless a file name forges a seam.** Two lists with the same dump agree, token by token,
in kind, text, place and length, if none of their file names has in it what stands between the file names of two
neighbours. A list with such a file name has the same dump as a longer list. -/
theorem dump_tells_tokens {ts us : List Token} (hts : ∀ t ∈ ts, t.kind.Listed) (hus : ∀ u ∈ us, u.kind.Listed) :
    (dump ts = dump us → (∀ t ∈ ts ++ us, ¬ Forges t.location.file) → List.Forall₂ Alike ts us) ∧
    ((∃ t ∈ ts, Forges t.location.file) →
      ∃ vs, (∀ v ∈ vs, v.kind.Listed) ∧ dump vs = dump ts ∧ vs.length = ts.length + 1) := by
  constructor
  · intro h hfiles
    rw [List.forall_mem_append] at hfiles
    exact alike_of_after (fun t ht => ⟨hts t ht, hfiles.1 t ht⟩) (fun u hu => ⟨hus u hu, hfiles.2 u hu⟩)
      (dump_eq_iff.1 h)
  · intro hforges
    obtain ⟨vs, hvs, hafter, hlength⟩ := exists_longer hts hforges
    exact ⟨vs, hvs, dump_eq_iff.2 hafter, hlength⟩

/-- a file name in one line forges no seam -/
theorem not_forges_of_lf_notMem {file : Bytes} (h : Bytes.lf ∉ file) : ¬ Forges file := by
  rintro ⟨t, u, -, hseam⟩
  have hlf : Bytes.lf ∈ t.closing := by
    rw [closing]
    exact List.mem_append_left _ (by decide)
  exact h (hseam.subset (List.mem_append_right _ (List.mem_append_left _ hlf)))

/-- a token in the file `a` -/
def first (source : Option Bytes) : Token := ⟨.identifier, bytes "x", ⟨bytes "a", 1, 1, 1, source⟩⟩

/-- a token in the file `b` -/
def second (source : Option Bytes) : Token := ⟨.number, bytes "2", ⟨bytes "b", 1, 3, 1, source⟩⟩

/-- one token, whose file name has in it what stands between the file names of the other two -/
def forged : Token := ⟨.identifier, bytes "x", ⟨bytes "a:1:1\",\n    \"length\": 1\n  \x7d,\n  \x7b\n" ++
  bytes "    \"type\": \"NUMBER\",\n    \"value\": \"2\",\n    \"loc\": \"b", 1, 3, 1, none⟩⟩

/-- The dump of the two tokens tells them, wherever their sources are at hand, but it is the forged token's dump too. -/
theorem dump_tells_tokens_forged :
    List.Forall₂ Alike [first none, second none] [first (some []), second (some (bytes "x 2"))] ∧
    dump [first none, second none] = dump [forged] ∧ Forges forged.location.file ∧
      ∃ vs, dump vs = dump [forged] ∧ vs.length = 2 := by
  have hlisted : ∀ s s', ∀ t ∈ [first s, second s'], t.kind.Listed := by
    intro s s'
    exact List.forall_mem_cons.2 ⟨trivial, List.forall_mem_singleton.2 trivial⟩
  have hplain : ∀ s s', ∀ t ∈ [first s, second s'], ¬ Forges t.location.file := by
    intro s s'
    have hfirst : ¬ Forges (bytes "a") := not_forges_of_lf_notMem (by decide)
    have hsecond : ¬ Forges (bytes "b") := not_forges_of_lf_notMem (by decide)
    exact List.forall_mem_cons.2 ⟨hfirst, List.forall_mem_singleton.2 hsecond⟩
  have hforged : ∀ t ∈ [forged], t.kind.Listed := List.forall_mem_singleton.2 trivial
  have hseam : Forges forged.location.file :=
    ⟨first none, second none, trivial, bytes "a", bytes "b", by decide +kernel⟩
  obtain ⟨vs, -, hvs, hlength⟩ := (dump_tells_tokens hforged hforged).2 ⟨forged, List.mem_singleton_self _, hseam⟩
  refine ⟨?_, by decide +kernel, hseam, vs, hvs, hlength⟩
  exact (dump_tells_tokens (hlisted _ _) (hlisted _ _)).1 rfl
    (List.forall_mem_append.2 ⟨hplain _ _, hplain _ _⟩)

end Token

end Treewalk
