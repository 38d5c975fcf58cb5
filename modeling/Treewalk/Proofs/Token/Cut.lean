/-
Where the tokens of a text stand.

A text is a gap and then lexemes, each with the gap behind it (`Piece`). `Cut` says that each lexeme is the longest one
at its place and that no comment starts there, and `Gap` says what a gap is. Lines and columns are counted in the text
itself: `Position.behind` is the place behind a text, by its line feeds and by the bytes since the last one. The scanner
cuts a text in this way and gives each lexeme its place (`Token.scan_cuts_text`); if it fails, then it has cut all that
stands before a byte at which neither a gap nor a lexeme starts.
-/
import Treewalk.Proofs.Token.Longest

namespace Treewalk

/-! ## Counting lines and columns -/

namespace Position

/-- the place behind a text: one more than its line feeds, and one more than the bytes since the last of them -/
def behind (t : Bytes) : Position := ⟨1 + t.count Bytes.lf, 1 + (t.reverse.takeWhile (· != Bytes.lf)).length⟩

theorem behind_append_singleton (t : Bytes) (b : UInt8) : behind (t ++ [b]) = (behind t).after b := by
  by_cases hb : b = Bytes.lf
  · simp [behind, after, hb, Nat.add_assoc]
  · simp [behind, after, hb, Nat.add_comm]

theorem behind_append (t u : Bytes) : behind (t ++ u) = (behind t).afterAll u := by
  induction u generalizing t with
  | nil => simp [afterAll]
  | cons b u ih =>
    rw [List.append_cons, ih, behind_append_singleton]
    rfl

/-- no two places along a text are the same -/
theorem eq_nil_of_behind_append {t u : Bytes} (h : behind (t ++ u) = behind t) : u = [] := by
  obtain ⟨hline, hcolumn⟩ := Position.mk.inj h
  have hcount : u.count Bytes.lf = 0 := by
    rw [List.count_append] at hline
    omega
  have hall := Bytes.bne_of_notMem fun hmem => List.count_eq_zero.1 hcount (List.mem_reverse.1 hmem)
  rw [List.reverse_append, List.takeWhile_append_of_pos hall, List.length_append, List.length_reverse] at hcolumn
  exact List.length_eq_zero_iff.1 (by omega)

end Position

/-! ## Gaps -/

namespace Lexeme

/-- blanks and comments in front of `rest`; a comment goes up to the end of its line -/
inductive Gap : Bytes → Bytes → Prop where
  | nil {rest : Bytes} : Gap [] rest
  | blank {b : UInt8} {g rest : Bytes} (hb : isBlank b = true) (h : Gap g rest) : Gap (b :: g) rest
  | comment {c g rest : Bytes} (hc : Bytes.lf ∉ c) (hend : ∀ b ∈ (g ++ rest).head?, b = Bytes.lf) (h : Gap g rest) :
      Gap (47 :: 47 :: (c ++ g)) rest

/-- neither a gap nor a lexeme starts the text -/
structure Barren (t : Bytes) : Prop where
  no_gap : ∀ g rest, Gap g rest → g ++ rest = t → g = []
  no_lexeme : ∀ k w, IsLexeme k w → ¬ w <+: t

/-- a comment is two slashes and all that follows up to the end of the line -/
theorem comment_eq {t : Bytes} (h : 0 < (comment t).length) :
    ∃ c rest, comment t = 47 :: 47 :: c ∧ t = 47 :: 47 :: (c ++ rest) ∧ Bytes.lf ∉ c ∧
      ∀ b ∈ rest.head?, b = Bytes.lf := by
  unfold comment at h ⊢
  split at h
  · rename_i r
    refine ⟨r.takeWhile (· != Bytes.lf), r.dropWhile (· != Bytes.lf), rfl, ?_, ?_, ?_⟩
    · rw [List.takeWhile_append_dropWhile]
    · intro hmem
      simpa using List.mem_takeWhile_imp hmem
    · intro b hb
      have := List.head?_dropWhile_not (fun b => b != Bytes.lf) r
      rw [hb] at this
      simpa using this
  · simp at h

theorem not_isPrefix_of_comment {t : Bytes} (h : ¬ 0 < (comment t).length) : ¬ [47, 47] <+: t := by
  rintro ⟨r, rfl⟩
  exact h (by simp [comment, Bytes.lf])

theorem barren_of_next?_none {b : UInt8} {r : Bytes} (hb : ¬ isBlank b = true) (hc : ¬ [47, 47] <+: b :: r)
    (h : next? (b :: r) = none) : Barren (b :: r) := by
  refine ⟨?_, not_isLexeme_of_next?_none h⟩
  intro g rest hg heq
  cases hg with
  | nil => rfl
  | blank hb' =>
    obtain ⟨rfl, -⟩ := List.cons.inj heq
    exact absurd hb' hb
  | comment hc' =>
    exact absurd ⟨_, heq⟩ hc

end Lexeme

/-! ## Pieces -/

/-- a lexeme and the gap behind it -/
structure Piece where
  kind : Kind
  text : Bytes
  gap : Bytes

namespace Piece

open Lexeme (Gap Longest)

def spell (ps : List Piece) : Bytes := ps.flatMap fun p => p.text ++ p.gap

theorem spell_cons (p : Piece) (ps : List Piece) : spell (p :: ps) = p.text ++ (p.gap ++ spell ps) := by
  simp [spell]

/-- in front of `rest`, each lexeme is the longest one at its place, no comment starts there, and a gap follows it -/
def Cut (rest : Bytes) : List Piece → Prop
  | [] => True
  | p :: ps => Longest p.kind p.text (p.gap ++ (spell ps ++ rest)) ∧ ¬ [47, 47] <+: spell (p :: ps) ++ rest ∧
      Gap p.gap (spell ps ++ rest) ∧ Cut rest ps

/-- the tokens of pieces that stand behind a text, each at the place of its first byte -/
def tokens (o : Origin) (before : Bytes) : List Piece → List Token
  | [] => []
  | p :: ps =>
    ⟨p.kind, p.text, o.place (.behind before) p.text.length⟩ :: tokens o (before ++ p.text ++ p.gap) ps

end Piece

namespace Token

open Lexeme Piece

/-- the token of the end of a text -/
def endAt (o : Origin) (t : Bytes) : Token := ⟨.endOfInput, [], o.place (.behind t) 0⟩

/-- what a scan of `t` from behind `before` gives: the tokens of pieces and one for the end, or a failure at the byte
behind the pieces -/
inductive Scanned (o : Origin) (before t : Bytes) : Except Diagnostic (List Token) → Prop where
  | ok (g : Bytes) (ps : List Piece) (ht : t = g ++ (spell ps ++ [])) (hg : Gap g (spell ps ++ [])) (hps : Cut [] ps) :
      Scanned o before t (.ok (tokens o (before ++ g) ps ++ [endAt o (before ++ t)]))
  | error (g : Bytes) (ps : List Piece) (b : UInt8) (r : Bytes) (ht : t = g ++ (spell ps ++ b :: r))
      (hg : Gap g (spell ps ++ b :: r)) (hps : Cut (b :: r) ps) (hb : Barren (b :: r)) :
      Scanned o before t (.error ⟨.unexpectedByte b, o.place (.behind (before ++ (g ++ spell ps))) 1⟩)

variable {o : Origin} {before t : Bytes} {result : Except Diagnostic (List Token)}

/-- a gap in front of a text -/
theorem Scanned.gap {c : Bytes} (h : Scanned o (before ++ c) t result)
    (hc : ∀ g rest, g ++ rest = t → Gap g rest → Gap (c ++ g) rest) : Scanned o before (c ++ t) result := by
  cases h with
  | ok g ps ht hg hps =>
    have hok : Scanned o before (c ++ t) _ := .ok (c ++ g) ps (by rw [ht, List.append_assoc]) (hc _ _ ht.symm hg) hps
    simpa [List.append_assoc] using hok
  | error g ps b r ht hg hps hb =>
    have herror : Scanned o before (c ++ t) _ :=
      .error (c ++ g) ps b r (by rw [ht, List.append_assoc]) (hc _ _ ht.symm hg) hps hb
    simpa [List.append_assoc] using herror

/-- a lexeme in front of a text: the gap that the text starts with becomes the gap behind it -/
theorem Scanned.lexeme {k : Kind} {w : Bytes} (h : Scanned o (before ++ w) t result) (hw : Longest k w t)
    (hc : ¬ [47, 47] <+: w ++ t) :
    Scanned o before (w ++ t) (result.map (⟨k, w, o.place (.behind before) w.length⟩ :: ·)) := by
  -- the pieces of the text and the new one in front, whatever is left behind them
  have hcons : ∀ g ps rest, t = g ++ (spell ps ++ rest) → Gap g (spell ps ++ rest) → Cut rest ps →
      w ++ t = [] ++ (spell (⟨k, w, g⟩ :: ps) ++ rest) ∧ Cut rest (⟨k, w, g⟩ :: ps) := by
    intro g ps rest ht hg hps
    have hspell : w ++ t = spell (⟨k, w, g⟩ :: ps) ++ rest := by simp [ht, spell_cons]
    refine ⟨hspell, ?_, ?_, hg, hps⟩
    · rwa [← ht]
    · rwa [← hspell]
  cases h with
  | ok g ps ht hg hps =>
    obtain ⟨hspell, hcut⟩ := hcons g ps [] ht hg hps
    have hok : Scanned o before (w ++ t) _ := .ok [] (⟨k, w, g⟩ :: ps) hspell .nil hcut
    simpa [tokens, Except.map, List.append_assoc] using hok
  | error g ps b r ht hg hps hb =>
    obtain ⟨hspell, hcut⟩ := hcons g ps (b :: r) ht hg hps
    have herror : Scanned o before (w ++ t) _ := .error [] (⟨k, w, g⟩ :: ps) b r hspell .nil hcut hb
    simpa [spell_cons, Except.map, List.append_assoc] using herror

/-- what is left of a text behind a part of it that is not empty -/
theorem drop_of_cons_eq_append {b : UInt8} {r w rest : Bytes} (h : b :: r = w ++ rest) (hw : w ≠ []) :
    r.drop (w.length - 1) = rest := by
  obtain ⟨c, w, rfl⟩ := List.exists_cons_of_ne_nil hw
  obtain ⟨-, rfl⟩ := List.cons.inj h
  exact List.drop_left

/-- the scanner's steps: a blank, a comment, a lexeme, or a byte that starts none of them -/
theorem scanFrom_scanned (o : Origin) (p : Position) (t before : Bytes) (hp : p = .behind before) :
    Scanned o before t (scanFrom o p t) := by
  fun_induction scanFrom o p t generalizing before with
  | case1 p =>
    have hend : Scanned o before [] _ := .ok [] [] rfl .nil trivial
    rw [hp]
    simpa [tokens, endAt] using hend
  | case2 p b r hb ih =>
    refine (ih (before ++ [b]) ?_).gap (c := [b]) fun g rest _ hg => .blank hb hg
    rw [hp, Position.behind_append_singleton]
  | case3 p b r hb c hc ih =>
    obtain ⟨body, rest, hcomment, htext, hlf, hend⟩ := comment_eq hc
    have hsplit : b :: r = comment (b :: r) ++ rest := by rw [hcomment, htext]; rfl
    have hrest := drop_of_cons_eq_append hsplit (List.length_pos_iff.1 hc)
    have hscan := ih (before ++ comment (b :: r)) (by rw [hp, Position.behind_append])
    rw [hrest] at hscan ⊢
    rw [hsplit]
    apply hscan.gap
    intro g rest' hgap hg
    rw [hcomment]
    exact .comment hlf (by rwa [hgap]) hg
  | case4 p b r hb c hc hn =>
    have hbarren := barren_of_next?_none hb (not_isPrefix_of_comment hc) hn
    have herror : Scanned o before (b :: r) _ := .error [] [] b r rfl .nil trivial hbarren
    rw [hp]
    simpa [spell] using herror
  | case5 p b r hb c hc kind text hn tokens hok ih =>
    obtain ⟨rest, hsplit, hlongest⟩ := longest_of_next? hn
    have hrest := drop_of_cons_eq_append hsplit hlongest.isLexeme.ne_nil
    have hscan := ih (before ++ text) (by rw [hp, Position.behind_append])
    rw [hrest] at hscan hok
    have hlexeme := hscan.lexeme hlongest (by rw [← hsplit]; exact not_isPrefix_of_comment hc)
    rw [hok, ← hsplit, ← hp] at hlexeme
    exact hlexeme
  | case6 p b r hb c hc kind text hn d herror ih =>
    obtain ⟨rest, hsplit, hlongest⟩ := longest_of_next? hn
    have hrest := drop_of_cons_eq_append hsplit hlongest.isLexeme.ne_nil
    have hscan := ih (before ++ text) (by rw [hp, Position.behind_append])
    rw [hrest] at hscan herror
    have hlexeme := hscan.lexeme hlongest (by rw [← hsplit]; exact not_isPrefix_of_comment hc)
    rw [herror, ← hsplit] at hlexeme
    exact hlexeme

theorem scan_eq_ok {ts : List Token} (h : scan o t = .ok ts) :
    ∃ g ps, t = g ++ spell ps ∧ Cut [] ps ∧ ts = tokens o g ps ++ [endAt o t] := by
  have hscan := scanFrom_scanned o .start t [] rfl
  rw [← scan, h] at hscan
  generalize hresult : (Except.ok ts : Except Diagnostic (List Token)) = result at hscan
  cases hscan with
  | ok g ps ht _ hps =>
    cases hresult
    exact ⟨g, ps, by rwa [List.append_nil] at ht, hps, rfl⟩
  | error => cases hresult

theorem scan_eq_error {d : Diagnostic} (h : scan o t = .error d) :
    ∃ before b r, t = before ++ b :: r ∧ Barren (b :: r) ∧ d = ⟨.unexpectedByte b, o.place (.behind before) 1⟩ := by
  have hscan := scanFrom_scanned o .start t [] rfl
  rw [← scan, h] at hscan
  generalize hresult : (Except.error d : Except Diagnostic (List Token)) = result at hscan
  cases hscan with
  | ok => cases hresult
  | error g ps b r ht _ _ hb =>
    cases hresult
    exact ⟨g ++ spell ps, b, r, by rw [ht, List.append_assoc], hb, rfl⟩

/-- a token of a scan stands behind `before`, and behind some more text or none -/
theorem exists_location {ps : List Piece} {tk : Token} (h : tk ∈ tokens o before ps ++ [endAt o (before ++ spell ps)]) :
    ∃ u n, tk.location = o.place (.behind (before ++ u)) n := by
  induction ps generalizing before with
  | nil =>
    obtain rfl := List.mem_singleton.1 h
    exact ⟨spell [], 0, rfl⟩
  | cons p ps ih =>
    have hend : before ++ spell (p :: ps) = before ++ p.text ++ p.gap ++ spell ps := by simp [spell_cons]
    rw [hend] at h
    rcases List.mem_cons.1 h with rfl | h
    · exact ⟨[], _, by rw [List.append_nil]⟩
    · obtain ⟨u, n, hu⟩ := ih h
      exact ⟨p.text ++ (p.gap ++ u), n, by rw [hu]; simp [List.append_assoc]⟩

theorem position_of_place {p q : Position} {m n : Nat} (h : o.place p m = o.place q n) : p = q := by
  obtain ⟨-, hline, hcolumn, -⟩ := Location.mk.inj h
  obtain ⟨line, column⟩ := p
  obtain ⟨line', column'⟩ := q
  simp only [Int.natCast_inj] at hline hcolumn
  rw [hline, hcolumn]

theorem nodup_locations_of_cut {ps : List Piece} (h : Cut [] ps) :
    ((tokens o before ps ++ [endAt o (before ++ spell ps)]).map (·.location)).Nodup := by
  induction ps generalizing before with
  | nil => simp [tokens]
  | cons p ps ih =>
    obtain ⟨hlongest, -, -, hps⟩ := h
    have hend : before ++ spell (p :: ps) = before ++ p.text ++ p.gap ++ spell ps := by simp [spell_cons]
    rw [hend]
    refine List.nodup_cons.2 ⟨?_, ih hps⟩
    intro hmem
    -- a later token stands behind this one's text, which is not empty
    obtain ⟨tk, htk, hlocation⟩ := List.mem_map.1 hmem
    obtain ⟨u, n, hu⟩ := exists_location htk
    rw [hu, List.append_assoc, List.append_assoc] at hlocation
    have hnil := Position.eq_nil_of_behind_append (position_of_place hlocation)
    exact hlongest.isLexeme.ne_nil (List.append_eq_nil_iff.1 hnil).1

/-- no two tokens of a scan stand at the same place, and the last one is the end of input -/
theorem nodup_locations_of_scan {ts : List Token} (h : scan o t = .ok ts) :
    (ts.map (·.location)).Nodup ∧ ∃ tk ∈ ts, tk.kind = .endOfInput := by
  obtain ⟨g, ps, rfl, hps, rfl⟩ := scan_eq_ok h
  exact ⟨nodup_locations_of_cut hps, endAt o (g ++ spell ps), by simp, rfl⟩

theorem exists_text_of_mem_tokens {ps : List Piece} {tk : Token} (hps : Cut [] ps) (h : tk ∈ tokens o before ps) :
    ∃ u rest, spell ps = u ++ (tk.text ++ rest) ∧ Longest tk.kind tk.text rest ∧
      tk.location = o.place (.behind (before ++ u)) tk.text.length := by
  induction ps generalizing before with
  | nil => cases h
  | cons p ps ih =>
    obtain ⟨hlongest, -, -, hcut⟩ := hps
    rw [List.append_nil] at hlongest
    rcases List.mem_cons.1 h with rfl | h
    · exact ⟨[], p.gap ++ spell ps, spell_cons p ps, hlongest, by rw [List.append_nil]⟩
    · obtain ⟨u, rest, hspell, hlexeme, hlocation⟩ := ih hcut h
      refine ⟨p.text ++ (p.gap ++ u), rest, ?_, hlexeme, ?_⟩
      · rw [spell_cons, hspell]
        simp only [List.append_assoc]
      · rw [hlocation]
        simp only [List.append_assoc]

/-- a token of a scan is the end of the text, or the longest lexeme at its place in the text -/
theorem mem_scan_cases {ts : List Token} {tk : Token} (h : scan o t = .ok ts) (htk : tk ∈ ts) :
    tk = endAt o t ∨ ∃ before rest, t = before ++ (tk.text ++ rest) ∧ Longest tk.kind tk.text rest ∧
      tk.location = o.place (.behind before) tk.text.length := by
  obtain ⟨g, ps, htext, hcut, rfl⟩ := scan_eq_ok h
  rcases List.mem_append.1 htk with hmem | hmem
  · obtain ⟨u, rest, hspell, hlongest, hlocation⟩ := exists_text_of_mem_tokens hcut hmem
    exact .inr ⟨g ++ u, rest, by rw [htext, hspell, List.append_assoc], hlongest, hlocation⟩
  · exact .inl (List.mem_singleton.1 hmem)

end Token

end Treewalk
