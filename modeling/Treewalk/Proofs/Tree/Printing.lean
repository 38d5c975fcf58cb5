/-
The lexemes of a printed tree.

A tree is printable if its names are words that are no keywords, its operators are those of the language, its numerals
are finite and without a sign, and nothing is missing. `Expr.lexemes`, `Stmt.lexemes` and `Stmt.blockLexemes` list
what the text of a printable tree is made of, and `scans_blockText` shows that the scanner finds just that, at any
indentation. A lexeme always ends where it should: what follows an expression in a text is a blank, a bracket or a
comma.
-/
import Treewalk.Proofs.Number.Layout
import Treewalk.Proofs.Token.Scanning
import Treewalk.Tree.Printer

namespace Treewalk

/-- a word that is no keyword -/
def IsName (w : Bytes) : Prop := Lexeme.IsWord w ∧ Lexeme.wordKind w = .identifier

instance : DecidablePred IsName := fun w =>
  inferInstanceAs (Decidable (Lexeme.IsWord w ∧ Lexeme.wordKind w = .identifier))

/-- the kind of an operator's spelling -/
def operatorKind? (op : Bytes) : Option Kind := (Lexeme.pairs.lookup op).or (Lexeme.singles.lookup op)

namespace Expr

mutual
/-- the text of the expression spells it -/
def Printable : Expr → Prop
  | .numeral _ x => ∃ m, x = .finite false m
  | .boolean _ _ => True
  | .variable _ x => IsName x
  | .unary _ op e => (UnaryOp.ofText? op).isSome ∧ e.Printable
  | .binary _ op l r => (BinaryOp.ofText? op).isSome ∧ l.Printable ∧ r.Printable
  | .conditional _ c y n => c.Printable ∧ y.Printable ∧ n.Printable
  | .call _ f args => IsName f ∧ AllPrintable args
  | .array _ items => AllPrintable items
  | .subscript _ a i => a.Printable ∧ i.Printable
  | .missing => False

def AllPrintable : List Expr → Prop
  | [] => True
  | e :: es => e.Printable ∧ AllPrintable es
end

mutual
def decidePrintable : (e : Expr) → Decidable e.Printable
  | .numeral _ x => match x with
    | .finite false m => isTrue ⟨m, rfl⟩
    | .finite true _ => isFalse fun ⟨_, h⟩ => by injection h with h; cases h
    | .infinity _ => isFalse fun ⟨_, h⟩ => by injection h
    | .nan => isFalse fun ⟨_, h⟩ => by injection h
  | .boolean _ _ => isTrue trivial
  | .variable _ x => inferInstanceAs (Decidable (IsName x))
  | .unary _ op e =>
    have := decidePrintable e
    inferInstanceAs (Decidable ((UnaryOp.ofText? op).isSome ∧ e.Printable))
  | .binary _ op l r =>
    have := decidePrintable l
    have := decidePrintable r
    inferInstanceAs (Decidable ((BinaryOp.ofText? op).isSome ∧ l.Printable ∧ r.Printable))
  | .conditional _ c y n =>
    have := decidePrintable c
    have := decidePrintable y
    have := decidePrintable n
    inferInstanceAs (Decidable (c.Printable ∧ y.Printable ∧ n.Printable))
  | .call _ f args =>
    have := decideAllPrintable args
    inferInstanceAs (Decidable (IsName f ∧ AllPrintable args))
  | .array _ items => decideAllPrintable items
  | .subscript _ a i =>
    have := decidePrintable a
    have := decidePrintable i
    inferInstanceAs (Decidable (a.Printable ∧ i.Printable))
  | .missing => isFalse id

def decideAllPrintable : (es : List Expr) → Decidable (AllPrintable es)
  | [] => isTrue trivial
  | e :: es =>
    have := decidePrintable e
    have := decideAllPrintable es
    inferInstanceAs (Decidable (e.Printable ∧ AllPrintable es))
end

instance : DecidablePred Printable := decidePrintable

def kindOf (op : Bytes) : Kind := (operatorKind? op).getD .unknown

mutual
/-- what the expression's text is made of -/
def lexemes : Expr → List (Kind × Bytes)
  | .numeral _ x => [(.number, x.text)]
  | .boolean _ b => [(.boolean, bytes (if b then "true" else "false"))]
  | .variable _ x => [(.identifier, x)]
  | .unary _ op e => (.openParen, [40]) :: (kindOf op, op) :: (e.lexemes ++ [(.closeParen, [41])])
  | .binary _ op l r =>
    (.openParen, [40]) :: (l.lexemes ++ (kindOf op, op) :: (r.lexemes ++ [(.closeParen, [41])]))
  | .conditional _ c y n => (.openParen, [40]) :: (c.lexemes ++ (.question, [63]) :: (y.lexemes ++
      (.colon, [58]) :: (n.lexemes ++ [(.closeParen, [41])])))
  | .call _ f args => (.identifier, f) :: (.openParen, [40]) :: (listLexemes args ++ [(.closeParen, [41])])
  | .array _ items => (.openBracket, [91]) :: (listLexemes items ++ [(.closeBracket, [93])])
  | .subscript _ a i => a.lexemes ++ (.openBracket, [91]) :: (i.lexemes ++ [(.closeBracket, [93])])
  | .missing => []

/-- the lexemes of expressions with commas between them -/
def listLexemes : List Expr → List (Kind × Bytes)
  | [] => []
  | [e] => e.lexemes
  | e :: e' :: es => e.lexemes ++ (.comma, [44]) :: listLexemes (e' :: es)
end

/-! ## Pieces of a text -/

open Token (Scans)
open Bytes (Stops stops_cons)

/-- a byte that a name or a numeral can go on with -/
def goesOn (b : UInt8) : Bool := Lexeme.isWordByte b || b = 46

variable {rest : Bytes} {ls : List (Kind × Bytes)}

theorem stops_isWordByte (h : Stops goesOn rest) : Stops Lexeme.isWordByte rest := by
  intro b hb
  have := h b hb
  simp only [goesOn, Bool.or_eq_false_iff] at this
  exact this.1

theorem stops_continues (h : Stops goesOn rest) : Stops Numeral.continues rest := by
  intro b hb
  have := h b hb
  simp only [goesOn, Lexeme.isWordByte, Bool.or_eq_false_iff, decide_eq_false_iff_not] at this
  obtain ⟨⟨hstart, hdigit⟩, hpoint⟩ := this
  have he : b ≠ 101 ∧ b ≠ 69 := by
    constructor <;> rintro rfl <;> exact absurd hstart (by decide)
  simp [Numeral.continues, hdigit, hpoint, he]

/-- an operator with a space behind it -/
theorem scans_operator (op : Bytes) {k : Kind} (hop : operatorKind? op = some k) (h : Scans rest ls) :
    Scans (op ++ 32 :: rest) ((k, op) :: ls) := by
  have hspace : Scans (32 :: rest) ls := h.blank rfl
  unfold operatorKind? at hop
  cases hp : Lexeme.pairs.lookup op with
  | some k' =>
    rw [hp] at hop
    cases hop
    exact hspace.pair hp
  | none =>
    rw [hp, Option.none_or] at hop
    have hclass : ∀ p ∈ Lexeme.singles, p.1.length = 1 ∧ Lexeme.pairs.lookup (p.1 ++ [32]) = none := by decide
    obtain ⟨h1, h2⟩ := hclass _ (Lexeme.mem_of_lookup hop)
    obtain ⟨c, rfl⟩ := List.length_eq_one_iff.1 h1
    refine hspace.single hop fun b hb => ?_
    obtain rfl : 32 = b := by simpa using hb
    exact ⟨h2, fun h => absurd h.2 (by decide)⟩

/-- a bracket, a comma or a minus: no longer operator starts with it -/
theorem scans_mark {c : UInt8} {k : Kind} (hc : Lexeme.singles.lookup [c] = some k)
    (hmark : c ∈ [40, 41, 44, 45, 91, 93, 123, 125]) (h : Scans rest ls) : Scans (c :: rest) ((k, [c]) :: ls) := by
  refine h.single hc fun b _ => ?_
  simp only [List.mem_cons, List.not_mem_nil, or_false] at hmark
  rcases hmark with rfl | rfl | rfl | rfl | rfl | rfl | rfl | rfl <;> exact ⟨rfl, fun h => absurd h.1 (by decide)⟩

theorem scans_name {x : Bytes} (hx : IsName x) (hr : Stops Lexeme.isWordByte rest) (h : Scans rest ls) :
    Scans (x ++ rest) ((.identifier, x) :: ls) := by
  have := h.word hx.1 hr
  rwa [hx.2] at this

/-! ## Expressions -/

/-- the texts of expressions with commas between them -/
def listText (es : List Expr) : Bytes := Bytes.joinWith (bytes ", ") (texts es)

variable (t : Token)

theorem text_unary (op : Bytes) (e : Expr) : (unary t op e).text = 40 :: (op ++ (e.text ++ [41])) := by
  simp only [text, List.append_assoc]
  rfl

theorem text_binary (op : Bytes) (l r : Expr) :
    (binary t op l r).text = 40 :: (l.text ++ 32 :: (op ++ 32 :: (r.text ++ [41]))) := by
  simp only [text, List.append_assoc]
  rfl

theorem text_conditional (c y n : Expr) : (conditional t c y n).text =
    40 :: (c.text ++ 32 :: ([63] ++ 32 :: (y.text ++ 32 :: ([58] ++ 32 :: (n.text ++ [41]))))) := by
  simp only [text, List.append_assoc]
  rfl

theorem text_call (f : Bytes) (args : List Expr) : (call t f args).text = f ++ 40 :: (listText args ++ [41]) := by
  simp only [text, List.append_assoc]
  rfl

theorem text_array (items : List Expr) : (array t items).text = 91 :: (listText items ++ [93]) := by
  simp only [text, List.append_assoc]
  rfl

theorem text_subscript (a i : Expr) : (subscript t a i).text = a.text ++ 91 :: (i.text ++ [93]) := by
  simp only [text, List.append_assoc]
  rfl

theorem listText_cons (e e' : Expr) (es : List Expr) :
    listText (e :: e' :: es) = e.text ++ 44 :: 32 :: listText (e' :: es) := by
  simp only [listText, texts, Bytes.joinWith, List.append_assoc]
  rfl

theorem ne_equals_of_isWordByte {b : UInt8} (h : Lexeme.isWordByte b = true) : b ≠ 61 := by
  rintro rfl
  exact absurd h (by decide)

theorem head_name_ne {x : Bytes} (hx : IsName x) : ∀ b ∈ (x ++ rest).head?, b ≠ 61 := by
  cases x with
  | nil => exact hx.1.elim
  | cons c r =>
    intro b hb
    obtain rfl : c = b := by simpa using hb
    exact ne_equals_of_isWordByte (Lexeme.isWordByte_of_mem hx.1 c List.mem_cons_self)

/-- no expression's text starts so that a `!` before it would be taken for `!=` -/
theorem head_text_ne : (e : Expr) → e.Printable → ∀ rest, ∀ b ∈ (e.text ++ rest).head?, b ≠ 61
  | .numeral _ x, h, rest => by
    obtain ⟨m, rfl⟩ := h
    obtain ⟨n, hn, -⟩ := Number.exists_spelling_text m
    obtain ⟨d, ds, hds⟩ := List.exists_cons_of_ne_nil n.whole_ne_nil
    have hd : Lexeme.isWordByte d = true := by
      rw [Lexeme.isWordByte, n.isDigit_whole d (by simp [hds]), Bool.or_true]
    intro b hb
    obtain rfl : d = b := by simpa [text, hn, Numeral.Spelling.text, hds] using hb
    exact ne_equals_of_isWordByte hd
  | .boolean _ b, _, rest => by
    cases b
    · rintro _ ⟨⟩; decide
    · rintro _ ⟨⟩; decide
  | .variable _ x, h, rest => by
    rw [text]
    exact head_name_ne h
  | .unary _ op e, _, rest => by
    rw [text_unary]
    rintro _ ⟨⟩; decide
  | .binary _ op l r, _, rest => by
    rw [text_binary]
    rintro _ ⟨⟩; decide
  | .conditional _ c y n, _, rest => by
    rw [text_conditional]
    rintro _ ⟨⟩; decide
  | .call _ f args, h, rest => by
    rw [text_call, List.append_assoc]
    exact head_name_ne h.1
  | .array _ items, _, rest => by
    rw [text_array]
    rintro _ ⟨⟩; decide
  | .subscript _ a i, h, rest => by
    rw [text_subscript, List.append_assoc]
    exact head_text_ne a h.1 _

theorem operatorKind?_of_binary {op : Bytes} (h : (BinaryOp.ofText? op).isSome) :
    operatorKind? op = some (kindOf op) := by
  have hall : ∀ p ∈ BinaryOp.spellings, (operatorKind? p.1).isSome := by decide
  obtain ⟨o, ho⟩ := Option.isSome_iff_exists.1 h
  obtain ⟨l₁, l₂, hl, -⟩ := List.lookup_eq_some_iff.1 ho
  obtain ⟨k, hk⟩ := Option.isSome_iff_exists.1 (hall (op, o) (by rw [hl]; simp))
  rw [kindOf, hk, Option.getD_some]

theorem unary_eq {op : Bytes} (h : (UnaryOp.ofText? op).isSome) : op = [45] ∨ op = [33] := by
  unfold UnaryOp.ofText? at h
  split_ifs at h with h1 h2
  · exact .inl h1
  · exact .inr h2
  · cases h

/-- an operator in front of its operand -/
theorem scans_unary {op : Bytes} (hop : (UnaryOp.ofText? op).isSome) (hr : ∀ b ∈ rest.head?, b ≠ 61)
    (h : Scans rest ls) : Scans (op ++ rest) ((kindOf op, op) :: ls) := by
  rcases unary_eq hop with rfl | rfl
  · exact scans_mark rfl (by decide) h
  · refine h.single rfl fun b hb => ⟨?_, fun h => absurd h.1 (by decide)⟩
    have hbang : ∀ p ∈ Lexeme.pairs, p.1.head? = some 33 → p.1 = [33, 61] := by decide
    cases hk : Lexeme.pairs.lookup [33, b] with
    | none => rfl
    | some k =>
      have heq := hbang _ (Lexeme.mem_of_lookup hk) rfl
      exact absurd (by simpa using heq) (hr b hb)

mutual
/-- the scanner finds the lexemes of an expression -/
theorem scans_text : (e : Expr) → e.Printable → ∀ {rest ls}, Stops goesOn rest → Scans rest ls →
    Scans (e.text ++ rest) (e.lexemes ++ ls)
  | .numeral _ x, h, rest, ls, hr, hs => by
    obtain ⟨m, rfl⟩ := h
    obtain ⟨n, hn, -⟩ := Number.exists_spelling_text m
    rw [text, lexemes, hn]
    exact hs.number n (stops_continues hr)
  | .boolean _ b, _, rest, ls, hr, hs => by
    rw [text, lexemes]
    cases b
    · exact hs.word (w := bytes "false") (by decide) (stops_isWordByte hr)
    · exact hs.word (w := bytes "true") (by decide) (stops_isWordByte hr)
  | .variable _ x, h, rest, ls, hr, hs => by
    rw [text, lexemes]
    exact scans_name h (stops_isWordByte hr) hs
  | .unary _ op e, h, rest, ls, hr, hs => by
    rw [text_unary, lexemes]
    simp only [List.cons_append, List.append_assoc, List.nil_append]
    have hclose := scans_mark rfl (by decide) hs (c := 41)
    have he := scans_text e h.2 (stops_cons rfl) hclose
    exact scans_mark rfl (by decide) (scans_unary h.1 (head_text_ne e h.2 _) he)
  | .binary _ op l r, h, rest, ls, hr, hs => by
    rw [text_binary, lexemes]
    simp only [List.cons_append, List.append_assoc, List.nil_append]
    have hclose := scans_mark rfl (by decide) hs (c := 41)
    have he := scans_text r h.2.2 (stops_cons rfl) hclose
    have hop := (scans_operator op (operatorKind?_of_binary h.1) he).blank (b := 32) rfl
    exact scans_mark rfl (by decide) (scans_text l h.2.1 (stops_cons rfl) hop)
  | .conditional _ c y n, h, rest, ls, hr, hs => by
    rw [text_conditional, lexemes]
    simp only [List.cons_append, List.append_assoc, List.nil_append]
    have hclose := scans_mark rfl (by decide) hs (c := 41)
    have hn := scans_text n h.2.2 (stops_cons rfl) hclose
    have hcolon := (scans_operator [58] (k := .colon) rfl hn).blank (b := 32) rfl
    have hy := scans_text y h.2.1 (stops_cons rfl) hcolon
    have hmark := (scans_operator [63] (k := .question) rfl hy).blank (b := 32) rfl
    exact scans_mark rfl (by decide) (scans_text c h.1 (stops_cons rfl) hmark)
  | .call _ f args, h, rest, ls, hr, hs => by
    rw [text_call, lexemes]
    simp only [List.cons_append, List.append_assoc, List.nil_append]
    have hclose := scans_mark rfl (by decide) hs (c := 41)
    have hargs := scans_listText args h.2 (stops_cons rfl) hclose
    exact scans_name h.1 (stops_isWordByte (stops_cons rfl)) (scans_mark rfl (by decide) hargs)
  | .array _ items, h, rest, ls, hr, hs => by
    rw [text_array, lexemes]
    simp only [List.cons_append, List.append_assoc, List.nil_append]
    have hclose := scans_mark rfl (by decide) hs (c := 93)
    exact scans_mark rfl (by decide) (scans_listText items h (stops_cons rfl) hclose)
  | .subscript _ a i, h, rest, ls, hr, hs => by
    rw [text_subscript, lexemes]
    simp only [List.cons_append, List.append_assoc, List.nil_append]
    have hclose := scans_mark rfl (by decide) hs (c := 93)
    have hi := scans_text i h.2 (stops_cons rfl) hclose
    exact scans_text a h.1 (stops_cons rfl) (scans_mark rfl (by decide) hi)

theorem scans_listText : (es : List Expr) → AllPrintable es → ∀ {rest ls}, Stops goesOn rest → Scans rest ls →
    Scans (listText es ++ rest) (listLexemes es ++ ls)
  | [], _, _, _, _, hs => hs
  | [e], h, _, _, hr, hs => scans_text e h.1 hr hs
  | e :: e' :: es, h, rest, ls, hr, hs => by
    rw [listText_cons, listLexemes]
    simp only [List.cons_append, List.append_assoc]
    have htail := (scans_listText (e' :: es) h.2 hr hs).blank (b := 32) rfl
    exact scans_text e h.1 (stops_cons rfl) (scans_mark rfl (by decide) htail)
end

end Expr

namespace Stmt

open Token (Scans)
open Bytes (Stops stops_cons)
open Treewalk.Expr (goesOn stops_isWordByte scans_text scans_name scans_mark scans_operator)

mutual
/-- the text of the statement spells it -/
def Printable : Stmt → Prop
  | .declare _ x e => IsName x ∧ e.Printable
  | .assign _ x e => IsName x ∧ e.Printable
  | .print _ e => e.Printable
  | .loop _ c body => c.Printable ∧ AllPrintable body
  | .function _ f ps e => IsName f ∧ (∀ p ∈ ps, IsName p) ∧ ps.Nodup ∧ e.Printable
  | .missing => False

def AllPrintable : List Stmt → Prop
  | [] => True
  | s :: ss => s.Printable ∧ AllPrintable ss
end

mutual
def decidePrintable : (s : Stmt) → Decidable s.Printable
  | .declare _ x e | .assign _ x e => inferInstanceAs (Decidable (IsName x ∧ e.Printable))
  | .print _ e => inferInstanceAs (Decidable e.Printable)
  | .loop _ c body =>
    have := decideAllPrintable body
    inferInstanceAs (Decidable (c.Printable ∧ AllPrintable body))
  | .function _ f ps e =>
    inferInstanceAs (Decidable (IsName f ∧ (∀ p ∈ ps, IsName p) ∧ ps.Nodup ∧ e.Printable))
  | .missing => isFalse id

def decideAllPrintable : (ss : List Stmt) → Decidable (AllPrintable ss)
  | [] => isTrue trivial
  | s :: ss =>
    have := decidePrintable s
    have := decideAllPrintable ss
    inferInstanceAs (Decidable (s.Printable ∧ AllPrintable ss))
end

instance : DecidablePred AllPrintable := decideAllPrintable

/-- the lexemes of names with commas between them -/
def nameLexemes : List Bytes → List (Kind × Bytes)
  | [] => []
  | [x] => [(.identifier, x)]
  | x :: y :: xs => (.identifier, x) :: (.comma, [44]) :: nameLexemes (y :: xs)

mutual
/-- what the statement's text is made of -/
def lexemes : Stmt → List (Kind × Bytes)
  | .declare _ x e => (.identifier, x) :: (.walrus, [58, 61]) :: e.lexemes
  | .assign _ x e => (.identifier, x) :: (.assign, [61]) :: e.lexemes
  | .print _ e => (.print, bytes "print") :: e.lexemes
  | .loop _ c body => (.loop, bytes "while") :: (c.lexemes ++ (.openBrace, [123]) :: (blockLexemes body ++
      [(.closeBrace, [125])]))
  | .function _ f ps e => (.function, bytes "fun") :: (.identifier, f) :: (.openParen, [40]) :: (nameLexemes ps ++
      (.closeParen, [41]) :: (.assign, [61]) :: e.lexemes)
  | .missing => []

def blockLexemes : List Stmt → List (Kind × Bytes)
  | [] => []
  | s :: ss => s.lexemes ++ blockLexemes ss
end

/-! ## Statements -/

variable (t : Token) (indent : Nat) {rest : Bytes} {ls : List (Kind × Bytes)}

theorem text_declare (x : Bytes) (e : Expr) : (declare t x e).text indent = x ++ 32 :: ([58, 61] ++ 32 :: e.text) := by
  simp only [text, List.append_assoc]
  rfl

theorem text_assign (x : Bytes) (e : Expr) : (assign t x e).text indent = x ++ 32 :: ([61] ++ 32 :: e.text) := by
  simp only [text, List.append_assoc]
  rfl

theorem text_print (e : Expr) : (print t e).text indent = bytes "print" ++ 32 :: e.text := by
  simp only [text]
  rfl

theorem text_loop (c : Expr) (body : List Stmt) : (loop t c body).text indent =
    bytes "while" ++ 32 :: (c.text ++ 32 :: 123 :: 10 :: (blockText (indent + 2) body ++
      (Bytes.spaces indent ++ [125]))) := by
  simp only [text, List.append_assoc]
  rfl

theorem text_function (f : Bytes) (ps : List Bytes) (e : Expr) : (function t f ps e).text indent =
    bytes "fun" ++ 32 :: (f ++ 40 :: (Bytes.joinWith (bytes ", ") ps ++ 41 :: 32 :: ([61] ++ 32 :: e.text))) := by
  simp only [text, List.append_assoc]
  rfl

theorem scans_names : (ps : List Bytes) → (∀ p ∈ ps, IsName p) → Stops goesOn rest → Scans rest ls →
    Scans (Bytes.joinWith (bytes ", ") ps ++ rest) (nameLexemes ps ++ ls)
  | [], _, _, hs => hs
  | [x], h, hr, hs => scans_name (h x List.mem_cons_self) (stops_isWordByte hr) hs
  | x :: y :: xs, h, hr, hs => by
    have htail := (scans_names (y :: xs) (fun p hp => h p (List.mem_cons_of_mem _ hp)) hr hs).blank (b := 32) rfl
    have htext : Bytes.joinWith (bytes ", ") (x :: y :: xs) ++ rest =
        x ++ 44 :: 32 :: (Bytes.joinWith (bytes ", ") (y :: xs) ++ rest) := by
      simp only [Bytes.joinWith, List.append_assoc]
      rfl
    rw [htext]
    exact scans_name (h x List.mem_cons_self) (stops_isWordByte (stops_cons rfl)) (scans_mark rfl (by decide) htail)

/-- a keyword with a space behind it -/
theorem scans_keyword {w : Bytes} {k : Kind} (hw : Lexeme.IsWord w) (hk : Lexeme.wordKind w = k) (h : Scans rest ls) :
    Scans (w ++ 32 :: rest) ((k, w) :: ls) := by
  have := (h.blank (b := 32) rfl).word hw (stops_isWordByte (stops_cons rfl))
  rwa [hk] at this

theorem scans_spaces (n : Nat) (h : Scans rest ls) : Scans (Bytes.spaces n ++ rest) ls := by
  refine h.blanks fun b hb => ?_
  rw [List.eq_of_mem_replicate hb]
  rfl

mutual
/-- the scanner finds the lexemes of a statement on its line -/
theorem scans_stmtText : (s : Stmt) → s.Printable → ∀ (indent : Nat) {rest ls}, Scans rest ls →
    Scans (s.text indent ++ 10 :: rest) (s.lexemes ++ ls)
  | .declare _ x e, h, indent, rest, ls, hs => by
    rw [text_declare, lexemes]
    simp only [List.cons_append, List.append_assoc, List.nil_append]
    have he := scans_text e h.2 (stops_cons rfl) (hs.blank (b := 10) rfl)
    have hop := (scans_operator [58, 61] (k := .walrus) rfl he).blank (b := 32) rfl
    exact scans_name h.1 (stops_isWordByte (stops_cons rfl)) hop
  | .assign _ x e, h, indent, rest, ls, hs => by
    rw [text_assign, lexemes]
    simp only [List.cons_append, List.append_assoc, List.nil_append]
    have he := scans_text e h.2 (stops_cons rfl) (hs.blank (b := 10) rfl)
    have hop := (scans_operator [61] (k := .assign) rfl he).blank (b := 32) rfl
    exact scans_name h.1 (stops_isWordByte (stops_cons rfl)) hop
  | .print _ e, h, indent, rest, ls, hs => by
    rw [text_print, lexemes]
    simp only [List.cons_append, List.append_assoc]
    exact scans_keyword (by decide) (by decide) (scans_text e h (stops_cons rfl) (hs.blank (b := 10) rfl))
  | .loop _ c body, h, indent, rest, ls, hs => by
    rw [text_loop, lexemes]
    simp only [List.cons_append, List.append_assoc, List.nil_append]
    have hclose := scans_mark rfl (by decide) (hs.blank (b := 10) rfl) (c := 125)
    have hbody := scans_blockText body h.2 (indent + 2) (scans_spaces indent hclose)
    have hopen := scans_mark rfl (by decide) (hbody.blank (b := 10) rfl) (c := 123)
    exact scans_keyword (by decide) (by decide) (scans_text c h.1 (stops_cons rfl) (hopen.blank (b := 32) rfl))
  | .function _ f ps e, h, indent, rest, ls, hs => by
    rw [text_function, lexemes]
    simp only [List.cons_append, List.append_assoc, List.nil_append]
    have he := scans_text e h.2.2.2 (stops_cons rfl) (hs.blank (b := 10) rfl)
    have hop := (scans_operator [61] (k := .assign) rfl he).blank (b := 32) rfl
    have hclose := scans_mark rfl (by decide) hop (c := 41)
    have hps := scans_mark rfl (by decide) (scans_names ps h.2.1 (stops_cons rfl) hclose) (c := 40)
    exact scans_keyword (by decide) (by decide) (scans_name h.1 (stops_isWordByte (stops_cons rfl)) hps)

/-- **The scanner finds the lexemes of a block,** at any indentation. -/
theorem scans_blockText : (ss : List Stmt) → AllPrintable ss → ∀ (indent : Nat) {rest ls}, Scans rest ls →
    Scans (blockText indent ss ++ rest) (blockLexemes ss ++ ls)
  | [], _, _, _, _, hs => hs
  | s :: ss, h, indent, rest, ls, hs => by
    have htail := scans_blockText ss h.2 indent hs
    have htext : blockText indent (s :: ss) ++ rest =
        Bytes.spaces indent ++ (s.text indent ++ 10 :: (blockText indent ss ++ rest)) := by
      simp only [blockText, List.append_assoc]
      rfl
    rw [htext, blockLexemes, List.append_assoc]
    exact scans_spaces indent (scans_stmtText s h.1 indent htail)
end

end Stmt

end Treewalk
