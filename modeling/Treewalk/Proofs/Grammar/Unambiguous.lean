/-
No list of tokens has two derivations.

What decides is always the next token. `Category.starts` are the kinds that an expression can start with, and `grip`
says how tightly a token holds on to an operand that stands before it: an expression of a category ends where the next
token grips no tighter than the category's limit. `eq_of_yield_append`: two derivations of one symbol whose tokens,
with what follows them, are the same list are the same derivation, if what follows cannot belong to the symbol.
-/
import Mathlib.Tactic
import Treewalk.Proofs.Grammar.Basic

namespace Treewalk

namespace Grammar

/-! ## The next token -/

/-- how tightly a token holds on to the operand before it, zero if it never does -/
def grip : Kind → Nat
  | .question => 1
  | .or => 2
  | .and => 3
  | .equal | .notEqual => 4
  | .less | .lessEqual | .greater | .greaterEqual => 5
  | .plus | .minus => 6
  | .star | .slash | .percent => 7
  | .power => 8
  | .openBracket => 9
  | .openParen => 10
  | _ => 0

/-- levels by tightness -/
def Level.number : Level → Nat
  | .or => 1
  | .and => 2
  | .equality => 3
  | .comparison => 4
  | .sum => 5
  | .product => 6

namespace Category

/-- the tightest grip of a token that may stand behind an expression without belonging to it -/
def limit : Category → Nat
  | .conditional => 0
  | .level l => l.number
  | .unary | .power => 7
  | .indexed => 8
  | .primary => 9

/-- kinds of first tokens -/
def starts : Category → List Kind
  | .conditional | .level _ | .unary => [.minus, .not, .number, .boolean, .identifier, .openParen, .openBracket]
  | .power | .indexed | .primary => [.number, .boolean, .identifier, .openParen, .openBracket]

end Category

theorem Level.number_le (l : Level) : 1 ≤ l.number ∧ l.number ≤ 6 := by
  cases l <;> decide

theorem Level.grip_of_mem {l : Level} {k : Kind} (h : k ∈ l.operators) : grip k = l.number + 1 := by
  cases l <;> simp only [operators, List.mem_cons, List.not_mem_nil, or_false] at h <;>
    rcases h with rfl | rfl | rfl | rfl <;> rfl

theorem Level.limit_operand (l : Level) : l.operand.limit = l.number + 1 := by
  cases l <;> rfl

theorem Level.starts_operand (l : Level) : l.operand.starts = Category.unary.starts := by
  cases l <;> rfl

/-- what may follow the tokens of a symbol -/
def Symbol.Ends (s : Symbol) (ts : List Token) : Prop :=
  ∀ t ∈ ts.head?, match s with
    | .block => t.kind = .closeBrace
    | .statement => grip t.kind = 0
    | .expression c => grip t.kind ≤ c.limit
    | .operands l => grip t.kind ≤ l.number
    | .subscripts => grip t.kind ≤ 8
    | .items | .moreItems => t.kind = .closeParen ∨ t.kind = .closeBracket

namespace Derivation

theorem expression_starts {c : Category} : (d : Derivation (.expression c)) →
    ∃ t ts, d.yield = t :: ts ∧ t.kind ∈ c.starts
  | plain e => e.expression_starts
  | choice test _ _ _ _ => by
    obtain ⟨t, ts, h, ht⟩ := test.expression_starts
    exact ⟨t, _, by rw [yield, h, List.cons_append, List.cons_append], ht⟩
  | chain l first rest => by
    obtain ⟨t, ts, h, ht⟩ := first.expression_starts
    exact ⟨t, _, by rw [yield, h, List.cons_append], by rwa [l.starts_operand] at ht⟩
  | signed op e => ⟨op.1, e.yield, rfl, by rcases op.2 with h | h <;> rw [h] <;> decide⟩
  | unsigned e => by
    obtain ⟨t, ts, h, ht⟩ := e.expression_starts
    exact ⟨t, ts, h, List.mem_cons_of_mem _ (List.mem_cons_of_mem _ ht)⟩
  | base e => e.expression_starts
  | raise e _ _ => by
    obtain ⟨t, ts, h, ht⟩ := e.expression_starts
    exact ⟨t, _, by rw [yield, h, List.cons_append], ht⟩
  | indexed e _ => by
    obtain ⟨t, ts, h, ht⟩ := e.expression_starts
    exact ⟨t, _, by rw [yield, h, List.cons_append], ht⟩
  | numeral t => ⟨t.1, [], rfl, by rw [t.2]; decide⟩
  | boolean t => ⟨t.1, [], rfl, by rw [t.2]; decide⟩
  | call callee _ _ _ => ⟨callee.1, _, rfl, by rw [callee.2]; decide⟩
  | .variable name => ⟨name.1, [], rfl, by rw [name.2]; decide⟩
  | group opening _ _ => ⟨opening.1, _, rfl, by rw [opening.2]; decide⟩
  | array opening _ _ => ⟨opening.1, _, rfl, by rw [opening.2]; decide⟩

theorem statement_starts (d : Derivation .statement) :
    ∃ t ts, d.yield = t :: ts ∧ t.kind ∈ [Kind.semicolon, .function, .print, .loop, .identifier] := by
  cases d with
  | empty semicolon => exact ⟨semicolon.1, [], rfl, by rw [semicolon.2]; decide⟩
  | function keyword => exact ⟨keyword.1, _, rfl, by rw [keyword.2]; decide⟩
  | print keyword => exact ⟨keyword.1, _, rfl, by rw [keyword.2]; decide⟩
  | loop keyword => exact ⟨keyword.1, _, rfl, by rw [keyword.2]; decide⟩
  | declare name => exact ⟨name.1, _, rfl, by rw [name.2]; decide⟩
  | assign name => exact ⟨name.1, _, rfl, by rw [name.2]; decide⟩

/-! ## Uniqueness -/

theorem parameterTail_eq {ps ps' : List (Terminal .comma × Terminal .identifier)} {r r' : List Token}
    (hr : ∀ t ∈ r.head?, t.kind = .closeParen) (hr' : ∀ t ∈ r'.head?, t.kind = .closeParen)
    (h : (ps.flatMap fun (comma, name) => [comma.1, name.1]) ++ r =
      (ps'.flatMap fun (comma, name) => [comma.1, name.1]) ++ r') : ps = ps' ∧ r = r' := by
  induction ps generalizing ps' with
  | nil =>
    cases ps' with
    | nil => exact ⟨rfl, h⟩
    | cons p ps' =>
      rw [List.flatMap_nil, List.nil_append] at h
      have := hr p.1.1 (by rw [h]; rfl)
      rw [p.1.2] at this
      exact absurd this (by decide)
  | cons p ps ih =>
    cases ps' with
    | nil =>
      rw [List.flatMap_nil, List.nil_append] at h
      have := hr' p.1.1 (by rw [← h]; rfl)
      rw [p.1.2] at this
      exact absurd this (by decide)
    | cons p' ps' =>
      simp only [List.flatMap_cons, List.cons_append, List.nil_append, List.cons.injEq] at h
      obtain ⟨h1, h2, h3⟩ := h
      obtain ⟨rfl, rfl⟩ := ih h3
      exact ⟨by rw [Prod.ext (Subtype.ext h1) (Subtype.ext h2)], rfl⟩

theorem parameters_eq {ps ps' : Parameters} {r r' : List Token}
    (hr : ∀ t ∈ r.head?, t.kind = .closeParen) (hr' : ∀ t ∈ r'.head?, t.kind = .closeParen)
    (h : ps.yield ++ r = ps'.yield ++ r') : ps = ps' ∧ r = r' := by
  match ps, ps' with
  | none, none => exact ⟨rfl, h⟩
  | none, some (first, rest) =>
    have := hr first.1 (by rw [show r = _ from h]; rfl)
    rw [first.2] at this
    exact absurd this (by decide)
  | some (first, rest), none =>
    have := hr' first.1 (by rw [show r' = _ from h.symm]; rfl)
    rw [first.2] at this
    exact absurd this (by decide)
  | some (first, rest), some (first', rest') =>
    simp only [Parameters.yield, List.cons_append, List.cons.injEq] at h
    obtain ⟨h1, h2⟩ := h
    obtain ⟨rfl, rfl⟩ := parameterTail_eq hr hr' h2
    exact ⟨by rw [Subtype.ext h1], rfl⟩

theorem Terminal.ne {k k' : Kind} (t : Terminal k) (t' : Terminal k') (h : k ≠ k') : t.1 ≠ t'.1 := by
  intro e
  exact h (by rw [← t.2, ← t'.2, e])

theorem operands_end {l : Level} {r : List Token} (rest : Derivation (.operands l)) (h : (Symbol.operands l).Ends r) :
    (Symbol.expression l.operand).Ends (rest.yield ++ r) := by
  intro t ht
  cases rest with
  | noOperand =>
    have := h t ht
    simp only [l.limit_operand] at this ⊢
    omega
  | operand _ op =>
    simp only [yield, List.cons_append, List.head?_cons, Option.mem_some_iff] at ht
    subst ht
    simp only [Level.grip_of_mem op.2, l.limit_operand, le_refl]

theorem subscripts_end {r : List Token} (rest : Derivation .subscripts) (h : Symbol.subscripts.Ends r) :
    (Symbol.expression .primary).Ends (rest.yield ++ r) := by
  intro t ht
  cases rest with
  | noSubscript => exact Nat.le_succ_of_le (h t ht)
  | subscript opening =>
    simp only [yield, List.cons_append, List.head?_cons, Option.mem_some_iff] at ht
    subst ht
    simp only [opening.2]
    decide

theorem moreItems_end {r : List Token} (rest : Derivation .moreItems) (h : Symbol.items.Ends r) :
    (Symbol.expression .conditional).Ends (rest.yield ++ r) := by
  intro t ht
  cases rest with
  | lastItem => rcases h t ht with h | h <;> simp only [h] <;> decide
  | item comma =>
    simp only [yield, List.cons_append, List.head?_cons, Option.mem_some_iff] at ht
    subst ht
    simp only [comma.2]
    decide

theorem statements_end {r : List Token} (rest : Derivation .block) (h : Symbol.block.Ends r) :
    Symbol.statement.Ends (rest.yield ++ r) := by
  intro t ht
  cases rest with
  | noStatement => simp only [show t.kind = _ from h t ht]; rfl
  | statements first rest =>
    obtain ⟨t', ts, hy, hk⟩ := first.statement_starts
    simp only [yield, hy, List.cons_append, List.head?_cons, Option.mem_some_iff] at ht
    subst ht
    simp only [List.mem_cons, List.not_mem_nil, or_false] at hk
    rcases hk with hk | hk | hk | hk | hk <;> simp only [hk] <;> rfl

/-- a derivation is the only one that spells its tokens, up to what cannot belong to its symbol -/
def Unique {s : Symbol} (d : Derivation s) : Prop :=
  ∀ (d' : Derivation s) (r r' : List Token), s.Ends r → s.Ends r' → d.yield ++ r = d'.yield ++ r' → d = d' ∧ r = r'

theorem unique_noStatement : Unique noStatement := by
  intro d' r r' hr hr' h
  cases d' with
  | noStatement => exact ⟨rfl, h⟩
  | statements first rest =>
    obtain ⟨t, ts, hy, hk⟩ := first.statement_starts
    have := hr t (by rw [show r = _ from h, yield, hy]; rfl)
    simp only at this
    rw [this] at hk
    exact absurd hk (by decide)

theorem unique_statements {first : Derivation .statement} {rest : Derivation .block} (ihf : Unique first)
    (ihr : Unique rest) : Unique (statements first rest) := by
  intro d' r r' hr hr' h
  cases d' with
  | noStatement =>
    obtain ⟨t, ts, hy, hk⟩ := first.statement_starts
    have := hr' t (by rw [show r' = _ from h.symm, yield, hy]; rfl)
    simp only at this
    rw [this] at hk
    exact absurd hk (by decide)
  | statements first' rest' =>
    rw [yield, yield, List.append_assoc, List.append_assoc] at h
    obtain ⟨rfl, hrest⟩ := ihf _ _ _ (statements_end rest hr) (statements_end rest' hr') h
    obtain ⟨rfl, rfl⟩ := ihr _ _ _ hr hr' hrest
    exact ⟨rfl, rfl⟩

theorem unique_empty (semicolon : Terminal .semicolon) : Unique (empty semicolon) := by
  intro d' r r' hr hr' h
  cases d' with
  | empty semicolon' =>
    obtain ⟨h1, h2⟩ := List.cons.inj h
    exact ⟨by rw [Subtype.ext h1], h2⟩
  | _ => exact absurd (List.cons.inj h).1 (Terminal.ne _ _ (by decide))

theorem unique_function {body : Derivation (.expression .conditional)} (keyword : Terminal .function)
    (name : Terminal .identifier) (opening : Terminal .openParen) (parameters : Parameters)
    (closing : Terminal .closeParen) (sign : Terminal .assign) (ih : Unique body) :
    Unique (function keyword name opening parameters closing sign body) := by
  intro d' r r' hr hr' h
  cases d' with
  | function keyword' name' opening' parameters' closing' sign' body' =>
    simp only [yield, List.cons_append, List.append_assoc, List.cons.injEq] at h
    obtain ⟨h1, h2, h3, h⟩ := h
    obtain ⟨rfl, hrest⟩ := parameters_eq (by simp [closing.2]) (by simp [closing'.2]) h
    obtain ⟨h4, h5, h6⟩ : closing.1 = closing'.1 ∧ sign.1 = sign'.1 ∧ body.yield ++ r = body'.yield ++ r' := by
      simpa only [List.cons.injEq] using hrest
    obtain ⟨rfl, rfl⟩ := ih _ _ _ (fun t ht => (hr t ht).le) (fun t ht => (hr' t ht).le) h6
    refine ⟨?_, rfl⟩
    rw [Subtype.ext h1, Subtype.ext h2, Subtype.ext h3, Subtype.ext h4, Subtype.ext h5]
  | _ => exact absurd (List.cons.inj h).1 (Terminal.ne _ _ (by decide))

theorem unique_print {value : Derivation (.expression .conditional)} (keyword : Terminal .print) (ih : Unique value) :
    Unique (print keyword value) := by
  intro d' r r' hr hr' h
  cases d' with
  | print keyword' value' =>
    obtain ⟨h1, h2⟩ := List.cons.inj h
    obtain ⟨rfl, rfl⟩ := ih _ _ _ (fun t ht => (hr t ht).le) (fun t ht => (hr' t ht).le) h2
    exact ⟨by rw [Subtype.ext h1], rfl⟩
  | _ => exact absurd (List.cons.inj h).1 (Terminal.ne _ _ (by decide))

theorem unique_loop {condition : Derivation (.expression .conditional)} {body : Derivation .block}
    (keyword : Terminal .loop) (opening : Terminal .openBrace) (closing : Terminal .closeBrace) (ihc : Unique condition)
    (ihb : Unique body) : Unique (loop keyword condition opening body closing) := by
  intro d' r r' hr hr' h
  cases d' with
  | loop keyword' condition' opening' body' closing' =>
    simp only [yield, List.cons_append, List.append_assoc, List.cons.injEq, List.nil_append] at h
    obtain ⟨h1, h⟩ := h
    obtain ⟨rfl, hrest⟩ := ihc _ _ _ (by simp [Symbol.Ends, opening.2, grip])
      (by simp [Symbol.Ends, opening'.2, grip]) h
    obtain ⟨h2, h3⟩ := List.cons.inj hrest
    obtain ⟨rfl, hlast⟩ := ihb _ _ _ (by simp [Symbol.Ends, closing.2]) (by simp [Symbol.Ends, closing'.2]) h3
    obtain ⟨h4, rfl⟩ := List.cons.inj hlast
    refine ⟨?_, rfl⟩
    rw [Subtype.ext h1, Subtype.ext h2, Subtype.ext h4]
  | _ => exact absurd (List.cons.inj h).1 (Terminal.ne _ _ (by decide))

theorem unique_declare {value : Derivation (.expression .conditional)} (name : Terminal .identifier)
    (sign : Terminal .walrus) (ih : Unique value) : Unique (declare name sign value) := by
  intro d' r r' hr hr' h
  cases d' with
  | declare name' sign' value' =>
    obtain ⟨h1, h⟩ := List.cons.inj h
    obtain ⟨h2, h3⟩ := List.cons.inj h
    obtain ⟨rfl, rfl⟩ := ih _ _ _ (fun t ht => (hr t ht).le) (fun t ht => (hr' t ht).le) h3
    exact ⟨by rw [Subtype.ext h1, Subtype.ext h2], rfl⟩
  | assign => exact absurd (List.cons.inj (List.cons.inj h).2).1 (Terminal.ne _ _ (by decide))
  | _ => exact absurd (List.cons.inj h).1 (Terminal.ne _ _ (by decide))

theorem unique_assign {value : Derivation (.expression .conditional)} (name : Terminal .identifier)
    (sign : Terminal .assign) (ih : Unique value) : Unique (assign name sign value) := by
  intro d' r r' hr hr' h
  cases d' with
  | assign name' sign' value' =>
    obtain ⟨h1, h⟩ := List.cons.inj h
    obtain ⟨h2, h3⟩ := List.cons.inj h
    obtain ⟨rfl, rfl⟩ := ih _ _ _ (fun t ht => (hr t ht).le) (fun t ht => (hr' t ht).le) h3
    exact ⟨by rw [Subtype.ext h1, Subtype.ext h2], rfl⟩
  | declare => exact absurd (List.cons.inj (List.cons.inj h).2).1 (Terminal.ne _ _ (by decide))
  | _ => exact absurd (List.cons.inj h).1 (Terminal.ne _ _ (by decide))

theorem unique_plain {e : Derivation (.expression (.level .or))} (ih : Unique e) : Unique (plain e) := by
  intro d' r r' hr hr' h
  cases d' with
  | plain e' =>
    have hl : ∀ {ts}, (Symbol.expression .conditional).Ends ts → (Symbol.expression (.level .or)).Ends ts :=
      fun hts t ht => (hts t ht).trans (Nat.zero_le _)
    obtain ⟨rfl, rfl⟩ := ih _ _ _ (hl hr) (hl hr') h
    exact ⟨rfl, rfl⟩
  | choice test mark yes colon no =>
    simp only [yield, List.append_assoc, List.cons_append] at h
    obtain ⟨-, rfl⟩ := ih _ _ _ (fun t ht => (hr t ht).trans (Nat.zero_le _))
      (by simp [Symbol.Ends, mark.2, grip, Category.limit, Level.number]) h
    have := hr mark.1 rfl
    simp [mark.2, grip, Category.limit] at this

theorem unique_choice {test : Derivation (.expression (.level .or))} {yes no : Derivation (.expression .conditional)}
    (mark : Terminal .question) (colon : Terminal .colon) (iht : Unique test) (ihy : Unique yes) (ihn : Unique no) :
    Unique (choice test mark yes colon no) := by
  intro d' r r' hr hr' h
  cases d' with
  | plain e =>
    simp only [yield, List.append_assoc, List.cons_append] at h
    obtain ⟨-, rfl⟩ := iht _ _ _ (by simp [Symbol.Ends, mark.2, grip, Category.limit, Level.number])
      (fun t ht => (hr' t ht).trans (Nat.zero_le _)) h
    have := hr' mark.1 rfl
    simp [mark.2, grip, Category.limit] at this
  | choice test' mark' yes' colon' no' =>
    simp only [yield, List.append_assoc, List.cons_append] at h
    obtain ⟨rfl, hrest⟩ := iht _ _ _ (by simp [Symbol.Ends, mark.2, grip, Category.limit, Level.number])
      (by simp [Symbol.Ends, mark'.2, grip, Category.limit, Level.number]) h
    obtain ⟨h1, hyes⟩ := List.cons.inj hrest
    obtain ⟨rfl, hrest'⟩ := ihy _ _ _ (by simp [Symbol.Ends, colon.2, grip])
      (by simp [Symbol.Ends, colon'.2, grip]) hyes
    obtain ⟨h2, hno⟩ := List.cons.inj hrest'
    obtain ⟨rfl, rfl⟩ := ihn _ _ _ hr hr' hno
    exact ⟨by rw [Subtype.ext h1, Subtype.ext h2], rfl⟩

theorem unique_chain {l : Level} {first : Derivation (.expression l.operand)} {rest : Derivation (.operands l)}
    (ihf : Unique first) (ihr : Unique rest) : Unique (chain l first rest) := by
  intro d' r r' hr hr' h
  cases d' with
  | chain _ first' rest' =>
    rw [yield, yield, List.append_assoc, List.append_assoc] at h
    obtain ⟨rfl, hrest⟩ := ihf _ _ _ (operands_end rest hr) (operands_end rest' hr') h
    obtain ⟨rfl, rfl⟩ := ihr _ _ _ hr hr' hrest
    exact ⟨rfl, rfl⟩

theorem unique_noOperand (l : Level) : Unique (noOperand l) := by
  intro d' r r' hr hr' h
  cases d' with
  | noOperand => exact ⟨rfl, h⟩
  | operand _ op right rest =>
    have := hr op.1 (by rw [show r = _ from h]; rfl)
    simp only [Level.grip_of_mem op.2] at this
    omega

theorem unique_operand {l : Level} {right : Derivation (.expression l.operand)} {rest : Derivation (.operands l)}
    (op : { t : Token // t.kind ∈ l.operators }) (ihe : Unique right) (ihr : Unique rest) :
    Unique (operand l op right rest) := by
  intro d' r r' hr hr' h
  cases d' with
  | noOperand =>
    have := hr' op.1 (by rw [show r' = _ from h.symm]; rfl)
    simp only [Level.grip_of_mem op.2] at this
    omega
  | operand _ op' right' rest' =>
    simp only [yield, List.append_assoc, List.cons_append, List.cons.injEq] at h
    obtain ⟨h1, h⟩ := h
    obtain ⟨rfl, hrest⟩ := ihe _ _ _ (operands_end rest hr) (operands_end rest' hr') h
    obtain ⟨rfl, rfl⟩ := ihr _ _ _ hr hr' hrest
    exact ⟨by rw [Subtype.ext h1], rfl⟩

theorem unique_signed {e : Derivation (.expression .unary)} (op : { t : Token // t.kind = .minus ∨ t.kind = .not })
    (ih : Unique e) : Unique (signed op e) := by
  intro d' r r' hr hr' h
  cases d' with
  | signed op' e' =>
    obtain ⟨h1, h2⟩ := List.cons.inj h
    obtain ⟨rfl, rfl⟩ := ih _ _ _ hr hr' h2
    exact ⟨by rw [Subtype.ext h1], rfl⟩
  | unsigned e' =>
    obtain ⟨t, ts, hy, hk⟩ := e'.expression_starts
    rw [yield, yield, hy] at h
    rw [← (List.cons.inj h).1] at hk
    rcases op.2 with ho | ho <;> rw [ho] at hk <;> exact absurd hk (by decide)

theorem unique_unsigned {e : Derivation (.expression .power)} (ih : Unique e) : Unique (unsigned e) := by
  intro d' r r' hr hr' h
  cases d' with
  | signed op e' =>
    obtain ⟨t, ts, hy, hk⟩ := e.expression_starts
    rw [yield, yield, hy] at h
    rw [(List.cons.inj h).1] at hk
    rcases op.2 with ho | ho <;> rw [ho] at hk <;> exact absurd hk (by decide)
  | unsigned e' =>
    obtain ⟨rfl, rfl⟩ := ih _ _ _ hr hr' h
    exact ⟨rfl, rfl⟩

theorem unique_base {e : Derivation (.expression .indexed)} (ih : Unique e) : Unique (base e) := by
  intro d' r r' hr hr' h
  cases d' with
  | base e' =>
    obtain ⟨rfl, rfl⟩ := ih _ _ _ (fun t ht => Nat.le_succ_of_le (hr t ht)) (fun t ht => Nat.le_succ_of_le (hr' t ht)) h
    exact ⟨rfl, rfl⟩
  | raise e' op exponent =>
    rw [yield, yield, List.append_assoc] at h
    obtain ⟨-, rfl⟩ := ih _ _ _ (fun t ht => Nat.le_succ_of_le (hr t ht))
      (by simp [Symbol.Ends, op.2, grip, Category.limit]) h
    have := hr op.1 rfl
    simp [op.2, grip, Category.limit] at this

theorem unique_raise {e : Derivation (.expression .indexed)} {exponent : Derivation (.expression .unary)}
    (op : Terminal .power) (ihe : Unique e) (ihx : Unique exponent) : Unique (raise e op exponent) := by
  intro d' r r' hr hr' h
  cases d' with
  | base e' =>
    rw [yield, yield, List.append_assoc] at h
    obtain ⟨-, rfl⟩ := ihe _ _ _ (by simp [Symbol.Ends, op.2, grip, Category.limit])
      (fun t ht => Nat.le_succ_of_le (hr' t ht)) h
    have := hr' op.1 rfl
    simp [op.2, grip, Category.limit] at this
  | raise e' op' exponent' =>
    rw [yield, yield, List.append_assoc, List.append_assoc] at h
    obtain ⟨rfl, hrest⟩ := ihe _ _ _ (by simp [Symbol.Ends, op.2, grip, Category.limit])
      (by simp [Symbol.Ends, op'.2, grip, Category.limit]) h
    obtain ⟨h1, h2⟩ := List.cons.inj hrest
    obtain ⟨rfl, rfl⟩ := ihx _ _ _ hr hr' h2
    exact ⟨by rw [Subtype.ext h1], rfl⟩

theorem unique_indexed {e : Derivation (.expression .primary)} {subscripts : Derivation .subscripts} (ihe : Unique e)
    (ihs : Unique subscripts) : Unique (indexed e subscripts) := by
  intro d' r r' hr hr' h
  cases d' with
  | indexed e' subscripts' =>
    rw [yield, yield, List.append_assoc, List.append_assoc] at h
    obtain ⟨rfl, hrest⟩ := ihe _ _ _ (subscripts_end subscripts hr) (subscripts_end subscripts' hr') h
    obtain ⟨rfl, rfl⟩ := ihs _ _ _ hr hr' hrest
    exact ⟨rfl, rfl⟩

theorem unique_noSubscript : Unique noSubscript := by
  intro d' r r' hr hr' h
  cases d' with
  | noSubscript => exact ⟨rfl, h⟩
  | subscript opening =>
    have := hr opening.1 (by rw [show r = _ from h]; rfl)
    simp [opening.2, grip] at this

theorem unique_subscript {index : Derivation (.expression .conditional)} {rest : Derivation .subscripts}
    (opening : Terminal .openBracket) (closing : Terminal .closeBracket) (ihi : Unique index) (ihr : Unique rest) :
    Unique (subscript opening index closing rest) := by
  intro d' r r' hr hr' h
  cases d' with
  | noSubscript =>
    have := hr' opening.1 (by rw [show r' = _ from h.symm]; rfl)
    simp [opening.2, grip] at this
  | subscript opening' index' closing' rest' =>
    simp only [yield, List.append_assoc, List.cons_append, List.cons.injEq] at h
    obtain ⟨h1, h⟩ := h
    obtain ⟨rfl, hrest⟩ := ihi _ _ _ (by simp [Symbol.Ends, closing.2, grip])
      (by simp [Symbol.Ends, closing'.2, grip]) h
    obtain ⟨h2, h3⟩ := List.cons.inj hrest
    obtain ⟨rfl, rfl⟩ := ihr _ _ _ hr hr' h3
    exact ⟨by rw [Subtype.ext h1, Subtype.ext h2], rfl⟩

theorem unique_numeral (t : Terminal .number) : Unique (numeral t) := by
  intro d' r r' hr hr' h
  cases d' with
  | numeral t' =>
    obtain ⟨h1, h2⟩ := List.cons.inj h
    exact ⟨by rw [Subtype.ext h1], h2⟩
  | _ => exact absurd (List.cons.inj h).1 (Terminal.ne _ _ (by decide))

theorem unique_boolean (t : Terminal .boolean) : Unique (boolean t) := by
  intro d' r r' hr hr' h
  cases d' with
  | boolean t' =>
    obtain ⟨h1, h2⟩ := List.cons.inj h
    exact ⟨by rw [Subtype.ext h1], h2⟩
  | _ => exact absurd (List.cons.inj h).1 (Terminal.ne _ _ (by decide))

theorem unique_call {arguments : Derivation .items} (callee : Terminal .identifier) (opening : Terminal .openParen)
    (closing : Terminal .closeParen) (ih : Unique arguments) : Unique (call callee opening arguments closing) := by
  intro d' r r' hr hr' h
  cases d' with
  | call callee' opening' arguments' closing' =>
    simp only [yield, List.append_assoc, List.cons_append, List.nil_append, List.cons.injEq] at h
    obtain ⟨h1, h2, h⟩ := h
    obtain ⟨rfl, hrest⟩ := ih _ _ _ (by simp [Symbol.Ends, closing.2]) (by simp [Symbol.Ends, closing'.2]) h
    obtain ⟨h3, rfl⟩ := List.cons.inj hrest
    exact ⟨by rw [Subtype.ext h1, Subtype.ext h2, Subtype.ext h3], rfl⟩
  | «variable» name =>
    have := hr' opening.1 (by rw [show r' = _ from (List.cons.inj h).2.symm]; rfl)
    simp [opening.2, grip, Category.limit] at this
  | _ => exact absurd (List.cons.inj h).1 (Terminal.ne _ _ (by decide))

theorem unique_variable (name : Terminal .identifier) : Unique (.variable name) := by
  intro d' r r' hr hr' h
  cases d' with
  | «variable» name' =>
    obtain ⟨h1, h2⟩ := List.cons.inj h
    exact ⟨by rw [Subtype.ext h1], h2⟩
  | call callee opening arguments closing =>
    have := hr opening.1 (by rw [show r = _ from (List.cons.inj h).2]; rfl)
    simp [opening.2, grip, Category.limit] at this
  | _ => exact absurd (List.cons.inj h).1 (Terminal.ne _ _ (by decide))

theorem unique_group {e : Derivation (.expression .conditional)} (opening : Terminal .openParen)
    (closing : Terminal .closeParen) (ih : Unique e) : Unique (group opening e closing) := by
  intro d' r r' hr hr' h
  cases d' with
  | group opening' e' closing' =>
    simp only [yield, List.append_assoc, List.cons_append, List.nil_append, List.cons.injEq] at h
    obtain ⟨h1, h⟩ := h
    obtain ⟨rfl, hrest⟩ := ih _ _ _ (by simp [Symbol.Ends, closing.2, grip]) (by simp [Symbol.Ends, closing'.2, grip]) h
    obtain ⟨h2, rfl⟩ := List.cons.inj hrest
    exact ⟨by rw [Subtype.ext h1, Subtype.ext h2], rfl⟩
  | _ => exact absurd (List.cons.inj h).1 (Terminal.ne _ _ (by decide))

theorem unique_array {items : Derivation .items} (opening : Terminal .openBracket) (closing : Terminal .closeBracket)
    (ih : Unique items) : Unique (array opening items closing) := by
  intro d' r r' hr hr' h
  cases d' with
  | array opening' items' closing' =>
    simp only [yield, List.append_assoc, List.cons_append, List.nil_append, List.cons.injEq] at h
    obtain ⟨h1, h⟩ := h
    obtain ⟨rfl, hrest⟩ := ih _ _ _ (by simp [Symbol.Ends, closing.2]) (by simp [Symbol.Ends, closing'.2]) h
    obtain ⟨h2, rfl⟩ := List.cons.inj hrest
    exact ⟨by rw [Subtype.ext h1, Subtype.ext h2], rfl⟩
  | _ => exact absurd (List.cons.inj h).1 (Terminal.ne _ _ (by decide))

theorem unique_noItem : Unique noItem := by
  intro d' r r' hr hr' h
  cases d' with
  | noItem => exact ⟨rfl, h⟩
  | someItems first rest =>
    obtain ⟨t, ts, hy, hk⟩ := first.expression_starts
    have := hr t (by rw [show r = _ from h, yield, hy]; rfl)
    rcases this with ht | ht <;> rw [ht] at hk <;> exact absurd hk (by decide)

theorem unique_someItems {first : Derivation (.expression .conditional)} {rest : Derivation .moreItems}
    (ihf : Unique first) (ihr : Unique rest) : Unique (someItems first rest) := by
  intro d' r r' hr hr' h
  cases d' with
  | noItem =>
    obtain ⟨t, ts, hy, hk⟩ := first.expression_starts
    have := hr' t (by rw [show r' = _ from h.symm, yield, hy]; rfl)
    rcases this with ht | ht <;> rw [ht] at hk <;> exact absurd hk (by decide)
  | someItems first' rest' =>
    rw [yield, yield, List.append_assoc, List.append_assoc] at h
    obtain ⟨rfl, hrest⟩ := ihf _ _ _ (moreItems_end rest hr) (moreItems_end rest' hr') h
    obtain ⟨rfl, rfl⟩ := ihr _ _ _ hr hr' hrest
    exact ⟨rfl, rfl⟩

theorem unique_lastItem : Unique lastItem := by
  intro d' r r' hr hr' h
  cases d' with
  | lastItem => exact ⟨rfl, h⟩
  | item comma e rest =>
    have := hr comma.1 (by rw [show r = _ from h]; rfl)
    rw [comma.2] at this
    exact absurd this (by decide)

theorem unique_item {e : Derivation (.expression .conditional)} {rest : Derivation .moreItems} (comma : Terminal .comma)
    (ihe : Unique e) (ihr : Unique rest) : Unique (item comma e rest) := by
  intro d' r r' hr hr' h
  cases d' with
  | lastItem =>
    have := hr' comma.1 (by rw [show r' = _ from h.symm]; rfl)
    rw [comma.2] at this
    exact absurd this (by decide)
  | item comma' e' rest' =>
    simp only [yield, List.append_assoc, List.cons_append, List.cons.injEq] at h
    obtain ⟨h1, h⟩ := h
    obtain ⟨rfl, hrest⟩ := ihe _ _ _ (moreItems_end rest hr) (moreItems_end rest' hr') h
    obtain ⟨rfl, rfl⟩ := ihr _ _ _ hr hr' hrest
    exact ⟨by rw [Subtype.ext h1], rfl⟩

/-- **Unambiguity.** Derivations of one symbol that spell the same tokens, up to what cannot belong to the symbol, are
the same derivation. -/
theorem eq_of_yield_append {s : Symbol} (d : Derivation s) : d.Unique := by
  induction d with
  | noStatement => exact unique_noStatement
  | statements first rest ihf ihr => exact unique_statements ihf ihr
  | empty semicolon => exact unique_empty semicolon
  | function keyword name opening parameters closing sign body ih =>
    exact unique_function keyword name opening parameters closing sign ih
  | print keyword value ih => exact unique_print keyword ih
  | loop keyword condition opening body closing ihc ihb => exact unique_loop keyword opening closing ihc ihb
  | declare name sign value ih => exact unique_declare name sign ih
  | assign name sign value ih => exact unique_assign name sign ih
  | plain e ih => exact unique_plain ih
  | choice test mark yes colon no iht ihy ihn => exact unique_choice mark colon iht ihy ihn
  | chain l first rest ihf ihr => exact unique_chain ihf ihr
  | noOperand l => exact unique_noOperand l
  | operand l op right rest ihe ihr => exact unique_operand op ihe ihr
  | signed op e ih => exact unique_signed op ih
  | unsigned e ih => exact unique_unsigned ih
  | base e ih => exact unique_base ih
  | raise e op exponent ihe ihx => exact unique_raise op ihe ihx
  | indexed e subscripts ihe ihs => exact unique_indexed ihe ihs
  | noSubscript => exact unique_noSubscript
  | subscript opening index closing rest ihi ihr => exact unique_subscript opening closing ihi ihr
  | numeral t => exact unique_numeral t
  | boolean t => exact unique_boolean t
  | call callee opening arguments closing ih => exact unique_call callee opening closing ih
  | «variable» name => exact unique_variable name
  | group opening e closing ih => exact unique_group opening closing ih
  | array opening items closing ih => exact unique_array opening closing ih
  | noItem => exact unique_noItem
  | someItems first rest ihf ihr => exact unique_someItems ihf ihr
  | lastItem => exact unique_lastItem
  | item comma e rest ihe ihr => exact unique_item comma ihe ihr

end Derivation

end Grammar

end Treewalk
