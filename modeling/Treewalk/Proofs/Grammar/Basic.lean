/-
The grammar of programs, as derivations.

A derivation is a parse tree: one constructor for each way that a symbol of the grammar can be written, with the tokens
in it. `yield` gives the tokens of a derivation in order and `meaning` the tree that it denotes. Repetitions are symbols
of their own: the operands that follow the first one of a level, the subscripts behind a primary expression, the items
between commas.

  Block       → Statement*
  Statement   → ';' | 'fun' id '(' (id (',' id)*)? ')' '=' Exp | 'print' Exp | 'while' Exp '{' Block '}'
              | id ':=' Exp | id '=' Exp
  Exp         → Level1 | Level1 '?' Exp ':' Exp
  Level n     → Level (n+1) (op Level (n+1))*       n = 1 .. 6: || && ==!= <<=>=> +- */%
  Level 7     → ('-' | '!') Level7 | Power
  Power       → Indexed | Indexed '**' Level7
  Indexed     → Primary ('[' Exp ']')*
  Primary     → num | bool | id '(' Items ')' | id | '(' Exp ')' | '[' Items ']'
  Items       → (Exp (',' Exp)*)?

Parentheses leave no node, infix operators of one level go to the left, `**` and the conditional go to the right. No
part of this module knows how programs are read.
-/
import Treewalk.Number.Numeral
import Treewalk.Tree.Basic

namespace Treewalk

namespace Grammar

/-- the levels of infix operators that go to the left, loosest first -/
inductive Level where
  | or | and | equality | comparison | sum | product
deriving DecidableEq

/-- kinds of expressions, loosest first; `unary` is what an operand of a product can be -/
inductive Category where
  | conditional
  | level (l : Level)
  | unary | power | indexed | primary
deriving DecidableEq

inductive Symbol where
  | block | statement
  | expression (c : Category)
  /-- operators of a level with their right operands -/
  | operands (l : Level)
  | subscripts
  | items
  /-- items behind the first one, each after a comma -/
  | moreItems
deriving DecidableEq

namespace Level

/-- the operators of a level -/
def operators : Level → List Kind
  | .or => [.or]
  | .and => [.and]
  | .equality => [.equal, .notEqual]
  | .comparison => [.less, .lessEqual, .greater, .greaterEqual]
  | .sum => [.plus, .minus]
  | .product => [.star, .slash, .percent]

/-- what the operands of a level are -/
def operand : Level → Category
  | .or => .level .and
  | .and => .level .equality
  | .equality => .level .comparison
  | .comparison => .level .sum
  | .sum => .level .product
  | .product => .unary

end Level

/-- what derivations of a symbol denote -/
abbrev Symbol.Meaning : Symbol → Type
  | .block | .statement => List Stmt
  | .expression _ => Expr
  | .operands _ | .subscripts => Expr → Expr
  | .items | .moreItems => List Expr

/-- a token of a given kind -/
abbrev Terminal (k : Kind) := { t : Token // t.kind = k }

/-- names with commas between, or nothing -/
abbrev Parameters := Option (Terminal .identifier × List (Terminal .comma × Terminal .identifier))

namespace Parameters

def names : Parameters → List Bytes
  | none => []
  | some (first, rest) => first.1.text :: rest.map (·.2.1.text)

def yield : Parameters → List Token
  | none => []
  | some (first, rest) => first.1 :: rest.flatMap fun (comma, name) => [comma.1, name.1]

end Parameters

/-- derivations of a symbol -/
inductive Derivation : Symbol → Type where
  -- blocks and statements
  | noStatement : Derivation .block
  | statements (first : Derivation .statement) (rest : Derivation .block) : Derivation .block
  | empty (semicolon : Terminal .semicolon) : Derivation .statement
  | function (keyword : Terminal .function) (name : Terminal .identifier) (opening : Terminal .openParen)
      (parameters : Parameters) (closing : Terminal .closeParen) (sign : Terminal .assign)
      (body : Derivation (.expression .conditional)) : Derivation .statement
  | print (keyword : Terminal .print) (value : Derivation (.expression .conditional)) : Derivation .statement
  | loop (keyword : Terminal .loop) (condition : Derivation (.expression .conditional)) (opening : Terminal .openBrace)
      (body : Derivation .block) (closing : Terminal .closeBrace) : Derivation .statement
  | declare (name : Terminal .identifier) (sign : Terminal .walrus)
      (value : Derivation (.expression .conditional)) : Derivation .statement
  | assign (name : Terminal .identifier) (sign : Terminal .assign)
      (value : Derivation (.expression .conditional)) : Derivation .statement
  -- operators
  | plain (e : Derivation (.expression (.level .or))) : Derivation (.expression .conditional)
  | choice (test : Derivation (.expression (.level .or))) (mark : Terminal .question)
      (yes : Derivation (.expression .conditional)) (colon : Terminal .colon)
      (no : Derivation (.expression .conditional)) : Derivation (.expression .conditional)
  | chain (l : Level) (first : Derivation (.expression l.operand)) (rest : Derivation (.operands l)) :
      Derivation (.expression (.level l))
  | noOperand (l : Level) : Derivation (.operands l)
  | operand (l : Level) (op : { t : Token // t.kind ∈ l.operators }) (right : Derivation (.expression l.operand))
      (rest : Derivation (.operands l)) : Derivation (.operands l)
  | signed (op : { t : Token // t.kind = .minus ∨ t.kind = .not }) (e : Derivation (.expression .unary)) :
      Derivation (.expression .unary)
  | unsigned (e : Derivation (.expression .power)) : Derivation (.expression .unary)
  | base (e : Derivation (.expression .indexed)) : Derivation (.expression .power)
  | raise (e : Derivation (.expression .indexed)) (op : Terminal .power)
      (exponent : Derivation (.expression .unary)) : Derivation (.expression .power)
  -- operands
  | indexed (e : Derivation (.expression .primary)) (subscripts : Derivation .subscripts) :
      Derivation (.expression .indexed)
  | noSubscript : Derivation .subscripts
  | subscript (opening : Terminal .openBracket) (index : Derivation (.expression .conditional))
      (closing : Terminal .closeBracket) (rest : Derivation .subscripts) : Derivation .subscripts
  | numeral (t : Terminal .number) : Derivation (.expression .primary)
  | boolean (t : Terminal .boolean) : Derivation (.expression .primary)
  | call (callee : Terminal .identifier) (opening : Terminal .openParen) (arguments : Derivation .items)
      (closing : Terminal .closeParen) : Derivation (.expression .primary)
  | variable (name : Terminal .identifier) : Derivation (.expression .primary)
  | group (opening : Terminal .openParen) (e : Derivation (.expression .conditional))
      (closing : Terminal .closeParen) : Derivation (.expression .primary)
  | array (opening : Terminal .openBracket) (items : Derivation .items) (closing : Terminal .closeBracket) :
      Derivation (.expression .primary)
  | noItem : Derivation .items
  | someItems (first : Derivation (.expression .conditional)) (rest : Derivation .moreItems) : Derivation .items
  | lastItem : Derivation .moreItems
  | item (comma : Terminal .comma) (e : Derivation (.expression .conditional)) (rest : Derivation .moreItems) :
      Derivation .moreItems

namespace Derivation

/-- the tokens of a derivation, in order -/
@[simp] def yield {s : Symbol} : Derivation s → List Token
  | noStatement => []
  | statements first rest => first.yield ++ rest.yield
  | empty semicolon => [semicolon.1]
  | function keyword name opening parameters closing sign body =>
    keyword.1 :: name.1 :: opening.1 :: parameters.yield ++ closing.1 :: sign.1 :: body.yield
  | print keyword value => keyword.1 :: value.yield
  | loop keyword condition opening body closing =>
    keyword.1 :: condition.yield ++ opening.1 :: body.yield ++ [closing.1]
  | declare name sign value => name.1 :: sign.1 :: value.yield
  | assign name sign value => name.1 :: sign.1 :: value.yield
  | plain e => e.yield
  | choice test mark yes colon no => test.yield ++ mark.1 :: yes.yield ++ colon.1 :: no.yield
  | chain _ first rest => first.yield ++ rest.yield
  | noOperand _ => []
  | operand _ op right rest => op.1 :: right.yield ++ rest.yield
  | signed op e => op.1 :: e.yield
  | unsigned e => e.yield
  | base e => e.yield
  | raise e op exponent => e.yield ++ op.1 :: exponent.yield
  | indexed e subscripts => e.yield ++ subscripts.yield
  | noSubscript => []
  | subscript opening index closing rest => opening.1 :: index.yield ++ closing.1 :: rest.yield
  | numeral t => [t.1]
  | boolean t => [t.1]
  | call callee opening arguments closing => callee.1 :: opening.1 :: arguments.yield ++ [closing.1]
  | .variable name => [name.1]
  | group opening e closing => opening.1 :: e.yield ++ [closing.1]
  | array opening items closing => opening.1 :: items.yield ++ [closing.1]
  | noItem => []
  | someItems first rest => first.yield ++ rest.yield
  | lastItem => []
  | item comma e rest => comma.1 :: e.yield ++ rest.yield

/-- the tree that a derivation denotes; a numeral that is no number counts as zero -/
@[simp] def meaning {s : Symbol} : Derivation s → s.Meaning
  | noStatement => []
  | statements first rest => first.meaning ++ rest.meaning
  | empty _ => []
  | function _ name _ parameters _ _ body => [.function name.1 name.1.text parameters.names body.meaning]
  | print keyword value => [.print keyword.1 value.meaning]
  | loop keyword condition _ body _ => [.loop keyword.1 condition.meaning body.meaning]
  | declare name _ value => [.declare name.1 name.1.text value.meaning]
  | assign name _ value => [.assign name.1 name.1.text value.meaning]
  | plain e => e.meaning
  | choice test mark yes _ no => .conditional mark.1 test.meaning yes.meaning no.meaning
  | chain _ first rest => rest.meaning first.meaning
  | noOperand _ => id
  | operand _ op right rest => fun left => rest.meaning (.binary op.1 op.1.text left right.meaning)
  | signed op e => .unary op.1 op.1.text e.meaning
  | unsigned e => e.meaning
  | base e => e.meaning
  | raise e op exponent => .binary op.1 op.1.text e.meaning exponent.meaning
  | indexed e subscripts => subscripts.meaning e.meaning
  | noSubscript => id
  | subscript opening index _ rest => fun array => rest.meaning (.subscript opening.1 array index.meaning)
  | numeral t => .numeral t.1 ((Numeral.read? t.1.text).getD .zero)
  | boolean t => .boolean t.1 (t.1.text = bytes "true")
  | call callee _ arguments _ => .call callee.1 callee.1.text arguments.meaning
  | .variable name => .variable name.1 name.1.text
  | group _ e _ => e.meaning
  | array opening items _ => .array opening.1 items.meaning
  | noItem => []
  | someItems first rest => first.meaning :: rest.meaning
  | lastItem => []
  | item _ e rest => e.meaning :: rest.meaning

/-- the names of the parameters of each function that is declared, in order -/
@[simp] def parameterLists {s : Symbol} : Derivation s → List (List Bytes)
  | statements first rest => first.parameterLists ++ rest.parameterLists
  | function _ _ _ parameters _ _ _ => [parameters.names]
  | loop _ _ _ body _ => body.parameterLists
  | _ => []

theorem kind_ne_endOfInput_of_level {l : Level} {k : Kind} (h : k ∈ l.operators) : k ≠ .endOfInput := by
  intro e
  subst e
  cases l <;> simp [Level.operators] at h

theorem kind_ne_endOfInput_of_parameters {ps : Parameters} {t : Token} (h : t ∈ ps.yield) : t.kind ≠ .endOfInput := by
  match ps with
  | none => exact absurd h List.not_mem_nil
  | some (first, rest) =>
    simp only [Parameters.yield, List.mem_cons, List.mem_flatMap, List.not_mem_nil, or_false] at h
    rcases h with rfl | ⟨⟨comma, name⟩, -, rfl | rfl⟩
    · rw [first.2]; decide
    · rw [comma.2]; decide
    · rw [name.2]; decide

/-- the end of input is no token of a derivation -/
theorem kind_ne_endOfInput {s : Symbol} (d : Derivation s) : ∀ t ∈ d.yield, t.kind ≠ .endOfInput := by
  induction d with
  | noStatement | noOperand | noSubscript | noItem | lastItem => simp [yield]
  | function keyword name opening parameters closing sign body ih =>
    intro t ht
    simp only [yield, List.mem_cons, List.cons_append, List.mem_append] at ht
    rcases ht with rfl | rfl | rfl | ht | rfl | rfl | ht
    · simp [keyword.2]
    · simp [name.2]
    · simp [opening.2]
    · exact kind_ne_endOfInput_of_parameters ht
    · simp [closing.2]
    · simp [sign.2]
    · exact ih t ht
  | operand l op right rest ihe ihr =>
    intro t ht
    simp only [yield, List.mem_cons, List.cons_append, List.mem_append] at ht
    rcases ht with rfl | ht | ht
    · exact kind_ne_endOfInput_of_level op.2
    · exact ihe t ht
    · exact ihr t ht
  | signed op e ih =>
    intro t ht
    simp only [yield, List.mem_cons] at ht
    rcases ht with rfl | ht
    · rcases op.2 with h | h <;> simp [h]
    · exact ih t ht
  | _ =>
    intro t ht
    simp only [yield, List.mem_cons, List.cons_append, List.mem_append, List.not_mem_nil, or_false] at ht
    grind

end Derivation

end Grammar

end Treewalk
