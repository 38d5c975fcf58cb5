/-
From tokens to a program tree.

The reader is a machine that takes one token after another. Its state says what it is in the middle of: the loops that
are open with the statements read so far, the statement being read, and inside an expression a stack of pending
constructs, innermost first. `step` moves the state by one token or refuses the token; `parse` runs the steps up to the
end of input. So an error always names the first token that no program could have at its place.

An operand that is complete stays as it is until the next token tells whether it binds further. Pending operators that
bind at least as tightly as the next one are then put together: a prefix operator binds tighter than every infix one
but `**`, infix operators of one level go to the left, `**` and the conditional go to the right.
-/
import Treewalk.Diagnostic
import Treewalk.Number.Numeral
import Treewalk.Tree.Basic

namespace Treewalk

namespace Reader

/-- a construct whose next part is an expression still to be read -/
inductive Pending where
  | unary (op : Token)
  | binary (left : Expr) (op : Token)
  /-- the part between `?` and `:` -/
  | yes (test : Expr) (mark : Token)
  /-- the part after `:` -/
  | no (test : Expr) (mark : Token) (yes : Expr)
  | group
  /-- arguments of a call; those already read, last one first -/
  | arguments (callee : Token) (done : List Expr)
  /-- items of an array; those already read, last one first -/
  | items (bracket : Token) (done : List Expr)
  | index (array : Expr) (bracket : Token)

/-- a statement that ends with an expression, without that expression -/
inductive Form where
  | declare (name : Token)
  | assign (name : Token)
  | print (keyword : Token)
  | function (name : Token) (parameters : List Bytes)

/-- the statement that a form and its expression make -/
def Form.stmt : Form → Expr → Stmt
  | .declare name, e => .declare name name.text e
  | .assign name, e => .assign name name.text e
  | .print keyword, e => .print keyword e
  | .function name ps, e => .function name name.text ps e

/-- what an expression is read for: the end of a statement, or the condition of a loop -/
inductive Goal where
  | statement (form : Form)
  | condition (keyword : Token)

/-- a loop whose body is being read, and the statements before it in its block, last one first -/
structure OpenLoop where
  keyword : Token
  condition : Expr
  before : List Stmt

/-- what the next token may be -/
inductive Phase where
  /-- a statement, or the end of the block -/
  | statement
  /-- `:=` or `=` after a name -/
  | binding (name : Token)
  /-- the name of a function -/
  | functionName
  /-- the parenthesis before parameters -/
  | openParameters (name : Token)
  /-- the first parameter, or no parameter -/
  | firstParameter (name : Token)
  /-- a parameter after a comma; the parameters so far, in order -/
  | parameter (name : Token) (parameters : List Bytes)
  /-- a comma or the parenthesis after parameters -/
  | afterParameter (name : Token) (parameters : List Bytes)
  /-- `=` before a function's body -/
  | functionBody (name : Token) (parameters : List Bytes)
  /-- an expression -/
  | operand (goal : Goal) (pending : List Pending)
  /-- what follows a name that may be a callee -/
  | callee (goal : Goal) (pending : List Pending) (name : Token)
  /-- what follows a complete operand -/
  | operator (goal : Goal) (pending : List Pending) (left : Expr)

structure State where
  /-- open loops, innermost first -/
  loops : List OpenLoop
  /-- statements of the innermost block, last one first -/
  done : List Stmt
  phase : Phase

/-- before the first token -/
def State.initial : State := ⟨[], [], .statement⟩

/-- how tightly an infix operator binds -/
def level? : Kind → Option Nat
  | .or => some 1
  | .and => some 2
  | .equal | .notEqual => some 3
  | .less | .lessEqual | .greater | .greaterEqual => some 4
  | .plus | .minus => some 5
  | .star | .slash | .percent => some 6
  | .power => some 7
  | _ => none

/-- what a refused token is called in messages -/
def found (t : Token) : Found := if t.kind = .endOfInput then .endOfInput else .lexeme t.text

def refuse {α : Type} (t : Token) (cause : Cause) : Except Diagnostic α := .error ⟨cause, t.location⟩

def refuseAs {α : Type} (t : Token) (what : Expectation) : Except Diagnostic α :=
  refuse t (.expected what (found t))

/-- puts together the pending operators that bind at least as tightly as `level` -/
def reduce (level : Nat) : List Pending → Expr → List Pending × Expr
  | .unary op :: p, e => reduce level p (.unary op op.text e)
  | .binary l op :: p, e =>
    if level ≤ (level? op.kind).getD 0 then reduce level p (.binary op op.text l e) else (.binary l op :: p, e)
  | p, e => (p, e)

/-- puts together the pending operators and conditionals up to a construct that needs a token of its own -/
def reduceAll : List Pending → Expr → List Pending × Expr
  | .unary op :: p, e => reduceAll p (.unary op op.text e)
  | .binary l op :: p, e => reduceAll p (.binary op op.text l e)
  | .no c mark y :: p, e => reduceAll p (.conditional mark c y e)
  | p, e => (p, e)

namespace State

/-- a token where a statement may start -/
@[simp] def startStatement (loops : List OpenLoop) (done : List Stmt) (t : Token) : Except Diagnostic State :=
  match t.kind with
  | .semicolon => .ok ⟨loops, done, .statement⟩
  | .function => .ok ⟨loops, done, .functionName⟩
  | .print => .ok ⟨loops, done, .operand (.statement (.print t)) []⟩
  | .loop => .ok ⟨loops, done, .operand (.condition t) []⟩
  | .identifier => .ok ⟨loops, done, .binding t⟩
  | .closeBrace =>
    match loops with
    | l :: ls => .ok ⟨ls, .loop l.keyword l.condition done.reverse :: l.before, .statement⟩
    | [] => refuse t (.expectedStatement (found t))
  | _ => refuse t (.expectedStatement (found t))

/-- a token where an expression must start -/
@[simp] def startOperand (s : State) (goal : Goal) (pending : List Pending) (t : Token) : Except Diagnostic State :=
  let go (phase : Phase) : Except Diagnostic State := .ok { s with phase := phase }
  match t.kind, pending with
  | .closeParen, .arguments callee [] :: p => go (.operator goal p (.call callee callee.text []))
  | .closeBracket, .items bracket [] :: p => go (.operator goal p (.array bracket []))
  | .number, p =>
    match Numeral.read? t.text with
    | some x => go (.operator goal p (.numeral t x))
    | none => refuse t (.invalidNumeral t.text)
  | .boolean, p => go (.operator goal p (.boolean t (t.text = bytes "true")))
  | .identifier, p => go (.callee goal p t)
  | .openParen, p => go (.operand goal (.group :: p))
  | .openBracket, p => go (.operand goal (.items t [] :: p))
  | .not, p => go (.operand goal (.unary t :: p))
  | .minus, p => go (.operand goal (.unary t :: p))
  | _, _ => refuse t (.expectedExpression (found t))

/-- a token after an expression that it does not continue: the innermost construct, or else the statement, takes it -/
def close (s : State) (goal : Goal) (pending : List Pending) (e : Expr) (t : Token) : Except Diagnostic State :=
  let go (phase : Phase) : Except Diagnostic State := .ok { s with phase := phase }
  match pending with
  | .yes c mark :: p =>
    if t.kind = .colon then go (.operand goal (.no c mark e :: p)) else refuseAs t .alternative
  | .group :: p => if t.kind = .closeParen then go (.operator goal p e) else refuseAs t .closeGroup
  | .arguments callee done :: p =>
    if t.kind = .comma then go (.operand goal (.arguments callee (e :: done) :: p))
    else if t.kind = .closeParen then go (.operator goal p (.call callee callee.text (e :: done).reverse))
    else refuseAs t .closeArguments
  | .items bracket done :: p =>
    if t.kind = .comma then go (.operand goal (.items bracket (e :: done) :: p))
    else if t.kind = .closeBracket then go (.operator goal p (.array bracket (e :: done).reverse))
    else refuseAs t .closeArray
  | .index a bracket :: p =>
    if t.kind = .closeBracket then go (.operator goal p (.subscript bracket a e)) else refuseAs t .closeSubscript
  | _ =>
    match goal with
    | .statement form => startStatement s.loops (form.stmt e :: s.done) t
    | .condition keyword =>
      if t.kind = .openBrace then .ok ⟨⟨keyword, e, s.done⟩ :: s.loops, [], .statement⟩ else refuseAs t .openBlock

/-- a token after a complete operand -/
def afterOperand (s : State) (goal : Goal) (pending : List Pending) (e : Expr) (t : Token) :
    Except Diagnostic State :=
  let go (phase : Phase) : Except Diagnostic State := .ok { s with phase := phase }
  match t.kind with
  | .openBracket => go (.operand goal (.index e t :: pending))
  | .power => go (.operand goal (.binary e t :: pending))
  | .question =>
    let (p, c) := reduce 0 pending e
    go (.operand goal (.yes c t :: p))
  | k =>
    match level? k with
    | some level =>
      let (p, l) := reduce level pending e
      go (.operand goal (.binary l t :: p))
    | none =>
      let (p, e) := reduceAll pending e
      s.close goal p e t

/-- one token -/
def step (s : State) (t : Token) : Except Diagnostic State :=
  let go (phase : Phase) : Except Diagnostic State := .ok { s with phase := phase }
  match s.phase with
  | .statement => startStatement s.loops s.done t
  | .binding name =>
    if t.kind = .walrus then go (.operand (.statement (.declare name)) [])
    else if t.kind = .assign then go (.operand (.statement (.assign name)) [])
    else refuse t (.expectedBinding name.text)
  | .functionName => if t.kind = .identifier then go (.openParameters t) else refuseAs t .functionName
  | .openParameters name => if t.kind = .openParen then go (.firstParameter name) else refuseAs t .openParameters
  | .firstParameter name =>
    if t.kind = .closeParen then go (.functionBody name [])
    else if t.kind = .identifier then go (.afterParameter name [t.text])
    else refuseAs t .parameter
  | .parameter name ps =>
    if t.kind = .identifier then
      if t.text ∈ ps then refuse t (.duplicateParameter t.text name.text)
      else go (.afterParameter name (ps ++ [t.text]))
    else refuseAs t .parameter
  | .afterParameter name ps =>
    if t.kind = .comma then go (.parameter name ps)
    else if t.kind = .closeParen then go (.functionBody name ps)
    else refuseAs t .closeParameters
  | .functionBody name ps =>
    if t.kind = .assign then go (.operand (.statement (.function name ps)) []) else refuseAs t .functionBody
  | .operand goal p => s.startOperand goal p t
  | .callee goal p name =>
    if t.kind = .openParen then go (.operand goal (.arguments name [] :: p))
    else s.afterOperand goal p (.variable name name.text) t
  | .operator goal p e => s.afterOperand goal p e t

/-- the state after a statement whose expression is complete, with nothing pending around it -/
def settle (s : State) : State :=
  let complete (form : Form) (p : List Pending) (e : Expr) : State :=
    match reduceAll p e with
    | ([], e) => ⟨s.loops, form.stmt e :: s.done, .statement⟩
    | _ => s
  match s.phase with
  | .callee (.statement form) p name => complete form p (.variable name name.text)
  | .operator (.statement form) p e => complete form p e
  | _ => s

/-- the program, if the input may end here. No step takes an end token, so inside a statement the step refuses it. -/
def finish (s : State) (t : Token) : Except Diagnostic Block :=
  let s := s.settle
  match s.phase with
  | .statement => if s.loops.isEmpty then .ok s.done.reverse else refuse t .unterminatedBlock
  | _ =>
    match s.step t with
    | .error d => .error d
    | .ok s => .ok s.done.reverse

end State

/-- stands for the end of a token list that has no end token -/
def endToken : Token := ⟨.endOfInput, [], ⟨bytes "<eof>", 0, 0, 0, none⟩⟩

/-- reads on from a state up to the first end of input -/
def State.run (s : State) : List Token → Except Diagnostic Block
  | [] => s.finish endToken
  | t :: ts =>
    if t.kind = .endOfInput then s.finish t
    else
      match s.step t with
      | .ok s => s.run ts
      | .error d => .error d

end Reader

/-- the program that a list of tokens spells -/
def Block.parse (ts : List Token) : Except Diagnostic Block := Reader.State.initial.run ts

end Treewalk
