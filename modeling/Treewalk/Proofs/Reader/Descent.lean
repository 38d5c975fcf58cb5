/-
Reading by recursive descent.

Each construct of the language is read by a function of its own, which looks at the next token, takes tokens and calls
the functions of its parts. Nothing says beforehand how deep the calls go or how often a loop repeats. So a function
is a family, with one member for each depth that calls may reach: a member has no answer where a call would go deeper.
What a function gives on a list of tokens is what its members give from some depth on.

The functions are to programs what the reader is, said in another way. That they come to an end, and to the same as the
reader, is proved elsewhere.
-/
import Mathlib.Tactic
import Treewalk.Proofs.Grammar.Complete

namespace Treewalk

namespace Descent

open Reader Grammar

/-- what takes tokens from the front of a list, and gives something, or fails, or has no answer -/
abbrev Read := StateT (List Token) (ExceptT Diagnostic Option)

/-- the answer on a list of tokens, with the tokens that are left -/
def Read.on {α : Type} (x : Read α) (ts : List Token) : Option (Except Diagnostic (α × List Token)) := (x.run ts).run

/-- the next token of a list -/
def next (ts : List Token) : Token := ts.headD endToken

def peek : Read Token := do return next (← get)

def advance : Read Unit := modify List.tail

def fail {α : Type} (t : Token) (c : Cause) : Read α := throw ⟨c, t.location⟩

/-- has no answer -/
def deeper {α : Type} : Read α := fun _ => (none : Option _)

/-- takes a token of a kind that must stand there -/
def expect (k : Kind) (what : Expectation) : Read Token := do
  let t ← peek
  if t.kind = k then
    advance
    return t
  else fail t (.expected what (found t))

/-- what must stand behind the items -/
def closingOf : Enclosure → Expectation
  | .call _ => .closeArguments
  | .array _ => .closeArray

/-- the number that the next token spells -/
def numeral : Read Expr := do
  let t ← peek
  match Numeral.read? t.text with
  | some x => do
    advance
    return .numeral t x
  | none => fail t (.invalidNumeral t.text)

section

variable {α β : Type} {x : Read α} {f : α → Read β} {a : α} {d : Diagnostic} {ts rest : List Token}

theorem on_bind_ok (h : x.on ts = some (.ok (a, rest))) : (x >>= f).on ts = (f a).on rest := by
  show Option.bind (x.on ts) _ = _
  rw [h]
  rfl

theorem on_bind_error (h : x.on ts = some (.error d)) : (x >>= f).on ts = some (.error d) := by
  show Option.bind (x.on ts) _ = _
  rw [h]
  rfl

theorem on_peek_bind (f : Token → Read β) (ts : List Token) : (peek >>= f).on ts = (f (next ts)).on ts := rfl

variable {k : Kind} {what : Expectation}

theorem on_expect (h : (next ts).kind = k) : (expect k what).on ts = some (.ok (next ts, ts.tail)) := by
  rw [expect, on_peek_bind, if_pos h]
  rfl

theorem on_expect_of_ne (h : (next ts).kind ≠ k) :
    (expect k what).on ts = some (.error ⟨.expected what (found (next ts)), (next ts).location⟩) := by
  rw [expect, on_peek_bind, if_neg h]
  rfl

/-! ## Families -/

/-- the members of a family answer `r` on a list of tokens, from some depth on -/
def Gives (x : Nat → Read α) (ts : List Token) (r : Except Diagnostic (α × List Token)) : Prop :=
  ∃ n, ∀ m ≥ n, (x m).on ts = some r

namespace Gives

variable {x : Nat → Read α} {f : Nat → α → Read β} {r : Except Diagnostic (α × List Token)}
  {r' : Except Diagnostic (β × List Token)}

theorem const {x : Read α} (h : x.on ts = some r) : Gives (fun _ => x) ts r := ⟨0, fun _ _ => h⟩

/-- a call goes one deeper -/
theorem succ (h : Gives (fun n => x (n + 1)) ts r) : Gives x ts r := by
  obtain ⟨n, hn⟩ := h
  refine ⟨n + 1, fun m hm => ?_⟩
  obtain ⟨m, rfl⟩ := Nat.exists_eq_add_of_le' (Nat.one_le_of_lt hm)
  exact hn m (Nat.le_of_succ_le_succ hm)

theorem bind_ok (h : Gives x ts (.ok (a, rest))) (hf : Gives (fun n => f n a) rest r') :
    Gives (fun n => x n >>= f n) ts r' := by
  obtain ⟨n, hn⟩ := h
  obtain ⟨m, hm⟩ := hf
  refine ⟨max n m, fun k hk => ?_⟩
  rw [on_bind_ok (hn k (le_of_max_le_left hk)), hm k (le_of_max_le_right hk)]

theorem bind_error (h : Gives x ts (.error d)) : Gives (fun n => x n >>= f n) ts (.error d) := by
  obtain ⟨n, hn⟩ := h
  exact ⟨n, fun m hm => on_bind_error (hn m hm)⟩

theorem peek {f : Nat → Token → Read β} (h : Gives (fun n => f n (next ts)) ts r') :
    Gives (fun n => peek >>= f n) ts r' := h

end Gives

end

/-! ## Expressions -/

mutual
/-- an expression of a category -/
def expression : Category → Nat → Read Expr
  | _, 0 => deeper
  | .conditional, n + 1 => do
    let test ← expression (.level .or) n
    let t ← peek
    if t.kind = .question then
      advance
      let yes ← expression .conditional n
      let _ ← expect .colon .alternative
      let no ← expression .conditional n
      return .conditional t test yes no
    else return test
  | .level l, n + 1 => do
    let first ← expression l.operand n
    operands l first n
  | .unary, n + 1 => do
    let t ← peek
    if t.kind = .not ∨ t.kind = .minus then
      advance
      let e ← expression .unary n
      return .unary t t.text e
    else expression .power n
  | .power, n + 1 => do
    let base ← expression .indexed n
    let t ← peek
    if t.kind = .power then
      advance
      let exponent ← expression .unary n
      return .binary t t.text base exponent
    else return base
  | .indexed, n + 1 => do
    let e ← expression .primary n
    subscripts e n
  | .primary, n + 1 => do
    let t ← peek
    if t.kind = .number then numeral
    else if t.kind = .boolean then
      advance
      return .boolean t (t.text = bytes "true")
    else if t.kind = .identifier then
      advance
      if (← peek).kind = .openParen then call t n else return .variable t t.text
    else if t.kind = .openParen then
      advance
      let e ← expression .conditional n
      let _ ← expect .closeParen .closeGroup
      return e
    else if t.kind = .openBracket then array n
    else fail t (.expectedExpression (found t))

/-- operators of a level with their right operands, behind a left one -/
def operands (l : Level) (left : Expr) : Nat → Read Expr
  | 0 => deeper
  | n + 1 => do
    let t ← peek
    if t.kind ∈ l.operators then
      advance
      let right ← expression l.operand n
      operands l (.binary t t.text left right) n
    else return left

/-- subscripts behind what they subscript -/
def subscripts (e : Expr) : Nat → Read Expr
  | 0 => deeper
  | n + 1 => do
    let t ← peek
    if t.kind = .openBracket then
      advance
      let i ← expression .conditional n
      let _ ← expect .closeBracket .closeSubscript
      subscripts (.subscript t e i) n
    else return e

/-- the arguments of a call, behind its callee -/
def call (callee : Token) : Nat → Read Expr
  | 0 => deeper
  | n + 1 => do
    let _ ← expect .openParen .openArguments
    enclosed (.call callee) n

def array : Nat → Read Expr
  | 0 => deeper
  | n + 1 => do
    let t ← expect .openBracket .openArray
    enclosed (.array t) n

/-- items and the bracket that closes them, or only the bracket -/
def enclosed (b : Enclosure) : Nat → Read Expr
  | 0 => deeper
  | n + 1 => do
    if (← peek).kind = b.closing then
      advance
      return b.expr []
    else items b [] n

/-- one item and those behind it; the items before it, last one first -/
def items (b : Enclosure) (done : List Expr) : Nat → Read Expr
  | 0 => deeper
  | n + 1 => do
    let e ← expression .conditional n
    if (← peek).kind = .comma then
      advance
      items b (e :: done) n
    else
      let _ ← expect b.closing (closingOf b)
      return b.expr (e :: done).reverse
end

/-! ## Statements -/

/-- one parameter and those behind it, up to the parenthesis; the parameters before it, in order -/
def parameters (name : Token) (before : List Bytes) : Nat → Read (List Bytes)
  | 0 => deeper
  | n + 1 => do
    let t ← expect .identifier .parameter
    if before.contains t.text then fail t (.duplicateParameter t.text name.text)
    else if (← peek).kind = .comma then
      advance
      parameters name (before ++ [t.text]) n
    else
      let _ ← expect .closeParen .closeParameters
      return before ++ [t.text]

/-- the parameters of a function and the parenthesis behind them -/
def parameterList (name : Token) (n : Nat) : Read (List Bytes) := do
  if (← peek).kind = .closeParen then
    advance
    return []
  else parameters name [] n

/-- the expression that a statement ends with -/
def ending (form : Form) (n : Nat) : Read Stmt := do
  let e ← expression .conditional n
  return form.stmt e

def function (n : Nat) : Read Stmt := do
  let name ← expect .identifier .functionName
  let _ ← expect .openParen .openParameters
  let ps ← parameterList name n
  let _ ← expect .assign .functionBody
  ending (.function name ps) n

/-- a declaration or an assignment, behind its name -/
def binding (name : Token) (n : Nat) : Read Stmt := do
  let t ← peek
  if t.kind = .walrus then
    advance
    ending (.declare name) n
  else if t.kind = .assign then
    advance
    ending (.assign name) n
  else fail t (.expectedBinding name.text)

mutual
def statement : Nat → Read Stmt
  | 0 => deeper
  | n + 1 => do
    let t ← peek
    if t.kind = .function then
      advance
      function n
    else if t.kind = .print then
      advance
      ending (.print t) n
    else if t.kind = .loop then
      advance
      let condition ← expression .conditional n
      let body ← block n
      return .loop t condition body
    else if t.kind = .identifier then
      advance
      binding t n
    else fail t (.expectedStatement (found t))

/-- statements between braces -/
def block : Nat → Read Block
  | 0 => deeper
  | n + 1 => do
    let _ ← expect .openBrace .openBlock
    statements [] n

/-- statements up to the brace that closes them; those before them, last one first -/
def statements (done : List Stmt) : Nat → Read Block
  | 0 => deeper
  | n + 1 => do
    let t ← peek
    if t.kind = .closeBrace then
      advance
      return done.reverse
    else if t.kind = .endOfInput then fail t .unterminatedBlock
    else if t.kind = .semicolon then
      advance
      statements done n
    else
      let s ← statement n
      statements (s :: done) n
end

/-- statements up to the end of input; those before them, last one first -/
def topStatements (done : List Stmt) : Nat → Read Block
  | 0 => deeper
  | n + 1 => do
    let t ← peek
    if t.kind = .endOfInput then return done.reverse
    else if t.kind = .semicolon then
      advance
      topStatements done n
    else
      let s ← statement n
      topStatements (s :: done) n

/-- a whole program -/
def program (n : Nat) : Read Block := topStatements [] n

end Descent

end Treewalk
