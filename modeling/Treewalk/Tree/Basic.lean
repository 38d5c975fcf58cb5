/-
Program trees.

Each node keeps the token it was read at: the operator, the question mark, the callee's name, the opening bracket, or a
statement's first token (a function's name). Operators are kept as they were spelled, and `missing` stands for a part
that is not there, so that trees put together by hand can be printed too.
-/
import Treewalk.Number.Basic
import Treewalk.Token.Basic

namespace Treewalk

inductive Expr where
  | numeral (token : Token) (value : Number)
  | boolean (token : Token) (value : Bool)
  | variable (token : Token) (name : Bytes)
  | unary (token : Token) (op : Bytes) (operand : Expr)
  | binary (token : Token) (op : Bytes) (left right : Expr)
  | conditional (token : Token) (test yes no : Expr)
  | call (token : Token) (callee : Bytes) (arguments : List Expr)
  | array (token : Token) (items : List Expr)
  | subscript (token : Token) (array index : Expr)
  | missing

instance : Inhabited Expr := ⟨.missing⟩

inductive Stmt where
  | declare (token : Token) (name : Bytes) (value : Expr)
  | assign (token : Token) (name : Bytes) (value : Expr)
  | print (token : Token) (value : Expr)
  | loop (token : Token) (condition : Expr) (body : List Stmt)
  | function (token : Token) (name : Bytes) (parameters : List Bytes) (body : Expr)
  | missing

instance : Inhabited Stmt := ⟨.missing⟩

/-- a program or the body of a loop -/
abbrev Block := List Stmt

/-- the operators that stand before their operand -/
inductive UnaryOp where
  | negate | invert
deriving DecidableEq

def UnaryOp.ofText? (t : Bytes) : Option UnaryOp :=
  if t = bytes "-" then some .negate else if t = bytes "!" then some .invert else none

/-- operators from two numbers to a number -/
inductive ArithmeticOp where
  | add | sub | mul | div | rem | pow
deriving DecidableEq

/-- operators from two numbers to a truth value -/
inductive ComparisonOp where
  | less | lessEqual | equal | notEqual | greaterEqual | greater
deriving DecidableEq

/-- the operators that stand between their operands -/
inductive BinaryOp where
  | and | or
  | arithmetic (op : ArithmeticOp)
  | comparison (op : ComparisonOp)
deriving DecidableEq

/-- the binary operators by spelling -/
def BinaryOp.spellings : List (Bytes × BinaryOp) :=
  [(bytes "&&", .and), (bytes "||", .or), (bytes "+", .arithmetic .add), (bytes "-", .arithmetic .sub),
    (bytes "*", .arithmetic .mul), (bytes "/", .arithmetic .div), (bytes "%", .arithmetic .rem),
    (bytes "**", .arithmetic .pow), (bytes "<", .comparison .less), (bytes "<=", .comparison .lessEqual),
    (bytes "==", .comparison .equal), (bytes "!=", .comparison .notEqual), (bytes ">=", .comparison .greaterEqual),
    (bytes ">", .comparison .greater)]

def BinaryOp.ofText? (t : Bytes) : Option BinaryOp := spellings.lookup t

end Treewalk
