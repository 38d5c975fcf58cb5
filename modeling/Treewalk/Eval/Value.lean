/-
Values, and the heap of arrays.

Numbers and truth values stand for themselves. An array is a reference into the heap, so two values may share one; the
language itself never changes an array once its literal has been evaluated. A function is a native operation on numbers
or a closure, which names the frame it was declared in without keeping that frame alive. `noArray` and `noFunction` are
references to nothing.
-/
import Treewalk.Number.Elementary
import Treewalk.Tree.Printer
import Treewalk.Diagnostic

namespace Treewalk

abbrev FrameId := Nat

abbrev ArrayId := Nat

/-- operations that natives perform; `sum` adds its arguments from the left, starting from zero -/
inductive NativeOp where
  | sin | cos | hypot | sqrt | exp | ln | sum
deriving DecidableEq

/-- a native operation on as many numbers as the native's arity says -/
def NativeOp.apply : NativeOp → List Number → Number
  | .sin, x :: _ => x.sin
  | .cos, x :: _ => x.cos
  | .hypot, x :: y :: _ => x.hypot y
  | .sqrt, x :: _ => x.sqrt
  | .exp, x :: _ => x.exp
  | .ln, x :: _ => x.ln
  | .sum, xs => xs.foldl Number.add .zero
  | _, _ => .nan

structure Native where
  name : Bytes
  arity : Nat
  op : NativeOp
deriving DecidableEq

/-- a declared function; `frame` is the frame it was declared in, none if that never was -/
structure Closure where
  name : Bytes
  parameters : List Bytes
  body : Expr
  frame : Option FrameId
  token : Token

inductive Value where
  | number (x : Number)
  | boolean (b : Bool)
  | array (id : ArrayId)
  | native (f : Native)
  | closure (f : Closure)
  | noArray
  | noFunction

instance : Inhabited Value := ⟨.boolean false⟩

/-- arrays by id, each with its items in order -/
abbrev Heap := Array (List Value)

namespace Heap

/-- the items of an array; none are in an array that is not there -/
def items (h : Heap) (id : ArrayId) : List Value := h[id]?.getD []

/-- a new array with the given items -/
def add (h : Heap) (items : List Value) : ArrayId × Heap := (h.size, h.push items)

/-- puts an item at the end of an array, in place -/
def append (h : Heap) (id : ArrayId) (v : Value) : Heap := h.modify id (· ++ [v])

end Heap

namespace Value

def typeName : Value → TypeName
  | .number _ => .number
  | .boolean _ => .boolean
  | .array _ | .noArray => .array
  | .native _ | .closure _ | .noFunction => .function

/-- text of a value, unless its arrays nest more than `depth` deep -/
def textWithin? (h : Heap) : Nat → Value → Option Bytes
  | _, .number x => some x.text
  | _, .boolean b => some (bytes (if b then "true" else "false"))
  | depth + 1, .array id =>
    ((h.items id).mapM (textWithin? h depth)).map fun texts =>
      bytes "[" ++ Bytes.joinWith (bytes ", ") texts ++ bytes "]"
  | 0, .array _ => none
  | _, .noArray => some (bytes "[]")
  | _, .native f => some (bytes "<native " ++ f.name ++ bytes ">")
  | _, .closure f => some (bytes "<function " ++ f.name ++ bytes ">")
  | _, .noFunction => some (bytes "<function>")

/-- text of a value as programs print it. Arrays nest no deeper than there are arrays (and one that is not there),
unless one of them contains itself: then the value has no text, since writing it would go on for ever. -/
def text? (h : Heap) (v : Value) : Option Bytes := v.textWithin? h (h.size + 1)

/-- text of a value as hosts see it, empty where there is none -/
def text (h : Heap) (v : Value) : Bytes := (v.text? h).getD []

end Value

end Treewalk
