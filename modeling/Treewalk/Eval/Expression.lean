/-
Evaluation of expressions.

An expression is evaluated in a frame, and what it does to the world is to add arrays to the heap. `Expr.evalWith` goes
down the tree and leaves calls of closures to a function it is given; `callWithin n` is that function for at most `n`
calls inside one another. So evaluation ends for every limit, and the limit shows only in the error of the call that
would exceed it.
-/
import Treewalk.Eval.World

namespace Treewalk

def ArithmeticOp.apply : ArithmeticOp → Number → Number → Number
  | .add => Number.add
  | .sub => Number.sub
  | .mul => Number.mul
  | .div => Number.div
  | .rem => Number.rem
  | .pow => Number.pow

def ComparisonOp.apply : ComparisonOp → Number → Number → Bool
  | .less, x, y => x.lt y
  | .lessEqual, x, y => x.le y
  | .equal, x, y => x.eq y
  | .notEqual, x, y => !x.eq y
  | .greaterEqual, x, y => y.le x
  | .greater, x, y => y.lt x

/-- the place that an index selects among `length` items: the index is a whole number, and compared as a number it is
neither below zero nor at or above the length -/
def Number.index (x : Number) (length : Nat) : Except Cause (Fin length) :=
  match x with
  | .finite _ m =>
    if m.isInteger then
      if x.lt .zero || (Number.ofScaledInt length 0).le x then .error (.indexRange x length)
      else if h : m.floor < length then .ok ⟨m.floor, h⟩
      -- only a length above `2 ^ 53` can come here, which may be rounded up to be a number
      else .error (.indexRange x length)
    else .error (.indexFraction x)
  | _ => .error (.indexFraction x)

/-- the item of an array at an index -/
def Value.item (t : Token) (items : List Value) (index : Value) : Eval Value :=
  match index with
  | .number x =>
    match x.index items.length with
    | .ok i => pure (items.get i)
    | .error cause => Eval.fail t cause
  | v => Eval.fail t (.indexType v.typeName)

/-- calls of closures: the closure, its arguments and the token of the call -/
abbrev Call := Closure → List Value → Token → Eval Value

/-- the numbers among a native's arguments, of which the first is number `i` -/
def nativeArguments (t : Token) (f : Bytes) (i : Nat) : List Value → Eval (List Number)
  | [] => pure []
  | v :: vs => do
    let x ← Eval.number t (.argument i f) v
    let xs ← nativeArguments t f (i + 1) vs
    pure (x :: xs)

/-- calls a native or a closure with as many arguments as it takes -/
def applyFunction (call : Call) (t : Token) (f : Value) (callee : Bytes) (args : List Value) : Eval Value :=
  match f with
  | .native n =>
    if args.length = n.arity then do
      let xs ← nativeArguments t n.name 1 args
      pure (.number (n.op.apply xs))
    else Eval.fail t (.arity n.name n.arity args.length)
  | .closure c =>
    if args.length = c.parameters.length then call c args t
    else Eval.fail t (.arity c.name c.parameters.length args.length)
  | v => Eval.fail t (.notCallable callee v.typeName)

/-- a value that may be called; what is no function is refused before arguments are looked at -/
def Value.isFunction : Value → Bool
  | .native _ | .closure _ | .noFunction => true
  | _ => false

mutual
/-- the value of an expression -/
def Expr.evalWith (call : Call) (frame : FrameId) : Expr → Eval Value
  | .numeral _ x => pure (.number x)
  | .boolean _ b => pure (.boolean b)
  | .variable t x => Eval.lookup t frame x
  | .unary t op e =>
    match UnaryOp.ofText? op with
    | none => Eval.fail t (.unknownUnary op)
    | some .negate => do
      let v ← e.evalWith call frame
      let x ← Eval.number t .negated v
      pure (.number x.neg)
    | some .invert => do
      let v ← e.evalWith call frame
      let b ← Eval.boolean t .inverted v
      pure (.boolean !b)
  | .binary t op l r =>
    match BinaryOp.ofText? op with
    | some .and => do
      let v ← l.evalWith call frame
      let b ← Eval.boolean t (.left op) v
      if b then
        let w ← r.evalWith call frame
        let c ← Eval.boolean t (.right op) w
        pure (.boolean c)
      else pure (.boolean false)
    | some .or => do
      let v ← l.evalWith call frame
      let b ← Eval.boolean t (.left op) v
      if b then pure (.boolean true)
      else
        let w ← r.evalWith call frame
        let c ← Eval.boolean t (.right op) w
        pure (.boolean c)
    | some (.arithmetic o) => do
      let v ← l.evalWith call frame
      let w ← r.evalWith call frame
      let x ← Eval.number t (.left op) v
      let y ← Eval.number t (.right op) w
      pure (.number (o.apply x y))
    | some (.comparison o) => do
      let v ← l.evalWith call frame
      let w ← r.evalWith call frame
      let x ← Eval.number t (.left op) v
      let y ← Eval.number t (.right op) w
      pure (.boolean (o.apply x y))
    | none => do
      let _ ← l.evalWith call frame
      let _ ← r.evalWith call frame
      Eval.fail t (.unknownBinary op)
  | .conditional t c y n => do
    let v ← c.evalWith call frame
    let b ← Eval.boolean t .test v
    if b then y.evalWith call frame else n.evalWith call frame
  | .call t f args => do
    let v ← Eval.lookup t frame f
    if v.isFunction then
      let vs ← Expr.evalAllWith call frame args
      applyFunction call t v f vs
    else Eval.fail t (.notCallable f v.typeName)
  | .array _ items => do
    let vs ← Expr.evalAllWith call frame items
    Eval.array vs
  | .subscript t a i => do
    let v ← a.evalWith call frame
    match v with
    | .array id => do
      let w ← i.evalWith call frame
      let items ← Eval.items id
      Value.item t items w
    | .noArray => do
      let w ← i.evalWith call frame
      Value.item t [] w
    | v => Eval.fail t (.notSubscriptable v.typeName)
  | .missing => Eval.fail .unplaced .missingPart

/-- the values of expressions, from left to right -/
def Expr.evalAllWith (call : Call) (frame : FrameId) : List Expr → Eval (List Value)
  | [] => pure []
  | e :: es => do
    let v ← e.evalWith call frame
    let vs ← Expr.evalAllWith call frame es
    pure (v :: vs)
end

/-- a call among at most `limit` calls inside one another: the closure's frame must be live, the limit must not be
reached, and the parameters must differ; then the body is evaluated with the parameters bound inside that frame -/
def callWithin : Nat → Call
  | 0, f, _, t => do
    let _ ← Eval.scope t f
    Eval.fail t (.callDepth f.name)
  | limit + 1, f, args, t => do
    let frame ← Eval.scope t f
    Eval.withFrame t frame (f.parameters.zip args) (f.body.evalWith (callWithin limit))

/-- the value of an expression with at most `limit` calls inside one another -/
def Expr.eval (limit : Nat) (frame : FrameId) (e : Expr) : Eval Value := e.evalWith (callWithin limit) frame

end Treewalk
