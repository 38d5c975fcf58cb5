/-
The world of a run, and steps of evaluation in it.

A world is the frames, the heap and the lines printed so far. A step works on a world and may fail; what it did before
it failed stays. A call works in a frame of its own, which is the last one for as long as the call goes on and is taken
away when the call ends, be it with a value or with a failure.
-/
import Treewalk.Eval.Frame

namespace Treewalk

structure World where
  frames : Frames
  heap : Heap
  /-- printed lines, last one first -/
  printed : List Bytes

/-- what was printed: each line with its line end -/
def World.output (w : World) : Bytes := w.printed.reverse.flatMap (· ++ bytes "\n")

/-- a step of evaluation -/
abbrev Eval := ExceptT Diagnostic (StateM World)

namespace Eval

/-- what a step gives in a world, and the world it leaves -/
def runIn {α : Type} (x : Eval α) (w : World) : Except Diagnostic α × World := x.run.run w

/-- fails at the place of a token -/
def fail {α : Type} (t : Token) (cause : Cause) : Eval α := throw ⟨cause, t.location⟩

/-- the number in a value that must be one -/
def number (t : Token) (role : Role) : Value → Eval Number
  | .number x => pure x
  | v => fail t (.wrongType .number role v.typeName)

/-- the truth value in a value that must be one -/
def boolean (t : Token) (role : Role) : Value → Eval Bool
  | .boolean b => pure b
  | v => fail t (.wrongType .boolean role v.typeName)

/-- the value of a name in a frame -/
def lookup (t : Token) (frame : FrameId) (x : Bytes) : Eval Value := do
  match (← get).frames.lookup? frame x with
  | some v => pure v
  | none => fail t (.undefinedVariable x)

/-- the items of an array -/
def items (id : ArrayId) : Eval (List Value) := do
  pure ((← get).heap.items id)

/-- a new array -/
def array (items : List Value) : Eval Value :=
  modifyGet fun w =>
    let (id, heap) := w.heap.add items
    (.array id, { w with heap := heap })

/-- the frame that a closure was declared in, which must be live -/
def scope (t : Token) (f : Closure) : Eval FrameId := do
  match f.frame.filter (← get).frames.isLive with
  | some frame => pure frame
  | none => fail t (.scopeGone f.name f.token.location)

/-- goes on in a new frame for names and values inside another one; the new frame is taken away in the end -/
def withFrame {α : Type} (t : Token) (parent : FrameId) (pairs : List (Bytes × Value)) (body : FrameId → Eval α) :
    Eval α := fun w =>
  match w.frames.child (some parent) pairs t.location with
  | .error d => (.error d, w)
  | .ok (frame, frames) =>
    let (r, w) := (body frame).runIn { w with frames := frames }
    (r, { w with frames := w.frames.pop })

end Eval

end Treewalk
