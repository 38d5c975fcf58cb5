/-
Execution of statements.

Statements run in one frame of a world; blocks open no frame of their own. A statement that fails binds no name and
prints nothing. Loops may go on for ever, so a run is given a number of rounds that each loop may take; a run that needs
more is `unfinished`, which is neither success nor failure. So is a run that comes to print a value without a text.
-/
import Treewalk.Eval.Expression

namespace Treewalk

/-- how a run ends -/
inductive Outcome where
  | done (world : World)
  | failed (diagnostic : Diagnostic) (world : World)
  | unfinished (world : World)

namespace Outcome

/-- goes on from a run that is done -/
def andThen (o : Outcome) (next : World → Outcome) : Outcome :=
  match o with
  | .done w => next w
  | o => o

def world : Outcome → World
  | .done w => w
  | .failed _ w => w
  | .unfinished w => w

def diagnostic? : Outcome → Option Diagnostic
  | .failed d _ => some d
  | _ => none

end Outcome

/-- bounds of a run: calls inside one another, and rounds of a loop -/
structure Limits where
  calls : Nat
  rounds : Nat

namespace World

/-- evaluates an expression in a frame and goes on with its value -/
def withValue (w : World) (limits : Limits) (frame : FrameId) (e : Expr) (next : Value → World → Outcome) : Outcome :=
  match (e.eval limits.calls frame).runIn w with
  | (.ok v, w) => next v w
  | (.error d, w) => .failed d w

/-- binds a name in a frame -/
def declare (w : World) (frame : FrameId) (t : Token) (x : Bytes) (v : Value) : Except Diagnostic World :=
  match w.frames.declare? frame x v with
  | some frames => .ok { w with frames := frames }
  | none => .error ⟨.alreadyDeclared x, t.location⟩

/-- gives a bound name another value -/
def assign (w : World) (frame : FrameId) (t : Token) (x : Bytes) (v : Value) : Except Diagnostic World :=
  match w.frames.assign? frame x v with
  | some frames => .ok { w with frames := frames }
  | none => .error ⟨.undeclaredTarget x, t.location⟩

/-- one more printed line -/
def print (w : World) (line : Bytes) : World := { w with printed := line :: w.printed }

end World

/-- repeats `body` while `condition` holds, for less than `rounds` rounds -/
def iterate (condition : World → (Bool → World → Outcome) → Outcome) (body : World → Outcome) :
    Nat → World → Outcome
  | 0, w => .unfinished w
  | rounds + 1, w =>
    condition w fun b w => if b then (body w).andThen (iterate condition body rounds) else .done w

mutual
/-- runs a statement in a frame -/
def Stmt.exec (limits : Limits) (frame : FrameId) : Stmt → World → Outcome
  | .declare t x e, w =>
    w.withValue limits frame e fun v w =>
      match w.declare frame t x v with
      | .ok w => .done w
      | .error d => .failed d w
  | .assign t x e, w =>
    w.withValue limits frame e fun v w =>
      match w.assign frame t x v with
      | .ok w => .done w
      | .error d => .failed d w
  | .print _ e, w =>
    w.withValue limits frame e fun v w =>
      match v.text? w.heap with
      | some line => .done (w.print line)
      | none => .unfinished w
  | .loop t c body, w =>
    iterate
      (fun w next => w.withValue limits frame c fun v w =>
        match v with
        | .boolean b => next b w
        | v => .failed ⟨.wrongType .boolean .loopCondition v.typeName, t.location⟩ w)
      (fun w => Stmt.execAll limits frame body w) limits.rounds w
  | .function t f ps e, w =>
    match w.declare frame t f (.closure ⟨f, ps, e, some frame, t⟩) with
    | .ok w => .done w
    | .error d => .failed d w
  | .missing, w => .failed ⟨.missingPart, .nowhere⟩ w

/-- runs statements one after another, up to the first that fails -/
def Stmt.execAll (limits : Limits) (frame : FrameId) : List Stmt → World → Outcome
  | [], w => .done w
  | s :: ss, w => (s.exec limits frame w).andThen fun w => Stmt.execAll limits frame ss w
end

/-- runs a block in a frame -/
def Block.exec (b : Block) (limits : Limits) (frame : FrameId) (w : World) : Outcome := Stmt.execAll limits frame b w

namespace World

/-- the frame that programs run in -/
def root : FrameId := 0

/-- a world with one frame, which binds the built-in names -/
def initial : World := ⟨(Frames.declareAll #[⟨[], [], true⟩] root builtins).1, #[], []⟩

end World

/-- runs a program in a world of its own -/
def Block.run (b : Block) (limits : Limits) : Outcome := b.exec limits World.root .initial

end Treewalk
