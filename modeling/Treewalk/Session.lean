/-
Sessions: a host that holds frames by name and works on them step by step.

A session has frames, a heap and handles. A handle names a frame and keeps it and its ancestors live; nothing else
does, so after a handle is dropped or given to another frame, closures declared in a frame that no chain of a handle
reaches can no longer be called. Every step leaves the effects it had before it failed.
-/
import Treewalk.Program

namespace Treewalk

structure Session where
  frames : Frames
  heap : Heap
  /-- names of frames that the host holds -/
  handles : List (Bytes × FrameId)

/-- a value as a host describes it -/
inductive Recipe where
  | number (x : Number)
  | boolean (b : Bool)
  | array (items : List Recipe)
  /-- a native that adds its arguments -/
  | adder (name : Bytes) (arity : Nat)
  | closure (name : Bytes) (parameters : List Bytes) (body : Expr) (frame : Option FrameId) (token : Token)
  /-- the value of a name in a frame -/
  | reference (frame : FrameId) (name : Bytes)
  | noArray
  | noFunction

namespace Session

def empty : Session := ⟨#[], #[], []⟩

/-- the frame that a handle names -/
def frame? (s : Session) (handle : Bytes) : Option FrameId := s.handles.lookup handle

/-- frames that no handle reaches are no longer live -/
def settle (s : Session) : Session := { s with frames := s.frames.keep (s.handles.map (·.2)) }

/-- gives a handle to a frame; what it named before is let go -/
def hold (s : Session) (handle : Bytes) (frame : FrameId) : Session :=
  settle { s with handles := (handle, frame) :: s.handles.filter (·.1 ≠ handle) }

/-- lets go of a handle -/
def drop (s : Session) (handle : Bytes) : Session :=
  settle { s with handles := s.handles.filter (·.1 ≠ handle) }

/-- a fresh frame with the built-in names, in no other frame -/
def openRoot (s : Session) (handle : Bytes) : Session :=
  let (i, frames) := s.frames.add none []
  hold { s with frames := (frames.declareAll i builtins).1 } handle i

/-- a fresh frame without names -/
def openFrame (s : Session) (handle : Bytes) (parent : Option FrameId) : Session :=
  let (i, frames) := s.frames.add parent []
  hold { s with frames := frames } handle i

/-- a fresh frame with the given names, which must differ -/
def openFrameWith (s : Session) (handle : Bytes) (parent : Option FrameId) (pairs : List (Bytes × Value))
    (l : Location) : Except Diagnostic Session :=
  match s.frames.child parent pairs l with
  | .error d => .error d
  | .ok (i, frames) => .ok (hold { s with frames := frames } handle i)

/-- binds the built-in names in a frame, up to the first that it binds already -/
def declareBuiltins (s : Session) (frame : FrameId) : Session × Option Diagnostic :=
  let (frames, clash) := s.frames.declareAll frame builtins
  ({ s with frames := frames }, clash.map fun x => ⟨.alreadyDeclared x, .nowhere⟩)

def declare (s : Session) (frame : FrameId) (x : Bytes) (v : Value) (l : Location) : Except Diagnostic Session :=
  match s.frames.declare? frame x v with
  | some frames => .ok { s with frames := frames }
  | none => .error ⟨.alreadyDeclared x, l⟩

def assign (s : Session) (frame : FrameId) (x : Bytes) (v : Value) (l : Location) : Except Diagnostic Session :=
  match s.frames.assign? frame x v with
  | some frames => .ok { s with frames := frames }
  | none => .error ⟨.undeclaredTarget x, l⟩

def lookup (s : Session) (frame : FrameId) (x : Bytes) (l : Location) : Except Diagnostic Value :=
  match s.frames.lookup? frame x with
  | some v => .ok v
  | none => .error ⟨.undefinedVariable x, l⟩

/-- puts a value at the end of the array that a name is bound to; every holder of the array sees it -/
def push (s : Session) (frame : FrameId) (x : Bytes) (v : Value) : Except Diagnostic (Value × Session) :=
  match s.lookup frame x .nowhere with
  | .error d => .error d
  | .ok (.array id) => .ok (.array id, { s with heap := s.heap.append id v })
  | .ok w => .ok (w, s)

/-- the names of a frame in byte order, with the texts of their values -/
def listing (s : Session) (frame : FrameId) : List (Bytes × Bytes) :=
  match s.frames[frame]? with
  | none => []
  | some f =>
    let sorted := f.bindings.mergeSort fun a b => !decide (b.1 < a.1)
    sorted.map fun (x, v) => (x, v.text s.heap)

mutual
/-- the value that a recipe describes; arrays are new -/
def build (s : Session) : Recipe → Except Diagnostic (Value × Session)
  | .number x => .ok (.number x, s)
  | .boolean b => .ok (.boolean b, s)
  | .array items =>
    match s.buildAll items with
    | .error d => .error d
    | .ok (vs, s) =>
      let (id, heap) := s.heap.add vs
      .ok (.array id, { s with heap := heap })
  | .adder name arity => .ok (.native ⟨name, arity, .sum⟩, s)
  | .closure name ps body frame token => .ok (.closure ⟨name, ps, body, frame, token⟩, s)
  | .reference frame x =>
    match s.lookup frame x .nowhere with
    | .ok v => .ok (v, s)
    | .error d => .error d
  | .noArray => .ok (.noArray, s)
  | .noFunction => .ok (.noFunction, s)

/-- the values of recipes, from left to right -/
def buildAll (s : Session) : List Recipe → Except Diagnostic (List Value × Session)
  | [] => .ok ([], s)
  | r :: rs =>
    match s.build r with
    | .error d => .error d
    | .ok (v, s) =>
      match s.buildAll rs with
      | .error d => .error d
      | .ok (vs, s) => .ok (v :: vs, s)
end

/-- runs a block in a frame: what it prints, and why it fails if it does -/
def exec (s : Session) (limits : Limits) (frame : FrameId) (b : Block) : Session × Bytes × Option Diagnostic :=
  let o := b.exec limits frame ⟨s.frames, s.heap, []⟩
  let w := o.world
  ({ s with frames := w.frames, heap := w.heap }, w.output, o.diagnostic?)

/-- runs a program in a frame -/
def run (s : Session) (limits : Limits) (frame : FrameId) (p : Program) : Session × Bytes × Option Diagnostic :=
  match p.block with
  | .ok b => s.exec limits frame b
  | .error d => (s, [], some d)

/-- the value of an expression in a frame -/
def eval (s : Session) (limits : Limits) (frame : FrameId) (e : Expr) : Except Diagnostic (Value × Session) :=
  match (e.eval limits.calls frame).runIn ⟨s.frames, s.heap, []⟩ with
  | (.ok v, w) => .ok (v, { s with frames := w.frames, heap := w.heap })
  | (.error d, _) => .error d

/-- the expression that a text stands for: it is read as what a print statement prints -/
def expression (p : Program) : Except Diagnostic Expr :=
  match Program.block { p with text := bytes "print " ++ p.text } with
  | .ok (.print _ e :: _) => .ok e
  | .ok _ => .ok .missing
  | .error d => .error d

end Session

end Treewalk
