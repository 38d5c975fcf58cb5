/-
Frames: names bound to values, in nested scopes.

A frame knows its ancestors, nearest first, from the moment it is made; the frame and its ancestors are its chain. A
name means what the nearest frame of the chain that binds it says. Declaring binds a name in one frame, once; assigning
changes the nearest binding. A frame that nobody holds any longer is not live, and stays so.
-/
import Treewalk.Eval.Value

namespace Treewalk

/-- names with their values; no name stands twice -/
abbrev Bindings := List (Bytes × Value)

namespace Bindings

def has (b : Bindings) (x : Bytes) : Bool := (b.lookup x).isSome

/-- binds a name that is not bound yet -/
def declare? (b : Bindings) (x : Bytes) (v : Value) : Option Bindings :=
  if b.has x then none else some ((x, v) :: b)

/-- gives a bound name another value -/
def set (b : Bindings) (x : Bytes) (v : Value) : Bindings :=
  b.map fun (y, w) => if y = x then (y, v) else (y, w)

/-- binds the names one after another; fails with the first that is bound already -/
def declareAll (b : Bindings) : List (Bytes × Value) → Except Bytes Bindings
  | [] => .ok b
  | (x, v) :: rest =>
    match b.declare? x v with
    | some b => b.declareAll rest
    | none => .error x

/-- the bindings of a fresh frame -/
def ofList (pairs : List (Bytes × Value)) : Except Bytes Bindings := declareAll [] pairs

end Bindings

structure Frame where
  /-- the frames around this one, nearest first -/
  ancestors : List FrameId
  bindings : Bindings
  live : Bool

/-- frames by id -/
abbrev Frames := Array Frame

namespace Frames

/-- a frame and its ancestors, nearest first -/
def chain (fs : Frames) (i : FrameId) : List FrameId :=
  match fs[i]? with
  | some f => i :: f.ancestors
  | none => []

/-- the value that a frame itself gives a name -/
def own? (fs : Frames) (x : Bytes) (i : FrameId) : Option Value := fs[i]?.bind (·.bindings.lookup x)

def hasOwn (fs : Frames) (i : FrameId) (x : Bytes) : Bool := (fs.own? x i).isSome

/-- the nearest frame of a chain that binds a name -/
def owner? (fs : Frames) (i : FrameId) (x : Bytes) : Option FrameId := (fs.chain i).find? (fs.hasOwn · x)

def has (fs : Frames) (i : FrameId) (x : Bytes) : Bool := (fs.owner? i x).isSome

/-- the value of a name in a frame -/
def lookup? (fs : Frames) (i : FrameId) (x : Bytes) : Option Value := (fs.chain i).findSome? (fs.own? x)

def isLive (fs : Frames) (i : FrameId) : Bool := (fs[i]?.map (·.live)).getD false

/-- changes the bindings of one frame -/
def rebind (fs : Frames) (i : FrameId) (change : Bindings → Bindings) : Frames :=
  fs.modify i fun f => { f with bindings := change f.bindings }

/-- binds a name in a frame that does not bind it yet -/
def declare? (fs : Frames) (i : FrameId) (x : Bytes) (v : Value) : Option Frames :=
  if fs.hasOwn i x then none else some (fs.rebind i ((x, v) :: ·))

/-- gives a new value to the nearest binding of a name -/
def assign? (fs : Frames) (i : FrameId) (x : Bytes) (v : Value) : Option Frames :=
  (fs.owner? i x).map fun j => fs.rebind j (·.set x v)

/-- binds names one after another, up to the first that the frame binds already; that one is given back -/
def declareAll (fs : Frames) (i : FrameId) : List (Bytes × Value) → Frames × Option Bytes
  | [] => (fs, none)
  | (x, v) :: rest =>
    match fs.declare? i x v with
    | some fs => fs.declareAll i rest
    | none => (fs, some x)

/-- a new frame inside another one, or inside none -/
def add (fs : Frames) (parent : Option FrameId) (bindings : Bindings) : FrameId × Frames :=
  let ancestors := match parent with
    | some i => fs.chain i
    | none => []
  (fs.size, fs.push ⟨ancestors, bindings, true⟩)

/-- a new frame for names and values. A name that stands twice is a redeclaration at the given place, and then no frame
is made. -/
def child (fs : Frames) (parent : Option FrameId) (pairs : List (Bytes × Value)) (l : Location) :
    Except Diagnostic (FrameId × Frames) :=
  match Bindings.ofList pairs with
  | .error x => .error ⟨.alreadyDeclared x, l⟩
  | .ok bindings => .ok (fs.add parent bindings)

/-- only the frames on the chains of those held stay live -/
def keep (fs : Frames) (held : List FrameId) : Frames :=
  let reachable := held.flatMap fs.chain
  fs.mapIdx fun i f => { f with live := f.live && reachable.contains i }

end Frames

/-- names that every program starts with -/
def builtins : List (Bytes × Value) :=
  let native (name : String) (arity : Nat) (op : NativeOp) : Bytes × Value :=
    (bytes name, .native ⟨bytes name, arity, op⟩)
  [native "sin" 1 .sin, native "cos" 1 .cos, native "hypot" 2 .hypot, native "sqrt" 1 .sqrt, native "exp" 1 .exp,
    native "ln" 1 .ln, (bytes "π", .number (.ofBits 0x400921fb54442d18))]

end Treewalk
