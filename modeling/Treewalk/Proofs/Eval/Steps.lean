/-
What each step of evaluation does to a world.

Later proofs take steps apart with these equations and do not look inside the steps.
-/
import Treewalk.Eval.Expression

namespace Treewalk

namespace World

/-- the world in which a call works -/
def enter (w : World) (parent : FrameId) (bindings : Bindings) : World :=
  { w with frames := w.frames.push ⟨w.frames.chain parent, bindings, true⟩ }

/-- the world after a call -/
def leave (w : World) : World := { w with frames := w.frames.pop }

end World

namespace Heap

theorem items_push (h : Heap) (vs : List Value) (id : ArrayId) :
    items (h.push vs) id = if id = h.size then vs else h.items id := by
  rw [items, Array.getElem?_push]
  split
  · rfl
  · rfl

theorem items_of_size_le {h : Heap} {id : ArrayId} (hid : h.size ≤ id) : h.items id = [] := by
  rw [items, Array.getElem?_eq_none hid]
  rfl

end Heap

namespace Eval

variable {α β : Type} (w : World) (t : Token)

@[simp] theorem runIn_pure (a : α) : (pure a : Eval α).runIn w = (.ok a, w) := rfl

@[simp] theorem runIn_fail (c : Cause) : (fail t c : Eval α).runIn w = (.error ⟨c, t.location⟩, w) := rfl

theorem runIn_get_bind (k : World → Eval β) : (get >>= k).runIn w = (k w).runIn w := rfl

section Bind

variable {w} {x : Eval α} {w' : World}

/-- a step after one that gives a value -/
theorem runIn_bind_ok {a : α} (h : x.runIn w = (.ok a, w')) (k : α → Eval β) :
    (x >>= k).runIn w = (k a).runIn w' := by
  unfold runIn at *
  rw [ExceptT.run_bind, StateT.run_bind, h]
  rfl

/-- the failure of a step is that of all that was to follow -/
theorem runIn_bind_error {d : Diagnostic} (h : x.runIn w = (.error d, w')) (k : α → Eval β) :
    (x >>= k).runIn w = (.error d, w') := by
  unfold runIn at *
  rw [ExceptT.run_bind, StateT.run_bind, h]
  rfl

end Bind

theorem runIn_lookup (frame : FrameId) (x : Bytes) : (lookup t frame x).runIn w =
    ((w.frames.lookup? frame x).elim (.error ⟨.undefinedVariable x, t.location⟩) .ok, w) := by
  rw [lookup, runIn_get_bind]
  cases w.frames.lookup? frame x <;> rfl

@[simp] theorem runIn_items (id : ArrayId) : (items id).runIn w = (.ok (w.heap.items id), w) := rfl

@[simp] theorem runIn_array (vs : List Value) :
    (array vs).runIn w = (.ok (.array w.heap.size), { w with heap := w.heap.push vs }) := rfl

theorem runIn_scope (f : Closure) : (scope t f).runIn w =
    ((f.frame.filter w.frames.isLive).elim (.error ⟨.scopeGone f.name f.token.location, t.location⟩) .ok, w) := by
  rw [scope, runIn_get_bind]
  cases f.frame.filter w.frames.isLive <;> rfl

section Frame

variable {pairs : List (Bytes × Value)}

/-- names that differ are bound in the new frame -/
theorem runIn_withFrame_of_ok {b : Bindings} (hb : Bindings.ofList pairs = .ok b) (parent : FrameId)
    (body : FrameId → Eval α) : (withFrame t parent pairs body).runIn w =
      (((body w.frames.size).runIn (w.enter parent b)).1, ((body w.frames.size).runIn (w.enter parent b)).2.leave) := by
  show withFrame t parent pairs body w = _
  simp only [withFrame, Frames.child, hb]
  rfl

theorem runIn_withFrame_of_error {x : Bytes} (hb : Bindings.ofList pairs = .error x) (parent : FrameId)
    (body : FrameId → Eval α) :
    (withFrame t parent pairs body).runIn w = (.error ⟨.alreadyDeclared x, t.location⟩, w) := by
  show withFrame t parent pairs body w = _
  simp only [withFrame, Frames.child, hb]

end Frame

theorem index_eq_cast {m n : Nat} (h : m = n) (x : Number) : x.index m = (x.index n).map (Fin.cast h.symm) := by
  subst h
  cases x.index m <;> rfl

end Eval

end Treewalk
