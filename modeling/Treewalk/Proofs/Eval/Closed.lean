/-
No reference to an array leads nowhere.

In a closed world, the arrays that names are bound to and the arrays in arrays are there. This is a case of a property
that all values in a world have (`World.Every`). A closed world stays closed when it gets an array, and when a call
enters or leaves it; that evaluation keeps it closed is `Eval.safe_eval`.
-/
import Treewalk.Proofs.Eval.Steps

namespace Treewalk

/-- the value's array, if it is one, is among the first `n` -/
def Value.Below (n : Nat) : Value → Prop
  | .array id => id < n
  | .number _ | .boolean _ | .native _ | .closure _ | .noArray | .noFunction => True

instance (n : Nat) : DecidablePred (Value.Below n)
  | .array id => inferInstanceAs (Decidable (id < n))
  | .number _ | .boolean _ | .native _ | .closure _ | .noArray | .noFunction => isTrue trivial

theorem Value.Below.mono {m n : Nat} {v : Value} (h : v.Below m) (hmn : m ≤ n) : v.Below n := by
  cases v with
  | array id => exact Nat.lt_of_lt_of_le h hmn
  | _ => trivial

/-- all these values are among the first `n` arrays -/
abbrev Value.AllBelow (n : Nat) (vs : List Value) : Prop := ∀ v ∈ vs, v.Below n

/-- all arrays that names or arrays refer to are there -/
structure World.Closed (w : World) : Prop where
  frames : ∀ f ∈ w.frames, ∀ p ∈ f.bindings, p.2.Below w.heap.size
  heap : ∀ vs ∈ w.heap, Value.AllBelow w.heap.size vs

theorem Bindings.declareAll_eq {pairs : List (Bytes × Value)} {b b' : Bindings} (h : b.declareAll pairs = .ok b') :
    b' = pairs.reverse ++ b := by
  induction pairs generalizing b with
  | nil => exact (Except.ok.inj h).symm
  | cons p pairs ih =>
    obtain ⟨x, v⟩ := p
    simp only [declareAll, declare?] at h
    cases hx : b.has x with
    | true => simp [hx] at h
    | false =>
      rw [hx] at h
      rw [ih h, List.reverse_cons, List.append_assoc, List.singleton_append]

/-- the values that names are bound to and those in arrays satisfy `P` -/
structure World.Every (P : Value → Prop) (w : World) : Prop where
  frames : ∀ f ∈ w.frames, ∀ p ∈ f.bindings, P p.2
  heap : ∀ vs ∈ w.heap, ∀ v ∈ vs, P v

namespace World.Every

variable {P : Value → Prop} {w : World}

theorem lookup (h : w.Every P) {frame : FrameId} {x : Bytes} {v : Value} (hv : w.frames.lookup? frame x = some v) :
    P v := by
  obtain ⟨i, -, hi⟩ := List.exists_of_findSome?_eq_some hv
  obtain ⟨f, hf, hx⟩ := Option.bind_eq_some_iff.1 hi
  obtain ⟨l₁, l₂, hl, -⟩ := List.lookup_eq_some_iff.1 hx
  exact h.frames f (Array.mem_of_getElem? hf) (x, v) (by rw [hl]; simp)

theorem items (h : w.Every P) (id : ArrayId) : ∀ v ∈ w.heap.items id, P v := by
  rw [Heap.items]
  cases hid : w.heap[id]? with
  | none => exact fun v hv => absurd hv List.not_mem_nil
  | some vs => exact h.heap vs (Array.mem_of_getElem? hid)

theorem push (h : w.Every P) {vs : List Value} (hvs : ∀ v ∈ vs, P v) : Every P { w with heap := w.heap.push vs } := by
  refine ⟨h.frames, fun us hus => ?_⟩
  rcases Array.mem_push.1 hus with hus | rfl
  · exact h.heap us hus
  · exact hvs

theorem enter (h : w.Every P) (parent : FrameId) {b : Bindings} (hb : ∀ p ∈ b, P p.2) :
    (w.enter parent b).Every P := by
  refine ⟨fun f hf => ?_, h.heap⟩
  rcases Array.mem_push.1 hf with hf | rfl
  · exact h.frames f hf
  · exact hb

theorem leave (h : w.Every P) : w.leave.Every P := by
  refine ⟨fun f hf => h.frames f ?_, h.heap⟩
  rw [World.leave, ← Array.mem_toList_iff, Array.toList_pop] at hf
  exact Array.mem_toList_iff.1 ((List.dropLast_sublist _).subset hf)

theorem mono {Q : Value → Prop} (h : w.Every P) (hPQ : ∀ v, P v → Q v) : w.Every Q :=
  ⟨fun f hf p hp => hPQ _ (h.frames f hf p hp), fun vs hvs v hv => hPQ v (h.heap vs hvs v hv)⟩

end World.Every

namespace World.Closed

variable {w : World}

theorem every (h : w.Closed) : w.Every (Value.Below w.heap.size) := ⟨h.frames, h.heap⟩

theorem of_every (h : w.Every (Value.Below w.heap.size)) : w.Closed := ⟨h.frames, h.heap⟩

theorem below_lookup (h : w.Closed) {frame : FrameId} {x : Bytes} {v : Value}
    (hv : w.frames.lookup? frame x = some v) : v.Below w.heap.size := h.every.lookup hv

theorem allBelow_items (h : w.Closed) (id : ArrayId) : Value.AllBelow w.heap.size (w.heap.items id) := h.every.items id

theorem push (h : w.Closed) {vs : List Value} (hvs : Value.AllBelow w.heap.size vs) :
    Closed { w with heap := w.heap.push vs } := by
  have hsize : w.heap.size ≤ (w.heap.push vs).size := by
    rw [Array.size_push]
    exact Nat.le_succ _
  exact .of_every ((h.every.push hvs).mono fun v hv => hv.mono hsize)

theorem enter (h : w.Closed) (parent : FrameId) {b : Bindings} (hb : ∀ p ∈ b, p.2.Below w.heap.size) :
    (w.enter parent b).Closed := .of_every (h.every.enter parent hb)

theorem leave (h : w.Closed) : w.leave.Closed := .of_every h.every.leave

end World.Closed

end Treewalk
