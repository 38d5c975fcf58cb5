/-
Worlds that are the same up to the names of their arrays.

A value refers to an array by its place, so where other arrays were made before, the same array has another name.
`Value.rename` puts one name for another, in values, bindings and frames; looking a name up, making bindings and asking
for a live frame go through it. `World.Renamed` says that one world is another one so renamed, perhaps with more arrays,
and that arrays made next get names that fit. Such worlds stay so when both get an array, enter a call or leave it.
-/
import Treewalk.Proofs.Eval.Closed

namespace Treewalk

/-! ## Renaming arrays -/

section Renaming

variable (ρ : ArrayId → ArrayId)

/-- the value with its array renamed -/
def Value.rename : Value → Value
  | .number x => .number x
  | .boolean b => .boolean b
  | .array id => .array (ρ id)
  | .native f => .native f
  | .closure f => .closure f
  | .noArray => .noArray
  | .noFunction => .noFunction

@[simp] theorem Value.typeName_rename (v : Value) : (v.rename ρ).typeName = v.typeName := by
  cases v <;> rfl

@[simp] theorem Value.isFunction_rename (v : Value) : (v.rename ρ).isFunction = v.isFunction := by
  cases v <;> rfl

def Bindings.rename (b : Bindings) : Bindings := b.map fun (x, v) => (x, v.rename ρ)

theorem Bindings.lookup_rename (b : Bindings) (x : Bytes) :
    (b.rename ρ).lookup x = (b.lookup x).map (Value.rename ρ) := by
  induction b with
  | nil => rfl
  | cons p b ih =>
    obtain ⟨y, v⟩ := p
    have htail : (rename ρ b).lookup x = (b.lookup x).map (Value.rename ρ) := ih
    rw [show rename ρ ((y, v) :: b) = (y, v.rename ρ) :: rename ρ b from rfl, List.lookup_cons, List.lookup_cons, htail]
    cases x == y <;> rfl

theorem Bindings.declareAll_rename (pairs : List (Bytes × Value)) (b : Bindings) :
    Bindings.declareAll (b.rename ρ) (pairs.map fun (x, v) => (x, v.rename ρ)) =
      (b.declareAll pairs).map (Bindings.rename ρ) := by
  induction pairs generalizing b with
  | nil => rfl
  | cons p pairs ih =>
    obtain ⟨x, v⟩ := p
    have hhas : (b.rename ρ).has x = b.has x := by simp [has, lookup_rename]
    simp only [List.map_cons, declareAll, declare?, hhas]
    cases b.has x with
    | true => rfl
    | false => exact ih ((x, v) :: b)

theorem Bindings.ofList_rename (ps : List Bytes) (vs : List Value) :
    Bindings.ofList (ps.zip (vs.map (Value.rename ρ))) = (Bindings.ofList (ps.zip vs)).map (Bindings.rename ρ) := by
  have hzip : ps.zip (vs.map (Value.rename ρ)) = (ps.zip vs).map fun (x, v) => (x, v.rename ρ) := by
    rw [List.zip_map_right]
    rfl
  rw [ofList, hzip]
  exact declareAll_rename ρ _ []

def Frame.rename (f : Frame) : Frame := { f with bindings := f.bindings.rename ρ }

def Frames.rename (fs : Frames) : Frames := fs.map (Frame.rename ρ)

variable (fs : Frames) (i : FrameId)

theorem Frames.chain_rename : (fs.rename ρ).chain i = fs.chain i := by
  simp only [chain, rename, Array.getElem?_map]
  cases fs[i]? <;> rfl

theorem Frames.own?_rename (x : Bytes) : (fs.rename ρ).own? x i = (fs.own? x i).map (Value.rename ρ) := by
  simp only [own?, rename, Array.getElem?_map]
  cases fs[i]? with
  | none => rfl
  | some f => exact Bindings.lookup_rename ρ f.bindings x

theorem Frames.lookup?_rename (x : Bytes) : (fs.rename ρ).lookup? i x = (fs.lookup? i x).map (Value.rename ρ) := by
  rw [lookup?, chain_rename, lookup?]
  induction fs.chain i with
  | nil => rfl
  | cons j js ih =>
    rw [List.findSome?_cons, List.findSome?_cons, own?_rename]
    cases fs.own? x j with
    | none => exact ih
    | some v => rfl

theorem Frames.isLive_rename : (fs.rename ρ).isLive i = fs.isLive i := by
  simp only [isLive, rename, Array.getElem?_map]
  cases fs[i]? <;> rfl

end Renaming

theorem Value.rename_id : Value.rename id = id := by
  funext v
  cases v <;> rfl

theorem Bindings.rename_id (b : Bindings) : b.rename id = b := by
  simp only [rename, Value.rename_id, id]
  exact List.map_id b

theorem Frames.rename_eq_self {ρ : ArrayId → ArrayId} {fs : Frames}
    (h : ∀ f ∈ fs, ∀ p ∈ f.bindings, p.2.rename ρ = p.2) : fs.rename ρ = fs := by
  have hframe : ∀ f ∈ fs, f.rename ρ = f := by
    intro f hf
    have hpair : ∀ p ∈ f.bindings, (p.1, p.2.rename ρ) = p := fun p hp => by rw [h f hf p hp]
    rw [Frame.rename, Bindings.rename, List.map_congr_left hpair, List.map_id']
  rw [rename, Array.map_congr_left hframe, Array.map_id']

theorem Value.rename_eq_self {ρ : ArrayId → ArrayId} {n : Nat} (hρ : ∀ id < n, ρ id = id) {v : Value} (h : v.Below n) :
    v.rename ρ = v := by
  cases v with
  | array id => exact congrArg Value.array (hρ id h)
  | _ => rfl

/-! ## Worlds side by side -/

namespace World

/-- the second world has the frames and the arrays of the first one, with the arrays renamed and perhaps others among
them; arrays that are new to both get names that fit -/
structure Renamed (ρ : ArrayId → ArrayId) (w w' : World) : Prop where
  frames : w'.frames = w.frames.rename ρ
  items : ∀ id, w'.heap.items (ρ id) = (w.heap.items id).map (Value.rename ρ)
  old : ∀ id < w.heap.size, ρ id < w'.heap.size
  fresh : ∀ i : Nat, ρ (w.heap.size + i) = w'.heap.size + i

variable {ρ : ArrayId → ArrayId} {w w' : World}

theorem Renamed.size (h : Renamed ρ w w') : ρ w.heap.size = w'.heap.size := h.fresh 0

/-- worlds side by side stay so when both get an array -/
theorem Renamed.push (h : Renamed ρ w w') (vs : List Value) :
    Renamed ρ { w with heap := w.heap.push vs } { w' with heap := w'.heap.push (vs.map (Value.rename ρ)) } := by
  refine ⟨h.frames, fun id => ?_, fun id hid => ?_, fun i => ?_⟩
  · have hne : ρ id = w'.heap.size ↔ id = w.heap.size := by
      rcases Nat.lt_or_ge id w.heap.size with hid | hid
      · exact ⟨fun e => absurd e (Nat.ne_of_lt (h.old id hid)), fun e => absurd e (Nat.ne_of_lt hid)⟩
      · obtain ⟨i, rfl⟩ := Nat.exists_eq_add_of_le hid
        rw [h.fresh, Nat.add_eq_left, Nat.add_eq_left]
    simp only [Heap.items_push, hne]
    split
    · rfl
    · exact h.items id
  · simp only [Array.size_push] at hid ⊢
    rcases Nat.lt_succ_iff_lt_or_eq.1 hid with hid | rfl
    · exact Nat.lt_succ_of_lt (h.old id hid)
    · rw [h.size]
      exact Nat.lt_succ_self _
  · simp only [Array.size_push]
    have := h.fresh (1 + i)
    rw [Nat.add_assoc, this, Nat.add_assoc]

theorem Renamed.enter (h : Renamed ρ w w') (parent : FrameId) (b : Bindings) :
    Renamed ρ (w.enter parent b) (w'.enter parent (b.rename ρ)) := by
  refine ⟨?_, h.items, h.old, h.fresh⟩
  simp only [World.enter, h.frames, Frames.chain_rename]
  simp only [Frames.rename, Array.map_push]
  rfl

theorem Renamed.leave (h : Renamed ρ w w') : Renamed ρ w.leave w'.leave := by
  refine ⟨?_, h.items, h.old, h.fresh⟩
  simp only [World.leave, h.frames, Frames.rename, Array.map_pop]

/-- a world stands side by side with itself -/
theorem renamed_id (w : World) : Renamed id w w := by
  refine ⟨(Frames.rename_eq_self fun _ _ p _ => congrFun Value.rename_id p.2).symm, fun i => ?_, fun _ h => h,
    fun _ => rfl⟩
  rw [Value.rename_id, List.map_id, id]

end World

end Treewalk
