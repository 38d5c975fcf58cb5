/-
What a change of frames does to the names in them.

A frame shows itself in three ways: its chain, whether it is live, and the value that it gives a name itself. For each
change of frames the lemmas say what becomes of the three; later proofs use these and do not look into frames.
-/
import Treewalk.Eval.Statement

namespace Treewalk

namespace Bindings

theorem lookup_cons_of_ne {x y : Bytes} (h : y ≠ x) (v : Value) (b : Bindings) :
    List.lookup y ((x, v) :: b) = b.lookup y := by
  rw [List.lookup_cons, beq_eq_false_iff_ne.2 h]

theorem mem_of_lookup {b : Bindings} {x : Bytes} {v : Value} (h : b.lookup x = some v) : (x, v) ∈ b := by
  obtain ⟨before, after, hsplit, -⟩ := List.lookup_eq_some_iff.1 h
  rw [hsplit]
  exact List.mem_append_right _ List.mem_cons_self

/-- names that differ can all be bound -/
theorem exists_declareAll {ps : List Bytes} (hdiffer : ps.Nodup) (vs : List Value) {b : Bindings}
    (hnew : ∀ x ∈ ps, b.lookup x = none) : ∃ b', b.declareAll (ps.zip vs) = .ok b' := by
  induction ps generalizing vs b with
  | nil => exact ⟨b, rfl⟩
  | cons x ps ih =>
    cases vs with
    | nil => exact ⟨b, rfl⟩
    | cons v vs =>
      rw [List.nodup_cons] at hdiffer
      have hx : b.lookup x = none := hnew x List.mem_cons_self
      have htail : ∀ y ∈ ps, List.lookup y ((x, v) :: b) = none := by
        intro y hy
        have hne : y ≠ x := fun e => hdiffer.1 (e ▸ hy)
        rw [lookup_cons_of_ne hne]
        exact hnew y (List.mem_cons_of_mem _ hy)
      obtain ⟨b', hb'⟩ := ih hdiffer.2 vs htail
      exact ⟨b', by simp [declareAll, declare?, has, hx, hb']⟩

theorem lookup_set (b : Bindings) (x y : Bytes) (v : Value) :
    (b.set x v).lookup y = if y = x then (b.lookup y).map fun _ => v else b.lookup y := by
  induction b with
  | nil => simp [set]
  | cons p b ih =>
    obtain ⟨z, u⟩ := p
    have hset : set ((z, u) :: b) x v = (if z = x then (z, v) else (z, u)) :: Bindings.set b x v := rfl
    have hkey : (if z = x then (z, v) else (z, u)) = (z, if z = x then v else u) := by split <;> rfl
    rw [hset, hkey]
    by_cases hy : y = z
    · subst hy
      by_cases hx : y = x <;> simp [hx]
    · rw [lookup_cons_of_ne hy, lookup_cons_of_ne hy, ih]

end Bindings

namespace Frames

variable (fs : Frames)

/-! ## One more frame -/

theorem chain_push (f : Frame) (i : FrameId) :
    chain (fs.push f) i = if i = fs.size then i :: f.ancestors else fs.chain i := by
  rw [chain, chain, Array.getElem?_push]
  by_cases h : i = fs.size
  · rw [if_pos h, if_pos h]
  · rw [if_neg h, if_neg h]

theorem own?_push (f : Frame) (x : Bytes) (i : FrameId) :
    own? (fs.push f) x i = if i = fs.size then f.bindings.lookup x else fs.own? x i := by
  rw [own?, own?, Array.getElem?_push]
  split <;> rfl

theorem ne_size_of_isLive {fs : Frames} {i : FrameId} (h : fs.isLive i = true) : i ≠ fs.size := by
  rintro rfl
  simp [isLive] at h

theorem isLive_push {i : FrameId} (h : fs.isLive i = true) (f : Frame) : isLive (fs.push f) i = true := by
  rw [isLive, Array.getElem?_push, if_neg (ne_size_of_isLive h)]
  exact h

theorem isLive_push_eq (f : Frame) (i : FrameId) :
    isLive (fs.push f) i = if i = fs.size then f.live else fs.isLive i := by
  rw [isLive, isLive, Array.getElem?_push]
  split <;> rfl

/-- the new frame gives a name the value that it binds it to, or the one that the name has around it -/
theorem lookup?_push (f : Frame) (hold : fs.size ∉ f.ancestors) (x : Bytes) :
    lookup? (fs.push f) fs.size x = (f.bindings.lookup x).or (f.ancestors.findSome? (fs.own? x)) := by
  have hmap : f.ancestors.map (own? (fs.push f) x) = f.ancestors.map (fs.own? x) := by
    apply List.map_congr_left
    intro i hi
    have hne : i ≠ fs.size := by
      rintro rfl
      exact hold hi
    rw [own?_push, if_neg hne]
  have htail := congrArg (List.findSome? id) hmap
  rw [List.findSome?_map, List.findSome?_map, Function.id_comp, Function.id_comp] at htail
  rw [lookup?, chain_push, if_pos rfl, List.findSome?_cons, own?_push, if_pos rfl, htail]
  cases f.bindings.lookup x <;> rfl

/-! ## One frame less -/

theorem chain_pop (i : FrameId) : chain fs.pop i = if i < fs.size - 1 then fs.chain i else [] := by
  rw [chain, chain, Array.getElem?_pop]
  by_cases h : i < fs.size - 1
  · rw [if_pos h, if_pos h]
  · rw [if_neg h, if_neg h]

theorem own?_pop (x : Bytes) (i : FrameId) : own? fs.pop x i = if i < fs.size - 1 then fs.own? x i else none := by
  rw [own?, own?, Array.getElem?_pop]
  split <;> rfl

theorem isLive_pop (i : FrameId) : isLive fs.pop i = if i < fs.size - 1 then fs.isLive i else false := by
  rw [isLive, isLive, Array.getElem?_pop]
  split <;> rfl

/-! ## A frame that is in no other one -/

section Outermost

variable {fs} {i : FrameId} (h : fs.chain i = [i])

include h

theorem lookup?_of_chain (x : Bytes) : fs.lookup? i x = fs.own? x i := by
  rw [lookup?, h, List.findSome?_cons]
  cases fs.own? x i <;> rfl

theorem owner?_of_chain (x : Bytes) : fs.owner? i x = if fs.hasOwn i x then some i else none := by
  rw [owner?, h, List.find?_cons]
  cases fs.hasOwn i x <;> rfl

end Outermost

/-! ## Other bindings in a frame -/

variable (i : FrameId) (change : Bindings → Bindings)

@[simp] theorem size_rebind : (fs.rebind i change).size = fs.size := Array.size_modify

theorem getElem?_rebind (j : FrameId) : (fs.rebind i change)[j]? =
    if i = j then fs[j]?.map (fun f => { f with bindings := change f.bindings }) else fs[j]? := by
  rw [rebind, Array.getElem?_modify]

@[simp] theorem chain_rebind (j : FrameId) : (fs.rebind i change).chain j = fs.chain j := by
  rw [chain, chain, getElem?_rebind]
  by_cases h : i = j
  · rw [if_pos h]
    cases fs[j]? <;> rfl
  · rw [if_neg h]

@[simp] theorem isLive_rebind (j : FrameId) : (fs.rebind i change).isLive j = fs.isLive j := by
  rw [isLive, isLive, getElem?_rebind]
  by_cases h : i = j
  · rw [if_pos h]
    cases fs[j]? <;> rfl
  · rw [if_neg h]

/-- declaring a name -/
theorem own?_declare (x y : Bytes) (v : Value) (j : FrameId) : (fs.rebind i ((x, v) :: ·)).own? y j =
    if i = j ∧ y = x ∧ j < fs.size then some v else fs.own? y j := by
  rw [own?, own?, getElem?_rebind]
  by_cases hij : i = j
  · subst hij
    rcases Nat.lt_or_ge i fs.size with hi | hi
    · by_cases hy : y = x
      · simp [hi, hy]
      · simp [hi, hy, Bindings.lookup_cons_of_ne]
    · simp [Nat.not_lt.2 hi]
  · simp [hij]

/-- giving a bound name another value -/
theorem own?_assign (x y : Bytes) (v : Value) (j : FrameId) : (fs.rebind i (·.set x v)).own? y j =
    if i = j ∧ y = x then (fs.own? y j).map fun _ => v else fs.own? y j := by
  rw [own?, own?, getElem?_rebind]
  by_cases hij : i = j
  · subst hij
    cases fs[i]? with
    | none => simp
    | some f => simp [Bindings.lookup_set]
  · simp [hij]

/-- declared names get the values that they are given -/
theorem own?_declareAll {pairs : List (Bytes × Value)} {fs : Frames} {i j : FrameId} {y : Bytes} {v : Value}
    (h : (fs.declareAll i pairs).1.own? y j = some v) : fs.own? y j = some v ∨ ∃ x, (x, v) ∈ pairs := by
  induction pairs generalizing fs with
  | nil => exact .inl h
  | cons p pairs ih =>
    obtain ⟨x, u⟩ := p
    rw [declareAll, declare?] at h
    by_cases hx : fs.hasOwn i x
    · simp only [hx, if_true] at h
      exact .inl h
    · simp only [hx] at h
      rcases ih h with h | ⟨z, hz⟩
      · rw [own?_declare] at h
        split at h
        · cases h
          exact .inr ⟨x, List.mem_cons_self⟩
        · exact .inl h
      · exact .inr ⟨z, List.mem_cons_of_mem _ hz⟩

end Frames

/-! ## What a statement does to the frames of a world -/

theorem World.eq_of_declare {w w' : World} {frame : FrameId} {t : Token} {x : Bytes} {v : Value}
    (h : w.declare frame t x v = .ok w') :
    w.frames.hasOwn frame x = false ∧ w' = { w with frames := w.frames.rebind frame ((x, v) :: ·) } := by
  rw [declare, Frames.declare?] at h
  cases hx : w.frames.hasOwn frame x with
  | true =>
    simp only [hx] at h
    cases h
  | false =>
    simp only [hx] at h
    cases h
    exact ⟨rfl, rfl⟩

theorem World.eq_of_assign {w w' : World} {frame : FrameId} {t : Token} {x : Bytes} {v : Value}
    (h : w.assign frame t x v = .ok w') :
    ∃ i, w.frames.owner? frame x = some i ∧ w' = { w with frames := w.frames.rebind i (·.set x v) } := by
  rw [assign, Frames.assign?] at h
  cases hx : w.frames.owner? frame x with
  | none =>
    simp only [hx] at h
    cases h
  | some i =>
    simp only [hx] at h
    cases h
    exact ⟨i, rfl, rfl⟩

end Treewalk
