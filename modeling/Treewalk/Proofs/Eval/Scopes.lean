/-
Frames as nested scopes.

A history is a list of things done to frames, starting with none: a new frame is made inside one that is there, or
inside none, and names are declared and assigned; what fails changes nothing (`Frames.after`). In every forest of frames
that comes of a history, the frame around another one was made before it, and a frame's chain is the walk from each
frame to the one around it (`Nested`). So a name means what the frame says itself, or else what it means in the frame
around it (`Nested.lookup?_eq`), however many frames share that one.

`Sees x g f` says that the walk up from `g` comes to `f` before any other frame that binds `x`. With it, an assignment
and a declaration can be seen from every frame at once (`lookup?_assign`, `Nested.lookup?_declare`), and all of it
together says that frames are nested scopes (`Frames.nested_scopes`).
-/
import Mathlib.Logic.Relation
import Treewalk.Proofs.Eval.Frames

namespace Treewalk

namespace Bindings

theorem map_fst_set (b : Bindings) (x : Bytes) (v : Value) : (b.set x v).map Prod.fst = b.map Prod.fst := by
  rw [set, List.map_map]
  apply List.map_congr_left
  intro p _
  simp only [Function.comp_apply]
  split <;> rfl

theorem notMem_of_lookup_eq_none {b : Bindings} {x : Bytes} (h : b.lookup x = none) : x ∉ b.map Prod.fst := by
  intro hmem
  obtain ⟨p, hp, rfl⟩ := List.mem_map.1 hmem
  simpa using List.lookup_eq_none_iff.1 h p hp

/-- names that are bound one after another differ -/
theorem nodup_declareAll {pairs : List (Bytes × Value)} {b b' : Bindings} (h : b.declareAll pairs = .ok b')
    (hb : (b.map Prod.fst).Nodup) : (b'.map Prod.fst).Nodup := by
  induction pairs generalizing b with
  | nil =>
    cases h
    exact hb
  | cons p pairs ih =>
    obtain ⟨x, v⟩ := p
    simp only [declareAll, declare?, has] at h
    cases hx : b.lookup x with
    | some u => simp [hx] at h
    | none =>
      simp only [hx, Option.isSome_none, Bool.false_eq_true, if_false] at h
      exact ih h (List.nodup_cons.2 ⟨notMem_of_lookup_eq_none hx, hb⟩)

end Bindings

namespace Frames

variable {fs fs' : Frames} {f g i j p : FrameId} {x y : Bytes} {v : Value}

/-! ## Histories -/

/-- what can be done to frames -/
inductive Op where
  | add (parent : Option FrameId) (pairs : List (Bytes × Value))
  | declare (frame : FrameId) (x : Bytes) (v : Value)
  | assign (frame : FrameId) (x : Bytes) (v : Value)

/-- the frames after an operation, unless it fails; a frame that it is about must be there -/
def perform? (fs : Frames) : Op → Option Frames
  | .add parent pairs =>
    match Bindings.ofList pairs with
    | .ok b => if parent.all (· < fs.size) then some (fs.add parent b).2 else none
    | .error _ => none
  | .declare i x v => if i < fs.size then fs.declare? i x v else none
  | .assign i x v => fs.assign? i x v

/-- the frames after an operation, which changes nothing if it fails -/
def next (fs : Frames) (op : Op) : Frames := (fs.perform? op).getD fs

/-- the frames after one operation and another -/
def after (fs : Frames) (ops : List Op) : Frames := ops.foldl next fs

/-- what an operation does if it succeeds -/
theorem next_cases (fs : Frames) (op : Op) : fs.next op = fs ∨
    (∃ parent b, (∀ p, parent = some p → p < fs.size) ∧ (b.map Prod.fst).Nodup ∧ fs.next op = (fs.add parent b).2) ∨
    (∃ i x v, i < fs.size ∧ fs.hasOwn i x = false ∧ fs.next op = fs.rebind i ((x, v) :: ·)) ∨
    ∃ i x v, fs.next op = fs.rebind i (·.set x v) := by
  cases op with
  | add parent pairs =>
    simp only [next, perform?]
    cases hb : Bindings.ofList pairs with
    | error x => exact .inl rfl
    | ok b =>
      by_cases hp : parent.all (· < fs.size)
      · refine .inr (.inl ⟨parent, b, ?_, Bindings.nodup_declareAll hb List.nodup_nil, by simp [hp]⟩)
        rintro p rfl
        simpa using hp
      · exact .inl (by simp [hp])
  | declare i x v =>
    simp only [next, perform?, declare?]
    by_cases hi : i < fs.size
    · cases hx : fs.hasOwn i x with
      | true => exact .inl (by simp [hi])
      | false => exact .inr (.inr (.inl ⟨i, x, v, hi, hx, by simp [hi]⟩))
    · exact .inl (by simp [hi])
  | assign i x v =>
    simp only [next, perform?, assign?]
    cases fs.owner? i x with
    | none => exact .inl rfl
    | some j => exact .inr (.inr (.inr ⟨j, x, v, rfl⟩))

/-! ## The walk up -/

/-- the frame around a frame -/
def parent? (fs : Frames) (i : FrameId) : Option FrameId := fs[i]?.bind (·.ancestors.head?)

/-- the second frame is the first one, or is around it -/
def Encloses (fs : Frames) : FrameId → FrameId → Prop := Relation.ReflTransGen fun i p => fs.parent? i = some p

/-- the walk up from the first frame comes to the second one before any other that binds the name -/
inductive Sees (fs : Frames) (x : Bytes) : FrameId → FrameId → Prop
  | here (i : FrameId) : Sees fs x i i
  | outer {i p j : FrameId} (hi : fs.hasOwn i x = false) (hp : fs.parent? i = some p) (h : Sees fs x p j) :
      Sees fs x i j

/-- the second frame is the nearest one that binds the name, seen from the first one -/
def Nearest (fs : Frames) (x : Bytes) (i j : FrameId) : Prop := fs.Sees x i j ∧ fs.hasOwn j x = true

/-- frames that were made one inside the other: the frame around one is older, chains are walks from each frame to the
one around it, and no frame binds a name twice -/
structure Nested (fs : Frames) : Prop where
  older : ∀ {i p}, fs.parent? i = some p → p < i
  chain : ∀ i < fs.size, fs.chain i = i :: (fs.parent? i).elim [] fs.chain
  nodup : ∀ {i : FrameId} {f : Frame}, fs[i]? = some f → (f.bindings.map Prod.fst).Nodup

theorem chain_of_size_le (h : fs.size ≤ i) : fs.chain i = [] := by
  rw [Frames.chain, Array.getElem?_eq_none h]

theorem lt_of_parent? (hp : fs.parent? i = some p) : i < fs.size := by
  rcases Nat.lt_or_ge i fs.size with hi | hi
  · exact hi
  · simp [parent?, hi] at hp

theorem parent?_rebind (fs : Frames) (i : FrameId) (change : Bindings → Bindings) (j : FrameId) :
    (fs.rebind i change).parent? j = fs.parent? j := by
  rw [parent?, parent?, getElem?_rebind]
  by_cases h : i = j
  · rw [if_pos h]
    cases fs[j]? <;> rfl
  · rw [if_neg h]

theorem parent?_push (fs : Frames) (f : Frame) (i : FrameId) :
    parent? (fs.push f) i = if i = fs.size then f.ancestors.head? else fs.parent? i := by
  rw [parent?, parent?, Array.getElem?_push]
  split <;> rfl

theorem add_eq (fs : Frames) (parent : Option FrameId) (b : Bindings) :
    (fs.add parent b).2 = fs.push ⟨parent.elim [] fs.chain, b, true⟩ := by
  cases parent <;> rfl

namespace Nested

theorem rebind (h : fs.Nested) {change : Bindings → Bindings}
    (hchange : ∀ f, fs[i]? = some f → ((change f.bindings).map Prod.fst).Nodup) : (fs.rebind i change).Nested := by
  refine ⟨?_, ?_, ?_⟩
  · intro j p hp
    rw [parent?_rebind] at hp
    exact h.older hp
  · intro j hj
    rw [size_rebind] at hj
    have hchain : (fs.rebind i change).chain = fs.chain := funext (chain_rebind fs i change)
    rw [hchain, parent?_rebind, h.chain j hj]
  · intro j f hf
    rw [getElem?_rebind] at hf
    by_cases hij : i = j
    · rw [if_pos hij, Option.map_eq_some_iff] at hf
      obtain ⟨f₀, hf₀, rfl⟩ := hf
      exact hchange f₀ (hij ▸ hf₀)
    · rw [if_neg hij] at hf
      exact h.nodup hf

/-- a new frame is around no other one -/
theorem add (h : fs.Nested) {parent : Option FrameId} (hparent : ∀ p, parent = some p → p < fs.size) {b : Bindings}
    (hb : (b.map Prod.fst).Nodup) : (fs.add parent b).2.Nested := by
  rw [add_eq]
  -- the new frame's chain starts with the frame that it was made in
  have hnew : (parent.elim [] fs.chain).head? = parent := by
    cases parent with
    | none => rfl
    | some p =>
      rw [Option.elim_some, h.chain p (hparent p rfl)]
      rfl
  have holder : ∀ {i p}, parent? (fs.push ⟨parent.elim [] fs.chain, b, true⟩) i = some p → p < i ∧ p < fs.size := by
    intro i p hp
    rw [parent?_push] at hp
    split at hp
    case isTrue hi =>
      have hlt := hparent p (hnew ▸ hp)
      exact ⟨hi ▸ hlt, hlt⟩
    case isFalse hi =>
      have hlt := h.older hp
      exact ⟨hlt, Nat.lt_trans hlt (lt_of_parent? hp)⟩
  refine ⟨fun hp => (holder hp).1, ?_, ?_⟩
  · intro i hi
    have hchain : ∀ q, parent? (fs.push ⟨parent.elim [] fs.chain, b, true⟩) i = q →
        q.elim [] (Frames.chain (fs.push ⟨parent.elim [] fs.chain, b, true⟩)) = q.elim [] fs.chain := by
      intro q hq
      cases q with
      | none => rfl
      | some p => rw [Option.elim_some, Option.elim_some, chain_push, if_neg (Nat.ne_of_lt (holder hq).2)]
    rw [hchain _ rfl, chain_push, parent?_push]
    split
    case isTrue => rw [hnew]
    case isFalse hne =>
      rw [Array.size_push] at hi
      exact h.chain i (Nat.lt_of_le_of_ne (Nat.le_of_lt_succ hi) hne)
  · intro i f hf
    rw [Array.getElem?_push] at hf
    split at hf
    · cases hf
      exact hb
    · exact h.nodup hf

/-- one operation keeps frames nested -/
theorem next (h : fs.Nested) (op : Op) : (fs.next op).Nested := by
  rcases fs.next_cases op with heq | ⟨parent, b, hparent, hb, heq⟩ | ⟨i, x, v, -, hx, heq⟩ | ⟨i, x, v, heq⟩
  · rwa [heq]
  · rw [heq]
    exact h.add hparent hb
  · rw [heq]
    refine h.rebind fun f hf => List.nodup_cons.2 ⟨?_, h.nodup hf⟩
    apply Bindings.notMem_of_lookup_eq_none
    simpa [hasOwn, own?, hf] using hx
  · rw [heq]
    refine h.rebind fun f hf => ?_
    rw [Bindings.map_fst_set]
    exact h.nodup hf

theorem after (h : fs.Nested) (ops : List Op) : (fs.after ops).Nested := by
  induction ops generalizing fs with
  | nil => exact h
  | cons op ops ih => exact ih (h.next op)

end Nested

/-- no frames are nested -/
theorem nested_empty : Nested #[] := ⟨by simp [parent?], by simp, by simp⟩

/-! ## What a name means -/

theorem lookup?_eq_owner? (fs : Frames) (i : FrameId) (x : Bytes) :
    fs.lookup? i x = (fs.owner? i x).bind (fs.own? x) := by
  rw [lookup?, owner?]
  induction fs.chain i with
  | nil => rfl
  | cons j js ih =>
    rw [List.findSome?_cons, List.find?_cons, hasOwn]
    cases hj : fs.own? x j with
    | none => exact ih
    | some v => exact hj.symm

theorem isSome_lookup? (fs : Frames) (i : FrameId) (x : Bytes) : (fs.lookup? i x).isSome = fs.has i x := by
  rw [lookup?_eq_owner?, has]
  cases hj : fs.owner? i x with
  | none => rfl
  | some j =>
    have hown : fs.hasOwn j x = true := List.find?_some (p := (fs.hasOwn · x)) hj
    exact hown

theorem isSome_assign? (fs : Frames) (i : FrameId) (x : Bytes) (v : Value) :
    (fs.assign? i x v).isSome = fs.has i x := by
  rw [assign?, Option.isSome_map, has]

namespace Nested

variable (h : fs.Nested)

include h

/-- the nearest frame that binds a name is the frame itself, or the nearest one around it -/
theorem owner?_eq (i : FrameId) (x : Bytes) :
    fs.owner? i x = if fs.hasOwn i x then some i else (fs.parent? i).bind (fs.owner? · x) := by
  rcases Nat.lt_or_ge i fs.size with hi | hi
  · rw [owner?, h.chain i hi, List.find?_cons]
    cases fs.hasOwn i x with
    | true => rfl
    | false =>
      cases fs.parent? i with
      | none => rfl
      | some p => rfl
  · simp [owner?, chain_of_size_le hi, hasOwn, own?, parent?, hi]

/-- a name means what the frame says itself, or what it means in the frame around it -/
theorem lookup?_eq (i : FrameId) (x : Bytes) :
    fs.lookup? i x = (fs.own? x i).or ((fs.parent? i).bind (fs.lookup? · x)) := by
  simp only [lookup?_eq_owner?]
  rw [h.owner?_eq, hasOwn]
  cases hi : fs.own? x i with
  | some v => exact hi
  | none => cases fs.parent? i <;> rfl

theorem owner?_eq_some_iff : fs.owner? i x = some j ↔ fs.Nearest x i j := by
  constructor
  · -- from frame to frame around it, and these get older
    intro hj
    induction i using Nat.strongRecOn with
    | _ i ih =>
      rw [h.owner?_eq] at hj
      cases hi : fs.hasOwn i x with
      | true =>
        rw [hi] at hj
        cases hj
        exact ⟨.here j, hi⟩
      | false =>
        rw [hi] at hj
        obtain ⟨p, hp, hj⟩ := Option.bind_eq_some_iff.1 hj
        obtain ⟨hsees, hown⟩ := ih p (h.older hp) hj
        exact ⟨.outer hi hp hsees, hown⟩
  · rintro ⟨hsees, hown⟩
    induction hsees with
    | here i => rw [h.owner?_eq, hown, if_pos rfl]
    | outer hi hp _ ih =>
      rw [h.owner?_eq, hi, hp]
      exact ih hown

theorem le_of_sees (hsees : fs.Sees x i j) : j ≤ i := by
  induction hsees with
  | here i => exact Nat.le_refl i
  | outer _ hp _ ih => exact Nat.le_trans ih (Nat.le_of_lt (h.older hp))

/-- a name has a meaning if the frame or one around it binds it -/
theorem has_iff : fs.has i x = true ↔ ∃ j, fs.Encloses i j ∧ fs.hasOwn j x = true := by
  rw [has, Option.isSome_iff_exists]
  constructor
  · rintro ⟨j, hj⟩
    obtain ⟨hsees, hown⟩ := h.owner?_eq_some_iff.1 hj
    refine ⟨j, ?_, hown⟩
    clear hj
    induction hsees with
    | here i => exact .refl
    | outer _ hp _ ih => exact .head hp (ih hown)
  · rintro ⟨j, hwalk, hown⟩
    induction hwalk using Relation.ReflTransGen.head_induction_on with
    | refl => exact ⟨j, by rw [h.owner?_eq, hown, if_pos rfl]⟩
    | @head i p hp _ ih =>
      obtain ⟨k, hk⟩ := ih
      rw [h.owner?_eq, hp]
      cases fs.hasOwn i x with
      | true => exact ⟨i, rfl⟩
      | false => exact ⟨k, hk⟩

end Nested

/-! ## Assignments -/

/-- an assignment changes no frame's names -/
theorem hasOwn_set (fs : Frames) (j : FrameId) (x : Bytes) (v : Value) (i : FrameId) (y : Bytes) :
    (fs.rebind j (·.set x v)).hasOwn i y = fs.hasOwn i y := by
  rw [hasOwn, hasOwn, own?_assign]
  split
  · rw [Option.isSome_map]
  · rfl

/-- an assignment from `f`, seen from `g`: the name gets its new value where its nearest binding is the one that `f` has
for it -/
theorem lookup?_assign (hassign : fs.assign? f x v = some fs') (g : FrameId) (y : Bytes) :
    fs'.lookup? g y = if y = x ∧ fs.owner? g x = fs.owner? f x then some v else fs.lookup? g y := by
  obtain ⟨j, hj, rfl⟩ := Option.map_eq_some_iff.1 hassign
  have howner : (fs.rebind j (·.set x v)).owner? g y = fs.owner? g y := by
    rw [owner?, owner?, chain_rebind]
    congr 1
    funext i
    exact hasOwn_set fs j x v i y
  rw [lookup?_eq_owner?, lookup?_eq_owner?, howner, hj]
  by_cases hy : y = x
  · subst hy
    cases hk : fs.owner? g y with
    | none => simp
    | some k =>
      have hown : fs.hasOwn k y = true := List.find?_some (p := (fs.hasOwn · y)) hk
      by_cases hkj : k = j
      · obtain ⟨u, hu⟩ := Option.isSome_iff_exists.1 hown
        simp [hkj, own?_assign, hkj ▸ hu]
      · simp [own?_assign, hkj, Ne.symm hkj]
  · cases fs.owner? g y with
    | none => simp [hy]
    | some k => simp [own?_assign, hy]

/-! ## Declarations -/

namespace Nested

/-- a declaration in `f`, seen from `g`: the name gets its new value where the walk up from `g` comes to `f` before it
finds the name -/
theorem lookup?_declare (h : fs.Nested) (hf : f < fs.size) (hdeclare : fs.declare? f x v = some fs') (g : FrameId)
    (y : Bytes) :
    (y = x ∧ fs.Sees x g f → fs'.lookup? g y = some v) ∧
      (¬ (y = x ∧ fs.Sees x g f) → fs'.lookup? g y = fs.lookup? g y) := by
  have hnext : fs.next (.declare f x v) = fs' := by simp [Frames.next, perform?, hf, hdeclare]
  have h' : fs'.Nested := hnext ▸ h.next _
  have hfree : fs.hasOwn f x = false := by
    cases hx : fs.hasOwn f x with
    | false => rfl
    | true => simp [declare?, hx] at hdeclare
  obtain rfl : fs.rebind f ((x, v) :: ·) = fs' := by simpa [declare?, hfree] using hdeclare
  constructor
  · rintro ⟨rfl, hsees⟩
    induction hsees with
    | here i => rw [h'.lookup?_eq, own?_declare, if_pos ⟨rfl, rfl, hf⟩, Option.some_or]
    | @outer i p f hi hp hsees ih =>
      -- the frames that have been passed are not the one of the declaration
      have hne : f ≠ i := by
        rintro rfl
        exact absurd (h.le_of_sees hsees) (Nat.not_le.2 (h.older hp))
      have hnone : fs.own? y i = none := by simpa [hasOwn] using hi
      rw [h'.lookup?_eq, own?_declare, if_neg (fun hc => hne hc.1), hnone, Option.none_or, parent?_rebind, hp]
      exact ih hf hfree hdeclare hnext h'
  · intro hnot
    induction g using Nat.strongRecOn with
    | _ g ih =>
      have hown : (fs.rebind f ((x, v) :: ·)).own? y g = fs.own? y g := by
        rw [own?_declare, if_neg]
        rintro ⟨rfl, rfl, -⟩
        exact hnot ⟨rfl, .here f⟩
      rw [h'.lookup?_eq, h.lookup?_eq, hown, parent?_rebind]
      cases hx : fs.own? y g with
      | some u => rfl
      | none =>
        cases hp : fs.parent? g with
        | none => rfl
        | some p =>
          refine ih p (h.older hp) fun hsees => hnot ⟨hsees.1, ?_⟩
          obtain ⟨rfl, hsees⟩ := hsees
          exact .outer (by simp [hasOwn, hx]) hp hsees

end Nested

/-! ## Names stay -/

/-- one operation takes no name from a frame -/
theorem hasOwn_next (op : Op) (hx : fs.hasOwn i x = true) : (fs.next op).hasOwn i x = true := by
  have hi : i ≠ fs.size := by
    rintro rfl
    simp [hasOwn, own?] at hx
  rcases fs.next_cases op with heq | ⟨parent, b, -, -, heq⟩ | ⟨k, y, v, -, -, heq⟩ | ⟨k, y, v, heq⟩
  · rwa [heq]
  · rw [heq, add_eq, hasOwn, own?_push, if_neg hi]
    exact hx
  · rw [heq, hasOwn, own?_declare]
    split
    · rfl
    · exact hx
  · rw [heq, hasOwn_set]
    exact hx

theorem hasOwn_after (ops : List Op) (hx : fs.hasOwn i x = true) : (fs.after ops).hasOwn i x = true := by
  induction ops generalizing fs with
  | nil => exact hx
  | cons op ops ih => exact ih (hasOwn_next op hx)

/-- **Frames are nested scopes.** A name is found and assigned in the nearest frame that binds it, going outward. An
assignment is seen by all frames that have the same nearest binding, a declaration by those that would come to its frame
first, and nothing else changes; what fails changes no frame, and no frame binds a name twice or loses one. -/
theorem nested_scopes (ops : List Op) (f : FrameId) (x : Bytes) (v : Value) :
    let fs := after #[] ops
    f < fs.size →
      ((fs.has f x = true ↔ ∃ j, fs.Encloses f j ∧ fs.hasOwn j x = true) ∧
        (fs.lookup? f x).isSome = fs.has f x ∧ (fs.assign? f x v).isSome = fs.has f x) ∧
      (∀ fs', fs.assign? f x v = some fs' → ∀ g y,
        (y = x ∧ (∃ j, fs.Nearest x f j ∧ fs.Nearest x g j) → fs'.lookup? g y = some v) ∧
          (¬ (y = x ∧ ∃ j, fs.Nearest x f j ∧ fs.Nearest x g j) → fs'.lookup? g y = fs.lookup? g y)) ∧
      (∀ fs', fs.declare? f x v = some fs' → ∀ g y,
        (y = x ∧ fs.Sees x g f → fs'.lookup? g y = some v) ∧
          (¬ (y = x ∧ fs.Sees x g f) → fs'.lookup? g y = fs.lookup? g y)) ∧
      (fs.declare? f x v = none → fs.next (.declare f x v) = fs) ∧
      (fs.assign? f x v = none → fs.next (.assign f x v) = fs) ∧
      (∀ (i : FrameId) (frame : Frame), fs[i]? = some frame → (frame.bindings.map Prod.fst).Nodup) ∧
      ∀ later i, fs.hasOwn i x = true → (fs.after later).hasOwn i x = true := by
  intro fs hf
  have h : fs.Nested := nested_empty.after ops
  refine ⟨⟨h.has_iff, isSome_lookup? fs f x, isSome_assign? fs f x v⟩, ?_, fun fs' => h.lookup?_declare hf, ?_, ?_,
    fun i frame => h.nodup, fun later i => hasOwn_after later⟩
  · intro fs' hassign g y
    obtain ⟨j, hj, -⟩ := Option.map_eq_some_iff.1 hassign
    -- both frames have the nearest binding of the name in one frame
    have hsame : fs.owner? g x = fs.owner? f x ↔ ∃ j, fs.Nearest x f j ∧ fs.Nearest x g j := by
      simp only [← h.owner?_eq_some_iff, hj, Option.some.injEq, exists_eq_left']
    rw [lookup?_assign hassign, ← hsame]
    exact ⟨fun hy => if_pos hy, fun hy => if_neg hy⟩
  · intro hfails
    simp [next, perform?, hf, hfails]
  · intro hfails
    simp [next, perform?, hfails]

/-- two frames inside one that binds `x`, and one more inside each; the third frame binds `x` again -/
def twoBranches : List Op :=
  [.add none [([120], .boolean false), ([121], .array 3)], .declare 0 [120] (.boolean true), .add (some 0) [],
    .add (some 0) [([120], .array 7)], .add (some 1) [], .add (some 2) [], .assign 4 [122] (.boolean true)]

theorem nested_scopes_twoBranches :
    let fs := after #[] twoBranches
    1 < fs.size ∧
      (∃ fs', fs.assign? 1 [120] (.boolean true) = some fs' ∧ fs'.lookup? 3 [120] = some (.boolean true) ∧
        fs'.lookup? 4 [120] = fs.lookup? 4 [120]) ∧
      ∃ fs', fs.declare? 1 [120] (.boolean true) = some fs' ∧ fs'.lookup? 3 [120] = some (.boolean true) ∧
        fs'.lookup? 0 [120] = fs.lookup? 0 [120] := by
  intro fs
  have hsize : 1 < fs.size := by decide
  have h : fs.Nested := nested_empty.after twoBranches
  obtain ⟨-, hassign, hdeclare, -⟩ := nested_scopes twoBranches 1 [120] (.boolean true) hsize
  refine ⟨hsize, ⟨_, rfl, ?_, ?_⟩, ⟨_, rfl, ?_, ?_⟩⟩
  · refine (hassign _ rfl 3 [120]).1 ⟨rfl, 0, ?_, ?_⟩ <;> exact h.owner?_eq_some_iff.1 (by decide)
  · refine (hassign _ rfl 4 [120]).2 ?_
    rintro ⟨-, j, hone, hfour⟩
    have hsame : fs.owner? 1 [120] = fs.owner? 4 [120] :=
      (h.owner?_eq_some_iff.2 hone).trans (h.owner?_eq_some_iff.2 hfour).symm
    exact absurd hsame (by decide)
  · exact (hdeclare _ rfl 3 [120]).1 ⟨rfl, .outer (by decide) (by decide : fs.parent? 3 = some 1) (.here 1)⟩
  · refine (hdeclare _ rfl 0 [120]).2 ?_
    rintro ⟨-, hsees⟩
    exact absurd (h.le_of_sees hsees) (by decide)

end Frames

end Treewalk
