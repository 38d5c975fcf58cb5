/-
What a call makes of its arguments.

A frame for names and values (`Frames.child`) can be made exactly if the names differ. It then binds these names and no
others; they mean their values in it, every other name means what it means around the frame, and all other frames stay
as they are (`Frames.Nested.means_child`). Else making it fails as a redeclaration, and there is no frame more. A host
that opens such a frame holds it from then on, and sees it as it was made (`Session.openFrameWith_of_ok`).

A call evaluates the closure's body in such a frame, inside the frame that the closure was declared in. To an expression
it does not matter how a name comes to mean what it means: two worlds that give all names the same meaning in all frames
are the same to it (`World.Alike`), and calls keep worlds alike. So a closure of a live frame, with parameters that
differ, as many arguments and calls left, answers as its body does in any new frame where the parameters mean the
arguments and all other names what they mean in the closure's frame, and only arrays are added to the world. The frame
that the call stands in is not asked. If the parameters do not differ, the call fails and changes nothing
(`World.calls_bind_parameters`).
-/
import Treewalk.Proofs.Eval.Scopes
import Treewalk.Proofs.Eval.Tracking
import Treewalk.Session

namespace Treewalk

namespace Bindings

variable {pairs : List (Bytes × Value)} {b : Bindings} {x : Bytes} {v : Value}

theorem lookup_of_mem (hdiffer : (b.map Prod.fst).Nodup) (h : (x, v) ∈ b) : b.lookup x = some v := by
  induction b with
  | nil => cases h
  | cons p b ih =>
    obtain ⟨y, u⟩ := p
    rw [List.map_cons, List.nodup_cons] at hdiffer
    rcases List.mem_cons.1 h with heq | h
    · cases heq
      rw [List.lookup_cons_self]
    · have hx : x ∈ b.map Prod.fst := List.mem_map_of_mem (f := Prod.fst) h
      have hne : x ≠ y := fun heq => hdiffer.1 (heq ▸ hx)
      rw [lookup_cons_of_ne hne, ih hdiffer.2 h]

theorem isSome_lookup_iff : (b.lookup x).isSome = true ↔ x ∈ b.map Prod.fst := by
  constructor
  · intro h
    obtain ⟨v, hv⟩ := Option.isSome_iff_exists.1 h
    exact List.mem_map_of_mem (mem_of_lookup hv)
  · intro h
    rw [Option.isSome_iff_ne_none]
    exact fun hnone => notMem_of_lookup_eq_none hnone h

theorem ofList_eq_ok (h : ofList pairs = .ok b) : b = pairs.reverse := by
  rw [declareAll_eq h, List.append_nil]

theorem map_fst_of_ofList (h : ofList pairs = .ok b) : b.map Prod.fst = (pairs.map Prod.fst).reverse := by
  rw [ofList_eq_ok h, List.map_reverse]

/-- names can be bound together exactly if they differ -/
theorem exists_ofList_iff : (∃ b, ofList pairs = .ok b) ↔ (pairs.map Prod.fst).Nodup := by
  constructor
  · rintro ⟨b, hb⟩
    have hdiffer := nodup_declareAll hb List.nodup_nil
    rwa [map_fst_of_ofList hb, List.nodup_reverse] at hdiffer
  · intro hdiffer
    have hzip : pairs = (pairs.map Prod.fst).zip (pairs.map Prod.snd) := by
      rw [List.zip_map', List.map_id']
    obtain ⟨b, hb⟩ := exists_declareAll hdiffer (pairs.map Prod.snd) (b := []) fun _ _ => rfl
    exact ⟨b, by rw [ofList, hzip, hb]⟩

theorem exists_error_of_not_nodup (h : ¬ (pairs.map Prod.fst).Nodup) : ∃ x, ofList pairs = .error x := by
  cases hb : ofList pairs with
  | error x => exact ⟨x, rfl⟩
  | ok b => exact absurd (exists_ofList_iff.1 ⟨b, hb⟩) h

end Bindings

namespace Frames

variable {fs : Frames} {parent : Option FrameId} {b : Bindings} {i j : FrameId} {x : Bytes}

theorem Nested.le_of_mem_chain (h : fs.Nested) (hj : j ∈ fs.chain i) : j ≤ i := by
  induction i using Nat.strong_induction_on with
  | _ i ih =>
    rcases Nat.lt_or_ge i fs.size with hi | hi
    · rw [h.chain i hi] at hj
      rcases List.mem_cons.1 hj with rfl | hj
      · exact le_rfl
      · cases hp : fs.parent? i with
        | none =>
          rw [hp] at hj
          cases hj
        | some p =>
          rw [hp] at hj
          have hlt := h.older hp
          exact (ih p hlt hj).trans hlt.le
    · rw [chain_of_size_le hi] at hj
      cases hj

theorem Nested.lt_of_mem_chain (h : fs.Nested) (hj : j ∈ fs.chain i) : j < fs.size := by
  rcases Nat.lt_or_ge i fs.size with hi | hi
  · exact Nat.lt_of_le_of_lt (h.le_of_mem_chain hj) hi
  · rw [chain_of_size_le hi] at hj
    cases hj

/-- the meaning of a name depends on what the frames of a chain bind themselves -/
theorem lookup?_congr {fs' : Frames} (hchain : fs'.chain i = fs.chain i)
    (hown : ∀ j ∈ fs.chain i, fs'.own? x j = fs.own? x j) : fs'.lookup? i x = fs.lookup? i x := by
  rw [lookup?, lookup?, hchain]
  generalize fs.chain i = js at hown
  induction js with
  | nil => rfl
  | cons j js ih =>
    obtain ⟨hj, hjs⟩ := List.forall_mem_cons.1 hown
    rw [List.findSome?_cons, List.findSome?_cons, hj, ih hjs]

/-! ## A frame more -/

theorem Nested.lookup?_push_of_ne (h : fs.Nested) (f : Frame) (hi : i ≠ fs.size) (x : Bytes) :
    lookup? (fs.push f) i x = fs.lookup? i x := by
  refine lookup?_congr (by rw [chain_push, if_neg hi]) fun j hj => ?_
  rw [own?_push, if_neg (Nat.ne_of_lt (h.lt_of_mem_chain hj))]

/-- **A new frame** gives a name the value that it binds it to, or the meaning that it has around it. -/
theorem Nested.lookup?_add (h : fs.Nested) (parent : Option FrameId) (b : Bindings) (x : Bytes) :
    (fs.add parent b).2.lookup? fs.size x = (b.lookup x).or (parent.bind (fs.lookup? · x)) := by
  have hnew : fs.size ∉ parent.elim [] fs.chain := by
    cases parent with
    | none => exact List.not_mem_nil
    | some p => exact fun hmem => Nat.lt_irrefl _ (h.lt_of_mem_chain hmem)
  rw [add_eq, lookup?_push _ _ hnew]
  cases parent <;> rfl

theorem Nested.lookup?_add_of_ne (h : fs.Nested) (parent : Option FrameId) (b : Bindings) (hi : i ≠ fs.size)
    (x : Bytes) : (fs.add parent b).2.lookup? i x = fs.lookup? i x := by
  rw [add_eq, h.lookup?_push_of_ne _ hi]

/-- a frame in one that is not there is in none -/
theorem Nested.add_some (h : fs.Nested) (p : FrameId) (hb : (b.map Prod.fst).Nodup) : (fs.add (some p) b).2.Nested := by
  rcases Nat.lt_or_ge p fs.size with hp | hp
  · refine h.add ?_ hb
    intro q hq
    cases hq
    exact hp
  · have hnone : (fs.add (some p) b).2 = (fs.add none b).2 := by
      rw [add_eq, add_eq, Option.elim_some, chain_of_size_le hp, Option.elim_none]
    rw [hnone]
    exact h.add (by simp) hb

theorem isLive_add (fs : Frames) (parent : Option FrameId) (b : Bindings) (i : FrameId) :
    (fs.add parent b).2.isLive i = if i = fs.size then true else fs.isLive i := by
  rw [add_eq, isLive_push_eq]

theorem size_add (fs : Frames) (parent : Option FrameId) (b : Bindings) : (fs.add parent b).2.size = fs.size + 1 := by
  rw [add_eq, Array.size_push]

/-! ## A frame less -/

theorem parent?_pop (fs : Frames) (i : FrameId) :
    parent? fs.pop i = if i < fs.size - 1 then fs.parent? i else none := by
  rw [parent?, parent?, Array.getElem?_pop]
  split <;> rfl

theorem Nested.pop (h : fs.Nested) : Nested fs.pop := by
  refine ⟨?_, ?_, ?_⟩
  · intro i p hp
    rw [parent?_pop] at hp
    split at hp
    · exact h.older hp
    · cases hp
  · intro i hi
    rw [Array.size_pop] at hi
    rw [chain_pop, parent?_pop, if_pos hi, if_pos hi, h.chain i (Nat.lt_of_lt_of_le hi (Nat.sub_le _ _))]
    cases hp : fs.parent? i with
    | none => rfl
    | some p => rw [Option.elim_some, Option.elim_some, chain_pop, if_pos (Nat.lt_trans (h.older hp) hi)]
  · intro i f hf
    rw [Array.getElem?_pop] at hf
    split at hf
    · exact h.nodup hf
    · cases hf

theorem Nested.lookup?_pop (h : fs.Nested) (i : FrameId) (x : Bytes) :
    lookup? fs.pop i x = if i < fs.size - 1 then fs.lookup? i x else none := by
  by_cases hi : i < fs.size - 1
  · rw [if_pos hi]
    refine lookup?_congr (by rw [chain_pop, if_pos hi]) fun j hj => ?_
    rw [own?_pop, if_pos (Nat.lt_of_le_of_lt (h.le_of_mem_chain hj) hi)]
  · rw [if_neg hi, lookup?, chain_pop, if_neg hi]
    rfl

end Frames

/-! ## Worlds in which names mean the same -/

namespace World

variable {w w' : World}

/-- the same arrays, and in all frames the same meaning of names -/
structure Alike (w w' : World) : Prop where
  heap : w'.heap = w.heap
  nested : w.frames.Nested
  nested' : w'.frames.Nested
  size : w'.frames.size = w.frames.size
  live : ∀ i, w'.frames.isLive i = w.frames.isLive i
  lookup : ∀ i x, w'.frames.lookup? i x = w.frames.lookup? i x

namespace Alike

theorem refl (h : w.frames.Nested) : Alike w w := ⟨rfl, h, h, rfl, fun _ => rfl, fun _ _ => rfl⟩

/-- new frames that give names the same meaning keep worlds alike -/
theorem add (h : Alike w w') {parent parent' : Option FrameId} {b b' : Bindings}
    (hnested : (w.frames.add parent b).2.Nested) (hnested' : (w'.frames.add parent' b').2.Nested)
    (hlookup : ∀ x, (w'.frames.add parent' b').2.lookup? w'.frames.size x =
      (w.frames.add parent b).2.lookup? w.frames.size x) :
    Alike { w with frames := (w.frames.add parent b).2 } { w' with frames := (w'.frames.add parent' b').2 } where
  heap := h.heap
  nested := hnested
  nested' := hnested'
  size := by rw [Frames.size_add, Frames.size_add, h.size]
  live i := by rw [Frames.isLive_add, Frames.isLive_add, h.size, h.live]
  lookup i x := by
    by_cases hi : i = w.frames.size
    · rw [hi, ← hlookup, h.size]
    · rw [h.nested.lookup?_add_of_ne _ _ hi, h.nested'.lookup?_add_of_ne _ _ (h.size ▸ hi), h.lookup]

theorem enter (h : Alike w w') (parent : FrameId) {b : Bindings} (hb : (b.map Prod.fst).Nodup) :
    Alike (w.enter parent b) (w'.enter parent b) := by
  refine h.add (h.nested.add_some parent hb) (h.nested'.add_some parent hb) fun x => ?_
  rw [h.nested.lookup?_add, h.nested'.lookup?_add, Option.bind_some, Option.bind_some, h.lookup]

theorem leave (h : Alike w w') : Alike w.leave w'.leave where
  heap := h.heap
  nested := h.nested.pop
  nested' := h.nested'.pop
  size := by simp only [World.leave, Array.size_pop, h.size]
  live i := by simp only [World.leave, Frames.isLive_pop, h.size, h.live]
  lookup i x := by simp only [World.leave, h.nested.lookup?_pop, h.nested'.lookup?_pop, h.size, h.lookup]

/-- what an expression needs to do the same in worlds that are alike -/
theorem tracking : Tracking id (fun _ => True) Alike (fun _ _ => True) where
  number _ := trivial
  boolean _ := trivial
  array _ := trivial
  closure _ _ _ := trivial
  mono _ _ := trivial
  size h := h.size
  live h := h.live
  lookup h i x _ := by rw [h.lookup, Value.rename_id, Option.map_id, id]
  bound _ _ _ := trivial
  items h i := by rw [h.heap, Value.rename_id, List.map_id, id]
  item _ _ := trivial
  fresh h := by rw [h.heap, id]
  push h _ := ⟨by rw [h.heap, Value.rename_id, List.map_id], h.nested, h.nested', h.size, h.live, h.lookup⟩
  enter h _ _ hb := by
    rw [Bindings.rename_id]
    exact h.enter _ (Bindings.nodup_declareAll hb List.nodup_nil)
  leave h := h.leave

/-- an expression has the same answer in worlds that are alike, and leaves the same arrays -/
theorem runIn_eval (h : Alike w w') (limit : Nat) (frame : FrameId) (e : Expr) :
    ((e.eval limit frame).runIn w').1 = ((e.eval limit frame).runIn w).1 ∧
      ((e.eval limit frame).runIn w').2.heap = ((e.eval limit frame).runIn w).2.heap := by
  rcases hrun : (e.eval limit frame).runIn w with ⟨a, w₁⟩
  obtain ⟨w₁', hrun', halike, -⟩ := tracking.runIn_eval h (fun _ _ => trivial) hrun
  rw [hrun']
  refine ⟨?_, halike.heap⟩
  cases a with
  | error d => rfl
  | ok v => exact congrArg Except.ok (congrFun Value.rename_id v)

end Alike

end World

/-! ## Calls -/

/-- in a frame, the names of the pairs mean the values next to them, and all other names mean what `outer` says -/
structure Frames.Means (fs : Frames) (i : FrameId) (pairs : List (Bytes × Value)) (outer : Bytes → Option Value) :
    Prop where
  bound : ∀ (k : Nat) x v, pairs[k]? = some (x, v) → fs.lookup? i x = some v
  other : ∀ x ∉ pairs.map Prod.fst, fs.lookup? i x = outer x

theorem Frames.Means.lookup?_eq {fs fs' : Frames} {i i' : FrameId} {pairs : List (Bytes × Value)}
    {outer : Bytes → Option Value} (h : fs.Means i pairs outer) (h' : fs'.Means i' pairs outer) (x : Bytes) :
    fs'.lookup? i' x = fs.lookup? i x := by
  by_cases hx : x ∈ pairs.map Prod.fst
  · obtain ⟨p, hp, rfl⟩ := List.mem_map.1 hx
    obtain ⟨k, hk⟩ := List.mem_iff_getElem?.1 hp
    rw [h.bound k p.1 p.2 hk, h'.bound k p.1 p.2 hk]
  · rw [h.other x hx, h'.other x hx]

/-- a frame for pairs means them, and the rest as it is around the frame -/
theorem Frames.Nested.means_add {fs : Frames} (h : fs.Nested) (parent : Option FrameId) {pairs : List (Bytes × Value)}
    {b : Bindings} (hb : Bindings.ofList pairs = .ok b) :
    (fs.add parent b).2.Means fs.size pairs fun x => parent.bind (fs.lookup? · x) where
  bound k x v hk := by
    have hmem : (x, v) ∈ b := by
      rw [Bindings.ofList_eq_ok hb, List.mem_reverse]
      exact List.mem_of_getElem? hk
    rw [h.lookup?_add, Bindings.lookup_of_mem (Bindings.nodup_declareAll hb List.nodup_nil) hmem, Option.some_or]
  other x hx := by
    have hnone : b.lookup x = none := by
      rw [← Option.not_isSome_iff_eq_none, Bindings.isSome_lookup_iff, Bindings.map_fst_of_ofList hb, List.mem_reverse]
      exact hx
    rw [h.lookup?_add, hnone, Option.none_or]

theorem Frames.hasOwn_add {fs : Frames} (parent : Option FrameId) {pairs : List (Bytes × Value)} {b : Bindings}
    (hb : Bindings.ofList pairs = .ok b) (x : Bytes) :
    (fs.add parent b).2.hasOwn fs.size x = true ↔ x ∈ pairs.map Prod.fst := by
  rw [add_eq, hasOwn, own?_push, if_pos rfl, Bindings.isSome_lookup_iff, Bindings.map_fst_of_ofList hb,
    List.mem_reverse]

/-! ## Frames for names and values -/

namespace Frames

variable {fs fs' : Frames} {parent : Option FrameId} {pairs : List (Bytes × Value)} {l : Location} {i : FrameId}

theorem exists_of_child (h : fs.child parent pairs l = .ok (i, fs')) :
    ∃ b, Bindings.ofList pairs = .ok b ∧ i = fs.size ∧ fs' = (fs.add parent b).2 := by
  unfold child at h
  split at h
  · cases h
  · rename_i b hb
    cases h
    exact ⟨b, hb, rfl, rfl⟩

theorem getElem?_of_child (h : fs.child parent pairs l = .ok (i, fs')) : fs[i]? = none := by
  obtain ⟨b, -, rfl, -⟩ := exists_of_child h
  exact Array.getElem?_eq_none le_rfl

theorem exists_child_iff : (∃ made, fs.child parent pairs l = .ok made) ↔ (pairs.map Prod.fst).Nodup := by
  rw [← Bindings.exists_ofList_iff, child]
  cases Bindings.ofList pairs <;> simp

theorem child_of_not_nodup (h : ¬ (pairs.map Prod.fst).Nodup) :
    ∃ x, fs.child parent pairs l = .error ⟨.alreadyDeclared x, l⟩ := by
  obtain ⟨x, hx⟩ := Bindings.exists_error_of_not_nodup h
  exact ⟨x, by rw [child, hx]⟩

theorem hasOwn_child (h : fs.child parent pairs l = .ok (i, fs')) (x : Bytes) :
    fs'.hasOwn i x = true ↔ x ∈ pairs.map Prod.fst := by
  obtain ⟨b, hb, rfl, rfl⟩ := exists_of_child h
  exact hasOwn_add parent hb x

/-- **A new frame** means its pairs, and the rest as it is around it. -/
theorem Nested.means_child (hfs : fs.Nested) (h : fs.child parent pairs l = .ok (i, fs')) :
    fs'.Means i pairs fun x => parent.bind (fs.lookup? · x) := by
  obtain ⟨b, hb, rfl, rfl⟩ := exists_of_child h
  exact hfs.means_add parent hb

theorem getElem?_child_of_ne (h : fs.child parent pairs l = .ok (i, fs')) {j : FrameId} (hj : j ≠ i) :
    fs'[j]? = fs[j]? := by
  obtain ⟨b, -, rfl, rfl⟩ := exists_of_child h
  rw [add_eq, Array.getElem?_push, if_neg hj]

theorem isLive_child (h : fs.child parent pairs l = .ok (i, fs')) : fs'.isLive i = true := by
  obtain ⟨b, -, rfl, rfl⟩ := exists_of_child h
  rw [isLive_add, if_pos rfl]

/-! ### Frames that a host holds -/

variable (held : List FrameId)

theorem getElem?_keep (fs : Frames) (i : FrameId) : (fs.keep held)[i]? =
    fs[i]?.map fun f => { f with live := f.live && (held.flatMap fs.chain).contains i } := by
  rw [keep, Array.getElem?_mapIdx]

theorem own?_keep (fs : Frames) (x : Bytes) : (fs.keep held).own? x = fs.own? x := by
  funext i
  rw [own?, getElem?_keep, own?]
  cases fs[i]? <;> rfl

theorem lookup?_keep (fs : Frames) (i : FrameId) (x : Bytes) : (fs.keep held).lookup? i x = fs.lookup? i x := by
  have hchain : (fs.keep held).chain i = fs.chain i := by
    rw [chain, getElem?_keep, chain]
    cases fs[i]? <;> rfl
  rw [lookup?, hchain, own?_keep, lookup?]

variable {held}

theorem mem_chain_self (h : fs.isLive i = true) : i ∈ fs.chain i := by
  rw [chain]
  cases hf : fs[i]? with
  | none =>
    rw [isLive, hf] at h
    cases h
  | some f => exact List.mem_cons_self

/-- a frame that those held stand in is as live as before -/
theorem isLive_keep (hi : i ∈ held.flatMap fs.chain) : (fs.keep held).isLive i = fs.isLive i := by
  rw [isLive, getElem?_keep, isLive]
  cases fs[i]? with
  | none => rfl
  | some f => simp only [Option.map_some, Option.getD_some, List.contains_iff_mem.2 hi, Bool.and_true]

end Frames

namespace Session

variable {s : Session} {handle : Bytes} {i : FrameId} {fs : Frames} {parent : Option FrameId}
  {pairs : List (Bytes × Value)} {l : Location}

/-- the second session holds the frame `i` by a handle, and otherwise what the first one holds. Names mean in it what
they mean in the frames `fs`; its new frame is live, and the frames that its handles lead to are as live as these. -/
structure Opened (s s' : Session) (handle : Bytes) (i : FrameId) (fs : Frames) : Prop where
  held : s'.frame? handle = some i
  others : ∀ other, other ≠ handle → s'.frame? other = s.frame? other
  heap : s'.heap = s.heap
  own : ∀ j x, s'.frames.own? x j = fs.own? x j
  lookup : ∀ j x, s'.frames.lookup? j x = fs.lookup? j x
  live : s'.frames.isLive i = true
  kept : ∀ name k, s'.frame? name = some k → ∀ j ∈ fs.chain k, s'.frames.isLive j = fs.isLive j

theorem frame?_hold_of_ne (s : Session) {other : Bytes} (hother : other ≠ handle) (i : FrameId) :
    (s.hold handle i).frame? other = s.frame? other := by
  have hfilter : (s.handles.filter (·.1 ≠ handle)).lookup other = s.handles.lookup other := by
    induction s.handles with
    | nil => rfl
    | cons p handles ih =>
      obtain ⟨name, j⟩ := p
      by_cases hname : name = handle
      · have hne : other ≠ name := hname ▸ hother
        rw [List.filter_cons_of_neg (by simpa using hname), ih, List.lookup_cons, beq_eq_false_iff_ne.2 hne]
      · rw [List.filter_cons_of_pos (by simpa using hname), List.lookup_cons, List.lookup_cons, ih]
  show List.lookup other ((handle, i) :: s.handles.filter (·.1 ≠ handle)) = s.handles.lookup other
  rw [List.lookup_cons, beq_eq_false_iff_ne.2 hother, hfilter]

theorem isLive_hold {name : Bytes} {j k : FrameId} (hk : (s.hold handle i).frame? name = some k)
    (hj : j ∈ s.frames.chain k) : (s.hold handle i).frames.isLive j = s.frames.isLive j := by
  obtain ⟨before, after, heq, -⟩ := List.lookup_eq_some_iff.1 hk
  have hmem : (name, k) ∈ (s.hold handle i).handles := by
    rw [heq]
    exact List.mem_append_right _ List.mem_cons_self
  exact Frames.isLive_keep (List.mem_flatMap.2 ⟨k, List.mem_map_of_mem hmem, hj⟩)

/-- a frame that can be made is opened -/
theorem openFrameWith_of_ok (h : s.frames.child parent pairs l = .ok (i, fs)) (handle : Bytes) :
    ∃ s', s.openFrameWith handle parent pairs l = .ok s' ∧ s.Opened s' handle i fs := by
  refine ⟨hold { s with frames := fs } handle i, by rw [openFrameWith, h], ?_⟩
  have hheld : (hold { s with frames := fs } handle i).frame? handle = some i := List.lookup_cons_self
  have hlive := Frames.isLive_child h
  exact {
    held := hheld
    others := fun other hother => frame?_hold_of_ne _ hother i
    heap := rfl
    own := fun j x => congrFun (Frames.own?_keep _ fs x) j
    lookup := fun j x => Frames.lookup?_keep _ fs j x
    live := (isLive_hold hheld (Frames.mem_chain_self hlive)).trans hlive
    kept := fun name k hk j hj => isLive_hold hk hj }

theorem openFrameWith_of_error {d : Diagnostic} (h : s.frames.child parent pairs l = .error d) (handle : Bytes) :
    s.openFrameWith handle parent pairs l = .error d := by
  rw [openFrameWith, h]

end Session

namespace World

variable {w : World} {c : Closure} {args : List Value} {t : Token} {callee : Bytes} {limit : Nat} {parent : FrameId}

theorem runIn_scope_of_live (hscope : c.frame = some parent) (hlive : w.frames.isLive parent = true) :
    (Eval.scope t c).runIn w = (.ok parent, w) := by
  rw [Eval.runIn_scope, hscope, Option.filter_some, if_pos hlive, Option.elim_some]

theorem Grows.eq_with_heap {w' : World} (h : w.Grows w') : w' = { w with heap := w'.heap } := by
  obtain ⟨frames, heap, printed⟩ := w'
  obtain ⟨hframes, hprinted, -⟩ := h
  cases hframes
  cases hprinted
  rfl

/-- a call whose frame can be made -/
theorem runIn_call (hscope : c.frame = some parent) (hlive : w.frames.isLive parent = true)
    (hlength : args.length = c.parameters.length) {b : Bindings}
    (hb : Bindings.ofList (c.parameters.zip args) = .ok b) :
    (applyFunction (callWithin (limit + 1)) t (.closure c) callee args).runIn w =
      (((c.body.eval limit w.frames.size).runIn (w.enter parent b)).1,
        { w with heap := ((c.body.eval limit w.frames.size).runIn (w.enter parent b)).2.heap }) := by
  rw [applyFunction, if_pos hlength, callWithin, Eval.runIn_bind_ok (runIn_scope_of_live hscope hlive),
    Eval.runIn_withFrame_of_ok _ _ hb, ← Expr.eval]
  rcases hrun : (c.body.eval limit w.frames.size).runIn (w.enter parent b) with ⟨a, w₁⟩
  have hgrows : w.Grows w₁.leave := (grows_of_eval hrun).leave
  exact congrArg (Prod.mk a) (hgrows.eq_with_heap)

/-- a call whose parameters do not differ -/
theorem runIn_call_of_clash (hscope : c.frame = some parent) (hlive : w.frames.isLive parent = true)
    (hlength : args.length = c.parameters.length) {x : Bytes}
    (hb : Bindings.ofList (c.parameters.zip args) = .error x) :
    (applyFunction (callWithin (limit + 1)) t (.closure c) callee args).runIn w =
      (.error ⟨.alreadyDeclared x, t.location⟩, w) := by
  rw [applyFunction, if_pos hlength, callWithin, Eval.runIn_bind_ok (runIn_scope_of_live hscope hlive),
    Eval.runIn_withFrame_of_error _ _ hb]

/-- the answer of a call is that of the body in any frame where the names mean the same -/
theorem runIn_call_of_means (hw : w.frames.Nested) (hscope : c.frame = some parent)
    (hlive : w.frames.isLive parent = true) (hlength : args.length = c.parameters.length)
    (hdiffer : c.parameters.Nodup) {around : Option FrameId} {b : Bindings}
    (haround : ∀ p, around = some p → p < w.frames.size) (hb : (b.map Prod.fst).Nodup)
    (hmeans : Frames.Means (w.frames.add around b).2 w.frames.size (c.parameters.zip args) (w.frames.lookup? parent)) :
    ∃ r, (c.body.eval limit w.frames.size).runIn { w with frames := (w.frames.add around b).2 } = r ∧
      (applyFunction (callWithin (limit + 1)) t (.closure c) callee args).runIn w =
        (r.1, { w with heap := r.2.heap }) := by
  have hnames : ((c.parameters.zip args).map Prod.fst).Nodup := by rwa [List.map_fst_zip hlength.ge]
  obtain ⟨b₀, hb₀⟩ := Bindings.exists_ofList_iff.2 hnames
  have hnested := hw.add_some parent (Bindings.nodup_declareAll hb₀ List.nodup_nil)
  have halike : Alike (w.enter parent b₀) { w with frames := (w.frames.add around b).2 } :=
    (Alike.refl hw).add hnested (hw.add haround hb) ((hw.means_add (some parent) hb₀).lookup?_eq hmeans)
  obtain ⟨hanswer, hheap⟩ := halike.runIn_eval limit w.frames.size c.body
  exact ⟨_, rfl, by rw [runIn_call hscope hlive hlength hb₀, hanswer, hheap]⟩

/-- **Calls bind parameters to arguments or change nothing.** A frame for names that differ means their values and
leaves the rest as it is; else it is a redeclaration. A call answers as the body does where parameters mean arguments
and all other names what they mean in the closure's frame. -/
theorem calls_bind_parameters (hw : w.frames.Nested) :
    (∀ (parent : Option FrameId) (pairs : List (Bytes × Value)) (l : Location),
      ((∃ made, w.frames.child parent pairs l = .ok made) ↔ (pairs.map Prod.fst).Nodup) ∧
      (∀ i fs, w.frames.child parent pairs l = .ok (i, fs) → w.frames[i]? = none ∧
        (∀ x, fs.hasOwn i x = true ↔ x ∈ pairs.map Prod.fst) ∧
        Frames.Means fs i pairs (fun x => parent.bind (w.frames.lookup? · x)) ∧
        ∀ j, j ≠ i → fs[j]? = w.frames[j]?) ∧
      (¬ (pairs.map Prod.fst).Nodup →
        ∃ d, w.frames.child parent pairs l = .error d ∧ d.cause.kind = .redeclaration ∧ d.location = l)) ∧
    (∀ (s : Session) handle parent pairs l,
      (∀ i fs, s.frames.child parent pairs l = .ok (i, fs) →
        ∃ s', s.openFrameWith handle parent pairs l = .ok s' ∧ s.Opened s' handle i fs) ∧
      ∀ d, s.frames.child parent pairs l = .error d → s.openFrameWith handle parent pairs l = .error d) ∧
    ∀ c args t callee limit parent, c.frame = some parent → w.frames.isLive parent = true →
      args.length = c.parameters.length →
      (c.parameters.Nodup → ∀ around b, (∀ p, around = some p → p < w.frames.size) → (b.map Prod.fst).Nodup →
        Frames.Means (w.frames.add around b).2 w.frames.size (c.parameters.zip args) (w.frames.lookup? parent) →
        ∃ r, (c.body.eval limit w.frames.size).runIn { w with frames := (w.frames.add around b).2 } = r ∧
          (applyFunction (callWithin (limit + 1)) t (.closure c) callee args).runIn w =
            (r.1, { w with heap := r.2.heap })) ∧
      (¬ c.parameters.Nodup → ∃ d, d.cause.kind = .redeclaration ∧
        (applyFunction (callWithin (limit + 1)) t (.closure c) callee args).runIn w = (.error d, w)) := by
  refine ⟨fun parent pairs l => ⟨Frames.exists_child_iff, fun i fs hchild => ?_, fun hrepeat => ?_⟩,
    fun s handle parent pairs l => ⟨fun i fs hchild => Session.openFrameWith_of_ok hchild handle,
      fun d hchild => Session.openFrameWith_of_error hchild handle⟩, ?_⟩
  · exact ⟨Frames.getElem?_of_child hchild, Frames.hasOwn_child hchild, hw.means_child hchild,
      fun j hj => Frames.getElem?_child_of_ne hchild hj⟩
  · obtain ⟨x, hx⟩ := Frames.child_of_not_nodup hrepeat
    exact ⟨_, hx, rfl, rfl⟩
  · intro c args t callee limit parent hscope hlive hlength
    refine ⟨fun hdiffer around b haround hb hmeans =>
      runIn_call_of_means hw hscope hlive hlength hdiffer haround hb hmeans, fun hrepeat => ?_⟩
    rw [← List.map_fst_zip hlength.ge] at hrepeat
    obtain ⟨x, hx⟩ := Bindings.exists_error_of_not_nodup hrepeat
    exact ⟨_, rfl, runIn_call_of_clash hscope hlive hlength hx⟩

/-- a root frame that binds `y`, and a frame inside it that binds `y` again -/
def shadowing : World :=
  ⟨Frames.after #[] [.add none [(bytes "y", .boolean true)], .add (some 0) [(bytes "y", .boolean false)]], #[], []⟩

/-- a function of `x` that was declared in the root frame: `x ? y : x` -/
def choosing : Closure :=
  ⟨bytes "f", [bytes "x"],
    .conditional .unplaced (.variable .unplaced (bytes "x")) (.variable .unplaced (bytes "y"))
      (.variable .unplaced (bytes "x")), some 0, .unplaced⟩

/-- The body is evaluated in a frame of its own with both names: `y` means what it means in the root frame, whatever the
inner frame says. -/
theorem calls_bind_parameters_shadowing :
    shadowing.frames.Nested ∧ choosing.parameters.Nodup ∧ shadowing.frames.isLive 0 = true ∧
      Frames.Means (shadowing.frames.add none [(bytes "x", .boolean true), (bytes "y", .boolean true)]).2 2
        [(bytes "x", .boolean true)] (shadowing.frames.lookup? 0) ∧
      (applyFunction (callWithin 1) .unplaced (.closure choosing) (bytes "f") [.boolean true]).runIn shadowing =
        (.ok (.boolean true), shadowing) := by
  have hw : shadowing.frames.Nested := Frames.nested_empty.after _
  have hdiffer : choosing.parameters.Nodup := List.nodup_singleton _
  have hlive : shadowing.frames.isLive 0 = true := by decide
  have hmeans : Frames.Means (shadowing.frames.add none [(bytes "x", .boolean true), (bytes "y", .boolean true)]).2 2
      [(bytes "x", .boolean true)] (shadowing.frames.lookup? 0) := by
    refine ⟨fun k x v hk => ?_, fun x hx => ?_⟩
    · cases List.mem_singleton.1 (List.mem_of_getElem? hk)
      rfl
    · have hroot := Frames.lookup?_of_chain (rfl : shadowing.frames.chain 0 = [0]) x
      refine (hw.lookup?_add none _ x).trans ?_
      rw [Bindings.lookup_cons_of_ne (by simpa using hx), Option.bind_none, Option.or_none, hroot]
      rfl
  obtain ⟨-, -, hcalls⟩ := calls_bind_parameters hw
  obtain ⟨r, hr, hcall⟩ := (hcalls choosing [.boolean true] .unplaced (bytes "f") 0 0 rfl hlive rfl).1 hdiffer none
    [(bytes "x", .boolean true), (bytes "y", .boolean true)] (by simp) (by decide) hmeans
  refine ⟨hw, hdiffer, hlive, hmeans, hcall.trans ?_⟩
  rw [← hr]
  rfl

end World

end Treewalk
