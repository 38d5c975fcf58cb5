/-
Evaluation only adds arrays.

`World.Grows` says that a later world has all that an earlier one has: the same frames, the same printed lines, and the
same arrays in the same places, perhaps with others after them. An array literal puts one array at the end, a call takes
its frame away again, and no other rule of evaluation changes the world. So by induction on the rules a world has grown
when an evaluation ends (`Expr.Yields.grows`), with a value or with a failure.
-/
import Treewalk.Proofs.Eval.Termination

namespace Treewalk

namespace World

/-- the second world has all that the first one has, and at most new arrays besides -/
structure Grows (w w' : World) : Prop where
  frames : w'.frames = w.frames
  printed : w'.printed = w.printed
  heap : w.heap.toList <+: w'.heap.toList

theorem Grows.refl (w : World) : w.Grows w := ⟨rfl, rfl, List.prefix_rfl⟩

theorem Grows.trans {w w' w'' : World} (h : w.Grows w') (h' : w'.Grows w'') : w.Grows w'' :=
  ⟨h'.frames.trans h.frames, h'.printed.trans h.printed, h.heap.trans h'.heap⟩

theorem grows_push (w : World) (vs : List Value) : w.Grows { w with heap := w.heap.push vs } :=
  ⟨rfl, rfl, by rw [Array.toList_push]; exact List.prefix_append _ _⟩

/-- a call changes no more than what is done in its frame -/
theorem Grows.leave {w w' : World} {parent : FrameId} {b : Bindings} (h : (w.enter parent b).Grows w') :
    w.Grows w'.leave := by
  refine ⟨?_, h.printed, h.heap⟩
  show w'.frames.pop = w.frames
  rw [h.frames, enter, Array.pop_push]

variable {w w' : World}

theorem Grows.size_le (h : w.Grows w') : w.heap.size ≤ w'.heap.size := by
  simpa using h.heap.length_le

theorem Grows.items_eq (h : w.Grows w') {id : ArrayId} (hid : id < w.heap.size) :
    w'.heap.items id = w.heap.items id := by
  have hget := h.heap.getElem (by simpa using hid)
  simp only [Array.getElem_toList] at hget
  simp [Heap.items, hid, Nat.lt_of_lt_of_le hid h.size_le, hget]

end World

namespace Expr

variable {limit : Nat}

mutual
/-- **A world only grows while an expression is evaluated.** -/
theorem Yields.grows {depth : Nat} {frame : FrameId} {e : Expr} {w w' : World} {a : Except Diagnostic Value} :
    Yields limit depth frame e w a w' → w.Grows w'
  | .numeral | .boolean | .variable _ | .unbound _ | .unknownUnary _ | .calleeUnbound _ | .calleeWrong _ _ |
    .missing => .refl w
  | .negate _ he | .invert _ he | .arrayFails he | .arrayWrong he _ => he.grows
  | .leftFails hl | .leftWrong _ hl _ | .andFalse _ hl | .orTrue _ hl => hl.grows
  | .andTrue _ hl hr | .orFalse _ hl hr | .arithmetic _ hl hr | .comparison _ hl hr | .unknownBinary _ hl hr =>
    hl.grows.trans hr.grows
  | .testFails hc _ => hc.grows
  | .chosen hc he => hc.grows.trans he.grows
  | .argumentFails _ _ hargs | .noFunction _ hargs | .nativeArity _ hargs _ | .native _ hargs _ _ |
    .closureArity _ hargs _ | .scopeGone _ hargs _ _ | .tooDeep _ hargs _ _ _ | .clash _ hargs _ _ _ _ => hargs.grows
  | .body _ hargs _ _ _ _ he => hargs.grows.trans he.grows.leave
  | .itemFails hitems => hitems.grows
  | .array hitems => hitems.grows.trans (World.grows_push _ _)
  | .item he hi | .itemOfNone he hi => he.grows.trans hi.grows

theorem YieldsAll.grows {depth : Nat} {frame : FrameId} {es : List Expr} {w w' : World}
    {a : Except Diagnostic (List Value)} : YieldsAll limit depth frame es w a w' → w.Grows w'
  | .nil => .refl w
  | .fails he => he.grows
  | .cons he hes => he.grows.trans hes.grows
end

end Expr

namespace World

variable {w w' : World} {limit : Nat} {frame : FrameId}

theorem grows_of_eval {e : Expr} {a : Except Diagnostic Value} (h : (e.eval limit frame).runIn w = (a, w')) :
    w.Grows w' := by
  obtain ⟨a', w₁, hyields⟩ := Expr.ends limit 0 frame e w
  obtain ⟨-, rfl⟩ := Prod.mk.inj (hyields.runIn_eval.symm.trans h)
  exact hyields.grows

end World

end Treewalk
