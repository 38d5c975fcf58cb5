/-
What comes to an end.

The rules of evaluation do not say that an evaluation ends: a call goes from its node to the body of whatever closure
its callee is bound to by then. But a call adds one to the calls that go on, and there is no more than the limit of
them; and between two calls evaluation goes down the tree. So by induction on the calls that are left, and for each
number of them on the tree, every expression yields an answer (`Expr.ends`). A statement that is no loop ends when its
expression has ended, except if it is to print an array that contains itself. So loops and such arrays are all that
keeps a run from ending (`Block.only_loops_run_for_ever`), and a loop can do so (`Block.not_ended_loop`).
-/
import Treewalk.Proofs.Eval.Origin
import Treewalk.Proofs.Eval.Rules
import Treewalk.Proofs.Eval.Texts

namespace Treewalk

/-! ## Expressions -/

namespace Expr

variable {limit depth : Nat} {frame : FrameId}

/-- every expression comes to an end while `depth` calls go on -/
def Ends (limit depth : Nat) : Prop := ∀ frame e w, ∃ a w', Yields limit depth frame e w a w'

/-- a call of a function, whose arguments have been evaluated -/
theorem exists_yields_call (hbody : depth < limit → Ends limit (depth + 1)) {t : Token} {f : Bytes} {args : List Expr}
    {v : Value} {w w₁ : World} {vs : List Value} (hf : w.frames.lookup? frame f = some v) (hv : v.isFunction = true)
    (hargs : YieldsAll limit depth frame args w (.ok vs) w₁) :
    ∃ a w', Yields limit depth frame (.call t f args) w a w' := by
  cases v with
  | native g =>
    by_cases hlength : vs.length = g.arity
    · obtain ⟨a, ha⟩ := Eval.exists_runIn_nativeArguments t g.name 1 vs
      exact ⟨_, _, .native hf hargs hlength ha⟩
    · exact ⟨_, _, .nativeArity hf hargs hlength⟩
  | closure c =>
    by_cases hlength : vs.length = c.parameters.length
    · cases hscope : c.frame.filter w₁.frames.isLive with
      | none => exact ⟨_, _, .scopeGone hf hargs hlength hscope⟩
      | some parent =>
        rcases Nat.lt_or_ge depth limit with hdepth | hdepth
        · cases hb : Bindings.ofList (c.parameters.zip vs) with
          | error x => exact ⟨_, _, .clash hf hargs hlength hscope hdepth hb⟩
          | ok b =>
            obtain ⟨a, w₂, he⟩ := hbody hdepth w₁.frames.size c.body (w₁.enter parent b)
            exact ⟨a, _, .body hf hargs hlength hscope hdepth hb he⟩
        · exact ⟨_, _, .tooDeep hf hargs hlength hscope hdepth⟩
    · exact ⟨_, _, .closureArity hf hargs hlength⟩
  | noFunction => exact ⟨_, _, .noFunction hf hargs⟩
  | number | boolean | array | noArray => cases hv

mutual
/-- if bodies of functions come to an end, expressions do -/
theorem exists_yields_of (hbody : depth < limit → Ends limit (depth + 1)) : (e : Expr) → ∀ w,
    ∃ a w', Yields limit depth frame e w a w'
  | .numeral _ _, _ => ⟨_, _, .numeral⟩
  | .boolean _ _, _ => ⟨_, _, .boolean⟩
  | .variable _ x, w => by
    cases hx : w.frames.lookup? frame x with
    | none => exact ⟨_, _, .unbound hx⟩
    | some v => exact ⟨_, _, .variable hx⟩
  | .unary _ op e, w => by
    obtain ⟨a, w₁, he⟩ := exists_yields_of hbody e w
    rcases hop : UnaryOp.ofText? op with _ | _ | _
    · exact ⟨_, _, .unknownUnary hop⟩
    · exact ⟨_, _, .negate hop he⟩
    · exact ⟨_, _, .invert hop he⟩
  | .binary _ op l r, w => by
    obtain ⟨d | v, w₁, hl⟩ := exists_yields_of hbody l w
    · exact ⟨_, _, .leftFails hl⟩
    · obtain ⟨a, w₂, hr⟩ := exists_yields_of hbody r w₁
      rcases hop : BinaryOp.ofText? op with _ | _ | _ | o | o
      · exact ⟨_, _, .unknownBinary hop hl hr⟩
      · cases v with
        | boolean b =>
          cases b with
          | false => exact ⟨_, _, .andFalse hop hl⟩
          | true => exact ⟨_, _, .andTrue hop hl hr⟩
        | _ => exact ⟨_, _, .leftWrong (.inl hop) hl rfl⟩
      · cases v with
        | boolean b =>
          cases b with
          | false => exact ⟨_, _, .orFalse hop hl hr⟩
          | true => exact ⟨_, _, .orTrue hop hl⟩
        | _ => exact ⟨_, _, .leftWrong (.inr hop) hl rfl⟩
      · exact ⟨_, _, .arithmetic hop hl hr⟩
      · exact ⟨_, _, .comparison hop hl hr⟩
  | .conditional _ c y n, w => by
    obtain ⟨d | v, w₁, hc⟩ := exists_yields_of hbody c w
    · exact ⟨_, _, .testFails hc rfl⟩
    · cases v with
      | boolean b =>
        cases b with
        | false =>
          obtain ⟨a, w₂, hn⟩ := exists_yields_of hbody n w₁
          exact ⟨_, _, .chosen hc hn⟩
        | true =>
          obtain ⟨a, w₂, hy⟩ := exists_yields_of hbody y w₁
          exact ⟨_, _, .chosen hc hy⟩
      | _ => exact ⟨_, _, .testFails hc rfl⟩
  | .call _ f args, w => by
    cases hf : w.frames.lookup? frame f with
    | none => exact ⟨_, _, .calleeUnbound hf⟩
    | some v =>
      cases hv : v.isFunction with
      | false => exact ⟨_, _, .calleeWrong hf hv⟩
      | true =>
        obtain ⟨d | vs, w₁, hargs⟩ := exists_yieldsAll_of hbody args w
        · exact ⟨_, _, .argumentFails hf hv hargs⟩
        · exact exists_yields_call hbody hf hv hargs
  | .array _ items, w => by
    obtain ⟨d | vs, w₁, hitems⟩ := exists_yieldsAll_of hbody items w
    · exact ⟨_, _, .itemFails hitems⟩
    · exact ⟨_, _, .array hitems⟩
  | .subscript _ e i, w => by
    obtain ⟨d | v, w₁, he⟩ := exists_yields_of hbody e w
    · exact ⟨_, _, .arrayFails he⟩
    · obtain ⟨a, w₂, hi⟩ := exists_yields_of hbody i w₁
      cases v with
      | array id => exact ⟨_, _, .item he hi⟩
      | noArray => exact ⟨_, _, .itemOfNone he hi⟩
      | _ => exact ⟨_, _, .arrayWrong he nofun⟩
  | .missing, _ => ⟨_, _, .missing⟩

theorem exists_yieldsAll_of (hbody : depth < limit → Ends limit (depth + 1)) : (es : List Expr) → ∀ w,
    ∃ a w', YieldsAll limit depth frame es w a w'
  | [], _ => ⟨_, _, .nil⟩
  | e :: es, w => by
    obtain ⟨d | v, w₁, he⟩ := exists_yields_of hbody e w
    · exact ⟨_, _, .fails he⟩
    · obtain ⟨a, w₂, hes⟩ := exists_yieldsAll_of hbody es w₁
      exact ⟨_, _, .cons he hes⟩
end

/-- **Every expression comes to an end.** -/
theorem ends (limit depth : Nat) : Ends limit depth := by
  -- on the calls that are left
  induction hn : limit - depth generalizing depth with
  | zero => exact fun frame => exists_yields_of fun hdepth => absurd hn (Nat.sub_ne_zero_of_lt hdepth)
  | succ n ih => exact fun frame => exists_yields_of fun _ => ih (depth + 1) (by omega)

end Expr

/-! ## Statements -/

/-- the run came to an end by itself, be it a success or a failure -/
def Outcome.Ended : Outcome → Prop
  | .done _ | .failed _ _ => True
  | .unfinished _ => False

instance : DecidablePred Outcome.Ended
  | .done _ | .failed _ _ => isTrue trivial
  | .unfinished _ => isFalse id

namespace Stmt

variable {limits : Limits} {frame : FrameId} {s : Stmt} {ss : List Stmt} {w w' : World}

/-- a statement that is to print a value with an array in it that contains itself -/
def PrintsCycle (limits : Limits) (frame : FrameId) (s : Stmt) (w : World) : Prop :=
  ∃ t e v w', s = .print t e ∧ (e.eval limits.calls frame).runIn w = (.ok v, w') ∧ v.Cyclic w'.heap

theorem ended_withValue (w : World) (e : Expr) {next : Value → World → Outcome}
    (hnext : ∀ v w', (e.eval limits.calls frame).runIn w = (.ok v, w') → (next v w').Ended) :
    (w.withValue limits frame e next).Ended := by
  rcases withValue_cases limits frame w e next with ⟨d, w', hx, heq⟩ | ⟨v, w', hx, heq⟩
  · rw [heq]
    trivial
  · rw [heq]
    exact hnext v w' hx

/-- a statement that is no loop ends, unless it prints for ever -/
theorem ended_exec_iff (hs : s.isLoop = false) (w : World) :
    (s.exec limits frame w).Ended ↔ ¬ s.PrintsCycle limits frame w := by
  cases s with
  | declare t x e =>
    rw [exec]
    refine iff_of_true (ended_withValue w e fun v w' _ => ?_) (by rintro ⟨_, _, _, _, ⟨⟩, _⟩)
    cases w'.declare frame t x v <;> trivial
  | assign t x e =>
    rw [exec]
    refine iff_of_true (ended_withValue w e fun v w' _ => ?_) (by rintro ⟨_, _, _, _, ⟨⟩, _⟩)
    cases w'.assign frame t x v <;> trivial
  | print t e =>
    rw [exec]
    constructor
    · rintro hended ⟨_, _, v, w', ⟨⟩, hv, hcycle⟩
      simp only [World.withValue, hv, Value.text?_eq_none_iff.2 hcycle] at hended
      exact hended
    · intro hno
      refine ended_withValue w e fun v w' hv => ?_
      cases htext : v.text? w'.heap with
      | some line => trivial
      | none => exact hno ⟨t, e, v, w', rfl, hv, Value.text?_eq_none_iff.1 htext⟩
  | loop => cases hs
  | function t f ps e =>
    rw [exec]
    refine iff_of_true ?_ (by rintro ⟨_, _, _, _, ⟨⟩, _⟩)
    cases w.declare frame t f (.closure ⟨f, ps, e, some frame, t⟩) <;> trivial
  | missing =>
    rw [exec]
    exact iff_of_true trivial (by rintro ⟨_, _, _, _, ⟨⟩, _⟩)

/-- where a run comes to after a statement that is no loop -/
theorem visits_cons_iff (hs : s.isLoop = false) {u : Stmt} : Visits limits frame (s :: ss) w u w' ↔
    u = s ∧ w' = w ∨ ∃ w₁, s.exec limits frame w = .done w₁ ∧ Visits limits frame ss w₁ u w' := by
  constructor
  · intro h
    cases h with
    | here => exact .inl ⟨rfl, rfl⟩
    | next hdone h => exact .inr ⟨_, hdone, h⟩
    | body | again => cases hs
  · rintro (⟨rfl, rfl⟩ | ⟨w₁, hdone, h⟩)
    · exact .here ..
    · exact .next hdone h

/-- statements without loops come to an end, unless the run comes to one that prints for ever -/
theorem ended_execAll_iff (hss : ∀ s ∈ ss, s.isLoop = false) (w : World) : (execAll limits frame ss w).Ended ↔
    ∀ s w', Visits limits frame ss w s w' → ¬ s.PrintsCycle limits frame w' := by
  induction ss generalizing w with
  | nil =>
    rw [execAll]
    exact iff_of_true trivial (by rintro _ _ ⟨⟩)
  | cons s ss ih =>
    obtain ⟨hs, hss⟩ := List.forall_mem_cons.1 hss
    have hfirst := @ended_exec_iff limits frame s hs w
    rw [execAll]
    simp only [visits_cons_iff hs]
    cases hexec : s.exec limits frame w with
    | done w₁ =>
      rw [hexec] at hfirst
      rw [Outcome.andThen, ih hss w₁]
      constructor
      · rintro h u w' (⟨rfl, rfl⟩ | ⟨_, ⟨⟩, hvisits⟩)
        · exact hfirst.1 trivial
        · exact h u w' hvisits
      · exact fun h u w' hvisits => h u w' (.inr ⟨w₁, rfl, hvisits⟩)
    | failed d w₁ =>
      rw [hexec] at hfirst
      refine iff_of_true trivial ?_
      rintro u w' (⟨rfl, rfl⟩ | ⟨_, ⟨⟩, _⟩)
      exact hfirst.1 trivial
    | unfinished w₁ =>
      rw [hexec] at hfirst
      exact iff_of_false id fun h => hfirst.2 (h s w (.inl ⟨rfl, rfl⟩))

end Stmt

/-- two names for arrays: `a` is an array that contains itself, and `b` is one without items -/
def World.knotted : World :=
  ⟨#[⟨[], [(bytes "a", .array 0), (bytes "b", .array 1)], true⟩], #[[.array 1, .array 0], []], []⟩

namespace Block

/-- no statement is a loop; only loops have statements in them, so there is none further in either -/
def LoopFree (b : Block) : Prop := ∀ s ∈ b, s.isLoop = false

/-- **Only loops run for ever.** Whatever functions call one another, with any limit on the calls inside one another, an
expression comes to an end: it yields a value or a failure, which is what `eval` gives. A block without loops comes to
an end if and only if it comes to print no array that contains itself. -/
theorem only_loops_run_for_ever (limits : Limits) :
    (∀ depth frame e w, ∃ a w', Expr.Yields limits.calls depth frame e w a w' ∧
      (e.eval (limits.calls - depth) frame).runIn w = (a, w')) ∧
    ∀ (b : Block) frame w, b.LoopFree → ((b.exec limits frame w).Ended ↔
      ∀ s w', Stmt.Visits limits frame b w s w' → ¬ s.PrintsCycle limits frame w') := by
  constructor
  · intro depth frame e w
    obtain ⟨a, w', h⟩ := Expr.ends limits.calls depth frame e w
    exact ⟨a, w', h, h.runIn_eval⟩
  · exact fun b frame w hb => Stmt.ended_execAll_iff hb w

/-- Printing `[b, b]` ends, printing `[b, a]` does not. -/
theorem only_loops_run_for_ever_knotted :
    let print (x : String) : Block :=
      [.print .unplaced (.array .unplaced [.variable .unplaced (bytes "b"), .variable .unplaced (bytes x)])]
    (print "b").LoopFree ∧ ((print "b").exec ⟨1, 1⟩ 0 .knotted).Ended ∧
      (∀ s w', Stmt.Visits ⟨1, 1⟩ 0 (print "b") .knotted s w' → ¬ s.PrintsCycle ⟨1, 1⟩ 0 w') ∧
      ¬ ((print "a").exec ⟨1, 1⟩ 0 .knotted).Ended ∧
      ∃ s w', Stmt.Visits ⟨1, 1⟩ 0 (print "a") .knotted s w' ∧ s.PrintsCycle ⟨1, 1⟩ 0 w' := by
  intro print
  have hfree : ∀ x, (print x).LoopFree := fun x => List.forall_mem_singleton.2 rfl
  have hends : ((print "b").exec ⟨1, 1⟩ 0 .knotted).Ended := by decide +kernel
  have hgoesOn : ¬ ((print "a").exec ⟨1, 1⟩ 0 .knotted).Ended := by decide +kernel
  obtain ⟨-, hiff⟩ := only_loops_run_for_ever ⟨1, 1⟩
  refine ⟨hfree _, hends, (hiff _ 0 .knotted (hfree _)).1 hends, hgoesOn, ?_⟩
  simpa using mt (hiff _ 0 .knotted (hfree _)).2 hgoesOn

theorem unfinished_iterate {condition : World → (Bool → World → Outcome) → Outcome} {body : World → Outcome}
    (hcondition : ∀ w next, condition w next = next true w) (hbody : ∀ w, body w = .done w) (rounds : Nat) (w : World) :
    iterate condition body rounds w = .unfinished w := by
  induction rounds with
  | zero => rfl
  | succ rounds ih => rw [iterate, hcondition, if_pos rfl, hbody, Outcome.andThen, ih]

/-- a loop whose condition is always true goes on for ever -/
theorem not_ended_loop (t t' : Token) (limits : Limits) (frame : FrameId) (w : World) :
    ¬ (exec [.loop t (.boolean t' true) []] limits frame w).Ended := by
  rw [exec, Stmt.execAll, Stmt.exec, unfinished_iterate]
  · exact id
  · exact fun w next => rfl
  · exact fun w => rfl

end Block

end Treewalk
