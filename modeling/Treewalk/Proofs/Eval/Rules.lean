/-
Rules of evaluation.

`Expr.Yields limit depth frame e w a w'` says that `e`, evaluated in a frame of the world `w` while `depth` calls of
closures go on, comes to an end: with the answer `a`, a value or a failure, in the world `w'`. There is one rule for
each way in which a kind of expression ends, and what a rule needs are the evaluations that happen on the way. So a
derivation is an evaluation that ends, and nothing in the rules says that there is one. Where there is one, it gives
what `Expr.eval` gives (`Expr.Yields.runIn_eval`).
-/
import Treewalk.Proofs.Eval.Steps

namespace Treewalk

/-- the number in a value that must be one -/
def Value.asNumber (t : Token) (role : Role) : Value → Except Diagnostic Number
  | .number x => .ok x
  | v => .error ⟨.wrongType .number role v.typeName, t.location⟩

/-- the truth value in a value that must be one -/
def Value.asBoolean (t : Token) (role : Role) : Value → Except Diagnostic Bool
  | .boolean b => .ok b
  | v => .error ⟨.wrongType .boolean role v.typeName, t.location⟩

namespace Expr

mutual
/-- the evaluation of an expression ends -/
inductive Yields (limit : Nat) : Nat → FrameId → Expr → World → Except Diagnostic Value → World → Prop
  | numeral {depth frame t x w} : Yields limit depth frame (.numeral t x) w (.ok (.number x)) w
  | boolean {depth frame t b w} : Yields limit depth frame (.boolean t b) w (.ok (.boolean b)) w
  | variable {depth frame t x v w} (hx : w.frames.lookup? frame x = some v) :
      Yields limit depth frame (.variable t x) w (.ok v) w
  | unbound {depth frame t x w} (hx : w.frames.lookup? frame x = none) :
      Yields limit depth frame (.variable t x) w (.error ⟨.undefinedVariable x, t.location⟩) w
  -- operators in front
  | unknownUnary {depth frame t op e w} (hop : UnaryOp.ofText? op = none) :
      Yields limit depth frame (.unary t op e) w (.error ⟨.unknownUnary op, t.location⟩) w
  | negate {depth frame t op e w a w₁} (hop : UnaryOp.ofText? op = some .negate)
      (he : Yields limit depth frame e w a w₁) :
      Yields limit depth frame (.unary t op e) w (do .ok (.number (← (← a).asNumber t .negated).neg)) w₁
  | invert {depth frame t op e w a w₁} (hop : UnaryOp.ofText? op = some .invert)
      (he : Yields limit depth frame e w a w₁) :
      Yields limit depth frame (.unary t op e) w (do .ok (.boolean !(← (← a).asBoolean t .inverted))) w₁
  -- operators in between; the first operand of `&&` and `||` may decide
  | leftFails {depth frame t op l r w d w₁} (hl : Yields limit depth frame l w (.error d) w₁) :
      Yields limit depth frame (.binary t op l r) w (.error d) w₁
  | leftWrong {depth frame t op l r w v d w₁} (hop : BinaryOp.ofText? op = some .and ∨ BinaryOp.ofText? op = some .or)
      (hl : Yields limit depth frame l w (.ok v) w₁) (hv : v.asBoolean t (.left op) = .error d) :
      Yields limit depth frame (.binary t op l r) w (.error d) w₁
  | andFalse {depth frame t op l r w w₁} (hop : BinaryOp.ofText? op = some .and)
      (hl : Yields limit depth frame l w (.ok (.boolean false)) w₁) :
      Yields limit depth frame (.binary t op l r) w (.ok (.boolean false)) w₁
  | orTrue {depth frame t op l r w w₁} (hop : BinaryOp.ofText? op = some .or)
      (hl : Yields limit depth frame l w (.ok (.boolean true)) w₁) :
      Yields limit depth frame (.binary t op l r) w (.ok (.boolean true)) w₁
  | andTrue {depth frame t op l r w w₁ a w₂} (hop : BinaryOp.ofText? op = some .and)
      (hl : Yields limit depth frame l w (.ok (.boolean true)) w₁) (hr : Yields limit depth frame r w₁ a w₂) :
      Yields limit depth frame (.binary t op l r) w (do .ok (.boolean (← (← a).asBoolean t (.right op)))) w₂
  | orFalse {depth frame t op l r w w₁ a w₂} (hop : BinaryOp.ofText? op = some .or)
      (hl : Yields limit depth frame l w (.ok (.boolean false)) w₁) (hr : Yields limit depth frame r w₁ a w₂) :
      Yields limit depth frame (.binary t op l r) w (do .ok (.boolean (← (← a).asBoolean t (.right op)))) w₂
  | arithmetic {depth frame t op o l r w v w₁ a w₂} (hop : BinaryOp.ofText? op = some (.arithmetic o))
      (hl : Yields limit depth frame l w (.ok v) w₁) (hr : Yields limit depth frame r w₁ a w₂) :
      Yields limit depth frame (.binary t op l r) w
        (do let u ← a; .ok (.number (o.apply (← v.asNumber t (.left op)) (← u.asNumber t (.right op))))) w₂
  | comparison {depth frame t op o l r w v w₁ a w₂} (hop : BinaryOp.ofText? op = some (.comparison o))
      (hl : Yields limit depth frame l w (.ok v) w₁) (hr : Yields limit depth frame r w₁ a w₂) :
      Yields limit depth frame (.binary t op l r) w
        (do let u ← a; .ok (.boolean (o.apply (← v.asNumber t (.left op)) (← u.asNumber t (.right op))))) w₂
  | unknownBinary {depth frame t op l r w v w₁ a w₂} (hop : BinaryOp.ofText? op = none)
      (hl : Yields limit depth frame l w (.ok v) w₁) (hr : Yields limit depth frame r w₁ a w₂) :
      Yields limit depth frame (.binary t op l r) w (do let _ ← a; .error ⟨.unknownBinary op, t.location⟩) w₂
  -- choices
  | testFails {depth frame t c y n w a d w₁} (hc : Yields limit depth frame c w a w₁)
      (ha : (do (← a).asBoolean t .test) = .error d) : Yields limit depth frame (.conditional t c y n) w (.error d) w₁
  | chosen {depth frame t c y n w b w₁ a w₂} (hc : Yields limit depth frame c w (.ok (.boolean b)) w₁)
      (he : Yields limit depth frame (if b then y else n) w₁ a w₂) :
      Yields limit depth frame (.conditional t c y n) w a w₂
  -- calls: the callee is looked at first, then come the arguments
  | calleeUnbound {depth frame t f args w} (hf : w.frames.lookup? frame f = none) :
      Yields limit depth frame (.call t f args) w (.error ⟨.undefinedVariable f, t.location⟩) w
  | calleeWrong {depth frame t f args v w} (hf : w.frames.lookup? frame f = some v) (hv : v.isFunction = false) :
      Yields limit depth frame (.call t f args) w (.error ⟨.notCallable f v.typeName, t.location⟩) w
  | argumentFails {depth frame t f args v w d w₁} (hf : w.frames.lookup? frame f = some v) (hv : v.isFunction = true)
      (hargs : YieldsAll limit depth frame args w (.error d) w₁) :
      Yields limit depth frame (.call t f args) w (.error d) w₁
  | noFunction {depth frame t f args w vs w₁} (hf : w.frames.lookup? frame f = some .noFunction)
      (hargs : YieldsAll limit depth frame args w (.ok vs) w₁) :
      Yields limit depth frame (.call t f args) w (.error ⟨.notCallable f .function, t.location⟩) w₁
  | nativeArity {depth frame t f args g w vs w₁} (hf : w.frames.lookup? frame f = some (.native g))
      (hargs : YieldsAll limit depth frame args w (.ok vs) w₁) (hlength : vs.length ≠ g.arity) :
      Yields limit depth frame (.call t f args) w (.error ⟨.arity g.name g.arity vs.length, t.location⟩) w₁
  | native {depth frame t f args g w vs w₁ a} (hf : w.frames.lookup? frame f = some (.native g))
      (hargs : YieldsAll limit depth frame args w (.ok vs) w₁) (hlength : vs.length = g.arity)
      (ha : (nativeArguments t g.name 1 vs).runIn w₁ = (a, w₁)) :
      Yields limit depth frame (.call t f args) w (do .ok (.number (g.op.apply (← a)))) w₁
  | closureArity {depth frame t f args c w vs w₁} (hf : w.frames.lookup? frame f = some (.closure c))
      (hargs : YieldsAll limit depth frame args w (.ok vs) w₁) (hlength : vs.length ≠ c.parameters.length) :
      Yields limit depth frame (.call t f args) w (.error ⟨.arity c.name c.parameters.length vs.length, t.location⟩) w₁
  | scopeGone {depth frame t f args c w vs w₁} (hf : w.frames.lookup? frame f = some (.closure c))
      (hargs : YieldsAll limit depth frame args w (.ok vs) w₁) (hlength : vs.length = c.parameters.length)
      (hscope : c.frame.filter w₁.frames.isLive = none) :
      Yields limit depth frame (.call t f args) w (.error ⟨.scopeGone c.name c.token.location, t.location⟩) w₁
  | tooDeep {depth frame t f args c w vs w₁ parent} (hf : w.frames.lookup? frame f = some (.closure c))
      (hargs : YieldsAll limit depth frame args w (.ok vs) w₁) (hlength : vs.length = c.parameters.length)
      (hscope : c.frame.filter w₁.frames.isLive = some parent) (hdepth : limit ≤ depth) :
      Yields limit depth frame (.call t f args) w (.error ⟨.callDepth c.name, t.location⟩) w₁
  | clash {depth frame t f args c w vs w₁ parent x} (hf : w.frames.lookup? frame f = some (.closure c))
      (hargs : YieldsAll limit depth frame args w (.ok vs) w₁) (hlength : vs.length = c.parameters.length)
      (hscope : c.frame.filter w₁.frames.isLive = some parent) (hdepth : depth < limit)
      (hb : Bindings.ofList (c.parameters.zip vs) = .error x) :
      Yields limit depth frame (.call t f args) w (.error ⟨.alreadyDeclared x, t.location⟩) w₁
  | body {depth frame t f args c w vs w₁ parent b a w₂} (hf : w.frames.lookup? frame f = some (.closure c))
      (hargs : YieldsAll limit depth frame args w (.ok vs) w₁) (hlength : vs.length = c.parameters.length)
      (hscope : c.frame.filter w₁.frames.isLive = some parent) (hdepth : depth < limit)
      (hb : Bindings.ofList (c.parameters.zip vs) = .ok b)
      (he : Yields limit (depth + 1) w₁.frames.size c.body (w₁.enter parent b) a w₂) :
      Yields limit depth frame (.call t f args) w a w₂.leave
  -- arrays
  | itemFails {depth frame t items w d w₁} (hitems : YieldsAll limit depth frame items w (.error d) w₁) :
      Yields limit depth frame (.array t items) w (.error d) w₁
  | array {depth frame t items w vs w₁} (hitems : YieldsAll limit depth frame items w (.ok vs) w₁) :
      Yields limit depth frame (.array t items) w (.ok (.array w₁.heap.size)) { w₁ with heap := w₁.heap.push vs }
  | arrayFails {depth frame t e i w d w₁} (he : Yields limit depth frame e w (.error d) w₁) :
      Yields limit depth frame (.subscript t e i) w (.error d) w₁
  | arrayWrong {depth frame t e i w v w₁} (he : Yields limit depth frame e w (.ok v) w₁) (hv : v.typeName ≠ .array) :
      Yields limit depth frame (.subscript t e i) w (.error ⟨.notSubscriptable v.typeName, t.location⟩) w₁
  | item {depth frame t e i w id w₁ a w₂} (he : Yields limit depth frame e w (.ok (.array id)) w₁)
      (hi : Yields limit depth frame i w₁ a w₂) : Yields limit depth frame (.subscript t e i) w
        (do ((Value.item t (w₂.heap.items id) (← a)).runIn w₂).1) w₂
  | itemOfNone {depth frame t e i w w₁ a w₂} (he : Yields limit depth frame e w (.ok .noArray) w₁)
      (hi : Yields limit depth frame i w₁ a w₂) : Yields limit depth frame (.subscript t e i) w
        (do ((Value.item t [] (← a)).runIn w₂).1) w₂
  | missing {depth frame w} : Yields limit depth frame .missing w (.error ⟨.missingPart, Token.unplaced.location⟩) w

/-- expressions from left to right, up to the first that fails -/
inductive YieldsAll (limit : Nat) : Nat → FrameId → List Expr → World → Except Diagnostic (List Value) → World → Prop
  | nil {depth frame w} : YieldsAll limit depth frame [] w (.ok []) w
  | fails {depth frame e es w d w₁} (he : Yields limit depth frame e w (.error d) w₁) :
      YieldsAll limit depth frame (e :: es) w (.error d) w₁
  | cons {depth frame e es w v w₁ a w₂} (he : Yields limit depth frame e w (.ok v) w₁)
      (hes : YieldsAll limit depth frame es w₁ a w₂) :
      YieldsAll limit depth frame (e :: es) w (do .ok (v :: (← a))) w₂
end

end Expr

/-! ## What evaluation gives -/

namespace Eval

variable {α β : Type} {w w₁ : World}

/-- a step after which nothing changes the world any more -/
theorem runIn_bind_answer {x : Eval α} {a : Except Diagnostic α} {k : α → Eval β} {f : α → Except Diagnostic β}
    (h : x.runIn w = (a, w₁)) (hk : ∀ v, (k v).runIn w₁ = (f v, w₁)) : (x >>= k).runIn w = (a >>= f, w₁) := by
  cases a with
  | error d => exact runIn_bind_error h k
  | ok v => rw [runIn_bind_ok h, hk]; rfl

theorem runIn_lookup_some {t : Token} {frame : FrameId} {x : Bytes} {v : Value}
    (h : w.frames.lookup? frame x = some v) : (lookup t frame x).runIn w = (.ok v, w) := by
  rw [runIn_lookup, h]
  rfl

theorem runIn_lookup_none {t : Token} {frame : FrameId} {x : Bytes} (h : w.frames.lookup? frame x = none) :
    (lookup t frame x).runIn w = (.error ⟨.undefinedVariable x, t.location⟩, w) := by
  rw [runIn_lookup, h]
  rfl

theorem runIn_scope_some {t : Token} {f : Closure} {parent : FrameId}
    (h : f.frame.filter w.frames.isLive = some parent) : (scope t f).runIn w = (.ok parent, w) := by
  rw [runIn_scope, h]
  rfl

theorem runIn_scope_none {t : Token} {f : Closure} (h : f.frame.filter w.frames.isLive = none) :
    (scope t f).runIn w = (.error ⟨.scopeGone f.name f.token.location, t.location⟩, w) := by
  rw [runIn_scope, h]
  rfl

theorem runIn_boolean_of {t : Token} {role : Role} {v : Value} {a : Except Diagnostic Bool}
    (h : v.asBoolean t role = a) : (boolean t role v).runIn w = (a, w) := by
  subst h
  cases v <;> rfl

theorem runIn_item (t : Token) (items : List Value) (v : Value) :
    (Value.item t items v).runIn w = (((Value.item t items v).runIn w).1, w) := by
  cases v with
  | number x =>
    rw [Value.item]
    split <;> rfl
  | _ => rfl

theorem exists_runIn_nativeArguments (t : Token) (f : Bytes) (i : Nat) (vs : List Value) :
    ∃ a, (nativeArguments t f i vs).runIn w = (a, w) := by
  induction vs generalizing i with
  | nil => exact ⟨_, rfl⟩
  | cons v vs ih =>
    obtain ⟨a, ha⟩ := ih (i + 1)
    cases v with
    | number x =>
      rw [nativeArguments, runIn_bind_ok (show (number t (.argument i f) (.number x)).runIn w = (.ok x, w) from rfl)]
      exact ⟨_, runIn_bind_answer ha fun xs => rfl⟩
    | _ => exact ⟨_, rfl⟩

/-- a call: the callee is looked up, and the arguments are evaluated -/
theorem runIn_call {call : Call} {t : Token} {frame : FrameId} {f : Bytes} {args : List Expr} {v : Value}
    (hf : w.frames.lookup? frame f = some v) (hv : v.isFunction = true) {vs : List Value}
    (hargs : (Expr.evalAllWith call frame args).runIn w = (.ok vs, w₁)) :
    ((Expr.call t f args).evalWith call frame).runIn w = (applyFunction call t v f vs).runIn w₁ := by
  rw [Expr.evalWith, runIn_bind_ok (runIn_lookup_some hf), if_pos hv, runIn_bind_ok hargs]

end Eval

namespace Expr

variable {limit : Nat}

mutual
theorem Yields.runIn_evalWith {depth : Nat} {frame : FrameId} {e : Expr} {w w' : World} {a : Except Diagnostic Value} :
    Yields limit depth frame e w a w' → (e.evalWith (callWithin (limit - depth)) frame).runIn w = (a, w')
  | .numeral => by rw [evalWith]; rfl
  | .boolean => by rw [evalWith]; rfl
  | .variable hx => by rw [evalWith, Eval.runIn_lookup_some hx]
  | .unbound hx => by rw [evalWith, Eval.runIn_lookup_none hx]
  | .unknownUnary hop => by
    simp only [evalWith, hop]
    rfl
  | .negate hop he => by
    simp only [evalWith, hop]
    exact Eval.runIn_bind_answer he.runIn_evalWith fun v => by cases v <;> rfl
  | .invert hop he => by
    simp only [evalWith, hop]
    exact Eval.runIn_bind_answer he.runIn_evalWith fun v => by cases v <;> rfl
  | .leftFails hl => by
    rw [evalWith]
    split <;> exact Eval.runIn_bind_error hl.runIn_evalWith _
  | .leftWrong hop hl hv => by
    rcases hop with hop | hop
    · simp only [evalWith, hop]
      rw [Eval.runIn_bind_ok hl.runIn_evalWith, Eval.runIn_bind_error (Eval.runIn_boolean_of hv)]
    · simp only [evalWith, hop]
      rw [Eval.runIn_bind_ok hl.runIn_evalWith, Eval.runIn_bind_error (Eval.runIn_boolean_of hv)]
  | .andFalse hop hl => by
    simp only [evalWith, hop]
    rw [Eval.runIn_bind_ok hl.runIn_evalWith]
    rfl
  | .orTrue hop hl => by
    simp only [evalWith, hop]
    rw [Eval.runIn_bind_ok hl.runIn_evalWith]
    rfl
  | .andTrue hop hl hr => by
    simp only [evalWith, hop]
    rw [Eval.runIn_bind_ok hl.runIn_evalWith]
    exact Eval.runIn_bind_answer hr.runIn_evalWith fun v => by cases v <;> rfl
  | .orFalse hop hl hr => by
    simp only [evalWith, hop]
    rw [Eval.runIn_bind_ok hl.runIn_evalWith]
    exact Eval.runIn_bind_answer hr.runIn_evalWith fun v => by cases v <;> rfl
  | .arithmetic (v := v) hop hl hr => by
    simp only [evalWith, hop]
    rw [Eval.runIn_bind_ok hl.runIn_evalWith]
    exact Eval.runIn_bind_answer hr.runIn_evalWith fun u => by cases v <;> cases u <;> rfl
  | .comparison (v := v) hop hl hr => by
    simp only [evalWith, hop]
    rw [Eval.runIn_bind_ok hl.runIn_evalWith]
    exact Eval.runIn_bind_answer hr.runIn_evalWith fun u => by cases v <;> cases u <;> rfl
  | .unknownBinary hop hl hr => by
    simp only [evalWith, hop]
    rw [Eval.runIn_bind_ok hl.runIn_evalWith]
    exact Eval.runIn_bind_answer hr.runIn_evalWith fun u => rfl
  | .testFails (a := a) hc ha => by
    have htest := hc.runIn_evalWith
    rw [evalWith]
    cases a with
    | error d =>
      cases ha
      exact Eval.runIn_bind_error htest _
    | ok v => rw [Eval.runIn_bind_ok htest, Eval.runIn_bind_error (Eval.runIn_boolean_of ha)]
  | .chosen (b := b) hc he => by
    have hchosen := he.runIn_evalWith
    rw [evalWith, Eval.runIn_bind_ok hc.runIn_evalWith]
    cases b with
    | false => exact hchosen
    | true => exact hchosen
  | .calleeUnbound hf => by rw [evalWith, Eval.runIn_bind_error (Eval.runIn_lookup_none hf)]
  | .calleeWrong hf hv => by
    rw [evalWith, Eval.runIn_bind_ok (Eval.runIn_lookup_some hf), hv]
    rfl
  | .argumentFails hf hv hargs => by
    rw [evalWith, Eval.runIn_bind_ok (Eval.runIn_lookup_some hf), if_pos hv]
    exact Eval.runIn_bind_error hargs.runIn_evalAllWith _
  | .noFunction hf hargs => by
    rw [Eval.runIn_call hf rfl hargs.runIn_evalAllWith]
    rfl
  | .nativeArity hf hargs hlength => by
    rw [Eval.runIn_call hf rfl hargs.runIn_evalAllWith, applyFunction, if_neg hlength]
    rfl
  | .native hf hargs hlength ha => by
    rw [Eval.runIn_call hf rfl hargs.runIn_evalAllWith, applyFunction, if_pos hlength]
    exact Eval.runIn_bind_answer ha fun _ => rfl
  | .closureArity hf hargs hlength => by
    rw [Eval.runIn_call hf rfl hargs.runIn_evalAllWith, applyFunction, if_neg hlength]
    rfl
  | .scopeGone hf hargs hlength hscope => by
    rw [Eval.runIn_call hf rfl hargs.runIn_evalAllWith, applyFunction, if_pos hlength]
    rcases limit - depth with _ | n
    · exact Eval.runIn_bind_error (Eval.runIn_scope_none hscope) _
    · exact Eval.runIn_bind_error (Eval.runIn_scope_none hscope) _
  | .tooDeep hf hargs hlength hscope hdepth => by
    rw [Eval.runIn_call hf rfl hargs.runIn_evalAllWith, applyFunction, if_pos hlength, Nat.sub_eq_zero_of_le hdepth,
      callWithin, Eval.runIn_bind_ok (Eval.runIn_scope_some hscope)]
    rfl
  | .clash hf hargs hlength hscope hdepth hb => by
    rw [Eval.runIn_call hf rfl hargs.runIn_evalAllWith, applyFunction, if_pos hlength,
      show limit - depth = limit - (depth + 1) + 1 by omega, callWithin,
      Eval.runIn_bind_ok (Eval.runIn_scope_some hscope), Eval.runIn_withFrame_of_error _ _ hb]
  | .body hf hargs hlength hscope hdepth hb he => by
    rw [Eval.runIn_call hf rfl hargs.runIn_evalAllWith, applyFunction, if_pos hlength,
      show limit - depth = limit - (depth + 1) + 1 by omega, callWithin,
      Eval.runIn_bind_ok (Eval.runIn_scope_some hscope), Eval.runIn_withFrame_of_ok _ _ hb, he.runIn_evalWith]
  | .itemFails hitems => by
    rw [evalWith]
    exact Eval.runIn_bind_error hitems.runIn_evalAllWith _
  | .array hitems => by
    rw [evalWith, Eval.runIn_bind_ok hitems.runIn_evalAllWith, Eval.runIn_array]
  | .arrayFails he => by
    rw [evalWith]
    exact Eval.runIn_bind_error he.runIn_evalWith _
  | .arrayWrong (v := v) he hv => by
    have harray := he.runIn_evalWith
    rw [evalWith, Eval.runIn_bind_ok harray]
    cases v with
    | array | noArray => exact absurd rfl hv
    | _ => rfl
  | .item he hi => by
    rw [evalWith, Eval.runIn_bind_ok he.runIn_evalWith]
    exact Eval.runIn_bind_answer hi.runIn_evalWith fun v => Eval.runIn_item _ _ v
  | .itemOfNone he hi => by
    rw [evalWith, Eval.runIn_bind_ok he.runIn_evalWith]
    exact Eval.runIn_bind_answer hi.runIn_evalWith fun v => Eval.runIn_item _ _ v
  | .missing => by rw [evalWith]; rfl

theorem YieldsAll.runIn_evalAllWith {depth : Nat} {frame : FrameId} {es : List Expr} {w w' : World}
    {a : Except Diagnostic (List Value)} : YieldsAll limit depth frame es w a w' →
      (evalAllWith (callWithin (limit - depth)) frame es).runIn w = (a, w')
  | .nil => by rw [evalAllWith]; rfl
  | .fails he => by
    rw [evalAllWith]
    exact Eval.runIn_bind_error he.runIn_evalWith _
  | .cons he hes => by
    rw [evalAllWith, Eval.runIn_bind_ok he.runIn_evalWith]
    exact Eval.runIn_bind_answer hes.runIn_evalAllWith fun _ => rfl
end

/-- **An evaluation that ends gives what `eval` gives** within the calls that are left. -/
theorem Yields.runIn_eval {depth : Nat} {frame : FrameId} {e : Expr} {w w' : World} {a : Except Diagnostic Value}
    (h : Yields limit depth frame e w a w') : (e.eval (limit - depth) frame).runIn w = (a, w') := h.runIn_evalWith

end Expr

end Treewalk
