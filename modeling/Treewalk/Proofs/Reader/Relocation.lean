/-
Tokens at other places.

A map of locations moves every token of a tree, of a diagnostic and of a state of the reader. The reader looks at kinds
and texts only, so it commutes with such a map: step by step (`State.step_relocate`), hence in a whole run
(`State.run_relocate`). Reading tokens that have been moved gives what has been read, moved, or the same refusal at the
place where its token has been moved to (`Block.parse_relocate`).
-/
import Treewalk.Tree.Reader

namespace Treewalk

variable (f : Location → Location)

/-! ## Moving -/

def Token.relocate (t : Token) : Token := { t with location := f t.location }

def Diagnostic.relocate (d : Diagnostic) : Diagnostic := { d with location := f d.location }

mutual
@[simp] def Expr.relocate : Expr → Expr
  | .numeral t x => .numeral (t.relocate f) x
  | .boolean t b => .boolean (t.relocate f) b
  | .variable t x => .variable (t.relocate f) x
  | .unary t op e => .unary (t.relocate f) op e.relocate
  | .binary t op l r => .binary (t.relocate f) op l.relocate r.relocate
  | .conditional t c y n => .conditional (t.relocate f) c.relocate y.relocate n.relocate
  | .call t callee args => .call (t.relocate f) callee (Expr.relocateAll args)
  | .array t items => .array (t.relocate f) (Expr.relocateAll items)
  | .subscript t a i => .subscript (t.relocate f) a.relocate i.relocate
  | .missing => .missing

@[simp] def Expr.relocateAll : List Expr → List Expr
  | [] => []
  | e :: es => e.relocate :: Expr.relocateAll es
end

mutual
@[simp] def Stmt.relocate : Stmt → Stmt
  | .declare t x e => .declare (t.relocate f) x (e.relocate f)
  | .assign t x e => .assign (t.relocate f) x (e.relocate f)
  | .print t e => .print (t.relocate f) (e.relocate f)
  | .loop t c body => .loop (t.relocate f) (c.relocate f) (Stmt.relocateAll body)
  | .function t name ps e => .function (t.relocate f) name ps (e.relocate f)
  | .missing => .missing

@[simp] def Stmt.relocateAll : List Stmt → List Stmt
  | [] => []
  | s :: ss => s.relocate :: Stmt.relocateAll ss
end

/-- a program with its tokens moved -/
def Block.relocate (b : Block) : Block := Stmt.relocateAll f b

theorem Expr.relocateAll_eq_map (es : List Expr) : relocateAll f es = es.map (relocate f) := by
  induction es with
  | nil => rfl
  | cons e es ih => rw [relocateAll, ih, List.map_cons]

theorem Stmt.relocateAll_eq_map (ss : List Stmt) : relocateAll f ss = ss.map (relocate f) := by
  induction ss with
  | nil => rfl
  | cons s ss ih => rw [relocateAll, ih, List.map_cons]

section Twice

variable (g : Location → Location)

mutual
theorem Expr.relocate_relocate : (e : Expr) → (e.relocate f).relocate g = e.relocate (g ∘ f)
  | .numeral _ _ | .boolean _ _ | .variable _ _ | .missing => rfl
  | .unary _ _ e => by simp [relocate_relocate e, Token.relocate]
  | .binary _ _ l r => by simp [relocate_relocate l, relocate_relocate r, Token.relocate]
  | .conditional _ c y n => by simp [relocate_relocate c, relocate_relocate y, relocate_relocate n, Token.relocate]
  | .call _ _ args => by simp [relocateAll_relocateAll args, Token.relocate]
  | .array _ items => by simp [relocateAll_relocateAll items, Token.relocate]
  | .subscript _ a i => by simp [relocate_relocate a, relocate_relocate i, Token.relocate]

theorem Expr.relocateAll_relocateAll : (es : List Expr) → relocateAll g (relocateAll f es) = relocateAll (g ∘ f) es
  | [] => rfl
  | e :: es => by simp [relocate_relocate e, relocateAll_relocateAll es]
end

mutual
theorem Stmt.relocate_relocate : (s : Stmt) → (s.relocate f).relocate g = s.relocate (g ∘ f)
  | .missing => rfl
  | .declare _ _ _ | .assign _ _ _ | .print _ _ | .function _ _ _ _ => by simp [Expr.relocate_relocate, Token.relocate]
  | .loop _ _ body => by simp [Expr.relocate_relocate, relocateAll_relocateAll body, Token.relocate]

theorem Stmt.relocateAll_relocateAll : (ss : List Stmt) → relocateAll g (relocateAll f ss) = relocateAll (g ∘ f) ss
  | [] => rfl
  | s :: ss => by simp [relocate_relocate s, relocateAll_relocateAll ss]
end

theorem Block.relocate_relocate (b : Block) : (b.relocate f).relocate g = b.relocate (g ∘ f) :=
  Stmt.relocateAll_relocateAll f g b

end Twice

namespace Reader

@[simp] def Pending.relocate : Pending → Pending
  | .unary op => .unary (op.relocate f)
  | .binary l op => .binary (l.relocate f) (op.relocate f)
  | .yes c mark => .yes (c.relocate f) (mark.relocate f)
  | .no c mark y => .no (c.relocate f) (mark.relocate f) (y.relocate f)
  | .group => .group
  | .arguments callee done => .arguments (callee.relocate f) (done.map (Expr.relocate f))
  | .items bracket done => .items (bracket.relocate f) (done.map (Expr.relocate f))
  | .index a bracket => .index (a.relocate f) (bracket.relocate f)

@[simp] def Form.relocate : Form → Form
  | .declare name => .declare (name.relocate f)
  | .assign name => .assign (name.relocate f)
  | .print keyword => .print (keyword.relocate f)
  | .function name ps => .function (name.relocate f) ps

@[simp] def Goal.relocate : Goal → Goal
  | .statement form => .statement (form.relocate f)
  | .condition keyword => .condition (keyword.relocate f)

def OpenLoop.relocate (l : OpenLoop) : OpenLoop :=
  ⟨l.keyword.relocate f, l.condition.relocate f, l.before.map (Stmt.relocate f)⟩

@[simp] def Phase.relocate : Phase → Phase
  | .statement => .statement
  | .binding name => .binding (name.relocate f)
  | .functionName => .functionName
  | .openParameters name => .openParameters (name.relocate f)
  | .firstParameter name => .firstParameter (name.relocate f)
  | .parameter name ps => .parameter (name.relocate f) ps
  | .afterParameter name ps => .afterParameter (name.relocate f) ps
  | .functionBody name ps => .functionBody (name.relocate f) ps
  | .operand goal p => .operand (goal.relocate f) (p.map (Pending.relocate f))
  | .callee goal p name => .callee (goal.relocate f) (p.map (Pending.relocate f)) (name.relocate f)
  | .operator goal p e => .operator (goal.relocate f) (p.map (Pending.relocate f)) (e.relocate f)

def State.relocate (s : State) : State :=
  ⟨s.loops.map (OpenLoop.relocate f), s.done.map (Stmt.relocate f), s.phase.relocate f⟩

/-- a result with its tokens moved, or its failure moved -/
def relocated {α : Type} (g : α → α) : Except Diagnostic α → Except Diagnostic α
  | .ok a => .ok (g a)
  | .error d => .error (d.relocate f)

/-! ## Reading what has been moved -/

variable {f}

theorem relocated_ite {α : Type} {g : α → α} {c : Prop} [Decidable c] (x y : Except Diagnostic α) :
    relocated f g (if c then x else y) = if c then relocated f g x else relocated f g y :=
  apply_ite (relocated f g) c x y

theorem stmt_relocate (form : Form) (e : Expr) : (form.relocate f).stmt (e.relocate f) = (form.stmt e).relocate f := by
  cases form <;> rfl

theorem reduce_relocate (level : Nat) (p : List Pending) (e : Expr) :
    reduce level (p.map (Pending.relocate f)) (e.relocate f) =
      ((reduce level p e).1.map (Pending.relocate f), (reduce level p e).2.relocate f) := by
  induction p generalizing e with
  | nil => rfl
  | cons x p ih =>
    cases x with
    | unary op => exact ih (.unary op op.text e)
    | binary l op =>
      simp only [List.map_cons, Pending.relocate, reduce]
      by_cases h : level ≤ (level? op.kind).getD 0
      · rw [if_pos h, if_pos (show level ≤ (level? (op.relocate f).kind).getD 0 from h)]
        exact ih (.binary op op.text l e)
      · rw [if_neg h, if_neg (show ¬ level ≤ (level? (op.relocate f).kind).getD 0 from h)]
        rfl
    | _ => rfl

theorem reduceAll_relocate (p : List Pending) (e : Expr) :
    reduceAll (p.map (Pending.relocate f)) (e.relocate f) =
      ((reduceAll p e).1.map (Pending.relocate f), (reduceAll p e).2.relocate f) := by
  induction p generalizing e with
  | nil => rfl
  | cons x p ih =>
    cases x with
    | unary op => exact ih (.unary op op.text e)
    | binary l op => exact ih (.binary op op.text l e)
    | no c mark y => exact ih (.conditional mark c y e)
    | _ => rfl

namespace State

theorem startStatement_relocate (loops : List OpenLoop) (done : List Stmt) (t : Token) :
    startStatement (loops.map (OpenLoop.relocate f)) (done.map (Stmt.relocate f)) (t.relocate f) =
      relocated f (State.relocate f) (startStatement loops done t) := by
  obtain ⟨kind, text, location⟩ := t
  cases kind with
  | closeBrace =>
    cases loops with
    | nil => rfl
    | cons l ls =>
      simp [startStatement, Token.relocate, relocated, State.relocate, OpenLoop.relocate, Stmt.relocateAll_eq_map]
  | _ => rfl

theorem startOperand_relocate (s : State) (goal : Goal) (p : List Pending) (t : Token) :
    (s.relocate f).startOperand (goal.relocate f) (p.map (Pending.relocate f)) (t.relocate f) =
      relocated f (State.relocate f) (s.startOperand goal p t) := by
  obtain ⟨kind, text, location⟩ := t
  cases kind with
  | closeParen =>
    -- it closes arguments of which none has been read yet, and nothing else that is pending
    rcases p with _ | ⟨_ | _ | _ | _ | _ | ⟨callee, _ | ⟨e, done⟩⟩ | _ | _, p⟩ <;> rfl
  | closeBracket =>
    rcases p with _ | ⟨_ | _ | _ | _ | _ | _ | ⟨bracket, _ | ⟨e, done⟩⟩ | _, p⟩ <;> rfl
  | number =>
    simp only [startOperand, Token.relocate]
    cases Numeral.read? text <;> rfl
  | _ => rfl

theorem close_relocate (s : State) (goal : Goal) (p : List Pending) (e : Expr) (t : Token) :
    (s.relocate f).close (goal.relocate f) (p.map (Pending.relocate f)) (e.relocate f) (t.relocate f) =
      relocated f (State.relocate f) (s.close goal p e t) := by
  have hlast : (s.relocate f).close (goal.relocate f) [] (e.relocate f) (t.relocate f) =
      relocated f (State.relocate f) (s.close goal [] e t) := by
    cases goal with
    | statement form =>
      simp only [close, Goal.relocate, stmt_relocate]
      exact startStatement_relocate s.loops (form.stmt e :: s.done) t
    | condition keyword =>
      simp only [close, Goal.relocate, relocated_ite]
      rfl
  cases p with
  | nil => exact hlast
  | cons x p =>
    cases x with
    | yes c mark =>
      simp only [close, List.map_cons, Pending.relocate, relocated_ite]
      rfl
    | group =>
      simp only [close, List.map_cons, Pending.relocate, relocated_ite]
      rfl
    | arguments callee done =>
      have hcall : (Expr.call callee callee.text (e :: done).reverse).relocate f =
          .call (callee.relocate f) callee.text (e.relocate f :: done.map (Expr.relocate f)).reverse := by
        simp [Expr.relocateAll_eq_map]
      simp only [close, List.map_cons, Pending.relocate, relocated_ite]
      rw [show (callee.relocate f).text = callee.text from rfl, ← hcall]
      rfl
    | items bracket done =>
      have harray : (Expr.array bracket (e :: done).reverse).relocate f =
          .array (bracket.relocate f) (e.relocate f :: done.map (Expr.relocate f)).reverse := by
        simp [Expr.relocateAll_eq_map]
      simp only [close, List.map_cons, Pending.relocate, relocated_ite, ← harray]
      rfl
    | index a bracket =>
      simp only [close, List.map_cons, Pending.relocate, relocated_ite]
      rfl
    | unary op | binary l op | no c mark y => exact hlast

theorem afterOperand_relocate (s : State) (goal : Goal) (p : List Pending) (e : Expr) (t : Token) :
    (s.relocate f).afterOperand (goal.relocate f) (p.map (Pending.relocate f)) (e.relocate f) (t.relocate f) =
      relocated f (State.relocate f) (s.afterOperand goal p e t) := by
  obtain ⟨kind, text, location⟩ := t
  cases kind with
  | openBracket | power => rfl
  | question | or | and | equal | notEqual | less | lessEqual | greater | greaterEqual | plus | minus | star | slash
  | percent =>
    simp only [afterOperand, level?, Token.relocate, reduce_relocate]
    rfl
  | _ =>
    simp only [afterOperand, level?, Token.relocate, reduceAll_relocate]
    exact close_relocate (f := f) s goal _ _ ⟨_, text, location⟩

/-- one token -/
theorem step_relocate (s : State) (t : Token) :
    (s.relocate f).step (t.relocate f) = relocated f (State.relocate f) (s.step t) := by
  obtain ⟨loops, done, phase⟩ := s
  cases phase with
  | statement => exact startStatement_relocate loops done t
  | operand goal p => exact startOperand_relocate ⟨loops, done, .operand goal p⟩ goal p t
  | operator goal p e => exact afterOperand_relocate ⟨loops, done, .operator goal p e⟩ goal p e t
  | callee goal p name =>
    have hvariable :=
      afterOperand_relocate (f := f) ⟨loops, done, .callee goal p name⟩ goal p (.variable name name.text) t
    simp only [step, relocated_ite, ← hvariable]
    rfl
  | _ =>
    simp only [step, relocated_ite]
    rfl

/-- a statement whose expression is complete is put together before the input may end -/
theorem settle_relocate (s : State) : (s.relocate f).settle = s.settle.relocate f := by
  obtain ⟨loops, done, phase⟩ := s
  cases phase with
  | callee goal p name =>
    cases goal with
    | condition keyword => rfl
    | statement form =>
      have hreduce : reduceAll (p.map (Pending.relocate f)) (.variable (name.relocate f) (name.relocate f).text) = _ :=
        reduceAll_relocate p (.variable name name.text)
      simp only [settle, relocate, Phase.relocate, Goal.relocate, hreduce]
      rcases reduceAll p (.variable name name.text) with ⟨_ | ⟨x, q⟩, e⟩
      · simp only [List.map_nil, stmt_relocate, List.map_cons]
      · rfl
  | operator goal p e =>
    cases goal with
    | condition keyword => rfl
    | statement form =>
      simp only [settle, relocate, Phase.relocate, Goal.relocate, reduceAll_relocate]
      rcases reduceAll p e with ⟨_ | ⟨x, q⟩, e⟩
      · simp only [List.map_nil, stmt_relocate, List.map_cons]
      · rfl
  | _ => rfl

theorem finish_relocate (s : State) (t : Token) :
    (s.relocate f).finish (t.relocate f) = relocated f (Block.relocate f) (s.finish t) := by
  have hdone : ∀ s : State, (s.relocate f).done.reverse = Block.relocate f s.done.reverse := by
    intro s
    rw [Block.relocate, Stmt.relocateAll_eq_map, List.map_reverse]
    rfl
  simp only [finish, settle_relocate, step_relocate]
  generalize s.settle = s
  obtain ⟨loops, done, phase⟩ := s
  cases phase with
  | statement =>
    cases loops with
    | nil => exact congrArg Except.ok (hdone _)
    | cons l ls => rfl
  | _ =>
    generalize State.step _ t = r
    cases r with
    | error d => rfl
    | ok s => exact congrArg Except.ok (hdone s)

/-- one token after another; the token that stands for a missing end of input must not be moved -/
theorem run_relocate (s : State) (ts : List Token)
    (hf : (∃ t ∈ ts, t.kind = .endOfInput) ∨ f endToken.location = endToken.location) :
    (s.relocate f).run (ts.map (Token.relocate f)) = relocated f (Block.relocate f) (s.run ts) := by
  induction ts generalizing s with
  | nil =>
    have hend : endToken.relocate f = endToken := by rw [Token.relocate, hf.resolve_left (by simp)]
    rw [List.map_nil, run, run, ← finish_relocate, hend]
  | cons t ts ih =>
    rw [List.map_cons, run, run, step_relocate, relocated_ite, ← finish_relocate]
    by_cases h : t.kind = .endOfInput
    · rw [if_pos h, if_pos (show (t.relocate f).kind = .endOfInput from h)]
    · rw [if_neg h, if_neg (show ¬ (t.relocate f).kind = .endOfInput from h)]
      cases s.step t with
      | ok s' => exact ih s' (hf.imp_left fun hend => by simpa [h] using hend)
      | error d => rfl

end State

end Reader

/-- **Reading commutes with moving.** -/
theorem Block.parse_relocate {f : Location → Location} (hf : f Reader.endToken.location = Reader.endToken.location)
    (ts : List Token) :
    Block.parse (ts.map (Token.relocate f)) = Reader.relocated f (Block.relocate f) (Block.parse ts) :=
  Reader.State.run_relocate .initial ts (.inr hf)

/-- a list with an end of input may be moved anywhere -/
theorem Block.parse_relocate_of_end (f : Location → Location) {ts : List Token}
    (hend : ∃ t ∈ ts, t.kind = .endOfInput) :
    Block.parse (ts.map (Token.relocate f)) = Reader.relocated f (Block.relocate f) (Block.parse ts) :=
  Reader.State.run_relocate .initial ts (.inl hend)

end Treewalk
