/-
Runs of the reader, and when two of its states cannot be told apart.

`stepAll` takes tokens none of which is looked at as the end of input; a whole run is `stepAll` up to the end of
input, then `finish` (`run_eq_finish`). `Acts n s s'` says that `s` does what `s'` does on every token whose grip is
at most `n` and at the end of input. A state in the middle of operators acts like one in which they have been put
together, as long as no token comes that binds tighter: this is what lets the reader wait with every operand until it
sees the next token.
-/
import Mathlib.Tactic
import Treewalk.Proofs.Grammar.Unambiguous
import Treewalk.Tree.Reader

namespace Treewalk

open Grammar (grip)

/-- the tokens before the first end of input -/
def Token.beforeEnd (ts : List Token) : List Token := ts.takeWhile (·.kind ≠ .endOfInput)

namespace Reader

/-- the token that ends a list: its first end of input, or the one that stands for it -/
def endOf (ts : List Token) : Token := (ts.find? (·.kind = .endOfInput)).getD endToken

theorem kind_endOf (ts : List Token) : (endOf ts).kind = .endOfInput := by
  unfold endOf
  cases h : ts.find? (·.kind = .endOfInput) with
  | none => rfl
  | some t => simpa using List.find?_some h

namespace State

/-- one token after another -/
def stepAll (s : State) (ts : List Token) : Except Diagnostic State := ts.foldlM step s

@[simp] theorem stepAll_nil (s : State) : s.stepAll [] = .ok s := rfl

theorem stepAll_cons (s : State) (t : Token) (ts : List Token) :
    s.stepAll (t :: ts) = (s.step t).bind fun s' => s'.stepAll ts := by
  simp [stepAll, List.foldlM_cons, bind]

theorem stepAll_append (s : State) (ts us : List Token) :
    s.stepAll (ts ++ us) = (s.stepAll ts).bind fun s' => s'.stepAll us := by
  simp [stepAll, List.foldlM_append, bind]

theorem stepAll_cons_ok {s s' : State} {t : Token} (h : s.step t = .ok s') (ts : List Token) :
    s.stepAll (t :: ts) = s'.stepAll ts := by
  rw [stepAll_cons, h]; rfl

theorem exists_step_of_stepAll_cons {s s' : State} {t : Token} {ts : List Token} (h : s.stepAll (t :: ts) = .ok s') :
    ∃ s₁, s.step t = .ok s₁ ∧ s₁.stepAll ts = .ok s' := by
  rw [stepAll_cons] at h
  cases hs : s.step t with
  | error d => rw [hs] at h; cases h
  | ok s₁ => exact ⟨s₁, rfl, by rwa [hs] at h⟩

theorem stepAll_append_ok {s s' : State} {ts : List Token} (h : s.stepAll ts = .ok s') (us : List Token) :
    s.stepAll (ts ++ us) = s'.stepAll us := by
  rw [stepAll_append, h]; rfl

/-- tokens none of which ends the input are taken one after another, whatever follows them -/
theorem run_append (s : State) {ts us : List Token} (hts : ∀ t ∈ ts, t.kind ≠ .endOfInput) :
    s.run (ts ++ us) = (s.stepAll ts).bind fun s' => s'.run us := by
  induction ts generalizing s with
  | nil => rfl
  | cons t ts ih =>
    obtain ⟨ht, hts⟩ := List.forall_mem_cons.1 hts
    rw [List.cons_append, run, if_neg ht, stepAll_cons]
    cases s.step t with
    | ok s' => exact ih s' hts
    | error d => rfl

/-- a run takes the tokens before the end of input one after another, and then ends -/
theorem run_eq_finish (s : State) (ts : List Token) :
    s.run ts = (s.stepAll (Token.beforeEnd ts)).bind fun s' => s'.finish (endOf ts) := by
  induction ts generalizing s with
  | nil => rfl
  | cons t ts ih =>
    rw [run]
    split_ifs with h
    · simp [Token.beforeEnd, endOf, h, Except.bind]
    · have hb : Token.beforeEnd (t :: ts) = t :: Token.beforeEnd ts := by simp [Token.beforeEnd, h]
      have he : endOf (t :: ts) = endOf ts := by simp [endOf, h]
      rw [hb, he, stepAll_cons]
      cases s.step t with
      | ok s' => exact ih s'
      | error d => rfl

end State

/-! ## States that act alike -/

theorem level?_eq (k : Kind) : level? k = if 2 ≤ grip k ∧ grip k ≤ 8 then some (grip k - 1) else none := by
  cases k <;> rfl

theorem level?_of_mem {l : Grammar.Level} {k : Kind} (h : k ∈ l.operators) : level? k = some l.number := by
  rw [level?_eq, Grammar.Level.grip_of_mem h, if_pos (by cases l <;> decide), Nat.add_sub_cancel]

/-- `s` does what `s'` does, on tokens whose grip is at most `n` and at the end of input -/
structure Acts (n : Nat) (s s' : State) : Prop where
  step : ∀ t, grip t.kind ≤ n → s.step t = s'.step t
  finish : ∀ t, t.kind = .endOfInput → s.finish t = s'.finish t

namespace Acts

theorem refl (n : Nat) (s : State) : Acts n s s := ⟨fun _ _ => rfl, fun _ _ => rfl⟩

theorem trans {n : Nat} {s s' s'' : State} (h : Acts n s s') (h' : Acts n s' s'') : Acts n s s'' :=
  ⟨fun t ht => (h.step t ht).trans (h'.step t ht), fun t ht => (h.finish t ht).trans (h'.finish t ht)⟩

theorem mono {m n : Nat} {s s' : State} (h : Acts n s s') (hmn : m ≤ n) : Acts m s s' :=
  ⟨fun t ht => h.step t (ht.trans hmn), h.finish⟩

end Acts

/-! ## Putting operators together -/

variable {L : List OpenLoop} {D : List Stmt} {goal : Goal} {p p' : List Pending} {e e' : Expr}

/-- a token that neither subscripts nor raises the operand first puts pending operators together -/
theorem afterOperand_eq (s : State) (t : Token) (h : grip t.kind ≤ 7) :
    s.afterOperand goal p e t =
      if grip t.kind = 1 then
        let (q, c) := reduce 0 p e
        .ok ⟨s.loops, s.done, .operand goal (.yes c t :: q)⟩
      else if 2 ≤ grip t.kind then
        let (q, l) := reduce (grip t.kind - 1) p e
        .ok ⟨s.loops, s.done, .operand goal (.binary l t :: q)⟩
      else s.close goal (reduceAll p e).1 (reduceAll p e).2 t := by
  obtain ⟨k, text, location⟩ := t
  cases k <;> first | rfl | simp [grip] at h

/-- at the end of input only what all pending operators make together counts -/
theorem finish_operator {t : Token} (ht : t.kind = .endOfInput) (h : reduceAll p e = reduceAll p' e') :
    (⟨L, D, .operator goal p e⟩ : State).finish t = (⟨L, D, .operator goal p' e'⟩ : State).finish t := by
  have hstep : (⟨L, D, .operator goal p e⟩ : State).step t = (⟨L, D, .operator goal p' e'⟩ : State).step t := by
    have hg : grip t.kind ≤ 7 := by rw [ht]; decide
    show State.afterOperand _ _ _ _ _ = State.afterOperand _ _ _ _ _
    rw [afterOperand_eq _ t hg, afterOperand_eq _ t hg, ht, h]
    rfl
  cases goal with
  | condition keyword => simp only [State.finish, State.settle, hstep]
  | statement form =>
    rcases hq : reduceAll p' e' with ⟨_ | ⟨x, q⟩, e''⟩
    · simp only [State.finish, State.settle, h, hq]
    · simp only [State.finish, State.settle, h, hq, hstep]

/-- the innermost pending construct is no operator that binds as tightly as `n` -/
def Looser (n : Nat) : List Pending → Prop
  | .unary _ :: _ => False
  | .binary _ op :: _ => (level? op.kind).getD 0 < n
  | _ => True

theorem Looser.mono {m n : Nat} (h : Looser m p) (hmn : m ≤ n) : Looser n p := by
  unfold Looser at h ⊢
  split at h
  · exact h
  · exact h.trans_le hmn
  · trivial

theorem reduce_of_looser {n : Nat} (h : Looser n p) : reduce n p e = (p, e) := by
  unfold Looser at h
  split at h
  · exact h.elim
  · rw [reduce, if_neg (by omega)]
  · rename_i hu hb
    rw [reduce]
    · exact hu
    · exact hb

/-- a name that no parenthesis follows is a variable -/
theorem acts_callee (name : Token) :
    Acts 9 ⟨L, D, .callee goal p name⟩ ⟨L, D, .operator goal p (.variable name name.text)⟩ := by
  have hstep : ∀ t, grip t.kind ≤ 9 → (⟨L, D, .callee goal p name⟩ : State).step t =
      (⟨L, D, .operator goal p (.variable name name.text)⟩ : State).step t := by
    intro t ht
    have hk : t.kind ≠ .openParen := by rintro hk; rw [hk] at ht; exact absurd ht (by decide)
    simp only [State.step, hk, if_false]
    rfl
  refine ⟨hstep, fun t ht => ?_⟩
  have hs := hstep t (by rw [ht]; decide)
  cases goal with
  | condition keyword => simp only [State.finish, State.settle, hs]
  | statement form =>
    rcases hq : reduceAll p (.variable name name.text) with ⟨_ | ⟨x, q⟩, e''⟩
    · simp only [State.finish, State.settle, hq]
    · simp only [State.finish, State.settle, hq, hs]

theorem acts_unary (op : Token) :
    Acts 7 ⟨L, D, .operator goal (.unary op :: p) e⟩ ⟨L, D, .operator goal p (.unary op op.text e)⟩ := by
  refine ⟨fun t ht => ?_, fun t ht => finish_operator ht rfl⟩
  show State.afterOperand _ _ _ _ _ = State.afterOperand _ _ _ _ _
  rw [afterOperand_eq _ t ht, afterOperand_eq _ t ht]
  rfl

/-- an infix operator is put together with its operands when the next one binds no tighter -/
theorem acts_binary {n m : Nat} (op : Token) (hop : level? op.kind = some m) (hn : n ≤ m + 1) (hn' : n ≤ 7) :
    Acts n ⟨L, D, .operator goal (.binary e op :: p) e'⟩ ⟨L, D, .operator goal p (.binary op op.text e e')⟩ := by
  refine ⟨fun t ht => ?_, fun t ht => finish_operator ht rfl⟩
  have hr : ∀ k ≤ m, reduce k (.binary e op :: p) e' = reduce k p (.binary op op.text e e') := by
    intro k hk
    rw [reduce, hop, Option.getD_some, if_pos hk]
  show State.afterOperand _ _ _ _ _ = State.afterOperand _ _ _ _ _
  rw [afterOperand_eq _ t (by omega), afterOperand_eq _ t (by omega), hr 0 (by omega), hr (grip t.kind - 1) (by omega)]
  rfl

/-- a conditional is put together when nothing goes on with its last part -/
theorem acts_no (test yes : Expr) (mark : Token) :
    Acts 0 ⟨L, D, .operator goal (.no test mark yes :: p) e⟩
      ⟨L, D, .operator goal p (.conditional mark test yes e)⟩ := by
  refine ⟨fun t ht => ?_, fun t ht => finish_operator ht rfl⟩
  show State.afterOperand _ _ _ _ _ = State.afterOperand _ _ _ _ _
  rw [afterOperand_eq _ t (by omega), afterOperand_eq _ t (by omega), if_neg (by omega), if_neg (by omega),
    if_neg (by omega), if_neg (by omega)]
  rfl

/-- a statement whose expression is complete is done -/
theorem acts_statement (form : Form) :
    Acts 0 ⟨L, D, .operator (.statement form) [] e⟩ ⟨L, form.stmt e :: D, .statement⟩ := by
  refine ⟨fun t ht => ?_, fun t _ => rfl⟩
  show State.afterOperand _ _ _ _ _ = _
  rw [afterOperand_eq _ t (by omega), if_neg (by omega), if_neg (by omega)]
  rfl

end Reader

end Treewalk
