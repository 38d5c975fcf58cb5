/-
Why the reader refuses a token, and where.

A refusal stands at the place of the refused token, and its cause is an objection to that token (`Objection`): the
token is not what must stand there, it repeats a parameter, it ends the input inside a block, or it is a number whose
text is no numeral. This holds of one step (`step_objects`), of the end (`finish_objects`) and so of a whole run
(`exists_objection`).
-/
import Treewalk.Proofs.Reader.Steps

namespace Treewalk

namespace Reader

/-- what the reader can have against a token -/
inductive Objection (t : Token) : Cause → Prop where
  | expected (what : Expectation) : Objection t (.expected what (found t))
  | statement : Objection t (.expectedStatement (found t))
  | expression : Objection t (.expectedExpression (found t))
  | binding (name : Bytes) : Objection t (.expectedBinding name)
  | duplicate (function : Bytes) : Objection t (.duplicateParameter t.text function)
  | unterminated : Objection t .unterminatedBlock
  | numeral (hk : t.kind = .number) (hr : Numeral.read? t.text = none) : Objection t (.invalidNumeral t.text)

variable {s : State} {t : Token} {d : Diagnostic} {L : List OpenLoop} {D : List Stmt} {goal : Goal} {p : List Pending}
  {e : Expr}

/-- if it fails, then with an objection to the token, at the token's place -/
def Objects {α : Type} (t : Token) (r : Except Diagnostic α) : Prop :=
  ∀ d, r = .error d → d.location = t.location ∧ Objection t d.cause

@[simp] theorem objects_ok {α : Type} (a : α) : Objects t (.ok a : Except Diagnostic α) := by
  rintro d ⟨⟩

theorem objects_refuse {α : Type} {c : Cause} (h : Objection t c) :
    Objects t (refuse t c : Except Diagnostic α) := by
  rintro d ⟨⟩
  exact ⟨rfl, h⟩

@[simp] theorem objects_refuseAs {α : Type} (what : Expectation) :
    Objects t (refuseAs t what : Except Diagnostic α) :=
  objects_refuse (.expected what)

theorem startStatement_objects (t : Token) : Objects t (State.startStatement L D t) := by
  unfold State.startStatement
  split
  case h_6 =>
    cases L with
    | nil => exact objects_refuse .statement
    | cons l L => exact objects_ok _
  case h_7 => exact objects_refuse .statement
  all_goals exact objects_ok _

theorem startOperand_objects (s : State) (t : Token) : Objects t (s.startOperand goal p t) := by
  simp only [State.startOperand]
  split
  case h_3 hk =>
    cases hr : Numeral.read? t.text with
    | some x => exact objects_ok _
    | none => exact objects_refuse (.numeral hk hr)
  case h_10 => exact objects_refuse .expression
  all_goals exact objects_ok _

theorem close_objects (s : State) (t : Token) : Objects t (s.close goal p e t) := by
  simp only [State.close]
  split
  case h_6 =>
    cases goal with
    | statement form => exact startStatement_objects t
    | condition keyword => split_ifs <;> simp
  all_goals split_ifs <;> simp

theorem afterOperand_objects (s : State) (t : Token) : Objects t (s.afterOperand goal p e t) := by
  simp only [State.afterOperand]
  split
  case h_4 =>
    cases level? t.kind with
    | some level => exact objects_ok _
    | none => exact close_objects s t
  all_goals exact objects_ok _

/-- **One step.** -/
theorem step_objects (s : State) (t : Token) : Objects t (s.step t) := by
  simp only [State.step]
  split
  case h_1 => exact startStatement_objects t
  case h_2 name _ =>
    split_ifs
    · exact objects_ok _
    · exact objects_ok _
    · exact objects_refuse (.binding name.text)
  case h_6 name ps _ =>
    split_ifs
    · exact objects_refuse (.duplicate name.text)
    · exact objects_ok _
    · exact objects_refuseAs _
  case h_9 => exact startOperand_objects s t
  case h_10 =>
    split_ifs
    · exact objects_ok _
    · exact afterOperand_objects s t
  case h_11 => exact afterOperand_objects s t
  all_goals split_ifs <;> simp

theorem finish_objects (s : State) (t : Token) : Objects t (s.finish t) := by
  simp only [State.finish]
  split
  · split_ifs
    · exact objects_ok _
    · exact objects_refuse .unterminated
  · have hstep := step_objects s.settle t
    cases h : s.settle.step t with
    | ok s' => exact objects_ok _
    | error d =>
      rintro d ⟨⟩
      exact hstep d h

/-- **A whole run.** It takes some tokens and fails by an objection to the next one, whatever follows that. -/
theorem exists_objection {ts : List Token} (h : s.run ts = .error d) :
    ∃ us t s', us ++ [t] <+: ts ++ [endToken] ∧ (∀ u ∈ us, u.kind ≠ .endOfInput) ∧ s.stepAll us = .ok s' ∧
      (d.location = t.location ∧ Objection t d.cause) ∧ ∀ vs, s.run (us ++ t :: vs) = .error d := by
  induction ts generalizing s with
  | nil => exact ⟨[], endToken, s, List.prefix_rfl, by simp, rfl, finish_objects s endToken d h, fun vs => h⟩
  | cons t ts ih =>
    rw [State.run] at h
    by_cases ht : t.kind = .endOfInput
    · rw [if_pos ht] at h
      refine ⟨[], t, s, by simp, by simp, rfl, finish_objects s t d h, fun vs => ?_⟩
      rw [List.nil_append, State.run, if_pos ht, h]
    · rw [if_neg ht] at h
      cases hs : s.step t with
      | error d' =>
        rw [hs] at h
        cases h
        refine ⟨[], t, s, by simp, by simp, rfl, step_objects s t d hs, fun vs => ?_⟩
        rw [List.nil_append, State.run, if_neg ht, hs]
      | ok s₁ =>
        rw [hs] at h
        obtain ⟨us, u, s', hprefix, hus, hstep, hobjection, hrun⟩ := ih h
        refine ⟨t :: us, u, s', ?_, List.forall_mem_cons.2 ⟨ht, hus⟩, ?_, hobjection, fun vs => ?_⟩
        · exact List.cons_prefix_cons.2 ⟨rfl, hprefix⟩
        · rw [State.stepAll_cons_ok hs, hstep]
        · rw [List.cons_append, State.run, if_neg ht, hs]
          exact hrun vs

end Reader

end Treewalk
