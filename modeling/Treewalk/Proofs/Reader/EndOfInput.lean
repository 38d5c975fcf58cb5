/-
The end of input, with and without a token for it.

No step takes an end token: in every state the reader refuses it for a reason that does not depend on the token
(`refusesEnd_step`). So the reader ends alike on all end tokens, with one program or with one cause (`finish_cases`),
and it makes no difference to a list of tokens whether such a token closes it, but for the place of a failure at the end
(`Block.end_token_changes_nothing`).
-/
import Treewalk.Proofs.Reader.Completion

namespace Treewalk

namespace Reader

/-- an end token is refused, for one and the same reason wherever it stands -/
def RefusesEnd {α : Type} (f : Token → Except Diagnostic α) : Prop :=
  ∃ c, ∀ t, t.kind = .endOfInput → f t = refuse t c

theorem found_end {t : Token} (ht : t.kind = .endOfInput) : found t = .endOfInput := if_pos ht

theorem RefusesEnd.expected {α : Type} {f : Token → Except Diagnostic α} (what : Expectation)
    (h : ∀ t, t.kind = .endOfInput → f t = refuseAs t what) : RefusesEnd f := by
  refine ⟨.expected what .endOfInput, fun t ht => ?_⟩
  rw [h t ht, refuseAs, found_end ht]

theorem refusesEnd_startStatement (L : List OpenLoop) (D : List Stmt) : RefusesEnd (State.startStatement L D) :=
  ⟨.expectedStatement .endOfInput, fun t ht => by simp [State.startStatement, ht, found_end ht]⟩

theorem refusesEnd_startOperand (s : State) (goal : Goal) (p : List Pending) : RefusesEnd (s.startOperand goal p) :=
  ⟨.expectedExpression .endOfInput, fun t ht => by simp [State.startOperand, ht, found_end ht]⟩

/-- a construct waits for a token of its own, and an expression with nothing around it for what follows it -/
theorem refusesEnd_close (s : State) (goal : Goal) (p : List Pending) (e : Expr) : RefusesEnd (s.close goal p e) := by
  have hnil : RefusesEnd (s.close goal [] e) := by
    cases goal with
    | statement form => exact refusesEnd_startStatement s.loops (form.stmt e :: s.done)
    | condition keyword => exact .expected .openBlock fun t ht => by simp [State.close, ht]
  cases p with
  | nil => exact hnil
  | cons x p =>
    cases x with
    | unary op => exact hnil
    | binary l op => exact hnil
    | no c mark y => exact hnil
    | yes c mark => exact .expected .alternative fun t ht => by simp [State.close, ht]
    | group => exact .expected .closeGroup fun t ht => by simp [State.close, ht]
    | arguments callee done => exact .expected .closeArguments fun t ht => by simp [State.close, ht]
    | items bracket done => exact .expected .closeArray fun t ht => by simp [State.close, ht]
    | index a bracket => exact .expected .closeSubscript fun t ht => by simp [State.close, ht]

theorem refusesEnd_afterOperand (s : State) (goal : Goal) (p : List Pending) (e : Expr) :
    RefusesEnd (s.afterOperand goal p e) := by
  obtain ⟨c, hc⟩ := refusesEnd_close s goal (reduceAll p e).1 (reduceAll p e).2
  refine ⟨c, fun t ht => ?_⟩
  have hg : Grammar.grip t.kind = 0 := by rw [ht]; rfl
  rw [afterOperand_eq s t (by omega), if_neg (by omega), if_neg (by omega), hc t ht]

/-- **No step takes an end token.** -/
theorem refusesEnd_step (s : State) : RefusesEnd s.step := by
  obtain ⟨L, D, phase⟩ := s
  cases phase with
  | statement => exact refusesEnd_startStatement L D
  | binding name => exact ⟨.expectedBinding name.text, fun t ht => by simp [State.step, ht]⟩
  | functionName => exact .expected .functionName fun t ht => by simp [State.step, ht]
  | openParameters name => exact .expected .openParameters fun t ht => by simp [State.step, ht]
  | firstParameter name => exact .expected .parameter fun t ht => by simp [State.step, ht]
  | parameter name ps => exact .expected .parameter fun t ht => by simp [State.step, ht]
  | afterParameter name ps => exact .expected .closeParameters fun t ht => by simp [State.step, ht]
  | functionBody name ps => exact .expected .functionBody fun t ht => by simp [State.step, ht]
  | operand goal p => exact refusesEnd_startOperand _ goal p
  | callee goal p name =>
    obtain ⟨c, hc⟩ := refusesEnd_afterOperand ⟨L, D, .callee goal p name⟩ goal p (.variable name name.text)
    exact ⟨c, fun t ht => by simpa [State.step, ht] using hc t ht⟩
  | operator goal p e => exact refusesEnd_afterOperand _ goal p e

/-- every end token gives the same program, or is refused for the same reason -/
theorem finish_cases (s : State) : (∃ b, ∀ t, t.kind = .endOfInput → s.finish t = .ok b) ∨ RefusesEnd s.finish := by
  obtain ⟨c, hc⟩ := refusesEnd_step s.settle
  rcases hs : s.settle with ⟨L, D, phase⟩
  rw [hs] at hc
  cases phase with
  | statement =>
    cases L with
    | nil => exact .inl ⟨D.reverse, fun t _ => by simp [State.finish, hs]⟩
    | cons l L => exact .inr ⟨.unterminatedBlock, fun t _ => by simp [State.finish, hs]⟩
  | _ => exact .inr ⟨c, fun t ht => by simp [State.finish, hs, hc t ht, refuse]⟩

end Reader

/-- **An end token changes nothing.** Nothing behind the first end token is looked at. With an end token and without
one, tokens are read as the same program; or one of them is refused, whatever follows it; or they are refused for the
same reason at the end, where a program could still go on: at the end token, or else at `<eof>:0:0`. -/
theorem Block.end_token_changes_nothing {ts : List Token} {e : Token} (hts : ∀ t ∈ ts, t.kind ≠ .endOfInput)
    (he : e.kind = .endOfInput) :
    (∀ rest, Block.parse (ts ++ [e] ++ rest) = Block.parse (ts ++ [e])) ∧
      ((∃ b, Block.parse ts = .ok b ∧ Block.parse (ts ++ [e]) = .ok b) ∨
        (∃ d, Block.parse ts = .error d ∧ Block.parse (ts ++ [e]) = .error d ∧
          ∃ us t, us ++ [t] <+: ts ∧ d.location = t.location ∧ ∀ vs, Block.parse (us ++ t :: vs) = .error d) ∨
        ∃ c, Block.parse ts = .error ⟨c, Reader.endToken.location⟩ ∧ Block.parse (ts ++ [e]) = .error ⟨c, e.location⟩ ∧
          ∃ us b, Block.parse (ts ++ us) = .ok b) ∧
      Reader.endToken.location.text = bytes "<eof>:0:0" := by
  have hrun : ∀ us, Block.parse (ts ++ us) = (Reader.State.initial.stepAll ts).bind fun s => s.run us :=
    fun us => Reader.State.initial.run_append hts
  have hrun₀ := hrun []
  rw [List.append_nil] at hrun₀
  have hend : ∀ (s : Reader.State) us, s.run (e :: us) = s.finish e := fun s us => by rw [Reader.State.run, if_pos he]
  refine ⟨fun rest => ?_, ?_, by decide⟩
  · simp only [List.append_assoc, List.singleton_append, hrun, hend]
  · cases hs : Reader.State.initial.stepAll ts with
    | error d =>
      -- a token of the list is refused
      simp only [hs] at hrun hrun₀
      refine .inr (.inl ⟨d, hrun₀, hrun [e], ?_⟩)
      obtain ⟨us, t, s, hprefix, -, hus, ⟨hlocation, -⟩, hrefused⟩ := Reader.exists_objection hrun₀
      rcases List.prefix_concat_iff.1 hprefix with heq | hprefix
      · obtain ⟨rfl, -⟩ := List.append_inj' heq rfl
        rw [hs] at hus
        cases hus
      · exact ⟨us, t, hprefix, hlocation, hrefused⟩
    | ok s =>
      simp only [hs] at hrun hrun₀
      have hrun₁ : Block.parse (ts ++ [e]) = s.finish e := (hrun [e]).trans (hend s [])
      rcases Reader.finish_cases s with ⟨b, hb⟩ | ⟨c, hc⟩
      · exact .inl ⟨b, hrun₀.trans (hb Reader.endToken rfl), hrun₁.trans (hb e he)⟩
      · obtain ⟨us, b, hb⟩ := Reader.completable s
        exact .inr (.inr ⟨c, hrun₀.trans (hc Reader.endToken rfl), hrun₁.trans (hc e he), us, b, (hrun us).trans hb⟩)

/-- In `print (x` the parenthesis is open at the end, and one behind the end token does not close it. -/
theorem Block.end_token_changes_nothing_open :
    let ts := [Reader.sample .print "print", Reader.sample .openParen "(", Reader.sample .identifier "x"]
    let e : Token := ⟨.endOfInput, [], ⟨bytes "open", 1, 9, 0, none⟩⟩
    (∀ t ∈ ts, t.kind ≠ .endOfInput) ∧ e.kind = .endOfInput ∧
      Block.parse (ts ++ [e] ++ [Reader.sample .closeParen ")"]) = Block.parse (ts ++ [e]) ∧
      ∃ c, Block.parse ts = .error ⟨c, Reader.endToken.location⟩ ∧ Block.parse (ts ++ [e]) = .error ⟨c, e.location⟩ ∧
        ∃ us b, Block.parse (ts ++ us) = .ok b := by
  intro ts e
  have hts : ∀ t ∈ ts, t.kind ≠ .endOfInput := by decide
  have hparse : Block.parse ts = .error ⟨.expected .closeGroup .endOfInput, Reader.endToken.location⟩ := rfl
  have hparse₁ : Block.parse (ts ++ [e]) = .error ⟨.expected .closeGroup .endOfInput, e.location⟩ := rfl
  obtain ⟨hrest, hcases, -⟩ := Block.end_token_changes_nothing hts (e := e) rfl
  refine ⟨hts, rfl, hrest _, ?_⟩
  rcases hcases with ⟨b, hb, -⟩ | ⟨d, hd, hd₁, -⟩ | hc
  · rw [hparse] at hb
    cases hb
  · -- the two failures stand at different places
    rw [hparse] at hd
    rw [hparse₁, ← hd] at hd₁
    exact absurd (congrArg (·.location.line) (Except.error.inj hd₁)) (by decide)
  · exact hc

end Treewalk
