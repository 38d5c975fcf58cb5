/-
A program is refused at the first token that no program has there.

The reader stops at the token that it refuses: what it has taken so far can be completed to a program, and with that
token it no longer can (`parse_fails_at_first_offending_token`). For the first half every state of the reader is given
tokens that lead to the end of a program (`completable`): a numeral where an expression must start, the token that
closes the innermost pending construct behind an operand, and a brace for each open loop. Tokens that bind no operand
(`Closable`) put all pending operators together, so only the constructs that wait for a token of their own matter.
-/
import Mathlib.Data.Fintype.EquivFin
import Treewalk.Proofs.Reader.Refusals
import Treewalk.Proofs.Reader.Steps
import Treewalk.Proofs.Token.Cut

namespace Treewalk

namespace Reader

open Grammar (grip)

variable {s s' : State} {t : Token} {d : Diagnostic} {L : List OpenLoop} {D : List Stmt} {goal : Goal}
  {p : List Pending} {e : Expr}

/-! ## Completing a program -/

/-- tokens can follow with which the reader accepts -/
def Completable (s : State) : Prop := ∃ us b, s.run us = .ok b

theorem Completable.of_step (ht : t.kind ≠ .endOfInput) (hs : s.step t = .ok s') (h : Completable s') :
    Completable s := by
  obtain ⟨us, b, hb⟩ := h
  exact ⟨t :: us, b, by rw [State.run, if_neg ht, hs]; exact hb⟩

/-- a token that spells its kind -/
def sample (k : Kind) (text : String) : Token := ⟨k, bytes text, .nowhere⟩

theorem completable_statement (L : List OpenLoop) (D : List Stmt) : Completable ⟨L, D, .statement⟩ := by
  induction L generalizing D with
  | nil => exact ⟨[], D.reverse, rfl⟩
  | cons l L ih => exact .of_step (t := sample .closeBrace "\x7d") (by decide) rfl (ih _)

/-- as `Completable`, by a token first that goes on with no operand -/
def Closable (s : State) : Prop :=
  ∃ t s', t.kind ≠ .endOfInput ∧ grip t.kind = 0 ∧ s.step t = .ok s' ∧ Completable s'

theorem Closable.completable (h : Closable s) : Completable s := by
  obtain ⟨t, s', ht, -, hs, hc⟩ := h
  exact hc.of_step ht hs

/-- a token that goes on with no operand is taken by what is left when all pending operators are put together -/
theorem step_operator (h : grip t.kind = 0) : (⟨L, D, .operator goal p e⟩ : State).step t =
    State.close ⟨L, D, .statement⟩ goal (reduceAll p e).1 (reduceAll p e).2 t := by
  show State.afterOperand _ _ _ _ _ = _
  rw [afterOperand_eq _ t (by omega), if_neg (by omega), if_neg (by omega)]
  rfl

theorem closable_of_step (t : Token) (ht : t.kind ≠ .endOfInput) (hg : grip t.kind = 0)
    (hs : State.close ⟨L, D, .statement⟩ goal (reduceAll p e).1 (reduceAll p e).2 t = .ok s')
    (hc : Completable s') : Closable ⟨L, D, .operator goal p e⟩ :=
  ⟨t, s', ht, hg, by rw [step_operator hg, hs], hc⟩

/-- the state behind an operand can be closed if it can be after putting an operator together -/
theorem Closable.reduce {p' : List Pending} {e' : Expr} (h : Closable ⟨L, D, .operator goal p' e'⟩)
    (heq : reduceAll p e = reduceAll p' e') : Closable ⟨L, D, .operator goal p e⟩ := by
  obtain ⟨t, s', ht, hg, hs, hc⟩ := h
  rw [step_operator hg, ← heq] at hs
  exact closable_of_step t ht hg hs hc

/-- where an expression must start, a numeral can stand -/
theorem completable_operand (h : ∀ e, Closable ⟨L, D, .operator goal p e⟩) : Completable ⟨L, D, .operand goal p⟩ := by
  have hread : Numeral.read? (bytes "0") = some .zero := by decide +kernel
  have hstep : (⟨L, D, .operand goal p⟩ : State).step (sample .number "0") =
      .ok ⟨L, D, .operator goal p (.numeral (sample .number "0") .zero)⟩ := by
    simp [State.step, State.startOperand, sample, hread]
  exact (h _).completable.of_step (by decide) hstep

theorem closable_operator (goal : Goal) (p : List Pending) (e : Expr) : Closable ⟨L, D, .operator goal p e⟩ := by
  induction p generalizing e with
  | nil =>
    cases goal with
    | statement form => exact closable_of_step (sample .semicolon ";") (by decide) rfl rfl (completable_statement _ _)
    | condition keyword =>
      exact closable_of_step (sample .openBrace "\x7b") (by decide) rfl rfl (completable_statement _ _)
  | cons x p ih =>
    cases x with
    | unary op => exact (ih (.unary op op.text e)).reduce rfl
    | binary l op => exact (ih (.binary op op.text l e)).reduce rfl
    | no c mark y => exact (ih (.conditional mark c y e)).reduce rfl
    | yes c mark =>
      have hno : ∀ e', Closable ⟨L, D, .operator goal (.no c mark e :: p) e'⟩ := by
        intro e'
        exact (ih (.conditional mark c e e')).reduce rfl
      exact closable_of_step (sample .colon ":") (by decide) rfl rfl (completable_operand hno)
    | group => exact closable_of_step (sample .closeParen ")") (by decide) rfl rfl (ih _).completable
    | arguments callee done => exact closable_of_step (sample .closeParen ")") (by decide) rfl rfl (ih _).completable
    | items bracket done => exact closable_of_step (sample .closeBracket "]") (by decide) rfl rfl (ih _).completable
    | index a bracket => exact closable_of_step (sample .closeBracket "]") (by decide) rfl rfl (ih _).completable

/-- an expression that ends a statement -/
theorem completable_form (form : Form) : Completable ⟨L, D, .operand (.statement form) []⟩ :=
  completable_operand (closable_operator _ _)

theorem completable_functionBody (name : Token) (ps : List Bytes) : Completable ⟨L, D, .functionBody name ps⟩ :=
  (completable_form _).of_step (t := sample .assign "=") (by decide) rfl

theorem completable_afterParameter (name : Token) (ps : List Bytes) : Completable ⟨L, D, .afterParameter name ps⟩ :=
  (completable_functionBody name ps).of_step (t := sample .closeParen ")") (by decide) rfl

/-- among the names there is always one more for a parameter -/
theorem completable_parameter (name : Token) (ps : List Bytes) : Completable ⟨L, D, .parameter name ps⟩ := by
  obtain ⟨x, hx⟩ := Infinite.exists_notMem_finset ps.toFinset
  rw [List.mem_toFinset] at hx
  have hstep : (⟨L, D, .parameter name ps⟩ : State).step ⟨.identifier, x, .nowhere⟩ =
      .ok ⟨L, D, .afterParameter name (ps ++ [x])⟩ := by
    simp [State.step, hx]
  exact (completable_afterParameter name (ps ++ [x])).of_step (by simp) hstep

theorem completable_firstParameter (name : Token) : Completable ⟨L, D, .firstParameter name⟩ :=
  (completable_functionBody name []).of_step (t := sample .closeParen ")") (by decide) rfl

theorem completable_openParameters (name : Token) : Completable ⟨L, D, .openParameters name⟩ :=
  (completable_firstParameter name).of_step (t := sample .openParen "(") (by decide) rfl

/-- **Every state can be completed.** -/
theorem completable (s : State) : Completable s := by
  obtain ⟨L, D, phase⟩ := s
  cases phase with
  | statement => exact completable_statement L D
  | binding name => exact (completable_form (.declare name)).of_step (t := sample .walrus ":=") (by decide) rfl
  | functionName =>
    exact (completable_openParameters _).of_step (t := sample .identifier "f") (by decide) rfl
  | openParameters name => exact completable_openParameters name
  | firstParameter name => exact completable_firstParameter name
  | parameter name ps => exact completable_parameter name ps
  | afterParameter name ps => exact completable_afterParameter name ps
  | functionBody name ps => exact completable_functionBody name ps
  | operand goal p => exact completable_operand (closable_operator goal p)
  | callee goal p name =>
    -- any token but a parenthesis takes the name for a variable
    obtain ⟨t, s', ht, hg, hs, hc⟩ := closable_operator (L := L) (D := D) goal p (.variable name name.text)
    refine hc.of_step ht ?_
    rw [(acts_callee name).step t (by omega), hs]
  | operator goal p e => exact (closable_operator goal p e).completable

/-! ## The refused token -/

/-- a failing run takes some tokens and then fails at the next one, whatever follows that -/
theorem exists_refused {ts : List Token} (h : s.run ts = .error d) (hend : ∃ t ∈ ts, t.kind = .endOfInput) :
    ∃ k t s', ts[k]? = some t ∧ t.location = d.location ∧ (∀ u ∈ ts.take k, u.kind ≠ .endOfInput) ∧
      s.stepAll (ts.take k) = .ok s' ∧ ∀ us, s.run (ts.take (k + 1) ++ us) = .error d := by
  obtain ⟨us, t, s', hprefix, hus, hstep, ⟨hloc, -⟩, hrun⟩ := exists_objection h
  -- the refused token is in the list, since no token before it ends the input
  rcases List.prefix_concat_iff.1 hprefix with heq | ⟨vs, rfl⟩
  · obtain ⟨rfl, -⟩ := List.append_inj' heq rfl
    obtain ⟨u, hu, hk⟩ := hend
    exact absurd hk (hus u hu)
  · refine ⟨us.length, t, s', by simp, hloc.symm, by simpa using hus, by simpa using hstep, fun ws => ?_⟩
    rw [List.take_left' (by simp), List.append_assoc]
    exact hrun ws

end Reader

/-- **A program is refused at the first token that no program has there.** If the tokens of a text are refused, then the
failure stands at the place of one of them and of no other; the tokens before it are the start of a program, and with
that token they are no longer. -/
theorem Block.parse_fails_at_first_offending_token {o : Origin} {text : Bytes} {ts : List Token} {d : Diagnostic}
    (hscan : Token.scan o text = .ok ts) (h : Block.parse ts = .error d) :
    ∃ k, (∀ j, ts[j]?.map (·.location) = some d.location ↔ j = k) ∧
      (∃ us b, Block.parse (ts.take k ++ us) = .ok b) ∧ ∀ us b, Block.parse (ts.take (k + 1) ++ us) ≠ .ok b := by
  obtain ⟨hnodup, hend⟩ := Token.nodup_locations_of_scan hscan
  obtain ⟨k, t, s, hget, hloc, hbefore, hstep, hrun⟩ := Reader.exists_refused h hend
  have hk : (ts.map (·.location))[k]? = some d.location := by
    rw [List.getElem?_map, hget, ← hloc]
    rfl
  refine ⟨k, ?_, ?_, ?_⟩
  · intro j
    rw [← List.getElem?_map]
    constructor
    · -- the places of tokens are all different
      intro hj
      rw [← hk] at hj
      have hlt : k < (ts.map (·.location)).length := (List.getElem?_eq_some_iff.1 hk).1
      exact ((List.getElem?_inj hlt hnodup).1 hj.symm).symm
    · rintro rfl
      exact hk
  · obtain ⟨us, b, hb⟩ := Reader.completable s
    refine ⟨us, b, ?_⟩
    rw [Block.parse, Reader.State.initial.run_append hbefore, hstep]
    exact hb
  · intro us b
    rw [Block.parse, hrun us]
    exact nofun

/-- the tokens of `fun f(a, a) = a`, where the second parameter repeats the first one -/
def Token.twice : List Token :=
  let token (k : Kind) (text : String) (column : Int) : Token :=
    ⟨k, bytes text, ⟨bytes "twice", 1, column, (bytes text).length, none⟩⟩
  [token .function "fun" 1, token .identifier "f" 5, token .openParen "(" 6, token .identifier "a" 7,
    token .comma "," 8, token .identifier "a" 10, token .closeParen ")" 11, token .assign "=" 13,
    token .identifier "a" 15, token .endOfInput "" 16]

/-- The repeated parameter is refused: other names could have stood in its place. -/
theorem Block.parse_fails_at_first_offending_token_twice :
    let d : Diagnostic := ⟨.duplicateParameter (bytes "a") (bytes "f"), ⟨bytes "twice", 1, 10, 1, none⟩⟩
    Token.scan ⟨bytes "twice", none⟩ (bytes "fun f(a, a) = a") = .ok Token.twice ∧
      Block.parse Token.twice = .error d ∧
      ∃ k, (∀ j, Token.twice[j]?.map (·.location) = some d.location ↔ j = k) ∧
        (∃ us b, Block.parse (Token.twice.take k ++ us) = .ok b) ∧
        ∀ us b, Block.parse (Token.twice.take (k + 1) ++ us) ≠ .ok b := by
  intro d
  have hscan : Token.scan ⟨bytes "twice", none⟩ (bytes "fun f(a, a) = a") = .ok Token.twice := by decide +kernel
  have hparse : Block.parse Token.twice = .error d := rfl
  exact ⟨hscan, hparse, Block.parse_fails_at_first_offending_token hscan hparse⟩

end Treewalk
