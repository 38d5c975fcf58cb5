/-
Two runs side by side.

Programs that stand for one another, run in the root frame of worlds that stand for one another, end alike: both done,
both failed for one reason, or both unfinished after the same number of rounds, in worlds that stand for one another
again (`Pairing.outcomeRel_execAll`). Besides the failures of its expressions, a run may fail because a declaration
finds its name bound; this is the only place where the two runs may fail for more reasons than the pairing admits.
-/
import Treewalk.Proofs.Eval.Pairing

namespace Treewalk

namespace Pairing

variable (S : Pairing)

mutual
/-- statements of one shape -/
inductive StmtRel : Stmt → Stmt → Prop
  | declare {t t' : Token} {x : Bytes} {e e' : Expr} (ht : S.token t t') (hx : S.name x)
      (he : S.ExprRel S.outer e e') : StmtRel (.declare t x e) (.declare t' x e')
  | assign {t t' : Token} {x : Bytes} {e e' : Expr} (ht : S.token t t') (hx : S.name x)
      (he : S.ExprRel S.outer e e') : StmtRel (.assign t x e) (.assign t' x e')
  | print {t t' : Token} {e e' : Expr} (ht : S.token t t') (he : S.ExprRel S.outer e e') :
      StmtRel (.print t e) (.print t' e')
  | loop {t t' : Token} {c c' : Expr} {body body' : List Stmt} (ht : S.token t t') (hc : S.ExprRel S.outer c c')
      (hbody : BlockRel body body') : StmtRel (.loop t c body) (.loop t' c' body')
  | function {t t' : Token} {f : Bytes} {ps ps' : List Bytes} {e e' : Expr} (ht : S.token t t') (hf : S.name f)
      (h : S.FunctionRel ps e ps' e') : StmtRel (.function t f ps e) (.function t' f ps' e')
  | missing (ht : S.token .unplaced .unplaced) (hc : S.cause .missingPart .missingPart) : StmtRel .missing .missing

inductive BlockRel : List Stmt → List Stmt → Prop
  | nil : BlockRel [] []
  | cons {s s' : Stmt} {ss ss' : List Stmt} (hs : StmtRel s s') (hss : BlockRel ss ss') :
      BlockRel (s :: ss) (s' :: ss')
end

/-- as the pairing, but names may be declared twice -/
def declaring : Pairing where
  token := S.token
  name := S.name
  cause c c' := S.cause c c' ∨ c' = c ∧ c.kind = .redeclaration
  ordinary c hc := .inl (S.ordinary c hc)

/-- runs that end alike -/
inductive OutcomeRel : Outcome → Outcome → Prop
  | done {w w' : World} (hw : S.WorldRel w w') : OutcomeRel (.done w) (.done w')
  | failed {d d' : Diagnostic} {w w' : World} (hd : S.declaring.FailureRel d d') (hw : S.WorldRel w w') :
      OutcomeRel (.failed d w) (.failed d' w')
  | unfinished {w w' : World} (hw : S.WorldRel w w') : OutcomeRel (.unfinished w) (.unfinished w')

variable {S} {t t' : Token} {v v' : Value} {w w' : World} {d d' : Diagnostic}

theorem FailureRel.declaring (h : S.FailureRel d d') : S.declaring.FailureRel d d' := by
  cases h with
  | mk hc ht => exact .mk (.inl hc) ht

theorem OutcomeRel.world {o o' : Outcome} (h : S.OutcomeRel o o') : S.WorldRel o.world o'.world := by
  cases h with
  | done hw => exact hw
  | failed _ hw => exact hw
  | unfinished hw => exact hw

theorem OutcomeRel.andThen {o o' : Outcome} (h : S.OutcomeRel o o') {next next' : World → Outcome}
    (hnext : ∀ w w', S.WorldRel w w' → S.OutcomeRel (next w) (next' w')) :
    S.OutcomeRel (o.andThen next) (o'.andThen next') := by
  cases h with
  | done hw => exact hnext _ _ hw
  | failed hd hw => exact .failed hd hw
  | unfinished hw => exact .unfinished hw

/-! ## Parts of statements -/

theorem outcomeRel_withValue (hw : S.WorldRel w w') (limits : Limits) {e e' : Expr} (he : S.ExprRel S.outer e e')
    {next next' : Value → World → Outcome}
    (hnext : ∀ {v v' w w'}, S.ValueRel v v' → S.WorldRel w w' → S.OutcomeRel (next v w) (next' v' w')) :
    S.OutcomeRel (w.withValue limits World.root e next) (w'.withValue limits World.root e' next') := by
  rcases hx : (e.eval limits.calls World.root).runIn w with ⟨r, w₁⟩
  rcases hy : (e'.eval limits.calls World.root).runIn w' with ⟨r', w₁'⟩
  obtain ⟨hworld, hanswer⟩ : S.WorldAt S.outer World.root w₁ w₁' ∧ S.Answers S.ValueRel r r' := by
    simpa only [hx, hy] using steps_eval limits.calls World.root he w w' hw.atRoot
  rw [World.withValue, World.withValue, hx, hy]
  cases hanswer with
  | ok hv => exact hnext hv hworld.toWorldRel
  | error hd => exact .failed hd.declaring hworld.toWorldRel

/-- the end of a declaration or an assignment that gave `r` in the world `w` -/
def bound (r : Except Diagnostic World) (w : World) : Outcome :=
  match r with
  | .ok w => .done w
  | .error d => .failed d w

theorem outcomeRel_declare (hw : S.WorldRel w w') (ht : S.token t t') {x : Bytes} (hx : S.name x)
    (hv : S.ValueRel v v') :
    S.OutcomeRel (bound (w.declare World.root t x v) w) (bound (w'.declare World.root t' x v') w') := by
  rw [World.declare, World.declare, Frames.declare?, Frames.declare?, hw.frames.hasOwn_eq hx]
  cases w'.frames.hasOwn World.root x with
  | true => exact .failed (.mk (.inr ⟨rfl, rfl⟩) ht) hw
  | false => exact .done ⟨hw.frames.declare hv, hw.size, hw.items, hw.printed⟩

theorem outcomeRel_assign (hw : S.WorldRel w w') (ht : S.token t t') {x : Bytes} (hx : S.name x)
    (hv : S.ValueRel v v') :
    S.OutcomeRel (bound (w.assign World.root t x v) w) (bound (w'.assign World.root t' x v') w') := by
  rw [World.assign, World.assign, Frames.assign?, Frames.assign?, Frames.owner?_of_chain hw.frames.chain,
    Frames.owner?_of_chain hw.frames.chain', hw.frames.hasOwn_eq hx]
  cases w'.frames.hasOwn World.root x with
  | false => exact .failed (.mk (.inl (S.ordinary _ rfl)) ht) hw
  | true => exact .done ⟨hw.frames.assign hv, hw.size, hw.items, hw.printed⟩

/-- loops take round after round side by side -/
theorem outcomeRel_iterate {condition condition' : World → (Bool → World → Outcome) → Outcome}
    {body body' : World → Outcome}
    (hcondition : ∀ {w w'}, S.WorldRel w w' → ∀ {next next' : Bool → World → Outcome},
      (∀ b w w', S.WorldRel w w' → S.OutcomeRel (next b w) (next' b w')) →
        S.OutcomeRel (condition w next) (condition' w' next'))
    (hbody : ∀ w w', S.WorldRel w w' → S.OutcomeRel (body w) (body' w')) (rounds : Nat) (hw : S.WorldRel w w') :
    S.OutcomeRel (iterate condition body rounds w) (iterate condition' body' rounds w') := by
  -- both loops have the same rounds left, so they run out of them together
  induction rounds generalizing w w' with
  | zero => exact .unfinished hw
  | succ rounds ih =>
    apply hcondition hw
    intro b w₁ w₁' hw₁
    cases b with
    | false => exact .done hw₁
    | true => exact (hbody w₁ w₁' hw₁).andThen fun w₂ w₂' hw₂ => ih hw₂

/-! ## Statements -/

mutual
theorem outcomeRel_exec (limits : Limits) : (s : Stmt) → ∀ {s'}, S.StmtRel s s' → ∀ {w w'}, S.WorldRel w w' →
    S.OutcomeRel (s.exec limits World.root w) (s'.exec limits World.root w')
  | .declare _ x e, _, h, w, w', hw => by
    cases h with
    | declare ht hx he =>
      rw [Stmt.exec, Stmt.exec]
      exact outcomeRel_withValue hw limits he fun hv hw => outcomeRel_declare hw ht hx hv
  | .assign _ x e, _, h, w, w', hw => by
    cases h with
    | assign ht hx he =>
      rw [Stmt.exec, Stmt.exec]
      exact outcomeRel_withValue hw limits he fun hv hw => outcomeRel_assign hw ht hx hv
  | .print _ e, _, h, w, w', hw => by
    cases h with
    | print ht he =>
      rw [Stmt.exec, Stmt.exec]
      apply outcomeRel_withValue hw limits he
      intro v v' w w' hv hw
      rw [hw.text?_eq hv]
      cases v'.text? w'.heap with
      | some line => exact .done (hw.print line)
      | none => exact .unfinished hw
  | .loop _ c body, _, h, w, w', hw => by
    cases h with
    | loop ht hc hbody =>
      rw [Stmt.exec, Stmt.exec]
      refine outcomeRel_iterate ?_ (fun w w' => outcomeRel_execAll limits body hbody) limits.rounds hw
      intro w w' hw next next' hnext
      apply outcomeRel_withValue hw limits hc
      intro v v' w w' hv hw
      cases hv with
      | boolean b => exact hnext b _ _ hw
      | _ => exact .failed (.mk (.inl (S.ordinary _ rfl)) ht) hw
  | .function _ f ps e, _, h, w, w', hw => by
    cases h with
    | function ht hf h =>
      rw [Stmt.exec, Stmt.exec]
      exact outcomeRel_declare hw ht hf (.closure ⟨rfl, h, rfl, rfl⟩)
  | .missing, _, h, w, w', hw => by
    cases h with
    | missing ht hc =>
      rw [Stmt.exec, Stmt.exec]
      have hd : S.FailureRel ⟨.missingPart, Token.unplaced.location⟩ ⟨.missingPart, Token.unplaced.location⟩ :=
        .mk hc ht
      exact .failed hd.declaring hw

/-- **Programs that stand for one another end alike.** -/
theorem outcomeRel_execAll (limits : Limits) : (ss : List Stmt) → ∀ {ss'}, S.BlockRel ss ss' → ∀ {w w'},
    S.WorldRel w w' → S.OutcomeRel (Stmt.execAll limits World.root ss w) (Stmt.execAll limits World.root ss' w')
  | [], _, h, w, w', hw => by
    cases h
    rw [Stmt.execAll, Stmt.execAll]
    exact .done hw
  | s :: ss, _, h, w, w', hw => by
    cases h with
    | cons hs hss =>
      rw [Stmt.execAll, Stmt.execAll]
      exact (outcomeRel_exec limits s hs hw).andThen fun w w' hw => outcomeRel_execAll limits ss hss hw
end

end Pairing

end Treewalk
