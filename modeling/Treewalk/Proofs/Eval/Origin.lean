/-
Where a run fails.

`Stmt.Visits` says which statements a run comes to, and in which worlds: the statements of a block one after another,
and those of a loop's body in every round. `Stmt.Raises` says that a statement fails by itself, for one of the reasons
that it has: its expression fails, or what it does with the value does. A run that fails has come to a statement that
raises its failure, and which has done no more than to evaluate its expression (`Stmt.failsAt_of_execAll`).
-/
import Treewalk.Eval.Statement

namespace Treewalk

namespace Stmt

/-- the expression that a statement evaluates when a run comes to it -/
def expression? : Stmt → Option Expr
  | .declare _ _ e | .assign _ _ e | .print _ e => some e
  | .loop _ c _ => some c
  | .function _ _ _ _ | .missing => none

def isLoop : Stmt → Bool
  | .loop _ _ _ => true
  | _ => false

/-- a run of statements from a world comes to a statement, in another world -/
inductive Visits (limits : Limits) (frame : FrameId) : List Stmt → World → Stmt → World → Prop
  | here (s : Stmt) (ss : List Stmt) (w : World) : Visits limits frame (s :: ss) w s w
  | next {s s' : Stmt} {ss : List Stmt} {w w₁ w' : World} (hs : s.exec limits frame w = .done w₁)
      (h : Visits limits frame ss w₁ s' w') : Visits limits frame (s :: ss) w s' w'
  | body {t : Token} {c : Expr} {body ss : List Stmt} {s' : Stmt} {w w₁ w' : World}
      (hc : (c.eval limits.calls frame).runIn w = (.ok (.boolean true), w₁)) (h : Visits limits frame body w₁ s' w') :
      Visits limits frame (.loop t c body :: ss) w s' w'
  | again {t : Token} {c : Expr} {body ss : List Stmt} {s' : Stmt} {w w₁ w₂ w' : World}
      (hc : (c.eval limits.calls frame).runIn w = (.ok (.boolean true), w₁))
      (hbody : execAll limits frame body w₁ = .done w₂) (h : Visits limits frame (.loop t c body :: ss) w₂ s' w') :
      Visits limits frame (.loop t c body :: ss) w s' w'

/-- a declaration finds its name bound -/
inductive Redeclares (limits : Limits) (frame : FrameId) : Stmt → World → Diagnostic → Prop
  | variable {t : Token} {x : Bytes} {e : Expr} {v : Value} {w w' : World} {d : Diagnostic}
      (hv : (e.eval limits.calls frame).runIn w = (.ok v, w')) (h : w'.declare frame t x v = .error d) :
      Redeclares limits frame (.declare t x e) w d
  | function {t : Token} {f : Bytes} {ps : List Bytes} {e : Expr} {w : World} {d : Diagnostic}
      (h : w.declare frame t f (.closure ⟨f, ps, e, some frame, t⟩) = .error d) :
      Redeclares limits frame (.function t f ps e) w d

/-- a statement fails by itself -/
inductive Raises (limits : Limits) (frame : FrameId) : Stmt → World → Diagnostic → Prop
  | expression {s : Stmt} {e : Expr} {w w' : World} {d : Diagnostic} (he : s.expression? = some e)
      (h : (e.eval limits.calls frame).runIn w = (.error d, w')) : Raises limits frame s w d
  | redeclaration {s : Stmt} {w : World} {d : Diagnostic} (h : s.Redeclares limits frame w d) :
      Raises limits frame s w d
  | assign {t : Token} {x : Bytes} {e : Expr} {v : Value} {w w' : World} {d : Diagnostic}
      (hv : (e.eval limits.calls frame).runIn w = (.ok v, w')) (h : w'.assign frame t x v = .error d) :
      Raises limits frame (.assign t x e) w d
  | condition {t : Token} {c : Expr} {body : List Stmt} {v : Value} {w w' : World}
      (hv : (c.eval limits.calls frame).runIn w = (.ok v, w')) :
      Raises limits frame (.loop t c body) w ⟨.wrongType .boolean .loopCondition v.typeName, t.location⟩
  | missing {w : World} : Raises limits frame .missing w ⟨.missingPart, .nowhere⟩

variable {limits : Limits} {frame : FrameId} {s : Stmt} {ss : List Stmt} {w w' : World} {d : Diagnostic}

theorem Visits.append (h : Visits limits frame ss w s w') (us : List Stmt) : Visits limits frame (ss ++ us) w s w' := by
  induction h with
  | here s ss w => exact .here s (ss ++ us) w
  | next hs _ ih => exact .next hs ih
  | body hc h _ => exact .body hc h
  | again hc hbody _ ih => exact .again hc hbody ih

/-- evaluating fails, or there is a value to go on with -/
theorem withValue_cases (limits : Limits) (frame : FrameId) (w : World) (e : Expr) (next : Value → World → Outcome) :
    (∃ d w', (e.eval limits.calls frame).runIn w = (.error d, w') ∧ w.withValue limits frame e next = .failed d w') ∨
      ∃ v w', (e.eval limits.calls frame).runIn w = (.ok v, w') ∧ w.withValue limits frame e next = next v w' := by
  rw [World.withValue]
  rcases (e.eval limits.calls frame).runIn w with ⟨d | v, w'⟩
  · exact .inl ⟨d, w', rfl, rfl⟩
  · exact .inr ⟨v, w', rfl, rfl⟩

theorem failed_of_withValue {e : Expr} {next : Value → World → Outcome}
    (h : w.withValue limits frame e next = .failed d w') :
    (e.eval limits.calls frame).runIn w = (.error d, w') ∨
      ∃ v w₁, (e.eval limits.calls frame).runIn w = (.ok v, w₁) ∧ next v w₁ = .failed d w' := by
  rcases withValue_cases limits frame w e next with ⟨d₁, w₁, hx, heq⟩ | ⟨v, w₁, hx, heq⟩
  · rw [heq] at h
    cases h
    exact .inl hx
  · exact .inr ⟨v, w₁, hx, heq ▸ h⟩

theorem done_of_withValue {e : Expr} {next : Value → World → Outcome} (h : w.withValue limits frame e next = .done w') :
    ∃ v w₁, (e.eval limits.calls frame).runIn w = (.ok v, w₁) ∧ next v w₁ = .done w' := by
  rcases withValue_cases limits frame w e next with ⟨d, w₁, hx, heq⟩ | ⟨v, w₁, hx, heq⟩
  · rw [heq] at h
    cases h
  · exact ⟨v, w₁, hx, heq ▸ h⟩

/-- the run has come to a statement that raises the failure -/
def Blames (limits : Limits) (frame : FrameId) (ss : List Stmt) (w : World) (d : Diagnostic) : Prop :=
  ∃ s w', Visits limits frame ss w s w' ∧ s.Raises limits frame w' d

/-- the statement has evaluated the expression that it has, if any, and done nothing else -/
inductive Evaluates (limits : Limits) (frame : FrameId) (s : Stmt) (w : World) : World → Prop
  | nothing (he : s.expression? = none) : Evaluates limits frame s w w
  | expression {e : Expr} {a : Except Diagnostic Value} {w' : World} (he : s.expression? = some e)
      (h : (e.eval limits.calls frame).runIn w = (a, w')) : Evaluates limits frame s w w'

/-- the run has come to a statement that raises the failure, and that statement has not done more than to evaluate -/
def FailsAt (limits : Limits) (frame : FrameId) (ss : List Stmt) (w : World) (d : Diagnostic) (w' : World) : Prop :=
  ∃ s w₀, Visits limits frame ss w s w₀ ∧ s.Raises limits frame w₀ d ∧ s.Evaluates limits frame w₀ w'

/-- a loop fails in its condition, in its body, or in a later round -/
theorem failsAt_of_iterate {t : Token} {c : Expr} {body : List Stmt}
    {condition : World → (Bool → World → Outcome) → Outcome}
    (hcondition : ∀ {w w' d next}, condition w next = .failed d w' →
      (Stmt.loop t c body).Raises limits frame w d ∧ (Stmt.loop t c body).Evaluates limits frame w w' ∨
        ∃ b w₁, (c.eval limits.calls frame).runIn w = (.ok (.boolean b), w₁) ∧ next b w₁ = .failed d w')
    (hbody : ∀ {w w' d}, execAll limits frame body w = .failed d w' → FailsAt limits frame body w d w') (rounds : Nat)
    (h : iterate condition (execAll limits frame body) rounds w = .failed d w') :
    FailsAt limits frame [.loop t c body] w d w' := by
  induction rounds generalizing w with
  | zero => cases h
  | succ rounds ih =>
    rw [iterate] at h
    rcases hcondition h with hr | ⟨b, w₁, hc, h⟩
    · exact ⟨_, _, .here _ _ _, hr⟩
    · cases b with
      | false => cases h
      | true =>
        rw [if_pos rfl] at h
        cases hb : execAll limits frame body w₁ with
        | done w₂ =>
          rw [hb] at h
          obtain ⟨s, w₀, hv, hr, hdone⟩ := ih h
          exact ⟨s, w₀, .again hc hb hv, hr, hdone⟩
        | failed d₁ w₂ =>
          rw [hb] at h
          cases h
          obtain ⟨s, w₀, hv, hr, hdone⟩ := hbody hb
          exact ⟨s, w₀, .body hc hv, hr, hdone⟩
        | unfinished w₂ =>
          rw [hb] at h
          cases h

mutual
theorem failsAt_of_exec : (s : Stmt) → ∀ {w w' d}, s.exec limits frame w = .failed d w' →
    FailsAt limits frame [s] w d w'
  | .declare t x e, w, w', d, h => by
    rw [exec] at h
    rcases failed_of_withValue h with hv | ⟨v, w₁, hv, h⟩
    · exact ⟨_, _, .here _ _ _, .expression rfl hv, .expression rfl hv⟩
    · cases hx : w₁.declare frame t x v with
      | ok w₂ => simp [hx] at h
      | error d₁ =>
        simp only [hx] at h
        cases h
        exact ⟨_, _, .here _ _ _, .redeclaration (.variable hv hx), .expression rfl hv⟩
  | .assign t x e, w, w', d, h => by
    rw [exec] at h
    rcases failed_of_withValue h with hv | ⟨v, w₁, hv, h⟩
    · exact ⟨_, _, .here _ _ _, .expression rfl hv, .expression rfl hv⟩
    · cases hx : w₁.assign frame t x v with
      | ok w₂ => simp [hx] at h
      | error d₁ =>
        simp only [hx] at h
        cases h
        exact ⟨_, _, .here _ _ _, .assign hv hx, .expression rfl hv⟩
  | .print t e, w, w', d, h => by
    rw [exec] at h
    rcases failed_of_withValue h with hv | ⟨v, w₁, hv, h⟩
    · exact ⟨_, _, .here _ _ _, .expression rfl hv, .expression rfl hv⟩
    · cases ht : v.text? w₁.heap with
      | some line => simp [ht] at h
      | none => simp [ht] at h
  | .loop t c body, w, w', d, h => by
    rw [exec] at h
    refine failsAt_of_iterate ?_ (failsAt_of_execAll body) limits.rounds h
    intro w w' d next h
    rcases failed_of_withValue h with hc | ⟨v, w₁, hc, h⟩
    · exact .inl ⟨.expression rfl hc, .expression rfl hc⟩
    · cases v with
      | boolean b => exact .inr ⟨b, w₁, hc, h⟩
      | _ =>
        cases h
        exact .inl ⟨.condition hc, .expression rfl hc⟩
  | .function t f ps e, w, w', d, h => by
    rw [exec] at h
    cases hf : w.declare frame t f (.closure ⟨f, ps, e, some frame, t⟩) with
    | ok w₁ => simp [hf] at h
    | error d₁ =>
      simp only [hf] at h
      cases h
      exact ⟨_, _, .here _ _ _, .redeclaration (.function hf), .nothing rfl⟩
  | .missing, w, w', d, h => by
    rw [exec] at h
    cases h
    exact ⟨_, _, .here _ _ _, .missing, .nothing rfl⟩

/-- **A run that fails has come to a statement that raises its failure** and that does no more than to evaluate. -/
theorem failsAt_of_execAll : (ss : List Stmt) → ∀ {w w' d}, execAll limits frame ss w = .failed d w' →
    FailsAt limits frame ss w d w'
  | [], w, w', d, h => by
    rw [execAll] at h
    cases h
  | s :: ss, w, w', d, h => by
    rw [execAll] at h
    cases hs : s.exec limits frame w with
    | done w₁ =>
      rw [hs] at h
      obtain ⟨s', w₀, hv, hr, hdone⟩ := failsAt_of_execAll ss h
      exact ⟨s', w₀, .next hs hv, hr, hdone⟩
    | failed d₁ w₁ =>
      rw [hs] at h
      cases h
      obtain ⟨s', w₀, hv, hr, hdone⟩ := failsAt_of_exec s hs
      exact ⟨s', w₀, hv.append ss, hr, hdone⟩
    | unfinished w₁ =>
      rw [hs] at h
      cases h
end

theorem blames_of_execAll (ss : List Stmt) {w w' : World} {d : Diagnostic}
    (h : execAll limits frame ss w = .failed d w') : Blames limits frame ss w d := by
  obtain ⟨s, w₀, hv, hr, -⟩ := failsAt_of_execAll ss h
  exact ⟨s, w₀, hv, hr⟩

end Stmt

end Treewalk
