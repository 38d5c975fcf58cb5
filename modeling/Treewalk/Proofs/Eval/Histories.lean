/-
The states of programs that run one after another.

A history is a list of statements that are completed one after another, by whichever programs, and that lead from one
world to another (`World.Leads`); evaluations on the way, be it for conditions of loops or for statements that fail, do
not count. Each state of a run, whether the run comes to a statement there or ends there, comes of a history that goes
on from the one before the run (`World.Leads.follows_visits`, `World.Leads.follows_exec`): it consists of what the run
has completed so far (`Stmt.Halts`). So what statements keep holds in all these states (`Stmt.Keeps.leads`).
-/
import Treewalk.Proofs.Eval.Moments
import Treewalk.Proofs.Eval.Replay

namespace Treewalk

/-! ## Histories -/

namespace World

/-- an expression has been evaluated, or nothing -/
inductive Evaluated (limit : Nat) (frame : FrameId) (w : World) : World → Prop
  | nothing : Evaluated limit frame w w
  | expression {e : Expr} {a : Except Diagnostic Value} {w' : World} (he : (e.eval limit frame).runIn w = (a, w')) :
      Evaluated limit frame w w'

theorem Evaluated.grows {limit : Nat} {frame : FrameId} {w w' : World} (h : w.Evaluated limit frame w') :
    w.Grows w' := by
  cases h with
  | nothing => exact .refl w
  | expression he => exact grows_of_eval he

/-- the statements `us`, completed one after another in the root frame, lead from one world to another -/
inductive Leads (w : World) : List Stmt → World → Prop
  | start : Leads w [] w
  | next {limits : Limits} {s : Stmt} {us : List Stmt} {w₁ w' : World} (h : w.Leads us w₁)
      (hs : s.Completes limits root w₁ w') : Leads w (us ++ [s]) w'
  | evaluated {limit : Nat} {us : List Stmt} {w₁ w' : World} (h : w.Leads us w₁) (hw : w₁.Evaluated limit root w') :
      Leads w us w'

end World

/-- in every world that a history leads to -/
theorem Stmt.Keeps.leads {P : World → Prop} {Q : World → Value → Prop} (h : ∀ limits, Stmt.Keeps limits World.root P Q)
    {w w' : World} {us : List Stmt} (hw : P w) (hleads : w.Leads us w') : P w' := by
  induction hleads with
  | start => exact hw
  | @next limits s _ _ _ _ hs ih =>
    have hdone := (h limits).exec s ih
    rw [(completes_iff.1 hs).2] at hdone
    exact hdone
  | @evaluated limit _ _ _ _ hevaluated ih =>
    cases hevaluated with
    | nothing => exact ih
    | expression he => exact ((h ⟨limit, 0⟩).eval ih he).1

/-! ## Runs have histories -/

namespace Stmt

variable {limits : Limits} {frame : FrameId}

/-- a run has completed the statements `us`, and then evaluated at most one expression -/
def Halts (limits : Limits) (frame : FrameId) (ss : List Stmt) (w : World) (us : List Stmt) (w' : World) : Prop :=
  ∃ rest w₁, Runs limits frame ss w us rest w₁ ∧ w₁.Evaluated limits.calls frame w'

theorem halts_of_iterate {t : Token} {c : Expr} {body : List Stmt}
    {condition : World → (Bool → World → Outcome) → Outcome}
    (hcondition : ∀ {w w' next}, condition w next = .unfinished w' →
      ∃ b w₁, (c.eval limits.calls frame).runIn w = (.ok (.boolean b), w₁) ∧ next b w₁ = .unfinished w')
    (hbody : ∀ {w w'}, execAll limits frame body w = .unfinished w' → ∃ us, Halts limits frame body w us w')
    (rounds : Nat) {w w' : World} (h : iterate condition (execAll limits frame body) rounds w = .unfinished w') :
    ∃ us, Halts limits frame [.loop t c body] w us w' := by
  induction rounds generalizing w with
  | zero =>
    cases h
    exact ⟨[], _, w', .start _ _, .nothing⟩
  | succ rounds ih =>
    rw [iterate] at h
    obtain ⟨b, w₁, hc, h⟩ := hcondition h
    cases b with
    | false => cases h
    | true =>
      rw [if_pos rfl] at h
      cases hb : execAll limits frame body w₁ with
      | done w₂ =>
        rw [hb] at h
        obtain ⟨us, hus⟩ := runs_of_execAll body hb
        obtain ⟨us', rest, w₃, hus', hlast⟩ := ih h
        exact ⟨us ++ us', rest, w₃, .round hc ((hus.append _).trans hus'), hlast⟩
      | failed d w₂ =>
        rw [hb] at h
        cases h
      | unfinished w₂ =>
        rw [hb] at h
        cases h
        obtain ⟨us, rest, w₃, hus, hlast⟩ := hbody hb
        exact ⟨us, _, w₃, .round hc (hus.append _), hlast⟩

theorem unfinished_of_withValue {e : Expr} {next : Value → World → Outcome} {w w' : World}
    (h : w.withValue limits frame e next = .unfinished w') :
    ∃ v w₁, (e.eval limits.calls frame).runIn w = (.ok v, w₁) ∧ next v w₁ = .unfinished w' := by
  rcases withValue_cases limits frame w e next with ⟨d, w₁, hx, heq⟩ | ⟨v, w₁, hx, heq⟩
  · rw [heq] at h
    cases h
  · exact ⟨v, w₁, hx, heq ▸ h⟩

mutual
theorem halts_of_unfinished : (s : Stmt) → ∀ {w w'}, s.exec limits frame w = .unfinished w' →
    ∃ us, Halts limits frame [s] w us w'
  | .declare t x e, w, w', h => by
    rw [exec] at h
    obtain ⟨v, w₁, -, h⟩ := unfinished_of_withValue h
    cases hx : w₁.declare frame t x v <;> simp [hx] at h
  | .assign t x e, w, w', h => by
    rw [exec] at h
    obtain ⟨v, w₁, -, h⟩ := unfinished_of_withValue h
    cases hx : w₁.assign frame t x v <;> simp [hx] at h
  | .print t e, w, w', h => by
    rw [exec] at h
    obtain ⟨v, w₁, hv, h⟩ := unfinished_of_withValue h
    cases htext : v.text? w₁.heap with
    | some line => simp [htext] at h
    | none =>
      simp only [htext] at h
      cases h
      exact ⟨[], _, w, .start _ _, .expression hv⟩
  | .loop t c body, w, w', h => by
    rw [exec] at h
    refine halts_of_iterate ?_ (halts_of_unfinishedAll body) limits.rounds h
    intro w w' next h
    obtain ⟨v, w₁, hc, h⟩ := unfinished_of_withValue h
    cases v with
    | boolean b => exact ⟨b, w₁, hc, h⟩
    | _ => cases h
  | .function t f ps e, w, w', h => by
    rw [exec] at h
    cases hf : w.declare frame t f (.closure ⟨f, ps, e, some frame, t⟩) <;> simp [hf] at h
  | .missing, w, w', h => by
    rw [exec] at h
    cases h

theorem halts_of_unfinishedAll : (ss : List Stmt) → ∀ {w w'}, execAll limits frame ss w = .unfinished w' →
    ∃ us, Halts limits frame ss w us w'
  | [], w, w', h => by
    rw [execAll] at h
    cases h
  | s :: ss, w, w', h => by
    rw [execAll] at h
    cases hs : s.exec limits frame w with
    | done w₁ =>
      rw [hs] at h
      obtain ⟨us, hus⟩ := runs_of_exec s hs
      obtain ⟨us', rest, w₂, hus', hlast⟩ := halts_of_unfinishedAll ss h
      exact ⟨us ++ us', rest, w₂, (hus.append ss).trans hus', hlast⟩
    | failed d w₁ =>
      rw [hs] at h
      cases h
    | unfinished w₁ =>
      rw [hs] at h
      cases h
      obtain ⟨us, rest, w₂, hus, hlast⟩ := halts_of_unfinished s hs
      exact ⟨us, _, w₂, hus.append ss, hlast⟩
end

theorem Evaluates.evaluated {s : Stmt} {w w' : World} (h : s.Evaluates limits frame w w') :
    w.Evaluated limits.calls frame w' := by
  cases h with
  | nothing => exact .nothing
  | expression _ he => exact .expression he

/-- however a run ends, it has completed statements one after another before -/
theorem exists_halts (ss : List Stmt) (w : World) :
    ∃ us, Halts limits frame ss w us (execAll limits frame ss w).world := by
  cases h : execAll limits frame ss w with
  | done w' =>
    obtain ⟨us, hus⟩ := runs_of_execAll ss h
    exact ⟨us, [], w', hus, .nothing⟩
  | failed d w' =>
    obtain ⟨s, w₀, hvisits, -, hevaluates⟩ := failsAt_of_execAll ss h
    obtain ⟨us, rest, hus⟩ := hvisits.runs
    exact ⟨us, _, w₀, hus, hevaluates.evaluated⟩
  | unfinished w' => exact halts_of_unfinishedAll ss h

end Stmt

namespace World

variable {limits : Limits} {us : List Stmt} {w w₁ w' : World}

theorem Leads.runs (h : w.Leads us w₁) {ss vs ss' : List Stmt} (hruns : Stmt.Runs limits root ss w₁ vs ss' w') :
    w.Leads (us ++ vs) w' := by
  induction hruns generalizing us with
  | start =>
    rw [List.append_nil]
    exact h
  | next hs _ ih =>
    rw [List.append_cons]
    exact ih (h.next hs)
  | leave hc _ ih => exact ih (h.evaluated (.expression hc))
  | round hc _ ih => exact ih (h.evaluated (.expression hc))

/-- the world comes of a run of the block from the world `w` with history `us`: what the run has completed goes on with
this history -/
def Follows (limits : Limits) (b : Block) (w : World) (us : List Stmt) (w' : World) : Prop :=
  ∃ vs, Stmt.Halts limits root b w vs w' ∧ initial.Leads (us ++ vs) w'

theorem Leads.follows (h : initial.Leads us w) {b : Block} {vs : List Stmt}
    (hhalts : Stmt.Halts limits root b w vs w') : Follows limits b w us w' := by
  obtain ⟨rest, w₁, hruns, hlast⟩ := hhalts
  exact ⟨vs, ⟨rest, w₁, hruns, hlast⟩, (h.runs hruns).evaluated hlast⟩

/-- where a run comes to a statement -/
theorem Leads.follows_visits (h : initial.Leads us w) {b : Block} {s : Stmt}
    (hvisits : Stmt.Visits limits root b w s w') : Follows limits b w us w' := by
  obtain ⟨vs, rest, hruns⟩ := hvisits.runs
  exact h.follows ⟨_, w', hruns, .nothing⟩

/-- where a run ends, however it does -/
theorem Leads.follows_exec (h : initial.Leads us w) (limits : Limits) (b : Block) :
    Follows limits b w us (b.exec limits root w).world := by
  obtain ⟨vs, hhalts⟩ := Stmt.exists_halts b w
  exact h.follows hhalts

end World

end Treewalk
