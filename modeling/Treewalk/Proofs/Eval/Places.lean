/-
Where tokens stand changes nothing.

Two token lists that spell the same are read alike, and the two trees, which differ in the places of their tokens only,
run alike. For reading this is because the reader commutes with moving tokens: both lists, moved to one place, are the
same list. For running, a tree and the same tree moved stand for one another in a pairing that admits every failure but
one, that of a closure without its frame, whose words name a place; the pairing keeps the root frame live, so no run
meets it. Hence blanks and comments change nothing that a program shows apart from places
(`Block.places_change_nothing`).
-/
import Treewalk.Program
import Treewalk.Proofs.Eval.Execution
import Treewalk.Proofs.Reader.Relocation
import Treewalk.Proofs.Token.Scanning

namespace Treewalk

/-- a failure in words, without its place -/
def Diagnostic.words (d : Diagnostic) : Bytes × Bytes := (d.report.kind, d.report.message)

theorem Diagnostic.words_eq {d d' : Diagnostic} (h : d.cause = d'.cause) : d.words = d'.words := by
  rw [words, words, report, report, h]

/-- what a run shows apart from places: how it ends and what was printed -/
inductive Shown where
  | done (output : Bytes)
  | failed (words : Bytes × Bytes) (output : Bytes)
  | unfinished (output : Bytes)
deriving DecidableEq

def Shown.output : Shown → Bytes
  | .done x | .failed _ x | .unfinished x => x

def Shown.words? : Shown → Option (Bytes × Bytes)
  | .failed words _ => some words
  | .done _ | .unfinished _ => none

namespace Outcome

def shown : Outcome → Shown
  | .done w => .done w.output
  | .failed d w => .failed d.words w.output
  | .unfinished w => .unfinished w.output

theorem output_shown (o : Outcome) : o.shown.output = o.world.output := by
  cases o <;> rfl

theorem words?_shown (o : Outcome) : o.shown.words? = o.diagnostic?.map Diagnostic.words := by
  cases o <;> rfl

end Outcome

/-- no number of rounds is enough for the program's loops -/
def Block.Diverges (b : Block) (calls : Nat) : Prop := ∀ rounds, ∃ w, b.run ⟨calls, rounds⟩ = .unfinished w

/-! ## Running -/

namespace Pairing

/-- runs of trees that differ in places only; a failure whose words name a place is not admitted -/
def places : Pairing where
  token _ _ := True
  name _ := True
  cause c c' := c' = c ∧ ∀ f l, c ≠ .scopeGone f l
  ordinary c hc := by
    refine ⟨rfl, ?_⟩
    rintro f l rfl
    cases hc

variable (f : Location → Location)

mutual
theorem exprRel_relocate : (e : Expr) → places.ExprRel places.outer e (e.relocate f)
  | .numeral _ _ => .numeral trivial
  | .boolean _ _ => .boolean trivial
  | .variable _ _ => .variable trivial trivial
  | .unary _ _ e => .unary trivial (fun _ => ⟨rfl, nofun⟩) (exprRel_relocate e)
  | .binary _ _ l r => .binary trivial (fun _ => ⟨rfl, nofun⟩) (exprRel_relocate l) (exprRel_relocate r)
  | .conditional _ c y n => .conditional trivial (exprRel_relocate c) (exprRel_relocate y) (exprRel_relocate n)
  | .call _ _ args => .call trivial trivial (exprsRel_relocate args)
  | .array _ items => .array trivial (exprsRel_relocate items)
  | .subscript _ a i => .subscript trivial (exprRel_relocate a) (exprRel_relocate i)
  | .missing => .missing trivial ⟨rfl, nofun⟩

theorem exprsRel_relocate : (es : List Expr) → places.ExprsRel places.outer es (Expr.relocateAll f es)
  | [] => .nil
  | e :: es => .cons (exprRel_relocate e) (exprsRel_relocate es)
end

mutual
theorem stmtRel_relocate : (s : Stmt) → places.StmtRel s (s.relocate f)
  | .declare _ _ e => .declare trivial trivial (exprRel_relocate f e)
  | .assign _ _ e => .assign trivial trivial (exprRel_relocate f e)
  | .print _ e => .print trivial (exprRel_relocate f e)
  | .loop _ c body => .loop trivial (exprRel_relocate f c) (blockRel_relocate body)
  | .function _ _ _ e => .function trivial trivial (.of_outer (.inr fun _ _ => ⟨rfl, nofun⟩) (exprRel_relocate f e))
  | .missing => .missing trivial ⟨rfl, nofun⟩

theorem blockRel_relocate : (b : List Stmt) → places.BlockRel b (Stmt.relocateAll f b)
  | [] => .nil
  | s :: ss => .cons (stmtRel_relocate s) (blockRel_relocate ss)
end

theorem OutcomeRel.shown_eq {o o' : Outcome} (h : places.OutcomeRel o o') : o.shown = o'.shown := by
  have houtput : ∀ {w w' : World}, places.WorldRel w w' → w.output = w'.output := by
    intro w w' hw
    rw [World.output, World.output, hw.printed]
  cases h with
  | done hw => rw [Outcome.shown, Outcome.shown, houtput hw]
  | @failed d d' w w' hd hw =>
    have hcause : d.cause = d'.cause := by
      rcases hd.admits with ⟨h, -⟩ | ⟨h, -⟩
      · exact h.symm
      · exact h.symm
    rw [Outcome.shown, Outcome.shown, Diagnostic.words_eq hcause, houtput hw]
  | unfinished hw => rw [Outcome.shown, Outcome.shown, houtput hw]

end Pairing

namespace Block

/-- a program with its tokens moved shows the same -/
theorem shown_relocate (f : Location → Location) (b : Block) (limits : Limits) :
    ((b.relocate f).run limits).shown = (b.run limits).shown :=
  (Pairing.outcomeRel_execAll limits b (Pairing.blockRel_relocate f b)
    (Pairing.worldRel_initial Pairing.places)).shown_eq.symm

/-- programs that are the same when moved to one place show the same -/
theorem shown_eq {f : Location → Location} {b c : Block} (h : b.relocate f = c.relocate f) (limits : Limits) :
    (b.run limits).shown = (c.run limits).shown := by
  rw [← shown_relocate f b, h, shown_relocate]

theorem diverges_iff {b c : Block} (h : ∀ limits, (b.run limits).shown = (c.run limits).shown) (calls : Nat) :
    b.Diverges calls ↔ c.Diverges calls := by
  have hforth : ∀ {b c : Block}, (∀ limits, (b.run limits).shown = (c.run limits).shown) → b.Diverges calls →
      c.Diverges calls := by
    intro b c h hb rounds
    obtain ⟨w, hw⟩ := hb rounds
    have hshown := h ⟨calls, rounds⟩
    rw [hw] at hshown
    cases hc : c.run ⟨calls, rounds⟩ with
    | unfinished w' => exact ⟨w', rfl⟩
    | done w' => rw [hc] at hshown; cases hshown
    | failed d w' => rw [hc] at hshown; cases hshown
  exact ⟨hforth h, hforth fun limits => (h limits).symm⟩

/-! ## Reading -/

/-- what two lists that spell the same are read as: trees that are the same when moved to one place, or refusals in the
same words -/
theorem parse_alike {ts us : List Token} (h : ts.map Token.lexeme = us.map Token.lexeme) :
    (∃ d d', Block.parse ts = .error d ∧ Block.parse us = .error d' ∧ d.words = d'.words) ∨
      ∃ b c f, Block.parse ts = .ok b ∧ Block.parse us = .ok c ∧ b.relocate f = c.relocate f := by
  -- the place of the token that stands for a missing end of input, so that it is not moved
  let f : Location → Location := fun _ => Reader.endToken.location
  have hlists : ts.map (Token.relocate f) = us.map (Token.relocate f) := by
    have hmap := congrArg (List.map fun p : Kind × Bytes => Token.mk p.1 p.2 Reader.endToken.location) h
    rw [List.map_map, List.map_map] at hmap
    exact hmap
  have hparse := congrArg Block.parse hlists
  rw [Block.parse_relocate rfl, Block.parse_relocate rfl] at hparse
  cases hts : Block.parse ts with
  | ok b =>
    cases hus : Block.parse us with
    | ok c =>
      rw [hts, hus] at hparse
      exact .inr ⟨b, c, f, rfl, rfl, Except.ok.inj hparse⟩
    | error d => rw [hts, hus] at hparse; cases hparse
  | error d =>
    cases hus : Block.parse us with
    | ok c => rw [hts, hus] at hparse; cases hparse
    | error d' =>
      rw [hts, hus] at hparse
      have hcause : d.cause = d'.cause := congrArg (·.cause) (Except.error.inj hparse)
      exact .inl ⟨d, d', rfl, rfl, Diagnostic.words_eq hcause⟩

/-- **Where tokens stand changes nothing.** Two token lists that agree on kinds and texts are refused in the same words,
or read as trees that agree up to places, end alike and print the same within all limits, diverging together. So two
texts with the same lexemes print the same and fail in the same words, whatever is between the lexemes. -/
theorem places_change_nothing {ts us : List Token} (h : ts.map Token.lexeme = us.map Token.lexeme) :
    ((∃ d d', Block.parse ts = .error d ∧ Block.parse us = .error d' ∧ d.words = d'.words) ∨
      ∃ b c, Block.parse ts = .ok b ∧ Block.parse us = .ok c ∧
        (∀ l, b.relocate (fun _ => l) = c.relocate (fun _ => l)) ∧
        (∀ limits, (b.run limits).shown = (c.run limits).shown) ∧ ∀ calls, b.Diverges calls ↔ c.Diverges calls) ∧
    ∀ p q : Program, p.tokens = .ok ts → q.tokens = .ok us → ∀ limits,
      (p.run limits).1 = (q.run limits).1 ∧
        (p.run limits).2.map Diagnostic.words = (q.run limits).2.map Diagnostic.words := by
  have halike := parse_alike h
  constructor
  · rcases halike with hrefused | ⟨b, c, f, hb, hc, hbc⟩
    · exact .inl hrefused
    · have hmoved : ∀ l, b.relocate (fun _ => l) = c.relocate (fun _ => l) := by
        intro l
        have hagain := congrArg (Block.relocate fun _ => l) hbc
        rwa [relocate_relocate, relocate_relocate] at hagain
      exact .inr ⟨b, c, hb, hc, hmoved, shown_eq hbc, diverges_iff (shown_eq hbc)⟩
  · intro p q hp hq limits
    rcases halike with ⟨d, d', hd, hd', hwords⟩ | ⟨b, c, f, hb, hc, hbc⟩
    · simp [Program.run, Program.block, hp, hq, hd, hd', hwords]
    · have hshown := shown_eq hbc limits
      simp only [Program.run, Program.block, hp, hq, hb, hc]
      rw [← Outcome.output_shown, ← Outcome.output_shown, ← Outcome.words?_shown, ← Outcome.words?_shown, hshown]
      exact ⟨rfl, rfl⟩

end Block

namespace Program

/-- one program in two spellings -/
def spaced : Program :=
  ⟨bytes "spaced", bytes "fun f ( a ) = // one more\n  a + 1\nprint f(2)\n\nprint g", true⟩

def tight : Program := ⟨[], bytes "fun f(a)=a+1print f(2)print g", false⟩

/-- Both spellings print one line and fail in the same words, at different places. -/
theorem places_change_nothing_spaced : ∃ ts us, spaced.tokens = .ok ts ∧ tight.tokens = .ok us ∧
    ts.map Token.lexeme = us.map Token.lexeme ∧ (spaced.run ⟨9, 9⟩).1 = bytes "3\n" ∧
    (tight.run ⟨9, 9⟩).1 = bytes "3\n" ∧ (spaced.run ⟨9, 9⟩).2 ≠ (tight.run ⟨9, 9⟩).2 ∧
    (spaced.run ⟨9, 9⟩).2.map Diagnostic.words = (tight.run ⟨9, 9⟩).2.map Diagnostic.words := by
  have hts : spaced.tokens = .ok (spaced.tokens.toOption.getD []) := by decide +kernel
  have hus : tight.tokens = .ok (tight.tokens.toOption.getD []) := by decide +kernel
  have hlexemes : (spaced.tokens.toOption.getD []).map Token.lexeme =
      (tight.tokens.toOption.getD []).map Token.lexeme := by decide +kernel
  have hprinted : (spaced.run ⟨9, 9⟩).1 = bytes "3\n" := by decide +kernel
  obtain ⟨houtput, hwords⟩ := (Block.places_change_nothing hlexemes).2 spaced tight hts hus ⟨9, 9⟩
  exact ⟨_, _, hts, hus, hlexemes, hprinted, houtput ▸ hprinted, by decide +kernel, hwords⟩

end Program

end Treewalk
