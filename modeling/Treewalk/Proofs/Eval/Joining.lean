/-
Programs one below the other.

A block and another one after it have a derivation together, which is read as the statements of both
(`Block.parse_append`): no statement starts with a token that could go on with the one before. So a program below
another one is read as the statements of the first and then those of the second, on lines further down. Running them is
running the first and, if that is done, going on with the second in the world that it leaves (`Block.run_append`); where
the tokens stand does not show (`Program.joined_texts_compose`).
-/
import Treewalk.Proofs.Eval.Failures
import Treewalk.Proofs.Eval.Places
import Treewalk.Proofs.Grammar.Complete
import Treewalk.Proofs.Grammar.Sound
import Treewalk.Proofs.Token.Joining

namespace Treewalk

open Grammar Grammar.Derivation

/-! ## Reading -/

theorem Grammar.exists_append : (d d' : Derivation .block) → ∃ j : Derivation .block,
    j.meaning = d.meaning ++ d'.meaning ∧ j.yield = d.yield ++ d'.yield ∧
      j.parameterLists = d.parameterLists ++ d'.parameterLists
  | noStatement, d' => ⟨d', rfl, rfl, rfl⟩
  | statements first rest, d' => by
    obtain ⟨j, hm, hy, hp⟩ := exists_append rest d'
    exact ⟨statements first j, by simp [meaning, hm], by simp [yield, hy], by simp [parameterLists, hp]⟩

namespace Block

open Token

/-- the tokens of two blocks, with one end of input for both -/
theorem parse_append {ts us : List Token} {b c : Block} (hb : Block.parse ts = .ok b) (hc : Block.parse us = .ok c) :
    Block.parse (beforeEnd ts ++ us) = .ok (b ++ c) := by
  obtain ⟨d, hyield, rfl, hnodup, hread⟩ := exists_derivation_of_parse hb
  obtain ⟨d', hyield', rfl, hnodup', hread'⟩ := exists_derivation_of_parse hc
  obtain ⟨j, hm, hy, hp⟩ := exists_append d d'
  rw [← hm]
  apply j.parse_eq_meaning
  · have hbefore : beforeEnd (beforeEnd ts ++ us) = beforeEnd ts ++ beforeEnd us :=
      List.takeWhile_append_of_pos fun t ht => by simpa using d.kind_ne_endOfInput t (hyield ▸ ht)
    rw [hy, hyield, hyield', hbefore]
  · rw [hy]
    intro t ht
    rcases List.mem_append.1 ht with ht | ht
    · exact hread t ht
    · exact hread' t ht
  · rw [hp]
    intro ps hps
    rcases List.mem_append.1 hps with hps | hps
    · exact hnodup ps hps
    · exact hnodup' ps hps

end Block

/-! ## Running -/

theorem Stmt.execAll_append (limits : Limits) (frame : FrameId) (ss us : List Stmt) (w : World) :
    execAll limits frame (ss ++ us) w = (execAll limits frame ss w).andThen (execAll limits frame us) := by
  induction ss generalizing w with
  | nil => rfl
  | cons s ss ih =>
    rw [List.cons_append, execAll, execAll]
    cases s.exec limits frame w with
    | done w' => exact ih w'
    | failed d w' => rfl
    | unfinished w' => rfl

namespace Block

theorem run_append (b c : Block) (limits : Limits) :
    Block.run (b ++ c) limits = (b.run limits).andThen (c.exec limits World.root) :=
  Stmt.execAll_append limits World.root b c .initial

/-- two blocks that have been moved show what they show where they were -/
theorem shown_append_relocate (f g : Location → Location) (b c : Block) (limits : Limits) :
    (Block.run (b.relocate f ++ c.relocate g) limits).shown = (Block.run (b ++ c) limits).shown :=
  (Pairing.outcomeRel_execAll limits (b ++ c) ((Pairing.blockRel_relocate f b).append (Pairing.blockRel_relocate g c))
    (Pairing.worldRel_initial Pairing.places)).shown_eq.symm

end Block

/-! ## Programs -/

namespace Program

variable {p q r : Program} {b c : Block}

theorem exists_tokens (h : p.block = .ok b) :
    ∃ ts, p.tokens = .ok ts ∧ Block.parse ts = .ok b ∧ ∃ t ∈ ts, t.kind = .endOfInput := by
  rw [block] at h
  cases hts : p.tokens with
  | error d => rw [hts] at h; cases h
  | ok ts =>
    rw [hts] at h
    exact ⟨ts, rfl, h, (Token.nodup_locations_of_scan hts).2⟩

/-- a program's tokens stand in its own file and text -/
theorem relocate_home (h : p.block = .ok b) : b.relocate p.origin.home = b := by
  obtain ⟨ts, hts, hparse, hend⟩ := exists_tokens h
  have hsame : ts.map (Token.relocate p.origin.home) = ts :=
    Except.ok.inj ((Token.scan_home p.origin hts).symm.trans hts)
  have hmoved := Block.parse_relocate_of_end p.origin.home hend
  rw [hsame, hparse] at hmoved
  exact (Except.ok.inj hmoved).symm

theorem run_of_block (h : p.block = .ok b) (limits : Limits) :
    p.run limits = ((b.run limits).world.output, (b.run limits).diagnostic?) := by
  rw [run, h]

/-- **Programs compose by concatenation.** If a text is two programs with a line feed between them, then its statements
are those of both, with the tokens of the second as many lines further down as the first has. Running it shows what
running the first shows and, if that is done, what going on with the second shows. -/
theorem joined_texts_compose (hr : r.text = p.text ++ Bytes.lf :: q.text) (hp : p.block = .ok b)
    (hq : q.block = .ok c) :
    let lines := p.text.count Bytes.lf + 1
    let joined := b.relocate r.origin.home ++ c.relocate fun l => (r.origin.home l).down lines
    r.block = .ok joined ∧
      (p.origin = r.origin → q.origin = r.origin → joined = b ++ c.relocate (Location.down lines)) ∧
      ∀ limits, let o := (b.run limits).andThen (c.exec limits World.root)
        (Block.run joined limits).shown = o.shown ∧ (r.run limits).1 = o.world.output ∧
          (r.run limits).2.map Diagnostic.words = o.diagnostic?.map Diagnostic.words := by
  intro lines joined
  have hblock : r.block = .ok joined := by
    obtain ⟨ts, hts, hb, hend⟩ := exists_tokens hp
    obtain ⟨us, hus, hc, hend'⟩ := exists_tokens hq
    have hscan := Token.scan_append r.origin hts hus
    rw [← hr] at hscan
    rw [block, tokens, hscan]
    apply Block.parse_append
    · rw [Block.parse_relocate_of_end _ hend, hb]
      rfl
    · rw [Block.parse_relocate_of_end _ hend', hc]
      rfl
  refine ⟨hblock, ?_, ?_⟩
  · intro horigin horigin'
    have hb : b.relocate r.origin.home = b := horigin ▸ relocate_home hp
    have hc : c.relocate r.origin.home = c := horigin' ▸ relocate_home hq
    have hdown := Block.relocate_relocate r.origin.home (Location.down lines) c
    rw [hc] at hdown
    rw [hdown]
    exact congrArg (· ++ _) hb
  · intro limits o
    have hshown : (Block.run joined limits).shown = o.shown := by
      rw [Block.shown_append_relocate, Block.run_append]
    refine ⟨hshown, ?_, ?_⟩
    · rw [run_of_block hblock, ← Outcome.output_shown, ← Outcome.output_shown, hshown]
    · rw [run_of_block hblock, ← Outcome.words?_shown, ← Outcome.words?_shown, hshown]

/-- ends with a comment and without a line feed -/
def upper : Program := ⟨bytes "upper", bytes "fun f(a) = a + 1\nx := [0, f] // a function", true⟩

/-- calls what the other program declares, and fails -/
def lower : Program := ⟨bytes "lower", bytes "g := x[1]\nprint g(2)\nprint z", false⟩

theorem joined_texts_compose_upper : ∃ b c, upper.block = .ok b ∧ lower.block = .ok c ∧
    let both : Program := ⟨[], upper.text ++ Bytes.lf :: lower.text, true⟩
    both.block = .ok (b.relocate both.origin.home ++ c.relocate fun l => (both.origin.home l).down 2) ∧
      (both.run ⟨9, 9⟩).1 = bytes "3\n" ∧
      (both.run ⟨9, 9⟩).2.map Diagnostic.words =
        ((b.run ⟨9, 9⟩).andThen (c.exec ⟨9, 9⟩ World.root)).diagnostic?.map Diagnostic.words := by
  have hread : ∀ {p : Program}, p.block.toOption.isSome = true → ∃ b, p.block = .ok b := by
    intro p h
    cases hp : p.block with
    | error d => rw [hp] at h; cases h
    | ok b => exact ⟨b, rfl⟩
  obtain ⟨b, hb⟩ := hread (show upper.block.toOption.isSome = true by decide +kernel)
  obtain ⟨c, hc⟩ := hread (show lower.block.toOption.isSome = true by decide +kernel)
  refine ⟨b, c, hb, hc, ?_⟩
  intro both
  obtain ⟨hblock, -, hrun⟩ := joined_texts_compose (r := both) rfl hb hc
  exact ⟨hblock, by decide +kernel, (hrun ⟨9, 9⟩).2.2⟩

end Program

end Treewalk
