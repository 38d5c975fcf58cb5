/-
Failures point into the source.

Each of the three stages fails at a place of the text (`Token.mem_scan_cases`): scanning at a byte that starts nothing,
reading at a token or at the end of the text, and running at a token of the tree that was read. For the last one there
is a pairing that admits the tokens of one list only: all trees that are read from it stand for themselves, and so do
the closures that a run makes of them, wherever they are called (`Block.exists_token_of_run`). Thus a program that fails
says where in its text (`Program.failures_point_into_source`).
-/
import Treewalk.Proofs.Eval.Joining
import Treewalk.Proofs.Eval.Replay
import Treewalk.Proofs.Reader.Completion

namespace Treewalk

open Grammar Grammar.Derivation

/-! ## Running -/

namespace Pairing

/-- a run beside itself, whose trees have tokens of a list only, and not its end -/
def tokensOf (ts : List Token) : Pairing where
  token t t' := t' = t ∧ t ∈ ts ∧ t.kind ≠ .endOfInput
  name _ := True
  cause c c' := c' = c
  ordinary _ _ := rfl

theorem FailureRel.exists_token {S : Pairing} {d d' : Diagnostic} (h : S.FailureRel d d') :
    ∃ t t', S.token t t' ∧ t.location = d.location := by
  cases h with
  | mk _ ht => exact ⟨_, _, ht, rfl⟩

end Pairing

namespace Block

variable {ts : List Token} {b : Block}

theorem blockRel_tokensOf (h : Block.parse ts = .ok b) : (Pairing.tokensOf ts).BlockRel b b :=
  Pairing.blockRel_of_parse h fun _ hmem hkind => ⟨⟨rfl, hmem, hkind⟩, trivial, fun _ _ => rfl, fun _ _ => rfl⟩

/-- what was read from tokens fails at one of them, and not at the end -/
theorem exists_token_of_run (h : Block.parse ts = .ok b) {limits : Limits} {d : Diagnostic}
    (hd : (b.run limits).diagnostic? = some d) : ∃ t ∈ ts, t.kind ≠ .endOfInput ∧ t.location = d.location := by
  have hout := Pairing.outcomeRel_execAll limits b (blockRel_tokensOf h) (Pairing.worldRel_initial _)
  rw [← exec, ← run, Outcome.eq_failed_of_diagnostic? hd] at hout
  cases hout with
  | failed hfailure _ =>
    obtain ⟨t, -, ⟨-, hmem, hkind⟩, hlocation⟩ := hfailure.exists_token
    exact ⟨t, hmem, hkind, hlocation⟩

end Block

/-! ## The three stages -/

namespace Program

open Lexeme (Barren Longest)

variable {p : Program} {ts : List Token} {t : Token} {d : Diagnostic} {limits : Limits}

/-- what starts at the place of a failure, where the text goes on with `rest`: a byte that is rejected, a token, or
nothing any more -/
inductive Target (p : Program) (d : Diagnostic) (rest : Bytes) : Prop
  | byte {b : UInt8} {r : Bytes} (hrest : rest = b :: r) (hb : Barren rest) (hcause : d.cause = .unexpectedByte b)
      (h : p.tokens = .error d)
  | token {ts : List Token} {t : Token} {r : Bytes} (hts : p.tokens = .ok ts) (ht : t ∈ ts)
      (hlocation : t.location = d.location) (hrest : rest = t.text ++ r) (hlongest : Longest t.kind t.text r)
  | nothing {ts : List Token} (hts : p.tokens = .ok ts) (h : Block.parse ts = .error d) (hrest : rest = [])

/-- the failure stands in the text behind `before` -/
def PointsBehind (p : Program) (d : Diagnostic) (before : Bytes) : Prop :=
  ∃ n rest, d.location = p.origin.place (.behind before) n ∧ p.text = before ++ rest ∧ p.Target d rest

theorem points_of_scan (h : p.tokens = .error d) : ∃ before, p.PointsBehind d before := by
  obtain ⟨before, b, r, htext, hb, rfl⟩ := Token.scan_eq_error h
  exact ⟨before, 1, b :: r, rfl, htext, .byte rfl hb rfl h⟩

/-- a failure at a token that is not the end -/
theorem points_of_token (hts : p.tokens = .ok ts) (ht : t ∈ ts) (hkind : t.kind ≠ .endOfInput)
    (hlocation : t.location = d.location) : ∃ before, p.PointsBehind d before := by
  rcases Token.mem_scan_cases hts ht with rfl | ⟨before, rest, htext, hlongest, hplace⟩
  · exact absurd rfl hkind
  · exact ⟨before, _, _, hlocation ▸ hplace, htext, .token hts ht hlocation rfl hlongest⟩

theorem points_of_parse (hts : p.tokens = .ok ts) (h : Block.parse ts = .error d) :
    ∃ before, p.PointsBehind d before := by
  obtain ⟨-, hend⟩ := Token.nodup_locations_of_scan hts
  obtain ⟨k, t, -, hget, hlocation, -⟩ := Reader.exists_refused h hend
  rcases Token.mem_scan_cases hts (List.mem_of_getElem? hget) with rfl | ⟨before, rest, htext, hlongest, hplace⟩
  · exact ⟨p.text, 0, [], hlocation.symm, (List.append_nil _).symm, .nothing hts h rfl⟩
  · exact ⟨before, _, _, hlocation ▸ hplace, htext,
      .token hts (List.mem_of_getElem? hget) hlocation rfl hlongest⟩

theorem points_of_run (h : (p.run limits).2 = some d) : ∃ before, p.PointsBehind d before := by
  cases hts : p.tokens with
  | error d' =>
    rw [run, block, hts] at h
    cases h
    exact points_of_scan hts
  | ok ts =>
    cases hb : Block.parse ts with
    | error d' =>
      simp only [run, block, hts, hb] at h
      cases h
      exact points_of_parse hts hb
    | ok b =>
      simp only [run, block, hts, hb] at h
      obtain ⟨t, ht, hkind, hlocation⟩ := Block.exists_token_of_run hb h
      exact points_of_token hts ht hkind hlocation

/-- **Failures point into the source.** A program that fails, be it while its text is scanned, read or run, names its
file and a line and a column in its text, at which a rejected byte or a token starts or the text ends. -/
theorem failures_point_into_source (h : (p.run limits).2 = some d) :
    d.location.file = (if p.file = [] then bytes "<input>" else p.file) ∧
    (∃ before rest, p.text = before ++ rest ∧ d.location.line = (Position.behind before).line ∧
      d.location.column = (Position.behind before).column ∧ p.Target d rest) ∧
    d.location ≠ Reader.endToken.location ∧ d.location ≠ .nowhere := by
  obtain ⟨before, n, rest, hplace, htext, htarget⟩ := points_of_run h
  have hfile : d.location.file = if p.file = [] then bytes "<input>" else p.file := by
    rw [hplace]
    simp [Origin.place, origin, Origin.named]
  refine ⟨hfile, ⟨before, rest, htext, by rw [hplace]; rfl, by rw [hplace]; rfl, htarget⟩, ?_, ?_⟩
  · -- lines are counted from one
    intro hend
    have hline : ((Position.behind before).line : Int) = 0 := by
      rw [hplace] at hend
      exact congrArg Location.line hend
    simp only [Position.behind] at hline
    omega
  · intro hnowhere
    rw [hnowhere] at hfile
    split at hfile
    · exact absurd hfile (by decide)
    · exact absurd hfile.symm ‹_›

/-- a function that is called further down and fails in its body -/
def failsInBody : Program := ⟨[], bytes "fun f(a) =\n  a[0]\nprint f([])", true⟩

/-- The failure is that of the bracket in the second line. -/
theorem failures_point_into_source_body : ∃ d, (failsInBody.run ⟨9, 9⟩).2 = some d ∧
    d.location = ⟨bytes "<input>", 2, 4, 1, some failsInBody.text⟩ ∧
    ∃ before rest, failsInBody.text = before ++ rest ∧ d.location.line = (Position.behind before).line ∧
      d.location.column = (Position.behind before).column ∧ failsInBody.Target d rest := by
  have hrun : (failsInBody.run ⟨9, 9⟩).2.map (·.location) = some ⟨bytes "<input>", 2, 4, 1, some failsInBody.text⟩ := by
    decide +kernel
  obtain ⟨d, hd, hlocation⟩ := Option.map_eq_some_iff.1 hrun
  exact ⟨d, hd, hlocation, (failures_point_into_source hd).2.1⟩

end Program

end Treewalk
