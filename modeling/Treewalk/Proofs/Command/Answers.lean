/-
The answer of a command: its status and its two channels.

A status is 0 or 1, and something stands in the second channel if and only if it is 1 (`answer_consistent`). Only a
command that executes a program has none, if the run does not end (`status?_answer_eq_none_iff`); the bound on rounds
shows in nothing else (`answer_of_more_rounds`).

A file that is there is a program, and the answer is what is done with it in the mode that the flags set
(`answer_of_chosen?`):
- if it is not made of lexemes, or if it is to be executed or dumped as a tree and is no program, nothing is written but
  the report;
- executing it writes what a run in a fresh world prints until it ends or fails, and the report if it fails
  (`process_execute`);
- dumping its tokens gives what it gives for any other text in its place with the same tokens, and dumping its tree what
  it gives for any other text with the same tree, whatever running them would do.
A report is the diagnostic with a line feed behind it, in red if the second channel is a terminal. Tokens carry the
source text for reports, but no dump looks at it (`Token.dump_relocate`, `Block.dump_relocate`): there a token's place
is a file, a line, a column and a length.
-/
import Mathlib.Data.List.TakeWhile
import Treewalk.Proofs.Command.Options
import Treewalk.Proofs.Eval.CallLimit
import Treewalk.Proofs.Reader.Relocation

namespace Treewalk

namespace Bytes

theorem beforeNul_beforeNul (t : Bytes) : t.beforeNul.beforeNul = t.beforeNul := List.takeWhile_idem

theorem beforeNul_append {t u : Bytes} (ht : t.beforeNul = t) (hu : u.beforeNul = u) :
    (t ++ u).beforeNul = t ++ u := by
  rw [beforeNul, List.takeWhile_append_of_pos (List.takeWhile_eq_self_iff.1 ht)]
  exact congrArg (t ++ ·) hu

end Bytes

/-! ## Dumps without the source text -/

/-- the place without the text that it points into -/
def Location.withoutSource (l : Location) : Location := { l with source := none }

section Relocate

variable (f : Location → Location)

mutual
theorem Expr.text_relocate : (e : Expr) → (e.relocate f).text = e.text
  | .numeral _ _ | .boolean _ _ | .variable _ _ | .missing => rfl
  | .unary _ _ e => by simp [text_relocate e]
  | .binary _ _ l r => by simp [text_relocate l, text_relocate r]
  | .conditional _ c y n => by simp [text_relocate c, text_relocate y, text_relocate n]
  | .call _ _ args => by simp [texts_relocate args]
  | .array _ items => by simp [texts_relocate items]
  | .subscript _ a i => by simp [text_relocate a, text_relocate i]

theorem Expr.texts_relocate : (es : List Expr) → texts (relocateAll f es) = texts es
  | [] => rfl
  | e :: es => by simp [text_relocate e, texts_relocate es]
end

mutual
theorem Stmt.text_relocate (indent : Nat) : (s : Stmt) → (s.relocate f).text indent = s.text indent
  | .missing => rfl
  | .declare _ _ _ | .assign _ _ _ | .print _ _ | .function _ _ _ _ => by simp [Expr.text_relocate]
  | .loop _ _ body => by simp [Expr.text_relocate, blockText_relocate (indent + 2) body]

theorem Stmt.blockText_relocate (indent : Nat) :
    (ss : List Stmt) → blockText indent (relocateAll f ss) = blockText indent ss
  | [] => rfl
  | s :: ss => by simp [text_relocate indent s, blockText_relocate indent ss]
end

variable {f}

theorem Token.dumpAll_relocate (hf : ∀ l, (f l).text = l.text ∧ (f l).length = l.length) (ts : List Token) :
    dump.dumpAll (ts.map (relocate f)) = dump.dumpAll ts := by
  have hfields : ∀ t : Token, (t.relocate f).dumpFields = t.dumpFields := by
    intro t
    simp only [dumpFields, relocate, hf]
  induction ts with
  | nil => rfl
  | cons t ts ih =>
    cases ts with
    | nil => simp only [List.map_cons, List.map_nil, dump.dumpAll, hfields]
    | cons u us =>
      rw [List.map_cons] at ih
      simp only [List.map_cons, dump.dumpAll, hfields, ih]

/-- a dump of tokens sees the file, line, column and length of a place -/
theorem Token.dump_relocate (hf : ∀ l, (f l).text = l.text ∧ (f l).length = l.length) (ts : List Token) :
    dump (ts.map (relocate f)) = dump ts := by
  rw [dump, dumpAll_relocate hf, dump]

theorem Stmt.dumpEntries_relocate (hf : ∀ l, (f l).text = l.text) (margin : Bytes) (ss : List Stmt) :
    dumpEntries margin (relocateAll f ss) = dumpEntries margin ss := by
  have hentry : ∀ s : Stmt, (s.relocate f).dumpEntry margin = s.dumpEntry margin := by
    intro s
    have htext := text_relocate f 0 s
    cases s <;> simp_all only [dumpEntry, relocate, label?, Token.relocate]
  induction ss with
  | nil => rfl
  | cons s ss ih =>
    cases ss with
    | nil => simp only [relocateAll, dumpEntries, hentry]
    | cons u us =>
      rw [relocateAll] at ih
      simp only [relocateAll, dumpEntries, hentry, ih]

/-- a dump of a tree sees the file, line and column of a place -/
theorem Block.dump_relocate (hf : ∀ l, (f l).text = l.text) (b : Block) (indent : Nat) :
    (b.relocate f).dump indent = b.dump indent := by
  rw [dump, Block.relocate, Stmt.dumpEntries_relocate hf, dump]

end Relocate

/-! ## Statuses -/

/-- a status is 0 or 1, and there is something in the second channel if and only if it is 1 -/
structure Answer.Consistent (a : Answer) : Prop where
  status : ∀ n, a.status? = some n → n = 0 ∨ n = 1
  err : a.err ≠ [] ↔ a.status? = some 1

theorem Answer.consistent_success (out : Bytes) : Consistent ⟨some 0, out, []⟩ := ⟨by simp, by simp⟩

theorem Answer.consistent_failure (out : Bytes) {err : Bytes} (h : err ≠ []) : Consistent ⟨some 1, out, err⟩ :=
  ⟨by simp, by simp [h]⟩

namespace Command

open Answer (consistent_success consistent_failure)

variable {setting : Setting} {look : Bytes → Option Entry} {mode : Mode} {p : Program}

theorem failure_consistent (setting : Setting) (out message : Bytes) : (failure setting out message).Consistent :=
  consistent_failure _ (by simp [show bytes "\n" ≠ [] by decide])

theorem executed_consistent (setting : Setting) (o : Outcome) : (executed setting o).Consistent := by
  cases o with
  | done w => exact consistent_success _
  | failed d w => exact failure_consistent _ _ _
  | unfinished w => exact ⟨by simp [executed], by simp [executed]⟩

/-! ## Programs -/

/-- a text that is not made of lexemes fails in every mode -/
theorem process_of_tokens_error {d : Diagnostic} (h : p.tokens = .error d) (setting : Setting) (mode : Mode) :
    process setting mode p = failure setting [] d.report.shown := by
  rw [process, h]

theorem process_tokens {ts : List Token} (h : p.tokens = .ok ts) (setting : Setting) :
    process setting .tokens p = ⟨some 0, Token.dump ts, []⟩ := by
  rw [process, h]

/-- a text that is no program fails unless only its tokens are asked for -/
theorem process_of_block_error {d : Diagnostic} (h : p.block = .error d) (setting : Setting) (hmode : mode ≠ .tokens) :
    process setting mode p = failure setting [] d.report.shown := by
  cases ht : p.tokens with
  | error d' =>
    rw [Program.block, ht] at h
    rw [process_of_tokens_error ht, Except.error.inj h]
  | ok ts =>
    rw [Program.block, ht] at h
    cases mode with
    | tokens => exact absurd rfl hmode
    | tree => simp only [process, ht, h]
    | execute => simp only [process, ht, h]

theorem exists_tokens_of_block {b : Block} (h : p.block = .ok b) :
    ∃ ts, p.tokens = .ok ts ∧ Block.parse ts = .ok b := by
  cases ht : p.tokens with
  | error d =>
    rw [Program.block, ht] at h
    cases h
  | ok ts =>
    rw [Program.block, ht] at h
    exact ⟨ts, rfl, h⟩

theorem process_tree {b : Block} (h : p.block = .ok b) (setting : Setting) :
    process setting .tree p = ⟨some 0, b.dump 0, []⟩ := by
  obtain ⟨ts, hts, hb⟩ := exists_tokens_of_block h
  simp only [process, hts, hb]

/-- executing a program answers with what it prints, and with the failure that ends it if there is one -/
theorem process_execute {b : Block} (h : p.block = .ok b) (setting : Setting) :
    process setting .execute p = executed setting (b.run setting.limits) := by
  obtain ⟨ts, hts, hb⟩ := exists_tokens_of_block h
  simp only [process, hts, hb]

/-- what is done with a program: it fails before it is run, it is dumped, or it is executed -/
theorem process_cases (setting : Setting) (mode : Mode) (p : Program) :
    (∃ d : Diagnostic, ∀ limits, process { setting with limits := limits } mode p = failure setting [] d.report.shown) ∨
    (∃ out, ∀ limits, process { setting with limits := limits } mode p = ⟨some 0, out, []⟩) ∨
    mode = .execute ∧ ∃ b, p.block = .ok b := by
  cases ht : p.tokens with
  | error d => exact .inl ⟨d, fun _ => process_of_tokens_error ht _ _⟩
  | ok ts =>
    cases mode with
    | tokens => exact .inr (.inl ⟨_, fun _ => process_tokens ht _⟩)
    | tree =>
      cases hb : p.block with
      | error d => exact .inl ⟨d, fun _ => process_of_block_error hb _ (by decide)⟩
      | ok b => exact .inr (.inl ⟨_, fun _ => process_tree hb _⟩)
    | execute =>
      cases hb : p.block with
      | error d => exact .inl ⟨d, fun _ => process_of_block_error hb _ (by decide)⟩
      | ok b => exact .inr (.inr ⟨rfl, b, rfl⟩)

theorem process_consistent (setting : Setting) (mode : Mode) (p : Program) : (process setting mode p).Consistent := by
  rcases process_cases setting mode p with ⟨d, h⟩ | ⟨out, h⟩ | ⟨rfl, b, hb⟩
  · exact (h setting.limits).symm ▸ failure_consistent _ _ _
  · exact (h setting.limits).symm ▸ consistent_success _
  · rw [process_execute hb]
    exact executed_consistent _ _

/-- only a run that does not end keeps a program from a status -/
theorem status?_process_eq_none_iff : (process setting mode p).status? = none ↔
    mode = .execute ∧ ∃ b w, p.block = .ok b ∧ b.run setting.limits = .unfinished w := by
  constructor
  · intro hnone
    rcases process_cases setting mode p with ⟨d, h⟩ | ⟨out, h⟩ | ⟨rfl, b, hb⟩
    · rw [show process setting mode p = _ from h setting.limits] at hnone
      cases hnone
    · rw [show process setting mode p = _ from h setting.limits] at hnone
      cases hnone
    · rw [process_execute hb] at hnone
      cases ho : b.run setting.limits with
      | done w | failed d w =>
        rw [ho] at hnone
        cases hnone
      | unfinished w => exact ⟨rfl, b, w, hb, ho⟩
  · rintro ⟨rfl, b, w, hb, ho⟩
    rw [process_execute hb, ho, executed]

theorem process_of_more_rounds {rounds : Nat} (hle : setting.limits.rounds ≤ rounds)
    (hstatus : (process setting mode p).status? ≠ none) :
    process { setting with limits := ⟨setting.limits.calls, rounds⟩ } mode p = process setting mode p := by
  rcases process_cases setting mode p with ⟨d, h⟩ | ⟨out, h⟩ | ⟨rfl, b, hb⟩
  · exact (h _).trans (h setting.limits).symm
  · exact (h _).trans (h setting.limits).symm
  · rw [process_execute hb] at hstatus
    have hended : (b.run setting.limits).Ended := by
      cases ho : b.run setting.limits with
      | done w | failed d w => trivial
      | unfinished w =>
        rw [ho] at hstatus
        exact hstatus rfl
    rw [process_execute hb, process_execute hb]
    exact congrArg _ (Block.exec_eq_of_ended hle hended)

/-! ## The file that is chosen -/

/-- the mode and the program of a command, if it is for a file that is there -/
def chosen? (look : Bytes → Option Entry) : Command → Option (Mode × Program)
  | .file mode path => (resolve look path).bind fun found =>
    (look found).map fun entry => (mode, ⟨found, entry.contents, true⟩)
  | _ => none

theorem eq_of_ofFile {mode m : Mode} {path q : Bytes} (h : ofFile mode q = .file m path) : path = q := by
  unfold ofFile at h
  split at h
  · cases h
  · exact (Command.file.inj h).2.symm

/-- the file of a command is an argument, so it has no NUL byte -/
theorem beforeNul_of_ofArguments {args : List Bytes} {mode : Mode} {path : Bytes}
    (h : ofArguments args = .file mode path) : path.beforeNul = path := by
  rw [ofArguments_eq] at h
  cases hargs : afterFlags args with
  | nil =>
    rw [hargs] at h
    cases h
  | cons a rest =>
    rw [hargs, List.map_cons, ofArgumentsIn_decided (ofFlag?_of_afterFlags hargs)] at h
    split_ifs at h
    · cases rest with
      | nil => cases h
      | cons q rest => rw [eq_of_ofFile h, Bytes.beforeNul_beforeNul]
    · rw [eq_of_ofFile h, Bytes.beforeNul_beforeNul]

theorem beforeNul_of_resolve {path found : Bytes} (hpath : path.beforeNul = path)
    (h : resolve look path = some found) : found.beforeNul = found := by
  unfold resolve at h
  split_ifs at h
  · cases h
    exact hpath
  · cases h
    exact Bytes.beforeNul_append hpath (by decide)

theorem isSome_of_resolve {path found : Bytes} (h : resolve look path = some found) : (look found).isSome = true := by
  unfold resolve at h
  split_ifs at h with hpath hextended
  · cases h
    exact hpath
  · cases h
    exact (Bool.and_eq_true_iff.1 hextended).2

/-- the answer for a file that is there is what is done with its program -/
theorem answer_of_chosen? {args : List Bytes} (h : chosen? look (ofArguments args) = some (mode, p))
    (setting : Setting) : answer setting look args = process setting mode p := by
  cases hc : ofArguments args with
  | file m path =>
    rw [hc, chosen?] at h
    obtain ⟨found, hfound, hmap⟩ := Option.bind_eq_some_iff.1 h
    obtain ⟨entry, hentry, heq⟩ := Option.map_eq_some_iff.1 hmap
    cases heq
    have hnul := beforeNul_of_resolve (beforeNul_of_ofArguments hc) hfound
    simp only [answer, hc, perform, hfound, processFile, hnul, hentry]
  | version | help | usageError | unknownOption a =>
    rw [hc] at h
    cases h

/-- without such a file there is an answer at once, with a status -/
theorem perform_of_not_chosen? {c : Command} (h : chosen? look c = none) (setting : Setting) :
    (c.perform setting look).Consistent ∧ (c.perform setting look).status? ≠ none ∧
      ∀ limits, c.perform { setting with limits := limits } look = c.perform setting look := by
  cases c with
  | version => exact ⟨consistent_success _, Option.some_ne_none _, fun _ => rfl⟩
  | help => exact ⟨consistent_success _, Option.some_ne_none _, fun _ => rfl⟩
  | usageError => exact ⟨consistent_failure _ (by decide), Option.some_ne_none _, fun _ => rfl⟩
  | unknownOption a =>
    have htext : bytes "bella: unknown option " ≠ [] := by decide
    exact ⟨consistent_failure _ (by simp [htext]), Option.some_ne_none _, fun _ => rfl⟩
  | file mode path =>
    cases hfound : resolve look path with
    | none =>
      simp only [perform, hfound]
      exact ⟨failure_consistent _ _ _, Option.some_ne_none _, fun _ => rfl⟩
    | some found =>
      obtain ⟨entry, hentry⟩ := Option.isSome_iff_exists.1 (isSome_of_resolve hfound)
      simp [chosen?, hfound, hentry] at h

theorem answer_consistent (setting : Setting) (look : Bytes → Option Entry) (args : List Bytes) :
    (answer setting look args).Consistent := by
  cases hp : chosen? look (ofArguments args) with
  | none => exact (perform_of_not_chosen? hp setting).1
  | some chosen =>
    rw [answer_of_chosen? hp]
    exact process_consistent _ _ _

theorem status?_answer_eq_none_iff {args : List Bytes} : (answer setting look args).status? = none ↔
    ∃ p b w, chosen? look (ofArguments args) = some (.execute, p) ∧ p.block = .ok b ∧
      b.run setting.limits = .unfinished w := by
  cases hp : chosen? look (ofArguments args) with
  | none => exact iff_of_false (perform_of_not_chosen? hp setting).2.1 (by simp)
  | some chosen =>
    obtain ⟨mode, p⟩ := chosen
    rw [answer_of_chosen? hp, status?_process_eq_none_iff]
    constructor
    · rintro ⟨rfl, b, w, hb, hw⟩
      exact ⟨p, b, w, rfl, hb, hw⟩
    · rintro ⟨q, b, w, hq, hb, hw⟩
      cases hq
      exact ⟨rfl, b, w, hb, hw⟩

/-- the bound on rounds shows in nothing but a missing status -/
theorem answer_of_more_rounds {args : List Bytes} {rounds : Nat} (hle : setting.limits.rounds ≤ rounds)
    (hstatus : (answer setting look args).status? ≠ none) :
    answer { setting with limits := ⟨setting.limits.calls, rounds⟩ } look args = answer setting look args := by
  cases hp : chosen? look (ofArguments args) with
  | none => exact (perform_of_not_chosen? hp setting).2.2 _
  | some chosen =>
    rw [answer_of_chosen? hp] at hstatus ⊢
    rw [answer_of_chosen? hp]
    exact process_of_more_rounds hle hstatus

/-- **Status, output and errors agree.** Only a run that does not end has no status. The status is 1 if and only if
there is something in the error channel; a report stands there in red if that is a terminal. Dumps depend on the tokens
or on the tree alone. -/
theorem answers_agree (setting : Setting) (look : Bytes → Option Entry) (args : List Bytes) :
    let a := answer setting look args
    let report (d : Diagnostic) : Bytes :=
      (if setting.terminal then bytes "\x1b[31m" ++ d.report.shown ++ bytes "\x1b[0m" else d.report.shown) ++ bytes "\n"
    (∀ n, a.status? = some n → n = 0 ∨ n = 1) ∧
    (a.err ≠ [] ↔ a.status? = some 1) ∧
    (a.status? = none ↔ ∃ p b w, chosen? look (ofArguments args) = some (.execute, p) ∧ p.block = .ok b ∧
      b.run setting.limits = .unfinished w) ∧
    (a.status? ≠ none → ∀ rounds, setting.limits.rounds ≤ rounds →
      answer { setting with limits := ⟨setting.limits.calls, rounds⟩ } look args = a) ∧
    ∀ mode p, chosen? look (ofArguments args) = some (mode, p) →
      (∀ d, p.tokens = .error d → a = ⟨some 1, [], report d⟩) ∧
      (∀ d, p.block = .error d → mode ≠ .tokens → a = ⟨some 1, [], report d⟩) ∧
      (mode = .execute → ∀ b, p.block = .ok b →
        (∀ w, b.run setting.limits = .done w → a = ⟨some 0, w.output, []⟩) ∧
        (∀ d w, b.run setting.limits = .failed d w → a = ⟨some 1, w.output, report d⟩) ∧
        ∀ w, b.run setting.limits = .unfinished w → a = ⟨none, w.output, []⟩) ∧
      (mode = .tokens → ∀ setting' look' p' ts ts', chosen? look' (ofArguments args) = some (.tokens, p') →
        p.tokens = .ok ts → p'.tokens = .ok ts' →
        ts.map (Token.relocate Location.withoutSource) = ts'.map (Token.relocate Location.withoutSource) →
        answer setting' look' args = a) ∧
      (mode = .tree → ∀ setting' look' p' b b', chosen? look' (ofArguments args) = some (.tree, p') →
        p.block = .ok b → p'.block = .ok b' →
        b.relocate Location.withoutSource = b'.relocate Location.withoutSource →
        answer setting' look' args = a) := by
  intro a report
  have hconsistent : a.Consistent := answer_consistent setting look args
  refine ⟨hconsistent.status, hconsistent.err, status?_answer_eq_none_iff, fun hstatus rounds hle =>
    answer_of_more_rounds hle hstatus, fun mode p hp => ?_⟩
  have ha : a = process setting mode p := answer_of_chosen? hp setting
  refine ⟨fun d hd => ?_, fun d hd hmode => ?_, ?_, ?_, ?_⟩
  · rw [ha, process_of_tokens_error hd]
    rfl
  · rw [ha, process_of_block_error hd setting hmode]
    rfl
  · rintro rfl b hb
    rw [ha, process_execute hb]
    refine ⟨fun w hw => ?_, fun d w hw => ?_, fun w hw => ?_⟩
    · rw [hw, executed]
    · rw [hw]
      rfl
    · rw [hw, executed]
  · rintro rfl setting' look' p' ts ts' hp' hts hts' hsame
    have hplace : ∀ l : Location, l.withoutSource.text = l.text ∧ l.withoutSource.length = l.length :=
      fun l => ⟨rfl, rfl⟩
    rw [ha, answer_of_chosen? hp', process_tokens hts, process_tokens hts', ← Token.dump_relocate hplace, ← hsame,
      Token.dump_relocate hplace]
  · rintro rfl setting' look' p' b b' hp' hb hb' hsame
    have hplace : ∀ l : Location, l.withoutSource.text = l.text := fun l => rfl
    rw [ha, answer_of_chosen? hp', process_tree hb, process_tree hb', ← Block.dump_relocate hplace, ← hsame,
      Block.dump_relocate hplace]

/-- prints a number and fails -/
def halfway : Program := ⟨bytes "half.bella", bytes "print 1\nprint x // 2", true⟩

/-- the same tokens and another comment -/
def remarked : Program := ⟨bytes "half.bella", bytes "print 1\nprint x // 3", true⟩

/-- goes on for ever -/
def endless : Program := ⟨bytes "endless.bella", bytes "while true { }", true⟩

/-- nothing but a program stands there -/
def only (p : Program) (path : Bytes) : Option Entry := if path = p.file then some (.file p.text) else none

/-- A program that prints and fails, executed and dumped; and one that goes on for ever. -/
theorem answers_agree_halfway :
    (∃ b d w, halfway.block = .ok b ∧ b.run .standard = .failed d w ∧
      answer ⟨.standard, false⟩ (only halfway) [bytes "half"] =
        ⟨some 1, bytes "1\n", d.report.shown ++ bytes "\n"⟩ ∧
      answer ⟨.standard, true⟩ (only halfway) [bytes "half"] =
        ⟨some 1, bytes "1\n", bytes "\x1b[31m" ++ d.report.shown ++ bytes "\x1b[0m" ++ bytes "\n"⟩) ∧
    answer .standard (only remarked) [bytes "--tokens", bytes "half"] =
      answer .standard (only halfway) [bytes "--tokens", bytes "half"] ∧
    answer ⟨⟨1, 3⟩, false⟩ (only endless) [bytes "endless"] = ⟨none, [], []⟩ ∧
    ∃ p b w, chosen? (only endless) (ofArguments [bytes "endless"]) = some (.execute, p) ∧ p.block = .ok b ∧
      b.run ⟨1, 3⟩ = .unfinished w := by
  refine ⟨?_, ?_, ?_⟩
  · have hfails : (halfway.run .standard).2.isSome = true := by decide +kernel
    have hprinted : (halfway.run .standard).1 = bytes "1\n" := by decide +kernel
    have hread : halfway.block.isOk = true := by decide +kernel
    cases hb : halfway.block with
    | error d =>
      rw [hb] at hread
      cases hread
    | ok b =>
      simp only [Program.run, hb] at hfails hprinted
      cases ho : b.run .standard with
      | done w | unfinished w =>
        rw [ho] at hfails
        cases hfails
      | failed d w =>
        rw [ho, Outcome.world] at hprinted
        have hanswer := fun terminal =>
          (((answers_agree ⟨.standard, terminal⟩ (only halfway) [bytes "half"]).2.2.2.2 .execute halfway rfl).2.2.1 rfl
            b hb).2.1 d w ho
        rw [hprinted] at hanswer
        exact ⟨b, d, w, rfl, ho, hanswer false, hanswer true⟩
  · have hsame : halfway.tokens.map (List.map (Token.relocate .withoutSource)) =
        remarked.tokens.map (List.map (Token.relocate .withoutSource)) := by decide +kernel
    have hread : halfway.tokens.isOk = true ∧ remarked.tokens.isOk = true := by decide +kernel
    cases hts : halfway.tokens with
    | error d =>
      rw [hts] at hread
      cases hread.1
    | ok ts =>
      cases hts' : remarked.tokens with
      | error d =>
        rw [hts'] at hread
        cases hread.2
      | ok ts' =>
        rw [hts, hts'] at hsame
        exact ((answers_agree .standard (only halfway) [bytes "--tokens", bytes "half"]).2.2.2.2 .tokens halfway
          rfl).2.2.2.1 rfl .standard (only remarked) remarked ts ts' rfl hts hts' (Except.ok.inj hsame)
  · have hanswer : answer ⟨⟨1, 3⟩, false⟩ (only endless) [bytes "endless"] = ⟨none, [], []⟩ := by decide +kernel
    exact ⟨hanswer, (answers_agree ⟨⟨1, 3⟩, false⟩ (only endless) [bytes "endless"]).2.2.1.1
      (congrArg Answer.status? hanswer)⟩

end Command

end Treewalk
