/-
The caret of a trace.

A scan names places of two sorts: those of its tokens and, if it fails, that of the byte it rejects (`Marks`). The trace
of such a place shows its line and a caret in its column. The column counts every byte of the line, but the line is
shown without its carriage returns. So the caret stands under the first byte of the token if no carriage return is
before it in its line, and else too far to the right by one byte for each of them
(`Token.caret_is_shifted_by_carriage_returns`).
-/
import Treewalk.Proofs.Source

namespace Treewalk

namespace Token

open Lexeme Source

/-- a place with bytes that a scan names, and these bytes: a token before the end, or the byte that is rejected -/
inductive Marks (o : Origin) (text : Bytes) : Location → Bytes → Prop where
  | token {ts : List Token} {t : Token} (h : scan o text = .ok ts) (ht : t ∈ ts) (hlength : 0 < t.location.length) :
      Marks o text t.location t.text
  | byte {d : Diagnostic} {b : UInt8} (h : scan o text = .error d) (hcause : d.cause = .unexpectedByte b) :
      Marks o text d.location [b]

variable {o : Origin} {text w : Bytes} {l : Location}

theorem Marks.exists_behind (h : Marks o text l w) : ∃ before rest, text = before ++ (w ++ rest) ∧
    l = o.place (.behind before) w.length ∧ ∀ b ∈ w, isBlank b = false := by
  cases h with
  | @token ts t hscan ht hlength =>
    rcases mem_scan_cases hscan ht with rfl | ⟨before, rest, htext, hlongest, hlocation⟩
    · exact absurd hlength (lt_irrefl 0)
    · exact ⟨before, rest, htext, hlocation, fun b hb => hlongest.isLexeme.not_isBlank hb⟩
  | @byte d b hscan hcause =>
    obtain ⟨before, c, r, htext, hbarren, rfl⟩ := scan_eq_error hscan
    obtain rfl : c = b := Cause.unexpectedByte.inj hcause
    refine ⟨before, r, htext, rfl, List.forall_mem_singleton.2 ?_⟩
    rw [← Bool.not_eq_true]
    intro hblank
    exact List.cons_ne_nil _ _ (hbarren.no_gap [c] r (.blank hblank .nil) rfl)

/-- a text without blanks is shown as it is -/
theorem visible_firstLine_append (hw : ∀ b ∈ w, isBlank b = false) (rest : Bytes) :
    visible (firstLine (w ++ rest)) = w ++ visible (firstLine rest) := by
  have hlf : Bytes.lf ∉ w := fun hmem => absurd (hw _ hmem) (by decide)
  have hcr : Bytes.cr ∉ w := fun hmem => absurd (hw _ hmem) (by decide)
  rw [firstLine, List.takeWhile_append_of_pos (Bytes.bne_of_notMem hlf), visible, List.filter_append,
    List.filter_eq_self.2 (Bytes.bne_of_notMem hcr)]
  rfl

/-- **The caret is shifted by carriage returns.** The trace of a place that a scan names has two lines, the second one
with a caret. From the caret's offset on, the first line shows what stands at the place and behind it, less as many
bytes as there are carriage returns before the place in its line; without these it is the first byte of the text. -/
theorem caret_is_shifted_by_carriage_returns (ho : o.source = some text) (h : Marks o text l w) :
    ∃ before rest first second, text = before ++ (w ++ rest) ∧ l.line = (Position.behind before).line ∧
      l.column = (Position.behind before).column ∧ segments l.trace = [first, second] ∧ 94 ∈ second ∧
      first.drop (second.idxOf 94) =
        (w ++ visible (firstLine rest)).drop ((lastLine before).count Bytes.cr) ∧
      (Bytes.cr ∉ lastLine before → w <+: first.drop (second.idxOf 94)) := by
  obtain ⟨before, rest, htext, rfl, hw⟩ := h.exists_behind
  obtain ⟨first, second, hsegments, hcaret, hdrop⟩ := segments_context before (w ++ rest)
  rw [visible_firstLine_append hw] at hdrop
  have htrace : (o.place (.behind before) w.length).trace =
      context (before ++ (w ++ rest)) (Position.behind before).line (Position.behind before).column := by
    rw [Location.trace, Origin.place, ho, htext]
  refine ⟨before, rest, first, second, htext, rfl, rfl, htrace ▸ hsegments, hcaret, hdrop, ?_⟩
  intro hcr
  rw [hdrop, List.count_eq_zero.2 hcr, List.drop_zero]
  exact List.prefix_append _ _

/-- the place of the at sign behind a lone carriage return -/
def behindReturn : Location := ⟨bytes "<input>", 1, 2, 1, some (bytes "\r@")⟩

/-- The byte behind the carriage return is rejected, and the caret stands one byte behind the end of the shown line. -/
theorem caret_is_shifted_by_carriage_returns_alone : ∃ first second,
    scan (.named [] (some (bytes "\r@"))) (bytes "\r@") = .error ⟨.unexpectedByte 64, behindReturn⟩ ∧
      segments behindReturn.trace = [first, second] ∧ 94 ∈ second ∧ ¬ [64] <+: first.drop (second.idxOf 94) := by
  have hscan : scan (.named [] (some (bytes "\r@"))) (bytes "\r@") = .error ⟨.unexpectedByte 64, behindReturn⟩ := by
    decide +kernel
  obtain ⟨before, rest, first, second, htext, -, -, hsegments, hcaret, hdrop, -⟩ :=
    caret_is_shifted_by_carriage_returns rfl (.byte hscan rfl)
  obtain ⟨rfl, rfl⟩ : before = [13] ∧ rest = [] := by
    cases before with
    | nil => exact absurd (List.cons.inj htext).1 (by decide)
    | cons b before =>
      obtain ⟨rfl, htail⟩ := List.cons.inj htext
      cases before with
      | nil => exact ⟨rfl, (List.cons.inj htail).2.symm⟩
      | cons c before => exact absurd (List.cons.inj htail).2 (by simp)
  refine ⟨first, second, hscan, hsegments, hcaret, ?_⟩
  rw [hdrop]
  decide

end Token

end Treewalk
