/-
Lines of a text and their traces.

The place behind a text is in the text's last line (`lastLine`), and what follows goes on with that line up to its line
feed (`firstLine`). So the line at a place is those two joined (`line_behind`). It is shown without its carriage
returns, while columns count them: the caret of a trace stands behind the shown part by as many bytes as there are
carriage returns before it (`drop_line_behind`).
-/
import Treewalk.Proofs.Token.Cut

namespace Treewalk

namespace Source

/-- the line that a text ends in -/
def lastLine (t : Bytes) : Bytes := (t.reverse.takeWhile (· != Bytes.lf)).reverse

/-- the line that a text starts with -/
def firstLine (t : Bytes) : Bytes := t.takeWhile (· != Bytes.lf)

/-- a line as it is shown -/
def visible (t : Bytes) : Bytes := t.filter (· != Bytes.cr)

theorem column_behind (t : Bytes) : (Position.behind t).column = 1 + (lastLine t).length := by
  simp [Position.behind, lastLine]

theorem lastLine_of_lf_notMem {t : Bytes} (h : Bytes.lf ∉ t) : lastLine t = t := by
  have hall := Bytes.bne_of_notMem (fun hmem => h (List.mem_reverse.1 hmem))
  rw [lastLine, List.takeWhile_eq_self_iff.2 hall, List.reverse_reverse]

theorem lastLine_cons_of_mem {b : UInt8} {t : Bytes} (h : Bytes.lf ∈ b :: t) : lastLine (b :: t) = lastLine t := by
  rw [lastLine, List.reverse_cons, List.takeWhile_append]
  split
  case isTrue hlength =>
    -- the line feed is not in the rest, so it is the first byte
    have hrest := List.takeWhile_eq_self_iff.1 ((List.takeWhile_prefix _).eq_of_length hlength)
    obtain rfl : b = Bytes.lf := by
      rcases List.mem_cons.1 h with hb | ht
      · exact hb.symm
      · exact absurd (hrest _ (List.mem_reverse.2 ht)) (by decide)
    simp [lastLine, List.takeWhile_eq_self_iff.2 hrest]
  case isFalse => rfl

/-! ## Segments -/

theorem exists_segments (t : Bytes) : ∃ ss, segments t = firstLine t :: ss := by
  induction t with
  | nil => exact ⟨[], rfl⟩
  | cons b t ih =>
    by_cases hb : b = Bytes.lf
    · exact ⟨segments t, by simp [segments, firstLine, hb]⟩
    · obtain ⟨ss, hss⟩ := ih
      exact ⟨ss, by simp [segments, hss, firstLine, hb]⟩

/-- the segment at a place: as many line feeds stand before it -/
theorem getElem?_segments (before rest : Bytes) :
    (segments (before ++ rest))[before.count Bytes.lf]? = some (lastLine before ++ firstLine rest) := by
  induction before with
  | nil =>
    obtain ⟨ss, hss⟩ := exists_segments rest
    simp [hss, lastLine]
  | cons b before ih =>
    by_cases hb : b = Bytes.lf
    · subst hb
      simp [segments, ih, lastLine_cons_of_mem]
    · obtain ⟨ss, hss⟩ := exists_segments (before ++ rest)
      rw [hss] at ih
      rw [List.count_cons_of_ne hb, List.cons_append, segments, if_neg hb, hss]
      by_cases hlf : Bytes.lf ∈ before
      · obtain ⟨n, hn⟩ := Nat.exists_eq_succ_of_ne_zero (List.count_pos_iff.2 hlf).ne'
        rw [hn] at ih ⊢
        rw [lastLine_cons_of_mem (List.mem_cons_of_mem _ hlf)]
        exact ih
      · rw [List.count_eq_zero.2 hlf] at ih ⊢
        rw [lastLine_of_lf_notMem hlf] at ih
        rw [lastLine_of_lf_notMem (List.not_mem_cons_of_ne_of_not_mem (Ne.symm hb) hlf)]
        exact congrArg (Option.map (b :: ·)) ih

theorem segments_of_lf_notMem {t : Bytes} (h : Bytes.lf ∉ t) : segments t = [t] := by
  induction t with
  | nil => rfl
  | cons b t ih =>
    rw [List.mem_cons, not_or] at h
    rw [segments, if_neg (Ne.symm h.1), ih h.2]

theorem segments_append_lf {t : Bytes} (h : Bytes.lf ∉ t) (u : Bytes) :
    segments (t ++ Bytes.lf :: u) = t :: segments u := by
  induction t with
  | nil => rw [List.nil_append, segments, if_pos rfl]
  | cons b t ih =>
    rw [List.mem_cons, not_or] at h
    rw [List.cons_append, segments, if_neg (Ne.symm h.1), ih h.2]

/-! ## Lines -/

theorem getD_dropEmptyLast (ts : List Bytes) (i : Nat) : (dropEmptyLast ts)[i]?.getD [] = ts[i]?.getD [] := by
  fun_induction dropEmptyLast ts generalizing i with
  | case1 => rfl
  | case2 t ht =>
    cases i with
    | zero => simpa using ht.symm
    | succ i => rfl
  | case3 t ht => rfl
  | case4 t ts _ ih =>
    cases i with
    | zero => rfl
    | succ i => exact ih i

/-- the line at a place -/
theorem line_behind (before rest : Bytes) :
    line (before ++ rest) (Position.behind before).line = visible (lastLine before ++ firstLine rest) := by
  have hnumber : 0 < ((Position.behind before).line : Int) := by
    simp only [Position.behind]
    omega
  have hindex : (((Position.behind before).line : Int) - 1).toNat = before.count Bytes.lf := by
    simp only [Position.behind]
    omega
  rw [line, if_pos hnumber, hindex, lines, getD_dropEmptyLast, List.getElem?_map, getElem?_segments]
  rfl

theorem lf_notMem_line_behind (before rest : Bytes) :
    Bytes.lf ∉ line (before ++ rest) (Position.behind before).line := by
  rw [line_behind]
  intro hmem
  rcases List.mem_append.1 (List.mem_filter.1 hmem).1 with hlf | hlf
  · exact absurd (List.mem_takeWhile_imp (List.mem_reverse.1 hlf)) (by decide)
  · exact absurd (List.mem_takeWhile_imp hlf) (by decide)

theorem lf_notMem_gutter (number : Int) : Bytes.lf ∉ gutter number := by
  have hnumber : Bytes.lf ∉ Bytes.ofInt number :=
    fun hmem => absurd (Bytes.isSigned_of_mem_ofInt _ hmem) (by decide)
  simp only [gutter, List.mem_append, not_or]
  exact ⟨⟨by decide, hnumber⟩, by decide⟩

theorem length_visible (t : Bytes) : (visible t).length + t.count Bytes.cr = t.length := by
  have hbytes := List.length_eq_countP_add_countP (l := t) (· != Bytes.cr)
  have hcount : t.countP (fun b => ¬ (b != Bytes.cr) = true) = t.count Bytes.cr :=
    List.countP_congr fun b _ => by simp
  rw [visible, ← List.countP_eq_length_filter, hbytes, hcount]

/-! ## Traces -/

theorem eq_of_mem_spaces {n : Nat} {b : UInt8} (h : b ∈ Bytes.spaces n) : b = 32 :=
  List.eq_of_mem_replicate h

theorem idxOf_caret (n : Nat) : (Bytes.spaces n ++ [94]).idxOf 94 = n := by
  rw [List.idxOf_append_of_notMem fun hmem => absurd (eq_of_mem_spaces hmem) (by decide)]
  simp [Bytes.spaces]

/-- a trace has two lines: that of the place behind its number, and the caret -/
theorem segments_context_behind (before rest : Bytes) :
    segments (context (before ++ rest) (Position.behind before).line (Position.behind before).column) =
      [gutter (Position.behind before).line ++ line (before ++ rest) (Position.behind before).line,
        Bytes.spaces ((gutter (Position.behind before).line).length + (lastLine before).length) ++ [94]] := by
  have hcolumn : (((Position.behind before).column : Int) - 1).toNat = (lastLine before).length := by
    rw [column_behind]
    omega
  have hfirst : Bytes.lf ∉ gutter (Position.behind before).line ++ line (before ++ rest) (Position.behind before).line := by
    rw [List.mem_append, not_or]
    exact ⟨lf_notMem_gutter _, lf_notMem_line_behind _ _⟩
  have hsecond : ∀ n, Bytes.lf ∉ Bytes.spaces n ++ [94] := by
    intro n
    rw [List.mem_append, not_or]
    exact ⟨fun hmem => absurd (eq_of_mem_spaces hmem) (by decide), by decide⟩
  rw [context, hcolumn, List.append_assoc, List.append_assoc]
  exact (segments_append_lf hfirst _).trans (congrArg _ (segments_of_lf_notMem (hsecond _)))

/-- as many bytes into the shown line as stand before the place in its line -/
theorem drop_line_behind (before rest : Bytes) :
    (line (before ++ rest) (Position.behind before).line).drop (lastLine before).length =
      (visible (firstLine rest)).drop ((lastLine before).count Bytes.cr) := by
  have hvisible : visible (lastLine before ++ firstLine rest) = visible (lastLine before) ++ visible (firstLine rest) :=
    List.filter_append ..
  rw [line_behind, hvisible, ← length_visible (lastLine before)]
  exact List.drop_length_add_append ..

/-- a trace has two lines, the second with a caret; from the caret's offset on, the first shows the rest of the line
less as many bytes as there are carriage returns in the part before -/
theorem segments_context (before rest : Bytes) : ∃ first second,
    segments (context (before ++ rest) (Position.behind before).line (Position.behind before).column) =
      [first, second] ∧
    94 ∈ second ∧
    first.drop (second.idxOf 94) = (visible (firstLine rest)).drop ((lastLine before).count Bytes.cr) := by
  refine ⟨_, _, segments_context_behind before rest, by simp, ?_⟩
  rw [idxOf_caret, List.drop_length_add_append, drop_line_behind]

end Source

end Treewalk
