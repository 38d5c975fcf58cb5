/-
The lines of a text and their numbers.

A segment of a text is what stands between two of its line feeds, or between a line feed and an end of the text
(`IsSegment`). It is known by its place: the line feeds before it count its number. Line `n` is segment `n` without its
carriage returns, and it is left out only if it is the last one and nothing of it would be shown (`mem_numberedLines`).
A scan counts lines and columns on its own, byte by byte, and comes to the same numbers
(`lines_are_segments_without_returns`).
-/
import Treewalk.Proofs.Source

namespace Treewalk

namespace Source

variable {text before s after : Bytes} {n : Nat} {t : Bytes}

/-- `s` stands in a text behind `before`, with a line feed or an end of the text on each side and no line feed in it -/
structure IsSegment (text before s after : Bytes) : Prop where
  cut : text = before ++ (s ++ after)
  unbroken : Bytes.lf ∉ s
  opens : before = [] ∨ before.getLast? = some Bytes.lf
  closes : after = [] ∨ after.head? = some Bytes.lf

/-! ## Segments by number -/

theorem length_segments (t : Bytes) : (segments t).length = t.count Bytes.lf + 1 := by
  induction t with
  | nil => rfl
  | cons b t ih =>
    by_cases hb : b = Bytes.lf
    · simp [segments, hb, ih]
    · obtain ⟨ss, hss⟩ := exists_segments t
      rw [hss] at ih
      simpa [segments, hb, hss] using ih

theorem lastLine_eq_nil (h : before = [] ∨ before.getLast? = some Bytes.lf) : lastLine before = [] := by
  rcases h with rfl | h
  · rfl
  · obtain ⟨init, rfl⟩ := List.getLast?_eq_some_iff.1 h
    simp [lastLine]

theorem firstLine_append (hs : Bytes.lf ∉ s) (h : after = [] ∨ after.head? = some Bytes.lf) :
    firstLine (s ++ after) = s := by
  rw [firstLine, List.takeWhile_append_of_pos (Bytes.bne_of_notMem hs)]
  rcases h with rfl | h
  · simp
  · obtain ⟨rest, rfl⟩ := List.head?_eq_some_iff.1 h
    simp

/-- the number of a segment is told by the line feeds before it -/
theorem IsSegment.getElem? (h : IsSegment text before s after) :
    (segments text)[before.count Bytes.lf]? = some s := by
  rw [h.cut, getElem?_segments, lastLine_eq_nil h.opens, firstLine_append h.unbroken h.closes, List.nil_append]

/-- a text from its first line feed on -/
theorem dropWhile_cases (t : Bytes) :
    t.dropWhile (· != Bytes.lf) = [] ∨ (t.dropWhile (· != Bytes.lf)).head? = some Bytes.lf := by
  have hhead := List.head?_dropWhile_not (· != Bytes.lf) t
  cases hdrop : t.dropWhile (· != Bytes.lf) with
  | nil => exact .inl rfl
  | cons b rest =>
    rw [hdrop] at hhead
    exact .inr (by simpa using hhead)

/-- a text up to its last line -/
theorem exists_append_lastLine (t : Bytes) :
    ∃ start, t = start ++ lastLine t ∧ (start = [] ∨ start.getLast? = some Bytes.lf) := by
  refine ⟨(t.reverse.dropWhile (· != Bytes.lf)).reverse, ?_, ?_⟩
  · rw [lastLine, ← List.reverse_append, List.takeWhile_append_dropWhile, List.reverse_reverse]
  · rw [List.reverse_eq_nil_iff, List.getLast?_reverse]
    exact dropWhile_cases t.reverse

theorem lf_notMem_lastLine (t : Bytes) : Bytes.lf ∉ lastLine t :=
  fun hmem => absurd (List.mem_takeWhile_imp (List.mem_reverse.1 hmem)) (by decide)

theorem lf_notMem_firstLine (t : Bytes) : Bytes.lf ∉ firstLine t :=
  fun hmem => absurd (List.mem_takeWhile_imp hmem) (by decide)

/-- every place of a text is in a segment -/
theorem exists_isSegment (before rest : Bytes) : ∃ start after, before = start ++ lastLine before ∧
    IsSegment (before ++ rest) start (lastLine before ++ firstLine rest) after := by
  obtain ⟨start, hstart, hopens⟩ := exists_append_lastLine before
  refine ⟨start, rest.dropWhile (· != Bytes.lf), hstart, ?_, ?_, hopens, dropWhile_cases rest⟩
  · calc before ++ rest = start ++ lastLine before ++ (firstLine rest ++ rest.dropWhile (· != Bytes.lf)) := by
          rw [← hstart, firstLine, List.takeWhile_append_dropWhile]
      _ = start ++ (lastLine before ++ firstLine rest ++ rest.dropWhile (· != Bytes.lf)) := by
          simp only [List.append_assoc]
  · rw [List.mem_append, not_or]
    exact ⟨lf_notMem_lastLine before, lf_notMem_firstLine rest⟩

/-- as many line feeds as one likes, up to all of them, stand before some place of a text -/
theorem exists_append_of_le_count {t : Bytes} {m : Nat} (h : m ≤ t.count Bytes.lf) :
    ∃ before rest, t = before ++ rest ∧ before.count Bytes.lf = m := by
  induction t generalizing m with
  | nil => exact ⟨[], [], rfl, (Nat.le_zero.1 h).symm⟩
  | cons b t ih =>
    cases m with
    | zero => exact ⟨[], b :: t, rfl, rfl⟩
    | succ m =>
      by_cases hb : b = Bytes.lf
      · obtain ⟨before, rest, rfl, hcount⟩ := ih (m := m) (by simpa [hb] using h)
        exact ⟨b :: before, rest, rfl, by simp [hb, hcount]⟩
      · rw [List.count_cons_of_ne hb] at h
        obtain ⟨before, rest, rfl, hcount⟩ := ih h
        exact ⟨b :: before, rest, rfl, by rw [List.count_cons_of_ne hb, hcount]⟩

theorem count_of_append_lastLine {start : Bytes} (h : before = start ++ lastLine before) :
    before.count Bytes.lf = start.count Bytes.lf := by
  conv_lhs => rw [h]
  rw [List.count_append, List.count_eq_zero.2 (lf_notMem_lastLine before), Nat.add_zero]

/-- every number up to that of the last segment has a segment -/
theorem exists_isSegment_of_le (h : n ≤ text.count Bytes.lf) :
    ∃ before s after, IsSegment text before s after ∧ before.count Bytes.lf = n := by
  obtain ⟨before, rest, rfl, hcount⟩ := exists_append_of_le_count h
  obtain ⟨start, after, hstart, hsegment⟩ := exists_isSegment before rest
  exact ⟨start, _, after, hsegment, (count_of_append_lastLine hstart).symm.trans hcount⟩

theorem IsSegment.count_le (h : IsSegment text before s after) : before.count Bytes.lf ≤ text.count Bytes.lf := by
  rw [h.cut, List.count_append]
  exact Nat.le_add_right _ _

/-- two segments with one number are one -/
theorem IsSegment.eq_of_count_eq {before' s' after' : Bytes} (h : IsSegment text before s after)
    (h' : IsSegment text before' s' after') (hcount : before.count Bytes.lf = before'.count Bytes.lf) : s = s' := by
  have hs := h.getElem?
  rw [hcount, h'.getElem?] at hs
  exact (Option.some.inj hs).symm

/-- the last segment is what follows the last line feed -/
theorem IsSegment.eq_lastLine (h : IsSegment text before s after)
    (hcount : before.count Bytes.lf = text.count Bytes.lf) : s = lastLine text := by
  obtain ⟨start, after', hstart, hlast⟩ := exists_isSegment text []
  rw [List.append_nil, firstLine, List.takeWhile_nil, List.append_nil] at hlast
  exact h.eq_of_count_eq hlast (hcount.trans (count_of_append_lastLine hstart))

/-! ## Lines by number -/

theorem getElem?_dropEmptyLast (ts : List Bytes) (i : Nat) :
    (dropEmptyLast ts)[i]? = some t ↔ ts[i]? = some t ∧ (i + 1 = ts.length → t ≠ []) := by
  fun_induction dropEmptyLast ts generalizing i with
  | case1 => simp
  | case2 u hu =>
    cases i with
    | zero => simpa using fun h : u = t => h ▸ List.isEmpty_iff.1 hu
    | succ i => simp
  | case3 u hu =>
    cases i with
    | zero => simpa using fun h : u = t => h ▸ fun hnil => hu (List.isEmpty_iff.2 hnil)
    | succ i => simp
  | case4 u us hus ih =>
    cases i with
    | zero =>
      have hlength : 0 < us.length := List.length_pos_iff.2 hus
      simp only [List.getElem?_cons_zero, List.length_cons]
      exact ⟨fun h => ⟨h, fun hone => by omega⟩, And.left⟩
    | succ i => simpa using ih i

theorem mem_numberedLines_iff : (n, t) ∈ numberedLines text ↔ 0 < n ∧ (lines text)[n - 1]? = some t := by
  simp only [numberedLines, List.mem_map, List.mem_zipIdx_iff_getElem?, Prod.exists, Prod.mk.injEq]
  constructor
  · rintro ⟨u, i, hget, rfl, rfl⟩
    exact ⟨Nat.succ_pos i, hget⟩
  · rintro ⟨hn, hget⟩
    exact ⟨t, n - 1, hget, by omega, rfl⟩

/-- **Line `n` is segment `n`** without its carriage returns. It is left out if it is the last one and nothing is left
of it. -/
theorem IsSegment.mem_numberedLines_iff (h : IsSegment text before s after) :
    (before.count Bytes.lf + 1, t) ∈ numberedLines text ↔
      t = visible s ∧ (before.count Bytes.lf = text.count Bytes.lf → t ≠ []) := by
  rw [Source.mem_numberedLines_iff, Nat.add_sub_cancel, lines, getElem?_dropEmptyLast, List.getElem?_map, h.getElem?,
    List.length_map, length_segments, Nat.add_right_cancel_iff]
  simp only [Nat.succ_pos, true_and, Option.map_some, Option.some.injEq, visible]
  rw [eq_comm]

/-- each line is a segment -/
theorem exists_isSegment_of_mem (h : (n, t) ∈ numberedLines text) :
    ∃ before s after, IsSegment text before s after ∧ n = before.count Bytes.lf + 1 := by
  obtain ⟨hn, hget⟩ := Source.mem_numberedLines_iff.1 h
  rw [lines, getElem?_dropEmptyLast, List.getElem?_map] at hget
  obtain ⟨s, hs, -⟩ := Option.map_eq_some_iff.1 hget.1
  obtain ⟨hlt, -⟩ := List.getElem?_eq_some_iff.1 hs
  rw [length_segments] at hlt
  obtain ⟨before, s, after, hsegment, hcount⟩ := exists_isSegment_of_le (Nat.lt_succ_iff.1 hlt)
  exact ⟨before, s, after, hsegment, by omega⟩

theorem line_of_mem (h : (n, t) ∈ numberedLines text) : line text n = t := by
  obtain ⟨hn, hget⟩ := Source.mem_numberedLines_iff.1 h
  have hindex : ((n : Int) - 1).toNat = n - 1 := by omega
  rw [line, if_pos (by omega), hindex, hget]
  rfl

theorem line_of_notMem (h : ∀ t, (n, t) ∉ numberedLines text) : line text n = [] := by
  rw [line]
  split_ifs with hn
  · cases hget : (lines text)[((n : Int) - 1).toNat]? with
    | none => rfl
    | some t =>
      have hindex : ((n : Int) - 1).toNat = n - 1 := by omega
      exact absurd (Source.mem_numberedLines_iff.2 ⟨by omega, hindex ▸ hget⟩) (h t)
  · rfl

theorem visible_ne_nil_iff {t : Bytes} : visible t ≠ [] ↔ ∃ b ∈ t, b ≠ Bytes.cr := by
  simp [visible, List.filter_eq_nil_iff]

/-- a line feed ends each line but the last one, which must show something -/
theorem exists_mem_numberedLines_iff : (∃ t, (n, t) ∈ numberedLines text) ↔
    0 < n ∧ (n ≤ text.count Bytes.lf ∨ n = text.count Bytes.lf + 1 ∧ ∃ b ∈ lastLine text, b ≠ Bytes.cr) := by
  constructor
  · rintro ⟨t, ht⟩
    obtain ⟨before, s, after, hsegment, rfl⟩ := exists_isSegment_of_mem ht
    obtain ⟨rfl, hlast⟩ := hsegment.mem_numberedLines_iff.1 ht
    refine ⟨Nat.succ_pos _, ?_⟩
    rcases hsegment.count_le.lt_or_eq with hlt | heq
    · exact .inl hlt
    · exact .inr ⟨by rw [heq], visible_ne_nil_iff.1 (hsegment.eq_lastLine heq ▸ hlast heq)⟩
  · rintro ⟨hn, hcases⟩
    have hle : n - 1 ≤ text.count Bytes.lf := by omega
    obtain ⟨before, s, after, hsegment, hcount⟩ := exists_isSegment_of_le hle
    obtain rfl : n = before.count Bytes.lf + 1 := by omega
    refine ⟨visible s, hsegment.mem_numberedLines_iff.2 ⟨rfl, fun heq => ?_⟩⟩
    rcases hcases with hlt | ⟨-, hshown⟩
    · omega
    · rw [hsegment.eq_lastLine heq]
      exact visible_ne_nil_iff.2 hshown

theorem cr_notMem_visible (t : Bytes) : Bytes.cr ∉ visible t := by
  simp [visible]

theorem lf_notMem_visible (h : Bytes.lf ∉ s) : Bytes.lf ∉ visible s :=
  fun hmem => h (List.mem_filter.1 hmem).1

end Source

/-! ## Places of a scan -/

/-- the places that a scan names: those of its tokens, or that of the byte it rejects -/
def Token.placesOf : Except Diagnostic (List Token) → List Location
  | .ok ts => ts.map (·.location)
  | .error d => [d.location]

theorem Token.exists_behind_of_mem_placesOf {o : Origin} {text : Bytes} {l : Location}
    (h : l ∈ placesOf (scan o text)) :
    ∃ before rest m, text = before ++ rest ∧ l = o.place (.behind before) m := by
  cases hscan : scan o text with
  | ok ts =>
    rw [hscan] at h
    obtain ⟨tk, htk, rfl⟩ := List.mem_map.1 h
    rcases mem_scan_cases hscan htk with rfl | ⟨before, rest, htext, -, hlocation⟩
    · exact ⟨text, [], 0, (List.append_nil _).symm, rfl⟩
    · exact ⟨before, tk.text ++ rest, tk.text.length, htext, hlocation⟩
  | error d =>
    rw [hscan] at h
    obtain rfl := List.mem_singleton.1 h
    obtain ⟨before, b, rest, htext, -, rfl⟩ := scan_eq_error hscan
    exact ⟨before, b :: rest, 1, htext, rfl⟩

namespace Source

/-- **The lines of a text are its segments without carriage returns.** There is a line for each line feed, and one more
if a byte other than a carriage return follows the last of them. Each place that a scan names stands in the segment with
its line number, at its column; the line with that number is this segment, or empty if there is no such line. -/
theorem lines_are_segments_without_returns (o : Origin) (text : Bytes) :
    (∀ n, (∃ t, (n, t) ∈ numberedLines text) ↔
      0 < n ∧ (n ≤ text.count Bytes.lf ∨ n = text.count Bytes.lf + 1 ∧ ∃ b ∈ lastLine text, b ≠ Bytes.cr)) ∧
    (∀ n t, (n, t) ∈ numberedLines text →
      (∃ before s after, IsSegment text before s after ∧ n = before.count Bytes.lf + 1) ∧
      (∀ before s after, IsSegment text before s after → n = before.count Bytes.lf + 1 →
        t = visible s) ∧
      Bytes.cr ∉ t ∧ Bytes.lf ∉ t ∧ line text n = t) ∧
    ∀ l ∈ Token.placesOf (Token.scan o text), ∃ before u v after n, IsSegment text before (u ++ v) after ∧
      n = before.count Bytes.lf + 1 ∧ l.line = n ∧ l.column = u.length + 1 ∧
      line text l.line = visible (u ++ v) ∧ ((∀ t, (n, t) ∉ numberedLines text) → line text l.line = []) := by
  refine ⟨fun n => exists_mem_numberedLines_iff, ?_, ?_⟩
  · intro n t ht
    obtain ⟨before, s, after, hsegment, rfl⟩ := exists_isSegment_of_mem ht
    obtain ⟨rfl, -⟩ := hsegment.mem_numberedLines_iff.1 ht
    refine ⟨⟨before, s, after, hsegment, rfl⟩, ?_, cr_notMem_visible s, lf_notMem_visible hsegment.unbroken,
      line_of_mem ht⟩
    intro before' s' after' hsegment' hcount
    rw [hsegment.eq_of_count_eq hsegment' (Nat.succ.inj hcount)]
  · intro l hl
    obtain ⟨before, rest, m, rfl, rfl⟩ := Token.exists_behind_of_mem_placesOf hl
    obtain ⟨start, after, hstart, hsegment⟩ := exists_isSegment before rest
    have hcount : before.count Bytes.lf = start.count Bytes.lf := count_of_append_lastLine hstart
    have hline : (o.place (.behind before) m).line = (start.count Bytes.lf + 1 : Nat) := by
      rw [← hcount, Nat.add_comm]
      rfl
    have hcolumn : (o.place (.behind before) m).column = (lastLine before).length + 1 := by
      rw [Origin.place, column_behind]
      push_cast
      omega
    refine ⟨start, lastLine before, firstLine rest, after, _, hsegment, rfl, hline, hcolumn,
      line_behind before rest, ?_⟩
    intro hnone
    rw [hline]
    exact line_of_notMem hnone

/-- A carriage return follows the only line feed: there is one line, and the end of input stands in a second one that is
not there. -/
theorem lines_are_segments_without_returns_alone :
    let text := bytes "x\r\n\r"
    let l : Location := ⟨bytes "alone", 2, 2, 0, none⟩
    (1, bytes "x") ∈ numberedLines text ∧ l ∈ Token.placesOf (Token.scan ⟨bytes "alone", none⟩ text) ∧
      (∃ before s after, IsSegment text before s after ∧ 1 = before.count Bytes.lf + 1) ∧
      (¬ ∃ t, (2, t) ∈ numberedLines text) ∧ line text l.line = [] := by
  intro text l
  have hmem : (1, bytes "x") ∈ numberedLines text := by decide
  have hl : l ∈ Token.placesOf (Token.scan ⟨bytes "alone", none⟩ text) := by decide +kernel
  obtain ⟨hlines, hsegments, hplaces⟩ := lines_are_segments_without_returns ⟨bytes "alone", none⟩ text
  have hnone : ¬ ∃ t, (2, t) ∈ numberedLines text := by
    rw [hlines]
    decide +kernel
  obtain ⟨-, -, -, -, n, -, -, hn, -, -, hempty⟩ := hplaces l hl
  obtain rfl : n = 2 := Int.natCast_inj.1 hn.symm
  exact ⟨hmem, hl, (hsegments 1 _ hmem).1, hnone, hempty (not_exists.1 hnone)⟩

end Source

end Treewalk
