/-
Texts one below the other.

No lexeme has a line feed in it, and a comment ends before the next one. So a text in front of a line feed is cut as it
is cut alone, and what follows is cut from the start of its line: the tokens of both texts together are those of the
first without their end, and then those of the second (`Token.scanFrom_append`). The scanner counts on from where it
stands, so the second text's tokens stand further down, by the line feeds in front of them (`Token.scan_append`).
-/
import Treewalk.Proofs.Reader.Relocation
import Treewalk.Proofs.Reader.Steps
import Treewalk.Proofs.Token.Cut

namespace Treewalk

/-! ## Lexemes and comments end before a line feed -/

namespace Lexeme

open Numeral

variable {k k' : Kind} {t u w : Bytes}

theorem IsLexeme.lf_notMem (h : IsLexeme k w) : Bytes.lf ∉ w :=
  fun hmem => absurd (h.not_isBlank hmem) (by decide)

theorem isPrefix_of_lf (hlf : Bytes.lf ∉ w) (hw : w <+: t ++ Bytes.lf :: u) : w <+: t := by
  rcases List.prefix_or_prefix_of_prefix hw (List.prefix_append t (Bytes.lf :: u)) with hwt | htw
  · exact hwt
  · obtain ⟨v, rfl⟩ := htw
    cases v with
    | nil => simp
    | cons b v =>
      obtain ⟨rfl, -⟩ := List.cons_prefix_cons.1 ((List.prefix_append_right_inj t).1 hw)
      exact absurd (by simp) hlf

/-- the text of a lexeme tells its kind -/
theorem IsLexeme.kind_eq (h : IsLexeme k w) (h' : IsLexeme k' w) : k = k' := by
  have hoperators : ∀ p ∈ pairs ++ singles, ∀ q ∈ pairs ++ singles, p.1 = q.1 → p.2 = q.2 := by decide +kernel
  obtain ⟨b, r, rfl⟩ := List.exists_cons_of_ne_nil h.ne_nil
  rcases h.of_cons with ⟨hd, -, -, rfl⟩ | ⟨hd, hs, -, rfl⟩ | ⟨hd, hs, hop⟩ <;>
    rcases h'.of_cons with ⟨hd', -, -, rfl⟩ | ⟨hd', hs', -, rfl⟩ | ⟨hd', hs', hop'⟩
  case inl.inl => rfl
  case inr.inl.inr.inl => rfl
  case inr.inr.inr.inr => exact hoperators _ hop _ hop' rfl
  all_goals simp_all

theorem IsLexeme.kind_ne_endOfInput (h : IsLexeme k w) : k ≠ .endOfInput := by
  cases h with
  | number => exact nofun
  | word =>
    have hall : ∀ p ∈ keywords, p.2 ≠ .endOfInput := by decide
    rw [wordKind]
    cases hk : keywords.lookup w with
    | none => exact nofun
    | some k => exact hall _ (mem_of_lookup hk)
  | operator hop =>
    have hall : ∀ p ∈ pairs ++ singles, p.2 ≠ .endOfInput := by decide +kernel
    exact hall _ hop

/-- a line feed and what follows it do not change which lexeme comes next -/
theorem next?_append (h : next? t = some (k, w)) (u : Bytes) : next? (t ++ Bytes.lf :: u) = some (k, w) := by
  obtain ⟨rest, rfl, hlongest⟩ := longest_of_next? h
  have hw : w <+: w ++ rest ++ Bytes.lf :: u := ⟨rest ++ Bytes.lf :: u, by simp⟩
  cases hn : next? (w ++ rest ++ Bytes.lf :: u) with
  | none => exact absurd hw (not_isLexeme_of_next?_none hn k w hlongest.isLexeme)
  | some found =>
    obtain ⟨k', w'⟩ := found
    obtain ⟨rest', heq, hlongest'⟩ := longest_of_next? hn
    have hw' : w' <+: w ++ rest ++ Bytes.lf :: u := ⟨rest', heq.symm⟩
    have hle := hlongest.length_le k' w' hlongest'.isLexeme (isPrefix_of_lf hlongest'.isLexeme.lf_notMem hw')
    have hge := hlongest'.length_le k w hlongest.isLexeme (heq ▸ hw)
    obtain rfl : w' = w :=
      (List.prefix_of_prefix_length_le hw' hw hle).eq_of_length (Nat.le_antisymm hle hge)
    rw [hlongest'.isLexeme.kind_eq hlongest.isLexeme]

theorem comment_append (t u : Bytes) : comment (t ++ Bytes.lf :: u) = comment t := by
  by_cases ht : [47, 47] <+: t
  · obtain ⟨r, rfl⟩ := ht
    have htake : (r ++ Bytes.lf :: u).takeWhile (· != Bytes.lf) = r.takeWhile (· != Bytes.lf) := by
      rw [List.takeWhile_append]
      split
      case isTrue hall => simp [(List.takeWhile_prefix _).eq_of_length hall]
      case isFalse => rfl
    exact congrArg (fun c => 47 :: 47 :: c) htake
  · have hnone : ∀ {s : Bytes}, ¬ [47, 47] <+: s → comment s = [] := by
      intro s hs
      unfold comment
      split
      · exact absurd ⟨_, rfl⟩ hs
      · rfl
    rw [hnone ht, hnone fun hjoined => ht (isPrefix_of_lf (by decide) hjoined)]

end Lexeme

/-! ## Lines further down -/

/-- the place as many lines further down -/
def Location.down (n : Nat) (l : Location) : Location := { l with line := l.line + n }

theorem Location.down_zero (l : Location) : l.down 0 = l := by simp [down]

/-- the place in the file and the text of an origin -/
def Origin.home (o : Origin) (l : Location) : Location := { l with file := o.file, source := o.source }

namespace Position

def down (n : Nat) (p : Position) : Position := ⟨p.line + n, p.column⟩

theorem after_down (n : Nat) (p : Position) (b : UInt8) : (p.down n).after b = (p.after b).down n := by
  rw [after, after]
  split
  · simp [down, Nat.add_right_comm]
  · rfl

theorem afterAll_down (n : Nat) (p : Position) (t : Bytes) : (p.down n).afterAll t = (p.afterAll t).down n := by
  induction t generalizing p with
  | nil => rfl
  | cons b t ih =>
    rw [show (p.down n).afterAll (b :: t) = ((p.down n).after b).afterAll t from rfl, after_down, ih]
    rfl

theorem afterAll_append (p : Position) (t u : Bytes) : p.afterAll (t ++ u) = (p.afterAll t).afterAll u :=
  List.foldl_append

/-- the line below a text -/
theorem afterAll_start (t : Bytes) : start.afterAll (t ++ [Bytes.lf]) = start.down (t.count Bytes.lf + 1) := by
  rw [show start = behind [] from rfl, ← behind_append, List.nil_append, behind_append_singleton, after, if_pos rfl]
  simp [behind, down, Nat.add_comm, Nat.add_left_comm]

end Position

theorem Origin.place_down (o o' : Origin) (n : Nat) (p : Position) (length : Nat) :
    o.place (p.down n) length = (o.home (o'.place p length)).down n := by
  simp [place, home, Location.down, Position.down]

namespace Token

open Lexeme

/-- a scan that starts further down, perhaps in another file, gives the tokens further down -/
theorem scanFrom_down (o o' : Origin) (n : Nat) (p : Position) (t : Bytes) :
    scanFrom o (p.down n) t = Reader.relocated (fun l => (o.home l).down n)
      (List.map (Token.relocate fun l => (o.home l).down n)) (scanFrom o' p t) := by
  fun_induction scanFrom o' p t with
  | case1 p =>
    rw [scanFrom, o.place_down o']
    rfl
  | case2 p b r hb ih => rw [scanFrom, if_pos hb, Position.after_down, ih]
  | case3 p b r hb c hc ih => rw [scanFrom, if_neg hb, if_pos hc, Position.afterAll_down, ih]
  | case4 p b r hb c hc hn =>
    rw [scanFrom, if_neg hb, if_neg hc, hn, o.place_down o']
    rfl
  | case5 p b r hb c hc kind text hn rest hrest ih =>
    rw [scanFrom, if_neg hb, if_neg hc, hn]
    simp only [Position.afterAll_down, ih, hrest]
    rw [o.place_down o']
    rfl
  | case6 p b r hb c hc kind text hn d herror ih =>
    rw [scanFrom, if_neg hb, if_neg hc, hn]
    simp only [Position.afterAll_down, ih, herror]
    rfl

/-- a text, a line feed and another text: the tokens of the first, and then those of the second -/
theorem scanFrom_append {o : Origin} {p : Position} {t : Bytes} {ts : List Token} (h : scanFrom o p t = .ok ts)
    (u : Bytes) : scanFrom o p (t ++ Bytes.lf :: u) =
      (scanFrom o (p.afterAll (t ++ [Bytes.lf])) u).map (beforeEnd ts ++ ·) := by
  fun_induction scanFrom o p t generalizing ts with
  | case1 p =>
    cases h
    rw [List.nil_append, scanFrom, if_pos (show isBlank Bytes.lf = true from rfl)]
    exact (congrFun Except.map_id _).symm
  | case2 p b r hb ih =>
    rw [List.cons_append, scanFrom, if_pos hb, ih h]
    rfl
  | case3 p b r hb =>
    rename_i c hc ih
    obtain ⟨body, rest, hcomment, htext, -⟩ := comment_eq hc
    have hsplit : b :: r = c ++ rest := by rw [show c = 47 :: 47 :: body from hcomment, htext]; rfl
    have hne : c ≠ [] := List.length_pos_iff.1 hc
    rw [drop_of_cons_eq_append hsplit hne] at h ih
    have hjoined : b :: (r ++ Bytes.lf :: u) = c ++ (rest ++ Bytes.lf :: u) := by
      rw [← List.cons_append, hsplit, List.append_assoc]
    have hc' : comment (b :: (r ++ Bytes.lf :: u)) = c := comment_append (b :: r) u
    rw [List.cons_append, scanFrom, if_neg hb, hc', if_pos hc, drop_of_cons_eq_append hjoined hne, ih h, hsplit,
      List.append_assoc, Position.afterAll_append p]
  | case4 => cases h
  | case5 p b r hb =>
    rename_i c hc kind text hn tokens hok ih
    cases h
    obtain ⟨rest, hsplit, hlongest⟩ := longest_of_next? hn
    have hne := hlongest.isLexeme.ne_nil
    rw [drop_of_cons_eq_append hsplit hne] at hok ih
    have hjoined : b :: (r ++ Bytes.lf :: u) = text ++ (rest ++ Bytes.lf :: u) := by
      rw [← List.cons_append, hsplit, List.append_assoc]
    have hc' : comment (b :: (r ++ Bytes.lf :: u)) = c := comment_append (b :: r) u
    have hn' : next? (b :: (r ++ Bytes.lf :: u)) = some (kind, text) := next?_append hn u
    have hbefore : beforeEnd (⟨kind, text, o.place p text.length⟩ :: tokens) =
        ⟨kind, text, o.place p text.length⟩ :: beforeEnd tokens :=
      List.takeWhile_cons_of_pos (by simpa using hlongest.isLexeme.kind_ne_endOfInput)
    rw [List.cons_append, scanFrom, if_neg hb, hc', if_neg hc, hn']
    simp only [drop_of_cons_eq_append hjoined hne, ih hok]
    rw [hsplit, List.append_assoc, Position.afterAll_append p, hbefore]
    cases scanFrom o ((p.afterAll text).afterAll (rest ++ [Bytes.lf])) u with
    | ok us => rfl
    | error d => rfl
  | case6 => cases h

/-- the tokens of a text in another file -/
theorem scan_home (o : Origin) {o₁ : Origin} {t : Bytes} {ts : List Token} (h : scan o₁ t = .ok ts) :
    scan o t = .ok (ts.map (Token.relocate o.home)) := by
  have hmoved := scanFrom_down o o₁ 0 .start t
  simp only [Location.down_zero] at hmoved
  rw [← scan, h] at hmoved
  exact hmoved

/-- **Texts one below the other.** The tokens of both are those of the first without their end, and those of the second
on lines further down. -/
theorem scan_append (o : Origin) {o₁ o₂ : Origin} {t u : Bytes} {ts us : List Token} (ht : scan o₁ t = .ok ts)
    (hu : scan o₂ u = .ok us) : scan o (t ++ Bytes.lf :: u) = .ok (beforeEnd (ts.map (Token.relocate o.home)) ++
      us.map (Token.relocate fun l => (o.home l).down (t.count Bytes.lf + 1))) := by
  rw [scan, scanFrom_append (scan_home o ht), Position.afterAll_start, scanFrom_down o o₂, ← scan, hu]
  rfl

end Token

end Treewalk
