/-
Whole texts.

`Scans t ls` says that the text is cut into the lexemes `ls`, wherever it stands. A gap in front of a text changes
nothing, and a lexeme in front of a text that cannot continue it is added to the list.
-/
import Treewalk.Proofs.Token.Lexeme

namespace Treewalk

namespace Token

/-- every token but the last is a lexeme at its place -/
theorem exists_next?_of_mem_scanFrom {o : Origin} {p : Position} {t : Bytes} {ts : List Token} {tk : Token}
    (h : scanFrom o p t = .ok ts) (htk : tk ∈ ts) :
    tk.kind = .endOfInput ∨ ∃ u, Lexeme.next? u = some (tk.kind, tk.text) := by
  fun_induction scanFrom o p t generalizing ts with
  | case1 p =>
    cases h
    obtain rfl := List.mem_singleton.1 htk
    exact .inl rfl
  | case2 p b r hb ih => exact ih h htk
  | case3 => rename_i ih; exact ih h htk
  | case4 => cases h
  | case5 p b r =>
    rename_i hn rest hrest ih
    cases h
    rcases List.mem_cons.1 htk with rfl | htk
    · exact .inr ⟨b :: r, hn⟩
    · exact ih hrest htk
  | case6 => cases h

theorem exists_spelling_of_mem_scanFrom {o : Origin} {p : Position} {t : Bytes} {ts : List Token} {tk : Token}
    (h : scanFrom o p t = .ok ts) (htk : tk ∈ ts) (hk : tk.kind = .number) :
    ∃ n : Numeral.Spelling, n.text = tk.text := by
  rcases exists_next?_of_mem_scanFrom h htk with hend | ⟨u, hu⟩
  · rw [hk] at hend
    cases hend
  · rw [hk] at hu
    exact Lexeme.exists_spelling_of_next? hu

/-- what a token spells -/
def lexeme (t : Token) : Kind × Bytes := (t.kind, t.text)

theorem exists_of_map_cons {ts : List Token} {k : Kind} {w : Bytes} {ls : List (Kind × Bytes)}
    (h : ts.map lexeme = (k, w) :: ls) :
    ∃ t us, ts = t :: us ∧ t.kind = k ∧ t.text = w ∧ us.map lexeme = ls := by
  obtain ⟨t, us, rfl, ht, hus⟩ := List.map_eq_cons_iff.1 h
  obtain ⟨hk, hw⟩ := Prod.mk.inj ht
  exact ⟨t, us, rfl, hk, hw, hus⟩

theorem exists_of_map_singleton {ts : List Token} {k : Kind} {w : Bytes} (h : ts.map lexeme = [(k, w)]) :
    ∃ t, ts = [t] ∧ t.kind = k ∧ t.text = w := by
  obtain ⟨t, us, rfl, hk, hw, hus⟩ := exists_of_map_cons h
  obtain rfl := List.map_eq_nil_iff.1 hus
  exact ⟨t, rfl, hk, hw⟩

/-- the text is cut into the lexemes, wherever it stands -/
def Scans (t : Bytes) (ls : List (Kind × Bytes)) : Prop :=
  ∀ o p, ∃ ts, scanFrom o p t = .ok ts ∧ ts.map lexeme = ls ++ [(.endOfInput, [])]

variable {t rest : Bytes} {ls : List (Kind × Bytes)}

theorem scans_nil : Scans [] [] := by
  intro o p
  exact ⟨[⟨.endOfInput, [], o.place p 0⟩], by rw [scanFrom], rfl⟩

theorem Scans.blank {b : UInt8} (hb : Lexeme.isBlank b = true) (h : Scans t ls) : Scans (b :: t) ls := by
  intro o p
  obtain ⟨ts, hts, hls⟩ := h o (p.after b)
  exact ⟨ts, by rw [scanFrom, if_pos hb, hts], hls⟩

theorem Scans.blanks {w : Bytes} (hw : ∀ b ∈ w, Lexeme.isBlank b = true) (h : Scans t ls) : Scans (w ++ t) ls := by
  induction w with
  | nil => exact h
  | cons b w ih =>
    exact .blank (hw b List.mem_cons_self) (ih fun c hc => hw c (List.mem_cons_of_mem _ hc))

/-- a byte that starts a lexeme: no gap starts with it -/
structure Starts (t : Bytes) : Prop where
  ne_nil : t ≠ []
  not_blank : ∀ b ∈ t.head?, Lexeme.isBlank b = false
  not_comment : Lexeme.comment t = []

theorem Scans.lexeme {k : Kind} {w : Bytes} (hs : Starts (w ++ rest)) (hn : Lexeme.next? (w ++ rest) = some (k, w))
    (hw : w ≠ []) (h : Scans rest ls) : Scans (w ++ rest) ((k, w) :: ls) := by
  intro o p
  obtain ⟨b, r, rfl⟩ := List.exists_cons_of_ne_nil hw
  obtain ⟨ts, hts, hls⟩ := h o (p.afterAll (b :: r))
  have hdrop : (r ++ rest).drop ((b :: r).length - 1) = rest := by simp
  refine ⟨⟨k, b :: r, o.place p (b :: r).length⟩ :: ts, ?_, by simp [hls, Token.lexeme]⟩
  rw [List.cons_append] at hs hn ⊢
  rw [scanFrom, if_neg (by simp [hs.not_blank b rfl])]
  simp only [hs.not_comment, List.length_nil, lt_irrefl, if_false, hn, hdrop, hts]

theorem starts_cons {b : UInt8} {r : Bytes} (hb : Lexeme.isBlank b = false) (hc : b ≠ 47) : Starts (b :: r) := by
  refine ⟨List.cons_ne_nil _ _, ?_, ?_⟩
  · intro c h
    obtain rfl : b = c := by simpa using h
    exact hb
  · unfold Lexeme.comment
    split
    · rename_i heq
      exact absurd (List.cons.inj heq).1 hc
    · rfl

theorem Scans.word {w : Bytes} (hw : Lexeme.IsWord w) (hr : Bytes.Stops Lexeme.isWordByte rest) (h : Scans rest ls) :
    Scans (w ++ rest) ((Lexeme.wordKind w, w) :: ls) := by
  have hbytes := Lexeme.isWordByte_of_mem hw
  cases w with
  | nil => exact hw.elim
  | cons b r =>
    obtain ⟨h1, h2⟩ := Lexeme.not_blank_of_isWordByte (hbytes b List.mem_cons_self)
    exact .lexeme (starts_cons h1 h2) (Lexeme.next?_word hw hr) (List.cons_ne_nil _ _) h

theorem Scans.number (n : Numeral.Spelling) (hr : Bytes.Stops Numeral.continues rest) (h : Scans rest ls) :
    Scans (n.text ++ rest) ((.number, n.text) :: ls) := by
  obtain ⟨d, ds, hds⟩ := List.exists_cons_of_ne_nil n.whole_ne_nil
  have hd : Lexeme.isWordByte d = true := by
    rw [Lexeme.isWordByte, n.isDigit_whole d (by simp [hds]), Bool.or_true]
  obtain ⟨h1, h2⟩ := Lexeme.not_blank_of_isWordByte hd
  have htext : n.text = d :: (ds ++ (n.fractionText ++ n.exponentText)) := by simp [Numeral.Spelling.text, hds]
  refine .lexeme ?_ (Lexeme.next?_number n hr) (by simp [htext]) h
  rw [htext, List.cons_append]
  exact starts_cons h1 h2

/-- an operator of one byte, before a byte that makes neither a longer operator nor a comment of it -/
theorem Scans.single {c : UInt8} {k : Kind} (hc : Lexeme.singles.lookup [c] = some k)
    (hr : ∀ b ∈ rest.head?, Lexeme.pairs.lookup [c, b] = none ∧ ¬ (c = 47 ∧ b = 47)) (h : Scans rest ls) :
    Scans (c :: rest) ((k, [c]) :: ls) := by
  have hclass : ∀ p ∈ Lexeme.singles, ∀ b ∈ p.1,
      Lexeme.isBlank b = false ∧ Numeral.isDigit b = false ∧ Lexeme.isWordStart b = false := by decide +kernel
  obtain ⟨h1, h2⟩ := hclass _ (Lexeme.mem_of_lookup hc) c List.mem_cons_self
  have hs : Starts (c :: rest) := by
    refine ⟨List.cons_ne_nil _ _, fun b hb => ?_, ?_⟩
    · obtain rfl : c = b := by simpa using hb
      exact h1
    · unfold Lexeme.comment
      split
      · rename_i r heq
        obtain ⟨rfl, rfl⟩ := List.cons.inj heq
        exact absurd ⟨rfl, rfl⟩ (hr 47 rfl).2
      · rfl
  have hop := Lexeme.operator?_single hc fun b hb => (hr b hb).1
  exact .lexeme (w := [c]) hs (Lexeme.next?_operator h2 hop) (List.cons_ne_nil _ _) h

theorem Scans.pair {op : Bytes} {k : Kind} (hop : Lexeme.pairs.lookup op = some k) (h : Scans rest ls) :
    Scans (op ++ rest) ((k, op) :: ls) := by
  have hclass : ∀ p ∈ Lexeme.pairs, p.1 ≠ [] ∧ ∀ b ∈ p.1.take 1, Lexeme.isBlank b = false ∧ b ≠ 47 ∧
      Numeral.isDigit b = false ∧ Lexeme.isWordStart b = false := by decide +kernel
  obtain ⟨hne, hb⟩ := hclass _ (Lexeme.mem_of_lookup hop)
  cases op with
  | nil => exact absurd rfl hne
  | cons b r =>
    obtain ⟨h1, h2, h3⟩ := hb b List.mem_cons_self
    exact .lexeme (starts_cons h1 h2) (Lexeme.next?_operator h3 (Lexeme.operator?_pair hop rest)) hne h

end Token

end Treewalk
