/-
Printing a tree and reading it back.

Tokens that spell the lexemes of a printable tree have a derivation, and it denotes the tree up to the tokens in its
nodes (`Expr.bare`, `Stmt.bare` forget them). Since the scanner finds those lexemes in the printed text, and the
reader reads what has a derivation, the text of a block reads back as the block (`parse_scan_text`).
-/
import Treewalk.Proofs.Grammar.Spelt
import Treewalk.Proofs.Reader.Numeral
import Treewalk.Proofs.Tree.Printing

namespace Treewalk

open Grammar Grammar.Derivation

open Token

namespace Expr

mutual
/-- the expression without its tokens -/
def bare : Expr → Expr
  | .numeral _ x => .numeral .unplaced x
  | .boolean _ b => .boolean .unplaced b
  | .variable _ x => .variable .unplaced x
  | .unary _ op e => .unary .unplaced op e.bare
  | .binary _ op l r => .binary .unplaced op l.bare r.bare
  | .conditional _ c y n => .conditional .unplaced c.bare y.bare n.bare
  | .call _ f args => .call .unplaced f (bareAll args)
  | .array _ items => .array .unplaced (bareAll items)
  | .subscript _ a i => .subscript .unplaced a.bare i.bare
  | .missing => .missing

def bareAll : List Expr → List Expr
  | [] => []
  | e :: es => e.bare :: bareAll es
end

theorem kindOf_binary {op : Bytes} (h : (BinaryOp.ofText? op).isSome) :
    kindOf op = .power ∨ ∃ l : Level, kindOf op ∈ l.operators := by
  have hall : ∀ p ∈ BinaryOp.spellings, kindOf p.1 = .power ∨
      ∃ l ∈ [Level.or, .and, .equality, .comparison, .sum, .product], kindOf p.1 ∈ l.operators := by decide
  obtain ⟨o, ho⟩ := Option.isSome_iff_exists.1 h
  obtain ⟨l₁, l₂, hl, -⟩ := List.lookup_eq_some_iff.1 ho
  rcases hall (op, o) (by rw [hl]; simp) with hpow | ⟨l, -, hl⟩
  · exact .inl hpow
  · exact .inr ⟨l, hl⟩

theorem kindOf_unary {op : Bytes} (h : (UnaryOp.ofText? op).isSome) : kindOf op = .minus ∨ kindOf op = .not := by
  rcases unary_eq h with rfl | rfl
  · exact .inl rfl
  · exact .inr rfl

mutual
/-- tokens that spell the lexemes of an expression spell the expression -/
theorem exists_spelt : (e : Expr) → e.Printable → ∀ {ts : List Token}, ts.map lexeme = e.lexemes →
    ∃ e', Spelt .indexed e' ts ∧ e'.bare = e.bare
  | .numeral _ x, h, ts, hts => by
    obtain ⟨m, rfl⟩ := h
    obtain ⟨n, hn, hread⟩ := Number.exists_spelling_text m
    obtain ⟨t, rfl, hk, hw⟩ := exists_of_map_singleton hts
    refine ⟨_, Spelt.primary ⟨.numeral ⟨t, hk⟩, rfl, rfl⟩, ?_⟩
    simp [meaning, bare, hw, hn, hread]
  | .boolean _ b, _, ts, hts => by
    obtain ⟨t, rfl, hk, hw⟩ := exists_of_map_singleton hts
    refine ⟨_, Spelt.primary ⟨.boolean ⟨t, hk⟩, rfl, rfl⟩, ?_⟩
    simp only [meaning, bare, hw]
    cases b <;> rfl
  | .variable _ x, _, ts, hts => by
    obtain ⟨t, rfl, hk, rfl⟩ := exists_of_map_singleton hts
    exact ⟨_, Spelt.primary ⟨.variable ⟨t, hk⟩, rfl, rfl⟩, rfl⟩
  | .unary _ op e, h, ts, hts => by
    obtain ⟨opening, ts₁, rfl, ho, -, h₁⟩ := exists_of_map_cons hts
    obtain ⟨t, ts₂, rfl, hk, rfl, h₂⟩ := exists_of_map_cons h₁
    obtain ⟨us, ts₃, rfl, hus, h₃⟩ := List.map_eq_append_iff.1 h₂
    obtain ⟨closing, rfl, hc, -⟩ := exists_of_map_singleton h₃
    obtain ⟨e', he, hb⟩ := exists_spelt e h.2 hus
    have hop := kindOf_unary h.1
    rw [← hk] at hop
    exact ⟨_, ((he.indexed.signed hop).level .or).plain.group ho hc, by rw [bare, bare, hb]⟩
  | .binary _ op l r, h, ts, hts => by
    obtain ⟨opening, ts₁, rfl, ho, -, h₁⟩ := exists_of_map_cons hts
    obtain ⟨us, ts₂, rfl, hus, h₂⟩ := List.map_eq_append_iff.1 h₁
    obtain ⟨t, ts₃, rfl, hk, rfl, h₃⟩ := exists_of_map_cons h₂
    obtain ⟨vs, ts₄, rfl, hvs, h₄⟩ := List.map_eq_append_iff.1 h₃
    obtain ⟨closing, rfl, hc, -⟩ := exists_of_map_singleton h₄
    obtain ⟨l', hl, hlb⟩ := exists_spelt l h.2.1 hus
    obtain ⟨r', hr, hrb⟩ := exists_spelt r h.2.2 hvs
    have hop := kindOf_binary h.1
    rw [← hk] at hop
    have hgroup := (hl.operation hop hr).group ho hc
    rw [List.append_assoc, List.cons_append] at hgroup
    exact ⟨_, hgroup, by rw [bare, bare, hlb, hrb]⟩
  | .conditional _ c y n, h, ts, hts => by
    obtain ⟨opening, ts₁, rfl, ho, -, h₁⟩ := exists_of_map_cons hts
    obtain ⟨us, ts₂, rfl, hus, h₂⟩ := List.map_eq_append_iff.1 h₁
    obtain ⟨mark, ts₃, rfl, hm, -, h₃⟩ := exists_of_map_cons h₂
    obtain ⟨vs, ts₄, rfl, hvs, h₄⟩ := List.map_eq_append_iff.1 h₃
    obtain ⟨colon, ts₅, rfl, hcol, -, h₅⟩ := exists_of_map_cons h₄
    obtain ⟨ws, ts₆, rfl, hws, h₆⟩ := List.map_eq_append_iff.1 h₅
    obtain ⟨closing, rfl, hc, -⟩ := exists_of_map_singleton h₆
    obtain ⟨c', hc', hcb⟩ := exists_spelt c h.1 hus
    obtain ⟨y', hy, hyb⟩ := exists_spelt y h.2.1 hvs
    obtain ⟨n', hn, hnb⟩ := exists_spelt n h.2.2 hws
    have hchoice := Spelt.choice (hc'.indexed.level .or) hm (hy.indexed.level .or).plain hcol
      (hn.indexed.level .or).plain
    have hgroup := hchoice.group ho hc
    simp only [List.append_assoc, List.cons_append] at hgroup
    exact ⟨_, hgroup, by rw [bare, bare, hcb, hyb, hnb]⟩
  | .call _ f args, h, ts, hts => by
    obtain ⟨callee, ts₁, rfl, hf, rfl, h₁⟩ := exists_of_map_cons hts
    obtain ⟨opening, ts₂, rfl, ho, -, h₂⟩ := exists_of_map_cons h₁
    obtain ⟨us, ts₃, rfl, hus, h₃⟩ := List.map_eq_append_iff.1 h₂
    obtain ⟨closing, rfl, hc, -⟩ := exists_of_map_singleton h₃
    obtain ⟨d, rfl, hb⟩ := exists_items args h.2 hus
    refine ⟨_, Spelt.primary ⟨.call ⟨callee, hf⟩ ⟨opening, ho⟩ d ⟨closing, hc⟩, rfl, rfl⟩, ?_⟩
    rw [meaning, bare, bare, hb]
  | .array _ items, h, ts, hts => by
    obtain ⟨opening, ts₁, rfl, ho, -, h₁⟩ := exists_of_map_cons hts
    obtain ⟨us, ts₂, rfl, hus, h₂⟩ := List.map_eq_append_iff.1 h₁
    obtain ⟨closing, rfl, hc, -⟩ := exists_of_map_singleton h₂
    obtain ⟨d, rfl, hb⟩ := exists_items items h hus
    refine ⟨_, Spelt.primary ⟨.array ⟨opening, ho⟩ d ⟨closing, hc⟩, rfl, rfl⟩, ?_⟩
    rw [meaning, bare, bare, hb]
  | .subscript _ a i, h, ts, hts => by
    obtain ⟨us, ts₁, rfl, hus, h₁⟩ := List.map_eq_append_iff.1 hts
    obtain ⟨opening, ts₂, rfl, ho, -, h₂⟩ := exists_of_map_cons h₁
    obtain ⟨vs, ts₃, rfl, hvs, h₃⟩ := List.map_eq_append_iff.1 h₂
    obtain ⟨closing, rfl, hc, -⟩ := exists_of_map_singleton h₃
    obtain ⟨a', ha, hab⟩ := exists_spelt a h.1 hus
    obtain ⟨i', hi, hib⟩ := exists_spelt i h.2 hvs
    have hsub := ha.subscript ho (hi.indexed.level .or).plain hc
    rw [List.append_assoc, List.cons_append] at hsub
    exact ⟨_, hsub, by rw [bare, bare, hab, hib]⟩

theorem exists_items : (es : List Expr) → AllPrintable es → ∀ {ts : List Token}, ts.map lexeme = listLexemes es →
    ∃ d : Derivation .items, d.yield = ts ∧ bareAll d.meaning = bareAll es
  | [], _, ts, hts => ⟨.noItem, (List.map_eq_nil_iff.1 hts).symm, rfl⟩
  | [e], h, ts, hts => by
    obtain ⟨e', he, hb⟩ := exists_spelt e h.1 hts
    obtain ⟨d, rfl, rfl⟩ := (he.indexed.level .or).plain
    exact ⟨.someItems d .lastItem, by simp [yield], by simp [meaning, bareAll, hb]⟩
  | e :: e' :: es, h, ts, hts => by
    obtain ⟨us, ts₁, rfl, hus, h₁⟩ := List.map_eq_append_iff.1 hts
    obtain ⟨comma, vs, rfl, hk, -, hvs⟩ := exists_of_map_cons h₁
    obtain ⟨e₁, he, hb⟩ := exists_spelt e h.1 hus
    obtain ⟨d, rfl, rfl⟩ := (he.indexed.level .or).plain
    obtain ⟨d', rfl, hb'⟩ := exists_items (e' :: es) h.2 hvs
    cases d' with
    | noItem => cases hb'
    | someItems first rest =>
      refine ⟨.someItems d (.item ⟨comma, hk⟩ first rest), by simp [yield], ?_⟩
      rw [bareAll, ← hb', ← hb]
      rfl
end

theorem exists_conditional {e : Expr} (h : e.Printable) {ts : List Token} (hts : ts.map lexeme = e.lexemes) :
    ∃ d : Derivation (.expression .conditional), d.yield = ts ∧ Expr.bare d.meaning = e.bare := by
  obtain ⟨e', he, hb⟩ := exists_spelt e h hts
  obtain ⟨d, rfl, hd⟩ := (he.indexed.level .or).plain
  exact ⟨d, hd, hb⟩

end Expr

namespace Stmt

open Treewalk.Expr (exists_conditional)

mutual
/-- the statement without its tokens -/
def bare : Stmt → Stmt
  | .declare _ x e => .declare .unplaced x e.bare
  | .assign _ x e => .assign .unplaced x e.bare
  | .print _ e => .print .unplaced e.bare
  | .loop _ c body => .loop .unplaced c.bare (bareAll body)
  | .function _ f ps e => .function .unplaced f ps e.bare
  | .missing => .missing

def bareAll : List Stmt → List Stmt
  | [] => []
  | s :: ss => s.bare :: bareAll ss
end

theorem bareAll_append (ss ss' : List Stmt) : bareAll (ss ++ ss') = bareAll ss ++ bareAll ss' := by
  induction ss with
  | nil => rfl
  | cons s ss ih => rw [List.cons_append, bareAll, bareAll, ih, List.cons_append]

theorem exists_parameters : (ps : List Bytes) → ∀ {ts : List Token}, ts.map lexeme = nameLexemes ps →
    ∃ p : Parameters, p.yield = ts ∧ p.names = ps
  | [], ts, hts => ⟨none, (List.map_eq_nil_iff.1 hts).symm, rfl⟩
  | [x], ts, hts => by
    obtain ⟨t, rfl, hk, rfl⟩ := exists_of_map_singleton hts
    exact ⟨some (⟨t, hk⟩, []), rfl, rfl⟩
  | x :: y :: xs, ts, hts => by
    obtain ⟨t, ts₁, rfl, hk, rfl, h₁⟩ := exists_of_map_cons hts
    obtain ⟨comma, us, rfl, hc, -, hus⟩ := exists_of_map_cons h₁
    obtain ⟨p, rfl, hp⟩ := exists_parameters (y :: xs) hus
    match p, hp with
    | some (first, rest), hp => exact ⟨some (⟨t, hk⟩, (⟨comma, hc⟩, first) :: rest), rfl, congrArg _ hp⟩

mutual
/-- tokens that spell the lexemes of a statement have a derivation, which denotes the statement -/
theorem exists_statement : (s : Stmt) → s.Printable → ∀ {ts : List Token}, ts.map lexeme = s.lexemes →
    ∃ d : Derivation .statement, d.yield = ts ∧ bareAll d.meaning = [s.bare] ∧ ∀ ps ∈ d.parameterLists, ps.Nodup
  | .declare _ x e, h, ts, hts => by
    obtain ⟨name, ts₁, rfl, hx, rfl, h₁⟩ := exists_of_map_cons hts
    obtain ⟨sign, us, rfl, hs, -, hus⟩ := exists_of_map_cons h₁
    obtain ⟨d, rfl, hb⟩ := exists_conditional h.2 hus
    exact ⟨.declare ⟨name, hx⟩ ⟨sign, hs⟩ d, rfl, by simp [meaning, bareAll, bare, hb], by simp [parameterLists]⟩
  | .assign _ x e, h, ts, hts => by
    obtain ⟨name, ts₁, rfl, hx, rfl, h₁⟩ := exists_of_map_cons hts
    obtain ⟨sign, us, rfl, hs, -, hus⟩ := exists_of_map_cons h₁
    obtain ⟨d, rfl, hb⟩ := exists_conditional h.2 hus
    exact ⟨.assign ⟨name, hx⟩ ⟨sign, hs⟩ d, rfl, by simp [meaning, bareAll, bare, hb], by simp [parameterLists]⟩
  | .print _ e, h, ts, hts => by
    obtain ⟨keyword, us, rfl, hk, -, hus⟩ := exists_of_map_cons hts
    obtain ⟨d, rfl, hb⟩ := exists_conditional h hus
    exact ⟨.print ⟨keyword, hk⟩ d, rfl, by simp [meaning, bareAll, bare, hb], by simp [parameterLists]⟩
  | .loop _ c body, h, ts, hts => by
    obtain ⟨keyword, ts₁, rfl, hk, -, h₁⟩ := exists_of_map_cons hts
    obtain ⟨us, ts₂, rfl, hus, h₂⟩ := List.map_eq_append_iff.1 h₁
    obtain ⟨opening, ts₃, rfl, ho, -, h₃⟩ := exists_of_map_cons h₂
    obtain ⟨vs, ts₄, rfl, hvs, h₄⟩ := List.map_eq_append_iff.1 h₃
    obtain ⟨closing, rfl, hc, -⟩ := exists_of_map_singleton h₄
    obtain ⟨d, rfl, hb⟩ := exists_conditional h.1 hus
    obtain ⟨d', rfl, hb', hps⟩ := exists_block body h.2 hvs
    exact ⟨.loop ⟨keyword, hk⟩ d ⟨opening, ho⟩ d' ⟨closing, hc⟩, by simp [yield],
      by simp [meaning, bareAll, bare, hb, hb'], hps⟩
  | .function _ f ps e, h, ts, hts => by
    obtain ⟨keyword, ts₁, rfl, hk, -, h₁⟩ := exists_of_map_cons hts
    obtain ⟨name, ts₂, rfl, hf, rfl, h₂⟩ := exists_of_map_cons h₁
    obtain ⟨opening, ts₃, rfl, ho, -, h₃⟩ := exists_of_map_cons h₂
    obtain ⟨us, ts₄, rfl, hus, h₄⟩ := List.map_eq_append_iff.1 h₃
    obtain ⟨closing, ts₅, rfl, hc, -, h₅⟩ := exists_of_map_cons h₄
    obtain ⟨sign, vs, rfl, hs, -, hvs⟩ := exists_of_map_cons h₅
    obtain ⟨p, rfl, hp⟩ := exists_parameters ps hus
    obtain ⟨d, rfl, hb⟩ := exists_conditional h.2.2.2 hvs
    refine ⟨.function ⟨keyword, hk⟩ ⟨name, hf⟩ ⟨opening, ho⟩ p ⟨closing, hc⟩ ⟨sign, hs⟩ d, by simp [yield],
      by simp [meaning, bareAll, bare, hb, hp], ?_⟩
    simp only [parameterLists, List.mem_singleton, forall_eq]
    rw [hp]
    exact h.2.2.1

theorem exists_block : (ss : List Stmt) → AllPrintable ss → ∀ {ts : List Token}, ts.map lexeme = blockLexemes ss →
    ∃ d : Derivation .block, d.yield = ts ∧ bareAll d.meaning = bareAll ss ∧ ∀ ps ∈ d.parameterLists, ps.Nodup
  | [], _, ts, hts => ⟨.noStatement, (List.map_eq_nil_iff.1 hts).symm, rfl, by simp [parameterLists]⟩
  | s :: ss, h, ts, hts => by
    obtain ⟨us, vs, rfl, hus, hvs⟩ := List.map_eq_append_iff.1 hts
    obtain ⟨d, rfl, hb, hps⟩ := exists_statement s h.1 hus
    obtain ⟨d', rfl, hb', hps'⟩ := exists_block ss h.2 hvs
    refine ⟨.statements d d', rfl, ?_, ?_⟩
    · rw [meaning, bareAll_append, hb, hb', bareAll, List.singleton_append]
    · intro ps hmem
      rcases List.mem_append.1 hmem with hmem | hmem
      · exact hps ps hmem
      · exact hps' ps hmem
end

end Stmt

theorem Token.beforeEnd_append {ts : List Token} {t : Token} (h : ∀ u ∈ ts, u.kind ≠ .endOfInput)
    (ht : t.kind = .endOfInput) : beforeEnd (ts ++ [t]) = ts := by
  rw [beforeEnd, List.takeWhile_append_of_pos (by simpa using h)]
  simp [ht]

/-- **Printing and reading back.** The text of a printable block, indented by any number of spaces, is read as the block
again, with other tokens in its nodes. -/
theorem Block.parse_scan_text (b : Block) (h : Stmt.AllPrintable b) (indent : Nat) (o : Origin) :
    ∃ ts b', Token.scan o (b.text indent) = .ok ts ∧ Block.parse ts = .ok b' ∧ Stmt.bareAll b' = Stmt.bareAll b := by
  have hscans := Stmt.scans_blockText b h indent scans_nil
  rw [List.append_nil, List.append_nil] at hscans
  obtain ⟨ts, hts, hmap⟩ := hscans o .start
  obtain ⟨us, vs, rfl, hus, hvs⟩ := List.map_eq_append_iff.1 hmap
  obtain ⟨last, rfl, hlast, -⟩ := exists_of_map_singleton hvs
  obtain ⟨d, rfl, hb, hps⟩ := Stmt.exists_block b h hus
  have hread : NumeralsRead d.yield := fun t ht => numeralsRead_of_scan hts t (List.mem_append_left _ ht)
  exact ⟨_, _, hts, d.parse_eq_meaning (beforeEnd_append d.kind_ne_endOfInput hlast).symm hread hps, hb⟩

/-- a function of two parameters and a loop, with the least positive number among the numerals:
`fun f(a, b) = (((-a) ** b) ? [5e-324, true][1] : f(b, a))` and `while (!x[0][1]) { x = x[1] }` -/
def Block.nested : Block :=
  let name (w : String) : Expr := .variable .unplaced (bytes w)
  let item (e : Expr) (x : Number) : Expr := .subscript .unplaced e (.numeral .unplaced x)
  let power := .binary .unplaced (bytes "**") (.unary .unplaced (bytes "-") (name "a")) (name "b")
  let least := .array .unplaced [.numeral .unplaced (.finite false ⟨1, -1074, by decide⟩), .boolean .unplaced true]
  [.function .unplaced (bytes "f") [bytes "a", bytes "b"]
      (.conditional .unplaced power (item least .one) (.call .unplaced (bytes "f") [name "b", name "a"])),
    .loop .unplaced (.unary .unplaced (bytes "!") (item (item (name "x") .zero) .one))
      [.assign .unplaced (bytes "x") (item (name "x") .one)]]

theorem Block.parse_scan_text_nested : Stmt.AllPrintable Block.nested ∧ ∃ ts b',
    Token.scan ⟨bytes "nested", none⟩ (Block.nested.text 3) = .ok ts ∧ Block.parse ts = .ok b' ∧
      Stmt.bareAll b' = Stmt.bareAll Block.nested := by
  have hprintable : Stmt.AllPrintable Block.nested := by decide
  exact ⟨hprintable, Block.parse_scan_text Block.nested hprintable 3 ⟨bytes "nested", none⟩⟩

end Treewalk
