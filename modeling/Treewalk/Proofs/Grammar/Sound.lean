/-
What the reader reads has a derivation.

The invariant `StateSpells s ts` says that the tokens `ts` lead to the state `s`: the open loops and the statements that
are done are spelled by derivations of blocks, the statement being read by the first tokens of a statement, and each
pending construct by derivations of the parts it already has. Operators are pending in the order in which they bind,
which is what makes putting them together a derivation of the right category. One token keeps the invariant
(`step_spells`), and when the reader accepts, the invariant is a derivation of the whole program. With the converse and
with unambiguity, the reader accepts the grammar's programs and nothing else (`parse_accepts_grammar`).
-/
import Mathlib.Tactic
import Treewalk.Proofs.Grammar.Complete
import Treewalk.Proofs.Grammar.Spelt

namespace Treewalk

namespace Grammar

open Reader Grammar.Derivation

variable {e e' l : Expr} {ts us vs : List Token} {t : Token}

/-! ## Pending constructs -/

/-- items, last one first, each with a comma behind it -/
inductive Listed : List Expr → List Token → Prop where
  | nil : Listed [] []
  | snoc {done : List Expr} {ts us : List Token} {e : Expr} {comma : Token} (h : Listed done ts)
      (he : Spelt .conditional e us) (hc : comma.kind = .comma) : Listed (e :: done) (ts ++ us ++ [comma])

theorem Listed.exists_items {done : List Expr} (h : Listed done ts) (he : Spelt .conditional e us)
    (rest : Derivation .moreItems) :
    ∃ d : Derivation .items, d.meaning = done.reverse ++ e :: rest.meaning ∧
      d.yield = ts ++ us ++ rest.yield := by
  induction h generalizing e us rest with
  | nil =>
    obtain ⟨d, rfl, rfl⟩ := he
    exact ⟨someItems d rest, rfl, by simp [yield]⟩
  | snoc h he' hc ih =>
    obtain ⟨d, rfl, rfl⟩ := he
    obtain ⟨d', hm, hy⟩ := ih he' (item ⟨_, hc⟩ d rest)
    exact ⟨d', by simp [hm, meaning], by simp [hy, yield]⟩

/-- the tokens spell what is pending; operators that are put together later bind looser -/
inductive Spells : List Pending → List Token → Prop where
  | nil : Spells [] []
  | unary {p : List Pending} {ts : List Token} {op : Token} (h : Spells p ts)
      (hop : op.kind = .minus ∨ op.kind = .not) : Spells (.unary op :: p) (ts ++ [op])
  | binary {p : List Pending} {ts us : List Token} {op : Token} {e : Expr} (k : Level) (h : Spells p ts)
      (hp : Looser k.number p) (he : Spelt (.level k) e us) (hop : op.kind ∈ k.operators) :
      Spells (.binary e op :: p) (ts ++ us ++ [op])
  | power {p : List Pending} {ts us : List Token} {op : Token} {e : Expr} (h : Spells p ts)
      (he : Spelt .indexed e us) (hop : op.kind = .power) : Spells (.binary e op :: p) (ts ++ us ++ [op])
  | yes {p : List Pending} {ts us : List Token} {mark : Token} {test : Expr} (h : Spells p ts) (hp : Looser 0 p)
      (ht : Spelt (.level .or) test us) (hm : mark.kind = .question) :
      Spells (.yes test mark :: p) (ts ++ us ++ [mark])
  | no {p : List Pending} {ts us vs : List Token} {mark colon : Token} {test yes : Expr} (h : Spells p ts)
      (hp : Looser 0 p) (ht : Spelt (.level .or) test us) (hm : mark.kind = .question)
      (hy : Spelt .conditional yes vs) (hc : colon.kind = .colon) :
      Spells (.no test mark yes :: p) (ts ++ us ++ [mark] ++ vs ++ [colon])
  | group {p : List Pending} {ts : List Token} {opening : Token} (h : Spells p ts)
      (ho : opening.kind = .openParen) : Spells (.group :: p) (ts ++ [opening])
  | arguments {p : List Pending} {ts us : List Token} {callee opening : Token} {done : List Expr} (h : Spells p ts)
      (hf : callee.kind = .identifier) (ho : opening.kind = .openParen) (hd : Listed done us) :
      Spells (.arguments callee done :: p) (ts ++ [callee, opening] ++ us)
  | items {p : List Pending} {ts us : List Token} {bracket : Token} {done : List Expr} (h : Spells p ts)
      (ho : bracket.kind = .openBracket) (hd : Listed done us) :
      Spells (.items bracket done :: p) (ts ++ [bracket] ++ us)
  | index {p : List Pending} {ts us : List Token} {bracket : Token} {array : Expr} (h : Spells p ts)
      (ha : Spelt .indexed array us) (ho : bracket.kind = .openBracket) :
      Spells (.index array bracket :: p) (ts ++ us ++ [bracket])

variable {p : List Pending}

/-- what is left when operators that bind at least as tightly as `n` have been put together -/
theorem reduce_spells {n m : Nat} (hn : n ≤ 6) (h : Spells p ts) (he : Spelt (.tight m) e us) (hnm : n ≤ m)
    (hm : 7 ≤ m ∨ Looser m p) :
    ∃ ts' us', Spells (reduce n p e).1 ts' ∧ Spelt (.tight n) (reduce n p e).2 us' ∧ Looser n (reduce n p e).1 ∧
      ts' ++ us' = ts ++ us := by
  induction h generalizing m e us with
  | unary h hop ih =>
    obtain hm | hm := hm
    · rw [Category.tight_of_le hm] at he
      obtain ⟨ts', us', h1, h2, h3, h4⟩ := ih (m := 7) (he.signed hop) (by omega) (.inl le_rfl)
      exact ⟨ts', us', h1, h2, h3, by simp [h4]⟩
    · exact hm.elim
  | @binary p ts vs op l k h hp hl hop ih =>
    have hk := k.number_le
    have hlevel := level?_of_mem hop
    rw [reduce, hlevel, Option.getD_some]
    split_ifs with hnk
    · -- the operand to the right is at least as tight as the level asks for
      have hkm : k.number + 1 ≤ m := by
        rcases hm with hm | hm
        · omega
        · simpa [Looser, hlevel] using hm
      have he' := he.loosen hkm
      rw [Category.tight_operand] at he'
      obtain ⟨ts', us', h1, h2, h3, h4⟩ := ih (m := k.number) (by rw [Category.tight_number]; exact hl.binary hop he')
        hnk (.inr hp)
      exact ⟨ts', us', h1, h2, h3, by simp [h4]⟩
    · exact ⟨_, us, .binary k h hp hl hop, he.loosen hnm, by simpa [Looser, hlevel] using hnk, rfl⟩
  | @power p ts vs op l h hl hop ih =>
    have hlevel : level? op.kind = some 7 := by rw [hop]; rfl
    have hm : 7 ≤ m := by
      rcases hm with hm | hm
      · exact hm
      · have : 7 < m := by simpa [Looser, hlevel] using hm
        omega
    rw [Category.tight_of_le hm] at he
    rw [reduce, hlevel, Option.getD_some, if_pos (by omega)]
    obtain ⟨ts', us', h1, h2, h3, h4⟩ := ih (m := 7) (hl.raise hop he) (by omega) (.inl le_rfl)
    exact ⟨ts', us', h1, h2, h3, by simp [h4]⟩
  | nil => exact ⟨_, us, .nil, he.loosen hnm, trivial, rfl⟩
  | yes h hp ht hq => exact ⟨_, us, .yes h hp ht hq, he.loosen hnm, trivial, rfl⟩
  | no h hp ht hq hy hc => exact ⟨_, us, .no h hp ht hq hy hc, he.loosen hnm, trivial, rfl⟩
  | group h ho => exact ⟨_, us, .group h ho, he.loosen hnm, trivial, rfl⟩
  | arguments h hf ho hd => exact ⟨_, us, .arguments h hf ho hd, he.loosen hnm, trivial, rfl⟩
  | items h ho hd => exact ⟨_, us, .items h ho hd, he.loosen hnm, trivial, rfl⟩
  | index h ha ho => exact ⟨_, us, .index h ha ho, he.loosen hnm, trivial, rfl⟩

/-- the innermost pending construct waits for a token of its own -/
def Waits : List Pending → Prop
  | .unary _ :: _ | .binary _ _ :: _ | .no _ _ _ :: _ => False
  | _ => True

theorem reduceAll_eq_reduceAll_reduce (p : List Pending) (e : Expr) :
    reduceAll p e = reduceAll (reduce 0 p e).1 (reduce 0 p e).2 := by
  fun_induction reduce 0 p e with
  | case1 op p e ih => rw [reduceAll, ih]
  | case2 l op p e h ih => rw [reduceAll, ih]
  | case3 l op p e h => exact absurd (Nat.zero_le _) h
  | case4 p e => rfl

theorem reduceAll_spells_of_looser (h : Spells p ts) (hp : Looser 0 p) (he : Spelt .conditional e us) :
    ∃ ts' us', Spells (reduceAll p e).1 ts' ∧ Spelt .conditional (reduceAll p e).2 us' ∧ Waits (reduceAll p e).1 ∧
      ts' ++ us' = ts ++ us := by
  induction h generalizing e us with
  | unary => exact hp.elim
  | binary => exact absurd hp (Nat.not_lt_zero _)
  | power => exact absurd hp (Nat.not_lt_zero _)
  | no h hp' ht hq hy hc ih =>
    obtain ⟨ts', us', h1, h2, h3, h4⟩ := ih hp' (ht.choice hq hy hc he)
    exact ⟨ts', us', h1, h2, h3, by simp [h4]⟩
  | nil => exact ⟨_, us, .nil, he, trivial, rfl⟩
  | yes h hp' ht hq => exact ⟨_, us, .yes h hp' ht hq, he, trivial, rfl⟩
  | group h ho => exact ⟨_, us, .group h ho, he, trivial, rfl⟩
  | arguments h hf ho hd => exact ⟨_, us, .arguments h hf ho hd, he, trivial, rfl⟩
  | items h ho hd => exact ⟨_, us, .items h ho hd, he, trivial, rfl⟩
  | index h ha ho => exact ⟨_, us, .index h ha ho, he, trivial, rfl⟩

/-- what is left when all operators and conditionals have been put together -/
theorem reduceAll_spells (h : Spells p ts) (he : Spelt .indexed e us) :
    ∃ ts' us', Spells (reduceAll p e).1 ts' ∧ Spelt .conditional (reduceAll p e).2 us' ∧ Waits (reduceAll p e).1 ∧
      ts' ++ us' = ts ++ us := by
  obtain ⟨ts₁, us₁, h1, ⟨d, hm, hy⟩, h3, h4⟩ := reduce_spells (n := 0) (m := 7) (by decide) h he.indexed (by decide)
    (.inl le_rfl)
  obtain ⟨ts₂, us₂, h5, h6, h7, h8⟩ := reduceAll_spells_of_looser h1 h3 (⟨plain d, hm, hy⟩ : Spelt .conditional _ us₁)
  rw [reduceAll_eq_reduceAll_reduce]
  exact ⟨ts₂, us₂, h5, h6, h7, h8.trans h4⟩

/-! ## Statements being read -/

/-- the tokens spell a statement up to its expression, or a loop up to its condition -/
def Opens : Goal → List Token → Prop
  | .statement (.declare name), ts => ∃ sign : Token, name.kind = .identifier ∧ sign.kind = .walrus ∧ ts = [name, sign]
  | .statement (.assign name), ts => ∃ sign : Token, name.kind = .identifier ∧ sign.kind = .assign ∧ ts = [name, sign]
  | .statement (.print keyword), ts => keyword.kind = .print ∧ ts = [keyword]
  | .statement (.function name names), ts =>
    ∃ (keyword : Terminal .function) (opening : Terminal .openParen) (ps : Parameters) (closing : Terminal .closeParen)
      (sign : Terminal .assign), name.kind = .identifier ∧ ps.names = names ∧ names.Nodup ∧
        ts = keyword.1 :: name :: opening.1 :: ps.yield ++ [closing.1, sign.1]
  | .condition keyword, ts => keyword.kind = .loop ∧ ts = [keyword]

theorem Opens.exists_statement {form : Form} (h : Opens (.statement form) ts) (he : Spelt .conditional e us) :
    ∃ d : Derivation .statement, d.meaning = [form.stmt e] ∧ d.yield = ts ++ us ∧
      ∀ ps ∈ d.parameterLists, ps.Nodup := by
  obtain ⟨d, rfl, rfl⟩ := he
  cases form with
  | declare name =>
    obtain ⟨sign, hn, hs, rfl⟩ := h
    exact ⟨.declare ⟨name, hn⟩ ⟨sign, hs⟩ d, rfl, rfl, by simp [parameterLists]⟩
  | assign name =>
    obtain ⟨sign, hn, hs, rfl⟩ := h
    exact ⟨.assign ⟨name, hn⟩ ⟨sign, hs⟩ d, rfl, rfl, by simp [parameterLists]⟩
  | print keyword =>
    obtain ⟨hk, rfl⟩ := h
    exact ⟨.print ⟨keyword, hk⟩ d, rfl, rfl, by simp [parameterLists]⟩
  | function name names =>
    obtain ⟨keyword, opening, ps, closing, sign, hn, rfl, hd, rfl⟩ := h
    exact ⟨.function keyword ⟨name, hn⟩ opening ps closing sign d, rfl, by simp [yield],
      by simpa [parameterLists] using hd⟩

/-- the tokens spell the statement being read, as far as it goes -/
def PhaseSpells : Phase → List Token → Prop
  | .statement, ts => ts = []
  | .binding name, ts => name.kind = .identifier ∧ ts = [name]
  | .functionName, ts => ∃ keyword : Terminal .function, ts = [keyword.1]
  | .openParameters name, ts => ∃ keyword : Terminal .function, name.kind = .identifier ∧ ts = [keyword.1, name]
  | .firstParameter name, ts => ∃ (keyword : Terminal .function) (opening : Terminal .openParen),
    name.kind = .identifier ∧ ts = [keyword.1, name, opening.1]
  | .parameter name names, ts => ∃ (keyword : Terminal .function) (opening : Terminal .openParen)
      (first : Terminal .identifier) (rest : List (Terminal .comma × Terminal .identifier)) (comma : Terminal .comma),
    name.kind = .identifier ∧ Parameters.names (some (first, rest)) = names ∧ names.Nodup ∧
      ts = keyword.1 :: name :: opening.1 :: Parameters.yield (some (first, rest)) ++ [comma.1]
  | .afterParameter name names, ts => ∃ (keyword : Terminal .function) (opening : Terminal .openParen)
      (first : Terminal .identifier) (rest : List (Terminal .comma × Terminal .identifier)),
    name.kind = .identifier ∧ Parameters.names (some (first, rest)) = names ∧ names.Nodup ∧
      ts = keyword.1 :: name :: opening.1 :: Parameters.yield (some (first, rest))
  | .functionBody name names, ts => ∃ (keyword : Terminal .function) (opening : Terminal .openParen) (ps : Parameters)
      (closing : Terminal .closeParen), name.kind = .identifier ∧ ps.names = names ∧ names.Nodup ∧
      ts = keyword.1 :: name :: opening.1 :: ps.yield ++ [closing.1]
  | .operand goal p, ts => ∃ us vs, Opens goal us ∧ Spells p vs ∧ ts = us ++ vs
  | .callee goal p name, ts => ∃ us vs, Opens goal us ∧ Spells p vs ∧ name.kind = .identifier ∧ ts = us ++ vs ++ [name]
  | .operator goal p e, ts => ∃ us vs ws, Opens goal us ∧ Spells p vs ∧ Spelt .indexed e ws ∧ ts = us ++ vs ++ ws

/-- the tokens spell the open loops and the statements that are done -/
inductive Opened : List OpenLoop → List Stmt → List Token → Prop where
  | program (b : Derivation .block) (hp : ∀ ps ∈ b.parameterLists, ps.Nodup) :
      Opened [] (List.reverse b.meaning) b.yield
  | loop {ls : List OpenLoop} {before : List Stmt} {ts us : List Token} {c : Expr} (h : Opened ls before ts)
      (keyword : Terminal .loop) (hc : Spelt .conditional c us) (opening : Terminal .openBrace) (b : Derivation .block)
      (hp : ∀ ps ∈ b.parameterLists, ps.Nodup) :
      Opened (⟨keyword.1, c, before⟩ :: ls) (List.reverse b.meaning) (ts ++ keyword.1 :: us ++ opening.1 :: b.yield)

/-- the tokens lead to the state -/
def StateSpells (s : State) (ts : List Token) : Prop :=
  ∃ us vs, Opened s.loops s.done us ∧ PhaseSpells s.phase vs ∧ ts = us ++ vs

variable {L : List OpenLoop} {D : List Stmt}

theorem Opened.snoc (h : Opened L D ts) (d : Derivation .statement) (hd : ∀ ps ∈ d.parameterLists, ps.Nodup) :
    Opened L (List.reverse d.meaning ++ D) (ts ++ d.yield) := by
  cases h with
  | program b hp =>
    obtain ⟨b', hm, hy, hl⟩ := exists_statements d b
    have hb : ∀ ps ∈ b'.parameterLists, ps.Nodup := by
      intro ps h
      rw [hl] at h
      exact (List.mem_append.1 h).elim (hp ps) (hd ps)
    rw [← hy, ← List.reverse_append, ← hm]
    exact Opened.program b' hb
  | loop h keyword hc opening b hp =>
    obtain ⟨b', hm, hy, hl⟩ := exists_statements d b
    have hb : ∀ ps ∈ b'.parameterLists, ps.Nodup := by
      intro ps h
      rw [hl] at h
      exact (List.mem_append.1 h).elim (hp ps) (hd ps)
    rw [List.append_assoc, List.cons_append, ← hy, ← List.reverse_append, ← hm]
    exact Opened.loop h keyword hc opening b' hb

theorem Opened.close {l : OpenLoop} (h : Opened (l :: L) D ts) (closing : Terminal .closeBrace) :
    Opened L (.loop l.keyword l.condition D.reverse :: l.before) (ts ++ [closing.1]) := by
  cases h with
  | loop h keyword hc opening b hp =>
    obtain ⟨c, rfl, rfl⟩ := hc
    have := h.snoc (.loop keyword c opening b closing) hp
    simpa [meaning, yield] using this

/-! ## One token -/

variable {goal : Goal} {s s' : State} {ws : List Token}

theorem startStatement_spells (h : Opened L D ts) (hs : State.startStatement L D t = .ok s) :
    StateSpells s (ts ++ [t]) := by
  unfold State.startStatement at hs
  split at hs
  · rename_i hk
    cases hs
    refine ⟨ts ++ [t], [], ?_, rfl, by simp⟩
    simpa [meaning, yield] using h.snoc (.empty ⟨t, hk⟩) (by simp [parameterLists])
  · rename_i hk
    cases hs
    exact ⟨ts, [t], h, ⟨⟨t, hk⟩, rfl⟩, rfl⟩
  · rename_i hk
    cases hs
    exact ⟨ts, [t], h, ⟨[t], [], ⟨hk, rfl⟩, .nil, rfl⟩, rfl⟩
  · rename_i hk
    cases hs
    exact ⟨ts, [t], h, ⟨[t], [], ⟨hk, rfl⟩, .nil, rfl⟩, rfl⟩
  · rename_i hk
    cases hs
    exact ⟨ts, [t], h, ⟨hk, rfl⟩, rfl⟩
  · rename_i hk
    cases L with
    | nil => cases hs
    | cons l L =>
      cases hs
      exact ⟨ts ++ [t], [], h.close ⟨t, hk⟩, rfl, by simp⟩
  · cases hs

/-- what a phase spells, behind the open loops -/
theorem StateSpells.mk {phase : Phase} (h : Opened L D ts) (hp : PhaseSpells phase us) (he : vs = ts ++ us) :
    StateSpells ⟨L, D, phase⟩ vs := ⟨ts, us, h, hp, he⟩

theorem startOperand_spells (h : Opened L D ts) (hg : Opens goal us) (hp : Spells p vs) {phase : Phase}
    (hs : State.startOperand ⟨L, D, phase⟩ goal p t = .ok s) : StateSpells s (ts ++ (us ++ vs) ++ [t]) := by
  unfold State.startOperand at hs
  split at hs
  · rename_i callee q hk
    cases hs
    cases hp with
    | @arguments _ vs ws _ opening _ hq hf ho hd =>
      cases hd
      refine .mk h ⟨us, vs, [callee, opening, t], hg, hq, .primary ⟨.call ⟨callee, hf⟩ ⟨opening, ho⟩ noItem ⟨t, hk⟩,
        rfl, rfl⟩, rfl⟩ (by simp)
  · rename_i bracket q hk
    cases hs
    cases hp with
    | @items _ vs ws _ _ hq ho hd =>
      cases hd
      exact .mk h ⟨us, vs, [bracket, t], hg, hq, .primary ⟨.array ⟨bracket, ho⟩ noItem ⟨t, hk⟩, rfl, rfl⟩, rfl⟩
        (by simp)
  · rename_i hk
    cases hx : Numeral.read? t.text with
    | none => rw [hx] at hs; cases hs
    | some x =>
      rw [hx] at hs
      cases hs
      refine .mk h ⟨us, vs, [t], hg, hp, .primary ⟨.numeral ⟨t, hk⟩, ?_, rfl⟩, rfl⟩ (by simp)
      rw [meaning, hx]
      rfl
  · rename_i hk
    cases hs
    exact .mk h ⟨us, vs, [t], hg, hp, .primary ⟨.boolean ⟨t, hk⟩, rfl, rfl⟩, rfl⟩ (by simp)
  · rename_i hk
    cases hs
    exact .mk h ⟨us, vs, hg, hp, hk, rfl⟩ (by simp)
  · rename_i hk
    cases hs
    exact .mk h ⟨us, _, hg, .group hp hk, rfl⟩ (by simp)
  · rename_i hk
    cases hs
    exact .mk h ⟨us, _, hg, .items hp hk .nil, rfl⟩ (by simp)
  · rename_i hk
    cases hs
    exact .mk h ⟨us, _, hg, .unary hp (.inr hk), rfl⟩ (by simp)
  · rename_i hk
    cases hs
    exact .mk h ⟨us, _, hg, .unary hp (.inl hk), rfl⟩ (by simp)
  · cases hs

/-- the token that the innermost construct waits for, or the start of the next statement -/
theorem close_spells (h : Opened L D ts) (hg : Opens goal us) (hp : Spells p vs) (hw : Waits p)
    (he : Spelt .conditional e ws) {phase : Phase} (hs : State.close ⟨L, D, phase⟩ goal p e t = .ok s) :
    StateSpells s (ts ++ (us ++ vs ++ ws) ++ [t]) := by
  cases hp with
  | unary => exact hw.elim
  | binary => exact hw.elim
  | power => exact hw.elim
  | no => exact hw.elim
  | nil =>
    cases goal with
    | statement form =>
      obtain ⟨d, hm, hy, hd⟩ := hg.exists_statement he
      have h' := h.snoc d hd
      rw [hm, hy] at h'
      simpa using startStatement_spells h' hs
    | condition keyword =>
      simp only [State.close] at hs
      split_ifs at hs with hk
      · cases hs
        obtain ⟨hkey, rfl⟩ := hg
        refine ⟨_, [], .loop h ⟨keyword, hkey⟩ he ⟨t, hk⟩ noStatement (by simp [parameterLists]), rfl, ?_⟩
        simp [yield]
      · cases hs
  | yes hq hl ht hm =>
    simp only [State.close] at hs
    split_ifs at hs with hk
    · cases hs
      exact .mk h ⟨us, _, hg, .no hq hl ht hm he hk, rfl⟩ (by simp)
    · cases hs
  | @group _ _ opening hq ho =>
    simp only [State.close] at hs
    split_ifs at hs with hk
    · cases hs
      obtain ⟨d, rfl, rfl⟩ := he
      exact .mk h ⟨us, _, _, hg, hq, .primary ⟨.group ⟨opening, ho⟩ d ⟨t, hk⟩, rfl, rfl⟩, rfl⟩ (by simp [yield])
    · cases hs
  | @arguments _ _ _ callee opening _ hq hf ho hd =>
    simp only [State.close] at hs
    split_ifs at hs with hk hk'
    · cases hs
      exact .mk h ⟨us, _, hg, .arguments hq hf ho (.snoc hd he hk), rfl⟩ (by simp)
    · cases hs
      obtain ⟨d, hm, hy⟩ := hd.exists_items he lastItem
      refine .mk h ⟨us, _, _, hg, hq, .primary ⟨.call ⟨callee, hf⟩ ⟨opening, ho⟩ d ⟨t, hk'⟩, ?_, rfl⟩, rfl⟩ ?_
      · simp [meaning, hm]
      · simp [yield, hy]
    · cases hs
  | @items _ _ _ bracket _ hq ho hd =>
    simp only [State.close] at hs
    split_ifs at hs with hk hk'
    · cases hs
      exact .mk h ⟨us, _, hg, .items hq ho (.snoc hd he hk), rfl⟩ (by simp)
    · cases hs
      obtain ⟨d, hm, hy⟩ := hd.exists_items he lastItem
      refine .mk h ⟨us, _, _, hg, hq, .primary ⟨.array ⟨bracket, ho⟩ d ⟨t, hk'⟩, ?_, rfl⟩, rfl⟩ ?_
      · simp [meaning, hm]
      · simp [yield, hy]
    · cases hs
  | index hq ha ho =>
    simp only [State.close] at hs
    split_ifs at hs with hk
    · cases hs
      exact .mk h ⟨us, _, _, hg, hq, ha.subscript ho he hk, rfl⟩ (by simp)
    · cases hs

theorem exists_level {k : Kind} {n : Nat} (h : level? k = some n) (hk : k ≠ .power) :
    ∃ l : Level, l.number = n ∧ k ∈ l.operators := by
  cases k <;> cases h <;> first
    | contradiction
    | exact ⟨.or, by decide⟩
    | exact ⟨.and, by decide⟩
    | exact ⟨.equality, by decide⟩
    | exact ⟨.comparison, by decide⟩
    | exact ⟨.sum, by decide⟩
    | exact ⟨.product, by decide⟩

theorem afterOperand_spells (h : Opened L D ts) (hg : Opens goal us) (hp : Spells p vs) (he : Spelt .indexed e ws)
    {phase : Phase} (hs : State.afterOperand ⟨L, D, phase⟩ goal p e t = .ok s) :
    StateSpells s (ts ++ (us ++ vs ++ ws) ++ [t]) := by
  have hu : Spelt (.tight 7) e ws := he.indexed
  unfold State.afterOperand at hs
  split at hs
  · rename_i hk
    cases hs
    exact .mk h ⟨us, _, hg, .index hp he hk, rfl⟩ (by simp)
  · rename_i hk
    cases hs
    exact .mk h ⟨us, _, hg, .power hp he hk, rfl⟩ (by simp)
  · rename_i hk
    obtain ⟨vs', ws', hp', he', hl', heq⟩ := reduce_spells (by decide) hp hu (Nat.zero_le 7) (.inl le_rfl)
    cases hs
    exact .mk h ⟨us, _, hg, .yes hp' hl' he' hk, rfl⟩ (by simp [← heq])
  · rename_i hpower _
    split at hs
    · rename_i n hn
      obtain ⟨l, rfl, hl⟩ := exists_level hn hpower
      have hle := l.number_le
      obtain ⟨vs', ws', hp', he', hl', heq⟩ := reduce_spells hle.2 hp hu (by omega) (.inl le_rfl)
      rw [Category.tight_number] at he'
      cases hs
      exact .mk h ⟨us, _, hg, .binary l hp' hl' he' hl, rfl⟩ (by simp [← heq])
    · obtain ⟨vs', ws', hp', he', hw', heq⟩ := reduceAll_spells hp he
      have := close_spells h hg hp' hw' he' hs
      rwa [List.append_assoc us, heq, ← List.append_assoc us] at this

/-- **One token keeps the invariant.** -/
theorem step_spells (h : StateSpells s ts) (hs : s.step t = .ok s') : StateSpells s' (ts ++ [t]) := by
  obtain ⟨L, D, phase⟩ := s
  obtain ⟨us, vs, ho, hp, rfl⟩ := h
  cases phase with
  | statement =>
    rw [show vs = [] from hp, List.append_nil]
    exact startStatement_spells ho hs
  | binding name =>
    obtain ⟨hn, rfl⟩ := hp
    simp only [State.step] at hs
    split_ifs at hs with h1 h2
    · cases hs
      exact .mk ho ⟨[name, t], [], ⟨t, hn, h1, rfl⟩, .nil, rfl⟩ (by simp)
    · cases hs
      exact .mk ho ⟨[name, t], [], ⟨t, hn, h2, rfl⟩, .nil, rfl⟩ (by simp)
    · cases hs
  | functionName =>
    obtain ⟨keyword, rfl⟩ := hp
    simp only [State.step] at hs
    split_ifs at hs with h1
    · cases hs
      exact .mk ho ⟨keyword, h1, rfl⟩ (by simp)
    · cases hs
  | openParameters name =>
    obtain ⟨keyword, hn, rfl⟩ := hp
    simp only [State.step] at hs
    split_ifs at hs with h1
    · cases hs
      exact .mk ho ⟨keyword, ⟨t, h1⟩, hn, rfl⟩ (by simp)
    · cases hs
  | firstParameter name =>
    obtain ⟨keyword, opening, hn, rfl⟩ := hp
    simp only [State.step] at hs
    split_ifs at hs with h1 h2
    · cases hs
      exact .mk ho ⟨keyword, opening, none, ⟨t, h1⟩, hn, rfl, List.nodup_nil, rfl⟩ (by simp [Parameters.yield])
    · cases hs
      exact .mk ho ⟨keyword, opening, ⟨t, h2⟩, [], hn, rfl, List.nodup_singleton _, rfl⟩ (by simp [Parameters.yield])
    · cases hs
  | parameter name names =>
    obtain ⟨keyword, opening, first, rest, comma, hn, rfl, hd, rfl⟩ := hp
    simp only [State.step] at hs
    split_ifs at hs with h1 h2
    · cases hs
    · cases hs
      refine .mk ho ⟨keyword, opening, first, rest ++ [(comma, ⟨t, h1⟩)], hn, ?_, ?_, rfl⟩ ?_
      · simp [Parameters.names]
      · exact List.nodup_append.2 ⟨hd, List.nodup_singleton _, by rintro a ha b hb rfl; simp_all⟩
      · simp [Parameters.yield]
    · cases hs
  | afterParameter name names =>
    obtain ⟨keyword, opening, first, rest, hn, rfl, hd, rfl⟩ := hp
    simp only [State.step] at hs
    split_ifs at hs with h1 h2
    · cases hs
      exact .mk ho ⟨keyword, opening, first, rest, ⟨t, h1⟩, hn, rfl, hd, rfl⟩ (by simp)
    · cases hs
      exact .mk ho ⟨keyword, opening, some (first, rest), ⟨t, h2⟩, hn, rfl, hd, rfl⟩ (by simp)
    · cases hs
  | functionBody name names =>
    obtain ⟨keyword, opening, ps, closing, hn, rfl, hd, rfl⟩ := hp
    simp only [State.step] at hs
    split_ifs at hs with h1
    · cases hs
      exact .mk ho ⟨_, [], ⟨keyword, opening, ps, closing, ⟨t, h1⟩, hn, rfl, hd, rfl⟩, .nil, rfl⟩ (by simp)
    · cases hs
  | operand goal p =>
    obtain ⟨vs, ws, hg, hq, rfl⟩ := hp
    exact startOperand_spells ho hg hq hs
  | callee goal p name =>
    obtain ⟨vs, ws, hg, hq, hn, rfl⟩ := hp
    simp only [State.step] at hs
    split_ifs at hs with h1
    · cases hs
      exact .mk ho ⟨vs, _, hg, .arguments hq hn h1 .nil, rfl⟩ (by simp)
    · exact afterOperand_spells ho hg hq (.primary ⟨.variable ⟨name, hn⟩, rfl, rfl⟩) hs
  | operator goal p e =>
    obtain ⟨vs, ws, xs, hg, hq, he, rfl⟩ := hp
    exact afterOperand_spells ho hg hq he hs

/-! ## Whole token lists -/

theorem stepAll_spells (h : StateSpells s ts) (hs : s.stepAll us = .ok s') : StateSpells s' (ts ++ us) := by
  induction us generalizing s ts with
  | nil =>
    cases hs
    simpa using h
  | cons t us ih =>
    obtain ⟨s₁, h₁, hs⟩ := State.exists_step_of_stepAll_cons hs
    simpa using ih (step_spells h h₁) hs

theorem initial_spells : StateSpells .initial [] :=
  ⟨[], [], .program noStatement (by simp [parameterLists]), rfl, rfl⟩

theorem close_refuses (hk : t.kind = .number ∨ t.kind = .endOfInput) : s.close goal p e t ≠ .ok s' := by
  unfold State.close State.startStatement
  rcases hk with hk | hk <;> simp only [hk] <;> split <;> simp [refuse, refuseAs]
  all_goals cases goal <;> simp

theorem afterOperand_refuses (hk : t.kind = .number ∨ t.kind = .endOfInput) : s.afterOperand goal p e t ≠ .ok s' := by
  have hg : grip t.kind = 0 := by rcases hk with hk | hk <;> simp [hk, grip]
  rw [afterOperand_eq _ t (by omega), if_neg (by omega), if_neg (by omega)]
  exact close_refuses hk

/-- A number, or the end of input, has no place but where an expression starts. -/
theorem phase_of_step (hk : t.kind = .number ∨ t.kind = .endOfInput) (hs : s.step t = .ok s') :
    ∃ goal p, s.phase = .operand goal p := by
  cases hph : s.phase with
  | operand goal p => exact ⟨goal, p, rfl⟩
  | callee goal p name =>
    have hn : t.kind ≠ .openParen := by rcases hk with hk | hk <;> simp [hk]
    simp only [State.step, hph, if_neg hn] at hs
    exact absurd hs (afterOperand_refuses hk)
  | operator goal p e =>
    simp only [State.step, hph] at hs
    exact absurd hs (afterOperand_refuses hk)
  | _ => rcases hk with hk | hk <;> simp [State.step, State.startStatement, hph, hk, refuse, refuseAs] at hs

theorem step_endOfInput (hk : t.kind = .endOfInput) : s.step t ≠ .ok s' := by
  intro hs
  obtain ⟨goal, p, hp⟩ := phase_of_step (.inr hk) hs
  simp [State.step, hp, State.startOperand, hk, refuse] at hs

theorem read?_isSome_of_step (hk : t.kind = .number) (hs : s.step t = .ok s') : (Numeral.read? t.text).isSome := by
  obtain ⟨goal, p, hp⟩ := phase_of_step (.inl hk) hs
  simp only [State.step, hp, State.startOperand, hk] at hs
  cases hx : Numeral.read? t.text with
  | none => rw [hx] at hs; cases hs
  | some x => rfl

theorem settled_spells {form : Form} (h : Opened L D ts) (hg : Opens (.statement form) us) (hp : Spells p vs)
    (he : Spelt .indexed e ws) (hr : reduceAll p e = ([], e')) :
    StateSpells ⟨L, form.stmt e' :: D, .statement⟩ (ts ++ (us ++ vs ++ ws)) := by
  obtain ⟨vs', ws', hp', he', -, heq⟩ := reduceAll_spells hp he
  rw [hr] at hp' he'
  cases hp'
  obtain ⟨d, hm, hy, hd⟩ := hg.exists_statement he'
  have h' := h.snoc d hd
  rw [hm, hy] at h'
  exact .mk h' rfl (by simpa using heq.symm)

theorem settle_spells (h : StateSpells s ts) : StateSpells s.settle ts := by
  obtain ⟨L, D, phase⟩ := s
  cases phase with
  | callee goal p name =>
    cases goal with
    | condition keyword => exact h
    | statement form =>
      obtain ⟨us, vs, ho, ⟨vs, ws, hg, hp, hn, rfl⟩, rfl⟩ := id h
      rcases hr : reduceAll p (.variable name name.text) with ⟨_ | ⟨x, q⟩, e'⟩
      · simpa [State.settle, hr, yield] using settled_spells ho hg hp (.primary ⟨.variable ⟨name, hn⟩, rfl, rfl⟩) hr
      · simpa [State.settle, hr] using h
  | operator goal p e =>
    cases goal with
    | condition keyword => exact h
    | statement form =>
      obtain ⟨us, vs, ho, ⟨vs, ws, xs, hg, hp, he, rfl⟩, rfl⟩ := id h
      rcases hr : reduceAll p e with ⟨_ | ⟨x, q⟩, e'⟩
      · simpa [State.settle, hr] using settled_spells ho hg hp he hr
      · simpa [State.settle, hr] using h
  | _ => exact h

/-- **What a run accepts is spelt by a derivation.** -/
theorem exists_derivation_of_finish (h : StateSpells s ts) (ht : t.kind = .endOfInput) {b : Block}
    (hb : s.finish t = .ok b) :
    ∃ d : Derivation .block, d.yield = ts ∧ d.meaning = b ∧ ∀ ps ∈ d.parameterLists, ps.Nodup := by
  have h := settle_spells h
  unfold State.finish at hb
  generalize s.settle = s₁ at h hb
  obtain ⟨L, D, phase⟩ := s₁
  obtain ⟨us, vs, ho, hp, rfl⟩ := h
  by_cases hph : phase = .statement
  · subst hph
    cases ho with
    | program d hd =>
      cases hb
      exact ⟨d, by rw [show vs = [] from hp, List.append_nil], (List.reverse_reverse _).symm, hd⟩
    | loop => cases hb
  · cases hs : State.step ⟨L, D, phase⟩ t with
    | ok s' => exact absurd hs (step_endOfInput ht)
    | error d =>
      cases phase with
      | statement => exact absurd rfl hph
      | _ => simp [hs] at hb

theorem numeralsRead_of_stepAll (hs : s.stepAll ts = .ok s') : Token.NumeralsRead ts := by
  induction ts generalizing s with
  | nil => simp [Token.NumeralsRead]
  | cons t ts ih =>
    obtain ⟨s₁, h₁, hs⟩ := State.exists_step_of_stepAll_cons hs
    intro u hu hk
    rcases List.mem_cons.1 hu with rfl | hu
    · exact read?_isSome_of_step hk h₁
    · exact ih hs u hu hk

theorem exists_derivation_of_parse {b : Block} (h : Block.parse ts = .ok b) :
    ∃ d : Derivation .block, d.yield = Token.beforeEnd ts ∧ d.meaning = b ∧ (∀ ps ∈ d.parameterLists, ps.Nodup) ∧
      Token.NumeralsRead d.yield := by
  rw [Block.parse, State.run_eq_finish] at h
  cases hs : State.initial.stepAll (Token.beforeEnd ts) with
  | error d => rw [hs] at h; cases h
  | ok s =>
    rw [hs] at h
    obtain ⟨d, hy, hm, hp⟩ := exists_derivation_of_finish (stepAll_spells initial_spells hs) (kind_endOf ts) h
    rw [List.nil_append] at hy
    exact ⟨d, hy, hm, hp, hy ▸ numeralsRead_of_stepAll hs⟩

/-- **The reader accepts the grammar's programs and nothing else.** Up to the first end of input, a token list is read
if and only if it has a derivation in which no parameter list repeats a name, and each numeral has a value. Then it has
no other derivation, and what is read is what the derivation denotes. -/
theorem parse_accepts_grammar (ts : List Token) :
    ((∃ b, Block.parse ts = .ok b) ↔
      ∃ d : Derivation .block, d.yield = Token.beforeEnd ts ∧ (∀ ps ∈ d.parameterLists, ps.Nodup) ∧
        Token.NumeralsRead d.yield) ∧
    ∀ b, Block.parse ts = .ok b →
      ∃ d : Derivation .block, (d.yield = Token.beforeEnd ts ∧ d.meaning = b) ∧
        ∀ d' : Derivation .block, d'.yield = Token.beforeEnd ts → d' = d := by
  refine ⟨⟨?_, ?_⟩, ?_⟩
  · rintro ⟨b, hb⟩
    obtain ⟨d, hy, -, hp, hn⟩ := exists_derivation_of_parse hb
    exact ⟨d, hy, hp, hn⟩
  · rintro ⟨d, hy, hp, hn⟩
    exact ⟨d.meaning, d.parse_eq_meaning hy hn hp⟩
  · intro b hb
    obtain ⟨d, hy, hm, -, -⟩ := exists_derivation_of_parse hb
    refine ⟨d, ⟨hy, hm⟩, fun d' hy' => ?_⟩
    exact (eq_of_yield_append d' d [] [] (by simp [Symbol.Ends]) (by simp [Symbol.Ends]) (by rw [hy, hy'])).1

end Grammar

end Treewalk
