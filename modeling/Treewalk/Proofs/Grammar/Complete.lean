/-
The reader reads every derivation.

`Reads d` says what the reader makes of the tokens of a derivation, whatever is pending around them: behind an
expression it acts like a state that holds the tree the derivation denotes, and behind statements like a state in which
they are done. Each constructor of derivations has a lemma of its own; `reads` puts them together by induction.
-/
import Mathlib.Tactic
import Treewalk.Proofs.Reader.Steps

namespace Treewalk

/-- each numeral of a list of tokens is a number -/
def Token.NumeralsRead (ts : List Token) : Prop := ∀ t ∈ ts, t.kind = .number → (Numeral.read? t.text).isSome

namespace Grammar

open Reader

variable {L : List OpenLoop} {D : List Stmt} {goal : Goal} {p : List Pending}

/-- an expression of the category may stand inside what is pending -/
def Category.Fits : Category → List Pending → Prop
  | .conditional, p => Looser 0 p
  | .level l, p => Looser l.number p
  | _, _ => True

theorem Level.fits_operand {l : Level} (h : Looser (l.number + 1) p) : l.operand.Fits p := by
  cases l <;> first | exact h | trivial

/-! ## Items between brackets -/

/-- brackets around items: those of a call or of an array -/
inductive Enclosure where
  | call (callee : Token)
  | array (bracket : Token)

namespace Enclosure

/-- what is pending inside the brackets, behind the items `done`, last one first -/
def pending : Enclosure → List Expr → Pending
  | .call callee, done => .arguments callee done
  | .array bracket, done => .items bracket done

def closing : Enclosure → Kind
  | .call _ => .closeParen
  | .array _ => .closeBracket

/-- what the brackets and the items make -/
def expr : Enclosure → List Expr → Expr
  | .call callee, items => .call callee callee.text items
  | .array bracket, items => .array bracket items

variable (b : Enclosure) {t : Token}

theorem grip_closing : grip b.closing = 0 := by
  cases b <;> rfl

theorem step_empty (h : t.kind = b.closing) :
    (⟨L, D, .operand goal (b.pending [] :: p)⟩ : State).step t = .ok ⟨L, D, .operator goal p (b.expr [])⟩ := by
  cases b <;> simp only [State.step, State.startOperand, h, closing, pending, expr]

theorem step_comma (h : t.kind = .comma) (done : List Expr) (e : Expr) :
    (⟨L, D, .operator goal (b.pending done :: p) e⟩ : State).step t =
      .ok ⟨L, D, .operand goal (b.pending (e :: done) :: p)⟩ := by
  cases b <;> simp [State.step, State.afterOperand, State.close, reduceAll, level?, h, pending]

theorem step_closing (h : t.kind = b.closing) (done : List Expr) (e : Expr) :
    (⟨L, D, .operator goal (b.pending done :: p) e⟩ : State).step t =
      .ok ⟨L, D, .operator goal p (b.expr (e :: done).reverse)⟩ := by
  cases b <;> simp [State.step, State.afterOperand, State.close, reduceAll, level?, h, pending, closing, expr]

theorem looser (n : Nat) (done : List Expr) : Looser n (b.pending done :: p) := by
  cases b <;> trivial

end Enclosure

/-! ## What reading a derivation does -/

namespace Derivation

/-- the reader takes the tokens of a derivation to what it denotes -/
def Reads : {s : Symbol} → Derivation s → Prop
  | .expression c, d => Token.NumeralsRead d.yield → ∀ L D goal p, c.Fits p →
    ∃ s, (⟨L, D, .operand goal p⟩ : State).stepAll d.yield = .ok s ∧
      Acts c.limit s ⟨L, D, .operator goal p d.meaning⟩
  | .operands l, d => Token.NumeralsRead d.yield → ∀ L D goal p e s, Looser l.number p →
    Acts (l.number + 1) s ⟨L, D, .operator goal p e⟩ →
    ∃ s', s.stepAll d.yield = .ok s' ∧ Acts (l.number + 1) s' ⟨L, D, .operator goal p (d.meaning e)⟩
  | .subscripts, d => Token.NumeralsRead d.yield → ∀ L D goal p e s, Acts 9 s ⟨L, D, .operator goal p e⟩ →
    ∃ s', s.stepAll d.yield = .ok s' ∧ Acts 9 s' ⟨L, D, .operator goal p (d.meaning e)⟩
  | .items, d => Token.NumeralsRead d.yield → ∀ L D goal p (b : Enclosure) (t : Terminal b.closing),
    (⟨L, D, .operand goal (b.pending [] :: p)⟩ : State).stepAll (d.yield ++ [t.1]) =
      .ok ⟨L, D, .operator goal p (b.expr d.meaning)⟩
  | .moreItems, d => Token.NumeralsRead d.yield → ∀ L D goal p (b : Enclosure) (t : Terminal b.closing) done e s,
    Acts 0 s ⟨L, D, .operator goal (b.pending done :: p) e⟩ →
    s.stepAll (d.yield ++ [t.1]) = .ok ⟨L, D, .operator goal p (b.expr (done.reverse ++ e :: d.meaning))⟩
  | .block, d => Token.NumeralsRead d.yield → (∀ ps ∈ d.parameterLists, ps.Nodup) → ∀ L D s,
    Acts 0 s ⟨L, D, .statement⟩ →
    ∃ s', s.stepAll d.yield = .ok s' ∧ Acts 0 s' ⟨L, List.reverse d.meaning ++ D, .statement⟩
  | .statement, d => Token.NumeralsRead d.yield → (∀ ps ∈ d.parameterLists, ps.Nodup) → ∀ L D s,
    Acts 0 s ⟨L, D, .statement⟩ →
    ∃ s', s.stepAll d.yield = .ok s' ∧ Acts 0 s' ⟨L, List.reverse d.meaning ++ D, .statement⟩

theorem numeralsRead_append {ts us : List Token} (h : Token.NumeralsRead (ts ++ us)) :
    Token.NumeralsRead ts ∧ Token.NumeralsRead us :=
  ⟨fun t ht => h t (List.mem_append_left _ ht), fun t ht => h t (List.mem_append_right _ ht)⟩

theorem numeralsRead_cons {t : Token} {ts : List Token} (h : Token.NumeralsRead (t :: ts)) : Token.NumeralsRead ts :=
  fun t ht => h t (List.mem_cons_of_mem _ ht)

/-! ## Operators -/

theorem reads_plain {e : Derivation (.expression (.level .or))} (ih : Reads e) : Reads (plain e) := by
  intro hn L D goal p hp
  obtain ⟨s, hs, ha⟩ := ih hn L D goal p (hp.mono (Nat.zero_le _))
  exact ⟨s, hs, ha.mono (Nat.zero_le _)⟩

theorem reads_choice {test : Derivation (.expression (.level .or))} {yes no : Derivation (.expression .conditional)}
    (mark : Terminal .question) (colon : Terminal .colon) (iht : Reads test) (ihy : Reads yes) (ihn : Reads no) :
    Reads (choice test mark yes colon no) := by
  intro hn L D goal p hp
  simp only [yield, List.append_assoc, List.cons_append] at hn ⊢
  obtain ⟨hnt, hn⟩ := numeralsRead_append hn
  obtain ⟨hny, hn⟩ := numeralsRead_append (numeralsRead_cons hn)
  obtain ⟨s₁, h₁, a₁⟩ := iht hnt L D goal p (hp.mono (Nat.zero_le _))
  have hmark : s₁.step mark.1 = .ok ⟨L, D, .operand goal (.yes test.meaning mark.1 :: p)⟩ := by
    rw [a₁.step mark.1 (by rw [mark.2]; decide)]
    show State.afterOperand _ _ _ _ _ = _
    rw [afterOperand_eq _ _ (by rw [mark.2]; decide), if_pos (by rw [mark.2]; rfl), reduce_of_looser hp]
  obtain ⟨s₂, h₂, a₂⟩ := ihy hny L D goal (.yes test.meaning mark.1 :: p) trivial
  have hcolon : s₂.step colon.1 = .ok ⟨L, D, .operand goal (.no test.meaning mark.1 yes.meaning :: p)⟩ := by
    rw [a₂.step colon.1 (by rw [colon.2]; decide)]
    simp [State.step, State.afterOperand, State.close, reduceAll, level?, colon.2]
  obtain ⟨s₃, h₃, a₃⟩ := ihn (numeralsRead_cons hn) L D goal (.no test.meaning mark.1 yes.meaning :: p) trivial
  refine ⟨s₃, ?_, a₃.trans (acts_no _ _ _)⟩
  rw [State.stepAll_append_ok h₁, State.stepAll_cons_ok hmark, State.stepAll_append_ok h₂,
    State.stepAll_cons_ok hcolon, h₃]

theorem reads_chain {l : Level} {first : Derivation (.expression l.operand)} {rest : Derivation (.operands l)}
    (ihf : Reads first) (ihr : Reads rest) : Reads (chain l first rest) := by
  intro hn L D goal p hp
  obtain ⟨hnf, hnr⟩ := numeralsRead_append hn
  obtain ⟨s₁, h₁, a₁⟩ := ihf hnf L D goal p (Level.fits_operand (Looser.mono hp (Nat.le_succ _)))
  rw [l.limit_operand] at a₁
  obtain ⟨s₂, h₂, a₂⟩ := ihr hnr L D goal p _ s₁ hp a₁
  refine ⟨s₂, ?_, a₂.mono (Nat.le_succ _)⟩
  rw [yield, State.stepAll_append_ok h₁, h₂]

theorem reads_noOperand (l : Level) : Reads (noOperand l) := by
  intro _ L D goal p e s _ ha
  exact ⟨s, rfl, ha⟩

theorem reads_operand {l : Level} {right : Derivation (.expression l.operand)} {rest : Derivation (.operands l)}
    (op : { t : Token // t.kind ∈ l.operators }) (ihe : Reads right) (ihr : Reads rest) :
    Reads (operand l op right rest) := by
  intro hn L D goal p e s hp ha
  obtain ⟨hne, hnr⟩ := numeralsRead_append (numeralsRead_cons hn)
  have hg := Level.grip_of_mem op.2
  have hl := l.number_le
  have hop : s.step op.1 = .ok ⟨L, D, .operand goal (.binary e op.1 :: p)⟩ := by
    rw [ha.step op.1 (by omega)]
    show State.afterOperand _ _ _ _ _ = _
    rw [afterOperand_eq _ _ (by omega), if_neg (by omega), if_pos (by omega), hg, Nat.add_sub_cancel,
      reduce_of_looser hp]
  have hlevel := level?_of_mem op.2
  have hfit : l.operand.Fits (.binary e op.1 :: p) := by
    apply Level.fits_operand
    simp [Looser, hlevel]
  obtain ⟨s₁, h₁, a₁⟩ := ihe hne L D goal _ hfit
  rw [l.limit_operand] at a₁
  obtain ⟨s₂, h₂, a₂⟩ := ihr hnr L D goal p _ s₁ hp (a₁.trans (acts_binary op.1 hlevel le_rfl (by omega)))
  refine ⟨s₂, ?_, a₂⟩
  rw [yield, List.cons_append, State.stepAll_cons_ok hop, State.stepAll_append_ok h₁, h₂]

theorem reads_signed {e : Derivation (.expression .unary)} (op : { t : Token // t.kind = .minus ∨ t.kind = .not })
    (ih : Reads e) : Reads (signed op e) := by
  intro hn L D goal p _
  have hop : (⟨L, D, .operand goal p⟩ : State).step op.1 = .ok ⟨L, D, .operand goal (.unary op.1 :: p)⟩ := by
    rcases op.2 with h | h <;> simp only [State.step, State.startOperand, h]
  obtain ⟨s, hs, ha⟩ := ih (numeralsRead_cons hn) L D goal (.unary op.1 :: p) trivial
  exact ⟨s, by rw [yield, State.stepAll_cons_ok hop, hs], ha.trans (acts_unary _)⟩

theorem reads_raise {e : Derivation (.expression .indexed)} {exponent : Derivation (.expression .unary)}
    (op : Terminal .power) (ihe : Reads e) (ihx : Reads exponent) : Reads (raise e op exponent) := by
  intro hn L D goal p _
  obtain ⟨hne, hnx⟩ := numeralsRead_append hn
  obtain ⟨s₁, h₁, a₁⟩ := ihe hne L D goal p trivial
  have hop : s₁.step op.1 = .ok ⟨L, D, .operand goal (.binary e.meaning op.1 :: p)⟩ := by
    rw [a₁.step op.1 (by rw [op.2]; decide)]
    simp [State.step, State.afterOperand, op.2]
  obtain ⟨s₂, h₂, a₂⟩ := ihx (numeralsRead_cons hnx) L D goal (.binary e.meaning op.1 :: p) trivial
  refine ⟨s₂, ?_, a₂.trans (acts_binary op.1 (show level? op.1.kind = some 7 by rw [op.2]; rfl) (by decide) le_rfl)⟩
  rw [yield, State.stepAll_append_ok h₁, State.stepAll_cons_ok hop, h₂]

/-! ## Operands -/

theorem reads_indexed {e : Derivation (.expression .primary)} {subscripts : Derivation .subscripts}
    (ihe : Reads e) (ihs : Reads subscripts) : Reads (indexed e subscripts) := by
  intro hn L D goal p _
  obtain ⟨hne, hns⟩ := numeralsRead_append hn
  obtain ⟨s₁, h₁, a₁⟩ := ihe hne L D goal p trivial
  obtain ⟨s₂, h₂, a₂⟩ := ihs hns L D goal p _ s₁ a₁
  exact ⟨s₂, by rw [yield, State.stepAll_append_ok h₁, h₂], a₂.mono (by decide)⟩

theorem reads_noSubscript : Reads noSubscript := by
  intro _ L D goal p e s ha
  exact ⟨s, rfl, ha⟩

theorem reads_subscript {index : Derivation (.expression .conditional)} {rest : Derivation .subscripts}
    (opening : Terminal .openBracket) (closing : Terminal .closeBracket) (ihi : Reads index) (ihr : Reads rest) :
    Reads (subscript opening index closing rest) := by
  intro hn L D goal p e s ha
  obtain ⟨hni, hnr⟩ := numeralsRead_append (numeralsRead_cons hn)
  have ho : s.step opening.1 = .ok ⟨L, D, .operand goal (.index e opening.1 :: p)⟩ := by
    rw [ha.step opening.1 (by rw [opening.2]; decide)]
    simp [State.step, State.afterOperand, opening.2]
  obtain ⟨s₁, h₁, a₁⟩ := ihi hni L D goal (.index e opening.1 :: p) trivial
  have hc : s₁.step closing.1 = .ok ⟨L, D, .operator goal p (.subscript opening.1 e index.meaning)⟩ := by
    rw [a₁.step closing.1 (by rw [closing.2]; decide)]
    simp [State.step, State.afterOperand, State.close, reduceAll, level?, closing.2]
  obtain ⟨s₂, h₂, a₂⟩ := ihr (numeralsRead_cons hnr) L D goal p _ _ (Acts.refl 9 _)
  refine ⟨s₂, ?_, a₂⟩
  rw [yield, List.cons_append, State.stepAll_cons_ok ho, State.stepAll_append_ok h₁, State.stepAll_cons_ok hc, h₂]

theorem reads_numeral (t : Terminal .number) : Reads (numeral t) := by
  intro hn L D goal p _
  obtain ⟨x, hx⟩ := Option.isSome_iff_exists.1 (hn t.1 List.mem_cons_self t.2)
  have ht : (⟨L, D, .operand goal p⟩ : State).step t.1 = .ok ⟨L, D, .operator goal p (.numeral t.1 x)⟩ := by
    simp only [State.step, State.startOperand, t.2, hx]
  refine ⟨_, by rw [yield, State.stepAll_cons_ok ht, State.stepAll_nil], ?_⟩
  rw [meaning, hx]
  exact Acts.refl _ _

theorem reads_boolean (t : Terminal .boolean) : Reads (boolean t) := by
  intro _ L D goal p _
  have ht : (⟨L, D, .operand goal p⟩ : State).step t.1 = .ok ⟨L, D, .operator goal p (boolean t).meaning⟩ := by
    simp only [State.step, State.startOperand, t.2, meaning]
  exact ⟨_, by rw [yield, State.stepAll_cons_ok ht, State.stepAll_nil], Acts.refl _ _⟩

theorem reads_variable (name : Terminal .identifier) : Reads (.variable name) := by
  intro _ L D goal p _
  have ht : (⟨L, D, .operand goal p⟩ : State).step name.1 = .ok ⟨L, D, .callee goal p name.1⟩ := by
    simp only [State.step, State.startOperand, name.2]
  exact ⟨_, by rw [yield, State.stepAll_cons_ok ht, State.stepAll_nil], acts_callee _⟩

theorem reads_call {arguments : Derivation .items} (callee : Terminal .identifier) (opening : Terminal .openParen)
    (closing : Terminal .closeParen) (ih : Reads arguments) : Reads (call callee opening arguments closing) := by
  intro hn L D goal p _
  have hc : (⟨L, D, .operand goal p⟩ : State).step callee.1 = .ok ⟨L, D, .callee goal p callee.1⟩ := by
    simp only [State.step, State.startOperand, callee.2]
  have ho : (⟨L, D, .callee goal p callee.1⟩ : State).step opening.1 =
      .ok ⟨L, D, .operand goal (.arguments callee.1 [] :: p)⟩ := by
    simp only [State.step, opening.2, if_true]
  refine ⟨⟨L, D, .operator goal p (.call callee.1 callee.1.text arguments.meaning)⟩, ?_, Acts.refl _ _⟩
  rw [yield, List.cons_append, List.cons_append, State.stepAll_cons_ok hc, State.stepAll_cons_ok ho]
  exact ih (numeralsRead_append (numeralsRead_cons (numeralsRead_cons hn))).1 L D goal p (.call callee.1) closing

theorem reads_group {e : Derivation (.expression .conditional)} (opening : Terminal .openParen)
    (closing : Terminal .closeParen) (ih : Reads e) : Reads (group opening e closing) := by
  intro hn L D goal p _
  have ho : (⟨L, D, .operand goal p⟩ : State).step opening.1 = .ok ⟨L, D, .operand goal (.group :: p)⟩ := by
    simp only [State.step, State.startOperand, opening.2]
  obtain ⟨s₁, h₁, a₁⟩ := ih (numeralsRead_append (numeralsRead_cons hn)).1 L D goal (.group :: p) trivial
  have hc : s₁.step closing.1 = .ok ⟨L, D, .operator goal p e.meaning⟩ := by
    rw [a₁.step closing.1 (by rw [closing.2]; decide)]
    simp [State.step, State.afterOperand, State.close, reduceAll, level?, closing.2]
  refine ⟨_, ?_, Acts.refl _ _⟩
  rw [yield, List.cons_append, State.stepAll_cons_ok ho, State.stepAll_append_ok h₁, State.stepAll_cons_ok hc]
  rfl

theorem reads_array {items : Derivation .items} (opening : Terminal .openBracket) (closing : Terminal .closeBracket)
    (ih : Reads items) : Reads (array opening items closing) := by
  intro hn L D goal p _
  have ho : (⟨L, D, .operand goal p⟩ : State).step opening.1 =
      .ok ⟨L, D, .operand goal (.items opening.1 [] :: p)⟩ := by
    simp only [State.step, State.startOperand, opening.2]
  refine ⟨⟨L, D, .operator goal p (.array opening.1 items.meaning)⟩, ?_, Acts.refl _ _⟩
  rw [yield, List.cons_append, State.stepAll_cons_ok ho]
  exact ih (numeralsRead_append (numeralsRead_cons hn)).1 L D goal p (.array opening.1) closing

theorem reads_noItem : Reads noItem := by
  intro _ L D goal p b t
  rw [yield, List.nil_append, State.stepAll_cons_ok (b.step_empty t.2)]
  rfl

theorem reads_someItems {first : Derivation (.expression .conditional)} {rest : Derivation .moreItems}
    (ihf : Reads first) (ihr : Reads rest) : Reads (someItems first rest) := by
  intro hn L D goal p b t
  obtain ⟨hnf, hnr⟩ := numeralsRead_append hn
  obtain ⟨s₁, h₁, a₁⟩ := ihf hnf L D goal (b.pending [] :: p) (b.looser 0 [])
  rw [yield, List.append_assoc, State.stepAll_append_ok h₁]
  exact ihr hnr L D goal p b t [] _ s₁ a₁

theorem reads_lastItem : Reads lastItem := by
  intro _ L D goal p b t done e s ha
  have ht : s.step t.1 = .ok ⟨L, D, .operator goal p (b.expr (e :: done).reverse)⟩ := by
    rw [ha.step t.1 (by rw [t.2, b.grip_closing]), b.step_closing t.2]
  rw [yield, List.nil_append, State.stepAll_cons_ok ht, List.reverse_cons]
  rfl

theorem reads_item {e : Derivation (.expression .conditional)} {rest : Derivation .moreItems}
    (comma : Terminal .comma) (ihe : Reads e) (ihr : Reads rest) : Reads (item comma e rest) := by
  intro hn L D goal p b t done e₀ s ha
  obtain ⟨hne, hnr⟩ := numeralsRead_append (numeralsRead_cons hn)
  have hc : s.step comma.1 = .ok ⟨L, D, .operand goal (b.pending (e₀ :: done) :: p)⟩ := by
    rw [ha.step comma.1 (by rw [comma.2]; decide), b.step_comma comma.2]
  obtain ⟨s₁, h₁, a₁⟩ := ihe hne L D goal (b.pending (e₀ :: done) :: p) (b.looser 0 _)
  rw [yield, List.cons_append, List.cons_append, State.stepAll_cons_ok hc, List.append_assoc,
    State.stepAll_append_ok h₁, ihr hnr L D goal p b t (e₀ :: done) _ s₁ a₁, List.reverse_cons, List.append_assoc]
  rfl

/-! ## Statements -/

/-- parameters behind the first one -/
theorem stepAll_parameterTail (name : Token) (rest : List (Terminal .comma × Terminal .identifier)) (ps : List Bytes)
    (closing : Terminal .closeParen) (h : (ps ++ rest.map (·.2.1.text)).Nodup) :
    (⟨L, D, .afterParameter name ps⟩ : State).stepAll
      ((rest.flatMap fun (comma, name) => [comma.1, name.1]) ++ [closing.1]) =
      .ok ⟨L, D, .functionBody name (ps ++ rest.map (·.2.1.text))⟩ := by
  induction rest generalizing ps with
  | nil =>
    have hc : (⟨L, D, .afterParameter name ps⟩ : State).step closing.1 = .ok ⟨L, D, .functionBody name ps⟩ := by
      simp [State.step, closing.2]
    rw [List.flatMap_nil, List.nil_append, State.stepAll_cons_ok hc, List.map_nil, List.append_nil]
    rfl
  | cons q rest ih =>
    obtain ⟨comma, q⟩ := q
    have hnew : q.1.text ∉ ps := by
      intro hq
      have := (List.nodup_append.1 h).2.2 _ hq q.1.text (by simp)
      exact this rfl
    have hcomma : (⟨L, D, .afterParameter name ps⟩ : State).step comma.1 = .ok ⟨L, D, .parameter name ps⟩ := by
      simp [State.step, comma.2]
    have hq : (⟨L, D, .parameter name ps⟩ : State).step q.1 =
        .ok ⟨L, D, .afterParameter name (ps ++ [q.1.text])⟩ := by
      simp [State.step, q.2, hnew]
    rw [List.flatMap_cons, List.append_assoc, List.cons_append, List.cons_append, State.stepAll_cons_ok hcomma,
      State.stepAll_cons_ok hq, List.nil_append, ih (ps ++ [q.1.text]) (by simpa using h)]
    simp

theorem stepAll_parameters (name : Token) (ps : Parameters) (closing : Terminal .closeParen) (h : ps.names.Nodup) :
    (⟨L, D, .firstParameter name⟩ : State).stepAll (ps.yield ++ [closing.1]) =
      .ok ⟨L, D, .functionBody name ps.names⟩ := by
  match ps with
  | none =>
    have hc : (⟨L, D, .firstParameter name⟩ : State).step closing.1 = .ok ⟨L, D, .functionBody name []⟩ := by
      simp [State.step, closing.2]
    rw [Parameters.yield, List.nil_append, State.stepAll_cons_ok hc]
    rfl
  | some (first, rest) =>
    have hf : (⟨L, D, .firstParameter name⟩ : State).step first.1 =
        .ok ⟨L, D, .afterParameter name [first.1.text]⟩ := by
      simp [State.step, first.2]
    rw [Parameters.yield, List.cons_append, State.stepAll_cons_ok hf,
      stepAll_parameterTail name rest [first.1.text] closing h]
    rfl

theorem reads_noStatement : Reads noStatement := by
  intro _ _ L D s ha
  exact ⟨s, rfl, ha⟩

theorem reads_statements {first : Derivation .statement} {rest : Derivation .block} (ihf : Reads first)
    (ihr : Reads rest) : Reads (statements first rest) := by
  intro hn hp L D s ha
  obtain ⟨hnf, hnr⟩ := numeralsRead_append hn
  obtain ⟨s₁, h₁, a₁⟩ := ihf hnf (fun ps h => hp ps (List.mem_append_left _ h)) L D s ha
  obtain ⟨s₂, h₂, a₂⟩ := ihr hnr (fun ps h => hp ps (List.mem_append_right _ h)) L _ s₁ a₁
  refine ⟨s₂, by rw [yield, State.stepAll_append_ok h₁, h₂], ?_⟩
  rw [← List.append_assoc, ← List.reverse_append] at a₂
  exact a₂

theorem reads_empty (semicolon : Terminal .semicolon) : Reads (empty semicolon) := by
  intro _ _ L D s ha
  have ht : s.step semicolon.1 = .ok ⟨L, D, .statement⟩ := by
    rw [ha.step _ (by rw [semicolon.2]; decide)]
    simp only [State.step, State.startStatement, semicolon.2]
  exact ⟨⟨L, D, .statement⟩, by rw [yield, State.stepAll_cons_ok ht, State.stepAll_nil], Acts.refl _ _⟩

/-- an expression that ends a statement -/
theorem reads_form {e : Derivation (.expression .conditional)} (ih : Reads e) (hn : Token.NumeralsRead e.yield)
    (L : List OpenLoop) (D : List Stmt) (form : Form) :
    ∃ s, (⟨L, D, .operand (.statement form) []⟩ : State).stepAll e.yield = .ok s ∧
      Acts 0 s ⟨L, form.stmt e.meaning :: D, .statement⟩ := by
  obtain ⟨s, hs, ha⟩ := ih hn L D (.statement form) [] trivial
  exact ⟨s, hs, ha.trans (acts_statement form)⟩

theorem reads_function {body : Derivation (.expression .conditional)} (keyword : Terminal .function)
    (name : Terminal .identifier) (opening : Terminal .openParen) (parameters : Parameters)
    (closing : Terminal .closeParen) (sign : Terminal .assign) (ih : Reads body) :
    Reads (function keyword name opening parameters closing sign body) := by
  intro hn hp L D s ha
  have hyield : (function keyword name opening parameters closing sign body).yield =
      keyword.1 :: name.1 :: opening.1 :: ((parameters.yield ++ [closing.1]) ++ sign.1 :: body.yield) := by
    simp [yield]
  rw [hyield] at hn ⊢
  have hnb : Token.NumeralsRead body.yield := fun t ht => hn t (by simp [ht])
  have hk : s.step keyword.1 = .ok ⟨L, D, .functionName⟩ := by
    rw [ha.step _ (by rw [keyword.2]; decide)]
    simp only [State.step, State.startStatement, keyword.2]
  have hname : (⟨L, D, .functionName⟩ : State).step name.1 = .ok ⟨L, D, .openParameters name.1⟩ := by
    simp only [State.step, name.2, if_true]
  have ho : (⟨L, D, .openParameters name.1⟩ : State).step opening.1 = .ok ⟨L, D, .firstParameter name.1⟩ := by
    simp only [State.step, opening.2, if_true]
  have hps := stepAll_parameters (L := L) (D := D) name.1 parameters closing (hp _ List.mem_cons_self)
  have hs : (⟨L, D, .functionBody name.1 parameters.names⟩ : State).step sign.1 =
      .ok ⟨L, D, .operand (.statement (.function name.1 parameters.names)) []⟩ := by
    simp only [State.step, sign.2, if_true]
  obtain ⟨s₁, h₁, a₁⟩ := reads_form ih hnb L D (.function name.1 parameters.names)
  refine ⟨s₁, ?_, a₁⟩
  rw [State.stepAll_cons_ok hk, State.stepAll_cons_ok hname, State.stepAll_cons_ok ho, State.stepAll_append_ok hps,
    State.stepAll_cons_ok hs, h₁]

theorem reads_print {value : Derivation (.expression .conditional)} (keyword : Terminal .print) (ih : Reads value) :
    Reads (print keyword value) := by
  intro hn _ L D s ha
  have hk : s.step keyword.1 = .ok ⟨L, D, .operand (.statement (.print keyword.1)) []⟩ := by
    rw [ha.step _ (by rw [keyword.2]; decide)]
    simp only [State.step, State.startStatement, keyword.2]
  obtain ⟨s₁, h₁, a₁⟩ := reads_form ih (numeralsRead_cons hn) L D (.print keyword.1)
  exact ⟨s₁, by rw [yield, State.stepAll_cons_ok hk, h₁], a₁⟩

theorem reads_loop {condition : Derivation (.expression .conditional)} {body : Derivation .block}
    (keyword : Terminal .loop) (opening : Terminal .openBrace) (closing : Terminal .closeBrace)
    (ihc : Reads condition) (ihb : Reads body) : Reads (loop keyword condition opening body closing) := by
  intro hn hp L D s ha
  have hk : s.step keyword.1 = .ok ⟨L, D, .operand (.condition keyword.1) []⟩ := by
    rw [ha.step _ (by rw [keyword.2]; decide)]
    simp only [State.step, State.startStatement, keyword.2]
  simp only [yield, List.cons_append, List.append_assoc] at hn ⊢
  obtain ⟨hnc, hn⟩ := numeralsRead_append (numeralsRead_cons hn)
  obtain ⟨hnb, -⟩ := numeralsRead_append (numeralsRead_cons hn)
  obtain ⟨s₁, h₁, a₁⟩ := ihc hnc L D (.condition keyword.1) [] trivial
  have ho : s₁.step opening.1 = .ok ⟨⟨keyword.1, condition.meaning, D⟩ :: L, [], .statement⟩ := by
    rw [a₁.step _ (by rw [opening.2]; decide)]
    simp [State.step, State.afterOperand, State.close, reduceAll, level?, opening.2]
  obtain ⟨s₂, h₂, a₂⟩ := ihb hnb hp (⟨keyword.1, condition.meaning, D⟩ :: L) [] _ (Acts.refl 0 _)
  have hc : s₂.step closing.1 = .ok ⟨L, .loop keyword.1 condition.meaning body.meaning :: D, .statement⟩ := by
    rw [a₂.step _ (by rw [closing.2]; decide), List.append_nil]
    simp only [State.step, State.startStatement, closing.2, List.reverse_reverse]
  refine ⟨_, ?_, Acts.refl _ _⟩
  rw [State.stepAll_cons_ok hk, State.stepAll_append_ok h₁, State.stepAll_cons_ok ho, State.stepAll_append_ok h₂,
    State.stepAll_cons_ok hc]
  rfl

theorem reads_declare {value : Derivation (.expression .conditional)} (name : Terminal .identifier)
    (sign : Terminal .walrus) (ih : Reads value) : Reads (declare name sign value) := by
  intro hn _ L D s ha
  have hname : s.step name.1 = .ok ⟨L, D, .binding name.1⟩ := by
    rw [ha.step _ (by rw [name.2]; decide)]
    simp only [State.step, State.startStatement, name.2]
  have hsign : (⟨L, D, .binding name.1⟩ : State).step sign.1 =
      .ok ⟨L, D, .operand (.statement (.declare name.1)) []⟩ := by
    simp only [State.step, sign.2, if_true]
  obtain ⟨s₁, h₁, a₁⟩ := reads_form ih (numeralsRead_cons (numeralsRead_cons hn)) L D (.declare name.1)
  exact ⟨s₁, by rw [yield, State.stepAll_cons_ok hname, State.stepAll_cons_ok hsign, h₁], a₁⟩

theorem reads_assign {value : Derivation (.expression .conditional)} (name : Terminal .identifier)
    (sign : Terminal .assign) (ih : Reads value) : Reads (assign name sign value) := by
  intro hn _ L D s ha
  have hname : s.step name.1 = .ok ⟨L, D, .binding name.1⟩ := by
    rw [ha.step _ (by rw [name.2]; decide)]
    simp only [State.step, State.startStatement, name.2]
  have hsign : (⟨L, D, .binding name.1⟩ : State).step sign.1 =
      .ok ⟨L, D, .operand (.statement (.assign name.1)) []⟩ := by
    simp [State.step, sign.2]
  obtain ⟨s₁, h₁, a₁⟩ := reads_form ih (numeralsRead_cons (numeralsRead_cons hn)) L D (.assign name.1)
  exact ⟨s₁, by rw [yield, State.stepAll_cons_ok hname, State.stepAll_cons_ok hsign, h₁], a₁⟩

/-- the reader takes the tokens of every derivation to what it denotes -/
theorem reads {s : Symbol} (d : Derivation s) : d.Reads := by
  induction d with
  | noStatement => exact reads_noStatement
  | statements _ _ ihf ihr => exact reads_statements ihf ihr
  | empty semicolon => exact reads_empty semicolon
  | function _ _ _ _ _ _ _ ih => exact reads_function _ _ _ _ _ _ ih
  | print _ _ ih => exact reads_print _ ih
  | loop _ _ _ _ _ ihc ihb => exact reads_loop _ _ _ ihc ihb
  | declare _ _ _ ih => exact reads_declare _ _ ih
  | assign _ _ _ ih => exact reads_assign _ _ ih
  | plain _ ih => exact reads_plain ih
  | choice _ _ _ _ _ iht ihy ihn => exact reads_choice _ _ iht ihy ihn
  | chain _ _ _ ihf ihr => exact reads_chain ihf ihr
  | noOperand l => exact reads_noOperand l
  | operand _ _ _ _ ihe ihr => exact reads_operand _ ihe ihr
  | signed _ _ ih => exact reads_signed _ ih
  | unsigned _ ih => exact ih
  | base _ ih =>
    intro hn L D goal p hp
    obtain ⟨s, hs, ha⟩ := ih hn L D goal p hp
    exact ⟨s, hs, ha.mono (by decide)⟩
  | raise _ _ _ ihe ihx => exact reads_raise _ ihe ihx
  | indexed _ _ ihe ihs => exact reads_indexed ihe ihs
  | noSubscript => exact reads_noSubscript
  | subscript _ _ _ _ ihi ihr => exact reads_subscript _ _ ihi ihr
  | numeral t => exact reads_numeral t
  | boolean t => exact reads_boolean t
  | call _ _ _ _ ih => exact reads_call _ _ _ ih
  | «variable» name => exact reads_variable name
  | group _ _ _ ih => exact reads_group _ _ ih
  | array _ _ _ ih => exact reads_array _ _ ih
  | noItem => exact reads_noItem
  | someItems _ _ ihf ihr => exact reads_someItems ihf ihr
  | lastItem => exact reads_lastItem
  | item _ _ _ ihe ihr => exact reads_item _ ihe ihr

/-- a program with a derivation is read as what the derivation denotes -/
theorem parse_eq_meaning (d : Derivation .block) {ts : List Token} (h : d.yield = Token.beforeEnd ts)
    (hn : Token.NumeralsRead d.yield) (hp : ∀ ps ∈ d.parameterLists, ps.Nodup) : Block.parse ts = .ok d.meaning := by
  obtain ⟨s, hs, ha⟩ := d.reads hn hp [] [] .initial (Acts.refl 0 _)
  rw [Block.parse, State.run_eq_finish, ← h, hs]
  show s.finish _ = _
  rw [ha.finish _ (kind_endOf ts), List.append_nil]
  simp [State.finish, State.settle]

end Derivation

end Grammar

end Treewalk
