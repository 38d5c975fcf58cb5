/-
Functions that follow the reader.

A function of the descent and the reader see the same tokens. The function has its callers around it where the reader
has pending constructs in its state, so what a function does is compared with what the reader does from a state.

- `Follows`: a function, on a list of tokens, does what the reader does from a state. It gives the reader's failure, or
  it gives a result and leaves the tokens that the reader is left with in the state that belongs to the result.
- `reads`: the functions for expressions follow the reader, and take a token at least when they do not fail. They call
  one another down the chain of categories without taking a token, and their loops repeat as long as the next token
  allows. What makes them end is one measure, the tokens that are left and then the place in the chain.
-/
import Mathlib.Tactic
import Treewalk.Proofs.Reader.Completion
import Treewalk.Proofs.Reader.Descent

namespace Treewalk

open Reader Grammar

namespace Descent

variable {α β : Type} {ts us rest : List Token}

/-! ## Tokens passed over -/

/-- `rest` is left of `ts` behind tokens none of which ends the input -/
def Passes (ts rest : List Token) : Prop := ∃ taken, ts = taken ++ rest ∧ ∀ t ∈ taken, t.kind ≠ .endOfInput

theorem Passes.refl (ts : List Token) : Passes ts ts := ⟨[], rfl, by simp⟩

theorem Passes.trans (h : Passes ts us) (h' : Passes us rest) : Passes ts rest := by
  obtain ⟨taken, rfl, ht⟩ := h
  obtain ⟨taken', rfl, ht'⟩ := h'
  exact ⟨taken ++ taken', by simp, by simpa [or_imp, forall_and] using ⟨ht, ht'⟩⟩

theorem Passes.length_le (h : Passes ts rest) : rest.length ≤ ts.length := by
  obtain ⟨taken, rfl, -⟩ := h
  simp

/-- behind one token at least -/
structure Advances (ts rest : List Token) : Prop where
  passes : Passes ts rest
  less : rest.length < ts.length

theorem Advances.trans (h : Advances ts us) (h' : Passes us rest) : Advances ts rest :=
  ⟨h.passes.trans h', h'.length_le.trans_lt h.less⟩

theorem eq_cons_of_next (h : (next ts).kind ≠ .endOfInput) : ts = next ts :: ts.tail := by
  cases ts with
  | nil => exact absurd rfl h
  | cons t ts => rfl

theorem advances_tail (h : (next ts).kind ≠ .endOfInput) : Advances ts ts.tail := by
  have hts := eq_cons_of_next h
  refine ⟨⟨[next ts], hts, by simpa using h⟩, ?_⟩
  rw [hts]
  exact Nat.lt_succ_self _

/-! ## Runs of the reader -/

variable {s s' : State} {d : Diagnostic} {L : List OpenLoop} {D : List Stmt} {goal : Goal} {p p' : List Pending}
  {e e' : Expr}

theorem run_of_step (h : (next ts).kind ≠ .endOfInput) (hs : s.step (next ts) = .ok s') :
    s.run ts = s'.run ts.tail := by
  rw [eq_cons_of_next h, State.run, if_neg h, hs]
  rfl

theorem run_of_refusal (h : (next ts).kind ≠ .endOfInput) (hs : s.step (next ts) = .error d) : s.run ts = .error d := by
  rw [eq_cons_of_next h, State.run, if_neg h, hs]

theorem run_congr (h : (next ts).kind ≠ .endOfInput) (hs : s.step (next ts) = s'.step (next ts)) :
    s.run ts = s'.run ts := by
  rw [eq_cons_of_next h, State.run, State.run, if_neg h, if_neg h, hs]

theorem run_of_end (h : (next ts).kind = .endOfInput) : s.run ts = s.finish (next ts) := by
  cases ts with
  | nil => rfl
  | cons t ts => exact if_pos h

/-- inside a statement the reader refuses the end of input as it refuses other tokens -/
theorem run_of_step_error (hsettle : s.settle = s) (hphase : s.phase ≠ .statement)
    (hs : s.step (next ts) = .error d) : s.run ts = .error d := by
  by_cases h : (next ts).kind = .endOfInput
  · rw [run_of_end h, State.finish, hsettle]
    split
    · contradiction
    · rw [hs]
  · exact run_of_refusal h hs

/-- how tightly a token holds on to an expression before it. A parenthesis only holds on to a name. -/
def holds (k : Kind) : Nat := if k = .openParen then 0 else grip k

theorem holds_le (k : Kind) : holds k ≤ 9 := by
  cases k <;> simp [holds, grip]

theorem grip_le_of_ne {k : Kind} (h : k ≠ .openParen) : grip k ≤ 9 := by
  cases k <;> simp_all [grip]

/-- a token behind an expression that is no operator of the level is left to the looser levels -/
theorem holds_le_of_notMem {l : Level} {k : Kind} (h : holds k ≤ l.number + 1) (hk : k ∉ l.operators) :
    holds k ≤ l.number := by
  cases l <;> cases k <;> simp_all [holds, grip, Level.number, Level.operators]

theorem holds_zero_of_ne {k : Kind} (h : holds k ≤ 1) (hk : k ≠ .question) : holds k ≤ 0 := by
  cases k <;> simp_all [holds, grip]

theorem holds_le_of_ne_power {k : Kind} (h : holds k ≤ 8) (hk : k ≠ .power) : holds k ≤ 7 := by
  cases k <;> simp_all [holds, grip]

theorem holds_le_of_ne_openBracket {k : Kind} (hk : k ≠ .openBracket) : holds k ≤ 8 := by
  cases k <;> simp_all [holds, grip]

/-- states that act alike run alike, if they do so on a parenthesis too -/
theorem run_of_acts {n : Nat} (h : Acts n s s') (hparen : ∀ t, t.kind = .openParen → s.step t = s'.step t)
    (hn : holds (next ts).kind ≤ n) : s.run ts = s'.run ts := by
  by_cases hend : (next ts).kind = .endOfInput
  · rw [run_of_end hend, run_of_end hend, h.finish _ hend]
  · have hstep : s.step (next ts) = s'.step (next ts) := by
      by_cases hp : (next ts).kind = .openParen
      · exact hparen _ hp
      · exact h.step _ (by rwa [holds, if_neg hp] at hn)
    exact run_congr hend hstep

/-- a token that does not hold on to the expression is taken by what is pending around it -/
theorem step_of_holds {t : Token} (h : holds t.kind ≤ 0) : (⟨L, D, .operator goal p e⟩ : State).step t =
    State.close ⟨L, D, .statement⟩ goal (reduceAll p e).1 (reduceAll p e).2 t := by
  by_cases hp : t.kind = .openParen
  · show State.afterOperand _ _ _ _ _ = _
    simp only [State.afterOperand, hp, level?]
    rfl
  · rw [holds, if_neg hp] at h
    exact step_operator (Nat.le_zero.1 h)

theorem run_operator {n : Nat} (h : Acts n ⟨L, D, .operator goal p e⟩ ⟨L, D, .operator goal p' e'⟩)
    (hr : reduceAll p e = reduceAll p' e') (hn : holds (next ts).kind ≤ n) :
    (⟨L, D, .operator goal p e⟩ : State).run ts = (⟨L, D, .operator goal p' e'⟩ : State).run ts := by
  refine run_of_acts h (fun t ht => ?_) hn
  have hholds : holds t.kind ≤ 0 := by rw [ht]; decide
  rw [step_of_holds hholds, step_of_holds hholds, hr]

theorem run_statement (form : Form) (hn : holds (next ts).kind ≤ 0) :
    (⟨L, D, .operator (.statement form) [] e⟩ : State).run ts = (⟨L, form.stmt e :: D, .statement⟩ : State).run ts := by
  refine run_of_acts (acts_statement form) (fun t ht => ?_) hn
  rw [step_of_holds (by rw [ht]; decide)]
  rfl

theorem run_callee (name : Token) (h : (next ts).kind ≠ .openParen) :
    (⟨L, D, .callee goal p name⟩ : State).run ts =
      (⟨L, D, .operator goal p (.variable name name.text)⟩ : State).run ts := by
  by_cases hend : (next ts).kind = .endOfInput
  · rw [run_of_end hend, run_of_end hend, (acts_callee name).finish _ hend]
  · exact run_congr hend ((acts_callee name).step _ (grip_le_of_ne h))

/-! ## Following the reader -/

/-- `x`, on a list of tokens, does what the reader does from `s`: it fails as the reader does, or it gives an `a` and
leaves a `rest` such that the reader is left in the state `g a` before the `rest` -/
def Follows (s : State) (x : Nat → Read α) (ts : List Token) (g : α → State) (Q : α → List Token → Prop) : Prop :=
  (∃ d, Gives x ts (.error d) ∧ s.run ts = .error d) ∨
  ∃ a rest, Gives x ts (.ok (a, rest)) ∧ s.run ts = (g a).run rest ∧ Q a rest

namespace Follows

variable {x : Nat → Read α} {f : Nat → α → Read β} {g : α → State} {g' : β → State}
  {Q Q₁ : α → List Token → Prop} {Q' : β → List Token → Prop}

theorem mono (h : Follows s x ts g Q) (hQ : ∀ a rest, Q a rest → Q₁ a rest) : Follows s x ts g Q₁ := by
  obtain h | ⟨a, rest, hx, hs, hq⟩ := h
  · exact .inl h
  · exact .inr ⟨a, rest, hx, hs, hQ a rest hq⟩

/-- tokens passed over before count as well -/
theorem behind (h : Follows s x us g fun _ rest => Advances us rest) (hts : Advances ts us) :
    Follows s x us g fun _ rest => Advances ts rest :=
  h.mono fun _ _ hrest => hts.trans hrest.passes

theorem congr (hs : s.run ts = s'.run ts) (h : Follows s' x ts g Q) : Follows s x ts g Q := by
  rwa [Follows, hs]

theorem succ (h : Follows s (fun n => x (n + 1)) ts g Q) : Follows s x ts g Q := by
  obtain ⟨d, hx, hs⟩ | ⟨a, rest, hx, hs, hq⟩ := h
  · exact .inl ⟨d, hx.succ, hs⟩
  · exact .inr ⟨a, rest, hx.succ, hs, hq⟩

theorem pure {a : α} (hs : s.run ts = (g a).run ts) (hq : Q a ts) : Follows s (fun _ => pure a) ts g Q :=
  .inr ⟨a, ts, .const rfl, hs, hq⟩

theorem fail {t : Token} {c : Cause} (hs : s.run ts = refuse t c) : Follows s (fun _ => fail t c) ts g Q :=
  .inl ⟨_, .const rfl, hs⟩

theorem bind (h : Follows s x ts g Q) (hf : ∀ a rest, Q a rest → Follows (g a) (fun n => f n a) rest g' Q') :
    Follows s (fun n => x n >>= f n) ts g' Q' := by
  obtain ⟨d, hx, hs⟩ | ⟨a, us, hx, hs, hq⟩ := h
  · exact .inl ⟨d, hx.bind_error, hs⟩
  · obtain ⟨d, hf, hs'⟩ | ⟨b, rest, hf, hs', hq'⟩ := hf a us hq
    · exact .inl ⟨d, hx.bind_ok hf, hs.trans hs'⟩
    · exact .inr ⟨b, rest, hx.bind_ok hf, hs.trans hs', hq'⟩

theorem peek {f : Nat → Token → Read β} (h : Follows s (fun n => f n (next ts)) ts g' Q') :
    Follows s (fun n => peek >>= f n) ts g' Q' := h

theorem advance {f : Nat → Unit → Read β} (ht : (next ts).kind ≠ .endOfInput) (hs : s.step (next ts) = .ok s')
    (h : Follows s' (fun n => f n ()) ts.tail g' Q') : Follows s (fun n => advance >>= f n) ts g' Q' := by
  rw [Follows, run_of_step ht hs]
  exact h

/-- a token that stands where it must -/
theorem take {k : Kind} {what : Expectation} {f : Nat → Token → Read β} (hk : (next ts).kind = k)
    (ht : (next ts).kind ≠ .endOfInput) (hs : s.step (next ts) = .ok s')
    (h : Follows s' (fun n => f n (next ts)) ts.tail g' Q') : Follows s (fun n => expect k what >>= f n) ts g' Q' := by
  have hexpect : Gives (fun _ => Descent.expect k what) ts (.ok (next ts, ts.tail)) := .const (on_expect hk)
  rw [Follows, run_of_step ht hs]
  obtain ⟨d, hf, hs'⟩ | ⟨b, rest, hf, hs', hq'⟩ := h
  · exact .inl ⟨d, hexpect.bind_ok hf, hs'⟩
  · exact .inr ⟨b, rest, hexpect.bind_ok hf, hs', hq'⟩

/-- a token that must stand there, in a state that waits for it -/
theorem expect {k : Kind} {what : Expectation} {f : Nat → Token → Read β} (hk : k ≠ .endOfInput)
    (hsettle : s.settle = s) (hphase : s.phase ≠ .statement)
    (hs : s.step (next ts) = if (next ts).kind = k then .ok s' else refuseAs (next ts) what)
    (h : (next ts).kind = k → Follows s' (fun n => f n (next ts)) ts.tail g' Q') :
    Follows s (fun n => expect k what >>= f n) ts g' Q' := by
  by_cases hnext : (next ts).kind = k
  · exact take hnext (hnext ▸ hk) (hs.trans (if_pos hnext)) (h hnext)
  · have hexpect : Gives (fun _ => Descent.expect k what) ts _ := .const (on_expect_of_ne hnext)
    exact .inl ⟨_, hexpect.bind_error, run_of_step_error hsettle hphase (hs.trans (if_neg hnext))⟩

end Follows

/-! ## Expressions -/

/-- where an expression must start, the token does not close empty brackets instead -/
def Ready : List Pending → Kind → Prop
  | .arguments _ [] :: _, k => k ≠ .closeParen
  | .items _ [] :: _, k => k ≠ .closeBracket
  | _, _ => True

/-- an expression of the category is what the reader looks for inside what is pending, before a token of the kind. The
reader takes a sign wherever an expression must start, the categories below `unary` do not. -/
structure Place (c : Category) (p : List Pending) (k : Kind) : Prop where
  fits : c.Fits p
  ready : Ready p k
  sign : k = .not ∨ k = .minus → k ∈ c.starts

theorem sign_mem_starts {k : Kind} (h : k = .not ∨ k = .minus) : k ∈ Category.unary.starts := by
  rcases h with rfl | rfl <;> decide

/-- reading an expression of the category follows the reader and takes a token, at every place for the category; what
is left does not go on with the expression -/
def Reads (c : Category) (ts : List Token) : Prop := ∀ L D goal p, Place c p (next ts).kind →
  Follows ⟨L, D, .operand goal p⟩ (expression c) ts (fun e => ⟨L, D, .operator goal p e⟩)
    fun _ rest => Advances ts rest ∧ holds (next rest).kind ≤ c.limit

theorem reads_conditional (hless : ∀ us, us.length < ts.length → Reads .conditional us)
    (htest : Reads (.level .or) ts) : Reads .conditional ts := by
  intro L D goal p hp
  have hplace : Place (.level .or) p (next ts).kind := ⟨hp.fits.mono (Nat.zero_le _), hp.ready, hp.sign⟩
  refine .succ ?_
  simp only [expression]
  refine (htest L D goal p hplace).bind ?_
  rintro test us ⟨hus, hn⟩
  refine .peek ?_
  split_ifs with hmark
  · have hend : (next us).kind ≠ .endOfInput := by rw [hmark]; decide
    have hstep : (⟨L, D, .operator goal p test⟩ : State).step (next us) =
        .ok ⟨L, D, .operand goal (.yes test (next us) :: p)⟩ := by
      show State.afterOperand _ _ _ _ _ = _
      simp only [State.afterOperand, hmark, reduce_of_looser hp.fits]
    have htail := hus.trans (advances_tail hend).passes
    refine .advance hend hstep ?_
    refine (hless _ htail.less L D goal (.yes test (next us) :: p) ⟨trivial, trivial, sign_mem_starts⟩).bind ?_
    rintro yes vs ⟨hvs, hn⟩
    refine .expect (by decide) (by cases goal <;> rfl) (by simp) ((step_of_holds hn).trans rfl) fun hcolon => ?_
    have hend' : (next vs).kind ≠ .endOfInput := by rw [hcolon]; decide
    have htail' := (htail.trans hvs.passes).trans (advances_tail hend').passes
    refine (hless _ htail'.less L D goal (.no test (next us) yes :: p) ⟨trivial, trivial, sign_mem_starts⟩).bind ?_
    rintro no rest ⟨hrest, hn⟩
    -- nothing that is left goes on with the last part, so the reader would now put the conditional together
    exact .pure (run_operator (acts_no _ _ _) rfl hn) ⟨htail'.trans hrest.passes, hn⟩
  · exact .pure rfl ⟨hus, holds_zero_of_ne hn hmark⟩

theorem follows_operands {l : Level} {n : Nat} (hreads : ∀ us, us.length < n → Reads l.operand us)
    (hp : Looser l.number p) (ts : List Token) (hts : ts.length < n) (hn : holds (next ts).kind ≤ l.number + 1)
    (left : Expr) :
    Follows ⟨L, D, .operator goal p left⟩ (operands l left) ts (fun e => ⟨L, D, .operator goal p e⟩)
      fun _ rest => Passes ts rest ∧ holds (next rest).kind ≤ l.number := by
  refine .succ ?_
  simp only [operands]
  refine .peek ?_
  split_ifs with hop
  · have hgrip := Level.grip_of_mem hop
    have hnumber := l.number_le
    have hend : (next ts).kind ≠ .endOfInput := by rintro h; rw [h] at hgrip; simp [grip] at hgrip
    have hstep : (⟨L, D, .operator goal p left⟩ : State).step (next ts) =
        .ok ⟨L, D, .operand goal (.binary left (next ts) :: p)⟩ := by
      show State.afterOperand _ _ _ _ _ = _
      rw [afterOperand_eq _ _ (by omega), if_neg (by omega), if_pos (by omega), hgrip, Nat.add_sub_cancel,
        reduce_of_looser hp]
    have htail := advances_tail hend
    have hlevel := level?_of_mem hop
    have hplace : Place l.operand (.binary left (next ts) :: p) (next ts.tail).kind :=
      ⟨Level.fits_operand (by simp [Looser, hlevel]), trivial, by rw [l.starts_operand]; exact sign_mem_starts⟩
    refine .advance hend hstep ?_
    refine (hreads _ (htail.less.trans hts) L D goal _ hplace).bind ?_
    rintro right us ⟨hus, hn⟩
    rw [l.limit_operand] at hn
    have hless := (htail.trans hus.passes).less
    -- the reader still has the operator pending; it acts as if operands and operator were one expression
    refine .congr (run_operator (acts_binary (next ts) hlevel le_rfl (by omega)) rfl hn) ?_
    refine (follows_operands hreads hp us (by omega) hn _).mono ?_
    rintro - rest ⟨hrest, hn⟩
    exact ⟨(htail.trans hus.passes).passes.trans hrest, hn⟩
  · exact .pure rfl ⟨.refl ts, holds_le_of_notMem hn hop⟩
termination_by ts.length

theorem reads_level {l : Level} (hless : ∀ us, us.length < ts.length → Reads l.operand us) (hop : Reads l.operand ts) :
    Reads (.level l) ts := by
  intro L D goal p hp
  have hplace : Place l.operand p (next ts).kind :=
    ⟨Level.fits_operand (hp.fits.mono (Nat.le_succ _)), hp.ready, by rw [l.starts_operand]; exact hp.sign⟩
  refine .succ ?_
  simp only [expression]
  refine (hop L D goal p hplace).bind ?_
  rintro first us ⟨hus, hn⟩
  rw [l.limit_operand] at hn
  refine (follows_operands hless hp.fits us hus.less hn first).mono ?_
  rintro - rest ⟨hrest, hn⟩
  exact ⟨hus.trans hrest, hn⟩

theorem reads_unary (hless : ∀ us, us.length < ts.length → Reads .unary us) (hpower : Reads .power ts) :
    Reads .unary ts := by
  intro L D goal p hp
  refine .succ ?_
  simp only [expression]
  refine .peek ?_
  split_ifs with hsign
  · have hend : (next ts).kind ≠ .endOfInput := by rcases hsign with h | h <;> rw [h] <;> decide
    have hstep : (⟨L, D, .operand goal p⟩ : State).step (next ts) =
        .ok ⟨L, D, .operand goal (.unary (next ts) :: p)⟩ := by
      rcases hsign with h | h <;> simp only [State.step, State.startOperand, h]
    have htail := advances_tail hend
    refine .advance hend hstep ?_
    refine (hless _ htail.less L D goal (.unary (next ts) :: p) ⟨trivial, trivial, sign_mem_starts⟩).bind ?_
    rintro e rest ⟨hrest, hn⟩
    exact .pure (run_operator (acts_unary _) rfl hn) ⟨htail.trans hrest.passes, hn⟩
  · exact hpower L D goal p ⟨trivial, hp.ready, fun h => absurd h hsign⟩

theorem reads_power (hless : ∀ us, us.length < ts.length → Reads .unary us) (hbase : Reads .indexed ts) :
    Reads .power ts := by
  intro L D goal p hp
  refine .succ ?_
  simp only [expression]
  refine (hbase L D goal p ⟨trivial, hp.ready, hp.sign⟩).bind ?_
  rintro base us ⟨hus, hn⟩
  refine .peek ?_
  split_ifs with hpower
  · have hend : (next us).kind ≠ .endOfInput := by rw [hpower]; decide
    have hstep : (⟨L, D, .operator goal p base⟩ : State).step (next us) =
        .ok ⟨L, D, .operand goal (.binary base (next us) :: p)⟩ := by
      show State.afterOperand _ _ _ _ _ = _
      simp only [State.afterOperand, hpower]
    have htail := hus.trans (advances_tail hend).passes
    have hlevel : level? (next us).kind = some 7 := by rw [hpower]; rfl
    refine .advance hend hstep ?_
    refine (hless _ htail.less L D goal (.binary base (next us) :: p) ⟨trivial, trivial, sign_mem_starts⟩).bind ?_
    rintro exponent rest ⟨hrest, hn⟩
    exact .pure (run_operator (acts_binary _ hlevel (by decide) le_rfl) rfl hn) ⟨htail.trans hrest.passes, hn⟩
  · exact .pure rfl ⟨hus, holds_le_of_ne_power hn hpower⟩

theorem follows_subscripts {n : Nat} (hreads : ∀ us, us.length < n → Reads .conditional us) (ts : List Token)
    (hts : ts.length < n) (e : Expr) :
    Follows ⟨L, D, .operator goal p e⟩ (subscripts e) ts (fun e => ⟨L, D, .operator goal p e⟩)
      fun _ rest => Passes ts rest ∧ holds (next rest).kind ≤ 8 := by
  refine .succ ?_
  simp only [subscripts]
  refine .peek ?_
  split_ifs with hopen
  · have hend : (next ts).kind ≠ .endOfInput := by rw [hopen]; decide
    have hstep : (⟨L, D, .operator goal p e⟩ : State).step (next ts) =
        .ok ⟨L, D, .operand goal (.index e (next ts) :: p)⟩ := by
      show State.afterOperand _ _ _ _ _ = _
      simp only [State.afterOperand, hopen]
    have htail := advances_tail hend
    refine .advance hend hstep ?_
    have hplace : Place .conditional (.index e (next ts) :: p) (next ts.tail).kind := ⟨trivial, trivial, sign_mem_starts⟩
    refine (hreads _ (htail.less.trans hts) L D goal _ hplace).bind ?_
    rintro i us ⟨hus, hn⟩
    refine .expect (by decide) (by cases goal <;> rfl) (by simp) ((step_of_holds hn).trans rfl) fun hclose => ?_
    have hend' : (next us).kind ≠ .endOfInput := by rw [hclose]; decide
    have htail' := (htail.trans hus.passes).trans (advances_tail hend').passes
    have hless := htail'.less
    refine (follows_subscripts hreads _ (by omega) _).mono ?_
    rintro - rest ⟨hrest, hn⟩
    exact ⟨htail'.passes.trans hrest, hn⟩
  · exact .pure rfl ⟨.refl ts, holds_le_of_ne_openBracket hopen⟩
termination_by ts.length
decreasing_by exact hless

theorem reads_indexed (hless : ∀ us, us.length < ts.length → Reads .conditional us) (hprimary : Reads .primary ts) :
    Reads .indexed ts := by
  intro L D goal p hp
  refine .succ ?_
  simp only [expression]
  refine (hprimary L D goal p ⟨trivial, hp.ready, hp.sign⟩).bind ?_
  rintro e us ⟨hus, _⟩
  refine (follows_subscripts hless us hus.less e).mono ?_
  rintro - rest ⟨hrest, hn⟩
  exact ⟨hus.trans hrest, hn⟩

theorem closing_ne_end (b : Enclosure) : b.closing ≠ .endOfInput := by
  cases b <;> nofun

/-- the items of brackets, the first of them or one behind a comma -/
theorem follows_items {n : Nat} (b : Enclosure) (hreads : ∀ us, us.length < n → Reads .conditional us)
    (ts : List Token) (hts : ts.length < n) (done : List Expr) (hready : Ready (b.pending done :: p) (next ts).kind) :
    Follows ⟨L, D, .operand goal (b.pending done :: p)⟩ (items b done) ts (fun e => ⟨L, D, .operator goal p e⟩)
      fun _ rest => Advances ts rest := by
  refine .succ ?_
  simp only [items]
  refine (hreads ts hts L D goal _ ⟨b.looser 0 done, hready, sign_mem_starts⟩).bind ?_
  rintro e us ⟨hus, hn⟩
  refine .peek ?_
  split_ifs with hcomma
  · have hend : (next us).kind ≠ .endOfInput := by rw [hcomma]; decide
    have htail := hus.trans (advances_tail hend).passes
    have hless := htail.less
    refine .advance hend (b.step_comma hcomma done e) ?_
    refine (follows_items b hreads us.tail (by omega) (e :: done) ?_).behind htail
    cases b <;> trivial
  · have hstep : (⟨L, D, .operator goal (b.pending done :: p) e⟩ : State).step (next us) =
        if (next us).kind = b.closing then .ok ⟨L, D, .operator goal p (b.expr (e :: done).reverse)⟩
        else refuseAs (next us) (closingOf b) := by
      rw [step_of_holds hn]
      cases b <;> exact if_neg hcomma
    refine .expect (closing_ne_end b) (by cases b <;> cases goal <;> rfl) (by simp) hstep fun hclose => ?_
    exact .pure rfl (hus.trans (advances_tail (hclose ▸ closing_ne_end b)).passes)
termination_by ts.length
decreasing_by exact hless

theorem follows_enclosed {n : Nat} (b : Enclosure) (hreads : ∀ us, us.length < n → Reads .conditional us)
    (hts : ts.length < n) :
    Follows ⟨L, D, .operand goal (b.pending [] :: p)⟩ (enclosed b) ts (fun e => ⟨L, D, .operator goal p e⟩)
      fun _ rest => Advances ts rest := by
  refine .succ ?_
  simp only [enclosed]
  refine .peek ?_
  split_ifs with hclose
  · have hend : (next ts).kind ≠ .endOfInput := hclose ▸ closing_ne_end b
    exact .advance hend (b.step_empty hclose) (.pure rfl (advances_tail hend))
  · refine follows_items b hreads ts hts [] ?_
    cases b <;> exact hclose

/-- a call, behind its callee -/
theorem follows_call (callee : Token) (hless : ∀ us, us.length < ts.length → Reads .conditional us)
    (h : (next ts).kind = .openParen) :
    Follows ⟨L, D, .callee goal p callee⟩ (call callee) ts (fun e => ⟨L, D, .operator goal p e⟩)
      fun _ rest => Advances ts rest := by
  have hend : (next ts).kind ≠ .endOfInput := by rw [h]; decide
  have htail := advances_tail hend
  have hstep : (⟨L, D, .callee goal p callee⟩ : State).step (next ts) =
      .ok ⟨L, D, .operand goal (.arguments callee [] :: p)⟩ := by
    simp only [State.step, h, if_true]
  refine .succ ?_
  simp only [call]
  refine .take h hend hstep ?_
  exact (follows_enclosed (.call callee) hless htail.less).behind htail

theorem follows_array (hless : ∀ us, us.length < ts.length → Reads .conditional us)
    (h : (next ts).kind = .openBracket) :
    Follows ⟨L, D, .operand goal p⟩ array ts (fun e => ⟨L, D, .operator goal p e⟩) fun _ rest => Advances ts rest := by
  have hend : (next ts).kind ≠ .endOfInput := by rw [h]; decide
  have htail := advances_tail hend
  have hstep : (⟨L, D, .operand goal p⟩ : State).step (next ts) =
      .ok ⟨L, D, .operand goal (.items (next ts) [] :: p)⟩ := by
    simp only [State.step, State.startOperand, h]
  refine .succ ?_
  simp only [array]
  refine .take h hend hstep ?_
  exact (follows_enclosed (.array (next ts)) hless htail.less).behind htail

/-- a token that starts no expression is refused where one must start -/
theorem step_operand_of_notMem {t : Token} (hready : Ready p t.kind) (h : t.kind ∉ Category.unary.starts) :
    (⟨L, D, .operand goal p⟩ : State).step t = refuse t (.expectedExpression (found t)) := by
  simp only [State.step, State.startOperand]
  split <;> simp_all [Ready, Category.starts]

/-- a number that the next token spells -/
theorem follows_numeral (hk : (next ts).kind = .number) :
    Follows ⟨L, D, .operand goal p⟩ (fun _ => numeral) ts (fun e => ⟨L, D, .operator goal p e⟩)
      fun _ rest => Advances ts rest := by
  have hend : (next ts).kind ≠ .endOfInput := by rw [hk]; decide
  refine .peek ?_
  cases hread : Numeral.read? (next ts).text with
  | some x =>
    refine .advance hend ?_ (.pure rfl (advances_tail hend))
    simp only [State.step, State.startOperand, hk, hread]
  | none =>
    refine .fail (run_of_refusal hend ?_)
    simp only [State.step, State.startOperand, hk, hread]
    rfl

theorem reads_primary (hless : ∀ us, us.length < ts.length → Reads .conditional us) : Reads .primary ts := by
  intro L D goal p hp
  -- one case for each kind of first token; behind a primary there can be anything
  suffices h : Follows ⟨L, D, .operand goal p⟩ (expression .primary) ts (fun e => ⟨L, D, .operator goal p e⟩)
      fun _ rest => Advances ts rest from h.mono fun _ rest hrest => ⟨hrest, holds_le _⟩
  refine .succ ?_
  simp only [expression]
  refine .peek ?_
  split_ifs with hnumber hboolean hname hopen hbracket
  · exact follows_numeral hnumber
  · have hend : (next ts).kind ≠ .endOfInput := by rw [hboolean]; decide
    refine .advance hend ?_ (.pure rfl (advances_tail hend))
    simp only [State.step, State.startOperand, hboolean]
  · have hend : (next ts).kind ≠ .endOfInput := by rw [hname]; decide
    have htail := advances_tail hend
    have hstep : (⟨L, D, .operand goal p⟩ : State).step (next ts) = .ok ⟨L, D, .callee goal p (next ts)⟩ := by
      simp only [State.step, State.startOperand, hname]
    refine .advance hend hstep (.peek ?_)
    split_ifs with hopen
    · exact (follows_call (next ts) (fun us h => hless us (h.trans htail.less)) hopen).behind htail
    · exact .pure (run_callee (next ts) hopen) htail
  · have hend : (next ts).kind ≠ .endOfInput := by rw [hopen]; decide
    have htail := advances_tail hend
    have hstep : (⟨L, D, .operand goal p⟩ : State).step (next ts) = .ok ⟨L, D, .operand goal (.group :: p)⟩ := by
      simp only [State.step, State.startOperand, hopen]
    refine .advance hend hstep ?_
    refine (hless _ htail.less L D goal (.group :: p) ⟨trivial, trivial, sign_mem_starts⟩).bind ?_
    rintro e us ⟨hus, hn⟩
    refine .expect (by decide) (by cases goal <;> rfl) (by simp) ((step_of_holds hn).trans rfl) fun hclose => ?_
    have hend' : (next us).kind ≠ .endOfInput := by rw [hclose]; decide
    exact .pure rfl ((htail.trans hus.passes).trans (advances_tail hend').passes)
  · exact follows_array hless hbracket
  · have hkind : (next ts).kind ∉ Category.unary.starts := by
      have hsign := hp.sign
      simp_all [Category.starts]
    exact .fail (run_of_step_error rfl (by simp) (step_operand_of_notMem hp.ready hkind))

/-- how far up the chain of categories a category stands -/
def height : Category → Nat
  | .primary => 0
  | .indexed => 1
  | .power => 2
  | .unary => 3
  | .level l => 10 - l.number
  | .conditional => 10

theorem height_operand (l : Level) : height l.operand < height (.level l) := by
  cases l <;> decide

/-- **Expressions.** Each call takes a token first or goes down the chain. -/
theorem reads : ∀ (c : Category) (ts : List Token), Reads c ts
  | .conditional, ts => reads_conditional (fun us _ => reads .conditional us) (reads (.level .or) ts)
  | .level l, ts => reads_level (fun us _ => reads l.operand us) (reads l.operand ts)
  | .unary, ts => reads_unary (fun us _ => reads .unary us) (reads .power ts)
  | .power, ts => reads_power (fun us _ => reads .unary us) (reads .indexed ts)
  | .indexed, ts => reads_indexed (fun us _ => reads .conditional us) (reads .primary ts)
  | .primary, ts => reads_primary fun us _ => reads .conditional us
termination_by c ts => (ts.length, height c)
decreasing_by
  all_goals first
    | exact Prod.Lex.left _ _ (by assumption)
    | exact Prod.Lex.right _ (by first | decide | exact height_operand _)

end Descent

end Treewalk
