/-
Reading by recursive descent comes to an end.

- `readsStatement`: the functions for statements follow the reader, as those for expressions do. A statement inside a
  loop starts behind the keyword of the loop, and no loop over statements repeats without a token taken.
- `completes_topStatements`: a program is what the reader makes of the tokens.
- `progresses_of_follows`: what follows the reader gets ahead from every position.
-/
import Mathlib.Tactic
import Treewalk.Proofs.Reader.Refusals
import Treewalk.Proofs.Reader.Following

namespace Treewalk

open Reader Grammar

namespace Descent

variable {α : Type} {ts rest : List Token} {s : State} {d : Diagnostic} {L : List OpenLoop} {D : List Stmt}

/-! ## Statements -/

theorem follows_ending (form : Form) :
    Follows ⟨L, D, .operand (.statement form) []⟩ (ending form) ts (fun s => ⟨L, s :: D, .statement⟩)
      fun _ rest => Advances ts rest := by
  refine (reads .conditional ts L D (.statement form) [] ⟨trivial, trivial, sign_mem_starts⟩).bind ?_
  rintro e rest ⟨hrest, hn⟩
  exact .pure (run_statement form hn) hrest

theorem follows_parameters (name : Token) (ts : List Token) (before : List Bytes) :
    Follows ⟨L, D, .parameter name before⟩ (parameters name before) ts (fun ps => ⟨L, D, .functionBody name ps⟩)
      fun _ rest => Advances ts rest := by
  refine .succ ?_
  simp only [parameters]
  by_cases hdup : (next ts).kind = .identifier ∧ (next ts).text ∈ before
  · obtain ⟨hk, hmem⟩ := hdup
    have hend : (next ts).kind ≠ .endOfInput := by rw [hk]; decide
    have hexpect : Gives (fun _ => expect .identifier .parameter) ts (.ok (next ts, ts.tail)) := .const (on_expect hk)
    refine .inl ⟨⟨.duplicateParameter (next ts).text name.text, (next ts).location⟩, hexpect.bind_ok ?_, ?_⟩
    · simp only [List.contains_iff_mem.2 hmem, if_true]
      exact .const rfl
    · refine run_of_refusal hend ?_
      simp only [State.step, hk, hmem, if_true]
      rfl
  · have hstep : (⟨L, D, .parameter name before⟩ : State).step (next ts) = if (next ts).kind = .identifier then
        .ok ⟨L, D, .afterParameter name (before ++ [(next ts).text])⟩ else refuseAs (next ts) .parameter := by
      simp only [State.step]
      split_ifs with hk hmem
      · exact absurd ⟨hk, hmem⟩ hdup
      · rfl
      · rfl
    refine .expect (by decide) rfl (by simp) hstep fun hk => ?_
    have htail : Advances ts ts.tail := advances_tail (by rw [hk]; decide)
    have hmem : ¬ before.contains (next ts).text = true := fun h => hdup ⟨hk, List.contains_iff_mem.1 h⟩
    simp only [hmem]
    refine .peek ?_
    split_ifs with hcomma
    · have hend : (next ts.tail).kind ≠ .endOfInput := by rw [hcomma]; decide
      have htail' := htail.trans (advances_tail hend).passes
      have hless := htail'.less
      refine .advance hend (if_pos hcomma) ?_
      exact (follows_parameters name ts.tail.tail _).behind htail'
    · refine .expect (by decide) rfl (by simp) (if_neg hcomma) fun hclose => ?_
      exact .pure rfl (htail.trans (advances_tail (by rw [hclose]; decide)).passes)
termination_by ts.length
decreasing_by exact hless

theorem follows_parameterList (name : Token) :
    Follows ⟨L, D, .firstParameter name⟩ (parameterList name) ts (fun ps => ⟨L, D, .functionBody name ps⟩)
      fun _ rest => Advances ts rest := by
  refine .peek ?_
  split_ifs with hclose
  · have hend : (next ts).kind ≠ .endOfInput := by rw [hclose]; decide
    exact .advance hend (if_pos hclose) (.pure rfl (advances_tail hend))
  · have hstep : (⟨L, D, .firstParameter name⟩ : State).step (next ts) =
        (⟨L, D, .parameter name []⟩ : State).step (next ts) := by
      simp [State.step, hclose]
    refine .congr ?_ (follows_parameters name ts [])
    by_cases hend : (next ts).kind = .endOfInput
    · rw [run_of_end hend, run_of_end hend]
      simp only [State.finish, State.settle, hstep]
    · exact run_congr hend hstep

theorem follows_function :
    Follows ⟨L, D, .functionName⟩ function ts (fun s => ⟨L, s :: D, .statement⟩) fun _ rest => Advances ts rest := by
  refine .expect (by decide) rfl (by simp) rfl fun hname => ?_
  have hname : Advances ts ts.tail := advances_tail (by rw [hname]; decide)
  refine .expect (by decide) rfl (by simp) rfl fun hopen => ?_
  have hopen := hname.trans (advances_tail (by rw [hopen]; decide)).passes
  refine (follows_parameterList (next ts)).bind fun ps us hus => ?_
  refine .expect (by decide) rfl (by simp) rfl fun hassign => ?_
  have hassign := (hopen.trans hus.passes).trans (advances_tail (by rw [hassign]; decide)).passes
  exact (follows_ending _).behind hassign

theorem follows_binding (name : Token) :
    Follows ⟨L, D, .binding name⟩ (binding name) ts (fun s => ⟨L, s :: D, .statement⟩)
      fun _ rest => Advances ts rest := by
  refine .peek ?_
  split_ifs with hwalrus hassign
  · have hend : (next ts).kind ≠ .endOfInput := by rw [hwalrus]; decide
    refine .advance hend (if_pos hwalrus) ?_
    exact (follows_ending _).behind (advances_tail hend)
  · have hend : (next ts).kind ≠ .endOfInput := by rw [hassign]; decide
    refine .advance hend ((if_neg hwalrus).trans (if_pos hassign)) ?_
    exact (follows_ending _).behind (advances_tail hend)
  · exact .fail (run_of_step_error rfl (by simp) ((if_neg hwalrus).trans (if_neg hassign)))

/-- what the reader takes between statements, though no statement starts with it, or ends at -/
def OutOfStatement (k : Kind) : Prop := k = .endOfInput ∨ k = .semicolon ∨ k = .closeBrace

/-- reading a statement follows the reader and takes a token -/
def ReadsStatement (ts : List Token) : Prop := ∀ L D, ¬ OutOfStatement (next ts).kind →
  Follows ⟨L, D, .statement⟩ statement ts (fun s => ⟨L, s :: D, .statement⟩) fun _ rest => Advances ts rest

theorem follows_statements {n : Nat} (hreads : ∀ us, us.length < n → ReadsStatement us) (keyword : Token)
    (condition : Expr) (ts : List Token) (hts : ts.length < n) (done : List Stmt) :
    Follows ⟨⟨keyword, condition, D⟩ :: L, done, .statement⟩ (statements done) ts
      (fun body => ⟨L, .loop keyword condition body :: D, .statement⟩) fun _ rest => Advances ts rest := by
  refine .succ ?_
  simp only [statements]
  refine .peek ?_
  split_ifs with hclose hend hsemicolon
  · have hend : (next ts).kind ≠ .endOfInput := by rw [hclose]; decide
    refine .advance hend ?_ (.pure rfl (advances_tail hend))
    simp only [State.step, State.startStatement, hclose]
  · exact .fail (run_of_end hend)
  · have htail := advances_tail hend
    have hless := htail.less
    have hstep : (⟨⟨keyword, condition, D⟩ :: L, done, .statement⟩ : State).step (next ts) =
        .ok ⟨⟨keyword, condition, D⟩ :: L, done, .statement⟩ := by
      simp only [State.step, State.startStatement, hsemicolon]
    refine .advance hend hstep ?_
    exact (follows_statements hreads keyword condition ts.tail (by omega) done).behind htail
  · have hstatement : ¬ OutOfStatement (next ts).kind := by simp [OutOfStatement, hclose, hend, hsemicolon]
    refine (hreads ts hts _ done hstatement).bind fun s us hus => ?_
    have hless := hus.less
    exact (follows_statements hreads keyword condition us (by omega) (s :: done)).behind hus
termination_by ts.length
decreasing_by all_goals exact hless

theorem follows_block (hless : ∀ us, us.length < ts.length → ReadsStatement us) (keyword : Token) (condition : Expr)
    (hn : holds (next ts).kind ≤ 0) :
    Follows ⟨L, D, .operator (.condition keyword) [] condition⟩ block ts
      (fun body => ⟨L, .loop keyword condition body :: D, .statement⟩) fun _ rest => Advances ts rest := by
  refine .succ ?_
  simp only [block]
  refine .expect (by decide) rfl (by simp) ((step_of_holds hn).trans rfl) fun hopen => ?_
  have htail : Advances ts ts.tail := advances_tail (by rw [hopen]; decide)
  exact (follows_statements hless keyword condition ts.tail htail.less []).behind htail

theorem readsStatement_of_less (hless : ∀ us, us.length < ts.length → ReadsStatement us) : ReadsStatement ts := by
  intro L D hout
  have hend : (next ts).kind ≠ .endOfInput := fun h => hout (.inl h)
  have htail := advances_tail hend
  refine .succ ?_
  simp only [statement]
  refine .peek ?_
  split_ifs with hfunction hprint hloop hname
  · have hstep : (⟨L, D, .statement⟩ : State).step (next ts) = .ok ⟨L, D, .functionName⟩ := by
      simp only [State.step, State.startStatement, hfunction]
    exact .advance hend hstep (follows_function.behind htail)
  · have hstep : (⟨L, D, .statement⟩ : State).step (next ts) =
        .ok ⟨L, D, .operand (.statement (.print (next ts))) []⟩ := by
      simp only [State.step, State.startStatement, hprint]
    exact .advance hend hstep ((follows_ending _).behind htail)
  · have hstep : (⟨L, D, .statement⟩ : State).step (next ts) = .ok ⟨L, D, .operand (.condition (next ts)) []⟩ := by
      simp only [State.step, State.startStatement, hloop]
    refine .advance hend hstep ?_
    refine (reads .conditional ts.tail L D (.condition (next ts)) [] ⟨trivial, trivial, sign_mem_starts⟩).bind ?_
    rintro condition us ⟨hus, hn⟩
    have hus := htail.trans hus.passes
    have hless' := fun vs (h : vs.length < us.length) => hless vs (h.trans hus.less)
    refine (follows_block hless' (next ts) condition hn).bind fun body rest hrest => ?_
    exact .pure rfl (hus.trans hrest.passes)
  · have hstep : (⟨L, D, .statement⟩ : State).step (next ts) = .ok ⟨L, D, .binding (next ts)⟩ := by
      simp only [State.step, State.startStatement, hname]
    exact .advance hend hstep ((follows_binding _).behind htail)
  · refine .fail (run_of_refusal hend ?_)
    simp only [State.step, State.startStatement]
    split <;> simp_all [OutOfStatement, refuse]

/-- **Statements.** A statement inside another one starts behind its first token. -/
theorem readsStatement (ts : List Token) : ReadsStatement ts := readsStatement_of_less fun us _ => readsStatement us
termination_by ts.length

theorem gives_statement_of_out (h : OutOfStatement (next ts).kind) :
    Gives statement ts (.error ⟨.expectedStatement (found (next ts)), (next ts).location⟩) := by
  refine .succ ?_
  simp only [statement]
  refine .peek ?_
  rcases h with h | h | h <;> simp only [h, reduceCtorEq, if_false] <;> exact .const rfl

/-! ## Programs -/

/-- `x`, on a list of tokens, gives what the reader makes of them from `s`, and leaves an end of input -/
def Completes (s : State) (x : Nat → Read Block) (ts : List Token) : Prop :=
  (∃ b rest, Gives x ts (.ok (b, rest)) ∧ s.run ts = .ok b ∧ Passes ts rest ∧ (next rest).kind = .endOfInput) ∨
  ∃ d, Gives x ts (.error d) ∧ s.run ts = .error d

theorem Completes.succ {x : Nat → Read Block} (h : Completes s (fun n => x (n + 1)) ts) : Completes s x ts := by
  obtain ⟨b, rest, hx, hb⟩ | ⟨d, hx, hd⟩ := h
  · exact .inl ⟨b, rest, hx.succ, hb⟩
  · exact .inr ⟨d, hx.succ, hd⟩

theorem Follows.completes {x : Nat → Read α} {f : Nat → α → Read Block} {g : α → State}
    (h : Follows s x ts g fun _ rest => Advances ts rest)
    (hf : ∀ a us, us.length < ts.length → Completes (g a) (fun n => f n a) us) :
    Completes s (fun n => x n >>= f n) ts := by
  obtain ⟨d, hx, hs⟩ | ⟨a, us, hx, hs, hus⟩ := h
  · exact .inr ⟨d, hx.bind_error, hs⟩
  · obtain ⟨b, rest, hf, hb, hrest, hend⟩ | ⟨d, hf, hd⟩ := hf a us hus.less
    · exact .inl ⟨b, rest, hx.bind_ok hf, hs.trans hb, hus.passes.trans hrest, hend⟩
    · exact .inr ⟨d, hx.bind_ok hf, hs.trans hd⟩

theorem completes_topStatements (ts : List Token) (done : List Stmt) :
    Completes ⟨[], done, .statement⟩ (topStatements done) ts := by
  refine .succ ?_
  simp only [topStatements]
  show Completes _ (fun n => if (next ts).kind = .endOfInput then _ else _) ts
  split_ifs with hend hsemicolon
  · exact .inl ⟨_, ts, .const rfl, run_of_end hend, .refl ts, hend⟩
  · have hstep : (⟨[], done, .statement⟩ : State).step (next ts) = .ok ⟨[], done, .statement⟩ := by
      simp only [State.step, State.startStatement, hsemicolon]
    have hadvance : Follows ⟨[], done, .statement⟩ (fun _ => advance) ts (fun _ => ⟨[], done, .statement⟩)
        fun _ rest => Advances ts rest := .inr ⟨(), ts.tail, .const rfl, run_of_step hend hstep, advances_tail hend⟩
    exact hadvance.completes fun _ us _ => completes_topStatements us done
  by_cases hclose : (next ts).kind = .closeBrace
  · refine .inr ⟨_, (gives_statement_of_out (.inr (.inr hclose))).bind_error, run_of_refusal hend ?_⟩
    simp only [State.step, State.startStatement, hclose]
    rfl
  · have hout : ¬ OutOfStatement (next ts).kind := by simp [OutOfStatement, hclose, hend, hsemicolon]
    exact (readsStatement ts [] done hout).completes fun s us _ => completes_topStatements us (s :: done)
termination_by ts.length

/-! ## Progress -/

/-- from every position of every list of tokens `x` comes to an end: with a syntactic failure, or at a later position
of the list, behind tokens none of which ends the input -/
def Progresses (x : Nat → Read α) : Prop := ∀ (ts : List Token) (i : Nat),
  (∃ d, Gives x (ts.drop i) (.error d) ∧ d.cause.kind = .syntactic) ∨
  ∃ a j, Gives x (ts.drop i) (.ok (a, ts.drop j)) ∧ i < j ∧ j ≤ ts.length ∧
    ∀ k, i ≤ k → k < j → ∃ t, ts[k]? = some t ∧ t.kind ≠ .endOfInput

/-- from a position of a list, a function that takes tokens gets to a later position of it -/
theorem Advances.exists_drop {i : Nat} (h : Advances (ts.drop i) rest) :
    ∃ j, rest = ts.drop j ∧ i < j ∧ j ≤ ts.length ∧
      ∀ k, i ≤ k → k < j → ∃ t, ts[k]? = some t ∧ t.kind ≠ .endOfInput := by
  obtain ⟨⟨taken, htaken, hkind⟩, hless⟩ := h
  have hlength : ts.length - i = taken.length + rest.length := by simpa using congrArg List.length htaken
  have hdrop : (ts.drop i).length = ts.length - i := List.length_drop
  refine ⟨i + taken.length, ?_, by omega, by omega, fun k hik hkj => ?_⟩
  · rw [← List.drop_drop, htaken, List.drop_left]
  · have hk : k - i < taken.length := by omega
    refine ⟨taken[k - i], ?_, hkind _ (List.getElem_mem hk)⟩
    have hget : (ts.drop i)[k - i]? = some taken[k - i] := by
      rw [htaken, List.getElem?_append_left hk, List.getElem?_eq_getElem hk]
    rwa [List.getElem?_drop, Nat.add_sub_cancel' hik] at hget

theorem kind_of_run (h : s.run ts = .error d) : d.cause.kind = .syntactic := by
  obtain ⟨-, t, -, -, -, -, ⟨-, hobjection⟩, -⟩ := exists_objection h
  generalize d.cause = c at hobjection
  cases hobjection <;> rfl

/-- what follows the reader, or fails by an objection of its own, progresses -/
theorem progresses_of_follows {x : Nat → Read α} (h : ∀ ts, (∃ d, Gives x ts (.error d) ∧ d.cause.kind = .syntactic) ∨
    ∃ s g, Follows s x ts g fun _ rest => Advances ts rest) : Progresses x := by
  intro ts i
  obtain hfail | ⟨s, g, ⟨d, hon, hrun⟩ | ⟨a, rest, hon, -, hrest⟩⟩ := h (ts.drop i)
  · exact .inl hfail
  · exact .inl ⟨d, hon, kind_of_run hrun⟩
  · obtain ⟨j, rfl, hj⟩ := hrest.exists_drop
    exact .inr ⟨a, j, hon, hj⟩

theorem progresses_statement : Progresses statement := by
  refine progresses_of_follows fun ts => ?_
  by_cases h : OutOfStatement (next ts).kind
  · exact .inl ⟨_, gives_statement_of_out h, rfl⟩
  · exact .inr ⟨_, _, readsStatement ts [] [] h⟩

/-- a sign starts no expression of a category below `unary` -/
theorem gives_expression_of_sign (h : (next ts).kind = .not ∨ (next ts).kind = .minus) {c : Category}
    (hc : (next ts).kind ∉ c.starts) :
    Gives (expression c) ts (.error ⟨.expectedExpression (found (next ts)), (next ts).location⟩) := by
  have hprimary : Gives (expression .primary) ts
      (.error ⟨.expectedExpression (found (next ts)), (next ts).location⟩) := by
    refine .succ ?_
    simp only [expression]
    refine .peek ?_
    rcases h with h | h <;> simp only [h, reduceCtorEq, if_false] <;> exact .const rfl
  have hindexed : Gives (expression .indexed) ts
      (.error ⟨.expectedExpression (found (next ts)), (next ts).location⟩) := by
    refine .succ ?_
    simp only [expression]
    exact hprimary.bind_error
  cases c with
  | primary => exact hprimary
  | indexed => exact hindexed
  | power =>
    refine .succ ?_
    simp only [expression]
    exact hindexed.bind_error
  | _ => exact absurd (sign_mem_starts h) hc

/-- a function that must start with a token of a kind fails where another token stands -/
theorem gives_of_expect {x : Nat → Read α} {k : Kind} {what : Expectation} {f : Nat → Token → Read α}
    (hx : ∀ n, x (n + 1) = expect k what >>= f n) (h : (next ts).kind ≠ k) :
    ∃ d, Gives x ts (.error d) ∧ d.cause.kind = .syntactic := by
  refine ⟨⟨.expected what (found (next ts)), (next ts).location⟩, .succ ?_, rfl⟩
  simp only [hx]
  exact (Gives.const (on_expect_of_ne h)).bind_error

theorem progresses_expression (c : Category) : Progresses (expression c) := by
  refine progresses_of_follows fun ts => ?_
  by_cases h : (next ts).kind = .not ∨ (next ts).kind = .minus → (next ts).kind ∈ c.starts
  · have hplace : Place c [] (next ts).kind := ⟨by cases c <;> trivial, trivial, h⟩
    exact .inr ⟨_, _, (reads c ts [] [] (.condition endToken) [] hplace).mono fun _ rest hrest => hrest.1⟩
  · obtain ⟨hsign, hstart⟩ := Classical.not_imp.1 h
    exact .inl ⟨_, gives_expression_of_sign hsign hstart, rfl⟩

theorem progresses_call (callee : Token) : Progresses (call callee) := by
  refine progresses_of_follows fun ts => ?_
  by_cases h : (next ts).kind = .openParen
  · exact .inr ⟨⟨[], [], .callee (.condition callee) [] callee⟩, _, follows_call callee (fun us _ => reads _ us) h⟩
  · exact .inl (gives_of_expect (fun n => by rw [call]) h)

theorem progresses_array : Progresses array := by
  refine progresses_of_follows fun ts => ?_
  by_cases h : (next ts).kind = .openBracket
  · exact .inr ⟨⟨[], [], .operand (.condition endToken) []⟩, _, follows_array (fun us _ => reads _ us) h⟩
  · exact .inl (gives_of_expect (fun n => by rw [array]) h)

theorem progresses_block : Progresses block := by
  refine progresses_of_follows fun ts => ?_
  by_cases h : (next ts).kind = .openBrace
  · have hn : holds (next ts).kind ≤ 0 := by rw [h]; decide
    exact .inr ⟨⟨[], [], .operator (.condition endToken) [] (.variable endToken [])⟩, _,
      follows_block (fun us _ => readsStatement us) endToken (.variable endToken []) hn⟩
  · exact .inl (gives_of_expect (fun n => by rw [block]) h)

/-- **Progress.** Each of the functions for the constructs of a program comes to an end from every position of every
list of tokens, with a syntax error or at a later position, and passes over no end of input. So reading a whole program
comes to an end on every list of tokens, with what the reader gives. -/
theorem every_construct_progresses :
    (Progresses statement ∧ (∀ c, Progresses (expression c)) ∧ (∀ callee, Progresses (call callee)) ∧
      Progresses array ∧ Progresses block) ∧
    ∀ ts, (∃ b rest, Gives program ts (.ok (b, rest)) ∧ Block.parse ts = .ok b ∧ Passes ts rest ∧
        (next rest).kind = .endOfInput) ∨
      ∃ d, Gives program ts (.error d) ∧ Block.parse ts = .error d ∧ d.cause.kind = .syntactic := by
  refine ⟨⟨progresses_statement, progresses_expression, progresses_call, progresses_array, progresses_block⟩,
    fun ts => ?_⟩
  obtain h | ⟨d, hon, hrun⟩ := completes_topStatements ts []
  · exact .inl h
  · exact .inr ⟨d, hon, hrun, kind_of_run hrun⟩

end Descent

end Treewalk
