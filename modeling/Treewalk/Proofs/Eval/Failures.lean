/-
How programs can fail.

A program that was scanned and read has no operator that evaluation does not know, no function with two parameters of
one name and no part that is missing, and its functions belong to the root frame. All this says that its tree stands for
itself in a pairing that admits the ordinary failures only (`Pairing.blockRel_of_block`); a world that programs have
worked in one after another stands for itself too, since closures in it come from their trees
(`World.Reached.worldRel`). So of all failures a run can have (`Program.failures_of_runs`), a name that is bound already
is the only one that is not ordinary, and only declarations meet it.
-/
import Treewalk.Program
import Treewalk.Proofs.Eval.Execution
import Treewalk.Proofs.Eval.Origin
import Treewalk.Proofs.Grammar.Sound
import Treewalk.Proofs.Token.Longest
import Treewalk.Proofs.Token.Scanning

namespace Treewalk

open Grammar Grammar.Derivation

namespace Pairing

variable {S : Pairing}

/-! ## Trees that are read -/

/-- a token that may get into a tree: an operator is known, or the pairing admits that it is not -/
structure Admits (S : Pairing) (t : Token) : Prop where
  token : S.token t t
  name : S.name t.text
  unary : t.kind = .minus ∨ t.kind = .not → UnaryOp.ofText? t.text = none →
    S.cause (.unknownUnary t.text) (.unknownUnary t.text)
  binary : (Reader.level? t.kind).isSome → BinaryOp.ofText? t.text = none →
    S.cause (.unknownBinary t.text) (.unknownBinary t.text)

/-- what a derivation denotes stands for itself; operands and subscripts do so behind an expression that does -/
def Stands (S : Pairing) : (s : Symbol) → Derivation s → Prop
  | .block, d => (∀ ps ∈ d.parameterLists, S.Binds id ps) → S.BlockRel d.meaning d.meaning
  | .statement, d => (∀ ps ∈ d.parameterLists, S.Binds id ps) → S.BlockRel d.meaning d.meaning
  | .expression _, d => S.ExprRel S.outer d.meaning d.meaning
  | .operands _, d => ∀ e, S.ExprRel S.outer e e → S.ExprRel S.outer (d.meaning e) (d.meaning e)
  | .subscripts, d => ∀ e, S.ExprRel S.outer e e → S.ExprRel S.outer (d.meaning e) (d.meaning e)
  | .items, d => S.ExprsRel S.outer d.meaning d.meaning
  | .moreItems, d => S.ExprsRel S.outer d.meaning d.meaning

theorem BlockRel.append {ss ss' us us' : List Stmt} (h : S.BlockRel ss ss') (hu : S.BlockRel us us') :
    S.BlockRel (ss ++ us) (ss' ++ us') := by
  match ss, ss', h with
  | [], [], _ => exact hu
  | _ :: _, _ :: _, .cons hs hss => exact .cons hs (hss.append hu)

theorem stands_of_admits {s : Symbol} (d : Derivation s) (ht : ∀ t ∈ d.yield, S.Admits t) : S.Stands s d := by
  induction d with
  | noStatement => exact fun _ => .nil
  | statements first rest ihf ihr =>
    intro hps
    have hfirst := ihf (fun t h => ht t (by simp [h])) (fun ps h => hps ps (by simp [h]))
    exact hfirst.append (ihr (fun t h => ht t (by simp [h])) (fun ps h => hps ps (by simp [h])))
  | empty semicolon => exact fun _ => .nil
  | function keyword name opening parameters closing sign body ih =>
    intro hps
    have hname := ht name.1 (by simp)
    have hbody := ih (fun t h => ht t (by simp [h]))
    exact .cons (.function hname.token hname.name (.of_outer (hps _ (by simp)) hbody)) .nil
  | print keyword value ih =>
    intro _
    exact .cons (.print (ht keyword.1 (by simp)).token (ih fun t h => ht t (by simp [h]))) .nil
  | loop keyword condition opening body closing ihc ihb =>
    intro hps
    have hcondition := ihc (fun t h => ht t (by simp [h]))
    have hbody := ihb (fun t h => ht t (by simp [h])) (fun ps h => hps ps (by simp [h]))
    exact .cons (.loop (ht keyword.1 (by simp)).token hcondition hbody) .nil
  | declare name sign value ih =>
    intro _
    have hname := ht name.1 (by simp)
    exact .cons (.declare hname.token hname.name (ih fun t h => ht t (by simp [h]))) .nil
  | assign name sign value ih =>
    intro _
    have hname := ht name.1 (by simp)
    exact .cons (.assign hname.token hname.name (ih fun t h => ht t (by simp [h]))) .nil
  | plain e ih => exact ih ht
  | choice test mark yes colon no iht ihy ihn =>
    have htest := iht (fun t h => ht t (by simp [h]))
    have hyes := ihy (fun t h => ht t (by simp [h]))
    exact .conditional (ht mark.1 (by simp)).token htest hyes (ihn fun t h => ht t (by simp [h]))
  | chain l first rest ihf ihr =>
    exact ihr (fun t h => ht t (by simp [h])) _ (ihf fun t h => ht t (by simp [h]))
  | noOperand l => exact fun e he => he
  | operand l op right rest ihe ihr =>
    have hop := ht op.1 (by simp)
    have hright := ihe (fun t h => ht t (by simp [h]))
    have hrest := ihr (fun t h => ht t (by simp [h]))
    exact fun e he => hrest _ (.binary hop.token (hop.binary (by simp [Reader.level?_of_mem op.2])) he hright)
  | signed op e ih =>
    have hop := ht op.1 (by simp)
    exact .unary hop.token (hop.unary op.2) (ih fun t h => ht t (by simp [h]))
  | unsigned e ih => exact ih ht
  | base e ih => exact ih ht
  | raise e op exponent ihe ihx =>
    have hop := ht op.1 (by simp)
    have hbase := ihe (fun t h => ht t (by simp [h]))
    exact .binary hop.token (hop.binary (by simp [op.2, Reader.level?])) hbase (ihx fun t h => ht t (by simp [h]))
  | indexed e subscripts ihe ihs =>
    exact ihs (fun t h => ht t (by simp [h])) _ (ihe fun t h => ht t (by simp [h]))
  | noSubscript => exact fun e he => he
  | subscript opening index closing rest ihi ihr =>
    have hindex := ihi (fun t h => ht t (by simp [h]))
    have hrest := ihr (fun t h => ht t (by simp [h]))
    exact fun e he => hrest _ (.subscript (ht opening.1 (by simp)).token he hindex)
  | numeral t => exact .numeral (ht t.1 (by simp)).token
  | boolean t => exact .boolean (ht t.1 (by simp)).token
  | call callee opening arguments closing ih =>
    have hcallee := ht callee.1 (by simp)
    exact .call hcallee.token hcallee.name (ih fun t h => ht t (by simp [h]))
  | «variable» name => exact .variable (ht name.1 (by simp)).token (ht name.1 (by simp)).name
  | group opening e closing ih => exact ih fun t h => ht t (by simp [h])
  | array opening items closing ih =>
    exact .array (ht opening.1 (by simp)).token (ih fun t h => ht t (by simp [h]))
  | noItem => exact .nil
  | someItems first rest ihf ihr =>
    exact .cons (ihf fun t h => ht t (by simp [h])) (ihr fun t h => ht t (by simp [h]))
  | lastItem => exact .nil
  | item comma e rest ihe ihr =>
    exact .cons (ihe fun t h => ht t (by simp [h])) (ihr fun t h => ht t (by simp [h]))

end Pairing

/-! ## Texts -/

/-- evaluation knows the operators that scanning knows -/
theorem Lexeme.IsLexeme.known {k : Kind} {w : Bytes} (h : IsLexeme k w) :
    (k = .minus ∨ k = .not → UnaryOp.ofText? w ≠ none) ∧ ((Reader.level? k).isSome → BinaryOp.ofText? w ≠ none) := by
  cases h with
  | number n => simp [Reader.level?]
  | word hw =>
    have hkinds : ∀ k ∈ [Kind.identifier, .function, .print, .loop, .boolean],
        ¬ (k = .minus ∨ k = .not) ∧ ¬ (Reader.level? k).isSome := by decide
    obtain ⟨hunary, hbinary⟩ := hkinds _ (wordKind_mem w)
    exact ⟨fun h => absurd h hunary, fun h => absurd h hbinary⟩
  | operator hop =>
    have hall : ∀ p ∈ pairs ++ singles, (p.2 = .minus ∨ p.2 = .not → UnaryOp.ofText? p.1 ≠ none) ∧
        ((Reader.level? p.2).isSome → BinaryOp.ofText? p.1 ≠ none) := by decide +kernel
    exact hall _ hop

theorem Token.isLexeme_of_mem_scan {o : Origin} {text : Bytes} {ts : List Token} {t : Token}
    (h : scan o text = .ok ts) (ht : t ∈ ts) : t.kind = .endOfInput ∨ Lexeme.IsLexeme t.kind t.text := by
  rcases exists_next?_of_mem_scanFrom h ht with hend | ⟨u, hu⟩
  · exact .inl hend
  · obtain ⟨rest, -, hlongest⟩ := Lexeme.longest_of_next? hu
    exact .inr hlongest.isLexeme

namespace Pairing

/-- a run beside itself, in which expressions have ordinary failures only -/
def source : Pairing where
  token _ _ := True
  name _ := True
  cause c c' := c' = c ∧ c.kind.ordinary = true
  ordinary _ hc := ⟨rfl, hc⟩

/-- a tree stands for itself if the tokens that it was read from may get into trees -/
theorem blockRel_of_parse {S : Pairing} {ts : List Token} {b : Block} (h : Block.parse ts = .ok b)
    (hS : ∀ t ∈ ts, t.kind ≠ .endOfInput → S.Admits t) : S.BlockRel b b := by
  obtain ⟨d, hyield, rfl, hps, -⟩ := exists_derivation_of_parse h
  refine stands_of_admits d ?_ fun ps hp => .inl (hps ps hp)
  intro t ht
  exact hS t ((List.takeWhile_sublist _).subset (hyield ▸ ht)) (d.kind_ne_endOfInput t ht)

/-- the tree of a text stands for itself if all lexemes may get into trees -/
theorem blockRel_of_lexemes {S : Pairing} {p : Program} {b : Block} (h : p.block = .ok b)
    (hS : ∀ t : Token, Lexeme.IsLexeme t.kind t.text → S.Admits t) : S.BlockRel b b := by
  rw [Program.block] at h
  cases hts : p.tokens with
  | error d => rw [hts] at h; cases h
  | ok ts =>
    rw [hts] at h
    refine blockRel_of_parse h fun t ht hkind => ?_
    exact hS t ((Token.isLexeme_of_mem_scan hts ht).resolve_left hkind)

/-- the tree of a text stands for itself -/
theorem blockRel_of_block {p : Program} {b : Block} (h : p.block = .ok b) : source.BlockRel b b := by
  refine blockRel_of_lexemes h fun t hlexeme => ?_
  obtain ⟨hunary, hbinary⟩ := hlexeme.known
  exact ⟨trivial, trivial, fun hk h => absurd h (hunary hk), fun hk h => absurd h (hbinary hk)⟩

/-- what a run visits stands for itself -/
theorem rel_of_visits {S : Pairing} {limits : Limits} {ss : List Stmt} {s : Stmt} {w w' : World}
    (h : Stmt.Visits limits World.root ss w s w') (hss : S.BlockRel ss ss) (hw : S.WorldRel w w) :
    S.StmtRel s s ∧ S.WorldRel w' w' := by
  induction h with
  | here s ss w =>
    cases hss with
    | cons hs _ => exact ⟨hs, hw⟩
  | @next s s' ss w w₁ w' hs _ ih =>
    cases hss with
    | cons hs' hss =>
      have hout := outcomeRel_exec limits s hs' hw
      rw [hs] at hout
      exact ih hss hout.world
  | body hc _ ih =>
    cases hss with
    | cons hs _ =>
      cases hs with
      | loop _ hcond hbody =>
        have hstep := (steps_eval limits.calls World.root hcond _ _ hw.atRoot).1.toWorldRel
        rw [hc] at hstep
        exact ih hbody hstep
  | @again t c body ss s' w w₁ w₂ w' hc hb _ ih =>
    cases hss with
    | cons hs hss =>
      cases hs with
      | loop ht hcond hbody =>
        have hstep := (steps_eval limits.calls World.root hcond _ _ hw.atRoot).1.toWorldRel
        rw [hc] at hstep
        -- the next round starts in the world that the body has left
        have hout := outcomeRel_execAll limits body hbody hstep
        rw [hb] at hout
        exact ih (.cons (.loop ht hcond hbody) hss) hout.world

end Pairing

/-- the worlds that programs leave when they run one after another, whether they fail or not -/
inductive World.Reached : World → Prop
  | initial : Reached .initial
  | run {w : World} {p : Program} {b : Block} (limits : Limits) (hw : Reached w) (hb : p.block = .ok b) :
      Reached (b.exec limits root w).world

theorem World.Reached.worldRel {w : World} (h : w.Reached) : Pairing.source.WorldRel w w := by
  induction h with
  | initial => exact Pairing.worldRel_initial _
  | run limits _ hb ih => exact (Pairing.outcomeRel_execAll limits _ (Pairing.blockRel_of_block hb) ih).world

/-! ## Failures -/

theorem ErrorKind.mem_of_ordinary {k : ErrorKind} (h : k.ordinary = true) :
    k ∈ [.unboundVariable, .type, .notCallable, .arityMismatch, .indexOutOfRange, .stackOverflow] := by
  revert h
  cases k <;> decide

/-- an expression of a statement that stands for itself stands for itself -/
theorem Pairing.StmtRel.expression {S : Pairing} {s : Stmt} (h : S.StmtRel s s) {e : Expr}
    (he : s.expression? = some e) : S.ExprRel S.outer e e := by
  cases h with
  | declare _ _ h | assign _ _ h | print _ h | loop _ h _ =>
    cases he
    exact h
  | function | missing => cases he

/-- an expression that fails where it stands for itself fails for a reason that the pairing admits -/
theorem Pairing.cause_of_eval_error {S : Pairing} {e : Expr} (he : S.ExprRel S.outer e e) {w w' : World}
    (hw : S.WorldRel w w) {limit : Nat} {d : Diagnostic} (h : (e.eval limit World.root).runIn w = (.error d, w')) :
    S.cause d.cause d.cause := by
  have hanswer := (steps_eval limit World.root he w w hw.atRoot).2
  rw [h] at hanswer
  cases hanswer with
  | error hd => exact hd.admits

/-- a name that is bound already is found by a declaration, unless the statement's expression finds it -/
theorem Stmt.Raises.redeclares {limits : Limits} {frame : FrameId} {s : Stmt} {w : World} {d : Diagnostic}
    (h : s.Raises limits frame w d) (hd : d.cause.kind = .redeclaration)
    (hexpr : ∀ e w', s.expression? = some e → (e.eval limits.calls frame).runIn w ≠ (.error d, w')) :
    s.Redeclares limits frame w d := by
  cases h with
  | expression he h => exact absurd h (hexpr _ _ he)
  | redeclaration h => exact h
  | @assign t x e v w w' d hv h =>
    rw [World.assign] at h
    cases ha : w'.frames.assign? frame x v with
    | some fs => rw [ha] at h; cases h
    | none =>
      rw [ha] at h
      cases h
      cases hd
  | condition => cases hd
  | missing => cases hd

namespace Program

variable {w : World} {p : Program} {b : Block}

theorem ordinary_of_visits (hw : w.Reached) (hb : p.block = .ok b) {limits : Limits} {s : Stmt} {e : Expr}
    {w' w'' : World} {d : Diagnostic} (hs : Stmt.Visits limits World.root b w s w') (he : s.expression? = some e)
    (h : (e.eval limits.calls World.root).runIn w' = (.error d, w'')) : d.cause.kind.ordinary = true := by
  obtain ⟨hstmt, hworld⟩ := Pairing.rel_of_visits hs (Pairing.blockRel_of_block hb) hw.worldRel
  exact (Pairing.cause_of_eval_error (hstmt.expression he) hworld h).2

/-- **Programs fail in seven ways.** Programs that are read without failure, run one after another in one world, meet no
unknown operator, no closure without its frame and nothing that reading should have found. Where a name is bound
already, the declaration of that name finds it, and never an expression that is evaluated on the way. -/
theorem failures_of_runs (hw : w.Reached) (hb : p.block = .ok b) (limits : Limits) :
    (∀ d w', b.exec limits World.root w = .failed d w' →
      d.cause.kind ∈ [.redeclaration, .unboundVariable, .type, .notCallable, .arityMismatch, .indexOutOfRange,
        .stackOverflow] ∧
      (d.cause.kind = .redeclaration →
        ∃ s w₀, Stmt.Visits limits World.root b w s w₀ ∧ s.Redeclares limits World.root w₀ d)) ∧
    ∀ s w₀ e d w₁, Stmt.Visits limits World.root b w s w₀ → s.expression? = some e →
      (e.eval limits.calls World.root).runIn w₀ = (.error d, w₁) → d.cause.kind ≠ .redeclaration := by
  have hordinary : ∀ s w₀ e d w₁, Stmt.Visits limits World.root b w s w₀ → s.expression? = some e →
      (e.eval limits.calls World.root).runIn w₀ = (.error d, w₁) → d.cause.kind ≠ .redeclaration := by
    intro s w₀ e d w₁ hs he h hd
    have hkind := ordinary_of_visits hw hb hs he h
    rw [hd] at hkind
    cases hkind
  refine ⟨?_, hordinary⟩
  intro d w' h
  constructor
  · have hout := Pairing.outcomeRel_execAll limits b (Pairing.blockRel_of_block hb) hw.worldRel
    rw [← Block.exec, h] at hout
    cases hout with
    | failed hfailure _ =>
      rcases hfailure.admits with ⟨-, hkind⟩ | ⟨-, hkind⟩
      · exact List.mem_cons_of_mem _ (ErrorKind.mem_of_ordinary hkind)
      · rw [hkind]
        exact List.mem_cons_self
  · intro hd
    obtain ⟨s, w₀, hs, hr⟩ := Stmt.blames_of_execAll b h
    exact ⟨s, w₀, hs, hr.redeclares hd fun e w₁ he h => hordinary s w₀ e d w₁ hs he h hd⟩

/-- declares a function and a variable -/
def earlier : Program := ⟨bytes "earlier", bytes "fun f(a, b) = a x := f(1, 2)", false⟩

/-- declares the variable again, in a loop and behind calls -/
def later : Program := ⟨bytes "later", bytes "y := f(x, 3) while y == 1 \x7b print f(y, x) x := f(3, y) \x7d", false⟩

/-- The declaration in the loop is where the second program fails. -/
theorem failures_of_runs_loop : ∃ b b' d w', earlier.block = .ok b ∧ later.block = .ok b' ∧
    b'.exec ⟨9, 9⟩ World.root (b.exec ⟨9, 9⟩ World.root .initial).world = .failed d w' ∧
    d.cause = .alreadyDeclared (bytes "x") ∧ ∃ s w₀,
      Stmt.Visits ⟨9, 9⟩ World.root b' (b.exec ⟨9, 9⟩ World.root .initial).world s w₀ ∧
        s.Redeclares ⟨9, 9⟩ World.root w₀ d := by
  have hrun : (earlier.block.toOption.bind fun b => later.block.toOption.bind fun b' =>
      (b'.exec ⟨9, 9⟩ World.root (b.exec ⟨9, 9⟩ World.root .initial).world).diagnostic?.map (·.cause)) =
        some (.alreadyDeclared (bytes "x")) := by decide +kernel
  obtain ⟨b, hb, hrun⟩ := Option.bind_eq_some_iff.1 hrun
  obtain ⟨b', hb', hrun⟩ := Option.bind_eq_some_iff.1 hrun
  obtain ⟨d, hd, hcause⟩ := Option.map_eq_some_iff.1 hrun
  have hok : ∀ {p : Program} {b}, p.block.toOption = some b → p.block = .ok b := by
    intro p b h
    cases hp : p.block with
    | error d => rw [hp] at h; cases h
    | ok b => rw [hp] at h; cases h; rfl
  have hreached := World.Reached.run ⟨9, 9⟩ .initial (hok hb)
  cases ho : b'.exec ⟨9, 9⟩ World.root (b.exec ⟨9, 9⟩ World.root .initial).world with
  | failed d' w' =>
    rw [ho] at hd
    cases hd
    obtain ⟨hfailure, -⟩ := failures_of_runs hreached (hok hb') ⟨9, 9⟩
    have hkind : d.cause.kind = .redeclaration := by rw [hcause]; rfl
    exact ⟨b, b', d, w', hok hb, hok hb', ho, hcause, (hfailure d w' ho).2 hkind⟩
  | done w' => rw [ho] at hd; cases hd
  | unfinished w' => rw [ho] at hd; cases hd

end Program

end Treewalk
