/-
What a parameter is called changes nothing.

A parameter `p` of a function may be called `q` instead if neither the other parameters nor the body use that name. The
two functions do the same: in the frame of a call, `q` means what `p` meant, every other name in the body means the
same, and no other function sees that frame, since functions belong to the root frame. In the terms of pairings, the
bodies stand for one another in a scope that calls `p` `q`, and all else stands for itself. So the two programs print
the same and end alike (`Block.parameter_name_changes_nothing`); a failure may name `q` instead of `p`, and this only
where the parameter is called without being a function, or where it stands twice among the parameters.
-/
import Treewalk.Proofs.Eval.Execution

namespace Treewalk

/-! ## Names in expressions -/

mutual
/-- the names that an expression uses: variables and callees -/
def Expr.names : Expr → List Bytes
  | .numeral _ _ | .boolean _ _ | .missing => []
  | .variable _ x => [x]
  | .unary _ _ e => e.names
  | .binary _ _ l r => l.names ++ r.names
  | .conditional _ c y n => c.names ++ (y.names ++ n.names)
  | .call _ f args => f :: Expr.namesAll args
  | .array _ items => Expr.namesAll items
  | .subscript _ a i => a.names ++ i.names

def Expr.namesAll : List Expr → List Bytes
  | [] => []
  | e :: es => e.names ++ Expr.namesAll es
end

mutual
/-- the expression with other names; its tokens stay where they are -/
def Expr.mapNames (f : Bytes → Bytes) : Expr → Expr
  | .numeral t x => .numeral t x
  | .boolean t b => .boolean t b
  | .variable t x => .variable t (f x)
  | .unary t op e => .unary t op (e.mapNames f)
  | .binary t op l r => .binary t op (l.mapNames f) (r.mapNames f)
  | .conditional t c y n => .conditional t (c.mapNames f) (y.mapNames f) (n.mapNames f)
  | .call t g args => .call t (f g) (Expr.mapNamesAll f args)
  | .array t items => .array t (Expr.mapNamesAll f items)
  | .subscript t a i => .subscript t (a.mapNames f) (i.mapNames f)
  | .missing => .missing

def Expr.mapNamesAll (f : Bytes → Bytes) : List Expr → List Expr
  | [] => []
  | e :: es => e.mapNames f :: Expr.mapNamesAll f es
end

mutual
theorem Expr.mapNames_id : (e : Expr) → e.mapNames id = e
  | .numeral _ _ | .boolean _ _ | .variable _ _ | .missing => rfl
  | .unary _ _ e => by rw [mapNames, mapNames_id e]
  | .binary _ _ l r => by rw [mapNames, mapNames_id l, mapNames_id r]
  | .conditional _ c y n => by rw [mapNames, mapNames_id c, mapNames_id y, mapNames_id n]
  | .call _ _ args => by rw [mapNames, mapNamesAll_id args, id]
  | .array _ items => by rw [mapNames, mapNamesAll_id items]
  | .subscript _ a i => by rw [mapNames, mapNames_id a, mapNames_id i]

theorem Expr.mapNamesAll_id : (es : List Expr) → Expr.mapNamesAll id es = es
  | [] => rfl
  | e :: es => by rw [mapNamesAll, mapNames_id e, mapNamesAll_id es]
end

/-- `q` instead of `p` -/
def Bytes.instead (p q x : Bytes) : Bytes := if x = p then q else x

mutual
/-- in one function of the statement, the parameter `p` is called `q` -/
inductive Stmt.ParameterRenamed (p q : Bytes) : Stmt → Stmt → Prop
  | function {t : Token} {f : Bytes} {ps : List Bytes} {e : Expr} (hp : p ∈ ps) (hq : q ∉ ps) (he : q ∉ e.names) :
      Stmt.ParameterRenamed p q (.function t f ps e)
        (.function t f (ps.map (Bytes.instead p q)) (e.mapNames (Bytes.instead p q)))
  | loop {t : Token} {c : Expr} {body body' : List Stmt} (h : Block.ParameterRenamed p q body body') :
      Stmt.ParameterRenamed p q (.loop t c body) (.loop t c body')

/-- in one function of the block, the parameter `p` is called `q` -/
inductive Block.ParameterRenamed (p q : Bytes) : List Stmt → List Stmt → Prop
  | here {s s' : Stmt} {ss : List Stmt} (h : Stmt.ParameterRenamed p q s s') :
      Block.ParameterRenamed p q (s :: ss) (s' :: ss)
  | later {s : Stmt} {ss ss' : List Stmt} (h : Block.ParameterRenamed p q ss ss') :
      Block.ParameterRenamed p q (s :: ss) (s :: ss')
end

/-- the same cause, or the one that names `q` instead of `p` -/
inductive Cause.Renamed (p q : Bytes) : Cause → Cause → Prop
  | same (c : Cause) : Renamed p q c c
  | notCallable (type : TypeName) : Renamed p q (.notCallable p type) (.notCallable q type)
  | alreadyDeclared : Renamed p q (.alreadyDeclared p) (.alreadyDeclared q)

theorem Cause.Renamed.kind_eq {p q : Bytes} {c c' : Cause} (h : c.Renamed p q c') : c.kind = c'.kind := by
  cases h <;> rfl

/-! ## Trees that stand for one another -/

namespace Pairing

variable {p q : Bytes}

/-- runs of which the second may name `q` where the first one names `p` -/
def instead (p q : Bytes) : Pairing where
  token t t' := t = t'
  name _ := True
  cause c c' := c.Renamed p q c'
  ordinary c _ := .same c

mutual
/-- an expression stands for the one that has the names of a scope -/
theorem exprRel_mapNames {σ : (instead p q).Scope} : (e : Expr) → (∀ x ∈ e.names, σ.name x) →
    (instead p q).ExprRel σ e (e.mapNames σ.rename)
  | .numeral _ _, _ => .numeral rfl
  | .boolean _ _, _ => .boolean rfl
  | .variable _ x, h => .variable rfl (h x (by simp [Expr.names]))
  | .unary _ _ e, h => .unary rfl (fun _ => .same _) (exprRel_mapNames e h)
  | .binary _ _ l r, h => by
    have hl := exprRel_mapNames l fun x hx => h x (by simp [Expr.names, hx])
    have hr := exprRel_mapNames r fun x hx => h x (by simp [Expr.names, hx])
    exact .binary rfl (fun _ => .same _) hl hr
  | .conditional _ c y n, h => by
    have hc := exprRel_mapNames c fun x hx => h x (by simp [Expr.names, hx])
    have hy := exprRel_mapNames y fun x hx => h x (by simp [Expr.names, hx])
    have hn := exprRel_mapNames n fun x hx => h x (by simp [Expr.names, hx])
    exact .conditional rfl hc hy hn
  | .call _ f args, h => by
    have hargs := exprsRel_mapNames args fun x hx => h x (by simp [Expr.names, hx])
    exact .call rfl (h f (by simp [Expr.names])) hargs
  | .array _ items, h => .array rfl (exprsRel_mapNames items h)
  | .subscript _ a i, h => by
    have ha := exprRel_mapNames a fun x hx => h x (by simp [Expr.names, hx])
    have hi := exprRel_mapNames i fun x hx => h x (by simp [Expr.names, hx])
    exact .subscript rfl ha hi
  | .missing, _ => .missing rfl (.same _)

theorem exprsRel_mapNames {σ : (instead p q).Scope} : (es : List Expr) → (∀ x ∈ Expr.namesAll es, σ.name x) →
    (instead p q).ExprsRel σ es (Expr.mapNamesAll σ.rename es)
  | [], _ => .nil
  | e :: es, h => by
    have he := exprRel_mapNames e fun x hx => h x (by simp [Expr.namesAll, hx])
    have hes := exprsRel_mapNames es fun x hx => h x (by simp [Expr.namesAll, hx])
    exact .cons he hes
end

theorem exprRel_self (e : Expr) : (instead p q).ExprRel (instead p q).outer e e := by
  have h : (instead p q).ExprRel (instead p q).outer e (e.mapNames id) := exprRel_mapNames e fun _ _ => trivial
  rwa [Expr.mapNames_id] at h

/-- a function stands for itself -/
theorem functionRel_self (ps : List Bytes) (e : Expr) : (instead p q).FunctionRel ps e ps e :=
  .of_outer (.inr fun _ _ => .same _) (exprRel_self e)

mutual
theorem stmtRel_self : (s : Stmt) → (instead p q).StmtRel s s
  | .declare _ _ e => .declare rfl trivial (exprRel_self e)
  | .assign _ _ e => .assign rfl trivial (exprRel_self e)
  | .print _ e => .print rfl (exprRel_self e)
  | .loop _ c body => .loop rfl (exprRel_self c) (blockRel_self body)
  | .function _ _ ps e => .function rfl trivial (functionRel_self ps e)
  | .missing => .missing rfl (.same _)

theorem blockRel_self : (ss : List Stmt) → (instead p q).BlockRel ss ss
  | [] => .nil
  | s :: ss => .cons (stmtRel_self s) (blockRel_self ss)
end

/-- the scope of a body that does not use the name `q`: there `p` is called `q` -/
def inner (p q : Bytes) : (instead p q).Scope where
  name x := x ≠ q
  rename := Bytes.instead p q
  notCallable x type _ := by
    by_cases hx : x = p
    · rw [hx, Bytes.instead, if_pos rfl]
      exact .notCallable type
    · rw [Bytes.instead, if_neg hx]
      exact .same _

theorem instead_injective {x y : Bytes} (hx : x ≠ q) (hy : y ≠ q) (h : Bytes.instead p q x = Bytes.instead p q y) :
    x = y := by
  unfold Bytes.instead at h
  split at h <;> split at h
  · simp_all
  · exact absurd h.symm hy
  · exact absurd h hx
  · exact h

/-- a function whose parameter `p` is called `q` -/
theorem functionRel_instead {ps : List Bytes} {e : Expr} (hp : p ∈ ps) (hq : q ∉ ps) (he : q ∉ e.names) :
    (instead p q).FunctionRel ps e (ps.map (Bytes.instead p q)) (e.mapNames (Bytes.instead p q)) := by
  have hparameter : ∀ x ∈ ps, x ≠ q := fun x hx e => hq (e ▸ hx)
  refine .mk (σ := inner p q) ?_ ?_ (.inr fun x _ => ?_) ?_
  · intro x _ hx
    have hne : x ≠ p := fun e => hx (e ▸ hp)
    exact ⟨trivial, if_neg hne⟩
  · intro x hx y hy hxy
    have hne : x ≠ q := hx.elim id (hparameter x)
    exact instead_injective hne (hparameter y hy) hxy
  · by_cases hx : x = p
    · rw [hx]
      show Cause.Renamed p q _ (.alreadyDeclared (Bytes.instead p q p))
      rw [Bytes.instead, if_pos rfl]
      exact .alreadyDeclared
    · show Cause.Renamed p q _ (.alreadyDeclared (Bytes.instead p q x))
      rw [Bytes.instead, if_neg hx]
      exact .same _
  · exact exprRel_mapNames e fun x hx => (fun hxq => he (hxq ▸ hx) : x ≠ q)

mutual
theorem stmtRel_of_parameterRenamed : {s s' : Stmt} → s.ParameterRenamed p q s' → (instead p q).StmtRel s s'
  | _, _, .function hp hq he => .function rfl trivial (functionRel_instead hp hq he)
  | .loop _ c _, _, .loop h => .loop rfl (exprRel_self c) (blockRel_of_parameterRenamed h)

theorem blockRel_of_parameterRenamed : {ss ss' : List Stmt} → Block.ParameterRenamed p q ss ss' →
    (instead p q).BlockRel ss ss'
  | _, _, .here h => .cons (stmtRel_of_parameterRenamed h) (blockRel_self _)
  | _, _, .later h => .cons (stmtRel_self _) (blockRel_of_parameterRenamed h)
end

end Pairing

/-! ## Programs -/

/-- runs that end alike: they print the same, and if they fail, they do so at the same place and for the same kind of
cause, of which the second may name `q` instead of `p` -/
inductive Outcome.Alike (p q : Bytes) : Outcome → Outcome → Prop
  | done {w w' : World} (houtput : w.output = w'.output) : Alike p q (.done w) (.done w')
  | failed {d d' : Diagnostic} {w w' : World} (hkind : d.cause.kind = d'.cause.kind)
      (hlocation : d.location = d'.location) (hcause : d.cause.Renamed p q d'.cause) (houtput : w.output = w'.output) :
      Alike p q (.failed d w) (.failed d' w')
  | unfinished {w w' : World} (houtput : w.output = w'.output) : Alike p q (.unfinished w) (.unfinished w')

theorem Pairing.OutcomeRel.alike {p q : Bytes} {o o' : Outcome} (h : (instead p q).OutcomeRel o o') :
    o.Alike p q o' := by
  have houtput : ∀ {w w' : World}, (instead p q).WorldRel w w' → w.output = w'.output := by
    intro w w' hw
    rw [World.output, World.output, hw.printed]
  cases h with
  | done hw => exact .done (houtput hw)
  | unfinished hw => exact .unfinished (houtput hw)
  | failed hd hw =>
    cases hd with
    | @mk c c' t t' hc ht =>
      have hcause : c.Renamed p q c' := by
        rcases hc with hc | ⟨rfl, -⟩
        · exact hc
        · exact .same _
      cases ht
      exact .failed hcause.kind_eq rfl hcause (houtput hw)

/-- **What a parameter is called changes nothing.** Let `q` be no parameter of a function and no name in its body, and
let the function's parameter `p` be called `q` in both. The program with this function instead prints the same within
all limits and ends alike, whatever else in it is called `p` or `q`. -/
theorem Block.parameter_name_changes_nothing {p q : Bytes} {b b' : Block} (h : Block.ParameterRenamed p q b b')
    (limits : Limits) : (b.run limits).Alike p q (b'.run limits) :=
  (Pairing.outcomeRel_execAll limits b (Pairing.blockRel_of_parameterRenamed h) (Pairing.worldRel_initial _)).alike

/-- declares `f(p, x) = p(x)` in a loop, calls it with a function, and then with a global variable `q` that is none -/
def Block.callsParameter (p : Bytes) : Block :=
  [.declare .unplaced (bytes "q") (.boolean .unplaced true),
    .loop .unplaced (.variable .unplaced (bytes "q"))
      [.function .unplaced (bytes "f") [p, bytes "x"] (.call .unplaced p [.variable .unplaced (bytes "x")]),
        .assign .unplaced (bytes "q") (.boolean .unplaced false)],
    .function .unplaced (bytes "g") [bytes "p"] (.array .unplaced [.variable .unplaced (bytes "p")]),
    .print .unplaced (.call .unplaced (bytes "f") [.variable .unplaced (bytes "g"), .variable .unplaced (bytes "q")]),
    .print .unplaced (.call .unplaced (bytes "f") [.variable .unplaced (bytes "q"), .variable .unplaced (bytes "q")])]

/-- Both programs print one line and fail at the call of the parameter, which they name differently. -/
theorem Block.parameter_name_changes_nothing_callee :
    Block.ParameterRenamed (bytes "p") (bytes "q") (callsParameter (bytes "p")) (callsParameter (bytes "q")) ∧
    ∃ d d' w w', (callsParameter (bytes "p")).run ⟨9, 9⟩ = .failed d w ∧
      (callsParameter (bytes "q")).run ⟨9, 9⟩ = .failed d' w' ∧ d.cause = .notCallable (bytes "p") .boolean ∧
      d'.cause = .notCallable (bytes "q") .boolean ∧ w.output = bytes "[false]\n" ∧ w'.output = bytes "[false]\n" := by
  have hrenamed : Block.ParameterRenamed (bytes "p") (bytes "q") (callsParameter (bytes "p"))
      (callsParameter (bytes "q")) :=
    .later (.here (.loop (.here (.function (by decide +kernel) (by decide +kernel) (by decide +kernel)))))
  have hrun : ((callsParameter (bytes "p")).run ⟨9, 9⟩).diagnostic?.map (·.cause) =
      some (.notCallable (bytes "p") .boolean) ∧
      ((callsParameter (bytes "p")).run ⟨9, 9⟩).world.output = bytes "[false]\n" := by decide +kernel
  have hrun' : ((callsParameter (bytes "q")).run ⟨9, 9⟩).diagnostic?.map (·.cause) =
      some (.notCallable (bytes "q") .boolean) := by decide +kernel
  refine ⟨hrenamed, ?_⟩
  have halike := Block.parameter_name_changes_nothing hrenamed ⟨9, 9⟩
  generalize (callsParameter (bytes "p")).run ⟨9, 9⟩ = o, (callsParameter (bytes "q")).run ⟨9, 9⟩ = o' at *
  cases halike with
  | done => cases hrun.1
  | unfinished => cases hrun.1
  | failed _ _ _ houtput =>
    exact ⟨_, _, _, _, rfl, rfl, Option.some.inj hrun.1, Option.some.inj hrun', hrun.2, houtput ▸ hrun.2⟩

end Treewalk
