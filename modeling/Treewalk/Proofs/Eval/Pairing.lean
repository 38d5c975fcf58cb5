/-
Two evaluations side by side.

A pairing says what two runs may differ in and how they may fail: which tokens stand for one another, which names the
programs use, and which causes the failures of expressions may have. From this follows when trees, values and worlds
stand for one another: they have the same shape, closures belong to the root frame and that frame is live. Only in the
body of a function may names differ, where its parameters are called otherwise; a scope says how (`Scope`). A pairing
can also put a run beside itself, and then it is an invariant of that run.

`Steps σ frame R x y` says that two steps do the same side by side: from worlds that stand for one another, seen from a
frame where names mean the same under `σ`, they come to such worlds, and both give a value, the two related by `R`, or
both fail for reasons that the pairing admits. Expressions that stand for one another do the same
(`Pairing.steps_eval`): by induction on the tree, and for calls on the limit.
-/
import Mathlib.Data.List.Forall2
import Treewalk.Proofs.Eval.Closed
import Treewalk.Proofs.Eval.Frames
import Treewalk.Proofs.Eval.Growth
import Treewalk.Proofs.Eval.Texts

namespace Treewalk

/-- failures that expressions can always have -/
def ErrorKind.ordinary : ErrorKind → Bool
  | .unboundVariable | .type | .notCallable | .arityMismatch | .indexOutOfRange | .stackOverflow => true
  | .syntactic | .redeclaration | .unknownOperator | .runtime => false

structure Pairing where
  /-- tokens that stand for one another -/
  token : Token → Token → Prop
  /-- names that the programs use -/
  name : Bytes → Prop
  /-- why expressions may fail in the one run and in the other -/
  cause : Cause → Cause → Prop
  ordinary : ∀ c : Cause, c.kind.ordinary = true → cause c c

namespace Pairing

variable (S : Pairing)

/-- failures at tokens that stand for one another -/
inductive FailureRel : Diagnostic → Diagnostic → Prop
  | mk {c c' : Cause} {t t' : Token} (hc : S.cause c c') (ht : S.token t t') :
      FailureRel ⟨c, t.location⟩ ⟨c', t'.location⟩

/-- the names that expressions use in a frame, and what they are called in the other run -/
structure Scope where
  name : Bytes → Prop
  rename : Bytes → Bytes
  notCallable : ∀ x type, name x → S.cause (.notCallable x type) (.notCallable (rename x) type)

/-- the scope of statements: names are the same in both runs -/
def outer : S.Scope := ⟨S.name, id, fun _ _ _ => S.ordinary _ rfl⟩

/-- the names differ, or a call that binds them may fail -/
def Binds (rename : Bytes → Bytes) (ps : List Bytes) : Prop :=
  ps.Nodup ∨ ∀ x ∈ ps, S.cause (.alreadyDeclared x) (.alreadyDeclared (rename x))

mutual
/-- expressions of one shape; an operator that is unknown must be one that may fail -/
inductive ExprRel (σ : S.Scope) : Expr → Expr → Prop
  | numeral {t t' : Token} {x : Number} (ht : S.token t t') : ExprRel σ (.numeral t x) (.numeral t' x)
  | boolean {t t' : Token} {b : Bool} (ht : S.token t t') : ExprRel σ (.boolean t b) (.boolean t' b)
  | variable {t t' : Token} {x : Bytes} (ht : S.token t t') (hx : σ.name x) :
      ExprRel σ (.variable t x) (.variable t' (σ.rename x))
  | unary {t t' : Token} {op : Bytes} {e e' : Expr} (ht : S.token t t')
      (hop : UnaryOp.ofText? op = none → S.cause (.unknownUnary op) (.unknownUnary op)) (he : ExprRel σ e e') :
      ExprRel σ (.unary t op e) (.unary t' op e')
  | binary {t t' : Token} {op : Bytes} {l l' r r' : Expr} (ht : S.token t t')
      (hop : BinaryOp.ofText? op = none → S.cause (.unknownBinary op) (.unknownBinary op)) (hl : ExprRel σ l l')
      (hr : ExprRel σ r r') : ExprRel σ (.binary t op l r) (.binary t' op l' r')
  | conditional {t t' : Token} {c c' y y' n n' : Expr} (ht : S.token t t') (hc : ExprRel σ c c') (hy : ExprRel σ y y')
      (hn : ExprRel σ n n') : ExprRel σ (.conditional t c y n) (.conditional t' c' y' n')
  | call {t t' : Token} {f : Bytes} {args args' : List Expr} (ht : S.token t t') (hf : σ.name f)
      (hargs : ExprsRel σ args args') : ExprRel σ (.call t f args) (.call t' (σ.rename f) args')
  | array {t t' : Token} {items items' : List Expr} (ht : S.token t t') (hitems : ExprsRel σ items items') :
      ExprRel σ (.array t items) (.array t' items')
  | subscript {t t' : Token} {a a' i i' : Expr} (ht : S.token t t') (ha : ExprRel σ a a') (hi : ExprRel σ i i') :
      ExprRel σ (.subscript t a i) (.subscript t' a' i')
  | missing (ht : S.token .unplaced .unplaced) (hc : S.cause .missingPart .missingPart) : ExprRel σ .missing .missing

inductive ExprsRel (σ : S.Scope) : List Expr → List Expr → Prop
  | nil : ExprsRel σ [] []
  | cons {e e' : Expr} {es es' : List Expr} (he : ExprRel σ e e') (hes : ExprsRel σ es es') :
      ExprsRel σ (e :: es) (e' :: es')
end

/-- functions that do the same: names in the body that are no parameters are those of the root frame, and parameters are
told from all other names in both runs -/
inductive FunctionRel : List Bytes → Expr → List Bytes → Expr → Prop
  | mk {σ : S.Scope} {ps : List Bytes} {e e' : Expr} (houter : ∀ x, σ.name x → x ∉ ps → S.name x ∧ σ.rename x = x)
      (hdiffer : ∀ x, σ.name x ∨ x ∈ ps → ∀ p ∈ ps, σ.rename x = σ.rename p → x = p) (hbinds : S.Binds σ.rename ps)
      (he : S.ExprRel σ e e') : FunctionRel ps e (ps.map σ.rename) e'

/-- closures of the root frame with one name -/
structure ClosureRel (f f' : Closure) : Prop where
  name : f.name = f'.name
  function : S.FunctionRel f.parameters f.body f'.parameters f'.body
  frame : f.frame = some World.root
  frame' : f'.frame = some World.root

/-- values that differ in their closures at most -/
inductive ValueRel : Value → Value → Prop
  | number (x : Number) : ValueRel (.number x) (.number x)
  | boolean (b : Bool) : ValueRel (.boolean b) (.boolean b)
  | array (id : ArrayId) : ValueRel (.array id) (.array id)
  | native (f : Native) : ValueRel (.native f) (.native f)
  | closure {f f' : Closure} (h : S.ClosureRel f f') : ValueRel (.closure f) (.closure f')
  | noArray : ValueRel .noArray .noArray
  | noFunction : ValueRel .noFunction .noFunction

abbrev ValuesRel : List Value → List Value → Prop := List.Forall₂ S.ValueRel

/-- equally many frames, among them a live root in no other frame; the roots agree on the names that the programs use -/
structure FramesRel (fs fs' : Frames) : Prop where
  size : fs.size = fs'.size
  chain : fs.chain World.root = [World.root]
  chain' : fs'.chain World.root = [World.root]
  live : fs.isLive World.root = true
  live' : fs'.isLive World.root = true
  own? : ∀ x, S.name x → Option.Rel S.ValueRel (fs.own? x World.root) (fs'.own? x World.root)

structure WorldRel (w w' : World) : Prop where
  frames : S.FramesRel w.frames w'.frames
  size : w.heap.size = w'.heap.size
  items : ∀ id, S.ValuesRel (w.heap.items id) (w'.heap.items id)
  printed : w.printed = w'.printed

/-- the worlds seen from a frame: names mean the same there, and those that mean nothing are the same -/
structure WorldAt (σ : S.Scope) (frame : FrameId) (w w' : World) : Prop extends S.WorldRel w w' where
  sees : ∀ x, σ.name x → Option.Rel S.ValueRel (w.frames.lookup? frame x) (w'.frames.lookup? frame (σ.rename x))
  unbound : ∀ x, σ.name x → w.frames.lookup? frame x = none → σ.rename x = x

variable {S} {σ : S.Scope} {frame : FrameId} {t t' : Token} {v v' : Value} {vs vs' : List Value} {d d' : Diagnostic}

theorem FailureRel.admits (h : S.FailureRel d d') : S.cause d.cause d'.cause := by
  cases h with
  | mk hc _ => exact hc

/-- functions with the same parameters -/
theorem FunctionRel.of_outer {ps : List Bytes} {e e' : Expr} (hps : S.Binds id ps) (he : S.ExprRel S.outer e e') :
    S.FunctionRel ps e ps e' := by
  have h := FunctionRel.mk (fun x hx _ => ⟨hx, rfl⟩) (fun x _ p _ hxp => hxp) hps he
  rwa [show S.outer.rename = id from rfl, List.map_id] at h

theorem FunctionRel.length_eq {ps ps' : List Bytes} {e e' : Expr} (h : S.FunctionRel ps e ps' e') :
    ps.length = ps'.length := by
  cases h
  rw [List.length_map]

/-! ## Values -/

theorem ValueRel.typeName_eq (h : S.ValueRel v v') : v.typeName = v'.typeName := by
  cases h <;> rfl

theorem ValueRel.isFunction_eq (h : S.ValueRel v v') : v.isFunction = v'.isFunction := by
  cases h <;> rfl

/-- values that stand for one another have one text, where arrays hold such values -/
theorem ValueRel.textWithin?_eq {h h' : Heap} (hitems : ∀ id, S.ValuesRel (h.items id) (h'.items id)) (depth : Nat)
    (hv : S.ValueRel v v') : v.textWithin? h depth = v'.textWithin? h' depth := by
  induction depth generalizing v v' with
  | zero =>
    cases hv with
    | closure hf => simp only [Value.textWithin?, hf.name]
    | _ => simp only [Value.textWithin?]
  | succ depth ih =>
    cases hv with
    | closure hf => simp only [Value.textWithin?, hf.name]
    | array id =>
      have hmap : (h.items id).map (Value.textWithin? h depth) = (h'.items id).map (Value.textWithin? h' depth) := by
        rw [← List.forall₂_eq_eq_eq, List.forall₂_map_left_iff, List.forall₂_map_right_iff]
        exact (hitems id).imp fun _ _ => ih
      simp only [Value.textWithin?, mapM_eq_of_map_eq hmap]
    | _ => simp only [Value.textWithin?]

/-! ## Frames -/

namespace FramesRel

variable {fs fs' : Frames} (h : S.FramesRel fs fs')

include h

theorem hasOwn_eq {x : Bytes} (hx : S.name x) : fs.hasOwn World.root x = fs'.hasOwn World.root x := by
  have hown := h.own? x hx
  rw [Frames.hasOwn, Frames.hasOwn]
  generalize fs.own? x World.root = o, fs'.own? x World.root = o' at hown
  cases hown <;> rfl

theorem lookup? {x : Bytes} (hx : S.name x) :
    Option.Rel S.ValueRel (fs.lookup? World.root x) (fs'.lookup? World.root x) := by
  rw [Frames.lookup?_of_chain h.chain, Frames.lookup?_of_chain h.chain']
  exact h.own? x hx

theorem push (f f' : Frame) : S.FramesRel (fs.push f) (fs'.push f') := by
  have hne := Frames.ne_size_of_isLive h.live
  have hne' := Frames.ne_size_of_isLive h.live'
  refine ⟨by simp [h.size], ?_, ?_, fs.isLive_push h.live _, fs'.isLive_push h.live' _, ?_⟩
  · rw [Frames.chain_push, if_neg hne, h.chain]
  · rw [Frames.chain_push, if_neg hne', h.chain']
  · intro x hx
    rw [Frames.own?_push, Frames.own?_push, if_neg hne, if_neg hne']
    exact h.own? x hx

/-- names in a new frame inside the root: those that it binds mean the same if they are bound to the same, and others
must be names of the root -/
theorem lookup?_push {b b' : Bindings} {x x' : Bytes} (hb : Option.Rel S.ValueRel (b.lookup x) (b'.lookup x'))
    (hroot : b.lookup x = none → S.name x ∧ x' = x) :
    Option.Rel S.ValueRel (Frames.lookup? (fs.push ⟨fs.chain World.root, b, true⟩) fs.size x)
      (Frames.lookup? (fs'.push ⟨fs'.chain World.root, b', true⟩) fs'.size x') ∧
    (Frames.lookup? (fs.push ⟨fs.chain World.root, b, true⟩) fs.size x = none → x' = x) := by
  have hold : ∀ {fs : Frames}, fs.chain World.root = [World.root] → fs.isLive World.root = true →
      fs.size ∉ fs.chain World.root := by
    intro fs hchain hlive hmem
    rw [hchain, List.mem_singleton] at hmem
    exact Frames.ne_size_of_isLive hlive hmem.symm
  rw [Frames.lookup?_push _ _ (hold h.chain h.live), Frames.lookup?_push _ _ (hold h.chain' h.live')]
  generalize ho : b.lookup x = o, b'.lookup x' = o' at hb
  cases hb with
  | some hv => exact ⟨.some hv, nofun⟩
  | none =>
    obtain ⟨hx, rfl⟩ := hroot ho
    exact ⟨h.lookup? hx, fun _ => rfl⟩

theorem declare {x : Bytes} (hv : S.ValueRel v v') :
    S.FramesRel (fs.rebind World.root ((x, v) :: ·)) (fs'.rebind World.root ((x, v') :: ·)) := by
  refine ⟨by simp [h.size], by simp [h.chain], by simp [h.chain'], by simp [h.live], by simp [h.live'], ?_⟩
  intro y hy
  rw [Frames.own?_declare, Frames.own?_declare, h.size]
  split
  · exact .some hv
  · exact h.own? y hy

theorem assign {x : Bytes} (hv : S.ValueRel v v') :
    S.FramesRel (fs.rebind World.root (·.set x v)) (fs'.rebind World.root (·.set x v')) := by
  refine ⟨by simp [h.size], by simp [h.chain], by simp [h.chain'], by simp [h.live], by simp [h.live'], ?_⟩
  intro y hy
  have hown := h.own? y hy
  rw [Frames.own?_assign, Frames.own?_assign]
  split
  · generalize fs.own? y World.root = o, fs'.own? y World.root = o' at hown
    cases hown with
    | none => exact .none
    | some _ => exact .some hv
  · exact hown

end FramesRel

/-! ## Worlds -/

namespace WorldRel

variable {w w' : World} (h : S.WorldRel w w')

include h

theorem push (hvs : S.ValuesRel vs vs') :
    S.WorldRel { w with heap := w.heap.push vs } { w' with heap := w'.heap.push vs' } := by
  refine ⟨h.frames, by simp [h.size], ?_, h.printed⟩
  intro id
  simp only [Heap.items_push, h.size]
  split
  · exact hvs
  · exact h.items id

theorem text?_eq (hv : S.ValueRel v v') : v.text? w.heap = v'.text? w'.heap := by
  rw [Value.text?, Value.text?, h.size]
  exact hv.textWithin?_eq h.items _

theorem print (line : Bytes) : S.WorldRel (w.print line) (w'.print line) :=
  ⟨h.frames, h.size, h.items, congrArg (line :: ·) h.printed⟩

/-- from the root frame, names mean the same -/
theorem atRoot : S.WorldAt S.outer World.root w w' := ⟨h, fun _ hx => h.frames.lookup? hx, fun _ _ _ => rfl⟩

end WorldRel

/-- the world that every program starts in stands for itself -/
theorem worldRel_initial (S : Pairing) : S.WorldRel .initial .initial := by
  have hbuiltin : ∀ p ∈ builtins, S.ValueRel p.2 p.2 := by
    simp only [builtins, List.forall_mem_cons]
    -- six natives and a number
    exact ⟨.native _, .native _, .native _, .native _, .native _, .native _, .number _, List.forall_mem_nil _⟩
  have hlive : World.initial.frames.isLive World.root = true := by decide +kernel
  have hchain : World.initial.frames.chain World.root = [World.root] := by decide +kernel
  refine ⟨⟨rfl, hchain, hchain, hlive, hlive, ?_⟩, rfl, ?_, rfl⟩
  · intro x _
    cases hv : World.initial.frames.own? x World.root with
    | none => exact .none
    | some v =>
      rcases Frames.own?_declareAll hv with hempty | ⟨y, hy⟩
      · simp [Frames.own?, World.root] at hempty
      · exact .some (hbuiltin _ hy)
  · intro id
    have hempty : World.initial.heap.items id = [] := by simp [World.initial, Heap.items]
    rw [hempty]
    exact .nil

/-! ## Steps -/

variable {α β : Type} {R : α → α → Prop} {Q : β → β → Prop}

/-- two values, or two failures -/
inductive Answers (S : Pairing) (R : α → α → Prop) : Except Diagnostic α → Except Diagnostic α → Prop
  | ok {a a' : α} (h : R a a') : Answers S R (.ok a) (.ok a')
  | error {d d' : Diagnostic} (h : S.FailureRel d d') : Answers S R (.error d) (.error d')

/-- steps that do the same side by side, in a frame where names mean the same -/
def Steps (S : Pairing) (σ : S.Scope) (frame : FrameId) (R : α → α → Prop) (x y : Eval α) : Prop :=
  ∀ w w', S.WorldAt σ frame w w' →
    S.WorldAt σ frame (x.runIn w).2 (y.runIn w').2 ∧ S.Answers R (x.runIn w).1 (y.runIn w').1

theorem Steps.pure {a a' : α} (h : R a a') : S.Steps σ frame R (pure a) (pure a') := fun _ _ hw => ⟨hw, .ok h⟩

theorem Steps.fail (ht : S.token t t') {c c' : Cause} (hc : S.cause c c') :
    S.Steps σ frame R (Eval.fail t c) (Eval.fail t' c') :=
  fun _ _ hw => ⟨hw, .error (.mk hc ht)⟩

/-- one step after another -/
theorem Steps.bind {x y : Eval α} {k k' : α → Eval β} (h : S.Steps σ frame R x y)
    (hk : ∀ a a', R a a' → S.Steps σ frame Q (k a) (k' a')) : S.Steps σ frame Q (x >>= k) (y >>= k') := by
  intro w w' hw
  rcases hx : x.runIn w with ⟨r, w₁⟩
  rcases hy : y.runIn w' with ⟨r', w₁'⟩
  obtain ⟨hworld, hanswer⟩ : S.WorldAt σ frame w₁ w₁' ∧ S.Answers R r r' := by simpa only [hx, hy] using h w w' hw
  cases hanswer with
  | ok ha =>
    rw [Eval.runIn_bind_ok hx, Eval.runIn_bind_ok hy]
    exact hk _ _ ha w₁ w₁' hworld
  | error hd =>
    rw [Eval.runIn_bind_error hx, Eval.runIn_bind_error hy]
    exact ⟨hworld, .error hd⟩

theorem steps_number (ht : S.token t t') (role : Role) (hv : S.ValueRel v v') :
    S.Steps σ frame Eq (Eval.number t role v) (Eval.number t' role v') := by
  cases hv with
  | number x => exact .pure rfl
  | _ => exact .fail ht (S.ordinary _ rfl)

theorem steps_boolean (ht : S.token t t') (role : Role) (hv : S.ValueRel v v') :
    S.Steps σ frame Eq (Eval.boolean t role v) (Eval.boolean t' role v') := by
  cases hv with
  | boolean b => exact .pure rfl
  | _ => exact .fail ht (S.ordinary _ rfl)

theorem steps_lookup (ht : S.token t t') {x : Bytes} (hx : σ.name x) :
    S.Steps σ frame S.ValueRel (Eval.lookup t frame x) (Eval.lookup t' frame (σ.rename x)) := by
  intro w w' hw
  have hvalue := hw.sees x hx
  have hunbound := hw.unbound x hx
  rw [Eval.runIn_lookup, Eval.runIn_lookup]
  refine ⟨hw, ?_⟩
  generalize w.frames.lookup? frame x = o, w'.frames.lookup? frame (σ.rename x) = o' at hvalue hunbound
  cases hvalue with
  | none =>
    rw [hunbound rfl]
    exact .error (.mk (S.ordinary _ rfl) ht)
  | some hv => exact .ok hv

theorem steps_items (id : ArrayId) : S.Steps σ frame S.ValuesRel (Eval.items id) (Eval.items id) := by
  intro w w' hw
  rw [Eval.runIn_items, Eval.runIn_items]
  exact ⟨hw, .ok (hw.items id)⟩

theorem steps_array (hvs : S.ValuesRel vs vs') : S.Steps σ frame S.ValueRel (Eval.array vs) (Eval.array vs') := by
  intro w w' hw
  rw [Eval.runIn_array, Eval.runIn_array, ← hw.size]
  exact ⟨⟨hw.toWorldRel.push hvs, hw.sees, hw.unbound⟩, .ok (.array _)⟩

variable {f f' : Closure}

/-- the root frame is always live, so no closure has lost its frame -/
theorem steps_scope (t t' : Token) (hf : S.ClosureRel f f') :
    S.Steps σ frame (fun i i' => i = World.root ∧ i' = World.root) (Eval.scope t f) (Eval.scope t' f') := by
  intro w w' hw
  rw [Eval.runIn_scope, Eval.runIn_scope, hf.frame, hf.frame', Option.filter_some, Option.filter_some,
    if_pos hw.frames.live, if_pos hw.frames.live']
  exact ⟨hw, .ok ⟨rfl, rfl⟩⟩

/-- what is done in a new frame inside the root, where names mean the same in another scope -/
theorem steps_withFrame {pairs pairs' : List (Bytes × Value)} {τ : S.Scope} {b b' : Bindings}
    (hok : Bindings.ofList pairs = .ok b) (hok' : Bindings.ofList pairs' = .ok b')
    (hb : ∀ x, τ.name x → Option.Rel S.ValueRel (b.lookup x) (b'.lookup (τ.rename x)))
    (hroot : ∀ x, τ.name x → b.lookup x = none → S.name x ∧ τ.rename x = x) {body body' : FrameId → Eval α}
    (hgrows : ∀ i (w : World), w.Grows ((body i).runIn w).2) (hgrows' : ∀ i (w : World), w.Grows ((body' i).runIn w).2)
    (hbody : ∀ i, S.Steps τ i R (body i) (body' i)) :
    S.Steps σ frame R (Eval.withFrame t World.root pairs body) (Eval.withFrame t' World.root pairs' body') := by
  intro w w' hw
  have hin : S.WorldAt τ w.frames.size (w.enter World.root b) (w'.enter World.root b') := by
    have hsees := fun x hx => hw.frames.lookup?_push (hb x hx) (hroot x hx)
    rw [← hw.frames.size] at hsees
    exact ⟨⟨hw.frames.push _ _, hw.size, hw.items, hw.printed⟩, fun x hx => (hsees x hx).1, fun x hx => (hsees x hx).2⟩
  obtain ⟨hworld, hanswer⟩ := hbody w.frames.size _ _ hin
  rw [Eval.runIn_withFrame_of_ok _ _ hok, Eval.runIn_withFrame_of_ok _ _ hok', ← hw.frames.size]
  -- the frames are those before the call again
  have hframes := (hgrows w.frames.size (w.enter World.root b)).leave.frames
  have hframes' := (hgrows' w.frames.size (w'.enter World.root b')).leave.frames
  refine ⟨⟨⟨?_, hworld.size, hworld.items, hworld.printed⟩, ?_, ?_⟩, hanswer⟩
  · rw [hframes, hframes']
    exact hw.frames
  · rw [hframes, hframes']
    exact hw.sees
  · rw [hframes]
    exact hw.unbound

/-- names that cannot be bound together fail on both sides -/
theorem steps_withFrame_of_clash (ht : S.token t t') {pairs pairs' : List (Bytes × Value)} {x x' : Bytes}
    (hb : Bindings.ofList pairs = .error x) (hb' : Bindings.ofList pairs' = .error x')
    (hcause : S.cause (.alreadyDeclared x) (.alreadyDeclared x')) {parent parent' : FrameId}
    {body body' : FrameId → Eval α} :
    S.Steps σ frame R (Eval.withFrame t parent pairs body) (Eval.withFrame t' parent' pairs' body') := by
  intro w w' hw
  rw [Eval.runIn_withFrame_of_error _ _ hb, Eval.runIn_withFrame_of_error _ _ hb']
  exact Steps.fail ht hcause w w' hw

/-! ## Expressions -/

theorem ordinary_of_index_error {x : Number} {n : Nat} {c : Cause} (h : x.index n = .error c) :
    c.kind.ordinary = true := by
  unfold Number.index at h
  split at h
  · split_ifs at h <;> cases h <;> rfl
  · cases h
    rfl

theorem steps_item (ht : S.token t t') (hvs : S.ValuesRel vs vs') (hv : S.ValueRel v v') :
    S.Steps σ frame S.ValueRel (Value.item t vs v) (Value.item t' vs' v') := by
  cases hv with
  | number x =>
    have hlength := hvs.length_eq
    simp only [Value.item, Eval.index_eq_cast hlength.symm x]
    cases hi : x.index vs.length with
    | error c => exact .fail ht (S.ordinary _ (ordinary_of_index_error hi))
    | ok i => exact .pure (hvs.get i.2 (hlength ▸ i.2))
  | _ => exact .fail ht (S.ordinary _ rfl)

theorem steps_nativeArguments (ht : S.token t t') (callee : Bytes) (hvs : S.ValuesRel vs vs') (i : Nat) :
    S.Steps σ frame Eq (nativeArguments t callee i vs) (nativeArguments t' callee i vs') := by
  induction hvs generalizing i with
  | nil => exact .pure rfl
  | cons hv _ ih =>
    refine (steps_number ht _ hv).bind ?_
    rintro x _ rfl
    refine (ih (i + 1)).bind ?_
    rintro xs _ rfl
    exact .pure rfl

/-- calls of closures, with as many arguments as they take, that do the same side by side -/
def CallRel (S : Pairing) (call call' : Call) : Prop := ∀ {σ : S.Scope} {frame f f' vs vs' t t'}, S.ClosureRel f f' →
  S.ValuesRel vs vs' → vs.length = f.parameters.length → S.token t t' →
    S.Steps σ frame S.ValueRel (call f vs t) (call' f' vs' t')

variable {call call' : Call}

theorem steps_applyFunction (hcall : S.CallRel call call') (ht : S.token t t') (hv : S.ValueRel v v') {x : Bytes}
    (hx : σ.name x) (hvs : S.ValuesRel vs vs') :
    S.Steps σ frame S.ValueRel (applyFunction call t v x vs) (applyFunction call' t' v' (σ.rename x) vs') := by
  cases hv with
  | native n =>
    simp only [applyFunction, hvs.length_eq]
    split
    · refine (steps_nativeArguments ht n.name hvs 1).bind ?_
      rintro xs _ rfl
      exact .pure (.number _)
    · exact .fail ht (S.ordinary _ rfl)
  | closure hf =>
    have hlength := hf.function.length_eq
    simp only [applyFunction, hvs.length_eq, ← hlength, hf.name]
    split
    case isTrue h => exact hcall hf hvs (hvs.length_eq.trans h) ht
    case isFalse => exact .fail ht (S.ordinary _ rfl)
  | _ => exact .fail ht (σ.notCallable x _ hx)

section Operands

variable {x x' y y' : Eval Value}

/-- an operand that must be a truth value -/
theorem steps_decide (ht : S.token t t') (role : Role) (h : S.Steps σ frame S.ValueRel x x') :
    S.Steps σ frame S.ValueRel
    (do let v ← x; let b ← Eval.boolean t role v; pure (.boolean b))
    (do let v ← x'; let b ← Eval.boolean t' role v; pure (.boolean b)) := by
  refine h.bind fun v v' hv => (steps_boolean ht _ hv).bind ?_
  rintro b _ rfl
  exact .pure (.boolean b)

/-- two operands that must be numbers -/
theorem steps_compute (ht : S.token t t') (left right : Role) (h : S.Steps σ frame S.ValueRel x x')
    (h' : S.Steps σ frame S.ValueRel y y') {k : Number → Number → Value} (hk : ∀ a b, S.ValueRel (k a b) (k a b)) :
    S.Steps σ frame S.ValueRel
      (do let v ← x; let w ← y; let a ← Eval.number t left v; let b ← Eval.number t right w; pure (k a b))
      (do let v ← x'; let w ← y'; let a ← Eval.number t' left v; let b ← Eval.number t' right w; pure (k a b)) := by
  refine h.bind fun v v' hv => h'.bind fun w w' hw => (steps_number ht _ hv).bind ?_
  rintro a _ rfl
  refine (steps_number ht _ hw).bind ?_
  rintro b _ rfl
  exact .pure (hk a b)

end Operands

mutual
/-- evaluation does the same side by side if calls do -/
theorem steps_evalWith (hcall : S.CallRel call call') (frame : FrameId) : (e : Expr) → ∀ {e'}, S.ExprRel σ e e' →
    S.Steps σ frame S.ValueRel (e.evalWith call frame) (e'.evalWith call' frame)
  | .numeral _ x, _, h => by
    cases h
    rw [Expr.evalWith, Expr.evalWith]
    exact .pure (.number x)
  | .boolean _ b, _, h => by
    cases h
    rw [Expr.evalWith, Expr.evalWith]
    exact .pure (.boolean b)
  | .variable _ x, _, .variable ht hx => by
    rw [Expr.evalWith, Expr.evalWith]
    exact steps_lookup ht hx
  | .unary _ op e, _, h => by
    cases h with
    | unary ht hop he =>
      rw [Expr.evalWith, Expr.evalWith]
      have hoperand := steps_evalWith hcall frame e he
      rcases ho : UnaryOp.ofText? op with _ | _ | _
      · exact .fail ht (hop ho)
      · refine hoperand.bind fun v v' hv => (steps_number ht _ hv).bind ?_
        rintro x _ rfl
        exact .pure (.number _)
      · refine hoperand.bind fun v v' hv => (steps_boolean ht _ hv).bind ?_
        rintro b _ rfl
        exact .pure (.boolean _)
  | .binary _ op l r, _, h => by
    cases h with
    | binary ht hop hl hr =>
      rw [Expr.evalWith, Expr.evalWith]
      have hleft := steps_evalWith hcall frame l hl
      have hright := steps_evalWith hcall frame r hr
      rcases ho : BinaryOp.ofText? op with _ | _ | _ | o | o
      · exact hleft.bind fun _ _ _ => hright.bind fun _ _ _ => .fail ht (hop ho)
      · refine hleft.bind fun v v' hv => (steps_boolean ht _ hv).bind ?_
        rintro b _ rfl
        cases b
        · exact .pure (.boolean false)
        · exact steps_decide ht _ hright
      · refine hleft.bind fun v v' hv => (steps_boolean ht _ hv).bind ?_
        rintro b _ rfl
        cases b
        · exact steps_decide ht _ hright
        · exact .pure (.boolean true)
      · exact steps_compute ht _ _ hleft hright fun x y => .number (o.apply x y)
      · exact steps_compute ht _ _ hleft hright fun x y => .boolean (o.apply x y)
  | .conditional _ c y n, _, h => by
    cases h with
    | conditional ht hc hy hn =>
      rw [Expr.evalWith, Expr.evalWith]
      refine (steps_evalWith hcall frame c hc).bind fun v v' hv => (steps_boolean ht _ hv).bind ?_
      rintro b _ rfl
      cases b
      · exact steps_evalWith hcall frame n hn
      · exact steps_evalWith hcall frame y hy
  | .call _ f args, _, h => by
    cases h with
    | call ht hf hargs =>
      rw [Expr.evalWith, Expr.evalWith]
      apply (steps_lookup ht hf).bind
      intro v v' hv
      rw [hv.isFunction_eq, hv.typeName_eq]
      split
      · exact (steps_evalAllWith hcall frame args hargs).bind fun vs vs' hvs => steps_applyFunction hcall ht hv hf hvs
      · exact .fail ht (σ.notCallable _ _ hf)
  | .array _ items, _, h => by
    cases h with
    | array ht hitems =>
      rw [Expr.evalWith, Expr.evalWith]
      exact (steps_evalAllWith hcall frame items hitems).bind fun vs vs' => steps_array
  | .subscript _ a i, _, h => by
    cases h with
    | subscript ht ha hi =>
      rw [Expr.evalWith, Expr.evalWith]
      apply (steps_evalWith hcall frame a ha).bind
      intro v v' hv
      have hindex := steps_evalWith hcall frame i hi
      cases hv with
      | array id =>
        exact hindex.bind fun w w' hw => (steps_items id).bind fun vs vs' hvs => steps_item ht hvs hw
      | noArray => exact hindex.bind fun w w' hw => steps_item ht .nil hw
      | _ => exact .fail ht (S.ordinary _ rfl)
  | .missing, _, h => by
    cases h with
    | missing ht hc =>
      rw [Expr.evalWith]
      exact .fail ht hc

theorem steps_evalAllWith (hcall : S.CallRel call call') (frame : FrameId) : (es : List Expr) → ∀ {es'},
    S.ExprsRel σ es es' →
      S.Steps σ frame S.ValuesRel (Expr.evalAllWith call frame es) (Expr.evalAllWith call' frame es')
  | [], _, h => by
    cases h
    rw [Expr.evalAllWith, Expr.evalAllWith]
    exact .pure .nil
  | e :: es, _, h => by
    cases h with
    | cons he hes =>
      rw [Expr.evalAllWith, Expr.evalAllWith]
      exact (steps_evalWith hcall frame e he).bind fun v v' hv =>
        (steps_evalAllWith hcall frame es hes).bind fun vs vs' hvs => .pure (.cons hv hvs)
end

/-! ## Calls -/

/-- binding names to values that stand for one another, where each name is told from all others in both runs: both fail
at one name, or both succeed -/
theorem declareAll_rel {known : Bytes → Prop} {rename : Bytes → Bytes} {ps : List Bytes} (hknown : ∀ p ∈ ps, known p)
    (hdiffer : ∀ x, known x → ∀ p ∈ ps, rename x = rename p → x = p) (hvs : S.ValuesRel vs vs') {b b' : Bindings}
    (hb : ∀ x, known x → Option.Rel S.ValueRel (b.lookup x) (b'.lookup (rename x))) :
    (∃ x ∈ ps, b.declareAll (ps.zip vs) = .error x ∧ b'.declareAll ((ps.map rename).zip vs') = .error (rename x)) ∨
      ∃ c c', b.declareAll (ps.zip vs) = .ok c ∧ b'.declareAll ((ps.map rename).zip vs') = .ok c' ∧
        ∀ x, known x → Option.Rel S.ValueRel (c.lookup x) (c'.lookup (rename x)) := by
  induction ps generalizing vs vs' b b' with
  | nil => exact .inr ⟨b, b', rfl, rfl, hb⟩
  | cons y ps ih =>
    cases hvs with
    | nil => exact .inr ⟨b, b', rfl, rfl, hb⟩
    | @cons v v' vs vs' hv hvs =>
      have hhas : b'.has (rename y) = b.has y := by
        have hy := hb y (hknown y List.mem_cons_self)
        rw [Bindings.has, Bindings.has]
        generalize b.lookup y = o, b'.lookup (rename y) = o' at hy
        cases hy <;> rfl
      simp only [List.map_cons, List.zip_cons_cons, Bindings.declareAll, Bindings.declare?, hhas]
      cases b.has y with
      | true => exact .inl ⟨y, List.mem_cons_self, rfl, rfl⟩
      | false =>
        have hcons : ∀ x, known x →
            Option.Rel S.ValueRel (List.lookup x ((y, v) :: b)) (List.lookup (rename x) ((rename y, v') :: b')) := by
          intro x hx
          by_cases hxy : x = y
          · simp only [hxy, List.lookup_cons_self]
            exact .some hv
          · have hrename : rename x ≠ rename y := fun h => hxy (hdiffer x hx y List.mem_cons_self h)
            rw [Bindings.lookup_cons_of_ne hxy, Bindings.lookup_cons_of_ne hrename]
            exact hb x hx
        have htail := ih (fun p hp => hknown p (List.mem_cons_of_mem _ hp))
          (fun x hx p hp => hdiffer x hx p (List.mem_cons_of_mem _ hp)) hvs hcons
        rcases htail with ⟨x, hx, herror⟩ | hok
        · exact .inl ⟨x, List.mem_cons_of_mem _ hx, herror⟩
        · exact .inr hok

/-- the parameters of functions that do the same, bound to as many values that stand for one another: this fails at one
parameter, or there is a scope in which the bodies stand for one another and names mean the same -/
theorem FunctionRel.bindings {ps ps' : List Bytes} {e e' : Expr} (h : S.FunctionRel ps e ps' e')
    (hvs : S.ValuesRel vs vs') (hlength : vs.length = ps.length) :
    (∃ x x', Bindings.ofList (ps.zip vs) = .error x ∧ Bindings.ofList (ps'.zip vs') = .error x' ∧
      S.cause (.alreadyDeclared x) (.alreadyDeclared x')) ∨
    ∃ (τ : S.Scope) (b b' : Bindings), Bindings.ofList (ps.zip vs) = .ok b ∧ Bindings.ofList (ps'.zip vs') = .ok b' ∧
      S.ExprRel τ e e' ∧ (∀ x, τ.name x → Option.Rel S.ValueRel (b.lookup x) (b'.lookup (τ.rename x))) ∧
      ∀ x, τ.name x → b.lookup x = none → S.name x ∧ τ.rename x = x := by
  cases h with
  | @mk τ _ _ _ houter hdiffer hbinds he =>
    have hempty : ∀ x, τ.name x ∨ x ∈ ps →
        Option.Rel S.ValueRel (List.lookup x ([] : Bindings)) (List.lookup (τ.rename x) ([] : Bindings)) :=
      fun _ _ => .none
    rcases declareAll_rel (fun p hp => .inr hp) hdiffer hvs hempty with ⟨x, hx, hb, hb'⟩ | ⟨b, b', hb, hb', hrel⟩
    · refine .inl ⟨x, τ.rename x, hb, hb', ?_⟩
      -- names that differ can be bound, so here the pairing admits the failure
      rcases hbinds with hnodup | hadmits
      · obtain ⟨b, hok⟩ := Bindings.exists_declareAll hnodup vs fun x _ => (rfl : List.lookup x [] = none)
        rw [hb] at hok
        cases hok
      · exact hadmits x hx
    · refine .inr ⟨τ, b, b', hb, hb', he, fun x hx => hrel x (.inl hx), fun x hx hnone => houter x hx fun hmem => ?_⟩
      -- all parameters are bound
      have hzip : (ps.zip vs).map Prod.fst = ps := List.map_fst_zip (by rw [hlength])
      rw [Bindings.declareAll_eq hb, List.append_nil, List.lookup_eq_none_iff] at hnone
      rw [← hzip, List.mem_map] at hmem
      obtain ⟨p, hp, rfl⟩ := hmem
      simpa using hnone p (List.mem_reverse.2 hp)

theorem callRel_callWithin (S : Pairing) (limit : Nat) : S.CallRel (callWithin limit) (callWithin limit) := by
  induction limit with
  | zero =>
    intro σ frame f f' vs vs' t t' hf _ _ ht
    apply (steps_scope t t' hf).bind
    intro _ _ _
    rw [hf.name]
    exact .fail ht (S.ordinary _ rfl)
  | succ limit ih =>
    intro σ frame f f' vs vs' t t' hf hvs hlength ht
    refine (steps_scope t t' hf).bind ?_
    rintro _ _ ⟨rfl, rfl⟩
    rcases hf.function.bindings hvs hlength with ⟨x, x', hb, hb', hcause⟩ | ⟨τ, b, b', hb, hb', he, hrel, hroot⟩
    · exact steps_withFrame_of_clash ht hb hb' hcause
    · have hgrows : ∀ (e : Expr) i (w : World), w.Grows ((e.evalWith (callWithin limit) i).runIn w).2 :=
        fun e i w => World.grows_of_eval (show (e.eval limit i).runIn w = _ from rfl)
      exact steps_withFrame hb hb' hrel hroot (hgrows f.body) (hgrows f'.body) fun i => steps_evalWith ih i f.body he

/-- **Expressions that stand for one another do the same side by side.** -/
theorem steps_eval (limit : Nat) (frame : FrameId) {e e' : Expr} (he : S.ExprRel σ e e') :
    S.Steps σ frame S.ValueRel (e.eval limit frame) (e'.eval limit frame) :=
  steps_evalWith (callRel_callWithin S limit) frame e he

end Pairing

end Treewalk
