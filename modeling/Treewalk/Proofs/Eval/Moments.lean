/-
Every state of a run.

Programs that run one after another leave worlds (`World.Ran`), and on the way there are the worlds in which a run comes
to a statement (`Stmt.Visits`). What is kept by all that a statement does (`Stmt.Keeps`) holds in all these worlds.

While a statement evaluates its expression there are moments: an expression is evaluated in a frame of some world, in
the body of some function or in none, and values that have been found before are held until they are needed. The moments
right inside a moment are the evaluations that a rule of evaluation needs (`Moment.Part`), so those that can be reached
are all the evaluations that happen on the way. What is kept by evaluations and by calls (`Expr.Keeps`) holds in all of
them (`Moment.Reaches.holds`), and no moment changes a frame that was there before (`Moment.Reaches.frames`).
-/
import Mathlib.Logic.Relation
import Treewalk.Proofs.Eval.Closed
import Treewalk.Proofs.Eval.Frames
import Treewalk.Proofs.Eval.Growth
import Treewalk.Proofs.Eval.Origin
import Treewalk.Proofs.Eval.Rules

namespace Treewalk

/-! ## Between statements -/

/-- the worlds that blocks leave when they run one after another, however they end -/
inductive World.Ran : World → Prop
  | initial : Ran .initial
  | run {w : World} (limits : Limits) (b : Block) (hw : Ran w) : Ran (b.exec limits root w).world

namespace Stmt

/-- what a statement does keeps `P`, where the values that it binds satisfy `Q` -/
structure Keeps (limits : Limits) (frame : FrameId) (P : World → Prop) (Q : World → Value → Prop) : Prop where
  eval : ∀ {e : Expr} {w a w'}, P w → (e.eval limits.calls frame).runIn w = (a, w') → P w' ∧ ∀ v, a = .ok v → Q w' v
  function : ∀ {t f ps e w}, P w → Q w (.closure ⟨f, ps, e, some frame, t⟩)
  declare : ∀ {w x v}, P w → Q w v → w.frames.hasOwn frame x = false →
    P { w with frames := w.frames.rebind frame ((x, v) :: ·) }
  assign : ∀ {w x v i}, P w → Q w v → w.frames.owner? frame x = some i →
    P { w with frames := w.frames.rebind i (·.set x v) }
  print : ∀ {w : World} (line : Bytes), P w → P (w.print line)

namespace Keeps

variable {limits : Limits} {frame : FrameId} {P : World → Prop} {Q : World → Value → Prop} {w w' : World}
  (h : Keeps limits frame P Q)

include h

theorem withValue (hw : P w) (e : Expr) {next : Value → World → Outcome}
    (hnext : ∀ v w', P w' → Q w' v → P (next v w').world) : P (w.withValue limits frame e next).world := by
  rcases withValue_cases limits frame w e next with ⟨d, w', hx, heq⟩ | ⟨v, w', hx, heq⟩
  · rw [heq]
    exact (h.eval hw hx).1
  · rw [heq]
    obtain ⟨hw', hv⟩ := h.eval hw hx
    exact hnext v w' hw' (hv v rfl)

end Keeps

theorem keeps_andThen {P : World → Prop} {o : Outcome} (ho : P o.world) {next : World → Outcome}
    (hnext : ∀ w, P w → P (next w).world) : P (o.andThen next).world := by
  cases o with
  | done w => exact hnext w ho
  | failed d w => exact ho
  | unfinished w => exact ho

theorem keeps_iterate {P : World → Prop} {condition : World → (Bool → World → Outcome) → Outcome}
    {body : World → Outcome}
    (hcondition : ∀ {w next}, P w → (∀ b w', P w' → P (next b w').world) → P (condition w next).world)
    (hbody : ∀ w, P w → P (body w).world) (rounds : Nat) {w : World} (hw : P w) :
    P (iterate condition body rounds w).world := by
  induction rounds generalizing w with
  | zero => exact hw
  | succ rounds ih =>
    apply hcondition hw
    intro b w' hw'
    cases b with
    | false => exact hw'
    | true => exact keeps_andThen (hbody w' hw') fun _ => ih

namespace Keeps

variable {limits : Limits} {frame : FrameId} {P : World → Prop} {Q : World → Value → Prop}

mutual
theorem exec (h : Keeps limits frame P Q) : (s : Stmt) → ∀ {w}, P w → P (s.exec limits frame w).world
  | .declare t x e, w, hw => by
    rw [Stmt.exec]
    refine h.withValue hw e fun v w' hw' hv => ?_
    cases hx : w'.declare frame t x v with
    | ok w₁ =>
      obtain ⟨hnew, rfl⟩ := World.eq_of_declare hx
      exact h.declare hw' hv hnew
    | error d => exact hw'
  | .assign t x e, w, hw => by
    rw [Stmt.exec]
    refine h.withValue hw e fun v w' hw' hv => ?_
    cases hx : w'.assign frame t x v with
    | ok w₁ =>
      obtain ⟨i, howner, rfl⟩ := World.eq_of_assign hx
      exact h.assign hw' hv howner
    | error d => exact hw'
  | .print t e, w, hw => by
    rw [Stmt.exec]
    refine h.withValue hw e fun v w' hw' _ => ?_
    cases v.text? w'.heap with
    | some line => exact h.print line hw'
    | none => exact hw'
  | .loop t c body, w, hw => by
    rw [Stmt.exec]
    refine keeps_iterate (P := P) (fun hw hnext => ?_) (fun _ => execAll h body) limits.rounds hw
    refine h.withValue hw c fun v w' hw' _ => ?_
    cases v with
    | boolean b => exact hnext b w' hw'
    | _ => exact hw'
  | .function t f ps e, w, hw => by
    rw [Stmt.exec]
    cases hf : w.declare frame t f (.closure ⟨f, ps, e, some frame, t⟩) with
    | ok w₁ =>
      obtain ⟨hnew, rfl⟩ := World.eq_of_declare hf
      exact h.declare hw (h.function hw) hnew
    | error d => exact hw
  | .missing, w, hw => by
    rw [Stmt.exec]
    exact hw

theorem execAll (h : Keeps limits frame P Q) : (ss : List Stmt) → ∀ {w}, P w → P (Stmt.execAll limits frame ss w).world
  | [], w, hw => by
    rw [Stmt.execAll]
    exact hw
  | s :: ss, w, hw => by
    rw [Stmt.execAll]
    exact keeps_andThen (exec h s hw) fun _ => execAll h ss
end

/-- in every world in which a run comes to a statement -/
theorem visits (h : Keeps limits frame P Q) {ss : List Stmt} {s : Stmt} {w w' : World}
    (hvisits : Visits limits frame ss w s w') (hw : P w) : P w' := by
  induction hvisits with
  | here => exact hw
  | @next s _ _ w _ _ hs _ ih =>
    have hdone := h.exec s hw
    rw [hs] at hdone
    exact ih hdone
  | body hc _ ih => exact ih (h.eval hw hc).1
  | @again _ _ body _ _ _ _ _ _ hc hbody _ ih =>
    have hdone := h.execAll body (h.eval hw hc).1
    rw [hbody] at hdone
    exact ih hdone

end Keeps

end Stmt

/-- in every world that blocks leave -/
theorem World.Ran.keeps {P : World → Prop} {Q : World → Value → Prop} (hP : P .initial)
    (h : ∀ limits, Stmt.Keeps limits root P Q) {w : World} (hw : w.Ran) : P w := by
  induction hw with
  | initial => exact hP
  | run limits b _ ih => exact (h limits).execAll b ih

/-! ## Within an expression -/

/-- what evaluations and calls keep: worlds that satisfy `P`, in which values satisfy `Q` -/
structure Expr.Keeps (limit : Nat) (P : World → Prop) (Q : World → Value → Prop) : Prop where
  lookup : ∀ {frame x v w}, P w → w.frames.lookup? frame x = some v → Q w v
  yields : ∀ {depth frame e w a w'}, P w → Expr.Yields limit depth frame e w a w' → P w' ∧ ∀ v, a = .ok v → Q w' v
  stays : ∀ {w w' : World} {v}, w.Grows w' → Q w v → Q w' v
  enter : ∀ {w : World} {c : Closure} {parent vs b}, P w → Q w (.closure c) → (∀ v ∈ vs, Q w v) →
    c.frame.filter w.frames.isLive = some parent → Bindings.ofList (c.parameters.zip vs) = .ok b →
      P (w.enter parent b) ∧ ∀ v, Q w v → Q (w.enter parent b) v

/-- an expression is being evaluated -/
structure Moment where
  /-- calls that go on -/
  depth : Nat
  frame : FrameId
  /-- the function whose body is being evaluated, if it is one -/
  callee : Option Closure
  expr : Expr
  world : World
  /-- values that have been found before and are still needed -/
  held : List Value

namespace Moment

/-- the second moment is an evaluation that the first one needs -/
inductive Part (limit : Nat) : Moment → Moment → Prop
  | operand {depth frame callee t op e w held} (hop : (UnaryOp.ofText? op).isSome = true) :
      Part limit ⟨depth, frame, callee, .unary t op e, w, held⟩ ⟨depth, frame, callee, e, w, held⟩
  | left {depth frame callee t op l r w held} :
      Part limit ⟨depth, frame, callee, .binary t op l r, w, held⟩ ⟨depth, frame, callee, l, w, held⟩
  -- unless the first operand of `&&` or `||` decides
  | right {depth frame callee t op l r w held v w₁} (hl : Expr.Yields limit depth frame l w (.ok v) w₁)
      (hand : BinaryOp.ofText? op = some .and → v = .boolean true)
      (hor : BinaryOp.ofText? op = some .or → v = .boolean false) :
      Part limit ⟨depth, frame, callee, .binary t op l r, w, held⟩ ⟨depth, frame, callee, r, w₁, v :: held⟩
  | test {depth frame callee t c y n w held} :
      Part limit ⟨depth, frame, callee, .conditional t c y n, w, held⟩ ⟨depth, frame, callee, c, w, held⟩
  | chosen {depth frame callee t c y n w held b w₁} (hc : Expr.Yields limit depth frame c w (.ok (.boolean b)) w₁) :
      Part limit ⟨depth, frame, callee, .conditional t c y n, w, held⟩
        ⟨depth, frame, callee, if b then y else n, w₁, held⟩
  | argument {depth frame callee t f before e after w held v vs w₁} (hf : w.frames.lookup? frame f = some v)
      (hv : v.isFunction = true) (hbefore : Expr.YieldsAll limit depth frame before w (.ok vs) w₁) :
      Part limit ⟨depth, frame, callee, .call t f (before ++ e :: after), w, held⟩
        ⟨depth, frame, callee, e, w₁, v :: vs ++ held⟩
  | body {depth frame callee t f args w held c vs w₁ parent b} (hf : w.frames.lookup? frame f = some (.closure c))
      (hargs : Expr.YieldsAll limit depth frame args w (.ok vs) w₁) (hlength : vs.length = c.parameters.length)
      (hscope : c.frame.filter w₁.frames.isLive = some parent) (hdepth : depth < limit)
      (hb : Bindings.ofList (c.parameters.zip vs) = .ok b) :
      Part limit ⟨depth, frame, callee, .call t f args, w, held⟩
        ⟨depth + 1, w₁.frames.size, some c, c.body, w₁.enter parent b, .closure c :: vs ++ held⟩
  | item {depth frame callee t before e after w held vs w₁}
      (hbefore : Expr.YieldsAll limit depth frame before w (.ok vs) w₁) :
      Part limit ⟨depth, frame, callee, .array t (before ++ e :: after), w, held⟩
        ⟨depth, frame, callee, e, w₁, vs ++ held⟩
  | array {depth frame callee t e i w held} :
      Part limit ⟨depth, frame, callee, .subscript t e i, w, held⟩ ⟨depth, frame, callee, e, w, held⟩
  | index {depth frame callee t e i w held v w₁} (he : Expr.Yields limit depth frame e w (.ok v) w₁)
      (hv : v.typeName = .array) :
      Part limit ⟨depth, frame, callee, .subscript t e i, w, held⟩ ⟨depth, frame, callee, i, w₁, v :: held⟩

/-- what the evaluation gives, within the calls that are left, and the world it leaves -/
def result (limit : Nat) (m : Moment) : Except Diagnostic Value × World :=
  (m.expr.eval (limit - m.depth) m.frame).runIn m.world

/-- the moments that a moment leads to -/
def Reaches (limit : Nat) : Moment → Moment → Prop := Relation.ReflTransGen (Part limit)

/-- a statement starts to evaluate its expression -/
def start (e : Expr) (w : World) : Moment := ⟨0, World.root, none, e, w, []⟩

variable {limit : Nat} {m m' : Moment}

/-! ## Frames stay -/

/-- a moment in the same frame, or in the new frame of a call, which is the last one -/
theorem Part.frame_cases (h : Part limit m m') :
    (m'.frame = m.frame ∧ m'.callee = m.callee ∧ m'.world.frames = m.world.frames) ∨
      ∃ f c vs parent, m.world.frames.lookup? m.frame f = some (.closure c) ∧
        c.frame.filter m.world.frames.isLive = some parent ∧ vs.length = c.parameters.length ∧ m'.callee = some c ∧
        m'.frame = m.world.frames.size ∧
        m'.world.frames = m.world.frames.push ⟨m.world.frames.chain parent, (c.parameters.zip vs).reverse, true⟩ := by
  cases h with
  | operand | left | test | array => exact .inl ⟨rfl, rfl, rfl⟩
  | right h => exact .inl ⟨rfl, rfl, h.grows.frames⟩
  | chosen h => exact .inl ⟨rfl, rfl, h.grows.frames⟩
  | index h => exact .inl ⟨rfl, rfl, h.grows.frames⟩
  | argument _ _ h => exact .inl ⟨rfl, rfl, h.grows.frames⟩
  | item h => exact .inl ⟨rfl, rfl, h.grows.frames⟩
  | @body _ _ _ _ f _ w _ c vs w₁ parent b hf hargs hlength hscope _ hb =>
    have hframes : w₁.frames = w.frames := hargs.grows.frames
    have hbindings : b = (c.parameters.zip vs).reverse := by rw [Bindings.declareAll_eq hb, List.append_nil]
    rw [hframes] at hscope
    exact .inr ⟨f, c, vs, parent, hf, hscope, hlength, rfl, by rw [hframes], by rw [World.enter, hframes, hbindings]⟩

theorem Part.frames (h : Part limit m m') : m.world.frames.toList <+: m'.world.frames.toList := by
  rcases h.frame_cases with ⟨-, -, heq⟩ | ⟨f, c, vs, parent, -, -, -, -, -, heq⟩
  · exact heq ▸ List.prefix_rfl
  · rw [heq, Array.toList_push]
    exact List.prefix_append _ _

/-- no moment changes or takes away a frame that was there before -/
theorem Reaches.frames (h : Reaches limit m m') : m.world.frames.toList <+: m'.world.frames.toList := by
  induction h with
  | refl => exact List.prefix_rfl
  | tail _ hpart ih => exact ih.trans hpart.frames

/-! ## What is kept -/

/-- the world of the moment satisfies `P`, and the values that it holds satisfy `Q` there -/
def Holds (P : World → Prop) (Q : World → Value → Prop) (m : Moment) : Prop := P m.world ∧ ∀ v ∈ m.held, Q m.world v

end Moment

theorem Expr.Keeps.yieldsAll {limit : Nat} {P : World → Prop} {Q : World → Value → Prop} (h : Keeps limit P Q)
    {depth : Nat} {frame : FrameId} {es : List Expr} {w w' : World} {a : Except Diagnostic (List Value)} (hw : P w)
    (hes : YieldsAll limit depth frame es w a w') : P w' ∧ ∀ vs, a = .ok vs → ∀ v ∈ vs, Q w' v := by
  induction es generalizing w a with
  | nil =>
    cases hes
    exact ⟨hw, by rintro _ ⟨⟩ v hv; cases hv⟩
  | cons e es ih =>
    cases hes with
    | fails he => exact ⟨(h.yields hw he).1, nofun⟩
    | @cons _ _ _ _ _ v w₁ a _ he hes =>
      obtain ⟨hw₁, hv⟩ := h.yields hw he
      obtain ⟨hw', hvs⟩ := ih hw₁ hes
      refine ⟨hw', ?_⟩
      cases a with
      | error d => exact nofun
      | ok vs =>
        rintro _ ⟨⟩ u hu
        rcases List.mem_cons.1 hu with rfl | hu
        · exact h.stays hes.grows (hv u rfl)
        · exact hvs vs rfl u hu

namespace Moment

variable {limit : Nat} {m m' : Moment} {P : World → Prop} {Q : World → Value → Prop}

/-- values that were held and values that have been found, after an evaluation -/
theorem Holds.step (h : Expr.Keeps limit P Q) {w w' : World} {held : List Value} (found : List Value)
    (hheld : ∀ v ∈ held, Q w v) (hgrows : w.Grows w') (hfound : ∀ v ∈ found, Q w' v) :
    ∀ v ∈ found ++ held, Q w' v := by
  intro v hv
  rcases List.mem_append.1 hv with hv | hv
  · exact hfound v hv
  · exact h.stays hgrows (hheld v hv)

theorem Part.holds (h : Expr.Keeps limit P Q) (hpart : Part limit m m') (hm : m.Holds P Q) : m'.Holds P Q := by
  obtain ⟨hw, hheld⟩ := hm
  cases hpart with
  | operand | left | test | array => exact ⟨hw, hheld⟩
  | @right _ _ _ _ _ _ _ _ _ v _ hl =>
    obtain ⟨hw₁, hv⟩ := h.yields hw hl
    have hgrows := hl.grows
    exact ⟨hw₁, Holds.step h [v] hheld hgrows (List.forall_mem_singleton.2 (hv v rfl))⟩
  | chosen hc =>
    have hgrows := hc.grows
    exact ⟨(h.yields hw hc).1, fun v hv => h.stays hgrows (hheld v hv)⟩
  | @index _ _ _ _ _ _ _ _ v _ he =>
    obtain ⟨hw₁, hv⟩ := h.yields hw he
    have hgrows := he.grows
    exact ⟨hw₁, Holds.step h [v] hheld hgrows (List.forall_mem_singleton.2 (hv v rfl))⟩
  | @argument _ _ _ _ _ _ _ _ _ _ v vs _ hf _ hbefore =>
    obtain ⟨hw₁, hvs⟩ := h.yieldsAll hw hbefore
    have hgrows := hbefore.grows
    have hfound := List.forall_mem_cons.2 ⟨h.stays hgrows (h.lookup hw hf), hvs vs rfl⟩
    exact ⟨hw₁, Holds.step h (v :: vs) hheld hgrows hfound⟩
  | item hbefore =>
    obtain ⟨hw₁, hvs⟩ := h.yieldsAll hw hbefore
    exact ⟨hw₁, Holds.step h _ hheld hbefore.grows (hvs _ rfl)⟩
  | body hf hargs _ hscope _ hb =>
    obtain ⟨hw₁, hvs⟩ := h.yieldsAll hw hargs
    have hgrows := hargs.grows
    have hc := h.stays hgrows (h.lookup hw hf)
    have hfound := Holds.step h _ hheld hgrows (List.forall_mem_cons.2 ⟨hc, hvs _ rfl⟩)
    obtain ⟨henter, hstays⟩ := h.enter hw₁ hc (hvs _ rfl) hscope hb
    exact ⟨henter, fun v hv => hstays v (hfound v hv)⟩

/-- **What evaluations and calls keep holds in every moment.** -/
theorem Reaches.holds (h : Expr.Keeps limit P Q) (hreaches : Reaches limit m m') (hm : m.Holds P Q) : m'.Holds P Q := by
  induction hreaches with
  | refl => exact hm
  | tail _ hpart ih => exact hpart.holds h ih

end Moment

end Treewalk
