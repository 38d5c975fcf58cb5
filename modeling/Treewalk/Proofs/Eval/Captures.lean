/-
What closures capture.

Functions are declared by statements, and statements run in the root frame, so every closure captures that frame. The
values of a world are those that its frames bind, those that are held by an evaluation that goes on, and the items of
arrays among them (`World.Reachable`); in every state of a run, the closures among them capture the root frame
(`World.CapturesRoot`). So a call works right inside the root frame, in a frame that binds the parameters and nothing
else, that no evaluation changes, and that nothing refers to once the call has ended (`World.call_frames_never_escape`).

The states are those in which a run comes to a statement and those in which it ends, with blocks that run one after
another, whether they fail or not. The evaluations inside one expression are all that there are, as far as failures can
tell: the expression fails if and only if one of them raises the failure.
-/
import Treewalk.Proofs.Eval.Parameters
import Treewalk.Proofs.Eval.Raising

namespace Treewalk

/-! ## Values of the root frame -/

/-- a closure that captures the root frame, or no closure -/
def Value.AtRoot (v : Value) : Prop := ∀ c, v = .closure c → c.frame = some World.root

/-- a pairing in which trees stand for themselves lets exactly these values stand for themselves -/
theorem Pairing.valueRel_self_iff {p q : Bytes} (v : Value) : (instead p q).ValueRel v v ↔ v.AtRoot := by
  constructor
  · rintro h c rfl
    cases h with
    | closure h => exact h.frame
  · intro h
    cases v with
    | number x => exact .number x
    | boolean b => exact .boolean b
    | array id => exact .array id
    | native f => exact .native f
    | closure c => exact .closure ⟨rfl, functionRel_self _ _, h c rfl, h c rfl⟩
    | noArray => exact .noArray
    | noFunction => exact .noFunction

namespace World

/-- the root frame is live and in no other one, and the values in frames and arrays are of the root frame -/
structure Rooted (w : World) : Prop where
  chain : w.frames.chain root = [root]
  live : w.frames.isLive root = true
  own? : ∀ {x i v}, w.frames.own? x i = some v → v.AtRoot
  items : ∀ {id v}, v ∈ w.heap.items id → v.AtRoot

namespace Rooted

variable {w w' : World} {v : Value}

theorem lookup? (h : w.Rooted) {frame : FrameId} {x : Bytes} (hx : w.frames.lookup? frame x = some v) : v.AtRoot := by
  obtain ⟨i, -, hi⟩ := List.exists_of_findSome?_eq_some hx
  exact h.own? hi

theorem worldAt (h : w.Rooted) {p q : Bytes} (frame : FrameId) :
    (Pairing.instead p q).WorldAt (Pairing.instead p q).outer frame w w := by
  have hself : ∀ o : Option Value, (∀ v, o = some v → v.AtRoot) → Option.Rel (Pairing.instead p q).ValueRel o o := by
    intro o ho
    cases o with
    | none => exact .none
    | some v => exact .some ((Pairing.valueRel_self_iff v).2 (ho v rfl))
  refine ⟨⟨⟨rfl, h.chain, h.chain, h.live, h.live, ?_⟩, rfl, ?_, rfl⟩, ?_, fun _ _ _ => rfl⟩
  · exact fun x _ => hself _ fun _ => h.own?
  · exact fun id => List.forall₂_same.2 fun v hv => (Pairing.valueRel_self_iff v).2 (h.items hv)
  · exact fun x _ => hself _ fun _ => h.lookup?

/-- an evaluation leaves such a world, and gives a value of the root frame -/
theorem eval (h : w.Rooted) {limit : Nat} {frame : FrameId} {e : Expr} {a : Except Diagnostic Value}
    (he : (e.eval limit frame).runIn w = (a, w')) : w'.Rooted ∧ ∀ v, a = .ok v → v.AtRoot := by
  obtain ⟨hworld, hanswer⟩ :=
    Pairing.steps_eval limit frame (Pairing.exprRel_self (p := []) (q := []) e) w w (h.worldAt frame)
  rw [he] at hworld hanswer
  refine ⟨⟨hworld.frames.chain, hworld.frames.live, ?_, ?_⟩, ?_⟩
  · rw [(grows_of_eval he).frames]
    exact h.own?
  · intro id v hv
    exact (Pairing.valueRel_self_iff v).1 (List.forall₂_same.1 (hworld.items id) v hv)
  · rintro v rfl
    cases hanswer with
    | ok hv => exact (Pairing.valueRel_self_iff v).1 hv

theorem enter (h : w.Rooted) (parent : FrameId) {b : Bindings} (hb : ∀ {x v}, b.lookup x = some v → v.AtRoot) :
    (w.enter parent b).Rooted := by
  have hne := Frames.ne_size_of_isLive h.live
  refine ⟨?_, w.frames.isLive_push h.live _, ?_, h.items⟩
  · rw [World.enter, Frames.chain_push, if_neg hne, h.chain]
  · intro x i v hv
    rw [World.enter, Frames.own?_push] at hv
    split at hv
    · exact hb hv
    · exact h.own? hv

theorem rebind (h : w.Rooted) {i : FrameId} {change : Bindings → Bindings}
    (hown : ∀ {x j v}, (w.frames.rebind i change).own? x j = some v → v.AtRoot) :
    Rooted { w with frames := w.frames.rebind i change } :=
  ⟨by rw [Frames.chain_rebind, h.chain], by rw [Frames.isLive_rebind, h.live], hown, h.items⟩

end Rooted

theorem size_initial : initial.frames.size = 1 := by decide +kernel

theorem rooted_initial : initial.Rooted := by
  have h := Pairing.worldRel_initial (Pairing.instead [] [])
  refine ⟨h.frames.chain, h.frames.live, ?_, ?_⟩
  · intro x i v hv
    obtain ⟨f, hf, -⟩ := Option.bind_eq_some_iff.1 hv
    have hi : i < 1 := size_initial ▸ (Array.getElem?_eq_some_iff.1 hf).1
    obtain rfl : i = root := Nat.lt_one_iff.1 hi
    have hself := h.frames.own? x trivial
    rw [hv] at hself
    cases hself with
    | some hv => exact (Pairing.valueRel_self_iff v).1 hv
  · intro id v hv
    exact (Pairing.valueRel_self_iff v).1 (List.forall₂_same.1 (h.items id) v hv)

end World

/-! ## States of a run -/

/-- evaluations and calls keep closures at the root frame -/
theorem Expr.keeps_rooted (limit : Nat) : Expr.Keeps limit World.Rooted fun _ => Value.AtRoot where
  lookup hw hv := hw.lookup? hv
  yields hw he := hw.eval he.runIn_eval
  stays _ hv := hv
  enter := by
    intro w c parent vs b hw _ hvs _ hb
    refine ⟨hw.enter parent fun {x v} hv => ?_, fun _ hv => hv⟩
    obtain ⟨before, after, hmem, -⟩ := List.lookup_eq_some_iff.1 hv
    rw [Bindings.declareAll_eq hb, List.append_nil] at hmem
    have hpair : (x, v) ∈ c.parameters.zip vs := List.mem_reverse.1 (hmem ▸ List.mem_append_right _ List.mem_cons_self)
    exact hvs v (List.of_mem_zip hpair).2

/-- statements of the root frame keep closures there, and leave no other frame -/
theorem Stmt.keeps_rooted (limits : Limits) :
    Stmt.Keeps limits World.root (fun w => w.Rooted ∧ w.frames.size = 1) fun _ => Value.AtRoot where
  eval := by
    rintro e w a w' ⟨hw, hsize⟩ he
    obtain ⟨hw', hv⟩ := hw.eval he
    exact ⟨⟨hw', (World.grows_of_eval he).frames ▸ hsize⟩, hv⟩
  function _ := by
    rintro c ⟨⟩
    rfl
  declare := by
    rintro w x v ⟨hw, hsize⟩ hv -
    refine ⟨hw.rebind fun {y j u} hu => ?_, by rwa [Frames.size_rebind]⟩
    rw [Frames.own?_declare] at hu
    split at hu
    · cases hu
      exact hv
    · exact hw.own? hu
  assign := by
    rintro w x v i ⟨hw, hsize⟩ hv -
    refine ⟨hw.rebind fun {y j u} hu => ?_, by rwa [Frames.size_rebind]⟩
    rw [Frames.own?_assign] at hu
    split at hu
    · obtain ⟨_, -, rfl⟩ := Option.map_eq_some_iff.1 hu
      exact hv
    · exact hw.own? hu
  print _ := fun ⟨hw, hsize⟩ => ⟨⟨hw.chain, hw.live, hw.own?, hw.items⟩, hsize⟩

namespace World

/-- the values of a world: those that an evaluation holds, those that frames bind, and the items of arrays among them -/
inductive Reachable (w : World) (held : List Value) : Value → Prop
  | held {v : Value} (hv : v ∈ held) : Reachable w held v
  | bound {x : Bytes} {i : FrameId} {v : Value} (hv : w.frames.own? x i = some v) : Reachable w held v
  | item {id : ArrayId} {v : Value} (ha : Reachable w held (.array id)) (hv : v ∈ w.heap.items id) : Reachable w held v

/-- the root frame is live, and every closure captures it -/
structure CapturesRoot (w : World) (held : List Value) : Prop where
  live : w.frames.isLive root = true
  closure : ∀ c, w.Reachable held (.closure c) → c.frame = some root

/-- between statements: there is the root frame alone, and every closure captures it -/
structure Settled (w : World) : Prop where
  size : w.frames.size = 1
  captures : w.CapturesRoot []

theorem Rooted.capturesRoot {w : World} (h : w.Rooted) {held : List Value} (hheld : ∀ v ∈ held, v.AtRoot) :
    w.CapturesRoot held := by
  have hreachable : ∀ v, w.Reachable held v → v.AtRoot := by
    intro v hv
    induction hv with
    | held hv => exact hheld _ hv
    | bound hv => exact h.own? hv
    | item _ hv => exact h.items hv
  exact ⟨h.live, fun c hc => hreachable _ hc c rfl⟩

/-- the values of the world after a call were values before -/
theorem Reachable.of_leave {w : World} {held : List Value} {v : Value} (h : w.leave.Reachable held v) :
    w.Reachable held v := by
  induction h with
  | held hv => exact .held hv
  | @bound x i v hv =>
    obtain ⟨f, hf, hx⟩ := Option.bind_eq_some_iff.1 hv
    rw [leave, Array.getElem?_pop] at hf
    split at hf
    · exact .bound (Option.bind_eq_some_iff.2 ⟨f, hf, hx⟩)
    · cases hf
  | item _ hv ih => exact .item ih hv

end World

/-! ## Frames of calls -/

/-- the frame of a call: right inside the root frame, and the parameters are its own names -/
structure Frame.Serves (f : Frame) (c : Closure) : Prop where
  ancestors : f.ancestors = [World.root]
  names : f.bindings.map Prod.fst = c.parameters.reverse

namespace Moment

variable {limit : Nat} {m m' : Moment}

/-- an expression is evaluated in the root frame, or in the body of a function and the frame that serves this call; it
is the last frame -/
structure Placed (m : Moment) : Prop where
  last : m.frame + 1 = m.world.frames.size
  frame : (m.callee = none ∧ m.frame = World.root) ∨
    ∃ c f, m.callee = some c ∧ m.frame ≠ World.root ∧ m.world.frames[m.frame]? = some f ∧ f.Serves c

theorem Part.placed (hpart : Part limit m m') (hw : m.world.Rooted) (hm : m.Placed) : m'.Placed := by
  rcases hpart.frame_cases with
    ⟨hframe, hcallee, hframes⟩ | ⟨f, c, vs, parent, hf, hscope, hlength, hcallee, hframe, hframes⟩
  · refine ⟨?_, ?_⟩
    · rw [hframe, hframes]
      exact hm.last
    · rw [hframe, hcallee, hframes]
      exact hm.frame
  · -- the callee captures the root frame
    obtain rfl : World.root = parent := by
      rw [hw.lookup? hf c rfl, Option.filter_some, hw.live] at hscope
      exact Option.some.inj hscope
    have hserves : Frame.Serves ⟨m.world.frames.chain World.root, (c.parameters.zip vs).reverse, true⟩ c := by
      refine ⟨hw.chain, ?_⟩
      rw [List.map_reverse, List.map_fst_zip hlength.ge]
    refine ⟨by rw [hframe, hframes, Array.size_push], .inr ⟨c, _, hcallee, ?_, ?_, hserves⟩⟩
    · rw [hframe]
      exact (Frames.ne_size_of_isLive hw.live).symm
    · rw [hframe, hframes, Array.getElem?_push_size]

theorem Reaches.placed (h : Reaches limit m m') (hm : m.Holds World.Rooted fun _ => Value.AtRoot) (hplaced : m.Placed) :
    m'.Placed := by
  induction h with
  | refl => exact hplaced
  | tail hreaches hpart ih => exact hpart.placed (Reaches.holds (Expr.keeps_rooted limit) hreaches hm).1 ih

/-- a moment in which every closure captures the root frame, and an evaluation that changes no frame -/
structure Sound (limit : Nat) (m : Moment) : Prop where
  captures : m.world.CapturesRoot m.held
  placed : m.Placed
  -- frames are neither changed on the way nor in the end
  frames : ∀ m', m.Reaches limit m' → m.world.frames.toList <+: m'.world.frames.toList
  result : (m.result limit).2.frames = m.world.frames ∧
    (m.result limit).2.CapturesRoot ((m.result limit).1.toOption.toList ++ m.held)
  -- once a call has ended, its frame is gone, and no value refers to it
  gone : ∀ c, m.callee = some c → (m.result limit).2.leave.frames[m.frame]? = none ∧
    ∀ c', (m.result limit).2.leave.Reachable ((m.result limit).1.toOption.toList ++ m.held) (.closure c') →
      c'.frame ≠ some m.frame

theorem Holds.result_capturesRoot (h : m.Holds World.Rooted fun _ => Value.AtRoot) (limit : Nat) :
    (m.result limit).2.CapturesRoot ((m.result limit).1.toOption.toList ++ m.held) := by
  obtain ⟨hworld, hvalue⟩ := h.1.eval (show _ = ((m.result limit).1, (m.result limit).2) from rfl)
  apply hworld.capturesRoot
  intro v hv
  rcases List.mem_append.1 hv with hv | hv
  · cases ha : (m.result limit).1 with
    | error d =>
      rw [ha] at hv
      cases hv
    | ok u =>
      rw [ha] at hv
      obtain rfl := List.mem_singleton.1 hv
      exact hvalue v ha
  · exact h.2 v hv

theorem sound_of_holds (h : m.Holds World.Rooted fun _ => Value.AtRoot) (hplaced : m.Placed) : m.Sound limit := by
  have hcaptures := h.result_capturesRoot limit
  have hframes : (m.result limit).2.frames = m.world.frames :=
    (World.grows_of_eval (show _ = ((m.result limit).1, (m.result limit).2) from rfl)).frames
  refine ⟨h.1.capturesRoot h.2, hplaced, fun _ hreaches => hreaches.frames, ⟨hframes, hcaptures⟩, ?_⟩
  intro c hc
  constructor
  · rw [World.leave, hframes, Array.getElem?_pop, if_neg]
    rw [← hplaced.last]
    exact Nat.lt_irrefl _
  · intro c' hc' hrefers
    rcases hplaced.frame with ⟨hnone, -⟩ | ⟨_, _, -, hne, -⟩
    · rw [hnone] at hc
      cases hc
    · rw [hcaptures.closure c' hc'.of_leave] at hrefers
      exact hne (Option.some.inj hrefers).symm

end Moment

/-- **Every closure captures the root frame, and the frame of a call never escapes.** Between statements there is the
root frame alone, whichever blocks have run. An expression is evaluated in it, or in the frame of a call, which binds
the parameters, does not change, and is gone once the call has ended, with no value that refers to it. -/
theorem World.call_frames_never_escape {w : World} (hw : w.Ran) :
    w.Settled ∧ ∀ (limits : Limits) (b : Block) (s : Stmt) (w₀ : World), Stmt.Visits limits root b w s w₀ →
      w₀.Settled ∧ ∀ e, s.expression? = some e →
        (∀ m, (Moment.start e w₀).Reaches limits.calls m → m.Sound limits.calls) ∧
        ∀ d, ((e.eval limits.calls root).runIn w₀).1 = .error d ↔
          ∃ m, (Moment.start e w₀).Reaches limits.calls m ∧ m.Raises limits.calls d := by
  have hrooted : w.Rooted ∧ w.frames.size = 1 := hw.keeps ⟨rooted_initial, size_initial⟩ Stmt.keeps_rooted
  refine ⟨⟨hrooted.2, hrooted.1.capturesRoot (List.forall_mem_nil _)⟩, ?_⟩
  intro limits b s w₀ hvisits
  obtain ⟨hw₀, hsize⟩ := (Stmt.keeps_rooted limits).visits hvisits hrooted
  refine ⟨⟨hsize, hw₀.capturesRoot (List.forall_mem_nil _)⟩, ?_⟩
  intro e _
  refine ⟨fun m hreaches => ?_, fun d => Moment.fails_iff (m := .start e w₀)⟩
  have hstart : (Moment.start e w₀).Holds World.Rooted fun _ => Value.AtRoot := ⟨hw₀, List.forall_mem_nil _⟩
  have hplaced : (Moment.start e w₀).Placed := ⟨hsize.symm, .inl ⟨rfl, rfl⟩⟩
  exact Moment.sound_of_holds (hreaches.holds (Expr.keeps_rooted _) hstart) (hreaches.placed hstart hplaced)

/-- the function `f(a) = [a]` -/
def Closure.wrapping : Closure :=
  ⟨bytes "f", [bytes "a"], .array .unplaced [.variable .unplaced (bytes "a")], some World.root, .unplaced⟩

/-- declares `f` and fails -/
def Block.declaresWrapping : Block :=
  [.function .unplaced (bytes "f") [bytes "a"] (.array .unplaced [.variable .unplaced (bytes "a")]),
    .print .unplaced (.variable .unplaced (bytes "b"))]

/-- A run fails, and the next one evaluates `f(f)`: where it comes to `a`, in the second frame, `f` is held as the
callee and as its argument. -/
theorem World.call_frames_never_escape_wrapping :
    ∃ o e m, Block.declaresWrapping.exec ⟨9, 9⟩ root initial = o ∧ o.diagnostic?.isSome = true ∧ o.world.Ran ∧
      (Moment.start e o.world).Reaches 9 m ∧ m.expr = .variable .unplaced (bytes "a") ∧ m.frame = 1 ∧
      m.callee = some .wrapping ∧ m.held = [.closure .wrapping, .closure .wrapping] ∧ m.Sound 9 := by
  let f : Value := .closure .wrapping
  let a : Expr := .variable .unplaced (bytes "a")
  let e : Expr := .call .unplaced (bytes "f") [.variable .unplaced (bytes "f")]
  let o := Block.declaresWrapping.exec ⟨9, 9⟩ root initial
  have hran : o.world.Ran := .run ⟨9, 9⟩ Block.declaresWrapping .initial
  have hf : o.world.frames.lookup? root (bytes "f") = some f := by rfl
  have hargs : Expr.YieldsAll 9 0 root [.variable .unplaced (bytes "f")] o.world (.ok [f]) o.world :=
    .cons (.variable hf) .nil
  let w₁ := o.world.enter root [(bytes "a", f)]
  have hbody : Moment.Part 9 (.start e o.world) ⟨1, 1, some .wrapping, .array .unplaced ([] ++ [a]), w₁, [f, f]⟩ :=
    .body hf hargs rfl rfl (by decide) rfl
  have hitem : Moment.Part 9 ⟨1, 1, some .wrapping, .array .unplaced ([] ++ [a]), w₁, [f, f]⟩
      ⟨1, 1, some .wrapping, a, w₁, [f, f]⟩ := .item .nil
  have hreaches := (Relation.ReflTransGen.single hbody).tail hitem
  have hvisits : Stmt.Visits ⟨9, 9⟩ root [.print .unplaced e] o.world (.print .unplaced e) o.world := .here _ _ _
  have hsound := (((World.call_frames_never_escape hran).2 ⟨9, 9⟩ _ _ _ hvisits).2 e rfl).1 _ hreaches
  exact ⟨o, e, _, rfl, by decide +kernel, hran, hreaches, rfl, rfl, rfl, rfl, hsound⟩

end Treewalk
