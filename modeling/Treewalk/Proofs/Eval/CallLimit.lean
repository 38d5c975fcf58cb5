/-
What the limit on calls shows.

A run is given a limit on the calls inside one another, and the rounds that each loop may take. With more of both, the
run does the same, unless it had stopped early: because a call exceeded the limit or because it ran out of rounds. For
expressions this goes from step to step (`Eval.Follows`), by induction on the tree and on the limit; for statements it
goes on from there (`Outcome.Follows`), where it also has to be said that a run takes no printed line back, so that what
a run had printed when it stopped early is the beginning of what the longer run prints. A run that comes to an end does
so with any higher limit, and in the same way, unless it failed for the limit
(`Block.call_limit_shows_in_overflow_only`).
-/
import Treewalk.Proofs.Eval.Growth

namespace Treewalk

/-! ## Expressions -/

/-- the call would have exceeded the limit -/
def Diagnostic.Overflows (d : Diagnostic) : Prop := d.cause.kind = .stackOverflow

namespace Eval

variable {α β : Type} {stops : Diagnostic → Prop} {x y : Eval α} {t : Token}

/-- the step `y` does what `x` does, unless `x` fails with a diagnostic that `stops` -/
def Follows (stops : Diagnostic → Prop) (x y : Eval α) : Prop :=
  ∀ w, y.runIn w = x.runIn w ∨ ∃ d w', x.runIn w = (.error d, w') ∧ stops d

theorem Follows.refl (x : Eval α) : Follows stops x x := fun _ => .inl rfl

/-- one step after another -/
theorem Follows.bind {k k' : α → Eval β} (h : Follows stops x y) (hk : ∀ a, Follows stops (k a) (k' a)) :
    Follows stops (x >>= k) (y >>= k') := by
  intro w
  rcases h w with heq | ⟨d, w', hx, hd⟩
  · rcases hx : x.runIn w with ⟨d | a, w₁⟩
    · rw [runIn_bind_error hx, runIn_bind_error (heq.trans hx)]
      exact .inl rfl
    · rw [runIn_bind_ok hx, runIn_bind_ok (heq.trans hx)]
      exact hk a w₁
  · exact .inr ⟨d, w', runIn_bind_error hx k, hd⟩

theorem follows_withFrame (parent : FrameId) (pairs : List (Bytes × Value)) {body body' : FrameId → Eval α}
    (hbody : ∀ frame, Follows stops (body frame) (body' frame)) :
    Follows stops (withFrame t parent pairs body) (withFrame t parent pairs body') := by
  intro w
  cases hb : Bindings.ofList pairs with
  | error x =>
    rw [runIn_withFrame_of_error _ _ hb, runIn_withFrame_of_error _ _ hb]
    exact .inl rfl
  | ok b =>
    rw [runIn_withFrame_of_ok _ _ hb, runIn_withFrame_of_ok _ _ hb]
    rcases hbody w.frames.size (w.enter parent b) with heq | ⟨d, w', hx, hd⟩
    · rw [heq]
      exact .inl rfl
    · rw [hx]
      exact .inr ⟨d, w'.leave, rfl, hd⟩

/-- calls of closures that do the same unless those of the first kind stop -/
def FollowsCall (stops : Diagnostic → Prop) (call call' : Call) : Prop :=
  ∀ c vs t, Follows stops (call c vs t) (call' c vs t)

variable {call call' : Call}

theorem follows_applyFunction (hcall : FollowsCall stops call call') (v : Value) (callee : Bytes) (vs : List Value) :
    Follows stops (applyFunction call t v callee vs) (applyFunction call' t v callee vs) := by
  cases v with
  | closure c =>
    simp only [applyFunction]
    split
    · exact hcall c vs t
    · exact .refl _
  | _ => exact .refl _

mutual
/-- evaluation does the same if calls do -/
theorem follows_evalWith (hcall : FollowsCall stops call call') (frame : FrameId) : (e : Expr) →
    Follows stops (e.evalWith call frame) (e.evalWith call' frame)
  | .numeral _ _ | .boolean _ _ | .variable _ _ | .missing => by
    rw [Expr.evalWith, Expr.evalWith]
    exact .refl _
  | .unary _ op e => by
    rw [Expr.evalWith, Expr.evalWith]
    have he := follows_evalWith hcall frame e
    split
    · exact .refl _
    · exact he.bind fun _ => .refl _
    · exact he.bind fun _ => .refl _
  | .binary t op l r => by
    rw [Expr.evalWith, Expr.evalWith]
    have hl := follows_evalWith hcall frame l
    have hr := follows_evalWith hcall frame r
    split
    · refine hl.bind fun v => (Follows.refl _).bind fun b => ?_
      cases b
      · exact .refl _
      · exact hr.bind fun _ => .refl _
    · refine hl.bind fun v => (Follows.refl _).bind fun b => ?_
      cases b
      · exact hr.bind fun _ => .refl _
      · exact .refl _
    · exact hl.bind fun _ => hr.bind fun _ => .refl _
    · exact hl.bind fun _ => hr.bind fun _ => .refl _
    · exact hl.bind fun _ => hr.bind fun _ => .refl _
  | .conditional _ c y n => by
    rw [Expr.evalWith, Expr.evalWith]
    refine (follows_evalWith hcall frame c).bind fun v => (Follows.refl _).bind fun b => ?_
    cases b
    · exact follows_evalWith hcall frame n
    · exact follows_evalWith hcall frame y
  | .call _ f args => by
    rw [Expr.evalWith, Expr.evalWith]
    refine (Follows.refl _).bind fun v => ?_
    split
    · exact (follows_evalAllWith hcall frame args).bind fun vs => follows_applyFunction hcall v f vs
    · exact .refl _
  | .array _ items => by
    rw [Expr.evalWith, Expr.evalWith]
    exact (follows_evalAllWith hcall frame items).bind fun _ => .refl _
  | .subscript _ a i => by
    rw [Expr.evalWith, Expr.evalWith]
    refine (follows_evalWith hcall frame a).bind fun v => ?_
    have hi := follows_evalWith hcall frame i
    cases v with
    | array id => exact hi.bind fun _ => .refl _
    | noArray => exact hi.bind fun _ => .refl _
    | _ => exact .refl _

theorem follows_evalAllWith (hcall : FollowsCall stops call call') (frame : FrameId) : (es : List Expr) →
    Follows stops (Expr.evalAllWith call frame es) (Expr.evalAllWith call' frame es)
  | [] => by
    rw [Expr.evalAllWith, Expr.evalAllWith]
    exact .refl _
  | e :: es => by
    rw [Expr.evalAllWith, Expr.evalAllWith]
    exact (follows_evalWith hcall frame e).bind fun _ => (follows_evalAllWith hcall frame es).bind fun _ => .refl _
end

/-- calls with a higher limit do the same, unless the lower one is exceeded -/
theorem follows_callWithin {limit limit' : Nat} (hle : limit ≤ limit') :
    FollowsCall Diagnostic.Overflows (callWithin limit) (callWithin limit') := by
  induction limit generalizing limit' with
  | zero =>
    intro c vs t
    cases limit' with
    | zero => exact .refl _
    | succ limit' => exact (Follows.refl _).bind fun _ w => .inr ⟨_, w, rfl, rfl⟩
  | succ limit ih =>
    intro c vs t
    obtain ⟨n, rfl⟩ := Nat.exists_eq_add_of_le' hle
    refine (Follows.refl _).bind fun frame => ?_
    exact follows_withFrame frame _ fun frame => follows_evalWith (ih (Nat.le_add_left limit n)) frame c.body

end Eval

/-! ## Statements -/

namespace Outcome

variable {stops : Diagnostic → Prop} {w : World} {o o' : Outcome}

/-- the run stopped early: with a diagnostic that `stops`, or for want of rounds -/
def Early (stops : Diagnostic → Prop) : Outcome → Prop
  | .done _ => False
  | .failed d _ => stops d
  | .unfinished _ => True

/-- two runs from the world `w`: the second one ends as the first one does, unless that one stopped early; then it has
printed at least as much. And it has taken no line back. -/
structure Follows (stops : Diagnostic → Prop) (w : World) (o o' : Outcome) : Prop where
  printed : w.printed <:+ o'.world.printed
  same : o' = o ∨ o.Early stops ∧ o.world.printed <:+ o'.world.printed

theorem Follows.refl (h : w.printed <:+ o.world.printed) : o.Follows stops w o := ⟨h, .inl rfl⟩

theorem Follows.of_early (ho : o.Early stops) (hlines : o.world.printed = w.printed)
    (h : w.printed <:+ o'.world.printed) : o.Follows stops w o' := ⟨h, .inr ⟨ho, hlines ▸ h⟩⟩

theorem Follows.lines (h : o.Follows stops w o') : o.world.printed <:+ o'.world.printed := by
  rcases h.same with rfl | ⟨-, hlines⟩
  · exact List.suffix_rfl
  · exact hlines

theorem Follows.eq_of_ended (h : o.Follows stops w o') (ho : o.Ended) (hstops : ∀ d w', o = .failed d w' → ¬ stops d) :
    o' = o := by
  rcases h.same with hsame | ⟨hearly, -⟩
  · exact hsame
  · cases o with
    | done w' => exact hearly.elim
    | failed d w' => exact absurd hearly (hstops d w' rfl)
    | unfinished w' => exact ho.elim

theorem Follows.andThen (h : o.Follows stops w o') {next next' : World → Outcome}
    (hnext : ∀ w, (next w).Follows stops w (next' w)) : (o.andThen next).Follows stops w (o'.andThen next') := by
  have hprinted : ∀ {lines : List Bytes}, lines <:+ o'.world.printed → lines <:+ (o'.andThen next').world.printed := by
    intro lines hlines
    cases o' with
    | done w' => exact hlines.trans (hnext w').printed
    | failed d w' => exact hlines
    | unfinished w' => exact hlines
  refine ⟨hprinted h.printed, ?_⟩
  rcases h.same with rfl | ⟨hearly, hlines⟩
  · cases o' with
    | done w' => exact (hnext w').same
    | failed d w' => exact .inl rfl
    | unfinished w' => exact .inl rfl
  · cases o with
    | done w' => exact hearly.elim
    | failed d w' => exact .inr ⟨hearly, hprinted hlines⟩
    | unfinished w' => exact .inr ⟨hearly, hprinted hlines⟩

end Outcome

/-- with the second limits, expressions do the same unless they stop with the first ones; and rounds are no fewer -/
structure Limits.Extend (stops : Diagnostic → Prop) (limits limits' : Limits) : Prop where
  eval : ∀ frame e, Eval.Follows stops (Expr.eval limits.calls frame e) (Expr.eval limits'.calls frame e)
  rounds : limits.rounds ≤ limits'.rounds

namespace Stmt

variable {stops : Diagnostic → Prop} {limits limits' : Limits} {frame : FrameId}

theorem follows_withValue (h : limits.Extend stops limits') (w : World) (e : Expr)
    {next next' : Value → World → Outcome} (hnext : ∀ v w, (next v w).Follows stops w (next' v w)) :
    (w.withValue limits frame e next).Follows stops w (w.withValue limits' frame e next') := by
  rcases hy : (e.eval limits'.calls frame).runIn w with ⟨r, w₁⟩
  have hlines : w₁.printed = w.printed := (World.grows_of_eval hy).printed
  have hprinted : w.printed <:+ (w.withValue limits' frame e next').world.printed := by
    rw [World.withValue, hy, ← hlines]
    cases r with
    | ok v => exact (hnext v w₁).printed
    | error d => exact List.suffix_rfl
  rcases h.eval frame e w with heq | ⟨d, w', hx, hd⟩
  · refine ⟨hprinted, ?_⟩
    rw [World.withValue, World.withValue, ← heq, hy]
    cases r with
    | ok v => exact (hnext v w₁).same
    | error d => exact .inl rfl
  · have hstopped : w.withValue limits frame e next = .failed d w' := by rw [World.withValue, hx]
    rw [hstopped]
    exact .of_early hd (World.grows_of_eval hx).printed hprinted

/-- loops take the same rounds, and then perhaps more -/
theorem follows_iterate {condition condition' : World → (Bool → World → Outcome) → Outcome}
    {body body' : World → Outcome}
    (hcondition : ∀ (next next' : Bool → World → Outcome), (∀ b w, (next b w).Follows stops w (next' b w)) →
      ∀ w, (condition w next).Follows stops w (condition' w next'))
    (hbody : ∀ w, (body w).Follows stops w (body' w)) {rounds rounds' : Nat} (hle : rounds ≤ rounds') (w : World) :
    (iterate condition body rounds w).Follows stops w (iterate condition' body' rounds' w) := by
  induction rounds generalizing rounds' w with
  | zero =>
    -- the first loop has no round left; what the second one still does takes no line back
    refine .of_early trivial rfl ?_
    induction rounds' generalizing w with
    | zero => exact List.suffix_rfl
    | succ rounds' ih =>
      refine (hcondition (fun _ w => .unfinished w) _ (fun b w => ?_) w).printed
      cases b with
      | false => exact .of_early trivial rfl List.suffix_rfl
      | true =>
        have hrest : ∀ w, Outcome.Follows stops w (.unfinished w) (iterate condition' body' rounds' w) :=
          fun w => .of_early trivial rfl (ih (Nat.zero_le _) w)
        exact .of_early trivial rfl ((hbody w).andThen hrest).printed
  | succ rounds ih =>
    obtain ⟨n, rfl⟩ := Nat.exists_eq_add_of_le' hle
    apply hcondition
    intro b w
    cases b with
    | false => exact .refl List.suffix_rfl
    | true => exact (hbody w).andThen (ih (Nat.le_add_left rounds n))

mutual
theorem follows_exec (h : limits.Extend stops limits') : (s : Stmt) → ∀ w,
    (s.exec limits frame w).Follows stops w (s.exec limits' frame w)
  | .declare t x e, w => by
    rw [exec, exec]
    apply follows_withValue h
    intro v w
    rw [World.declare]
    cases w.frames.declare? frame x v <;> exact .refl List.suffix_rfl
  | .assign t x e, w => by
    rw [exec, exec]
    apply follows_withValue h
    intro v w
    rw [World.assign]
    cases w.frames.assign? frame x v <;> exact .refl List.suffix_rfl
  | .print _ e, w => by
    rw [exec, exec]
    apply follows_withValue h
    intro v w
    cases v.text? w.heap with
    | some line => exact .refl (List.suffix_cons line w.printed)
    | none => exact .refl List.suffix_rfl
  | .loop t c body, w => by
    rw [exec, exec]
    refine follows_iterate (fun next next' hnext w => ?_) (follows_execAll h body) h.rounds w
    apply follows_withValue h
    intro v w
    cases v with
    | boolean b => exact hnext b w
    | _ => exact .refl List.suffix_rfl
  | .function t f ps e, w => by
    rw [exec, exec, World.declare]
    cases w.frames.declare? frame f (.closure ⟨f, ps, e, some frame, t⟩) <;> exact .refl List.suffix_rfl
  | .missing, w => by
    rw [exec, exec]
    exact .refl List.suffix_rfl

/-- **With more calls and more rounds a run does the same, unless it had stopped early.** -/
theorem follows_execAll (h : limits.Extend stops limits') : (ss : List Stmt) → ∀ w,
    (execAll limits frame ss w).Follows stops w (execAll limits' frame ss w)
  | [], w => by
    rw [execAll, execAll]
    exact .refl List.suffix_rfl
  | s :: ss, w => by
    rw [execAll, execAll]
    exact (follows_exec h s w).andThen (follows_execAll h ss)
end

end Stmt

/-! ## Runs that end -/

/-- the run failed because a call would have exceeded the limit -/
def Outcome.Overflowed : Outcome → Prop
  | .failed d _ => d.Overflows
  | .done _ | .unfinished _ => False

instance : DecidablePred Outcome.Overflowed
  | .failed d _ => inferInstanceAs (Decidable (d.cause.kind = .stackOverflow))
  | .done _ | .unfinished _ => isFalse id

namespace Block

variable {b : Block} {calls calls' rounds rounds' : Nat} {frame : FrameId} {w : World} {o o' : Outcome}

/-- with a limit on calls, the run of a block comes to this end: its loops do with some number of rounds -/
def Ends (b : Block) (calls : Nat) (frame : FrameId) (w : World) (o : Outcome) : Prop :=
  o.Ended ∧ ∃ rounds, b.exec ⟨calls, rounds⟩ frame w = o

/-- a run with higher limits beside one with lower limits -/
theorem follows_exec (hcalls : calls ≤ calls') (hrounds : rounds ≤ rounds') (b : Block) (frame : FrameId) (w : World) :
    (b.exec ⟨calls, rounds⟩ frame w).Follows Diagnostic.Overflows w (b.exec ⟨calls', rounds'⟩ frame w) :=
  Stmt.follows_execAll ⟨fun frame e => Eval.follows_evalWith (Eval.follows_callWithin hcalls) frame e, hrounds⟩ b w

/-- more rounds do not change the end of a run -/
theorem exec_eq_of_ended (hle : rounds ≤ rounds') (h : (b.exec ⟨calls, rounds⟩ frame w).Ended) :
    b.exec ⟨calls, rounds'⟩ frame w = b.exec ⟨calls, rounds⟩ frame w := by
  have hextend : Limits.Extend (fun _ => False) ⟨calls, rounds⟩ ⟨calls, rounds'⟩ := ⟨fun _ _ => .refl _, hle⟩
  exact (Stmt.follows_execAll hextend b w).eq_of_ended h fun _ _ _ => id

/-- a run comes to one end only -/
theorem Ends.unique (h : b.Ends calls frame w o) (h' : b.Ends calls frame w o') : o' = o := by
  obtain ⟨hended, rounds, rfl⟩ := h
  obtain ⟨hended', rounds', rfl⟩ := h'
  rw [← exec_eq_of_ended (Nat.le_max_left rounds rounds') hended,
    exec_eq_of_ended (Nat.le_max_right rounds rounds') hended']

theorem output_prefix_of_printed {w w' : World} (h : w.printed <:+ w'.printed) : w.output <+: w'.output := by
  obtain ⟨lines, hlines⟩ := h
  rw [World.output, World.output, ← hlines, List.reverse_append, List.flatMap_append]
  exact List.prefix_append _ _

/-- **The limit on calls shows in overflows only.** A run that ends with one limit, without exceeding it, ends with
every higher limit too: in the same way and in the same world, and in no other way. What a run has printed when a call
exceeds the limit is the beginning of what the run prints with a higher limit, should it end then. -/
theorem call_limit_shows_in_overflow_only (hle : calls ≤ calls') (h : b.Ends calls frame w o) :
    (¬ o.Overflowed → b.Ends calls' frame w o ∧ ∀ o', b.Ends calls' frame w o' → o' = o) ∧
    (o.Overflowed → ∀ o', b.Ends calls' frame w o' → o.world.output <+: o'.world.output) := by
  obtain ⟨hended, rounds, hrun⟩ := h
  constructor
  · intro hno
    have hstops : ∀ d w', o = .failed d w' → ¬ d.Overflows := by
      rintro d w' rfl
      exact hno
    have hfollows := follows_exec hle (Nat.le_refl rounds) b frame w
    rw [hrun] at hfollows
    have hsame : b.Ends calls' frame w o := ⟨hended, rounds, hfollows.eq_of_ended hended hstops⟩
    exact ⟨hsame, fun o' h' => hsame.unique h'⟩
  · rintro - o' ⟨hended', rounds', rfl⟩
    -- with as many rounds as both runs need
    have hfollows := follows_exec hle (Nat.le_max_left rounds rounds') b frame w
    rw [hrun, exec_eq_of_ended (Nat.le_max_right rounds rounds') hended'] at hfollows
    exact output_prefix_of_printed hfollows.lines

/-- `fun g(x) = !x`, `fun f(x) = g(x)`, `a := true`, `while a { print a  a = f(a) }` -/
def callsInside : Block :=
  let x : Expr := .variable .unplaced (bytes "x")
  let a : Expr := .variable .unplaced (bytes "a")
  [.function .unplaced (bytes "g") [bytes "x"] (.unary .unplaced (bytes "!") x),
    .function .unplaced (bytes "f") [bytes "x"] (.call .unplaced (bytes "g") [x]),
    .declare .unplaced (bytes "a") (.boolean .unplaced true),
    .loop .unplaced a [.print .unplaced a, .assign .unplaced (bytes "a") (.call .unplaced (bytes "f") [a])]]

/-- One call is too few for the loop, which has printed a line by then; two are as good as nine. -/
theorem call_limit_shows_in_overflow_only_loop :
    let few := callsInside.exec ⟨1, 2⟩ World.root .initial
    let enough := callsInside.exec ⟨2, 2⟩ World.root .initial
    few.Overflowed ∧ few.world.output = bytes "true\n" ∧ few.world.output <+: enough.world.output ∧
      enough.Ended ∧ ¬ enough.Overflowed ∧ callsInside.Ends 9 World.root .initial enough := by
  intro few enough
  have hfew : callsInside.Ends 1 World.root .initial few := ⟨by decide +kernel, 2, rfl⟩
  have henough : callsInside.Ends 2 World.root .initial enough := ⟨by decide +kernel, 2, rfl⟩
  have hover : few.Overflowed := by decide +kernel
  have hno : ¬ enough.Overflowed := by decide +kernel
  refine ⟨hover, by decide +kernel, ?_, henough.1, hno, ?_⟩
  · exact (call_limit_shows_in_overflow_only (by decide) hfew).2 hover enough henough
  · exact ((call_limit_shows_in_overflow_only (by decide) henough).1 hno).1

end Block

end Treewalk
