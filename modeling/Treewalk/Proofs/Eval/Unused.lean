/-
Names that a program does not use.

A program does not find out whether the root frame binds a name that stands nowhere in it. A run in a world where the
name is bound, and where there may be other arrays besides, goes side by side with a run where it is not: all other
names mean the same up to the names of arrays, and no closure uses the name, since closures come from the program
(`World.Hides`). Evaluations keep this, by the induction over all that an evaluation does (`Expr.tracking_hides`), and
so do statements (`Stmt.tracked_execAll`). Hence both runs print the same and end alike
(`Block.unused_name_changes_nothing`).
-/
import Treewalk.Proofs.Eval.Declarations
import Treewalk.Proofs.Eval.Places
import Treewalk.Proofs.Eval.Tracking

namespace Treewalk

/-! ## Names in statements -/

mutual
/-- the names in a statement: declared and assigned ones, functions, parameters, and those in expressions -/
def Stmt.names : Stmt → List Bytes
  | .declare _ x e => x :: e.names
  | .assign _ x e => x :: e.names
  | .print _ e => e.names
  | .loop _ c body => c.names ++ Stmt.namesAll body
  | .function _ f ps e => f :: (ps ++ e.names)
  | .missing => []

def Stmt.namesAll : List Stmt → List Bytes
  | [] => []
  | s :: ss => s.names ++ Stmt.namesAll ss
end

/-! ## Outcomes side by side -/

namespace Outcome

/-- both runs are done, both failed for one reason at one place, or both are unfinished, in worlds that `R` relates -/
inductive Tracked (R : World → World → Prop) : Outcome → Outcome → Prop
  | done {w w' : World} (hR : R w w') : Tracked R (.done w) (.done w')
  | failed (d : Diagnostic) {w w' : World} (hR : R w w') : Tracked R (.failed d w) (.failed d w')
  | unfinished {w w' : World} (hR : R w w') : Tracked R (.unfinished w) (.unfinished w')

namespace Tracked

variable {R : World → World → Prop} {o o' : Outcome}

theorem world (h : o.Tracked R o') : R o.world o'.world := by
  cases h with
  | done hR => exact hR
  | failed _ hR => exact hR
  | unfinished hR => exact hR

theorem diagnostic?_eq (h : o.Tracked R o') : o'.diagnostic? = o.diagnostic? := by
  cases h <;> rfl

theorem shown_eq (h : o.Tracked R o') (houtput : ∀ {w w'}, R w w' → w'.output = w.output) : o'.shown = o.shown := by
  cases h with
  | done hR => rw [shown, shown, houtput hR]
  | failed _ hR => rw [shown, shown, houtput hR]
  | unfinished hR => rw [shown, shown, houtput hR]

theorem andThen (h : o.Tracked R o') {next next' : World → Outcome}
    (hnext : ∀ {w w'}, R w w' → (next w).Tracked R (next' w')) : (o.andThen next).Tracked R (o'.andThen next') := by
  cases h with
  | done hR => exact hnext hR
  | failed d hR => exact .failed d hR
  | unfinished hR => exact .unfinished hR

theorem iterate {condition : World → (Bool → World → Outcome) → Outcome} {body : World → Outcome}
    (hcondition : ∀ {w w'}, R w w' → ∀ {next next' : Bool → World → Outcome},
      (∀ b {w w'}, R w w' → (next b w).Tracked R (next' b w')) → (condition w next).Tracked R (condition w' next'))
    (hbody : ∀ {w w'}, R w w' → (body w).Tracked R (body w')) (rounds : Nat) {w w' : World} (hR : R w w') :
    (Treewalk.iterate condition body rounds w).Tracked R (Treewalk.iterate condition body rounds w') := by
  -- both loops have the same rounds left
  induction rounds generalizing w w' with
  | zero => exact .unfinished hR
  | succ rounds ih =>
    apply hcondition hR
    intro b w₁ w₁' hR₁
    cases b with
    | false => exact .done hR₁
    | true => exact (hbody hR₁).andThen ih

end Tracked

end Outcome

theorem Tracking.withValue {ρ : ArrayId → ArrayId} {name : Bytes → Prop} {R : World → World → Prop}
    {Q : Nat → Value → Prop} (h : Tracking ρ name R Q) {w w' : World} (hR : R w w') (limits : Limits) (frame : FrameId)
    {e : Expr} (hn : ∀ x ∈ e.names, name x) {next next' : Value → World → Outcome}
    (hnext : ∀ {v w w'}, R w w' → Q w.heap.size v → (next v w).Tracked R (next' (v.rename ρ) w')) :
    (w.withValue limits frame e next).Tracked R (w'.withValue limits frame e next') := by
  rcases Stmt.withValue_cases limits frame w e next with ⟨d, w₁, he, heq⟩ | ⟨v, w₁, he, heq⟩
  · obtain ⟨w₁', he', hR₁, -⟩ := h.runIn_eval hR hn he
    rw [heq, World.withValue, he']
    exact .failed d hR₁
  · obtain ⟨w₁', he', hR₁, hv⟩ := h.runIn_eval hR hn he
    rw [heq, World.withValue, he']
    exact hnext hR₁ (hv v rfl)

/-! ## Frames with another name -/

namespace Frames

variable {x y : Bytes} {ρ : ArrayId → ArrayId} {fs fs' : Frames}

/-- frames that give the same values, up to the names of arrays, to all names but one -/
structure Hides (x : Bytes) (ρ : ArrayId → ArrayId) (fs fs' : Frames) : Prop where
  size : fs'.size = fs.size
  chain : ∀ i, fs'.chain i = fs.chain i
  live : ∀ i, fs'.isLive i = fs.isLive i
  own : ∀ {y}, y ≠ x → ∀ i, fs'.own? y i = (fs.own? y i).map (Value.rename ρ)

namespace Hides

theorem lookup (h : Hides x ρ fs fs') (hy : y ≠ x) (i : FrameId) :
    fs'.lookup? i y = (fs.lookup? i y).map (Value.rename ρ) := by
  rw [lookup?, lookup?, h.chain, List.map_findSome?]
  congr 1
  exact funext (h.own hy)

theorem hasOwn_eq (h : Hides x ρ fs fs') (hy : y ≠ x) (i : FrameId) : fs'.hasOwn i y = fs.hasOwn i y := by
  rw [hasOwn, hasOwn, h.own hy, Option.isSome_map]

theorem owner_eq (h : Hides x ρ fs fs') (hy : y ≠ x) (i : FrameId) : fs'.owner? i y = fs.owner? i y := by
  rw [owner?, owner?, h.chain]
  congr 1
  exact funext (h.hasOwn_eq hy)

theorem push (h : Hides x ρ fs fs') (parent : FrameId) (b : Bindings) :
    Hides x ρ (fs.push ⟨fs.chain parent, b, true⟩) (fs'.push ⟨fs'.chain parent, b.rename ρ, true⟩) where
  size := by rw [Array.size_push, Array.size_push, h.size]
  chain i := by rw [chain_push, chain_push, h.size, h.chain, h.chain]
  live i := by rw [isLive_push_eq, isLive_push_eq, h.size, h.live]
  own hy i := by
    rw [own?_push, own?_push, h.size, h.own hy, Bindings.lookup_rename]
    split <;> rfl

theorem pop (h : Hides x ρ fs fs') : Hides x ρ fs.pop fs'.pop where
  size := by rw [Array.size_pop, Array.size_pop, h.size]
  chain i := by rw [chain_pop, chain_pop, h.size, h.chain]
  live i := by rw [isLive_pop, isLive_pop, h.size, h.live]
  own hy i := by
    rw [own?_pop, own?_pop, h.size, h.own hy]
    split <;> rfl

theorem declare (h : Hides x ρ fs fs') (i : FrameId) (y : Bytes) (v : Value) :
    Hides x ρ (fs.rebind i ((y, v) :: ·)) (fs'.rebind i ((y, v.rename ρ) :: ·)) where
  size := by rw [size_rebind, size_rebind, h.size]
  chain j := by rw [chain_rebind, chain_rebind, h.chain]
  live j := by rw [isLive_rebind, isLive_rebind, h.live]
  own hz j := by
    rw [own?_declare, own?_declare, h.size, h.own hz]
    split <;> rfl

theorem assign (h : Hides x ρ fs fs') (i : FrameId) (y : Bytes) (v : Value) :
    Hides x ρ (fs.rebind i (·.set y v)) (fs'.rebind i (·.set y (v.rename ρ))) where
  size := by rw [size_rebind, size_rebind, h.size]
  chain j := by rw [chain_rebind, chain_rebind, h.chain]
  live j := by rw [isLive_rebind, isLive_rebind, h.live]
  own hz j := by
    rw [own?_assign, own?_assign, h.own hz]
    split
    · rw [Option.map_map, Option.map_map]
      rfl
    · rfl

end Hides

/-- declaring the name hides it, where no name means an array -/
theorem hides_declare (hfs : ∀ {y i v}, fs.own? y i = some v → v.rename ρ = v) (i : FrameId) (x : Bytes) (v : Value) :
    Hides x ρ fs (fs.rebind i ((x, v) :: ·)) where
  size := size_rebind fs i _
  chain := chain_rebind fs i _
  live := isLive_rebind fs i _
  own {y} hy j := by
    rw [own?_declare, if_neg fun h => hy h.2.1]
    cases hv : fs.own? y j with
    | none => rfl
    | some u => rw [Option.map_some, hfs hv]

end Frames

/-! ## Worlds with another name -/

/-- a closure does not use the name -/
def Value.Spares (x : Bytes) : Value → Prop
  | .closure c => x ∉ c.body.names
  | _ => True

namespace World

variable {x y : Bytes} {n : Nat} {w w' : World} {v : Value} {frame : FrameId}

/-- the second world is the first one with `n` other arrays and perhaps with the name `x`, which nothing uses -/
structure Hides (x : Bytes) (n : Nat) (w w' : World) : Prop where
  frames : Frames.Hides x (· + n) w.frames w'.frames
  size : w'.heap.size = w.heap.size + n
  items : ∀ id, w'.heap.items (id + n) = (w.heap.items id).map (Value.rename (· + n))
  printed : w'.printed = w.printed
  named : ∀ {y i v}, w.frames.own? y i = some v → v.Spares x
  held : ∀ {id v}, v ∈ w.heap.items id → v.Spares x

namespace Hides

theorem output_eq (h : Hides x n w w') : w'.output = w.output := by
  rw [output, output, h.printed]

theorem spares_lookup (h : Hides x n w w') (hv : w.frames.lookup? frame y = some v) : v.Spares x := by
  obtain ⟨i, -, hown⟩ := List.exists_of_findSome?_eq_some hv
  exact h.named hown

theorem push (h : Hides x n w w') {vs : List Value} (hvs : ∀ v ∈ vs, v.Spares x) :
    Hides x n { w with heap := w.heap.push vs } { w' with heap := w'.heap.push (vs.map (Value.rename (· + n))) } where
  frames := h.frames
  size := by
    rw [Array.size_push, Array.size_push, h.size]
    omega
  items id := by
    simp only [Heap.items_push, h.size, Nat.add_right_cancel_iff, h.items]
    split <;> rfl
  printed := h.printed
  named := h.named
  held {id v} hv := by
    rw [Heap.items_push] at hv
    split at hv
    · exact hvs v hv
    · exact h.held hv

theorem enter (h : Hides x n w w') (parent : FrameId) {b : Bindings} (hb : ∀ p ∈ b, p.2.Spares x) :
    Hides x n (w.enter parent b) (w'.enter parent (b.rename (· + n))) where
  frames := h.frames.push parent b
  size := h.size
  items := h.items
  printed := h.printed
  named {y i v} hv := by
    rw [World.enter, Frames.own?_push] at hv
    split at hv
    · exact hb (y, v) (Bindings.mem_of_lookup hv)
    · exact h.named hv
  held := h.held

theorem leave (h : Hides x n w w') : Hides x n w.leave w'.leave where
  frames := h.frames.pop
  size := h.size
  items := h.items
  printed := h.printed
  named {y i v} hv := by
    rw [World.leave, Frames.own?_pop] at hv
    split at hv
    · exact h.named hv
    · cases hv
  held := h.held

open Pairing (bound)

theorem declare (h : Hides x n w w') (hy : y ≠ x) (hv : v.Spares x) (frame : FrameId) (t : Token) :
    (bound (w.declare frame t y v) w).Tracked (Hides x n) (bound (w'.declare frame t y (v.rename (· + n))) w') := by
  rw [World.declare, World.declare, Frames.declare?, Frames.declare?, h.frames.hasOwn_eq hy]
  cases w.frames.hasOwn frame y with
  | true => exact .failed _ h
  | false =>
    refine .done ⟨h.frames.declare frame y v, h.size, h.items, h.printed, ?_, h.held⟩
    intro z i u hu
    rw [Frames.own?_declare] at hu
    split at hu
    · cases hu
      exact hv
    · exact h.named hu

theorem assign (h : Hides x n w w') (hy : y ≠ x) (hv : v.Spares x) (frame : FrameId) (t : Token) :
    (bound (w.assign frame t y v) w).Tracked (Hides x n) (bound (w'.assign frame t y (v.rename (· + n))) w') := by
  rw [World.assign, World.assign, Frames.assign?, Frames.assign?, h.frames.owner_eq hy]
  cases w.frames.owner? frame y with
  | none => exact .failed _ h
  | some i =>
    refine .done ⟨h.frames.assign i y v, h.size, h.items, h.printed, ?_, h.held⟩
    intro z j u hu
    rw [Frames.own?_assign] at hu
    split at hu
    · obtain ⟨_, -, rfl⟩ := Option.map_eq_some_iff.1 hu
      exact hv
    · exact h.named hu

theorem print (h : Hides x n w w') (line : Bytes) : Hides x n (w.print line) (w'.print line) :=
  ⟨h.frames, h.size, h.items, congrArg (line :: ·) h.printed, h.named, h.held⟩

end Hides

end World

/-! ## Evaluations and runs -/

theorem Expr.tracking_hides (x : Bytes) (n : Nat) :
    Tracking (· + n) (· ≠ x) (World.Hides x n) fun _ v => v.Spares x where
  number _ := trivial
  boolean _ := trivial
  array _ := trivial
  closure hc _ hy := ne_of_mem_of_not_mem hy hc
  mono hv _ := hv
  size h := h.frames.size
  live h := h.frames.live
  lookup h frame _ hy := h.frames.lookup hy frame
  bound h _ hv := h.spares_lookup hv
  items h := h.items
  item h hv := h.held hv
  fresh h := h.size.symm
  push h hvs := h.push hvs
  enter h _ hvs hb := h.enter _ (Bindings.forall_ofList hb hvs)
  leave h := h.leave

namespace Stmt

open World (Hides)

variable {x : Bytes} {n : Nat} (limits : Limits) (frame : FrameId)

mutual
/-- a statement that does not use the name ends alike in both worlds -/
theorem tracked_exec : (s : Stmt) → x ∉ s.names → ∀ {w w'}, Hides x n w w' →
    (s.exec limits frame w).Tracked (Hides x n) (s.exec limits frame w')
  | .declare t y e, hx, w, w', h => by
    rw [names, List.mem_cons, not_or] at hx
    rw [exec, exec]
    apply (Expr.tracking_hides x n).withValue h limits frame fun z hz => ne_of_mem_of_not_mem hz hx.2
    intro v w₁ w₁' h₁ hv
    exact h₁.declare (Ne.symm hx.1) hv frame t
  | .assign t y e, hx, w, w', h => by
    rw [names, List.mem_cons, not_or] at hx
    rw [exec, exec]
    apply (Expr.tracking_hides x n).withValue h limits frame fun z hz => ne_of_mem_of_not_mem hz hx.2
    intro v w₁ w₁' h₁ hv
    exact h₁.assign (Ne.symm hx.1) hv frame t
  | .print _ e, hx, w, w', h => by
    rw [names] at hx
    rw [exec, exec]
    apply (Expr.tracking_hides x n).withValue h limits frame fun z hz => ne_of_mem_of_not_mem hz hx
    intro v w₁ w₁' h₁ hv
    rw [Value.text?_rename h₁.items]
    cases v.text? w₁.heap with
    | some line => exact .done (h₁.print line)
    | none => exact .unfinished h₁
  | .loop t c body, hx, w, w', h => by
    rw [names, List.mem_append, not_or] at hx
    rw [exec, exec]
    refine .iterate ?_ (fun h => tracked_execAll body hx.2 h) limits.rounds h
    intro w w' h next next' hnext
    apply (Expr.tracking_hides x n).withValue h limits frame fun z hz => ne_of_mem_of_not_mem hz hx.1
    intro v w₁ w₁' h₁ hv
    cases v with
    | boolean b => exact hnext b h₁
    | _ => exact .failed _ h₁
  | .function t f ps e, hx, w, w', h => by
    rw [names, List.mem_cons, List.mem_append, not_or, not_or] at hx
    rw [exec, exec]
    exact h.declare (v := .closure ⟨f, ps, e, some frame, t⟩) (Ne.symm hx.1) hx.2.2 frame t
  | .missing, _, w, w', h => by
    rw [exec, exec]
    exact .failed _ h

/-- **A program that does not use the name ends alike in both worlds.** -/
theorem tracked_execAll : (ss : List Stmt) → x ∉ namesAll ss → ∀ {w w'}, Hides x n w w' →
    (execAll limits frame ss w).Tracked (Hides x n) (execAll limits frame ss w')
  | [], _, w, w', h => by
    rw [execAll, execAll]
    exact .done h
  | s :: ss, hx, w, w', h => by
    rw [namesAll, List.mem_append, not_or] at hx
    rw [execAll, execAll]
    exact (tracked_exec s hx.1 h).andThen fun h => tracked_execAll ss hx.2 h
end

end Stmt

namespace World

/-- in a new world names have built-in values -/
theorem mem_builtins_of_own? {y : Bytes} {i : FrameId} {v : Value} (h : initial.frames.own? y i = some v) :
    ∃ z, (z, v) ∈ builtins := by
  rcases Frames.own?_declareAll h with hempty | hmem
  · cases i with
    | zero => simp [Frames.own?] at hempty
    | succ i => simp [Frames.own?] at hempty
  · exact hmem

theorem hides_initial (x : Bytes) (v : Value) (h : Heap) :
    Hides x h.size initial ⟨initial.frames.rebind root ((x, v) :: ·), h, []⟩ := by
  have hbuiltin : ∀ p ∈ builtins, p.2.rename (· + h.size) = p.2 ∧ p.2.Spares x := by
    simp only [builtins, List.forall_mem_cons]
    exact ⟨⟨rfl, trivial⟩, ⟨rfl, trivial⟩, ⟨rfl, trivial⟩, ⟨rfl, trivial⟩, ⟨rfl, trivial⟩, ⟨rfl, trivial⟩,
      ⟨rfl, trivial⟩, List.forall_mem_nil _⟩
  have hown : ∀ {y i u}, initial.frames.own? y i = some u → u.rename (· + h.size) = u ∧ u.Spares x := by
    intro y i u hu
    obtain ⟨z, hz⟩ := mem_builtins_of_own? hu
    exact hbuiltin _ hz
  have hempty : ∀ id, initial.heap.items id = [] := fun id => by simp [initial, Heap.items]
  refine ⟨Frames.hides_declare (fun hu => (hown hu).1) root x v, (Nat.zero_add _).symm, ?_, rfl,
    fun hu => (hown hu).2, ?_⟩
  · intro id
    rw [hempty]
    exact Heap.items_of_size_le (Nat.le_add_left _ _)
  · intro id u hu
    rw [hempty] at hu
    cases hu

end World

namespace Block

open World (root)

/-- **A name that a program does not use changes nothing.** If the root frame of a new world binds one more name to any
value, with the arrays of that value in the heap `h`, a program without that name prints the same and ends alike. All
other names have the same values then, up to the names of arrays, which are numbered from the size of `h` on. -/
theorem unused_name_changes_nothing {b : Block} {x : Bytes} (hbuiltin : x ∉ builtins.map Prod.fst)
    (hx : x ∉ Stmt.namesAll b) (t : Token) (v : Value) (h : Heap) (limits : Limits) :
    ∃ w, World.declare ⟨World.initial.frames, h, []⟩ root t x v = .ok w ∧
      (b.exec limits root w).shown = (b.run limits).shown ∧
      (b.exec limits root w).diagnostic? = (b.run limits).diagnostic? ∧
      (∀ y, y ≠ x → (b.exec limits root w).world.frames.own? y root =
        ((b.run limits).world.frames.own? y root).map (Value.rename (· + h.size))) ∧
      ∀ id, (b.exec limits root w).world.heap.items (id + h.size) =
        ((b.run limits).world.heap.items id).map (Value.rename (· + h.size)) := by
  have hnew : World.initial.frames.hasOwn root x = false := by
    rw [← Bool.not_eq_true, World.Names.initial.hasOwn_iff]
    exact hbuiltin
  have htracked := Stmt.tracked_execAll limits root b hx (World.hides_initial x v h)
  refine ⟨_, by simp only [World.declare, Frames.declare?, hnew]; rfl, htracked.shown_eq World.Hides.output_eq,
    htracked.diagnostic?_eq, ?_, htracked.world.items⟩
  intro y hy
  exact htracked.world.frames.own hy root

/-- `k := [true]`, `function f(a) = [a, k]`, `print f(k)`, `print q` -/
def sharesArray : Block :=
  let k : Expr := .variable .unplaced (bytes "k")
  [.declare .unplaced (bytes "k") (.array .unplaced [.boolean .unplaced true]),
    .function .unplaced (bytes "f") [bytes "a"] (.array .unplaced [.variable .unplaced (bytes "a"), k]),
    .print .unplaced (.call .unplaced (bytes "f") [k]), .print .unplaced (.variable .unplaced (bytes "q"))]

/-- The other name is bound to an array with a closure that uses it. The program prints an array and fails. -/
theorem unused_name_changes_nothing_closure : bytes "x" ∉ builtins.map Prod.fst ∧
    bytes "x" ∉ Stmt.namesAll sharesArray ∧ ∃ c w, bytes "x" ∈ c.body.names ∧
      World.declare ⟨World.initial.frames, #[[.closure c]], []⟩ root .unplaced (bytes "x") (.array 0) = .ok w ∧
      (sharesArray.exec ⟨9, 9⟩ root w).shown = (sharesArray.run ⟨9, 9⟩).shown ∧
      (sharesArray.run ⟨9, 9⟩).world.output = bytes "[[true], [true]]\n" ∧
      (sharesArray.run ⟨9, 9⟩).diagnostic?.isSome = true ∧
      (sharesArray.exec ⟨9, 9⟩ root w).world.frames.own? (bytes "k") root = some (.array 1) := by
  let c : Closure := ⟨bytes "g", [], .variable .unplaced (bytes "x"), some root, .unplaced⟩
  have hbuiltin : bytes "x" ∉ builtins.map Prod.fst := by decide +kernel
  have hx : bytes "x" ∉ Stmt.namesAll sharesArray := by decide +kernel
  obtain ⟨w, hw, hshown, -, hown, -⟩ :=
    unused_name_changes_nothing hbuiltin hx .unplaced (.array 0) #[[.closure c]] ⟨9, 9⟩
  exact ⟨hbuiltin, hx, c, w, List.mem_cons_self, hw, hshown, by decide +kernel, by decide +kernel,
    hown (bytes "k") (by decide +kernel)⟩

end Block

end Treewalk
