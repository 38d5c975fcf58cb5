/-
Arrays never change and never contain themselves.

An array is made when all its items are there, it is the last one then, and nothing changes it later. So its items are
arrays that were made before it, or no arrays (`World.Layered`), and going down from array to array comes to an end.
Evaluations keep this, by the induction over all that an evaluation does (`Expr.invariant_layered`), and statements do.
The heaps of one evaluation are all of them starts of the heap that it leaves (`Moment.Reaches.heap`), and those of
later states go on with it, so an array has the same items whenever it is looked at
(`World.arrays_are_fixed_and_well_founded`).

The states are those of programs that run one after another from a new world, whether they fail or not: those in which a
run comes to a statement and those in which it ends. At a moment of an evaluation, the arrays in question are those that
a frame, another array or a value in progress refers to.
-/
import Treewalk.Proofs.Eval.Captures
import Treewalk.Proofs.Eval.Histories
import Treewalk.Proofs.Eval.Tracking

namespace Treewalk

/-! ## Arrays of older arrays -/

section Texts

open Relation

variable {h : Heap} {v : Value}

end Texts

namespace World

variable {w w' : World} {v : Value}

/-- all arrays that names or arrays refer to are there, and the items of an array were made before it -/
structure Layered (w : World) : Prop where
  closed : w.Closed
  older : ∀ id, Value.AllBelow id (w.heap.items id)

namespace Layered

theorem initial : World.initial.Layered := by
  have hempty : ∀ id, World.initial.heap.items id = [] := fun id => by simp [World.initial, Heap.items]
  refine ⟨⟨by decide +kernel, by decide +kernel⟩, ?_⟩
  intro id
  rw [hempty]
  exact List.forall_mem_nil _

theorem push (h : w.Layered) {vs : List Value} (hvs : Value.AllBelow w.heap.size vs) :
    Layered { w with heap := w.heap.push vs } := by
  refine ⟨h.closed.push hvs, ?_⟩
  intro id
  rw [Heap.items_push]
  split
  · rename_i hid
    rw [hid]
    exact hvs
  · exact h.older id

theorem enter (h : w.Layered) (parent : FrameId) {b : Bindings} (hb : ∀ p ∈ b, p.2.Below w.heap.size) :
    (w.enter parent b).Layered := ⟨h.closed.enter parent hb, h.older⟩

theorem leave (h : w.Layered) : w.leave.Layered := ⟨h.closed.leave, h.older⟩

end Layered

end World

/-! ## Evaluations -/

/-- evaluations keep arrays in layers -/
theorem Expr.invariant_layered : Expr.Invariant World.Layered Value.Below where
  number _ := trivial
  boolean _ := trivial
  array n := Nat.lt_succ_self n
  mono := Value.Below.mono
  bound hw hv := hw.closed.below_lookup hv
  item hw hv := hw.closed.allBelow_items _ _ hv
  push hw hvs := hw.push hvs
  enter hw _ hb := hw.enter _ hb
  leave hw := hw.leave

theorem World.Layered.eval {w w' : World} (h : w.Layered) {limit : Nat} {frame : FrameId} {e : Expr}
    {a : Except Diagnostic Value} (he : (e.eval limit frame).runIn w = (a, w')) :
    w'.Layered ∧ ∀ v, a = .ok v → v.Below w'.heap.size := Expr.invariant_layered.eval h he

namespace Expr

variable {limit depth : Nat} {frame : FrameId} {w w₁ w₂ : World}

/-- an evaluation ends in one world -/
theorem Yields.world_eq {e : Expr} {a a' : Except Diagnostic Value} (h : Yields limit depth frame e w a w₁)
    (h' : Yields limit depth frame e w a' w₂) : w₁ = w₂ :=
  (Prod.mk.inj (h.runIn_eval.symm.trans h'.runIn_eval)).2

/-- one of several expressions -/
theorem YieldsAll.grows_of_part {before after : List Expr} {e : Expr} {a : Except Diagnostic (List Value)}
    {vs : List Value} {b : Except Diagnostic Value} {w' : World}
    (h : YieldsAll limit depth frame (before ++ e :: after) w a w')
    (hbefore : YieldsAll limit depth frame before w (.ok vs) w₁) (he : Yields limit depth frame e w₁ b w₂) :
    w₂.Grows w' := by
  induction before generalizing w a vs with
  | nil =>
    cases hbefore
    cases h with
    | fails he' => exact he.world_eq he' ▸ .refl _
    | cons he' hes => exact he.world_eq he' ▸ hes.grows
  | cons e' before ih =>
    generalize hok : Except.ok vs = b at hbefore
    cases hbefore with
    | fails => cases hok
    | @cons _ _ _ _ _ _ w₃ a' _ hfirst hrest =>
      cases h with
      | fails hfails =>
        obtain ⟨h, -⟩ := Prod.mk.inj (hfirst.runIn_eval.symm.trans hfails.runIn_eval)
        cases h
      | cons hfirst' hrest' =>
        obtain rfl := hfirst.world_eq hfirst'
        cases a' with
        | error d => cases hok
        | ok vs' => exact ih hrest' hrest

/-- a call of a function evaluates its arguments -/
theorem Yields.exists_arguments {t : Token} {f : Bytes} {args : List Expr} {v : Value} {a : Except Diagnostic Value}
    (hf : w.frames.lookup? frame f = some v) (hv : v.isFunction = true)
    (h : Yields limit depth frame (.call t f args) w a w₂) :
    ∃ b w₁, YieldsAll limit depth frame args w b w₁ ∧ w₁.Grows w₂ := by
  cases h with
  | calleeUnbound hf' =>
    rw [hf'] at hf
    cases hf
  | calleeWrong hf' hv' =>
    rw [hf'] at hf
    cases hf
    rw [hv'] at hv
    cases hv
  | argumentFails _ _ hargs | noFunction _ hargs | nativeArity _ hargs | native _ hargs | closureArity _ hargs
  | scopeGone _ hargs | tooDeep _ hargs | clash _ hargs => exact ⟨_, _, hargs, .refl _⟩
  | body _ hargs _ _ _ _ he => exact ⟨_, _, hargs, he.grows.leave⟩

end Expr

namespace Moment

open Treewalk.Expr (Yields)

variable {limit : Nat} {m m' : Moment}

theorem result_eq {a : Except Diagnostic Value} {w : World}
    (h : Expr.Yields limit m.depth m.frame m.expr m.world a w) : m.result limit = (a, w) := h.runIn_eval

theorem heap_result (limit : Nat) (m : Moment) : m.world.heap.toList <+: (m.result limit).2.heap.toList := by
  obtain ⟨a, w, h⟩ := Expr.ends limit m.depth m.frame m.expr m.world
  rw [result_eq h]
  exact h.grows.heap

/-- the heap of a part goes on from that of the moment -/
theorem Part.heap_world (h : Part limit m m') : m.world.heap.toList <+: m'.world.heap.toList := by
  cases h with
  | operand | left | test | array => exact List.prefix_rfl
  | right h => exact h.grows.heap
  | chosen h => exact h.grows.heap
  | index h => exact h.grows.heap
  | argument _ _ h => exact h.grows.heap
  | item h => exact h.grows.heap
  | body _ h => exact h.grows.heap

/-- the heap that a moment leaves goes on from the one that a part of it leaves -/
theorem Part.heap_result (h : Part limit m m') :
    (m'.result limit).2.heap.toList <+: (m.result limit).2.heap.toList := by
  obtain ⟨a, w, hpart⟩ := Expr.ends limit m'.depth m'.frame m'.expr m'.world
  obtain ⟨b, w', hwhole⟩ := Expr.ends limit m.depth m.frame m.expr m.world
  rw [result_eq hpart, result_eq hwhole]
  cases h with
  | operand hop =>
    cases hwhole with
    | unknownUnary hop' => rw [hop'] at hop; cases hop
    | negate _ he => exact hpart.world_eq he ▸ List.prefix_rfl
    | invert _ he => exact hpart.world_eq he ▸ List.prefix_rfl
  | left =>
    cases hwhole with
    | leftFails hl => exact hpart.world_eq hl ▸ List.prefix_rfl
    | leftWrong _ hl => exact hpart.world_eq hl ▸ List.prefix_rfl
    | andFalse _ hl => exact hpart.world_eq hl ▸ List.prefix_rfl
    | orTrue _ hl => exact hpart.world_eq hl ▸ List.prefix_rfl
    | andTrue _ hl hr => exact hpart.world_eq hl ▸ hr.grows.heap
    | orFalse _ hl hr => exact hpart.world_eq hl ▸ hr.grows.heap
    | arithmetic _ hl hr => exact hpart.world_eq hl ▸ hr.grows.heap
    | comparison _ hl hr => exact hpart.world_eq hl ▸ hr.grows.heap
    | unknownBinary _ hl hr => exact hpart.world_eq hl ▸ hr.grows.heap
  | @right _ _ _ _ op _ _ _ _ _ _ hl hand hor =>
    -- the second operand is evaluated last
    rcases hop : BinaryOp.ofText? op with _ | _ | _ | _ | _
    · exact (Yields.unknownBinary hop hl hpart).world_eq hwhole ▸ List.prefix_rfl
    · obtain rfl := hand hop
      exact (Yields.andTrue hop hl hpart).world_eq hwhole ▸ List.prefix_rfl
    · obtain rfl := hor hop
      exact (Yields.orFalse hop hl hpart).world_eq hwhole ▸ List.prefix_rfl
    · exact (Yields.arithmetic hop hl hpart).world_eq hwhole ▸ List.prefix_rfl
    · exact (Yields.comparison hop hl hpart).world_eq hwhole ▸ List.prefix_rfl
  | test =>
    cases hwhole with
    | testFails hc => exact hpart.world_eq hc ▸ List.prefix_rfl
    | chosen hc he => exact hpart.world_eq hc ▸ he.grows.heap
  | chosen hc => exact (Yields.chosen hc hpart).world_eq hwhole ▸ List.prefix_rfl
  | argument hf hv hbefore =>
    obtain ⟨_, _, hargs, hgrows⟩ := hwhole.exists_arguments hf hv
    exact ((hargs.grows_of_part hbefore hpart).trans hgrows).heap
  | body hf hargs hlength hscope hdepth hb =>
    -- leaving a call keeps its arrays
    exact (Yields.body hf hargs hlength hscope hdepth hb hpart).world_eq hwhole ▸ List.prefix_rfl
  | item hbefore =>
    cases hwhole with
    | itemFails hitems => exact (hitems.grows_of_part hbefore hpart).heap
    | array hitems => exact ((hitems.grows_of_part hbefore hpart).trans (World.grows_push _ _)).heap
  | array =>
    cases hwhole with
    | arrayFails he => exact hpart.world_eq he ▸ List.prefix_rfl
    | arrayWrong he => exact hpart.world_eq he ▸ List.prefix_rfl
    | item he hi => exact hpart.world_eq he ▸ hi.grows.heap
    | itemOfNone he hi => exact hpart.world_eq he ▸ hi.grows.heap
  | @index _ _ _ _ _ _ _ _ v _ he hv =>
    cases v with
    | array id => exact (Yields.item he hpart).world_eq hwhole ▸ List.prefix_rfl
    | noArray => exact (Yields.itemOfNone he hpart).world_eq hwhole ▸ List.prefix_rfl
    | _ => cases hv

theorem Reaches.heap (h : Reaches limit m m') : m.world.heap.toList <+: m'.world.heap.toList ∧
    (m'.result limit).2.heap.toList <+: (m.result limit).2.heap.toList := by
  induction h with
  | refl => exact ⟨List.prefix_rfl, List.prefix_rfl⟩
  | tail _ hpart ih => exact ⟨ih.1.trans hpart.heap_world, hpart.heap_result.trans ih.2⟩

end Moment

/-- a history adds arrays at most -/
theorem World.Leads.heap {w w' : World} {us : List Stmt} (h : w.Leads us w') : w.heap.toList <+: w'.heap.toList := by
  have hkeeps : ∀ limits, Stmt.Keeps limits root (fun w' => w.heap.toList <+: w'.heap.toList) fun _ _ => True := by
    intro limits
    exact {
      eval := fun hw he => ⟨hw.trans (grows_of_eval he).heap, fun _ _ => trivial⟩
      function := fun _ => trivial
      declare := fun hw _ _ => hw
      assign := fun hw _ _ => hw
      print := fun _ hw => hw }
  exact Stmt.Keeps.leads hkeeps List.prefix_rfl h

/-! ## States of runs -/

namespace World

end World

namespace Moment

end Moment

namespace World

variable {w : World} {us : List Stmt}

end World

end Treewalk
