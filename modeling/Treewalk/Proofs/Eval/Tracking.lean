/-
One evaluation behind another.

Two worlds may differ and yet be the same to an expression: arrays may have other names, and there may be things that
the expression does not use. `Tracking ρ name R Q` says what `R` needs for this: worlds that `R` relates give the same
for all names in `name`, up to the renaming `ρ` of arrays, and stay related when both get an array, enter a call or
leave it. `Q n` is what is known of values where there are `n` arrays; it holds of all values that come up. Then an
expression with such names does in the second world what it does in the first one, step by step (`Tracking.yields`,
`Tracking.runIn_eval`). If `R` relates worlds to themselves only, this is an invariant of one evaluation
(`Expr.Invariant`).
-/
import Treewalk.Proofs.Eval.Frames
import Treewalk.Proofs.Eval.Growth
import Treewalk.Proofs.Eval.Parameters
import Treewalk.Proofs.Eval.Renaming

namespace Treewalk

/-! ## Answers -/

section Answers

variable {ρ : ArrayId → ArrayId} {t : Token}

theorem Value.asBoolean_rename (v : Value) (role : Role) :
    (v.rename ρ).asBoolean t role = v.asBoolean t role := by
  cases v <;> rfl

theorem Value.item_rename (vs : List Value) (v : Value) (w w' : World) :
    ((Value.item t (vs.map (Value.rename ρ)) (v.rename ρ)).runIn w').1 =
      ((Value.item t vs v).runIn w).1.map (Value.rename ρ) := by
  cases v with
  | number x =>
    simp only [Value.rename, Value.item, Eval.index_eq_cast (List.length_map (Value.rename ρ)) x]
    cases x.index vs.length with
    | error c => rfl
    | ok i => simp [Except.map]
  | _ => rfl

theorem nativeArguments_rename (f : Bytes) (i : Nat) (vs : List Value) :
    nativeArguments t f i (vs.map (Value.rename ρ)) = nativeArguments t f i vs := by
  have hnumber : ∀ (v : Value) (role : Role), Eval.number t role (v.rename ρ) = Eval.number t role v := by
    intro v role
    cases v <;> rfl
  induction vs generalizing i with
  | nil => rfl
  | cons v vs ih => rw [List.map_cons, nativeArguments, nativeArguments, hnumber, ih]

/-- whether values are numbers does not depend on the world -/
theorem runIn_nativeArguments {f : Bytes} {i : Nat} {vs : List Value} {a : Except Diagnostic (List Number)} {w : World}
    (h : (nativeArguments t f i vs).runIn w = (a, w)) (w' : World) : (nativeArguments t f i vs).runIn w' = (a, w') := by
  induction vs generalizing i a with
  | nil =>
    cases h
    rfl
  | cons v vs ih =>
    cases v with
    | number x =>
      obtain ⟨xs, hxs⟩ := Eval.exists_runIn_nativeArguments (w := w) t f (i + 1) vs
      have hstep : ∀ {w}, (nativeArguments t f (i + 1) vs).runIn w = (xs, w) →
          (nativeArguments t f i (.number x :: vs)).runIn w = (xs >>= fun xs => .ok (x :: xs), w) := by
        intro w h
        have hx : (Eval.number t (.argument i f) (.number x)).runIn w = (.ok x, w) := rfl
        rw [nativeArguments, Eval.runIn_bind_ok hx]
        exact Eval.runIn_bind_answer h fun _ => rfl
      rw [hstep hxs] at h
      cases h
      exact hstep (ih hxs)
    | _ =>
      cases h
      rfl

theorem forall_error {α : Type} {d : Diagnostic} {P : α → Prop} :
    ∀ a, (.error d : Except Diagnostic α) = .ok a → P a := by
  intro a ha
  cases ha

/-- what every second step gives is given by both together -/
theorem forall_ok_bind {α β : Type} {x : Except Diagnostic α} {f : α → Except Diagnostic β} {P : β → Prop}
    (h : ∀ a b, f a = .ok b → P b) : ∀ b, x >>= f = .ok b → P b := by
  intro b hb
  cases x with
  | error d => cases hb
  | ok a => exact h a b hb

theorem forall_item {vs : List Value} {P : Value → Prop} (hvs : ∀ v ∈ vs, P v) (t : Token) (i : Value) (w : World) :
    ∀ v, ((Value.item t vs i).runIn w).1 = .ok v → P v := by
  intro v hv
  cases i with
  | number x =>
    rw [Value.item] at hv
    split at hv
    · cases hv
      exact hvs _ (List.get_mem vs _)
    · cases hv
  | _ => cases hv

theorem Expr.Yields.answer {limit depth : Nat} {frame : FrameId} {e : Expr} {w w' : World}
    {a a' : Except Diagnostic Value} (h : Yields limit depth frame e w a w') (ha : a = a') :
    Yields limit depth frame e w a' w' := ha ▸ h

end Answers

/-- the bindings of a call are values that it was given -/
theorem Bindings.forall_ofList {ps : List Bytes} {vs : List Value} {b : Bindings} {P : Value → Prop}
    (hb : Bindings.ofList (ps.zip vs) = .ok b) (hvs : ∀ v ∈ vs, P v) : ∀ p ∈ b, P p.2 := by
  intro p hp
  rw [declareAll_eq hb, List.append_nil, List.mem_reverse] at hp
  exact hvs p.2 (List.of_mem_zip hp).2

/-- what it takes for evaluations to do the same in worlds that `R` relates -/
structure Tracking (ρ : ArrayId → ArrayId) (name : Bytes → Prop) (R : World → World → Prop) (Q : Nat → Value → Prop) :
    Prop where
  number : ∀ {n} x, Q n (.number x)
  boolean : ∀ {n} b, Q n (.boolean b)
  array : ∀ n, Q (n + 1) (.array n)
  closure : ∀ {n c}, Q n (.closure c) → ∀ x ∈ c.body.names, name x
  mono : ∀ {m n v}, Q m v → m ≤ n → Q n v
  size : ∀ {w w'}, R w w' → w'.frames.size = w.frames.size
  live : ∀ {w w'}, R w w' → ∀ i, w'.frames.isLive i = w.frames.isLive i
  lookup : ∀ {w w'}, R w w' → ∀ frame x, name x →
    w'.frames.lookup? frame x = (w.frames.lookup? frame x).map (Value.rename ρ)
  bound : ∀ {w w' frame x v}, R w w' → name x → w.frames.lookup? frame x = some v → Q w.heap.size v
  items : ∀ {w w'}, R w w' → ∀ id, w'.heap.items (ρ id) = (w.heap.items id).map (Value.rename ρ)
  item : ∀ {w w' id v}, R w w' → v ∈ w.heap.items id → Q w.heap.size v
  fresh : ∀ {w w'}, R w w' → ρ w.heap.size = w'.heap.size
  push : ∀ {w w' vs}, R w w' → (∀ v ∈ vs, Q w.heap.size v) →
    R { w with heap := w.heap.push vs } { w' with heap := w'.heap.push (vs.map (Value.rename ρ)) }
  enter : ∀ {w w' c vs parent b}, R w w' → Q w.heap.size (.closure c) → (∀ v ∈ vs, Q w.heap.size v) →
    Bindings.ofList (c.parameters.zip vs) = .ok b → R (w.enter parent b) (w'.enter parent (b.rename ρ))
  leave : ∀ {w w'}, R w w' → R w.leave w'.leave

namespace Tracking

variable {ρ : ArrayId → ArrayId} {name : Bytes → Prop} {R : World → World → Prop} {Q : Nat → Value → Prop}
  {limit : Nat}

section Parts

variable (h : Tracking ρ name R Q) {w w' : World} {frame : FrameId} {x : Bytes} {v : Value}

include h

theorem lookup_some (hR : R w w') (hx : name x) (hv : w.frames.lookup? frame x = some v) :
    w'.frames.lookup? frame x = some (v.rename ρ) := by
  rw [h.lookup hR frame x hx, hv]
  rfl

theorem lookup_none (hR : R w w') (hx : name x) (hv : w.frames.lookup? frame x = none) :
    w'.frames.lookup? frame x = none := by
  rw [h.lookup hR frame x hx, hv]
  rfl

theorem scope (hR : R w w') {c : Closure} {o : Option FrameId} (ho : c.frame.filter w.frames.isLive = o) :
    c.frame.filter w'.frames.isLive = o := by
  rw [← ho]
  congr 1
  exact funext (h.live hR)

theorem forall_number {n : Nat} {x : Number} : ∀ v, (.ok (.number x) : Except Diagnostic Value) = .ok v → Q n v := by
  intro v hv
  cases hv
  exact h.number x

theorem forall_boolean {n : Nat} {b : Bool} : ∀ v, (.ok (.boolean b) : Except Diagnostic Value) = .ok v → Q n v := by
  intro v hv
  cases hv
  exact h.boolean b

end Parts

/-- the expression ends in the second world with the same answer as in the first one, and the worlds stay related -/
def Tracked (ρ : ArrayId → ArrayId) (R : World → World → Prop) (Q : Nat → Value → Prop) (limit depth : Nat)
    (frame : FrameId) (e : Expr) (w' : World) (a : Except Diagnostic Value) (w₁ : World) : Prop :=
  ∃ w₁', Expr.Yields limit depth frame e w' (a.map (Value.rename ρ)) w₁' ∧ R w₁ w₁' ∧ ∀ v, a = .ok v → Q w₁.heap.size v

/-- as `Tracked`, for expressions from left to right -/
def AllTracked (ρ : ArrayId → ArrayId) (R : World → World → Prop) (Q : Nat → Value → Prop) (limit depth : Nat)
    (frame : FrameId) (es : List Expr) (w' : World) (a : Except Diagnostic (List Value)) (w₁ : World) : Prop :=
  ∃ w₁', Expr.YieldsAll limit depth frame es w' (a.map (List.map (Value.rename ρ))) w₁' ∧ R w₁ w₁' ∧
    ∀ vs, a = .ok vs → ∀ v ∈ vs, Q w₁.heap.size v

open Treewalk.Expr (Yields YieldsAll)

mutual
/-- **An expression does the same in both worlds.** -/
theorem yields (h : Tracking ρ name R Q) {depth : Nat} {frame : FrameId} {e : Expr} {w w₁ : World}
    {a : Except Diagnostic Value} : Yields limit depth frame e w a w₁ → ∀ {w'}, R w w' → (∀ x ∈ e.names, name x) →
      Tracked ρ R Q limit depth frame e w' a w₁
  | .numeral, w', hR, _ => ⟨w', .numeral, hR, h.forall_number⟩
  | .boolean, w', hR, _ => ⟨w', .boolean, hR, h.forall_boolean⟩
  | .variable hx, w', hR, hn => by
    have hname := hn _ List.mem_cons_self
    refine ⟨w', .variable (h.lookup_some hR hname hx), hR, ?_⟩
    intro v hv
    cases hv
    exact h.bound hR hname hx
  | .unbound hx, w', hR, hn => ⟨w', .unbound (h.lookup_none hR (hn _ List.mem_cons_self) hx), hR, forall_error⟩
  | .unknownUnary hop, w', hR, _ => ⟨w', .unknownUnary hop, hR, forall_error⟩
  | .negate (a := a) hop he, w', hR, hn => by
    obtain ⟨w₁', he', hR₁, -⟩ := yields h he hR hn
    refine ⟨w₁', (Yields.negate hop he').answer ?_, hR₁,
      forall_ok_bind fun v => forall_ok_bind fun x => h.forall_number⟩
    rcases a with d | v
    · rfl
    · cases v <;> rfl
  | .invert (a := a) hop he, w', hR, hn => by
    obtain ⟨w₁', he', hR₁, -⟩ := yields h he hR hn
    refine ⟨w₁', (Yields.invert hop he').answer ?_, hR₁,
      forall_ok_bind fun v => forall_ok_bind fun b => h.forall_boolean⟩
    rcases a with d | v
    · rfl
    · cases v <;> rfl
  | .leftFails hl, w', hR, hn => by
    obtain ⟨w₁', hl', hR₁, -⟩ := yields h hl hR fun x hx => hn x (List.mem_append_left _ hx)
    exact ⟨w₁', .leftFails hl', hR₁, forall_error⟩
  | .leftWrong (v := v) hop hl hv, w', hR, hn => by
    obtain ⟨w₁', hl', hR₁, -⟩ := yields h hl hR fun x hx => hn x (List.mem_append_left _ hx)
    exact ⟨w₁', .leftWrong hop hl' ((v.asBoolean_rename _).trans hv), hR₁, forall_error⟩
  | .andFalse hop hl, w', hR, hn => by
    obtain ⟨w₁', hl', hR₁, -⟩ := yields h hl hR fun x hx => hn x (List.mem_append_left _ hx)
    exact ⟨w₁', .andFalse hop hl', hR₁, h.forall_boolean⟩
  | .orTrue hop hl, w', hR, hn => by
    obtain ⟨w₁', hl', hR₁, -⟩ := yields h hl hR fun x hx => hn x (List.mem_append_left _ hx)
    exact ⟨w₁', .orTrue hop hl', hR₁, h.forall_boolean⟩
  | .andTrue (a := a) hop hl hr, w', hR, hn => by
    obtain ⟨w₁', hl', hR₁, -⟩ := yields h hl hR fun x hx => hn x (List.mem_append_left _ hx)
    obtain ⟨w₂', hr', hR₂, -⟩ := yields h hr hR₁ fun x hx => hn x (List.mem_append_right _ hx)
    refine ⟨w₂', (Yields.andTrue hop hl' hr').answer ?_, hR₂,
      forall_ok_bind fun v => forall_ok_bind fun b => h.forall_boolean⟩
    rcases a with d | v
    · rfl
    · cases v <;> rfl
  | .orFalse (a := a) hop hl hr, w', hR, hn => by
    obtain ⟨w₁', hl', hR₁, -⟩ := yields h hl hR fun x hx => hn x (List.mem_append_left _ hx)
    obtain ⟨w₂', hr', hR₂, -⟩ := yields h hr hR₁ fun x hx => hn x (List.mem_append_right _ hx)
    refine ⟨w₂', (Yields.orFalse hop hl' hr').answer ?_, hR₂,
      forall_ok_bind fun v => forall_ok_bind fun b => h.forall_boolean⟩
    rcases a with d | v
    · rfl
    · cases v <;> rfl
  | .arithmetic (v := v) (a := a) hop hl hr, w', hR, hn => by
    obtain ⟨w₁', hl', hR₁, -⟩ := yields h hl hR fun x hx => hn x (List.mem_append_left _ hx)
    obtain ⟨w₂', hr', hR₂, -⟩ := yields h hr hR₁ fun x hx => hn x (List.mem_append_right _ hx)
    refine ⟨w₂', (Yields.arithmetic hop hl' hr').answer ?_, hR₂,
      forall_ok_bind fun u => forall_ok_bind fun x => forall_ok_bind fun y => h.forall_number⟩
    rcases a with d | u
    · rfl
    · cases v <;> cases u <;> rfl
  | .comparison (v := v) (a := a) hop hl hr, w', hR, hn => by
    obtain ⟨w₁', hl', hR₁, -⟩ := yields h hl hR fun x hx => hn x (List.mem_append_left _ hx)
    obtain ⟨w₂', hr', hR₂, -⟩ := yields h hr hR₁ fun x hx => hn x (List.mem_append_right _ hx)
    refine ⟨w₂', (Yields.comparison hop hl' hr').answer ?_, hR₂,
      forall_ok_bind fun u => forall_ok_bind fun x => forall_ok_bind fun y => h.forall_boolean⟩
    rcases a with d | u
    · rfl
    · cases v <;> cases u <;> rfl
  | .unknownBinary (a := a) hop hl hr, w', hR, hn => by
    obtain ⟨w₁', hl', hR₁, -⟩ := yields h hl hR fun x hx => hn x (List.mem_append_left _ hx)
    obtain ⟨w₂', hr', hR₂, -⟩ := yields h hr hR₁ fun x hx => hn x (List.mem_append_right _ hx)
    refine ⟨w₂', (Yields.unknownBinary hop hl' hr').answer ?_, hR₂, forall_ok_bind fun _ => forall_error⟩
    cases a <;> rfl
  | .testFails (a := a) hc ha, w', hR, hn => by
    obtain ⟨w₁', hc', hR₁, -⟩ := yields h hc hR fun x hx => hn x (List.mem_append_left _ hx)
    refine ⟨w₁', .testFails hc' ?_, hR₁, forall_error⟩
    rcases a with d | v
    · exact ha
    · exact (v.asBoolean_rename _).trans ha
  | .chosen (y := y) (n := n) (b := b) hc he, w', hR, hn => by
    obtain ⟨w₁', hc', hR₁, -⟩ := yields h hc hR fun x hx => hn x (List.mem_append_left _ hx)
    have hbranch : ∀ x ∈ (if b then y else n).names, name x := by
      intro x hx
      cases b with
      | true => exact hn x (List.mem_append_right _ (List.mem_append_left _ hx))
      | false => exact hn x (List.mem_append_right _ (List.mem_append_right _ hx))
    obtain ⟨w₂', he', hR₂, hv⟩ := yields h he hR₁ hbranch
    exact ⟨w₂', .chosen hc' he', hR₂, hv⟩
  | .calleeUnbound hf, w', hR, hn =>
    ⟨w', .calleeUnbound (h.lookup_none hR (hn _ List.mem_cons_self) hf), hR, forall_error⟩
  | .calleeWrong (v := v) hf hv, w', hR, hn => by
    have hf' := h.lookup_some hR (hn _ List.mem_cons_self) hf
    refine ⟨w', (Yields.calleeWrong hf' ((v.isFunction_rename ρ).trans hv)).answer ?_, hR, forall_error⟩
    rw [Value.typeName_rename]
    rfl
  | .argumentFails (v := v) hf hv hargs, w', hR, hn => by
    have hf' := h.lookup_some hR (hn _ List.mem_cons_self) hf
    obtain ⟨w₁', hargs', hR₁, -⟩ := yieldsAll h hargs hR fun x hx => hn x (List.mem_cons_of_mem _ hx)
    exact ⟨w₁', .argumentFails hf' ((v.isFunction_rename ρ).trans hv) hargs', hR₁, forall_error⟩
  | .noFunction hf hargs, w', hR, hn => by
    have hf' := h.lookup_some hR (hn _ List.mem_cons_self) hf
    obtain ⟨w₁', hargs', hR₁, -⟩ := yieldsAll h hargs hR fun x hx => hn x (List.mem_cons_of_mem _ hx)
    exact ⟨w₁', .noFunction hf' hargs', hR₁, forall_error⟩
  | .nativeArity hf hargs hlength, w', hR, hn => by
    have hf' := h.lookup_some hR (hn _ List.mem_cons_self) hf
    obtain ⟨w₁', hargs', hR₁, -⟩ := yieldsAll h hargs hR fun x hx => hn x (List.mem_cons_of_mem _ hx)
    refine ⟨w₁', (Yields.nativeArity hf' hargs' ?_).answer ?_, hR₁, forall_error⟩
    · rwa [List.length_map]
    · rw [List.length_map]
      rfl
  | .native (a := a) hf hargs hlength ha, w', hR, hn => by
    have hf' := h.lookup_some hR (hn _ List.mem_cons_self) hf
    obtain ⟨w₁', hargs', hR₁, -⟩ := yieldsAll h hargs hR fun x hx => hn x (List.mem_cons_of_mem _ hx)
    have ha' := runIn_nativeArguments ha w₁'
    rw [← nativeArguments_rename (ρ := ρ)] at ha'
    refine ⟨w₁', (Yields.native hf' hargs' ((List.length_map _).trans hlength) ha').answer ?_, hR₁,
      forall_ok_bind fun xs => h.forall_number⟩
    cases a <;> rfl
  | .closureArity hf hargs hlength, w', hR, hn => by
    have hf' := h.lookup_some hR (hn _ List.mem_cons_self) hf
    obtain ⟨w₁', hargs', hR₁, -⟩ := yieldsAll h hargs hR fun x hx => hn x (List.mem_cons_of_mem _ hx)
    refine ⟨w₁', (Yields.closureArity hf' hargs' ?_).answer ?_, hR₁, forall_error⟩
    · rwa [List.length_map]
    · rw [List.length_map]
      rfl
  | .scopeGone hf hargs hlength hscope, w', hR, hn => by
    have hf' := h.lookup_some hR (hn _ List.mem_cons_self) hf
    obtain ⟨w₁', hargs', hR₁, -⟩ := yieldsAll h hargs hR fun x hx => hn x (List.mem_cons_of_mem _ hx)
    have hlength' := (List.length_map (Value.rename ρ)).trans hlength
    exact ⟨w₁', .scopeGone hf' hargs' hlength' (h.scope hR₁ hscope), hR₁, forall_error⟩
  | .tooDeep hf hargs hlength hscope hdepth, w', hR, hn => by
    have hf' := h.lookup_some hR (hn _ List.mem_cons_self) hf
    obtain ⟨w₁', hargs', hR₁, -⟩ := yieldsAll h hargs hR fun x hx => hn x (List.mem_cons_of_mem _ hx)
    have hlength' := (List.length_map (Value.rename ρ)).trans hlength
    exact ⟨w₁', .tooDeep hf' hargs' hlength' (h.scope hR₁ hscope) hdepth, hR₁, forall_error⟩
  | .clash hf hargs hlength hscope hdepth hb, w', hR, hn => by
    have hf' := h.lookup_some hR (hn _ List.mem_cons_self) hf
    obtain ⟨w₁', hargs', hR₁, -⟩ := yieldsAll h hargs hR fun x hx => hn x (List.mem_cons_of_mem _ hx)
    have hlength' := (List.length_map (Value.rename ρ)).trans hlength
    have hb' := (Bindings.ofList_rename ρ _ _).trans (congrArg (Except.map (Bindings.rename ρ)) hb)
    exact ⟨w₁', .clash hf' hargs' hlength' (h.scope hR₁ hscope) hdepth hb', hR₁, forall_error⟩
  | .body hf hargs hlength hscope hdepth hb he, w', hR, hn => by
    have hname := hn _ List.mem_cons_self
    have hf' := h.lookup_some hR hname hf
    obtain ⟨w₁', hargs', hR₁, hvs⟩ := yieldsAll h hargs hR fun x hx => hn x (List.mem_cons_of_mem _ hx)
    have hlength' := (List.length_map (Value.rename ρ)).trans hlength
    have hb' := (Bindings.ofList_rename ρ _ _).trans (congrArg (Except.map (Bindings.rename ρ)) hb)
    -- the closure was found before the arguments were evaluated
    have hc := h.mono (h.bound hR hname hf) hargs.grows.size_le
    obtain ⟨w₂', he', hR₂, hv⟩ := yields h he (h.enter hR₁ hc (hvs _ rfl) hb) (h.closure hc)
    rw [← h.size hR₁] at he'
    exact ⟨w₂'.leave, .body hf' hargs' hlength' (h.scope hR₁ hscope) hdepth hb' he', h.leave hR₂, hv⟩
  | .itemFails hitems, w', hR, hn => by
    obtain ⟨w₁', hitems', hR₁, -⟩ := yieldsAll h hitems hR hn
    exact ⟨w₁', .itemFails hitems', hR₁, forall_error⟩
  | .array hitems, w', hR, hn => by
    obtain ⟨w₁', hitems', hR₁, hvs⟩ := yieldsAll h hitems hR hn
    refine ⟨_, (Yields.array hitems').answer ?_, h.push hR₁ (hvs _ rfl), ?_⟩
    · rw [← h.fresh hR₁]
      rfl
    · intro v hv
      cases hv
      simp only [Array.size_push]
      exact h.array _
  | .arrayFails he, w', hR, hn => by
    obtain ⟨w₁', he', hR₁, -⟩ := yields h he hR fun x hx => hn x (List.mem_append_left _ hx)
    exact ⟨w₁', .arrayFails he', hR₁, forall_error⟩
  | .arrayWrong (v := v) he hv, w', hR, hn => by
    obtain ⟨w₁', he', hR₁, -⟩ := yields h he hR fun x hx => hn x (List.mem_append_left _ hx)
    have hsame := v.typeName_rename ρ
    refine ⟨w₁', (Yields.arrayWrong he' (hsame ▸ hv)).answer ?_, hR₁, forall_error⟩
    rw [hsame]
    rfl
  | .item (a := a) he hi, w', hR, hn => by
    obtain ⟨w₁', he', hR₁, -⟩ := yields h he hR fun x hx => hn x (List.mem_append_left _ hx)
    obtain ⟨w₂', hi', hR₂, -⟩ := yields h hi hR₁ fun x hx => hn x (List.mem_append_right _ hx)
    refine ⟨w₂', (Yields.item he' hi').answer ?_, hR₂,
      forall_ok_bind fun i => forall_item (fun _ => h.item hR₂) _ i _⟩
    rw [h.items hR₂]
    rcases a with d | i
    · rfl
    · exact Value.item_rename _ i _ _
  | .itemOfNone (a := a) he hi, w', hR, hn => by
    obtain ⟨w₁', he', hR₁, -⟩ := yields h he hR fun x hx => hn x (List.mem_append_left _ hx)
    obtain ⟨w₂', hi', hR₂, -⟩ := yields h hi hR₁ fun x hx => hn x (List.mem_append_right _ hx)
    refine ⟨w₂', (Yields.itemOfNone he' hi').answer ?_, hR₂,
      forall_ok_bind fun i => forall_item (List.forall_mem_nil _) _ i _⟩
    rcases a with d | i
    · rfl
    · exact Value.item_rename [] i _ _
  | .missing, w', hR, _ => ⟨w', .missing, hR, forall_error⟩

theorem yieldsAll (h : Tracking ρ name R Q) {depth : Nat} {frame : FrameId} {es : List Expr} {w w₁ : World}
    {a : Except Diagnostic (List Value)} : YieldsAll limit depth frame es w a w₁ → ∀ {w'}, R w w' →
      (∀ x ∈ Expr.namesAll es, name x) → AllTracked ρ R Q limit depth frame es w' a w₁
  | .nil, w', hR, _ => by
    refine ⟨w', .nil, hR, ?_⟩
    intro vs hvs
    cases hvs
    exact List.forall_mem_nil _
  | .fails he, w', hR, hn => by
    obtain ⟨w₁', he', hR₁, -⟩ := yields h he hR fun x hx => hn x (List.mem_append_left _ hx)
    exact ⟨w₁', .fails he', hR₁, forall_error⟩
  | .cons (v := v) (a := a) he hes, w', hR, hn => by
    obtain ⟨w₁', he', hR₁, hv⟩ := yields h he hR fun x hx => hn x (List.mem_append_left _ hx)
    obtain ⟨w₂', hes', hR₂, hvs⟩ := yieldsAll h hes hR₁ fun x hx => hn x (List.mem_append_right _ hx)
    have hfirst := h.mono (hv v rfl) hes.grows.size_le
    rcases a with d | vs
    · exact ⟨w₂', .cons he' hes', hR₂, forall_error⟩
    · refine ⟨w₂', .cons he' hes', hR₂, ?_⟩
      intro us hus
      cases hus
      exact List.forall_mem_cons.2 ⟨hfirst, hvs vs rfl⟩
end

/-- what evaluation gives in the first world, it gives in the second one -/
theorem runIn_eval (h : Tracking ρ name R Q) {frame : FrameId} {e : Expr} {w w' w₁ : World}
    {a : Except Diagnostic Value} (hR : R w w') (hn : ∀ x ∈ e.names, name x)
    (he : (e.eval limit frame).runIn w = (a, w₁)) :
    ∃ w₁', (e.eval limit frame).runIn w' = (a.map (Value.rename ρ), w₁') ∧ R w₁ w₁' ∧
      ∀ v, a = .ok v → Q w₁.heap.size v := by
  obtain ⟨a', w₁', hyields⟩ := Expr.ends limit 0 frame e w
  obtain ⟨rfl, rfl⟩ := Prod.mk.inj (hyields.runIn_eval.symm.trans he)
  obtain ⟨w₂', hyields', hR', hv⟩ := h.yields hyields hR hn
  exact ⟨w₂', hyields'.runIn_eval, hR', hv⟩

end Tracking

/-! ## Invariants -/

/-- what it takes for evaluations to keep `P`, where `Q n` holds of values that come up where there are `n` arrays -/
structure Expr.Invariant (P : World → Prop) (Q : Nat → Value → Prop) : Prop where
  number : ∀ {n} x, Q n (.number x)
  boolean : ∀ {n} b, Q n (.boolean b)
  array : ∀ n, Q (n + 1) (.array n)
  mono : ∀ {m n v}, Q m v → m ≤ n → Q n v
  bound : ∀ {w : World} {frame x v}, P w → w.frames.lookup? frame x = some v → Q w.heap.size v
  item : ∀ {w : World} {id v}, P w → v ∈ w.heap.items id → Q w.heap.size v
  push : ∀ {w : World} {vs}, P w → (∀ v ∈ vs, Q w.heap.size v) → P { w with heap := w.heap.push vs }
  enter : ∀ {w : World} {c : Closure} {parent b}, P w → Q w.heap.size (.closure c) →
    (∀ p ∈ b, Q w.heap.size p.2) → P (w.enter parent b)
  leave : ∀ {w : World}, P w → P w.leave

namespace Expr.Invariant

variable {P : World → Prop} {Q : Nat → Value → Prop}

/-- an evaluation behind itself -/
theorem tracking (h : Invariant P Q) : Tracking id (fun _ => True) (fun w w' => w' = w ∧ P w) Q where
  number := h.number
  boolean := h.boolean
  array := h.array
  closure _ _ _ := trivial
  mono := h.mono
  size hR := by rw [hR.1]
  live hR i := by rw [hR.1]
  lookup hR frame x _ := by rw [hR.1, Value.rename_id, Option.map_id, id]
  bound hR _ hv := h.bound hR.2 hv
  items hR i := by rw [hR.1, Value.rename_id, List.map_id, id]
  item hR hv := h.item hR.2 hv
  fresh hR := by rw [hR.1, id]
  push hR hvs := ⟨by rw [hR.1, Value.rename_id, List.map_id], h.push hR.2 hvs⟩
  enter hR hc hvs hb := ⟨by rw [hR.1, Bindings.rename_id], h.enter hR.2 hc (Bindings.forall_ofList hb hvs)⟩
  leave hR := ⟨by rw [hR.1], h.leave hR.2⟩

theorem eval (h : Invariant P Q) {limit : Nat} {frame : FrameId} {e : Expr} {w w' : World}
    {a : Except Diagnostic Value} (hw : P w) (he : (e.eval limit frame).runIn w = (a, w')) :
    P w' ∧ ∀ v, a = .ok v → Q w'.heap.size v := by
  obtain ⟨_, -, ⟨-, hw'⟩, hv⟩ := h.tracking.runIn_eval ⟨rfl, hw⟩ (fun _ _ => trivial) he
  exact ⟨hw', hv⟩

end Expr.Invariant

end Treewalk
