/-
Failures are raised in a moment.

Moments tell what happens on the way of an evaluation, and here is why one may trust them: an evaluation fails if and
only if one of its moments raises the failure, at the token of the very expression that is evaluated there
(`Moment.fails_iff`). In one direction, a moment fails if a part of it does, for the same reason (`Moment.Part.fails`).
In the other one, a moment that fails does so at its own token, or has a part that fails for the same reason
(`Moment.place_or_part`); and parts are smaller, if calls that are left count more than the size of an expression
(`Moment.Part.smaller`), so this cannot go on for ever.
-/
import Treewalk.Proofs.Eval.Moments
import Treewalk.Proofs.Eval.Termination

namespace Treewalk

/-- the token where an expression stands -/
def Expr.token : Expr → Token
  | .numeral t _ | .boolean t _ | .variable t _ | .unary t _ _ | .binary t _ _ _ | .conditional t _ _ _ | .call t _ _
  | .array t _ | .subscript t _ _ => t
  | .missing => .unplaced

/-! ## Own failures -/

/-- a step fails, or the one after it -/
theorem error_of_bind {ε α β : Type} {x : Except ε α} {f : α → Except ε β} {d : ε} (h : x >>= f = .error d) :
    x = .error d ∨ ∃ v, x = .ok v ∧ f v = .error d := by
  cases x with
  | error d' =>
    cases h
    exact .inl rfl
  | ok v => exact .inr ⟨v, rfl, h⟩

/-- all failures point at one token -/
def FailsOnlyAt {α : Type} (t : Token) (x : Except Diagnostic α) : Prop := ∀ d, x = .error d → d.location = t.location

namespace FailsOnlyAt

variable {α β : Type} {t : Token}

theorem ok (v : α) : FailsOnlyAt t (.ok v) := by
  rintro _ ⟨⟩

theorem bind {x : Except Diagnostic α} {f : α → Except Diagnostic β} (hx : FailsOnlyAt t x)
    (hf : ∀ v, FailsOnlyAt t (f v)) : FailsOnlyAt t (x >>= f) := by
  intro d h
  rcases error_of_bind h with h | ⟨v, -, h⟩
  · exact hx d h
  · exact hf v d h

theorem asNumber (role : Role) (v : Value) : FailsOnlyAt t (v.asNumber t role) := by
  cases v <;> rintro _ ⟨⟩ <;> rfl

theorem asBoolean (role : Role) (v : Value) : FailsOnlyAt t (v.asBoolean t role) := by
  cases v <;> rintro _ ⟨⟩ <;> rfl

theorem item (items : List Value) (v : Value) (w : World) : FailsOnlyAt t ((Value.item t items v).runIn w).1 := by
  intro d h
  cases v with
  | number x =>
    rw [Value.item] at h
    split at h
    · cases h
    · cases h
      rfl
  | _ =>
    cases h
    rfl

theorem nativeArguments (f : Bytes) (i : Nat) (vs : List Value) (w : World) :
    FailsOnlyAt t ((nativeArguments t f i vs).runIn w).1 := by
  intro d h
  induction vs generalizing i with
  | nil => cases h
  | cons v vs ih =>
    cases v with
    | number x =>
      have hx : (Eval.number t (.argument i f) (.number x)).runIn w = (.ok x, w) := rfl
      obtain ⟨a, ha⟩ := Eval.exists_runIn_nativeArguments (w := w) t f (i + 1) vs
      rw [Treewalk.nativeArguments, Eval.runIn_bind_ok hx] at h
      cases a with
      | ok xs =>
        rw [Eval.runIn_bind_ok ha] at h
        cases h
      | error d' =>
        rw [Eval.runIn_bind_error ha] at h
        cases h
        exact ih (i + 1) (by rw [ha])
    | _ =>
      cases h
      rfl

end FailsOnlyAt

/-- expressions from left to right fail if there is one that fails, where those before it have been evaluated -/
theorem Expr.yieldsAll_error_iff {limit depth : Nat} {frame : FrameId} {es : List Expr} {w w' : World}
    {d : Diagnostic} : YieldsAll limit depth frame es w (.error d) w' ↔
      ∃ before e after vs w₁, es = before ++ e :: after ∧ YieldsAll limit depth frame before w (.ok vs) w₁ ∧
        Yields limit depth frame e w₁ (.error d) w' := by
  constructor
  · intro h
    generalize ha : Except.error d = a at h
    induction es generalizing w a with
    | nil =>
      cases h
      cases ha
    | cons e es ih =>
      cases h with
      | fails he =>
        cases ha
        exact ⟨[], e, es, [], w, rfl, .nil, he⟩
      | cons he hes =>
        rcases error_of_bind ha.symm with rfl | ⟨_, -, ha⟩
        · obtain ⟨before, e', after, vs, w₁, rfl, hbefore, he'⟩ := ih _ rfl hes
          exact ⟨e :: before, e', after, _, w₁, rfl, .cons he hbefore, he'⟩
        · cases ha
  · rintro ⟨before, e, after, vs, w₁, rfl, hbefore, he⟩
    induction before generalizing w vs with
    | nil =>
      cases hbefore
      exact .fails he
    | cons e' before ih =>
      generalize ha : Except.ok vs = a at hbefore
      cases hbefore with
      | fails => cases ha
      | @cons _ _ _ _ _ _ _ a _ he' hbefore =>
        cases a with
        | error d' => cases ha
        | ok vs' => exact .cons he' (ih vs' hbefore)

/-! ## Parts of a moment -/

namespace Moment

variable {limit : Nat} {m m' : Moment} {d : Diagnostic}

/-- the evaluation fails where its expression stands -/
def Raises (limit : Nat) (m : Moment) (d : Diagnostic) : Prop :=
  (m.result limit).1 = .error d ∧ d.location = m.expr.token.location

theorem result_of_yields {depth : Nat} {frame : FrameId} {callee : Option Closure} {e : Expr} {w w' : World}
    {held : List Value} {a : Except Diagnostic Value} (h : Expr.Yields limit depth frame e w a w') :
    (Moment.result limit ⟨depth, frame, callee, e, w, held⟩).1 = a := by
  rw [result, h.runIn_eval]

theorem Part.smaller (h : Part limit m m') :
    Prod.Lex (· < ·) (· < ·) (limit - m'.depth, sizeOf m'.expr) (limit - m.depth, sizeOf m.expr) := by
  have hmem : ∀ {before after : List Expr} {e : Expr}, sizeOf e < sizeOf (before ++ e :: after) :=
    List.sizeOf_lt_of_mem (List.mem_append_right _ List.mem_cons_self)
  cases h with
  | @body depth _ _ _ _ _ _ _ _ _ _ _ _ _ _ _ _ hdepth => exact .left _ _ (by dsimp only; omega)
  | @chosen _ _ _ _ _ _ _ _ _ b =>
    apply Prod.Lex.right
    simp only [Expr.conditional.sizeOf_spec]
    cases b with
    | false => exact Nat.lt_add_of_pos_left (by omega)
    | true =>
      rw [if_pos rfl]
      omega
  | argument | item =>
    apply Prod.Lex.right
    simp only [Expr.call.sizeOf_spec, Expr.array.sizeOf_spec]
    exact Nat.lt_of_lt_of_le hmem (Nat.le_add_left _ _)
  | operand | left | right | test | array | index =>
    apply Prod.Lex.right
    simp only [Expr.unary.sizeOf_spec, Expr.binary.sizeOf_spec, Expr.conditional.sizeOf_spec,
      Expr.subscript.sizeOf_spec]
    omega

/-- an evaluation is followed by something that fails at one token only -/
theorem place_or_part_of_bind {α : Type} {t : Token} {e : Expr} {depth : Nat} {frame : FrameId}
    {callee : Option Closure} {w w' : World} {held : List Value} {a : Except Diagnostic Value}
    {next : Value → Except Diagnostic α} (hpart : Part limit m ⟨depth, frame, callee, e, w, held⟩)
    (he : Expr.Yields limit depth frame e w a w') (hnext : ∀ v, FailsOnlyAt t (next v)) (h : a >>= next = .error d) :
    d.location = t.location ∨ ∃ m', Part limit m m' ∧ (m'.result limit).1 = .error d := by
  rcases error_of_bind h with rfl | ⟨v, -, hv⟩
  · exact .inr ⟨_, hpart, result_of_yields he⟩
  · exact .inl (hnext v d hv)

/-- a moment that fails does so at its own token, or has a part that fails for the same reason -/
theorem place_or_part (h : (m.result limit).1 = .error d) :
    d.location = m.expr.token.location ∨ ∃ m', Part limit m m' ∧ (m'.result limit).1 = .error d := by
  obtain ⟨depth, frame, callee, e, w, held⟩ := m
  obtain ⟨a, w', hyields⟩ := Expr.ends limit depth frame e w
  rw [result_of_yields hyields] at h
  cases hyields with
  | unbound | unknownUnary | calleeUnbound | calleeWrong | noFunction | nativeArity | closureArity | scopeGone | tooDeep
  | clash | arrayWrong | missing =>
    cases h
    exact .inl rfl
  | negate hop he =>
    exact place_or_part_of_bind (.operand (by rw [hop]; rfl)) he (fun v => .bind (.asNumber _ v) fun _ => .ok _) h
  | invert hop he =>
    exact place_or_part_of_bind (.operand (by rw [hop]; rfl)) he (fun v => .bind (.asBoolean _ v) fun _ => .ok _) h
  | leftFails hl =>
    cases h
    exact .inr ⟨_, .left, result_of_yields hl⟩
  | leftWrong _ _ hv =>
    cases h
    exact .inl (FailsOnlyAt.asBoolean _ _ d hv)
  | andTrue hop hl hr =>
    refine place_or_part_of_bind (.right hl (fun _ => rfl) (by simp [hop])) hr (fun u => ?_) h
    exact .bind (.asBoolean _ u) fun _ => .ok _
  | orFalse hop hl hr =>
    refine place_or_part_of_bind (.right hl (by simp [hop]) (fun _ => rfl)) hr (fun u => ?_) h
    exact .bind (.asBoolean _ u) fun _ => .ok _
  | @arithmetic _ _ _ _ _ _ _ _ v _ _ _ hop hl hr =>
    refine place_or_part_of_bind (.right hl (by simp [hop]) (by simp [hop])) hr (fun u => ?_) h
    exact .bind (.asNumber _ v) fun _ => .bind (.asNumber _ u) fun _ => .ok _
  | @comparison _ _ _ _ _ _ _ _ v _ _ _ hop hl hr =>
    refine place_or_part_of_bind (.right hl (by simp [hop]) (by simp [hop])) hr (fun u => ?_) h
    exact .bind (.asNumber _ v) fun _ => .bind (.asNumber _ u) fun _ => .ok _
  | unknownBinary hop hl hr =>
    refine place_or_part_of_bind (.right hl (by simp [hop]) (by simp [hop])) hr (fun u => ?_) h
    rintro _ ⟨⟩
    rfl
  | testFails hc ha =>
    cases h
    exact place_or_part_of_bind .test hc (.asBoolean _) ha
  | chosen hc he => exact .inr ⟨_, .chosen hc, h ▸ result_of_yields he⟩
  | argumentFails hf hv hargs =>
    cases h
    obtain ⟨before, e, after, vs, w₁, rfl, hbefore, he⟩ := Expr.yieldsAll_error_iff.1 hargs
    exact .inr ⟨_, .argument hf hv hbefore, result_of_yields he⟩
  | @native _ _ t _ _ g _ vs _ _ _ _ _ ha =>
    have hnative : FailsOnlyAt t ((nativeArguments t g.name 1 vs).runIn w').1 := .nativeArguments g.name 1 vs w'
    rw [ha] at hnative
    exact .inl (hnative.bind (fun _ => .ok _) d h)
  | body hf hargs hlength hscope hdepth hb he =>
    exact .inr ⟨_, .body hf hargs hlength hscope hdepth hb, h ▸ result_of_yields he⟩
  | itemFails hitems =>
    cases h
    obtain ⟨before, e, after, vs, w₁, rfl, hbefore, he⟩ := Expr.yieldsAll_error_iff.1 hitems
    exact .inr ⟨_, .item hbefore, result_of_yields he⟩
  | arrayFails he =>
    cases h
    exact .inr ⟨_, .array, result_of_yields he⟩
  | item he hi => exact place_or_part_of_bind (.index he rfl) hi (fun v => .item _ v _) h
  | itemOfNone he hi => exact place_or_part_of_bind (.index he rfl) hi (fun v => .item _ v _) h
  | _ => cases h

/-- a failure is raised in a moment -/
theorem exists_raises (m : Moment) (h : (m.result limit).1 = .error d) :
    ∃ m', m.Reaches limit m' ∧ m'.Raises limit d := by
  rcases place_or_part h with hplace | ⟨m₁, hpart, h₁⟩
  · exact ⟨m, .refl, h, hplace⟩
  · obtain ⟨m', hreaches, hraises⟩ := exists_raises m₁ h₁
    exact ⟨m', .head hpart hreaches, hraises⟩
termination_by (limit - m.depth, sizeOf m.expr)
decreasing_by exact hpart.smaller

/-- a moment fails if a part of it does, for the same reason -/
theorem Part.fails (hpart : Part limit m m') (h : (m'.result limit).1 = .error d) : (m.result limit).1 = .error d := by
  obtain ⟨a, w', hyields⟩ := Expr.ends limit m'.depth m'.frame m'.expr m'.world
  obtain rfl : a = .error d := (result_of_yields hyields).symm.trans h
  cases hpart with
  | @operand _ _ _ _ op _ _ _ hop =>
    rcases hop' : UnaryOp.ofText? op with _ | _ | _
    · rw [hop'] at hop
      cases hop
    · exact result_of_yields (.negate hop' hyields)
    · exact result_of_yields (.invert hop' hyields)
  | left => exact result_of_yields (.leftFails hyields)
  | @right _ _ _ _ op _ _ _ _ _ _ hl hand hor =>
    rcases hop : BinaryOp.ofText? op with _ | _ | _ | _ | _
    · exact result_of_yields (.unknownBinary hop hl hyields)
    · obtain rfl := hand hop
      exact result_of_yields (.andTrue hop hl hyields)
    · obtain rfl := hor hop
      exact result_of_yields (.orFalse hop hl hyields)
    · exact result_of_yields (.arithmetic hop hl hyields)
    · exact result_of_yields (.comparison hop hl hyields)
  | test => exact result_of_yields (.testFails hyields rfl)
  | chosen hc => exact result_of_yields (.chosen hc hyields)
  | argument hf hv hbefore =>
    exact result_of_yields (.argumentFails hf hv (Expr.yieldsAll_error_iff.2 ⟨_, _, _, _, _, rfl, hbefore, hyields⟩))
  | body hf hargs hlength hscope hdepth hb => exact result_of_yields (.body hf hargs hlength hscope hdepth hb hyields)
  | item hbefore =>
    exact result_of_yields (.itemFails (Expr.yieldsAll_error_iff.2 ⟨_, _, _, _, _, rfl, hbefore, hyields⟩))
  | array => exact result_of_yields (.arrayFails hyields)
  | @index _ _ _ _ _ _ _ _ v _ he hv =>
    cases v with
    | array id => exact result_of_yields (.item he hyields)
    | noArray => exact result_of_yields (.itemOfNone he hyields)
    | _ => cases hv

/-- **An evaluation fails if and only if one of its moments raises the failure.** -/
theorem fails_iff : (m.result limit).1 = .error d ↔ ∃ m', m.Reaches limit m' ∧ m'.Raises limit d := by
  constructor
  · exact exists_raises m
  · rintro ⟨m', hreaches, hfails, -⟩
    induction hreaches with
    | refl => exact hfails
    | tail _ hpart ih => exact ih (hpart.fails hfails)

end Moment

end Treewalk
