/-
What a failing run leaves.

A run completes one statement after another; loops only say which (`Stmt.Runs`). When it fails, the statements that it
has completed are all that it leaves: they can be run once more by themselves, without the loops around them, and this
leads to the same names, arrays and lines (`Block.failure_keeps_what_was_completed`). What the run has besides are
arrays that nothing refers to: those that conditions of loops and the failing statement made. So the arrays of the two
runs have different names, and the two worlds are the same up to these (`World.Mirrors`). This holds when the runs
start, a statement that is completed in one run is completed in the other one, and what only the first run does adds
arrays.
-/
import Treewalk.Proofs.Eval.Frames
import Treewalk.Proofs.Eval.Origin
import Treewalk.Proofs.Eval.Purity
import Treewalk.Proofs.Eval.Texts

namespace Treewalk

/-! ## Renaming arrays -/

section Renaming

variable {ρ σ : ArrayId → ArrayId}

theorem Value.rename_rename (v : Value) : (v.rename ρ).rename σ = v.rename (σ ∘ ρ) := by
  cases v <;> rfl

theorem Frames.rename_rename (fs : Frames) : (fs.rename ρ).rename σ = fs.rename (σ ∘ ρ) := by
  have hframe : ∀ f : Frame, (f.rename ρ).rename σ = f.rename (σ ∘ ρ) := by
    intro f
    simp only [Frame.rename, Bindings.rename, List.map_map]
    congr 2
    exact funext fun p => Prod.ext rfl (Value.rename_rename p.2)
  simp only [rename, Array.map_map]
  congr 1
  exact funext hframe

variable (ρ)

theorem Frames.hasOwn_rename (fs : Frames) (i : FrameId) (x : Bytes) : (fs.rename ρ).hasOwn i x = fs.hasOwn i x := by
  rw [hasOwn, own?_rename, Option.isSome_map, hasOwn]

theorem Frames.owner?_rename (fs : Frames) (i : FrameId) (x : Bytes) : (fs.rename ρ).owner? i x = fs.owner? i x := by
  rw [owner?, owner?, chain_rename]
  congr 1
  exact funext fun j => hasOwn_rename ρ fs j x

theorem Frames.getElem?_rename (fs : Frames) (i : FrameId) : (fs.rename ρ)[i]? = fs[i]?.map (Frame.rename ρ) := by
  rw [rename, Array.getElem?_map]

theorem Frames.rebind_rename {change change' : Bindings → Bindings}
    (h : ∀ b : Bindings, change' (b.rename ρ) = (change b).rename ρ) (fs : Frames) (i : FrameId) :
    (fs.rename ρ).rebind i change' = (fs.rebind i change).rename ρ := by
  apply Array.ext_getElem?
  intro j
  rw [getElem?_rename, getElem?_rebind, getElem?_rebind, getElem?_rename]
  by_cases hij : i = j
  · rw [if_pos hij, if_pos hij]
    cases fs[j]? with
    | none => rfl
    | some f => simp [Frame.rename, h]
  · rw [if_neg hij, if_neg hij]

theorem Bindings.set_rename (b : Bindings) (x : Bytes) (v : Value) :
    (b.rename ρ).set x (v.rename ρ) = (b.set x v).rename ρ := by
  simp only [set, rename, List.map_map]
  congr 1
  funext p
  simp only [Function.comp]
  split <;> rfl

theorem Frames.declare?_rename (fs : Frames) (i : FrameId) (x : Bytes) (v : Value) :
    (fs.rename ρ).declare? i x (v.rename ρ) = (fs.declare? i x v).map (rename ρ) := by
  rw [declare?, declare?, hasOwn_rename]
  cases fs.hasOwn i x with
  | true => rfl
  | false =>
    have hbind : ∀ b : Bindings, (x, v.rename ρ) :: b.rename ρ = Bindings.rename ρ ((x, v) :: b) := fun _ => rfl
    exact congrArg some (rebind_rename ρ hbind fs i)

theorem Frames.assign?_rename (fs : Frames) (i : FrameId) (x : Bytes) (v : Value) :
    (fs.rename ρ).assign? i x (v.rename ρ) = (fs.assign? i x v).map (rename ρ) := by
  rw [assign?, assign?, owner?_rename]
  cases fs.owner? i x with
  | none => rfl
  | some j => exact congrArg some (rebind_rename ρ (fun b => Bindings.set_rename ρ b x v) fs j)

variable {ρ} {h h' : Heap} (hitems : ∀ id, h'.items (ρ id) = (h.items id).map (Value.rename ρ))

include hitems

theorem Value.textWithin?_rename (n : Nat) (v : Value) : (v.rename ρ).textWithin? h' n = v.textWithin? h n := by
  induction n generalizing v with
  | zero => cases v <;> rfl
  | succ n ih =>
    cases v with
    | array id =>
      have hmap : (h'.items (ρ id)).map (textWithin? h' n) = (h.items id).map (textWithin? h n) := by
        rw [hitems, List.map_map]
        exact List.map_congr_left fun u _ => ih u
      rw [rename, textWithin?, textWithin?, mapM_eq_of_map_eq hmap]
    | _ => rfl

/-- what a value looks like does not depend on the names of its arrays -/
theorem Value.text?_rename (v : Value) : (v.rename ρ).text? h' = v.text? h := by
  cases htext : (v.rename ρ).text? h' with
  | some line =>
    rw [text?, textWithin?_rename hitems] at htext
    exact (text?_eq_of_textWithin? htext).symm
  | none =>
    cases htext' : v.text? h with
    | none => rfl
    | some line =>
      rw [text?, ← textWithin?_rename hitems] at htext'
      rw [text?_eq_of_textWithin? htext'] at htext
      cases htext

end Renaming

/-! ## Bindings in a closed world -/

theorem Bindings.forall_set {b : Bindings} {x : Bytes} {v : Value} {P : Value → Prop} (hv : P v)
    (hb : ∀ p ∈ b, P p.2) : ∀ p ∈ b.set x v, P p.2 := by
  intro p hp
  obtain ⟨⟨y, u⟩, hq, rfl⟩ := List.mem_map.1 hp
  dsimp only
  split
  · exact hv
  · exact hb (y, u) hq

namespace World.Every

variable {P : Value → Prop} {w w' : World} {frame : FrameId} {t : Token} {x : Bytes} {v : Value}

theorem rebind (h : w.Every P) (i : FrameId) {change : Bindings → Bindings}
    (hchange : ∀ b : Bindings, (∀ p ∈ b, P p.2) → ∀ p ∈ change b, P p.2) :
    Every P { w with frames := w.frames.rebind i change } := by
  refine ⟨fun f hf => ?_, h.heap⟩
  obtain ⟨j, hj⟩ := Array.getElem?_of_mem hf
  rw [Frames.getElem?_rebind] at hj
  split at hj
  · obtain ⟨g, hg, rfl⟩ := Option.map_eq_some_iff.1 hj
    exact hchange g.bindings (h.frames g (Array.mem_of_getElem? hg))
  · exact h.frames f (Array.mem_of_getElem? hj)

theorem declare (h : w.Every P) (hv : P v) (hw : w.declare frame t x v = .ok w') : w'.Every P := by
  obtain ⟨-, rfl⟩ := eq_of_declare hw
  exact h.rebind frame fun b hb => List.forall_mem_cons.2 ⟨hv, hb⟩

theorem assign (h : w.Every P) (hv : P v) (hw : w.assign frame t x v = .ok w') : w'.Every P := by
  obtain ⟨i, -, rfl⟩ := eq_of_assign hw
  exact h.rebind i fun b hb => Bindings.forall_set hv hb

end World.Every

namespace World.Closed

variable {w w' : World} {frame : FrameId} {t : Token} {x : Bytes} {v : Value}

theorem rebind (h : w.Closed) (i : FrameId) {change : Bindings → Bindings}
    (hchange : ∀ b : Bindings, (∀ p ∈ b, p.2.Below w.heap.size) → ∀ p ∈ change b, p.2.Below w.heap.size) :
    Closed { w with frames := w.frames.rebind i change } := .of_every (h.every.rebind i hchange)

theorem declare (h : w.Closed) (hv : v.Below w.heap.size) (hw : w.declare frame t x v = .ok w') : w'.Closed := by
  have hevery := h.every.declare hv hw
  obtain ⟨-, rfl⟩ := eq_of_declare hw
  exact .of_every hevery

theorem assign (h : w.Closed) (hv : v.Below w.heap.size) (hw : w.assign frame t x v = .ok w') : w'.Closed := by
  have hevery := h.every.assign hv hw
  obtain ⟨i, -, rfl⟩ := eq_of_assign hw
  exact .of_every hevery

end World.Closed

/-! ## Worlds that are the same up to arrays -/

namespace World

variable {n : Nat} {ρ : ArrayId → ArrayId} {w w' w₁' : World}

/-- the second world is the first one up to the names of arrays, with perhaps other arrays that nothing refers to: `ρ`
takes different arrays to different ones and leaves the first `n`, which both worlds have, alone -/
structure Mirrors (n : Nat) (ρ : ArrayId → ArrayId) (w w' : World) : Prop where
  injective : ρ.Injective
  old : ∀ id < n, ρ id = id
  renamed : Renamed ρ w w'
  printed : w'.printed = w.printed
  closed : w'.Closed
  size : n ≤ w'.heap.size

theorem Closed.mirrors (h : w.Closed) : Mirrors w.heap.size id w w :=
  ⟨Function.injective_id, fun _ _ => rfl, w.renamed_id, rfl, h, Nat.le_refl _⟩

theorem Renamed.trans {σ : ArrayId → ArrayId} {w'' : World} (h : Renamed ρ w w') (h' : Renamed σ w' w'') :
    Renamed (σ ∘ ρ) w w'' := by
  refine ⟨?_, fun id => ?_, fun id hid => h'.old _ (h.old id hid), fun i => ?_⟩
  · rw [h'.frames, h.frames, Frames.rename_rename]
  · rw [Function.comp, h'.items, h.items, List.map_map]
    exact List.map_congr_left fun v _ => v.rename_rename
  · rw [Function.comp, h.fresh, h'.fresh]

theorem moveUp_injective (n k : Nat) : (moveUp n k).Injective := by
  intro i j hij
  simp only [moveUp] at hij
  split at hij <;> split at hij <;> omega

/-- an evaluation in the second world only: nothing refers to the arrays that it adds -/
theorem Mirrors.evalSecond (h : Mirrors n ρ w w') {e : Expr} {limit : Nat} {frame : FrameId}
    {a : Except Diagnostic Value} (he : (e.eval limit frame).runIn w' = (a, w₁')) : ∃ σ, Mirrors n σ w w₁' := by
  have hgrows := grows_of_eval he
  obtain ⟨hclosed, hsize, -⟩ := Eval.safe_eval limit frame e w' h.closed h.size
  rw [he] at hclosed hsize
  refine ⟨_, (moveUp_injective _ _).comp h.injective, fun id hid => ?_, h.renamed.trans (h.closed.renamed hgrows),
    hgrows.printed.trans h.printed, hclosed, hsize⟩
  rw [Function.comp, h.old id hid]
  exact if_pos (Nat.lt_of_lt_of_le hid h.size)

/-- an evaluation that gives a value in the second world gives it in the first one -/
theorem Mirrors.eval (h : Mirrors n ρ w w') {e : Expr} {limit : Nat} {frame : FrameId} {u : Value}
    (he : (e.eval limit frame).runIn w' = (.ok u, w₁')) : ∃ v w₁, (e.eval limit frame).runIn w = (.ok v, w₁) ∧
      u = v.rename ρ ∧ u.Below w₁'.heap.size ∧ Mirrors n ρ w₁ w₁' := by
  obtain ⟨hgrows, hresult, hrenamed⟩ := Eval.tame_eval ρ limit frame e w w' h.renamed
  obtain ⟨hclosed, hsize, hbelow⟩ := Eval.safe_eval limit frame e w' h.closed h.size
  rcases hx : (e.eval limit frame).runIn w with ⟨r, w₁⟩
  rw [he] at hclosed hsize hbelow
  simp only [hx, he] at hgrows hresult hrenamed
  have hprinted : w₁'.printed = w₁.printed := by
    rw [(grows_of_eval he).printed, hgrows.printed, h.printed]
  cases r with
  | error d => cases hresult
  | ok v =>
    cases hresult
    exact ⟨v, w₁, rfl, rfl, hbelow _ rfl, h.injective, h.old, hrenamed, hprinted, hclosed, hsize⟩

theorem Mirrors.withFrames (h : Mirrors n ρ w w') {frames : Frames}
    (hclosed : Closed { w' with frames := frames.rename ρ }) :
    Mirrors n ρ { w with frames := frames } { w' with frames := frames.rename ρ } :=
  ⟨h.injective, h.old, ⟨rfl, h.renamed.items, h.renamed.old, h.renamed.fresh⟩, h.printed, hclosed, h.size⟩

theorem Mirrors.declare (h : Mirrors n ρ w w') {frame : FrameId} {t : Token} {x : Bytes} {v : Value}
    (hv : (v.rename ρ).Below w'.heap.size) (hdeclare : w'.declare frame t x (v.rename ρ) = .ok w₁') :
    ∃ w₁, w.declare frame t x v = .ok w₁ ∧ Mirrors n ρ w₁ w₁' := by
  have hclosed := h.closed.declare hv hdeclare
  rw [World.declare, h.renamed.frames, Frames.declare?_rename] at hdeclare
  rw [World.declare]
  cases hframes : w.frames.declare? frame x v with
  | none => rw [hframes] at hdeclare; cases hdeclare
  | some frames => rw [hframes] at hdeclare; cases hdeclare; exact ⟨_, rfl, h.withFrames hclosed⟩

theorem Mirrors.assign (h : Mirrors n ρ w w') {frame : FrameId} {t : Token} {x : Bytes} {v : Value}
    (hv : (v.rename ρ).Below w'.heap.size) (hassign : w'.assign frame t x (v.rename ρ) = .ok w₁') :
    ∃ w₁, w.assign frame t x v = .ok w₁ ∧ Mirrors n ρ w₁ w₁' := by
  have hclosed := h.closed.assign hv hassign
  rw [World.assign, h.renamed.frames, Frames.assign?_rename] at hassign
  rw [World.assign]
  cases hframes : w.frames.assign? frame x v with
  | none => rw [hframes] at hassign; cases hassign
  | some frames => rw [hframes] at hassign; cases hassign; exact ⟨_, rfl, h.withFrames hclosed⟩

theorem Mirrors.print (h : Mirrors n ρ w w') (line : Bytes) : Mirrors n ρ (w.print line) (w'.print line) :=
  ⟨h.injective, h.old, ⟨h.renamed.frames, h.renamed.items, h.renamed.old, h.renamed.fresh⟩,
    congrArg (line :: ·) h.printed, ⟨h.closed.frames, h.closed.heap⟩, h.size⟩

end World

/-! ## Statements that are completed -/

namespace Stmt

variable {limits : Limits} {frame : FrameId}

/-- how a statement that is no loop is completed -/
inductive Completes (limits : Limits) (frame : FrameId) : Stmt → World → World → Prop
  | declare {t x e v w w₁ w'} (he : (e.eval limits.calls frame).runIn w = (.ok v, w₁))
      (hv : w₁.declare frame t x v = .ok w') : Completes limits frame (.declare t x e) w w'
  | assign {t x e v w w₁ w'} (he : (e.eval limits.calls frame).runIn w = (.ok v, w₁))
      (hv : w₁.assign frame t x v = .ok w') : Completes limits frame (.assign t x e) w w'
  | print {t e v w w₁ line} (he : (e.eval limits.calls frame).runIn w = (.ok v, w₁))
      (hv : v.text? w₁.heap = some line) : Completes limits frame (.print t e) w (w₁.print line)
  | function {t f ps e w w'} (hf : w.declare frame t f (.closure ⟨f, ps, e, some frame, t⟩) = .ok w') :
      Completes limits frame (.function t f ps e) w w'

theorem completes_iff {s : Stmt} {w w' : World} :
    s.Completes limits frame w w' ↔ s.isLoop = false ∧ s.exec limits frame w = .done w' := by
  constructor
  · intro h
    cases h with
    | declare he hv => exact ⟨rfl, by simp only [exec, World.withValue, he, hv]⟩
    | assign he hv => exact ⟨rfl, by simp only [exec, World.withValue, he, hv]⟩
    | print he hv => exact ⟨rfl, by simp only [exec, World.withValue, he, hv]⟩
    | function hf => exact ⟨rfl, by simp only [exec, hf]⟩
  · rintro ⟨hs, h⟩
    cases s with
    | declare t x e =>
      rw [exec] at h
      obtain ⟨v, w₁, he, h⟩ := done_of_withValue h
      cases hv : w₁.declare frame t x v with
      | error d => simp [hv] at h
      | ok w₂ =>
        simp only [hv] at h
        cases h
        exact .declare he hv
    | assign t x e =>
      rw [exec] at h
      obtain ⟨v, w₁, he, h⟩ := done_of_withValue h
      cases hv : w₁.assign frame t x v with
      | error d => simp [hv] at h
      | ok w₂ =>
        simp only [hv] at h
        cases h
        exact .assign he hv
    | print t e =>
      rw [exec] at h
      obtain ⟨v, w₁, he, h⟩ := done_of_withValue h
      cases hv : v.text? w₁.heap with
      | none => simp [hv] at h
      | some line =>
        simp only [hv] at h
        cases h
        exact .print he hv
    | loop => cases hs
    | function t f ps e =>
      rw [exec] at h
      cases hf : w.declare frame t f (.closure ⟨f, ps, e, some frame, t⟩) with
      | error d => simp [hf] at h
      | ok w₂ =>
        simp only [hf] at h
        cases h
        exact .function hf
    | missing =>
      rw [exec] at h
      cases h

/-- a statement that is completed in the second world is completed in the first one -/
theorem Completes.mirrors {n : Nat} {ρ : ArrayId → ArrayId} {s : Stmt} {w w' w₁' : World}
    (h : s.Completes limits frame w' w₁') (hw : World.Mirrors n ρ w w') :
    ∃ w₁, s.Completes limits frame w w₁ ∧ World.Mirrors n ρ w₁ w₁' := by
  cases h with
  | declare he' hv' =>
    obtain ⟨v, w₂, he, rfl, hbelow, hw⟩ := hw.eval he'
    obtain ⟨w₁, hv, hw⟩ := hw.declare hbelow hv'
    exact ⟨w₁, .declare he hv, hw⟩
  | assign he' hv' =>
    obtain ⟨v, w₂, he, rfl, hbelow, hw⟩ := hw.eval he'
    obtain ⟨w₁, hv, hw⟩ := hw.assign hbelow hv'
    exact ⟨w₁, .assign he hv, hw⟩
  | print he' hv' =>
    obtain ⟨v, w₂, he, rfl, -, hw⟩ := hw.eval he'
    rw [Value.text?_rename hw.renamed.items] at hv'
    exact ⟨_, .print he hv', hw.print _⟩
  | function hf' =>
    obtain ⟨w₁, hf, hw⟩ := hw.declare (v := .closure _) trivial hf'
    exact ⟨w₁, .function hf, hw⟩

/-! ## Runs -/

/-- a run of the statements `ss` completes statements that are no loops, one after another, and then has others before
it: a loop lets its body run as long as its condition is true -/
inductive Runs (limits : Limits) (frame : FrameId) : List Stmt → World → List Stmt → List Stmt → World → Prop
  | start (ss : List Stmt) (w : World) : Runs limits frame ss w [] ss w
  | next {s ss w w₁ us ss' w'} (hs : s.Completes limits frame w w₁) (h : Runs limits frame ss w₁ us ss' w') :
      Runs limits frame (s :: ss) w (s :: us) ss' w'
  | leave {t c body ss w w₁ us ss' w'} (hc : (c.eval limits.calls frame).runIn w = (.ok (.boolean false), w₁))
      (h : Runs limits frame ss w₁ us ss' w') : Runs limits frame (.loop t c body :: ss) w us ss' w'
  | round {t c body ss w w₁ us ss' w'} (hc : (c.eval limits.calls frame).runIn w = (.ok (.boolean true), w₁))
      (h : Runs limits frame (body ++ .loop t c body :: ss) w₁ us ss' w') :
      Runs limits frame (.loop t c body :: ss) w us ss' w'

/-- the statement is in a block, or in a loop that is in it -/
inductive Within (s : Stmt) : List Stmt → Prop
  | here {ss : List Stmt} (h : s ∈ ss) : Within s ss
  | body {t : Token} {c : Expr} {body ss : List Stmt} (hloop : .loop t c body ∈ ss) (h : Within s body) : Within s ss

namespace Within

variable {s : Stmt} {t : Token} {c : Expr} {body ss ss' : List Stmt}

theorem of_loop (hloop : (loop t c body).Within ss) (h : s.Within body) : s.Within ss := by
  induction hloop with
  | here hmem => exact .body hmem h
  | body hmem _ ih => exact .body hmem ih

theorem trans (h : s.Within ss) (hss : ∀ u ∈ ss, u.Within ss') : s.Within ss' := by
  cases h with
  | here hmem => exact hss s hmem
  | body hmem h => exact (hss _ hmem).of_loop h

end Within

namespace Runs

variable {ss ss₁ ss' us us' : List Stmt} {w w₁ w' : World}

theorem trans (h : Runs limits frame ss w us ss₁ w₁) (h' : Runs limits frame ss₁ w₁ us' ss' w') :
    Runs limits frame ss w (us ++ us') ss' w' := by
  induction h with
  | start => exact h'
  | next hs _ ih => exact .next hs (ih h')
  | leave hc _ ih => exact .leave hc (ih h')
  | round hc _ ih => exact .round hc (ih h')

theorem append (h : Runs limits frame ss w us ss' w') (rest : List Stmt) :
    Runs limits frame (ss ++ rest) w us (ss' ++ rest) w' := by
  induction h with
  | start ss w => exact .start (ss ++ rest) w
  | next hs _ ih => exact .next hs ih
  | leave hc _ ih => exact .leave hc ih
  | round hc _ ih =>
    rw [List.append_assoc, List.cons_append] at ih
    exact .round hc ih

/-- the statements that a run completes are in its block -/
theorem within (h : Runs limits frame ss w us ss' w') {u : Stmt} (hu : u ∈ us) : u.isLoop = false ∧ u.Within ss := by
  have htail : ∀ (s : Stmt) (ss : List Stmt), ∀ u ∈ ss, u.Within (s :: ss) :=
    fun s ss u hu => .here (List.mem_cons_of_mem s hu)
  induction h with
  | start => cases hu
  | next hs _ ih =>
    rcases List.mem_cons.1 hu with rfl | hu
    · exact ⟨(completes_iff.1 hs).1, .here List.mem_cons_self⟩
    · exact ⟨(ih hu).1, (ih hu).2.trans (htail _ _)⟩
  | leave _ _ ih => exact ⟨(ih hu).1, (ih hu).2.trans (htail _ _)⟩
  | round _ _ ih =>
    refine ⟨(ih hu).1, (ih hu).2.trans fun u hu => ?_⟩
    rcases List.mem_append.1 hu with hu | hu
    · exact .body List.mem_cons_self (.here hu)
    · exact .here hu

/-- what a run has completed, a run of these statements completes from a world that is the same up to arrays -/
theorem replay (h : Runs limits frame ss w us ss' w') {n : Nat} {ρ : ArrayId → ArrayId} {r : World}
    (hr : World.Mirrors n ρ r w) :
    ∃ r' σ, execAll limits frame us r = .done r' ∧ World.Mirrors n σ r' w' := by
  -- statements are completed in both worlds; conditions of loops are evaluated in the second one only
  induction h generalizing r ρ with
  | start => exact ⟨r, ρ, by rw [execAll], hr⟩
  | next hs _ ih =>
    obtain ⟨r₁, hs₁, hr₁⟩ := hs.mirrors hr
    obtain ⟨r', σ, hrest, hr'⟩ := ih hr₁
    exact ⟨r', σ, by rw [execAll, (completes_iff.1 hs₁).2, Outcome.andThen, hrest], hr'⟩
  | leave hc _ ih =>
    obtain ⟨σ, hr₁⟩ := hr.evalSecond hc
    exact ih hr₁
  | round hc _ ih =>
    obtain ⟨σ, hr₁⟩ := hr.evalSecond hc
    exact ih hr₁

end Runs

/-- a loop that ends has taken its rounds -/
theorem runs_of_iterate {t : Token} {c : Expr} {body : List Stmt}
    {condition : World → (Bool → World → Outcome) → Outcome}
    (hcondition : ∀ {w w' next}, condition w next = .done w' →
      ∃ b w₁, (c.eval limits.calls frame).runIn w = (.ok (.boolean b), w₁) ∧ next b w₁ = .done w')
    (hbody : ∀ {w w'}, execAll limits frame body w = .done w' → ∃ us, Runs limits frame body w us [] w')
    (rounds : Nat) {w w' : World} (h : iterate condition (execAll limits frame body) rounds w = .done w') :
    ∃ us, Runs limits frame [.loop t c body] w us [] w' := by
  induction rounds generalizing w with
  | zero => cases h
  | succ rounds ih =>
    rw [iterate] at h
    obtain ⟨b, w₁, hc, h⟩ := hcondition h
    cases b with
    | false =>
      cases h
      exact ⟨[], .leave hc (.start _ _)⟩
    | true =>
      rw [if_pos rfl] at h
      cases hb : execAll limits frame body w₁ with
      | done w₂ =>
        rw [hb] at h
        obtain ⟨us, hus⟩ := hbody hb
        obtain ⟨us', hus'⟩ := ih h
        exact ⟨us ++ us', .round hc ((hus.append [.loop t c body]).trans hus')⟩
      | failed d w₂ => rw [hb] at h; cases h
      | unfinished w₂ => rw [hb] at h; cases h

mutual
theorem runs_of_exec : (s : Stmt) → ∀ {w w'}, s.exec limits frame w = .done w' → ∃ us, Runs limits frame [s] w us [] w'
  | .loop t c body, w, w', h => by
    rw [exec] at h
    refine runs_of_iterate ?_ (runs_of_execAll body) limits.rounds h
    intro w w' next h
    obtain ⟨v, w₁, hc, h⟩ := done_of_withValue h
    cases v with
    | boolean b => exact ⟨b, w₁, hc, h⟩
    | _ => cases h
  | .declare .., w, w', h | .assign .., w, w', h | .print .., w, w', h | .function .., w, w', h | .missing, w, w', h =>
    ⟨_, .next (completes_iff.2 ⟨rfl, h⟩) (.start [] w')⟩

/-- a run that is done has completed statements one after another -/
theorem runs_of_execAll : (ss : List Stmt) → ∀ {w w'}, execAll limits frame ss w = .done w' →
    ∃ us, Runs limits frame ss w us [] w'
  | [], w, w', h => by
    rw [execAll] at h
    cases h
    exact ⟨[], .start [] w⟩
  | s :: ss, w, w', h => by
    rw [execAll] at h
    cases hs : s.exec limits frame w with
    | done w₁ =>
      rw [hs] at h
      obtain ⟨us, hus⟩ := runs_of_exec s hs
      obtain ⟨us', hus'⟩ := runs_of_execAll ss h
      exact ⟨us ++ us', (hus.append ss).trans hus'⟩
    | failed d w₁ => rw [hs] at h; cases h
    | unfinished w₁ => rw [hs] at h; cases h
end

theorem Evaluates.grows {s : Stmt} {w w' : World} (h : s.Evaluates limits frame w w') : w.Grows w' := by
  cases h with
  | nothing => exact .refl w
  | expression _ he => exact World.grows_of_eval he

theorem Evaluates.mirrors {s : Stmt} {w w' r : World} (h : s.Evaluates limits frame w w') {n : Nat}
    {ρ : ArrayId → ArrayId} (hr : World.Mirrors n ρ r w) : ∃ σ, World.Mirrors n σ r w' := by
  cases h with
  | nothing => exact ⟨ρ, hr⟩
  | expression _ he => exact hr.evalSecond he

/-- a run that comes to a statement has completed others before -/
theorem Visits.runs {ss : List Stmt} {s : Stmt} {w w' : World} (h : Visits limits frame ss w s w') :
    ∃ us rest, Runs limits frame ss w us (s :: rest) w' := by
  induction h with
  | here s ss w => exact ⟨[], ss, .start _ _⟩
  | @next s s' ss w w₁ w' hs h ih =>
    obtain ⟨us, hus⟩ := runs_of_exec s hs
    obtain ⟨us', rest, hus'⟩ := ih
    exact ⟨us ++ us', rest, (hus.append ss).trans hus'⟩
  | body hc _ ih =>
    obtain ⟨us, rest, hus⟩ := ih
    exact ⟨us, _, .round hc (hus.append _)⟩
  | again hc hbody _ ih =>
    obtain ⟨us, hus⟩ := runs_of_execAll _ hbody
    obtain ⟨us', rest, hus'⟩ := ih
    exact ⟨us ++ us', rest, .round hc ((hus.append _).trans hus')⟩

end Stmt

theorem Outcome.eq_failed_of_diagnostic? {o : Outcome} {d : Diagnostic} (h : o.diagnostic? = some d) :
    o = .failed d o.world := by
  cases o with
  | done w => cases h
  | failed d' w =>
    cases h
    rfl
  | unfinished w => cases h

namespace Block

/-- **A failing run leaves what the completed statements did.** It has completed statements of the block, none of them a
loop, and the statement or condition that raised the failure has added arrays at most. Run by themselves from the same
world, the completed statements are done and lead to the same world, up to the names of new arrays. -/
theorem failure_keeps_what_was_completed {b : Block} {limits : Limits} {frame : FrameId} {w w' : World} {d : Diagnostic}
    (hw : w.Closed) (h : b.exec limits frame w = .failed d w') :
    ∃ us : List Stmt, (∀ u ∈ us, u.isLoop = false ∧ u.Within b) ∧
      (∃ s rest w₀, Stmt.Runs limits frame b w us (s :: rest) w₀ ∧ s.Raises limits frame w₀ d ∧ w₀.Grows w') ∧
      ∃ r ρ, Block.exec us limits frame w = .done r ∧ World.Mirrors w.heap.size ρ r w' := by
  obtain ⟨s, w₀, hvisits, hraises, hdone⟩ := Stmt.failsAt_of_execAll b h
  obtain ⟨us, rest, hruns⟩ := hvisits.runs
  obtain ⟨r, σ, hreplay, hr⟩ := hruns.replay hw.mirrors
  obtain ⟨ρ, hr'⟩ := hdone.mirrors hr
  exact ⟨us, fun u hu => hruns.within hu, ⟨s, rest, w₀, hruns, hraises, hdone.grows⟩, r, ρ, hreplay, hr'⟩

/-- `c := true`, `while [c][0] { print f(b)  c = false }`, `d := e` -/
def failsBehindLoop : Block :=
  let name (x : String) : Expr := .variable .unplaced (bytes x)
  let condition : Expr := .subscript .unplaced (.array .unplaced [name "c"]) (.numeral .unplaced .zero)
  [.declare .unplaced (bytes "c") (.boolean .unplaced true),
    .loop .unplaced condition
      [.print .unplaced (.call .unplaced (bytes "f") [name "b"]),
        .assign .unplaced (bytes "c") (.boolean .unplaced false)],
    .declare .unplaced (bytes "d") (name "e")]

/-- The condition made two arrays and the call one; only the latter is there when the three statements are run again. -/
theorem failure_keeps_what_was_completed_loop :
    World.shared.Closed ∧ ∃ d w', failsBehindLoop.exec ⟨9, 9⟩ 0 .shared = .failed d w' ∧
      d.cause = .undefinedVariable (bytes "e") ∧ w'.heap.size = 4 ∧ ∃ us : List Stmt,
        (∀ u ∈ us, u.isLoop = false ∧ u.Within failsBehindLoop) ∧
        ∃ r ρ, Block.exec us ⟨9, 9⟩ 0 .shared = .done r ∧ World.Mirrors World.shared.heap.size ρ r w' := by
  have hclosed : World.shared.Closed := ⟨by decide, by decide⟩
  have hrun : (failsBehindLoop.exec ⟨9, 9⟩ 0 .shared).diagnostic?.map (·.cause) =
      some (.undefinedVariable (bytes "e")) := by decide +kernel
  have hsize : (failsBehindLoop.exec ⟨9, 9⟩ 0 .shared).world.heap.size = 4 := by decide +kernel
  obtain ⟨d, hd, hcause⟩ := Option.map_eq_some_iff.1 hrun
  have hfailed := Outcome.eq_failed_of_diagnostic? hd
  obtain ⟨us, hus, -, hreplay⟩ := failure_keeps_what_was_completed hclosed hfailed
  exact ⟨hclosed, d, _, hfailed, hcause, hsize, us, hus, hreplay⟩

end Block

end Treewalk
