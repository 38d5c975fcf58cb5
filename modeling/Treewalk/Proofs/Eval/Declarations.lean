/-
Names are declared once.

The names of the root frame are the built-in ones and those that the history since the world was new declares, each of
them once (`World.Names.leads`). So a block with a declaration in it, such as the body of a loop, is not completed
twice, and this holds in every state of programs that run one after another (`World.names_are_declared_once`), whether
they fail or not: where a run comes to a statement and where it ends, since what a run has completed by then goes on
with what was completed before it.
-/
import Treewalk.Proofs.Eval.Histories
import Treewalk.Proofs.Eval.Scopes

namespace Treewalk

/-! ## The names of a frame -/

namespace Frames

variable (fs : Frames) (i : FrameId) (x : Bytes) (v : Value)

/-- the names that a frame itself binds, last one first -/
def names : List Bytes := (fs[i]?.map fun f => f.bindings.map Prod.fst).getD []

variable {fs i x} in
theorem hasOwn_iff_mem_names : fs.hasOwn i x = true ↔ x ∈ fs.names i := by
  rw [hasOwn, own?, names]
  cases fs[i]? with
  | none => simp
  | some f =>
    rw [Option.bind_some, List.lookup_isSome_iff, Option.map_some, Option.getD_some, List.mem_map]
    constructor
    · intro h
      obtain ⟨p, hp, hx⟩ := h
      exact ⟨p, hp, (eq_of_beq hx).symm⟩
    · intro h
      obtain ⟨p, hp, hx⟩ := h
      exact ⟨p, hp, beq_iff_eq.2 hx.symm⟩

theorem names_declare (hi : i < fs.size) : (fs.rebind i ((x, v) :: ·)).names i = x :: fs.names i := by
  rw [names, names, getElem?_rebind, if_pos rfl, Array.getElem?_eq_getElem hi]
  rfl

/-- a new value changes no names -/
theorem names_assign (j : FrameId) : (fs.rebind j (·.set x v)).names i = fs.names i := by
  rw [names, names, getElem?_rebind]
  by_cases hij : j = i
  · rw [if_pos hij, Option.map_map]
    congr 2
    funext f
    exact Bindings.map_fst_set f.bindings x v
  · rw [if_neg hij]

end Frames

/-! ## Declarations -/

/-- the name that a statement declares -/
def Stmt.declares? : Stmt → Option Bytes
  | .declare _ x _ => some x
  | .function _ f _ _ => some f
  | .assign _ _ _ | .print _ _ | .loop _ _ _ | .missing => none

namespace World

variable {w w' : World} {us : List Stmt}

/-- the root frame is there, and its names are `ns`, which differ from one another -/
structure Names (ns : List Bytes) (w : World) : Prop where
  root_lt : root < w.frames.size
  names_eq : w.frames.names root = ns.reverse
  nodup : ns.Nodup

namespace Names

variable {ns : List Bytes} {x : Bytes} {v : Value}

theorem initial : Names (builtins.map Prod.fst) .initial := ⟨by decide +kernel, by decide +kernel, by decide +kernel⟩

theorem hasOwn_iff (h : w.Names ns) : w.frames.hasOwn root x = true ↔ x ∈ ns := by
  rw [Frames.hasOwn_iff_mem_names, h.names_eq, List.mem_reverse]

theorem of_grows (h : w.Names ns) (hw : w.Grows w') : w'.Names ns := by
  refine ⟨?_, ?_, h.nodup⟩
  · rw [hw.frames]
    exact h.root_lt
  · rw [hw.frames]
    exact h.names_eq

theorem declare (h : w.Names ns) (hx : w.frames.hasOwn root x = false) :
    Names (ns ++ [x]) { w with frames := w.frames.rebind root ((x, v) :: ·) } := by
  have hnew : x ∉ ns := by
    intro hmem
    rw [h.hasOwn_iff.2 hmem] at hx
    cases hx
  refine ⟨?_, ?_, ?_⟩
  · rw [Frames.size_rebind]
    exact h.root_lt
  · rw [Frames.names_declare _ _ _ _ h.root_lt, h.names_eq, List.reverse_append, List.reverse_singleton,
      List.singleton_append]
  · rw [← List.concat_eq_append]
    exact h.nodup.concat hnew

theorem assign (h : w.Names ns) (i : FrameId) : Names ns { w with frames := w.frames.rebind i (·.set x v) } := by
  refine ⟨?_, ?_, h.nodup⟩
  · rw [Frames.size_rebind]
    exact h.root_lt
  · rw [Frames.names_assign]
    exact h.names_eq

/-- a statement that is completed adds the name that it declares -/
theorem completes (h : w.Names ns) {limits : Limits} {s : Stmt} (hs : s.Completes limits root w w') :
    w'.Names (ns ++ s.declares?.toList) := by
  cases hs with
  | declare he hv =>
    obtain ⟨hnew, rfl⟩ := eq_of_declare hv
    exact (h.of_grows (grows_of_eval he)).declare hnew
  | assign he hv =>
    obtain ⟨i, -, rfl⟩ := eq_of_assign hv
    rw [Stmt.declares?, Option.toList_none, List.append_nil]
    exact (h.of_grows (grows_of_eval he)).assign i
  | print he =>
    rw [Stmt.declares?, Option.toList_none, List.append_nil]
    obtain ⟨hroot, hnames, hnodup⟩ := h.of_grows (grows_of_eval he)
    exact ⟨hroot, hnames, hnodup⟩
  | function hf =>
    obtain ⟨hnew, rfl⟩ := eq_of_declare hf
    exact h.declare hnew

/-- a history adds the names that it declares -/
theorem leads (h : w.Names ns) (hleads : w.Leads us w') : w'.Names (ns ++ us.filterMap Stmt.declares?) := by
  induction hleads with
  | start =>
    rw [List.filterMap_nil, List.append_nil]
    exact h
  | @next _ s us _ _ _ hs ih =>
    have hnames : us.filterMap Stmt.declares? ++ s.declares?.toList = (us ++ [s]).filterMap Stmt.declares? := by
      rw [List.filterMap_append]
      cases hx : s.declares? <;> simp [hx]
    rw [← hnames, ← List.append_assoc]
    exact ih.completes hs
  | evaluated _ hw ih => exact ih.of_grows hw.grows

end Names

end World

namespace Stmt

/-- a run completes the statements of its block that it leaves behind -/
theorem Runs.mem_or_mem {ss us ss' : List Stmt} {w w' : World} {limits : Limits} {frame : FrameId}
    (h : Runs limits frame ss w us ss' w') {s : Stmt}
    (hs : s ∈ ss) (hloop : s.isLoop = false) : s ∈ us ∨ s ∈ ss' := by
  induction h with
  | start => exact .inr hs
  | next _ _ ih =>
    rcases List.mem_cons.1 hs with rfl | hs
    · exact .inl List.mem_cons_self
    · exact (ih hs).imp_left (List.mem_cons_of_mem _)
  | leave _ _ ih =>
    rcases List.mem_cons.1 hs with rfl | hs
    · cases hloop
    · exact ih hs
  | round _ _ ih =>
    rcases List.mem_cons.1 hs with rfl | hs
    · cases hloop
    · exact ih (List.mem_append_right _ (List.mem_cons_of_mem _ hs))

theorem isLoop_of_declares? {s : Stmt} (h : s.declares?.isSome = true) : s.isLoop = false := by
  cases s with
  | loop => cases h
  | _ => rfl

end Stmt

namespace World

variable {w w₁ w₂ w' : World} {us : List Stmt} {limits : Limits}

namespace Leads

/-- a block that is done has completed each of its statements that is no loop -/
theorem done {ss : List Stmt} {s : Stmt} (hdone : Stmt.execAll limits root ss w = .done w') (hs : s ∈ ss)
    (hloop : s.isLoop = false) : ∃ vs, s ∈ vs ∧ w.Leads vs w' := by
  obtain ⟨vs, hruns⟩ := Stmt.runs_of_execAll ss hdone
  have hmem : s ∈ vs := (hruns.mem_or_mem hs hloop).resolve_right List.not_mem_nil
  exact ⟨vs, hmem, Leads.start.runs hruns⟩

end Leads

/-- what a history declares is not declared again by what follows -/
theorem Names.not_declared_again {ns : List Bytes} (h : w.Names ns) {s : Stmt} {x : Bytes} {us vs ws : List Stmt}
    (hx : s.declares? = some x) (hs : s ∈ us) (hus : w.Leads us w₁) (hvs : w₁.Leads vs w₂) (hws : w₂.Leads ws w') :
    s ∉ ws := by
  intro hs'
  have hnodup := (((h.leads hus).leads hvs).leads hws).nodup
  have hfirst : x ∈ ns ++ us.filterMap Stmt.declares? ++ vs.filterMap Stmt.declares? :=
    List.mem_append_left _ (List.mem_append_right _ (List.mem_filterMap.2 ⟨s, hs, hx⟩))
  have hsecond : x ∈ ws.filterMap Stmt.declares? := List.mem_filterMap.2 ⟨s, hs', hx⟩
  exact List.disjoint_of_nodup_append hnodup hfirst hsecond

/-- a block with a declaration in it is not completed twice -/
theorem Names.not_done_again {ns : List Bytes} (h : w.Names ns) {body vs : List Stmt} {limits' : Limits}
    (hdeclares : ∃ s ∈ body, s.declares?.isSome = true) (hfirst : Stmt.execAll limits root body w = .done w₁)
    (hvs : w₁.Leads vs w₂) : Stmt.execAll limits' root body w₂ ≠ .done w' := by
  intro hsecond
  obtain ⟨s, hs, hsome⟩ := hdeclares
  obtain ⟨x, hx⟩ := Option.isSome_iff_exists.1 hsome
  have hloop := Stmt.isLoop_of_declares? hsome
  obtain ⟨us, hus, hleads⟩ := Leads.done hfirst hs hloop
  obtain ⟨ws, hws, hleads'⟩ := Leads.done hsecond hs hloop
  exact h.not_declared_again hx hus hleads hvs hleads' hws

theorem hasOwn_assign (w : World) (limits : Limits) (t : Token) (x : Bytes) (e : Expr) (y : Bytes) :
    ((Stmt.assign t x e).exec limits root w).world.frames.hasOwn root y = w.frames.hasOwn root y := by
  rw [Bool.eq_iff_iff, Frames.hasOwn_iff_mem_names, Frames.hasOwn_iff_mem_names, Stmt.exec]
  rcases Stmt.withValue_cases limits root w e _ with ⟨d, w₁, he, heq⟩ | ⟨v, w₁, he, heq⟩
  · rw [heq, Outcome.world, (grows_of_eval he).frames]
  · rw [heq, ← (grows_of_eval he).frames]
    cases hx : w₁.assign root t x v with
    | error d => rfl
    | ok w₂ =>
      obtain ⟨i, -, rfl⟩ := eq_of_assign hx
      simp only [Outcome.world, Frames.names_assign]

/-- the root frame is the same throughout an evaluation -/
theorem Names.hasOwn_of_reaches {ns : List Bytes} (h : w.Names ns) {limit : Nat} {e : Expr} {m : Moment}
    (hm : (Moment.start e w).Reaches limit m) (x : Bytes) : m.world.frames.hasOwn root x = w.frames.hasOwn root x := by
  have hframe : m.world.frames[root]? = w.frames[root]? := by
    have hprefix : w.frames.toList <+: m.world.frames.toList := hm.frames
    rw [← Array.getElem?_toList, ← Array.getElem?_toList]
    obtain ⟨rest, hrest⟩ := hprefix
    rw [← hrest, List.getElem?_append_left]
    exact h.root_lt
  rw [Frames.hasOwn, Frames.hasOwn, Frames.own?, Frames.own?, hframe]

/-- **Each name is declared at most once.** The names of the root frame are the built-in ones and those that the
completed statements `us` declare, no name twice, and no assignment or evaluation changes them. A block with a
declaration right in it is not done again once it has been done, in another round, another loop or another program. -/
theorem names_are_declared_once (h : initial.Leads us w) :
    (∀ x, w.frames.hasOwn root x = true ↔ x ∈ builtins.map Prod.fst ∨ x ∈ us.filterMap Stmt.declares?) ∧
    (builtins.map Prod.fst ++ us.filterMap Stmt.declares?).Nodup ∧
    (∀ limit e m, (Moment.start e w).Reaches limit m → ∀ x, m.world.frames.hasOwn root x = w.frames.hasOwn root x) ∧
    ∀ limits : Limits,
      (∀ t x e y, ((Stmt.assign t x e).exec limits root w).world.frames.hasOwn root y = w.frames.hasOwn root y) ∧
      (∀ body : Block, (∃ s ∈ body, s.declares?.isSome = true) → ∀ w₁, body.exec limits root w = .done w₁ →
        ∀ vs w₂, w₁.Leads vs w₂ → ∀ limits' w', body.exec limits' root w₂ ≠ .done w') ∧
      ∀ b : Block, (∀ s w', Stmt.Visits limits root b w s w' → Follows limits b w us w') ∧
        Follows limits b w us (b.exec limits root w).world := by
  have hnames := Names.initial.leads h
  refine ⟨?_, hnames.nodup, ?_, ?_⟩
  · intro x
    rw [hnames.hasOwn_iff, List.mem_append]
  · intro limit e m hm
    exact hnames.hasOwn_of_reaches hm
  · intro limits
    refine ⟨hasOwn_assign w limits, ?_, ?_⟩
    · intro body hdeclares w₁ hfirst vs w₂ hvs limits' w'
      exact hnames.not_done_again hdeclares hfirst hvs
    · intro b
      exact ⟨fun s w' hvisits => h.follows_visits hvisits, h.follows_exec limits b⟩

/-- `x := true`, `while x { y := x }` -/
def declaresInLoop : Block :=
  let x : Expr := .variable .unplaced (bytes "x")
  [.declare .unplaced (bytes "x") (.boolean .unplaced true),
    .loop .unplaced x [.declare .unplaced (bytes "y") x]]

/-- The second round fails at `y`, which the first one has declared. -/
theorem names_are_declared_once_loop : ∃ o us, declaresInLoop.exec ⟨9, 9⟩ root initial = o ∧
    o.diagnostic?.map (·.cause) = some (.alreadyDeclared (bytes "y")) ∧ initial.Leads us o.world ∧
    us.filterMap Stmt.declares? = [bytes "x", bytes "y"] ∧
    (∀ x, o.world.frames.hasOwn root x = true ↔ x ∈ builtins.map Prod.fst ∨ x ∈ [bytes "x", bytes "y"]) ∧
    (builtins.map Prod.fst ++ [bytes "x", bytes "y"]).Nodup := by
  have hleads : initial.Leads
      [.declare .unplaced (bytes "x") (.boolean .unplaced true),
        .declare .unplaced (bytes "y") (.variable .unplaced (bytes "x"))]
      (declaresInLoop.exec ⟨9, 9⟩ root initial).world := by
    have hruns : Stmt.Runs ⟨9, 9⟩ root declaresInLoop initial _ _ _ :=
      .next (.declare rfl rfl) (.round rfl (.next (.declare rfl rfl) (.round rfl (.start _ _))))
    exact Leads.start.runs hruns
  obtain ⟨hnames, hnodup, -⟩ := names_are_declared_once hleads
  exact ⟨_, _, rfl, by decide +kernel, hleads, rfl, hnames, hnodup⟩

end World

end Treewalk
