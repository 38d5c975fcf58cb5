/-
One line for each statement that prints.

A run completes statements one after another, each in some world (`Stmt.Passes`), until it is done, a statement raises a
failure or it goes on for ever (`Stmt.Closes`). What it has printed then are the texts of the values that its completed
print statements had, in this order, and nothing else (`Stmt.Passes.printed`).

Such a text has bytes, and no line feed among them. For numbers and truth values this is so because of how they are
written; functions are written with their names, so it takes an invariant. Built-in functions have names without line
feeds, and the names of the others are declared by the program, hence lexemes (`Program.lf_notMem_of_declares`). No
evaluation makes a function and no statement changes a name, so all functions that names and arrays refer to keep to
this, throughout a run (`Stmt.Passes.isLine`). So the output can be cut into the texts again
(`Program.prints_one_line_each`).
-/
import Treewalk.Proofs.Eval.Declarations
import Treewalk.Proofs.Eval.Failures
import Treewalk.Proofs.Eval.Histories
import Treewalk.Proofs.Eval.Tracking
import Treewalk.Proofs.Number.Layout
import Treewalk.Proofs.Source
import Treewalk.Proofs.Token.Joining

namespace Treewalk

/-! ## Texts without line feeds -/

namespace Bytes

/-- a text that takes one line: it has bytes, and no line feed among them -/
structure IsLine (t : Bytes) : Prop where
  ne_nil : t ≠ []
  lf_notMem : lf ∉ t

instance : DecidablePred IsLine := fun t =>
  decidable_of_iff (t ≠ [] ∧ lf ∉ t) ⟨fun h => ⟨h.1, h.2⟩, fun h => ⟨h.1, h.2⟩⟩

theorem lf_notMem_joinWith {sep : Bytes} {ts : List Bytes} (hsep : lf ∉ sep) (hts : ∀ t ∈ ts, lf ∉ t) :
    lf ∉ joinWith sep ts := by
  fun_induction joinWith sep ts with
  | case1 => exact List.not_mem_nil
  | case2 t => exact hts t List.mem_cons_self
  | case3 t ts hne ih =>
    rw [List.forall_mem_cons] at hts
    simp only [List.mem_append, not_or]
    exact ⟨⟨hts.1, hsep⟩, ih hts.2⟩

/-- a text between two others -/
theorem IsLine.between {before t after : Bytes} (hbefore : before.IsLine) (ht : lf ∉ t) (hafter : lf ∉ after) :
    (before ++ t ++ after).IsLine := by
  refine ⟨by simp [hbefore.ne_nil], ?_⟩
  simp only [List.mem_append, not_or]
  exact ⟨⟨hbefore.lf_notMem, ht⟩, hafter⟩

end Bytes

theorem Number.isLine_text (x : Number) : x.text.IsLine := by
  cases x with
  | nan => decide
  | infinity s => cases s <;> decide
  | finite s m =>
    obtain ⟨n, hn, -⟩ := exists_spelling_text m
    have hline : n.text.IsLine := by
      obtain ⟨d, ds, hd, -⟩ := n.exists_digit_text
      refine ⟨by rw [hd]; exact List.cons_ne_nil _ _, fun hmem => ?_⟩
      exact absurd (Lexeme.not_isBlank_of_mem_text hmem) (by decide)
    rw [text_finite, hn]
    split
    · exact ⟨List.cons_ne_nil _ _, by simp [hline.lf_notMem, show Bytes.lf ≠ 45 by decide]⟩
    · exact hline

namespace Value

/-- the name that a function is written with -/
def functionName? : Value → Option Bytes
  | .native f => some f.name
  | .closure f => some f.name
  | .number _ | .boolean _ | .array _ | .noArray | .noFunction => none

/-- the value is no function, or its name has no line feed -/
def Unbroken (v : Value) : Prop := ∀ name ∈ v.functionName?, Bytes.lf ∉ name

instance : DecidablePred Unbroken := fun v => inferInstanceAs (Decidable (∀ name ∈ v.functionName?, Bytes.lf ∉ name))

theorem exists_of_mem_mapM {α β : Type} {f : α → Option β} {as : List α} {bs : List β} (h : as.mapM f = some bs)
    {b : β} (hb : b ∈ bs) : ∃ a ∈ as, f a = some b := by
  induction as generalizing bs with
  | nil =>
    cases h
    cases hb
  | cons a as ih =>
    rw [List.mapM_cons] at h
    obtain ⟨c, hc, h⟩ := Option.bind_eq_some_iff.1 h
    obtain ⟨cs, hcs, h⟩ := Option.bind_eq_some_iff.1 h
    cases h
    rcases List.mem_cons.1 hb with rfl | hb
    · exact ⟨a, List.mem_cons_self, hc⟩
    · obtain ⟨a', ha', hf⟩ := ih hcs hb
      exact ⟨a', List.mem_cons_of_mem a ha', hf⟩

theorem isLine_of_ne_array {h : Heap} {depth : Nat} {v : Value} {t : Bytes} (hv : v.Unbroken)
    (hne : ∀ id, v ≠ .array id) (ht : v.textWithin? h depth = some t) : t.IsLine := by
  cases v with
  | number x =>
    rw [textWithin?] at ht
    cases ht
    exact x.isLine_text
  | boolean b =>
    rw [textWithin?] at ht
    cases ht
    cases b <;> decide
  | array id => exact absurd rfl (hne id)
  | noArray | noFunction =>
    rw [textWithin?] at ht
    cases ht
    decide
  | native f | closure f =>
    rw [textWithin?] at ht
    cases ht
    exact .between (by decide) (hv f.name rfl) (by decide)

/-- the text of a value is a line, if functions in it have names without line feeds -/
theorem isLine_textWithin? {h : Heap} (hitems : ∀ id, ∀ v ∈ h.items id, v.Unbroken) {depth : Nat} {v : Value}
    {t : Bytes} (hv : v.Unbroken) (ht : v.textWithin? h depth = some t) : t.IsLine := by
  induction depth generalizing v t with
  | zero =>
    refine isLine_of_ne_array hv ?_ ht
    rintro id rfl
    cases ht
  | succ depth ih =>
    by_cases harray : ∃ id, v = .array id
    · obtain ⟨id, rfl⟩ := harray
      rw [textWithin?] at ht
      obtain ⟨texts, htexts, rfl⟩ := Option.map_eq_some_iff.1 ht
      refine .between (by decide) (Bytes.lf_notMem_joinWith (by decide) fun u hu => ?_) (by decide)
      obtain ⟨v, hv, hvu⟩ := exists_of_mem_mapM htexts hu
      exact (ih (hitems id v hv) hvu).lf_notMem
    · exact isLine_of_ne_array hv (fun id h => harray ⟨id, h⟩) ht

end Value

/-! ## Names of functions -/

/-- evaluations make no functions, so what holds of all functions stays true -/
theorem Expr.invariant_every {P : Value → Prop} (hnumber : ∀ x, P (.number x)) (hboolean : ∀ b, P (.boolean b))
    (harray : ∀ id, P (.array id)) : Expr.Invariant (World.Every P) fun _ v => P v where
  number := hnumber
  boolean := hboolean
  array := harray
  mono hv _ := hv
  bound hw hv := hw.lookup hv
  item hw hv := hw.items _ _ hv
  push hw hvs := hw.push hvs
  enter hw _ hb := hw.enter _ hb
  leave hw := hw.leave

namespace World.Every

variable {w w' : World} {limits : Limits} {frame : FrameId}

theorem initial : World.initial.Every Value.Unbroken := ⟨by decide +kernel, by decide +kernel⟩

theorem eval (h : w.Every Value.Unbroken) {limit : Nat} {e : Expr} {a : Except Diagnostic Value}
    (he : (e.eval limit frame).runIn w = (a, w')) : w'.Every Value.Unbroken ∧ ∀ v, a = .ok v → v.Unbroken :=
  (Expr.invariant_every (fun _ => nofun) (fun _ => nofun) fun _ => nofun).eval h he

/-- a function that is declared gets the name that is declared -/
theorem completes (h : w.Every Value.Unbroken) {s : Stmt} (hname : ∀ x ∈ s.declares?, Bytes.lf ∉ x)
    (hs : s.Completes limits frame w w') : w'.Every Value.Unbroken := by
  cases hs with
  | declare he hv =>
    obtain ⟨hw, hvalue⟩ := h.eval he
    exact hw.declare (hvalue _ rfl) hv
  | assign he hv =>
    obtain ⟨hw, hvalue⟩ := h.eval he
    exact hw.assign (hvalue _ rfl) hv
  | print he hv =>
    obtain ⟨hw, -⟩ := h.eval he
    exact ⟨hw.frames, hw.heap⟩
  | function hf =>
    refine h.declare ?_ hf
    intro name hmem
    cases hmem
    exact hname _ rfl

end World.Every

/-! ## Names in programs -/

namespace Pairing

/-- a run beside itself, whose program has names without line feeds -/
def inLine : Pairing where
  token _ _ := True
  name x := Bytes.lf ∉ x
  cause c c' := c' = c
  ordinary _ _ := rfl

theorem BlockRel.of_mem {S : Pairing} {ss : List Stmt} (h : S.BlockRel ss ss) {s : Stmt} (hs : s ∈ ss) :
    S.StmtRel s s := by
  induction ss with
  | nil => cases hs
  | cons u us ih =>
    cases h with
    | cons hu hus =>
      rcases List.mem_cons.1 hs with rfl | hs
      · exact hu
      · exact ih hus hs

theorem BlockRel.of_within {S : Pairing} {ss : List Stmt} (h : S.BlockRel ss ss) {s : Stmt} (hs : s.Within ss) :
    S.StmtRel s s := by
  induction hs with
  | here hmem => exact h.of_mem hmem
  | body hloop _ ih =>
    cases h.of_mem hloop with
    | loop _ _ hbody => exact ih hbody

end Pairing

/-- names that a program declares are lexemes of its text -/
theorem Program.lf_notMem_of_declares {p : Program} {b : Block} (h : p.block = .ok b) {s : Stmt} (hs : s.Within b) :
    ∀ x ∈ s.declares?, Bytes.lf ∉ x := by
  have hblock : Pairing.inLine.BlockRel b b :=
    Pairing.blockRel_of_lexemes h fun t hlexeme => ⟨trivial, hlexeme.lf_notMem, fun _ _ => rfl, fun _ _ => rfl⟩
  intro x hx
  cases hblock.of_within hs with
  | declare _ hname _ | function _ hname _ =>
    cases hx
    exact hname
  | assign | print | loop | missing => cases hx

/-! ## What a run prints -/

namespace Stmt

def isPrint : Stmt → Bool
  | .print _ _ => true
  | _ => false

/-- what a statement prints in a world: the text of the value that its expression has there -/
def printed? (limits : Limits) (frame : FrameId) : Stmt → World → Option Bytes
  | .print _ e, w =>
    let (answer, w') := (e.eval limits.calls frame).runIn w
    answer.toOption.bind fun v => v.text? w'.heap
  | _, _ => none

end Stmt

/-- where functions have names without line feeds, a line is printed -/
theorem World.Every.isLine_printed? {w : World} (h : w.Every Value.Unbroken) {limits : Limits} {frame : FrameId}
    {s : Stmt} {t : Bytes} (ht : s.printed? limits frame w = some t) : t.IsLine := by
  cases s with
  | print token e =>
    rcases hrun : (e.eval limits.calls frame).runIn w with ⟨a, w'⟩
    rw [Stmt.printed?, hrun] at ht
    obtain ⟨v, hv, htext⟩ := Option.bind_eq_some_iff.1 ht
    cases a with
    | error d => cases hv
    | ok u =>
      obtain rfl : u = v := Option.some.inj hv
      obtain ⟨hw', hvalue⟩ := h.eval hrun
      exact Value.isLine_textWithin? hw'.items (hvalue u rfl) htext
  | _ => cases ht

namespace Stmt

/-- a run of the statements `ss` completes the statements of `steps`, each in its world, and then has `ss'` before it -/
inductive Passes (limits : Limits) (frame : FrameId) :
    List Stmt → World → List (Stmt × World) → List Stmt → World → Prop
  | start (ss : List Stmt) (w : World) : Passes limits frame ss w [] ss w
  | next {s ss w w₁ steps ss' w'} (hs : s.Completes limits frame w w₁)
      (h : Passes limits frame ss w₁ steps ss' w') : Passes limits frame (s :: ss) w ((s, w) :: steps) ss' w'
  | leave {t c body ss w w₁ steps ss' w'} (hc : (c.eval limits.calls frame).runIn w = (.ok (.boolean false), w₁))
      (h : Passes limits frame ss w₁ steps ss' w') : Passes limits frame (.loop t c body :: ss) w steps ss' w'
  | round {t c body ss w w₁ steps ss' w'} (hc : (c.eval limits.calls frame).runIn w = (.ok (.boolean true), w₁))
      (h : Passes limits frame (body ++ .loop t c body :: ss) w₁ steps ss' w') :
      Passes limits frame (.loop t c body :: ss) w steps ss' w'

/-- how a run ends that has the statements `rest` before it: there are none, the first one fails, or the run is cut off
in a loop -/
inductive Closes (limits : Limits) (frame : FrameId) : List Stmt → World → Outcome → Prop
  | done (w : World) : Closes limits frame [] w (.done w)
  | failed {s rest w d w'} (hraises : s.Raises limits frame w d) (hdone : s.Evaluates limits frame w w') :
      Closes limits frame (s :: rest) w (.failed d w')
  | unfinished {rest w w'} (hlast : w.Evaluated limits.calls frame w') : Closes limits frame rest w (.unfinished w')

variable {limits : Limits} {frame : FrameId} {ss us rest : List Stmt} {steps : List (Stmt × World)} {w w' : World}

theorem Passes.runs (h : Passes limits frame ss w steps rest w') :
    Runs limits frame ss w (steps.map Prod.fst) rest w' := by
  induction h with
  | start ss w => exact .start ss w
  | next hs _ ih => exact .next hs ih
  | leave hc _ ih => exact .leave hc ih
  | round hc _ ih => exact .round hc ih

theorem Runs.exists_passes (h : Runs limits frame ss w us rest w') :
    ∃ steps, Passes limits frame ss w steps rest w' := by
  induction h with
  | start ss w => exact ⟨[], .start ss w⟩
  | next hs _ ih =>
    obtain ⟨steps, hsteps⟩ := ih
    exact ⟨_, .next hs hsteps⟩
  | leave hc _ ih =>
    obtain ⟨steps, hsteps⟩ := ih
    exact ⟨steps, .leave hc hsteps⟩
  | round hc _ ih =>
    obtain ⟨steps, hsteps⟩ := ih
    exact ⟨steps, .round hc hsteps⟩

/-- every run completes statements and then ends -/
theorem exists_passes_closes (limits : Limits) (frame : FrameId) (ss : List Stmt) (w : World) :
    ∃ steps rest w', Passes limits frame ss w steps rest w' ∧
      Closes limits frame rest w' (execAll limits frame ss w) := by
  cases h : execAll limits frame ss w with
  | done w' =>
    obtain ⟨us, hruns⟩ := runs_of_execAll ss h
    obtain ⟨steps, hsteps⟩ := hruns.exists_passes
    exact ⟨steps, [], w', hsteps, .done w'⟩
  | failed d w' =>
    obtain ⟨s, w₀, hvisits, hraises, hdone⟩ := failsAt_of_execAll ss h
    obtain ⟨us, rest, hruns⟩ := hvisits.runs
    obtain ⟨steps, hsteps⟩ := hruns.exists_passes
    exact ⟨steps, s :: rest, w₀, hsteps, .failed hraises hdone⟩
  | unfinished w' =>
    obtain ⟨us, rest, w₁, hruns, hlast⟩ := halts_of_unfinishedAll ss h
    obtain ⟨steps, hsteps⟩ := hruns.exists_passes
    exact ⟨steps, rest, w₁, hsteps, .unfinished hlast⟩

theorem printed?_print (t : Token) {e : Expr} {v : Value} {line : Bytes}
    (he : (e.eval limits.calls frame).runIn w = (.ok v, w')) (hv : v.text? w'.heap = some line) :
    (print t e).printed? limits frame w = some line := by
  rw [printed?, he]
  exact hv

/-- a statement that is completed prints its text, if it prints, and nothing else -/
theorem Completes.printed {s : Stmt} (h : s.Completes limits frame w w') :
    (s.printed? limits frame w).isSome = s.isPrint ∧
      w'.printed = (s.printed? limits frame w).toList ++ w.printed := by
  cases h with
  | declare he hv =>
    obtain ⟨-, rfl⟩ := World.eq_of_declare hv
    exact ⟨rfl, (World.grows_of_eval he).printed⟩
  | assign he hv =>
    obtain ⟨i, -, rfl⟩ := World.eq_of_assign hv
    exact ⟨rfl, (World.grows_of_eval he).printed⟩
  | @print t _ _ _ _ _ he hv =>
    rw [printed?_print t he hv]
    exact ⟨rfl, congrArg _ (World.grows_of_eval he).printed⟩
  | function hf =>
    obtain ⟨-, rfl⟩ := World.eq_of_declare hf
    exact ⟨rfl, rfl⟩

/-- the texts that statements print, each in its world -/
def printedTexts (limits : Limits) (frame : FrameId) (steps : List (Stmt × World)) : List Bytes :=
  steps.filterMap fun step => step.1.printed? limits frame step.2

theorem printedTexts_cons (s : Stmt) (w : World) (steps : List (Stmt × World)) :
    printedTexts limits frame ((s, w) :: steps) =
      (s.printed? limits frame w).toList ++ printedTexts limits frame steps := by
  rw [printedTexts, List.filterMap_cons]
  cases s.printed? limits frame w <;> rfl

/-- **A run prints the texts of the statements that it completes.** -/
theorem Passes.printed (h : Passes limits frame ss w steps rest w') :
    w'.printed = (printedTexts limits frame steps).reverse ++ w.printed := by
  induction h with
  | start => rfl
  | next hs _ ih =>
    have hprints : ∀ o : Option Bytes, o.toList.reverse = o.toList := by
      intro o
      cases o <;> rfl
    rw [ih, hs.printed.2, printedTexts_cons, List.reverse_append, hprints, List.append_assoc]
  | leave hc _ ih => rw [ih, (World.grows_of_eval hc).printed]
  | round hc _ ih => rw [ih, (World.grows_of_eval hc).printed]

theorem Passes.isSome_printed? (h : Passes limits frame ss w steps rest w') :
    ∀ step ∈ steps, (step.1.printed? limits frame step.2).isSome = step.1.isPrint := by
  induction h with
  | start => exact List.forall_mem_nil _
  | next hs _ ih => exact List.forall_mem_cons.2 ⟨hs.printed.1, ih⟩
  | leave _ _ ih => exact ih
  | round _ _ ih => exact ih

/-- **The texts that a run prints are lines.** -/
theorem Passes.isLine (h : Passes limits frame ss w steps rest w') (hw : w.Every Value.Unbroken)
    (hnames : ∀ step ∈ steps, ∀ x ∈ step.1.declares?, Bytes.lf ∉ x) :
    ∀ t ∈ printedTexts limits frame steps, t.IsLine := by
  -- the conditions of loops keep the names of functions, and so do the statements
  induction h with
  | start => exact List.forall_mem_nil _
  | next hs _ ih =>
    rw [List.forall_mem_cons] at hnames
    intro t ht
    rw [printedTexts_cons, List.mem_append, Option.mem_toList] at ht
    rcases ht with ht | ht
    · exact hw.isLine_printed? ht
    · exact ih (hw.completes hnames.1 hs) hnames.2 t ht
  | leave hc _ ih => exact ih (hw.eval hc).1 hnames
  | round hc _ ih => exact ih (hw.eval hc).1 hnames

theorem Closes.printed {o : Outcome} (h : Closes limits frame rest w o) : o.world.printed = w.printed := by
  cases h with
  | done => rfl
  | failed _ hdone => exact hdone.grows.printed
  | unfinished hlast => exact hlast.grows.printed

end Stmt

/-! ## Output -/

namespace Bytes

/-- texts with a line feed behind each -/
def unlines (ts : List Bytes) : Bytes := ts.flatMap (· ++ [lf])

variable {ts : List Bytes}

theorem count_unlines (h : ∀ t ∈ ts, lf ∉ t) : (unlines ts).count lf = ts.length := by
  induction ts with
  | nil => rfl
  | cons t ts ih =>
    rw [List.forall_mem_cons] at h
    have hunlines : unlines (t :: ts) = t ++ [lf] ++ unlines ts := rfl
    rw [hunlines, List.count_append, List.count_append, List.count_eq_zero.2 h.1, ih h.2, List.length_cons]
    simp [Nat.add_comm]

theorem segments_unlines (h : ∀ t ∈ ts, lf ∉ t) : Source.segments (unlines ts) = ts ++ [[]] := by
  induction ts with
  | nil => rfl
  | cons t ts ih =>
    rw [List.forall_mem_cons] at h
    have hunlines : unlines (t :: ts) = t ++ lf :: unlines ts := by simp [unlines]
    rw [hunlines, Source.segments_append_lf h.1, ih h.2]
    rfl

end Bytes

namespace Program

/-- the statements that a run of a program completes, each with the world that it starts in: none if the text is no
program -/
inductive Completed (p : Program) (limits : Limits) : List (Stmt × World) → Prop
  | unread {d : Diagnostic} (h : p.block = .error d) : Completed p limits []
  | ran {b rest : List Stmt} {steps : List (Stmt × World)} {w : World} (hb : p.block = .ok b)
      (hsteps : Stmt.Passes limits World.root b .initial steps rest w)
      (hend : Stmt.Closes limits World.root rest w (Block.run b limits)) : Completed p limits steps

variable {p : Program} {limits : Limits} {steps : List (Stmt × World)}

theorem exists_completed (p : Program) (limits : Limits) : ∃ steps, p.Completed limits steps := by
  cases hb : p.block with
  | error d => exact ⟨[], .unread hb⟩
  | ok b =>
    obtain ⟨steps, rest, w, hsteps, hend⟩ := Stmt.exists_passes_closes limits World.root b .initial
    exact ⟨steps, .ran hb hsteps hend⟩

theorem Completed.output (h : p.Completed limits steps) :
    (p.run limits).1 = Bytes.unlines (Stmt.printedTexts limits World.root steps) := by
  cases h with
  | unread hb =>
    rw [run, hb]
    rfl
  | ran hb hsteps hend =>
    have hprinted := hend.printed.trans hsteps.printed
    have hnone : World.initial.printed = [] := rfl
    rw [hnone, List.append_nil] at hprinted
    rw [run, hb]
    simp only [World.output, hprinted, List.reverse_reverse]
    rfl

theorem Completed.isSome_printed? (h : p.Completed limits steps) :
    ∀ step ∈ steps, (step.1.printed? limits World.root step.2).isSome = step.1.isPrint := by
  cases h with
  | unread => exact List.forall_mem_nil _
  | ran _ hsteps _ => exact hsteps.isSome_printed?

theorem Completed.isLine (h : p.Completed limits steps) :
    ∀ t ∈ Stmt.printedTexts limits World.root steps, t.IsLine := by
  cases h with
  | unread => exact List.forall_mem_nil _
  | ran hb hsteps _ =>
    refine hsteps.isLine .initial fun step hstep => ?_
    exact lf_notMem_of_declares hb (hsteps.runs.within (List.mem_map_of_mem hstep)).2

/-- **Output has one line for each statement that has printed.** The output of a run, be it done, failed or unfinished,
is the texts of its completed print statements in order, each with a line feed behind it. No such text is empty or has a
line feed, so cutting the output at its line feeds gives the texts, and nothing behind the last one. -/
theorem prints_one_line_each (p : Program) (limits : Limits) :
    (∃ steps, p.Completed limits steps) ∧
    ∀ steps, p.Completed limits steps →
      (∀ step ∈ steps, (step.1.printed? limits World.root step.2).isSome = step.1.isPrint) ∧
      (∀ t ∈ Stmt.printedTexts limits World.root steps, t ≠ [] ∧ Bytes.lf ∉ t) ∧
      (p.run limits).1 = (Stmt.printedTexts limits World.root steps).flatMap (· ++ [Bytes.lf]) ∧
      (p.run limits).1.count Bytes.lf = steps.countP (·.1.isPrint) ∧
      Source.segments (p.run limits).1 = Stmt.printedTexts limits World.root steps ++ [[]] := by
  refine ⟨exists_completed p limits, fun steps h => ?_⟩
  have hlines := h.isLine
  have hlf : ∀ t ∈ Stmt.printedTexts limits World.root steps, Bytes.lf ∉ t := fun t ht => (hlines t ht).lf_notMem
  refine ⟨h.isSome_printed?, fun t ht => ⟨(hlines t ht).ne_nil, hlf t ht⟩, h.output, ?_, ?_⟩
  · rw [h.output, Bytes.count_unlines hlf, Stmt.printedTexts, List.length_filterMap_eq_countP]
    exact List.countP_congr fun step hstep => by rw [h.isSome_printed? step hstep]
  · rw [h.output, Bytes.segments_unlines hlf]

/-- prints functions in arrays in both rounds of a loop, the second of which fails -/
def printsFunctions : Program :=
  ⟨bytes "functions", bytes "fun f(x) = x\na := [f, [sin, 0 / 0]]\nwhile true \x7b\n  print a\n  b := a\n\x7d", true⟩

theorem prints_one_line_each_functions :
    (printsFunctions.run ⟨9, 9⟩).2.isSome = true ∧ ∃ steps, printsFunctions.Completed ⟨9, 9⟩ steps ∧
      steps.countP (·.1.isPrint) = 2 ∧
      Stmt.printedTexts ⟨9, 9⟩ World.root steps = List.replicate 2 (bytes "[<function f>, [<native sin>, NaN]]") := by
  obtain ⟨⟨steps, hsteps⟩, hall⟩ := prints_one_line_each printsFunctions ⟨9, 9⟩
  obtain ⟨-, -, -, hcount, hsegments⟩ := hall steps hsteps
  have hfails : (printsFunctions.run ⟨9, 9⟩).2.isSome = true := by decide +kernel
  have htwo : (printsFunctions.run ⟨9, 9⟩).1.count Bytes.lf = 2 := by decide +kernel
  have hlines : Source.segments (printsFunctions.run ⟨9, 9⟩).1 =
      List.replicate 2 (bytes "[<function f>, [<native sin>, NaN]]") ++ [[]] := by decide +kernel
  exact ⟨hfails, steps, hsteps, hcount.symm.trans htwo, List.append_cancel_right (hsegments.symm.trans hlines)⟩

end Program

end Treewalk
