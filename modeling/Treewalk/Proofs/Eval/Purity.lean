/-
Evaluation changes nothing that was there before.

Whether an expression gives a value or fails, it leaves the frames, the arrays and the printed lines as they were, and
only adds arrays (`World.Grows`). What it gives does not depend on which arrays there are but on what they hold: in a
world that is the same up to the names of its arrays (`World.Renamed`), it gives the same up to those names
(`Eval.tame_eval`). A closed world stays closed (`Eval.safe_eval`), so it is the same up to such names as the world that
an evaluation leaves. Hence an expression that is evaluated twice gives the same twice, up to the arrays that it made
(`Expr.eval_changes_nothing`).
-/
import Mathlib.Data.Set.Function
import Mathlib.Order.Interval.Set.Defs
import Treewalk.Proofs.Eval.Tracking

namespace Treewalk

namespace World

/-- worlds side by side are the same to every expression -/
theorem tracking_renamed (ρ : ArrayId → ArrayId) : Tracking ρ (fun _ => True) (Renamed ρ) fun _ _ => True where
  number _ := trivial
  boolean _ := trivial
  array _ := trivial
  closure _ _ _ := trivial
  mono _ _ := trivial
  size h := by rw [h.frames, Frames.rename, Array.size_map]
  live h i := by rw [h.frames, Frames.isLive_rename]
  lookup h frame x _ := by rw [h.frames, Frames.lookup?_rename]
  bound _ _ _ := trivial
  items h := h.items
  item _ _ := trivial
  fresh h := h.size
  push h _ := h.push _
  enter h _ _ _ := h.enter _ _
  leave h := h.leave

/-- being closed is an invariant: values refer to arrays that are there -/
theorem invariant_closed : Expr.Invariant Closed fun n v => v.Below n where
  number _ := trivial
  boolean _ := trivial
  array n := Nat.lt_succ_self n
  mono h hmn := h.mono hmn
  bound hw hv := hw.below_lookup hv
  item hw hv := hw.allBelow_items _ _ hv
  push hw hvs := hw.push hvs
  enter hw _ hb := hw.enter _ hb
  leave hw := hw.leave

end World

namespace Eval

/-- an evaluation only adds to a world; side by side with it, the same evaluation gives the same, renamed, and the
worlds that both leave stand side by side again -/
theorem tame_eval (ρ : ArrayId → ArrayId) (limit : Nat) (frame : FrameId) (e : Expr) (w w' : World)
    (h : World.Renamed ρ w w') : w.Grows ((e.eval limit frame).runIn w).2 ∧
      ((e.eval limit frame).runIn w').1 = ((e.eval limit frame).runIn w).1.map (Value.rename ρ) ∧
      World.Renamed ρ ((e.eval limit frame).runIn w).2 ((e.eval limit frame).runIn w').2 := by
  obtain ⟨w₁', he', hrenamed, -⟩ := (World.tracking_renamed ρ).runIn_eval h (fun _ _ => trivial) rfl
  rw [he']
  exact ⟨World.grows_of_eval rfl, rfl, hrenamed⟩

/-- an evaluation keeps a world closed, and the world that it leaves has the first `n` arrays still and the value that
it gives -/
theorem safe_eval (limit : Nat) (frame : FrameId) (e : Expr) (w : World) (hw : w.Closed) {n : Nat}
    (hn : n ≤ w.heap.size) : ((e.eval limit frame).runIn w).2.Closed ∧ n ≤ ((e.eval limit frame).runIn w).2.heap.size ∧
      ∀ v, ((e.eval limit frame).runIn w).1 = .ok v → v.Below ((e.eval limit frame).runIn w).2.heap.size := by
  obtain ⟨hclosed, hbelow⟩ := World.invariant_closed.eval hw rfl
  exact ⟨hclosed, hn.trans (World.grows_of_eval rfl).size_le, hbelow⟩

end Eval

/-! ## Twice the same -/

/-- the renaming that leaves the first `n` arrays alone and moves all others up by `k` -/
def moveUp (n k id : Nat) : Nat := if id < n then id else id + k

namespace World

variable {w w' : World}

/-- a closed world stands side by side with one that has grown out of it: what is new in that is skipped -/
theorem Closed.renamed (h : w.Closed) (hg : w.Grows w') :
    Renamed (moveUp w.heap.size (w'.heap.size - w.heap.size)) w w' := by
  have hsize := hg.size_le
  have hold : ∀ id < w.heap.size, moveUp w.heap.size (w'.heap.size - w.heap.size) id = id := fun id hid => if_pos hid
  have hnew : ∀ i : Nat, moveUp w.heap.size (w'.heap.size - w.heap.size) (w.heap.size + i) = w'.heap.size + i := by
    intro i
    rw [moveUp, if_neg (Nat.not_lt.2 (Nat.le_add_right _ _))]
    show w.heap.size + i + (w'.heap.size - w.heap.size) = w'.heap.size + i
    omega
  refine ⟨?_, fun id => ?_, fun id hid => ?_, hnew⟩
  · rw [hg.frames]
    exact (Frames.rename_eq_self fun f hf p hp => Value.rename_eq_self hold (h.frames f hf p hp)).symm
  · rcases Nat.lt_or_ge id w.heap.size with hid | hid
    · rw [hold id hid, hg.items_eq hid]
      have hfix := List.map_congr_left fun v hv => Value.rename_eq_self hold (h.allBelow_items id v hv)
      rw [hfix, List.map_id']
    · obtain ⟨i, rfl⟩ := Nat.exists_eq_add_of_le hid
      rw [hnew, Heap.items_of_size_le (Nat.le_add_right _ _), Heap.items_of_size_le hid]
      rfl
  · rw [hold id hid]
    exact Nat.lt_of_lt_of_le hid hsize

/-- two evaluations, from `w` on, give the same: the same failure, or the same value up to the names of the arrays that
they made. A renaming that leaves the arrays of `w` alone takes the arrays that the first one made to those that the
second one made, and what is in them too. -/
def SameAgain (w : World) (first second : Except Diagnostic Value × World) : Prop :=
  ∃ ρ : ArrayId → ArrayId, (∀ id < w.heap.size, ρ id = id) ∧
    Set.BijOn ρ (Set.Ico w.heap.size first.2.heap.size) (Set.Ico first.2.heap.size second.2.heap.size) ∧
    (∀ id, second.2.heap.items (ρ id) = (first.2.heap.items id).map (Value.rename ρ)) ∧
    second.1 = first.1.map (Value.rename ρ)

theorem bijOn_moveUp {n m : Nat} (h : n ≤ m) :
    Set.BijOn (moveUp n (m - n)) (Set.Ico n m) (Set.Ico m (moveUp n (m - n) m)) := by
  have hmove : ∀ i, n ≤ i → moveUp n (m - n) i = i + (m - n) := fun i hi => if_neg (Nat.not_lt.2 hi)
  rw [hmove m h]
  refine ⟨fun i hi => ?_, fun i hi j hj hij => ?_, fun i hi => ?_⟩
  · rw [Set.mem_Ico] at hi ⊢
    rw [hmove i hi.1]
    omega
  · rw [Set.mem_Ico] at hi hj
    rw [hmove i hi.1, hmove j hj.1] at hij
    omega
  · rw [Set.mem_Ico] at hi
    refine ⟨i - (m - n), Set.mem_Ico.2 (by omega), ?_⟩
    rw [hmove _ (by omega)]
    omega

end World

/-- **Evaluation has no side effects.** Whether it gives a value or fails, it leaves frames, arrays and output as they
were, and at most adds arrays. A closed world stays closed, and a second evaluation gives the same there. -/
theorem Expr.eval_changes_nothing (e : Expr) (limit : Nat) (frame : FrameId) (w : World) :
    let first := (e.eval limit frame).runIn w
    let second := (e.eval limit frame).runIn first.2
    w.Grows first.2 ∧ (w.Closed → first.2.Closed ∧ (∀ v, first.1 = .ok v → v.Below first.2.heap.size) ∧
      w.SameAgain first second) := by
  intro first second
  obtain ⟨hgrows, -⟩ := Eval.tame_eval id limit frame e w w w.renamed_id
  refine ⟨hgrows, fun hclosed => ?_⟩
  obtain ⟨hclosed', -, hbelow⟩ := Eval.safe_eval limit frame e w hclosed (Nat.zero_le _)
  refine ⟨hclosed', hbelow, ?_⟩
  obtain ⟨-, hresult, hrenamed⟩ := Eval.tame_eval _ limit frame e w first.2 (hclosed.renamed hgrows)
  refine ⟨_, fun id hid => if_pos hid, ?_, hrenamed.items, hresult⟩
  rw [← hrenamed.size]
  exact World.bijOn_moveUp hgrows.size_le

/-- two names for one array, which holds a function: `a` and `b` are `[f]`, and `f(x)` is `[x, a]` -/
def World.shared : World :=
  let body : Expr := .array .unplaced [.variable .unplaced (bytes "x"), .variable .unplaced (bytes "a")]
  let f : Closure := ⟨bytes "f", [bytes "x"], body, some 0, .unplaced⟩
  ⟨#[⟨[], [(bytes "a", .array 0), (bytes "b", .array 0), (bytes "f", .closure f)], true⟩], #[[.closure f]], []⟩

/-- `f([b])` gives a new array with another new one and the shared one in it. -/
theorem Expr.eval_changes_nothing_shared :
    let e : Expr := .call .unplaced (bytes "f") [.array .unplaced [.variable .unplaced (bytes "b")]]
    let first := (e.eval 1 0).runIn World.shared
    World.shared.Closed ∧ first.1 = .ok (.array 2) ∧ World.shared.Grows first.2 ∧
      World.shared.SameAgain first ((e.eval 1 0).runIn first.2) := by
  intro e first
  have hclosed : World.shared.Closed := ⟨by decide, by decide⟩
  obtain ⟨hgrows, hagain⟩ := Expr.eval_changes_nothing e 1 0 World.shared
  exact ⟨hclosed, rfl, hgrows, (hagain hclosed).2.2⟩

end Treewalk
