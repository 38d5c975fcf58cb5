/-
Which values have a text.

Writing a value goes down into its arrays, so it ends unless it comes to an array that it is already in. The depth that
`Value.text?` allows is enough for all other values: the arrays on the way down differ, so there are no more of them
than the heap has (`Value.text?_eq_none_iff`). Hence a text does not depend on how many arrays there are besides
(`Value.text?_eq_of_textWithin?`).
-/
import Mathlib.Data.Finset.Card
import Mathlib.Logic.Relation
import Treewalk.Eval.Value

namespace Treewalk

section Texts

variable {α β γ : Type} {f : α → Option γ} {g : β → Option γ}

theorem mapM_eq_of_map_eq {as : List α} {bs : List β} (h : as.map f = bs.map g) : as.mapM f = bs.mapM g := by
  have hid : ∀ {δ : Type} (k : δ → Option γ) (cs : List δ), cs.mapM k = (cs.map k).mapM id :=
    fun k cs => (List.mapM_map (f := k) (g := id)).symm
  rw [hid f, hid g, h]

theorem isSome_mapM_iff {as : List α} : (as.mapM f).isSome ↔ ∀ a ∈ as, (f a).isSome := by
  induction as with
  | nil => simp
  | cons a as ih =>
    rw [List.mapM_cons, List.forall_mem_cons, ← ih]
    cases f a <;> cases as.mapM f <;> simp

end Texts

namespace Value

open Relation

variable {h : Heap} {u v : Value} {m n : Nat}

/-- an array and one of its items -/
inductive Holds (h : Heap) : Value → Value → Prop
  | item {id : ArrayId} {v : Value} (hv : v ∈ h.items id) : Holds h (.array id) v

/-- the value is, or has in it, an array that contains itself -/
def Cyclic (h : Heap) (v : Value) : Prop := ∃ u, ReflTransGen (Holds h) v u ∧ TransGen (Holds h) u u

theorem Cyclic.of_holds (hu : u.Cyclic h) (hv : Holds h v u) : v.Cyclic h := by
  obtain ⟨a, hua, haa⟩ := hu
  exact ⟨a, .head hv hua, haa⟩

theorem isSome_textWithin?_array {id : ArrayId} :
    (textWithin? h (n + 1) (.array id)).isSome ↔ ∀ v ∈ h.items id, (v.textWithin? h n).isSome := by
  rw [textWithin?, Option.isSome_map, isSome_mapM_iff]

/-- a text that is found within a depth is found within every greater one -/
theorem textWithin?_succ (hv : (v.textWithin? h n).isSome) : v.textWithin? h (n + 1) = v.textWithin? h n := by
  induction n generalizing v with
  | zero =>
    cases v with
    | array id => cases hv
    | _ => rfl
  | succ n ih =>
    cases v with
    | array id =>
      have hitems := isSome_textWithin?_array.1 hv
      rw [textWithin?, textWithin?, mapM_eq_of_map_eq (List.map_congr_left fun u hu => ih (hitems u hu))]
    | _ => rfl

theorem textWithin?_of_le (hmn : m ≤ n) (hv : (v.textWithin? h m).isSome) : v.textWithin? h n = v.textWithin? h m := by
  induction hmn with
  | refl => rfl
  | step _ ih => rw [textWithin?_succ (ih ▸ hv), ih]

/-! ## A text has an end -/

theorem Holds.isSome_textWithin? (huv : Holds h u v) (hu : (u.textWithin? h n).isSome) :
    ∃ m, n = m + 1 ∧ (v.textWithin? h m).isSome := by
  cases huv with
  | item hv =>
    cases n with
    | zero => cases hu
    | succ m => exact ⟨m, rfl, isSome_textWithin?_array.1 hu _ hv⟩

/-- what is further in takes less depth -/
theorem isSome_textWithin?_of_transGen (huv : TransGen (Holds h) u v) (hu : (u.textWithin? h n).isSome) :
    ∃ m, n = m + 1 ∧ (v.textWithin? h m).isSome := by
  induction huv with
  | single huv => exact huv.isSome_textWithin? hu
  | tail _ huv ih =>
    obtain ⟨m, rfl, hm⟩ := ih
    obtain ⟨k, rfl, hk⟩ := huv.isSome_textWithin? hm
    exact ⟨k + 1, rfl, by rwa [textWithin?_succ hk]⟩

theorem not_cyclic_of_textWithin? (hv : (v.textWithin? h n).isSome) : ¬ v.Cyclic h := by
  rintro ⟨u, hvu, huu⟩
  obtain ⟨k, hk⟩ : ∃ k, (u.textWithin? h k).isSome := by
    rcases reflTransGen_iff_eq_or_transGen.1 hvu with rfl | hvu
    · exact ⟨n, hv⟩
    · obtain ⟨m, -, hm⟩ := isSome_textWithin?_of_transGen hvu hv
      exact ⟨m, hm⟩
  -- an array that contains itself would have a text within ever smaller depths
  induction k with
  | zero =>
    obtain ⟨m, hm, -⟩ := isSome_textWithin?_of_transGen huu hk
    cases hm
  | succ k ih =>
    obtain ⟨m, hm, hu⟩ := isSome_textWithin?_of_transGen huu hk
    cases hm
    exact ih hu

/-! ## Enough depth -/

/-- going down into a value past the arrays `seen`, none of which it leads back to: with as much depth as there are
other arrays, it has a text -/
theorem isSome_textWithin?_of_seen (seen : Finset ArrayId) (hseen : seen ⊆ Finset.range h.size)
    (hv : ¬ v.Cyclic h) (hnew : ∀ id ∈ seen, ¬ ReflTransGen (Holds h) v (.array id))
    (hn : h.size + 1 ≤ n + seen.card) : (v.textWithin? h n).isSome := by
  induction n generalizing v seen with
  | zero =>
    have hcard := Finset.card_le_card hseen
    rw [Finset.card_range] at hcard
    omega
  | succ n ih =>
    cases v with
    | array id =>
      apply isSome_textWithin?_array.2
      intro u hu
      have hid : id < h.size := by
        by_contra hge
        simp [Heap.items, hge] at hu
      have hfresh : id ∉ seen := fun hmem => hnew id hmem .refl
      refine ih (insert id seen) ?_ (fun hc => hv (hc.of_holds (.item hu))) ?_ ?_
      · exact Finset.insert_subset (Finset.mem_range.2 hid) hseen
      · intro i hi hreach
        rcases Finset.mem_insert.1 hi with rfl | hi
        · exact hv ⟨_, .refl, .head' (.item hu) hreach⟩
        · exact hnew i hi (.head (.item hu) hreach)
      · rw [Finset.card_insert_of_notMem hfresh]
        omega
    | _ => rfl

/-- **A value has no text exactly if it has an array in it that contains itself.** -/
theorem text?_eq_none_iff : v.text? h = none ↔ v.Cyclic h := by
  constructor
  · intro hnone
    by_contra hv
    have hsome : (v.textWithin? h (h.size + 1)).isSome := by
      apply isSome_textWithin?_of_seen ∅ (Finset.empty_subset _) hv
      · exact fun _ hid => absurd hid (Finset.notMem_empty _)
      · simp
    rw [text?] at hnone
    rw [hnone] at hsome
    cases hsome
  · intro hv
    rw [← Option.not_isSome_iff_eq_none]
    exact fun hsome => not_cyclic_of_textWithin? hsome hv

/-- a text that is found within any depth is the value's text -/
theorem text?_eq_of_textWithin? {text : Bytes} (hv : v.textWithin? h n = some text) : v.text? h = some text := by
  have hsome : (v.textWithin? h n).isSome := by rw [hv]; rfl
  have hall : (v.text? h).isSome :=
    Option.isSome_iff_ne_none.2 fun hnone => not_cyclic_of_textWithin? hsome (text?_eq_none_iff.1 hnone)
  rcases Nat.le_total n (h.size + 1) with hle | hle
  · rw [text?, textWithin?_of_le hle hsome, hv]
  · rw [text?, ← textWithin?_of_le hle hall, hv]

end Value

end Treewalk
