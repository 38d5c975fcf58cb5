/-
Dumps of programs.

An entry of a dump tells its statement's kind, place and text, whatever bytes these have: places and texts are escaped
and end at the first bare quote, and a kind's name has no quotes. An entry that is not there shows as another word, and
the bytes between the entries tell whether one more follows. So the dump tells the statements of the top level
(`Block.dump_tells_statements`).
-/
import Treewalk.Proofs.Token.Dump
import Treewalk.Tree.Dump

namespace Treewalk

namespace Stmt

/-- kinds of statements -/
inductive Shape where
  | declare | assign | print | loop | function
deriving DecidableEq

/-- what a statement is, and its token; none if it is not there -/
def view? : Stmt → Option (Shape × Token)
  | .declare t _ _ => some (.declare, t)
  | .assign t _ _ => some (.assign, t)
  | .print t _ => some (.print, t)
  | .loop t _ _ => some (.loop, t)
  | .function t _ _ _ => some (.function, t)
  | .missing => none

/-- statements of one kind with the same place and the same text, or both not there -/
structure Alike (s s' : Stmt) : Prop where
  shape : s.view?.map (·.1) = s'.view?.map (·.1)
  place : s.view?.map (·.2.location.text) = s'.view?.map (·.2.location.text)
  text : s.text 0 = s'.text 0

/-- name of a kind in dumps -/
def Shape.name : Shape → String
  | .declare => "VariableDeclaration"
  | .assign => "Assignment"
  | .print => "PrintStatement"
  | .loop => "While"
  | .function => "FunctionDeclaration"

theorem eq_missing_of_view? {s : Stmt} (h : s.view? = none) : s = .missing := by
  cases s with
  | missing => rfl
  | _ => cases h

theorem label?_eq (s : Stmt) : s.label? = s.view?.map fun v => (v.1.name, v.2) := by
  cases s <;> rfl

/-- all kinds -/
def Shape.all : List Shape := [.declare, .assign, .print, .loop, .function]

theorem Shape.mem_all (k : Shape) : k ∈ all := by
  cases k <;> decide

theorem Shape.name_plain : ∀ k ∈ all, (bytes k.name).all (· != 34) := by
  decide +kernel

theorem Shape.name_injOn : ∀ k ∈ all, ∀ k' ∈ all, bytes k.name = bytes k'.name → k = k' := by
  decide +kernel

variable {m r r' : Bytes} {s s' : Stmt}

theorem dumpEntry_of_none (h : s.view? = none) : s.dumpEntry m = m ++ bytes "    null" := by
  rw [dumpEntry, label?_eq, h]
  rfl

theorem dumpEntry_of_some {k : Shape} {t : Token} (h : s.view? = some (k, t)) :
    s.dumpEntry m = m ++ (bytes "    \x7b\n" ++ (m ++ (bytes "      \"nodeType\": \"" ++ (bytes k.name ++
      (bytes "\",\n" ++ (m ++ (bytes "      \"token\": \"" ++ (t.location.text.escape ++ (bytes "\",\n" ++ (m ++
      (bytes "      \"source\": \"" ++ ((s.text 0).escape ++ (bytes "\"\n" ++ (m ++ bytes "    \x7d")))))))))))))) := by
  rw [dumpEntry, label?_eq, h]
  simp only [Option.map_some, List.append_assoc]

/-- a brace and a word differ -/
theorem brace_append_ne_null (x y : Bytes) : bytes "    \x7b\n" ++ x ≠ bytes "    null" ++ y := by
  intro h
  have hletter : some (123 : UInt8) = some 110 := congrArg (fun t : Bytes => t[4]?) h
  exact absurd hletter (by decide)

/-- an entry tells its statement, and where it ends -/
theorem dumpEntry_append_inj (h : s.dumpEntry m ++ r = s'.dumpEntry m ++ r') : s.Alike s' ∧ r = r' := by
  cases hs : s.view? with
  | none =>
    cases hs' : s'.view? with
    | none =>
      rw [eq_missing_of_view? hs, eq_missing_of_view? hs'] at h ⊢
      exact ⟨⟨rfl, rfl, rfl⟩, List.append_cancel_left h⟩
    | some v' =>
      simp only [dumpEntry_of_none hs, dumpEntry_of_some hs', List.append_assoc, List.append_right_inj] at h
      exact absurd h.symm (brace_append_ne_null _ _)
  | some v =>
    obtain ⟨k, t⟩ := v
    cases hs' : s'.view? with
    | none =>
      simp only [dumpEntry_of_some hs, dumpEntry_of_none hs', List.append_assoc, List.append_right_inj] at h
      exact absurd h (brace_append_ne_null _ _)
    | some v' =>
      obtain ⟨k', t'⟩ := v'
      simp only [dumpEntry_of_some hs, dumpEntry_of_some hs', List.append_assoc, List.append_right_inj] at h
      obtain ⟨hname, h₁⟩ := Bytes.plain_append_inj (Shape.name_plain k k.mem_all) (Shape.name_plain k' k'.mem_all) h
      obtain ⟨hplace, h₂⟩ := Bytes.escape_append_inj
        (List.append_cancel_left (List.append_cancel_left (List.append_cancel_left h₁)))
      obtain ⟨htext, h₃⟩ := Bytes.escape_append_inj
        (List.append_cancel_left (List.append_cancel_left (List.append_cancel_left h₂)))
      have hkind : k = k' := Shape.name_injOn k k.mem_all k' k'.mem_all hname
      refine ⟨⟨?_, ?_, htext⟩, ?_⟩
      · rw [hs, hs', hkind]
        rfl
      · rw [hs, hs', Option.map_some, Option.map_some, hplace]
      · exact List.append_cancel_left (List.append_cancel_left (List.append_cancel_left h₃))

/-! ## The body -/

/-- what follows an entry, if `x` follows them all: a comma and the next entry, or the end of the body -/
def afterEntry (m x : Bytes) : List Stmt → Bytes
  | [] => bytes "\n" ++ x
  | s :: ss => bytes ",\n" ++ (s.dumpEntry m ++ afterEntry m x ss)

theorem dumpEntries_append (s : Stmt) (ss : List Stmt) (x : Bytes) :
    dumpEntries m (s :: ss) ++ x = s.dumpEntry m ++ afterEntry m x ss := by
  induction ss generalizing s with
  | nil => rw [dumpEntries, afterEntry, List.append_assoc]
  | cons u us ih =>
    rw [dumpEntries, List.append_assoc, List.append_assoc, ih, afterEntry]
    exact nofun

theorem alike_of_afterEntry {x : Bytes} {b c : List Stmt} (h : afterEntry m x b = afterEntry m x c) :
    List.Forall₂ Alike b c := by
  induction b generalizing c with
  | nil =>
    cases c with
    | nil => exact .nil
    | cons s' c => cases h
  | cons s b ih =>
    cases c with
    | nil => cases h
    | cons s' c =>
      obtain ⟨halike, hrest⟩ := dumpEntry_append_inj (List.append_cancel_left h)
      exact .cons halike (ih hrest)

/-- the end of the body is not indented as an entry is -/
theorem dumpEntry_append_ne (s : Stmt) (x y : Bytes) : s.dumpEntry m ++ x ≠ m ++ (bytes "  ]\n" ++ y) := by
  intro h
  have hindent : ∀ z : Bytes, 32 :: 32 :: 32 :: z ≠ bytes "  ]\n" ++ y := by
    intro z heq
    have hletter : some (32 : UInt8) = some 93 := congrArg (fun t : Bytes => t[2]?) heq
    exact absurd hletter (by decide)
  cases hs : s.view? with
  | none =>
    simp only [dumpEntry_of_none hs, List.append_assoc, List.append_right_inj] at h
    exact hindent _ h
  | some v =>
    simp only [dumpEntry_of_some hs, List.append_assoc, List.append_right_inj] at h
    exact hindent _ h

theorem alike_of_dumpEntries {x : Bytes} {b c : List Stmt}
    (h : dumpEntries m b ++ (m ++ (bytes "  ]\n" ++ x)) = dumpEntries m c ++ (m ++ (bytes "  ]\n" ++ x))) :
    List.Forall₂ Alike b c := by
  cases b with
  | nil =>
    cases c with
    | nil => exact .nil
    | cons s' c =>
      rw [dumpEntries_append] at h
      exact absurd h.symm (dumpEntry_append_ne _ _ _)
  | cons s b =>
    cases c with
    | nil =>
      rw [dumpEntries_append] at h
      exact absurd h (dumpEntry_append_ne _ _ _)
    | cons s' c =>
      rw [dumpEntries_append, dumpEntries_append] at h
      obtain ⟨halike, hrest⟩ := dumpEntry_append_inj h
      exact .cons halike (alike_of_afterEntry hrest)

end Stmt

namespace Block

/-- **The dump of a program tells its statements.** Two programs with the same dump have as many statements at the top
level, and these agree one by one: both are missing, or they have the same kind, place and text. -/
theorem dump_tells_statements {b c : Block} {indent : Nat} (h : b.dump indent = c.dump indent) :
    List.Forall₂ Stmt.Alike b c := by
  simp only [dump, List.append_assoc, List.append_right_inj] at h
  exact Stmt.alike_of_dumpEntries h

/-- a statement that is not there, and one that prints `e` -/
def prints (e : Expr) : Block := [.missing, .print .unplaced e]

/-- A variable that is named as a missing part shows: the trees differ, and their statements are told alike. -/
theorem dump_tells_statements_missing :
    dump (prints .missing) 2 = dump (prints (.variable .unplaced missingText)) 2 ∧
      List.Forall₂ Stmt.Alike (prints .missing) (prints (.variable .unplaced missingText)) := by
  have hdump : dump (prints .missing) 2 = dump (prints (.variable .unplaced missingText)) 2 := rfl
  exact ⟨hdump, dump_tells_statements hdump⟩

end Block

end Treewalk
