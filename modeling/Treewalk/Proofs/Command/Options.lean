/-
The options of a command line.

Dump flags may stand in front of everything else, and the last one sets the mode: going over them leaves the command of
the arguments behind them, in that mode (`ofArguments_append`). There the first argument decides
(`ofArgumentsIn_decided`, `first_other_argument_decides`):
- none: the usage text is the answer, as an error;
- `--`: the argument behind it is the file, whatever it looks like; none, or an empty one, is a usage error;
- the version or help option: its text is the answer, and no path is looked at;
- any other argument that starts with a minus is reported as an unknown option;
- any other argument is the file; an empty one is a usage error.
Nothing looks at the arguments behind the one that decides, or behind the file after `--`.
-/
import Mathlib.Tactic
import Treewalk.Command

namespace Treewalk

namespace Mode

/-- the mode that an argument asks for, if it is a dump flag; an argument ends at a NUL byte -/
def ofFlag? (a : Bytes) : Option Mode :=
  if a.beforeNul = bytes "--tokens" then some .tokens
  else if a.beforeNul = bytes "--ast" then some .tree
  else none

/-- the mode that dump flags leave behind: the last one counts -/
def ofFlags (flags : List Bytes) : Mode := (flags.getLast?.bind ofFlag?).getD .execute

end Mode

namespace Command

def isFlag (a : Bytes) : Bool := (Mode.ofFlag? a).isSome

/-- the dump flags in front of the other arguments -/
def flags (args : List Bytes) : List Bytes := args.takeWhile isFlag

/-- the arguments from the first one on that is no dump flag -/
def afterFlags (args : List Bytes) : List Bytes := args.dropWhile isFlag

/-- the answer to a list of arguments -/
def answer (setting : Setting) (look : Bytes → Option Entry) (args : List Bytes) : Answer :=
  (ofArguments args).perform setting look

variable {mode m : Mode} {a : Bytes} {rest args : List Bytes}

theorem flags_append_afterFlags (args : List Bytes) : flags args ++ afterFlags args = args :=
  List.takeWhile_append_dropWhile

theorem isFlag_of_mem_flags {f : Bytes} (hf : f ∈ flags args) : isFlag f = true :=
  List.all_eq_true.1 List.all_takeWhile f hf

theorem ofFlag?_of_afterFlags (h : afterFlags args = a :: rest) : Mode.ofFlag? a = none := by
  have hhead := List.head?_dropWhile_not isFlag args
  rw [← afterFlags, h] at hhead
  simpa [isFlag] using hhead

/-- what the first argument says, and what may be asked of the arguments behind it -/
theorem ofArgumentsIn_cons (mode : Mode) (a : Bytes) (rest : List Bytes) :
    ofArgumentsIn mode (a :: rest) =
      if a = bytes "--" then rest.head?.elim .usageError (ofFile mode)
      else if a = bytes "-v" ∨ a = bytes "--version" then .version
      else if a = bytes "-h" ∨ a = bytes "--help" then .help
      else if a = bytes "--tokens" then ofArgumentsIn .tokens rest
      else if a = bytes "--ast" then ofArgumentsIn .tree rest
      else if a.head? = some 45 then .unknownOption a
      else ofFile mode a := by
  cases rest <;> rw [ofArgumentsIn.eq_def] <;> rfl

/-! ## Dump flags -/

/-- a dump flag sets the mode -/
theorem ofArgumentsIn_flag (h : Mode.ofFlag? a = some m) (mode : Mode) (rest : List Bytes) :
    ofArgumentsIn mode (a.beforeNul :: rest) = ofArgumentsIn m rest := by
  unfold Mode.ofFlag? at h
  split at h
  · rename_i ha
    cases h
    rw [ha, ofArgumentsIn_cons, if_neg (by decide), if_neg (by decide), if_neg (by decide), if_pos rfl]
  · split at h
    · rename_i ha
      cases h
      rw [ha, ofArgumentsIn_cons, if_neg (by decide), if_neg (by decide), if_neg (by decide), if_neg (by decide),
        if_pos rfl]
    · cases h

/-- flags in front set the mode one after another, so the last one counts -/
theorem ofArgumentsIn_flags {fs : List Bytes} (h : ∀ f ∈ fs, isFlag f = true) (mode : Mode) (rest : List Bytes) :
    ofArgumentsIn mode (fs.map Bytes.beforeNul ++ rest) =
      ofArgumentsIn ((fs.getLast?.bind Mode.ofFlag?).getD mode) rest := by
  induction fs generalizing mode with
  | nil => rfl
  | cons f fs ih =>
    obtain ⟨m, hm⟩ := Option.isSome_iff_exists.1 (h f List.mem_cons_self)
    rw [List.map_cons, List.cons_append, ofArgumentsIn_flag hm, ih fun g hg => h g (List.mem_cons_of_mem _ hg)]
    cases hlast : fs.getLast? with
    | none =>
      obtain rfl := List.getLast?_eq_none_iff.1 hlast
      simp [hm]
    | some g =>
      -- the mode of an earlier flag is forgotten
      obtain ⟨n, hn⟩ := Option.isSome_iff_exists.1 (h g (List.mem_cons_of_mem _ (List.mem_of_getLast? hlast)))
      simp [List.getLast?_cons, hlast, hn]

theorem ofArguments_append {fs : List Bytes} (h : ∀ f ∈ fs, isFlag f = true) (rest : List Bytes) :
    ofArguments (fs ++ rest) = ofArgumentsIn (Mode.ofFlags fs) (rest.map Bytes.beforeNul) := by
  rw [ofArguments, List.map_append, ofArgumentsIn_flags h]
  rfl

theorem ofArguments_eq (args : List Bytes) :
    ofArguments args = ofArgumentsIn (Mode.ofFlags (flags args)) ((afterFlags args).map Bytes.beforeNul) := by
  rw [← ofArguments_append (fun f => isFlag_of_mem_flags), flags_append_afterFlags]

/-! ## The argument that decides -/

/-- an argument that is no dump flag decides, with the one behind it if it is `--` -/
theorem ofArgumentsIn_decided (ha : Mode.ofFlag? a = none) (mode : Mode) (rest : List Bytes) :
    ofArgumentsIn mode (a.beforeNul :: rest) =
      if a.beforeNul = bytes "--" then rest.head?.elim .usageError (ofFile mode)
      else if a.beforeNul = bytes "-v" ∨ a.beforeNul = bytes "--version" then .version
      else if a.beforeNul = bytes "-h" ∨ a.beforeNul = bytes "--help" then .help
      else if a.beforeNul.head? = some 45 then .unknownOption a.beforeNul
      else ofFile mode a.beforeNul := by
  have htokens : a.beforeNul ≠ bytes "--tokens" := by
    intro h
    rw [Mode.ofFlag?, if_pos h] at ha
    cases ha
  have htree : a.beforeNul ≠ bytes "--ast" := by
    intro h
    rw [Mode.ofFlag?, if_neg htokens, if_pos h] at ha
    cases ha
  rw [ofArgumentsIn_cons, if_neg htokens, if_neg htree]

theorem ofFile_of_ne_nil {path : Bytes} (h : path ≠ []) (mode : Mode) : ofFile mode path = .file mode path := by
  rw [ofFile, List.isEmpty_eq_false_iff.2 h]
  rfl

/-- with any arguments behind the one that decides -/
theorem ofArguments_flags_append (args : List Bytes) (a : Bytes) (more : List Bytes) :
    ofArguments (flags args ++ a :: more) =
      ofArgumentsIn (Mode.ofFlags (flags args)) (a.beforeNul :: more.map Bytes.beforeNul) := by
  rw [ofArguments_append fun f => isFlag_of_mem_flags, List.map_cons]

section Decided

variable (h : afterFlags args = a :: rest)
include h

theorem ofArguments_of_decided :
    ofArguments args = ofArgumentsIn (Mode.ofFlags (flags args)) (a.beforeNul :: rest.map Bytes.beforeNul) := by
  rw [ofArguments_eq, h, List.map_cons]

theorem ofArguments_dashes (ha : a.beforeNul = bytes "--") :
    ofArguments args = (rest.map Bytes.beforeNul).head?.elim .usageError (ofFile (Mode.ofFlags (flags args))) := by
  rw [ofArguments_of_decided h, ofArgumentsIn_decided (ofFlag?_of_afterFlags h), if_pos ha]

theorem ofArguments_version (ha : a.beforeNul = bytes "-v" ∨ a.beforeNul = bytes "--version") :
    ofArguments args = .version := by
  have hdashes : a.beforeNul ≠ bytes "--" := by
    rcases ha with ha | ha <;> rw [ha] <;> decide
  rw [ofArguments_of_decided h, ofArgumentsIn_decided (ofFlag?_of_afterFlags h), if_neg hdashes, if_pos ha]

theorem ofArguments_help (ha : a.beforeNul = bytes "-h" ∨ a.beforeNul = bytes "--help") :
    ofArguments args = .help := by
  have hdashes : a.beforeNul ≠ bytes "--" := by
    rcases ha with ha | ha <;> rw [ha] <;> decide
  have hversion : ¬ (a.beforeNul = bytes "-v" ∨ a.beforeNul = bytes "--version") := by
    rcases ha with ha | ha <;> rw [ha] <;> decide
  rw [ofArguments_of_decided h, ofArgumentsIn_decided (ofFlag?_of_afterFlags h), if_neg hdashes, if_neg hversion,
    if_pos ha]

theorem ofArguments_unknown (ha : a.beforeNul.head? = some 45)
    (hother : a.beforeNul ∉ [bytes "--", bytes "-v", bytes "--version", bytes "-h", bytes "--help"]) :
    ofArguments args = .unknownOption a.beforeNul := by
  simp only [List.mem_cons, List.not_mem_nil, or_false, not_or] at hother
  obtain ⟨hdashes, hv, hversion, hh, hhelp⟩ := hother
  rw [ofArguments_of_decided h, ofArgumentsIn_decided (ofFlag?_of_afterFlags h), if_neg hdashes,
    if_neg (not_or.2 ⟨hv, hversion⟩), if_neg (not_or.2 ⟨hh, hhelp⟩), if_pos ha]

theorem ofArguments_plain (ha : a.beforeNul.head? ≠ some 45) :
    ofArguments args = ofFile (Mode.ofFlags (flags args)) a.beforeNul := by
  have hne : ∀ option : Bytes, option.head? = some 45 → a.beforeNul ≠ option := by
    rintro option hoption rfl
    exact ha hoption
  rw [ofArguments_of_decided h, ofArgumentsIn_decided (ofFlag?_of_afterFlags h), if_neg (hne _ (by decide)),
    if_neg (not_or.2 ⟨hne _ (by decide), hne _ (by decide)⟩), if_neg (not_or.2 ⟨hne _ (by decide), hne _ (by decide)⟩),
    if_neg ha]

/-- no argument behind the one that decides is looked at, unless that is `--` -/
theorem ofArguments_replaced (ha : a.beforeNul ≠ bytes "--") (more : List Bytes) :
    ofArguments (flags args ++ a :: more) = ofArguments args := by
  rw [ofArguments_flags_append, ofArguments_of_decided h, ofArgumentsIn_decided (ofFlag?_of_afterFlags h),
    ofArgumentsIn_decided (ofFlag?_of_afterFlags h), if_neg ha, if_neg ha]

end Decided

theorem perform_unknownOption (setting : Setting) (look : Bytes → Option Entry) (a : Bytes) :
    (unknownOption a).perform setting look =
      ⟨some 1, [], bytes "bella: unknown option '" ++ a ++ bytes "'\nTry 'bella --help' for more information.\n"⟩ := by
  have hopen : bytes "bella: unknown option '" = bytes "bella: unknown option " ++ bytes "'" := by decide
  have hclose : bytes "'\nTry 'bella --help' for more information.\n" =
      bytes "'" ++ bytes "\nTry 'bella --help' for more information.\n" := by decide
  simp only [perform, Bytes.quoted, hopen, hclose, List.append_assoc]

/-- **The first argument that is no dump flag decides**, in the mode of the last dump flag in front of it. The arguments
behind it, or behind the file after `--`, may be replaced by any others. -/
theorem first_other_argument_decides (setting : Setting) (look : Bytes → Option Entry) (args : List Bytes) :
    (afterFlags args = [] → answer setting look args = ⟨some 1, [], usageText⟩) ∧
    ∀ a rest, afterFlags args = a :: rest →
      (a.beforeNul = bytes "--" →
        ((∀ path ∈ rest.head?, path.beforeNul = []) → answer setting look args = ⟨some 1, [], usageText⟩) ∧
        ∀ path after, rest = path :: after →
          (path.beforeNul ≠ [] → ofArguments args = .file (Mode.ofFlags (flags args)) path.beforeNul) ∧
          ∀ more, ofArguments (flags args ++ a :: path :: more) = ofArguments args) ∧
      (a.beforeNul = bytes "-v" ∨ a.beforeNul = bytes "--version" →
        answer setting look args = ⟨some 0, bytes "bella v1.0.0\n", []⟩ ∧ (ofArguments args).paths = []) ∧
      (a.beforeNul = bytes "-h" ∨ a.beforeNul = bytes "--help" →
        answer setting look args = ⟨some 0, usageText, []⟩ ∧ (ofArguments args).paths = []) ∧
      (a.beforeNul.head? = some 45 →
        a.beforeNul ∉ [bytes "--", bytes "-v", bytes "--version", bytes "-h", bytes "--help"] →
        answer setting look args = ⟨some 1, [], bytes "bella: unknown option '" ++ a.beforeNul ++
          bytes "'\nTry 'bella --help' for more information.\n"⟩) ∧
      (a.beforeNul = [] → answer setting look args = ⟨some 1, [], usageText⟩) ∧
      (a.beforeNul ≠ [] → a.beforeNul.head? ≠ some 45 →
        ofArguments args = .file (Mode.ofFlags (flags args)) a.beforeNul) ∧
      (a.beforeNul ≠ bytes "--" → ∀ more, ofArguments (flags args ++ a :: more) = ofArguments args) := by
  constructor
  · intro h
    rw [answer, ofArguments_eq, h]
    rfl
  intro a rest h
  refine ⟨fun ha => ⟨fun hnone => ?_, ?_⟩, fun ha => ?_, fun ha => ?_, fun ha hother => ?_, fun ha => ?_,
    fun hne ha => ?_, fun ha more => ofArguments_replaced h ha more⟩
  · rw [answer, ofArguments_dashes h ha]
    cases rest with
    | nil => rfl
    | cons path after =>
      rw [List.map_cons, List.head?_cons, hnone path rfl]
      rfl
  · rintro path after rfl
    refine ⟨fun hpath => ?_, fun more => ?_⟩
    · rw [ofArguments_dashes h ha]
      exact ofFile_of_ne_nil hpath _
    · rw [ofArguments_flags_append, ofArgumentsIn_decided (ofFlag?_of_afterFlags h), if_pos ha, ofArguments_dashes h ha]
      rfl
  · rw [answer, ofArguments_version h ha]
    exact ⟨rfl, rfl⟩
  · rw [answer, ofArguments_help h ha]
    exact ⟨rfl, rfl⟩
  · rw [answer, ofArguments_unknown h ha hother, perform_unknownOption]
  · rw [answer, ofArguments_plain h (by simp [ha]), ha]
    rfl
  · rw [ofArguments_plain h ha, ofFile_of_ne_nil hne]

/-- A file that looks like an option, behind two dump flags and `--`. -/
theorem first_other_argument_decides_dashes :
    ofArguments ([bytes "--tokens", bytes "--ast", bytes "--", bytes "-v"]) = .file .tree (bytes "-v") ∧
      ∀ more, ofArguments ([bytes "--tokens", bytes "--ast", bytes "--", bytes "-v"] ++ more) =
        .file .tree (bytes "-v") := by
  obtain ⟨hfile, hmore⟩ := ((first_other_argument_decides .standard (fun _ => none)
    [bytes "--tokens", bytes "--ast", bytes "--", bytes "-v"]).2 (bytes "--") [bytes "-v"] (by decide)).1 (by decide)
      |>.2 (bytes "-v") [] rfl
  have hfile := hfile (by decide)
  exact ⟨hfile, fun more => (hmore more).trans hfile⟩

end Command

end Treewalk
