/-
The dump of a program: kind, place and text of each statement of its top level.
-/
import Treewalk.Token.Dump
import Treewalk.Tree.Printer

namespace Treewalk

namespace Stmt

/-- name of a statement's kind, and its token; none if it is not there -/
def label? : Stmt → Option (String × Token)
  | .declare t _ _ => some ("VariableDeclaration", t)
  | .assign t _ _ => some ("Assignment", t)
  | .print t _ => some ("PrintStatement", t)
  | .loop t _ _ => some ("While", t)
  | .function t _ _ _ => some ("FunctionDeclaration", t)
  | .missing => none

/-- one entry of a dump whose lines start with `margin` -/
def dumpEntry (margin : Bytes) (s : Stmt) : Bytes :=
  match s.label? with
  | none => margin ++ bytes "    null"
  | some (kind, token) =>
    margin ++ bytes "    \x7b\n" ++
      margin ++ bytes "      \"nodeType\": \"" ++ bytes kind ++ bytes "\",\n" ++
      margin ++ bytes "      \"token\": \"" ++ token.location.text.escape ++ bytes "\",\n" ++
      margin ++ bytes "      \"source\": \"" ++ (s.text 0).escape ++ bytes "\"\n" ++
      margin ++ bytes "    \x7d"

/-- the entries with commas between -/
def dumpEntries (margin : Bytes) : List Stmt → Bytes
  | [] => []
  | [s] => s.dumpEntry margin ++ bytes "\n"
  | s :: ss => s.dumpEntry margin ++ bytes ",\n" ++ dumpEntries margin ss

end Stmt

/-- the dump of a program, indented by `indent` spaces -/
def Block.dump (b : Block) (indent : Nat) : Bytes :=
  let margin := Bytes.spaces indent
  margin ++ bytes "\x7b\n" ++
    margin ++ bytes "  \"type\": \"Program\",\n" ++
    margin ++ bytes "  \"body\": [\n" ++
    Stmt.dumpEntries margin b ++
    margin ++ bytes "  ]\n" ++
    margin ++ bytes "\x7d\n"

/-- the dump of no program at all -/
def emptyDump : Bytes := bytes "\x7b\x7d\n"

end Treewalk
