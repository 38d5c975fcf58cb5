/-
Escaped text and the dump of a token list, one field a line.
-/
import Treewalk.Token.Basic

namespace Treewalk

namespace Bytes

/-- a line feed as `\n`, a quote and a backslash behind a backslash -/
def escape (t : Bytes) : Bytes :=
  t.flatMap fun b => if b = lf then bytes "\\n" else if b = 34 || b = 92 then [92, b] else [b]

end Bytes

namespace Token

/-- the fields of a token between braces -/
def dumpFields (t : Token) : Bytes :=
  bytes "  \x7b\n" ++
    bytes "    \"type\": \"" ++ bytes t.kind.name ++ bytes "\",\n" ++
    bytes "    \"value\": \"" ++ t.text.escape ++ bytes "\",\n" ++
    bytes "    \"loc\": \"" ++ t.location.text ++ bytes "\",\n" ++
    bytes "    \"length\": " ++ Bytes.ofInt t.location.length ++ bytes "\n" ++
    bytes "  \x7d"

/-- the tokens in brackets, with commas between -/
def dump (ts : List Token) : Bytes :=
  bytes "[\n" ++ dumpAll ts ++ bytes "]\n"
where
  /-- the tokens one after another -/
  dumpAll : List Token → Bytes
    | [] => []
    | [t] => t.dumpFields ++ bytes "\n"
    | t :: ts => t.dumpFields ++ bytes ",\n" ++ dumpAll ts

end Token

end Treewalk
