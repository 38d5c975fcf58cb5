/-
Programs as texts: scanning, reading and running in one go.
-/
import Treewalk.Eval.Statement
import Treewalk.Token.Lexer
import Treewalk.Tree.Reader

namespace Treewalk

-- `^` is the power of the core library, whatever else is imported
attribute [local instance (2000)] instPowNat instNatPowNat

/-- a program text with the name of its file; `traced` says whether diagnostics may quote it -/
structure Program where
  file : Bytes
  text : Bytes
  traced : Bool

namespace Program

def origin (p : Program) : Origin := .named p.file (if p.traced then some p.text else none)

def tokens (p : Program) : Except Diagnostic (List Token) := Token.scan p.origin p.text

/-- the program's tree -/
def block (p : Program) : Except Diagnostic Block :=
  match p.tokens with
  | .ok ts => Block.parse ts
  | .error d => .error d

/-- runs the program in a world of its own: what it prints, and why it fails if it does -/
def run (p : Program) (limits : Limits) : Bytes × Option Diagnostic :=
  match p.block with
  | .ok b =>
    let o := b.run limits
    (o.world.output, o.diagnostic?)
  | .error d => ([], some d)

end Program

/-- bounds of ordinary runs; no program that is meant to end reaches that many rounds -/
def Limits.standard : Limits := ⟨1000, 10 ^ (18 : Nat)⟩

end Treewalk
