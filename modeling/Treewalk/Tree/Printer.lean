/-
The text of a tree. Every operator is put in parentheses, so the text reads back as the same tree; a statement takes a
line, and a loop's body is indented by two more spaces.
-/
import Treewalk.Number.Layout
import Treewalk.Tree.Basic

namespace Treewalk

/-- stands for a part that is not there -/
def missingText : Bytes := bytes "<null>"

mutual
@[simp] def Expr.text : Expr → Bytes
  | .numeral _ x => x.text
  | .boolean _ b => bytes (if b then "true" else "false")
  | .variable _ x => x
  | .unary _ op e => bytes "(" ++ op ++ e.text ++ bytes ")"
  | .binary _ op l r => bytes "(" ++ l.text ++ bytes " " ++ op ++ bytes " " ++ r.text ++ bytes ")"
  | .conditional _ c y n => bytes "(" ++ c.text ++ bytes " ? " ++ y.text ++ bytes " : " ++ n.text ++ bytes ")"
  | .call _ f args => f ++ bytes "(" ++ Bytes.joinWith (bytes ", ") (Expr.texts args) ++ bytes ")"
  | .array _ items => bytes "[" ++ Bytes.joinWith (bytes ", ") (Expr.texts items) ++ bytes "]"
  | .subscript _ a i => a.text ++ bytes "[" ++ i.text ++ bytes "]"
  | .missing => missingText

/-- the texts of expressions -/
@[simp] def Expr.texts : List Expr → List Bytes
  | [] => []
  | e :: es => e.text :: Expr.texts es
end

mutual
/-- the text of a statement whose line is indented by `indent` spaces; the first line's own indentation is not in it -/
@[simp] def Stmt.text (indent : Nat) : Stmt → Bytes
  | .declare _ x e => x ++ bytes " := " ++ e.text
  | .assign _ x e => x ++ bytes " = " ++ e.text
  | .print _ e => bytes "print " ++ e.text
  | .loop _ c body =>
    bytes "while " ++ c.text ++ bytes " \x7b\n" ++ Stmt.blockText (indent + 2) body ++ Bytes.spaces indent ++
      bytes "\x7d"
  | .function _ f ps e =>
    bytes "fun " ++ f ++ bytes "(" ++ Bytes.joinWith (bytes ", ") ps ++ bytes ") = " ++ e.text
  | .missing => missingText

/-- the lines of a block -/
@[simp] def Stmt.blockText (indent : Nat) : List Stmt → Bytes
  | [] => []
  | s :: ss => Bytes.spaces indent ++ s.text indent ++ bytes "\n" ++ Stmt.blockText indent ss
end

/-- the text of a block with every line indented -/
def Block.text (b : Block) (indent : Nat) : Bytes := Stmt.blockText indent b

end Treewalk
