/-
Source texts and places in them.

`Source.lines` cuts a text at its line feeds and drops carriage returns; a last line without bytes is no line. A
location names a file, a line and a column, all counted from one, and may carry the text it points into. Then its trace
shows the line behind a gutter, and below it a caret in the column.
-/
import Treewalk.Text

namespace Treewalk

namespace Source

/-- the text cut at its line feeds; one segment more than there are line feeds -/
def segments : Bytes → List Bytes
  | [] => [[]]
  | b :: r =>
    if b = Bytes.lf then [] :: segments r
    else
      match segments r with
      | s :: ss => (b :: s) :: ss
      | [] => [[b]]

/-- a list without its last text, if that text is empty -/
def dropEmptyLast : List Bytes → List Bytes
  | [] => []
  | [t] => if t.isEmpty then [] else [t]
  | t :: ts => t :: dropEmptyLast ts

/-- the lines of a text, without line ends and carriage returns -/
def lines (text : Bytes) : List Bytes :=
  dropEmptyLast ((segments text).map fun s => s.filter (· != Bytes.cr))

/-- the lines with their numbers -/
def numberedLines (text : Bytes) : List (Nat × Bytes) :=
  (lines text).zipIdx.map fun (t, i) => (i + 1, t)

/-- the line with a given number; empty if there is none -/
def line (text : Bytes) (number : Int) : Bytes :=
  if 0 < number then (lines text)[(number - 1).toNat]?.getD [] else []

/-- what stands before a line in a trace -/
def gutter (number : Int) : Bytes := bytes " * " ++ Bytes.ofInt number ++ bytes " | "

/-- the line behind its gutter, and a caret below the column -/
def context (text : Bytes) (number column : Int) : Bytes :=
  let g := gutter number
  g ++ line text number ++ [Bytes.lf] ++ Bytes.spaces (g.length + (column - 1).toNat) ++ bytes "^"

end Source

/-- a place in a source: file name, line, column and length in bytes, and the text if it is at hand -/
structure Location where
  file : Bytes
  line : Int
  column : Int
  length : Int
  source : Option Bytes
deriving DecidableEq

namespace Location

/-- the place of things that stand in no source -/
def nowhere : Location := ⟨[], 1, 1, 0, none⟩

instance : Inhabited Location := ⟨nowhere⟩

/-- a place is known if it has a file name -/
def known (l : Location) : Bool := !l.file.isEmpty

/-- file, line and column with colons between -/
def text (l : Location) : Bytes :=
  l.file ++ bytes ":" ++ Bytes.ofInt l.line ++ bytes ":" ++ Bytes.ofInt l.column

/-- the source line with a caret, if the source is at hand -/
def trace (l : Location) : Bytes :=
  match l.source with
  | some s => Source.context s l.line l.column
  | none => bytes "(source context unavailable)"

end Location

end Treewalk
