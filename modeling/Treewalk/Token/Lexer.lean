/-
From a text to its tokens.

A text is a sequence of gaps and lexemes. A gap is blank bytes and comments, which run from `//` to the end of their
line. A lexeme is a number, a word or an operator, and always the longest one that starts at its place. `Token.scan`
cuts a text from left to right, counts lines and columns on the way, and ends the tokens with one for the end of input.
The first byte at which neither a gap nor a lexeme starts is an error.
-/
import Treewalk.Diagnostic
import Treewalk.Number.Numeral
import Treewalk.Token.Basic

namespace Treewalk

namespace Lexeme

open Numeral (isDigit)

/-- space, tab, carriage return and line feed -/
def isBlank (b : UInt8) : Bool := b = 32 || b = 9 || b = 13 || b = 10

/-- an ASCII letter -/
def isLetter (b : UInt8) : Bool := (65 ≤ b && b ≤ 90) || (97 ≤ b && b ≤ 122)

/-- bytes that start a word: letters, the underscore and every byte beyond ASCII -/
def isWordStart (b : UInt8) : Bool := isLetter b || b = 95 || 128 ≤ b

/-- bytes that go on with a word -/
def isWordByte (b : UInt8) : Bool := isWordStart b || isDigit b

/-- a point and digits at the start of a text, or nothing -/
def fraction (t : Bytes) : Bytes :=
  match t with
  | 46 :: r =>
    let digits := r.takeWhile isDigit
    if digits.isEmpty then [] else 46 :: digits
  | _ => []

/-- a sign at the start of a text, or nothing -/
def sign (t : Bytes) : Bytes :=
  match t with
  | s :: _ => if s = 43 || s = 45 then [s] else []
  | [] => []

/-- an exponent mark, a sign or none, and digits at the start of a text, or nothing -/
def exponent (t : Bytes) : Bytes :=
  match t with
  | e :: r =>
    if e = 101 || e = 69 then
      let s := sign r
      let digits := (r.drop s.length).takeWhile isDigit
      if digits.isEmpty then [] else e :: (s ++ digits)
    else []
  | [] => []

/-- the number at the start of a text that starts with a digit -/
def number (t : Bytes) : Bytes :=
  let whole := t.takeWhile isDigit
  let r := t.dropWhile isDigit
  let f := fraction r
  whole ++ f ++ exponent (r.drop f.length)

/-- the word at the start of a text -/
def word (t : Bytes) : Bytes := t.takeWhile isWordByte

/-- the words with a meaning of their own -/
def keywords : List (Bytes × Kind) :=
  [(bytes "fun", .function), (bytes "print", .print), (bytes "while", .loop), (bytes "true", .boolean),
    (bytes "false", .boolean)]

def wordKind (w : Bytes) : Kind := (keywords.lookup w).getD .identifier

/-- operators of two bytes -/
def pairs : List (Bytes × Kind) :=
  [(bytes ":=", .walrus), (bytes "**", .power), (bytes "<=", .lessEqual), (bytes ">=", .greaterEqual),
    (bytes "==", .equal), (bytes "!=", .notEqual), (bytes "&&", .and), (bytes "||", .or)]

/-- operators of one byte -/
def singles : List (Bytes × Kind) :=
  [(bytes "=", .assign), (bytes "+", .plus), (bytes "-", .minus), (bytes "*", .star), (bytes "/", .slash),
    (bytes "%", .percent), (bytes "<", .less), (bytes ">", .greater), (bytes "!", .not), (bytes "?", .question),
    (bytes ":", .colon), (bytes ",", .comma), (bytes ";", .semicolon), (bytes "(", .openParen),
    (bytes ")", .closeParen), (bytes "\x7b", .openBrace), (bytes "\x7d", .closeBrace), (bytes "[", .openBracket),
    (bytes "]", .closeBracket)]

/-- the operator at the start of a text, two bytes before one -/
def operator? (t : Bytes) : Option (Kind × Bytes) :=
  match pairs.lookup (t.take 2) with
  | some k => some (k, t.take 2)
  | none => (singles.lookup (t.take 1)).map fun k => (k, t.take 1)

/-- the lexeme at the start of a text, and its kind -/
def next? (t : Bytes) : Option (Kind × Bytes) :=
  match t with
  | [] => none
  | b :: _ =>
    if isDigit b then some (.number, number t)
    else if isWordStart b then some (wordKind (word t), word t)
    else operator? t

/-- a comment at the start of a text, up to its line feed, or nothing -/
def comment (t : Bytes) : Bytes :=
  match t with
  | 47 :: 47 :: _ => t.takeWhile (· != Bytes.lf)
  | _ => []

end Lexeme

/-- where the next byte stands -/
structure Position where
  line : Nat
  column : Nat
deriving DecidableEq

namespace Position

/-- the first byte of a text -/
def start : Position := ⟨1, 1⟩

/-- the place after a byte: a line feed starts a line, any other byte takes a column -/
def after (p : Position) (b : UInt8) : Position :=
  if b = Bytes.lf then ⟨p.line + 1, 1⟩ else ⟨p.line, p.column + 1⟩

/-- the place after a text -/
def afterAll (p : Position) (t : Bytes) : Position := t.foldl after p

end Position

/-- a text to be scanned: its file's name and, for traces, the whole text if it is to be kept -/
structure Origin where
  file : Bytes
  source : Option Bytes

namespace Origin

/-- the origin of a text; a missing file name is `<input>` -/
def named (file : Bytes) (source : Option Bytes) : Origin :=
  ⟨if file.isEmpty then bytes "<input>" else file, source⟩

/-- the location of `length` bytes at a position -/
def place (o : Origin) (p : Position) (length : Nat) : Location := ⟨o.file, p.line, p.column, length, o.source⟩

end Origin

namespace Token

/-- the tokens of a text whose first byte stands at `p` -/
def scanFrom (o : Origin) (p : Position) (t : Bytes) : Except Diagnostic (List Token) :=
  match t with
  | [] => .ok [⟨.endOfInput, [], o.place p 0⟩]
  | b :: r =>
    if Lexeme.isBlank b then scanFrom o (p.after b) r
    else
      let c := Lexeme.comment (b :: r)
      if 0 < c.length then scanFrom o (p.afterAll c) (r.drop (c.length - 1))
      else
        match Lexeme.next? (b :: r) with
        | none => .error ⟨.unexpectedByte b, o.place p 1⟩
        | some (kind, text) =>
          match scanFrom o (p.afterAll text) (r.drop (text.length - 1)) with
          | .ok rest => .ok (⟨kind, text, o.place p text.length⟩ :: rest)
          | .error d => .error d
termination_by t.length
decreasing_by all_goals simp only [List.length_drop, List.length_cons]; omega

/-- the tokens of a text -/
def scan (o : Origin) (t : Bytes) : Except Diagnostic (List Token) := scanFrom o .start t

end Token

end Treewalk
