/-
Text as bytes. Programs, names and reports are plain byte strings: nothing here decodes a character, and every length
and column counts bytes. A literal such as `bytes "true"` is the UTF-8 encoding of the string.
-/

namespace Treewalk

/-- a text: bytes in order -/
abbrev Bytes := List UInt8

/-- the UTF-8 bytes of a string -/
def bytes (s : String) : Bytes := s.toByteArray.data.toList

namespace Bytes

/-- the line feed byte -/
def lf : UInt8 := 10

/-- the carriage return byte -/
def cr : UInt8 := 13

/-- the space byte -/
def space : UInt8 := 32

/-- decimal numeral of a natural number, without leading zeros -/
def ofNat (n : Nat) : Bytes := (Nat.toDigits 10 n).map Char.toUInt8

/-- decimal numeral of an integer, with a minus sign if it is negative -/
def ofInt : Int → Bytes
  | .ofNat n => ofNat n
  | .negSucc n => bytes "-" ++ ofNat (n + 1)

/-- the texts one after another, with `sep` between neighbours -/
def joinWith (sep : Bytes) : List Bytes → Bytes
  | [] => []
  | [t] => t
  | t :: ts => t ++ sep ++ joinWith sep ts

/-- `n` spaces -/
def spaces (n : Nat) : Bytes := List.replicate n space

/-- the text between single quotes -/
def quoted (t : Bytes) : Bytes := bytes "'" ++ t ++ bytes "'"

/-- the part before the first NUL byte -/
def beforeNul (t : Bytes) : Bytes := t.takeWhile (· != 0)

end Bytes

end Treewalk
