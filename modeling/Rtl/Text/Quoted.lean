import Rtl.Text.Printable

/-!
Quoted text: a string between double quotes with its unprintable characters escaped. Control characters with a
letter of their own use it, other ASCII controls two hexadecimal digits, the rest four or eight.
-/
namespace Rtl.Text

/-- Lower-case hexadecimal digits of `n`, padded with zeros to `width`. -/
def hex (width n : Nat) : String :=
  let digits := Nat.toDigits 16 n
  String.ofList (List.replicate (width - digits.length) '0' ++ digits)

/-- The letter that stands for a control character after a backslash. -/
def controlLetter? (c : Char) : Option Char :=
  match c.toNat with
  | 7 => some 'a'
  | 8 => some 'b'
  | 9 => some 't'
  | 10 => some 'n'
  | 11 => some 'v'
  | 12 => some 'f'
  | 13 => some 'r'
  | _ => none

/-- A character between marks of the given kind. -/
def quoteCharIn (mark c : Char) : String :=
  if c == mark || c == '\\' then String.ofList ['\\', c]
  else if isPrintable c then c.toString
  else match controlLetter? c with
    | some letter => String.ofList ['\\', letter]
    | none =>
      if c.toNat < 0x80 then "\\x" ++ hex 2 c.toNat
      else if c.toNat < 0x10000 then "\\u" ++ hex 4 c.toNat
      else "\\U" ++ hex 8 c.toNat

def quoteChar (c : Char) : String := quoteCharIn '"' c

/-- A single character between single quotes. -/
def quoteLetter (c : Char) : String := "'" ++ quoteCharIn '\'' c ++ "'"

def quote (s : String) : String :=
  "\"" ++ String.join (s.toList.map quoteChar) ++ "\""

end Rtl.Text
