import Rtl.Yaml.Node
import Rtl.Yaml.Timestamp

/-!
What the scalars of a YAML text stand for. A plain scalar is read by the look of its text; a tag asks for a reading,
which the text must have. Texts with other tags stay as they are, and binary ones are decoded.
-/
namespace Rtl.Yaml

inductive Reading where
  | null
  | flag (b : Bool)
  /-- A whole number that fits a signed word of 64 bits. -/
  | int
  /-- A whole number that fits an unsigned word only. -/
  | wideInt
  | float
  | timestamp
  | text
  deriving DecidableEq, Repr

namespace Reading

/-- Texts that are read as they stand. -/
def ofWord? (s : String) : Option Reading :=
  if ["", "~", "null", "Null", "NULL"].contains s then some .null
  else if ["true", "True", "TRUE"].contains s then some (.flag true)
  else if ["false", "False", "FALSE"].contains s then some (.flag false)
  else if [".nan", ".NaN", ".NAN", ".inf", ".Inf", ".INF", "+.inf", "+.Inf", "+.INF", "-.inf", "-.Inf", "-.INF"].contains s
  then some .float
  else none

def digitValue (c : Char) : Nat := (hexDigit? c).getD 16

/-- The number of digits to a base; there must be some. -/
def natOfBase? (base : Nat) (ds : List Char) : Option Nat :=
  if ds.isEmpty || !ds.all (digitValue · < base) then none
  else some (ds.foldl (fun n d => n * base + digitValue d) 0)

/-- The number of digits whose base is told by what they start with. -/
def natOfPrefixed? : List Char → Option Nat
  | ['0'] => some 0
  | '0' :: c :: d :: ds =>
    if c = 'b' || c = 'B' then natOfBase? 2 (d :: ds)
    else if c = 'o' || c = 'O' then natOfBase? 8 (d :: ds)
    else if c = 'x' || c = 'X' then natOfBase? 16 (d :: ds)
    else natOfBase? 8 (c :: d :: ds)
  | '0' :: ds => natOfBase? 8 ds
  | ds => natOfBase? 10 ds

/-- Reads a whole number with or without a sign; one without may be wider. -/
def ofDigits? (nat? : List Char → Option Nat) (cs : List Char) : Option Reading :=
  let bound := Nat.pow 2 63
  match cs with
  | '-' :: ds => do if (← nat? ds) ≤ bound then some .int else none
  | '+' :: ds => do if (← nat? ds) < bound then some .int else none
  | ds => do
    let n ← nat? ds
    if n < bound then some .int else if n < 2 * bound then some .wideInt else none

/-- Reads a number to base 2 or 8 whose sign stands after the letter of its base, or before both. -/
def ofMarked? (letter : Char) (base : Nat) : List Char → Option Reading
  | '0' :: c :: ds => if c = letter then ofDigits? (natOfBase? base) ds else none
  | '-' :: '0' :: c :: ds => if c = letter then ofDigits? (natOfBase? base) ('-' :: ds) else none
  | _ => none

/-- Whether a decimal is rounded to a double that is infinite. -/
def exceedsDouble (digits : List Char) (exponent : Int) : Bool :=
  let n := (natOfBase? 10 digits).getD 0
  let limit := Nat.pow 2 1024 - Nat.pow 2 970
  let size := ((digits.dropWhile (· = '0')).length : Int) + exponent
  if n = 0 || size < 300 then false
  else if 320 < size then true
  else if 0 ≤ exponent then limit ≤ n * Nat.pow 10 exponent.toNat
  else limit * Nat.pow 10 (-exponent).toNat ≤ n

/-- The exponent of a decimal, after its letter. -/
def exponent? (cs : List Char) : Option Int :=
  match cs with
  | '-' :: ds => (natOfBase? 10 ds).map fun n => -(n : Int)
  | '+' :: ds => (natOfBase? 10 ds).map Int.ofNat
  | ds => (natOfBase? 10 ds).map Int.ofNat

/-- Whether a text without a sign is a decimal that a double can hold. It has digits before or after its point. -/
def isDecimal (cs : List Char) : Bool :=
  let whole := cs.takeWhile Char.isDigit
  let rest := cs.dropWhile Char.isDigit
  let (part, rest) := match rest with
    | '.' :: rest => (rest.takeWhile Char.isDigit, rest.dropWhile Char.isDigit)
    | _ => ([], rest)
  let exponent := match rest with
    | [] => some 0
    | c :: ds => if c = 'e' || c = 'E' then exponent? ds else none
  match exponent with
  | none => false
  | some e => !(whole.isEmpty && part.isEmpty) && !exceedsDouble (whole ++ part) (e - part.length)

def dropSign : List Char → List Char
  | '-' :: cs => cs
  | '+' :: cs => cs
  | cs => cs

/-- Whether underscores stand between digits only. -/
def underscoresPart : Bool → List Char → Bool
  | _, [] => true
  | afterDigit, '_' :: rest => afterDigit && (rest.head?.any Char.isDigit) && underscoresPart false rest
  | _, c :: rest => underscoresPart c.isDigit rest

/-- Reads a text that starts with a sign or a digit. Underscores count for nothing. -/
def ofNumber (asTime : Bool) (s : String) : Reading :=
  let cs := s.toList.filter (· != '_')
  if asTime && Timestamp.isWritten s then .timestamp
  else match ofDigits? natOfPrefixed? cs with
    | some r => r
    | none =>
      if isDecimal (dropSign cs) then .float
      else ((ofMarked? 'b' 2 cs).or (ofMarked? 'o' 8 cs)).getD .text

/-- The reading of a text; it is looked at as a time only if asked for. -/
def ofText (asTime : Bool) (s : String) : Reading :=
  match ofWord? s, s.toList with
  | some r, _ => r
  | none, c :: cs =>
    if c = '+' || c = '-' || c.isDigit then ofNumber asTime s
    else if c = '.' && underscoresPart false (c :: cs) && isDecimal ((c :: cs).filter (· != '_')) then .float
    else .text
  | none, [] => .null

/-- Whether a tag asks for the reading, or for one that it can be turned into. -/
def fits (r : Reading) (tag : String) : Bool :=
  match r with
  | .null => tag = "!!null"
  | .flag _ => tag = "!!bool"
  | .int => tag = "!!int" || tag = "!!float"
  | .wideInt => tag = "!!int"
  | .float => tag = "!!float"
  | .timestamp => tag = "!!timestamp"
  | .text => false

end Reading

/-- The six bits of a letter of a binary text. -/
def sextet? (c : Char) : Option Nat :=
  if c.isUpper then some (c.toNat - 'A'.toNat)
  else if c.isLower then some (c.toNat - 'a'.toNat + 26)
  else if c.isDigit then some (c.toNat - '0'.toNat + 52)
  else if c = '+' then some 62
  else if c = '/' then some 63
  else none

/-- The bytes of a binary text, four letters to three bytes. Only the last four may be padded. -/
def bytes? : List Char → Option (List UInt8)
  | [] => some []
  | [a, b, '=', '='] => do
    let x := (← sextet? a) * 64 + (← sextet? b)
    return [(x / 16).toUInt8]
  | [a, b, c, '='] => do
    let x := ((← sextet? a) * 64 + (← sextet? b)) * 64 + (← sextet? c)
    return [(x / 1024).toUInt8, (x / 4).toUInt8]
  | a :: b :: c :: d :: rest => do
    let x := (((← sextet? a) * 64 + (← sextet? b)) * 64 + (← sextet? c)) * 64 + (← sextet? d)
    return (x / 65536).toUInt8 :: (x / 256).toUInt8 :: x.toUInt8 :: (← bytes? rest)
  | _ => none

/-- The text behind a binary one, whose line breaks count for nothing. Bytes that are no text are replaced. -/
def binary? (s : String) : Option String := do
  let bytes ← bytes? (s.toList.filter fun c => c != '\n' && c != '\x0d')
  return (String.fromUTF8? ⟨bytes.toArray⟩).getD "�"

inductive Datum where
  | null
  | flag (b : Bool)
  | text (s : String)
  /-- A number or a time, as it is written. -/
  | other (s : String)
  deriving DecidableEq, Repr

/-- The datum of a scalar, unless its text does not fit its tag. -/
def datum? (tag text : String) : Option Datum :=
  let known := ["", "!!bool", "!!int", "!!float", "!!null", "!!timestamp"].contains tag
  if tag = "!!binary" then (binary? text).map .text
  else if !known then some (.text text)
  else
    let reading := Reading.ofText (tag = "" || tag = "!!timestamp") text
    if tag != "" && !reading.fits tag then none
    else match reading with
      | .null => some .null
      | .flag b => some (.flag b)
      | .text => some (.text text)
      | _ => some (.other text)

/-- The words for truth values that are read where one is asked for. -/
def truthWord? (s : String) : Option Bool :=
  if ["y", "Y", "yes", "Yes", "YES", "on", "On", "ON"].contains s then some true
  else if ["n", "N", "no", "No", "NO", "off", "Off", "OFF"].contains s then some false
  else none

end Rtl.Yaml
