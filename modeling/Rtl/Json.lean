/-!
JSON texts. Numbers are kept as they are written, and objects keep the order of their keys; a key that is given twice
counts with its last value. Reading is total: every step of it consumes a character or a unit of fuel.
-/
namespace Rtl

inductive Json where
  | null
  | bool (b : Bool)
  | num (text : String)
  | str (s : String)
  | arr (items : List Json)
  | obj (fields : List (String × Json))
  deriving Inhabited

namespace Json

def int (n : Int) : Json := .num (toString n)

def strings (items : List String) : Json := .arr (items.map .str)

instance : Coe String Json := ⟨.str⟩

instance : Coe Int Json := ⟨.int⟩

instance : Coe Nat Json := ⟨fun n => .int n⟩

instance : Coe Bool Json := ⟨.bool⟩

instance : Coe (List Json) Json := ⟨.arr⟩

instance : Coe (List String) Json := ⟨.strings⟩

instance : Coe (List (String × Json)) Json := ⟨.obj⟩

instance {α : Type} [Coe α Json] : Coe (Option α) Json := ⟨fun x => (x.map fun a => (a : Json)).getD .null⟩

instance : Coe (Option Json) Json := ⟨(·.getD .null)⟩

/-- Characters inside a string: control characters, quotes and backslashes are escaped, and so are the characters that
matter to a page that embeds the text. -/
def escapeChar (c : Char) : String :=
  let n := c.toNat
  let digit (k : Nat) : Char := Nat.digitChar (k % 16)
  let escape := String.ofList ['\\', 'u', digit (n / 4096), digit (n / 256), digit (n / 16), digit n]
  if c == '"' || c == '\\' then String.ofList ['\\', c]
  else if n == 8 then "\\b"
  else if n == 12 then "\\f"
  else if n == 10 then "\\n"
  else if n == 13 then "\\r"
  else if n == 9 then "\\t"
  else if n < 0x20 || c == '<' || c == '>' || c == '&' || n == 0x2028 || n == 0x2029 then escape
  else c.toString

def quote (s : String) : String := "\"" ++ String.join (s.toList.map escapeChar) ++ "\""

mutual

/-- The text without any blanks. -/
def render : Json → String
  | .null => "null"
  | .bool b => if b then "true" else "false"
  | .num text => text
  | .str s => quote s
  | .arr items => "[" ++ ",".intercalate (renderAll items) ++ "]"
  | .obj fields => "\x7b" ++ ",".intercalate (renderFields fields) ++ "\x7d"

def renderAll : List Json → List String
  | [] => []
  | j :: rest => render j :: renderAll rest

def renderFields : List (String × Json) → List String
  | [] => []
  | (k, j) :: rest => (quote k ++ ":" ++ render j) :: renderFields rest

end

def field? (j : Json) (key : String) : Option Json :=
  match j with
  | .obj fields => (fields.find? (·.1 == key)).map Prod.snd
  | _ => none

/-- Whether the text of a number has neither a fraction nor an exponent. -/
def isIntText (text : String) : Bool := text.toList.all fun c => c.isDigit || c == '-'

def natOfDigits (ds : List Char) : Nat := ds.foldl (fun n c => n * 10 + (c.toNat - '0'.toNat)) 0

def intOfText (text : String) : Int :=
  match text.toList with
  | '-' :: ds => -(natOfDigits ds : Int)
  | ds => natOfDigits ds

def asInt? : Json → Option Int
  | .num t => if isIntText t then some (intOfText t) else none
  | _ => none

def asText? : Json → Option String
  | .str s => some s
  | _ => none

def asBool? : Json → Option Bool
  | .bool b => some b
  | _ => none

/-- A list; nothing counts as an empty one. -/
def asList? : Json → Option (List Json)
  | .null => some []
  | .arr items => some items
  | _ => none

def asTexts? (j : Json) : Option (List String) := do (← j.asList?).mapM asText?

/-- Fields in the order of their keys; nothing counts as none. -/
def asFields? : Json → Option (List (String × Json))
  | .null => some []
  | .obj fields => some (fields.mergeSort fun a b => !decide (b.1 < a.1))
  | _ => none

def digits (cs : List Char) : List Char × List Char := (cs.takeWhile Char.isDigit, cs.dropWhile Char.isDigit)

def exponentOf : List Char → Int
  | 'e' :: '-' :: ds => -(natOfDigits ds : Int)
  | 'e' :: '+' :: ds => natOfDigits ds
  | 'e' :: ds => natOfDigits ds
  | _ => 0

/-- The nearest floating point number; none where the text exceeds the finite ones. -/
def floatOfText? (text : String) : Option Float :=
  let (negative, cs) := match text.toList with
    | '-' :: cs => (true, cs)
    | cs => (false, cs)
  let (whole, cs) := digits cs
  let (frac, cs) := match cs with
    | '.' :: cs => digits cs
    | cs => ([], cs)
  let m := natOfDigits (whole ++ frac)
  let e := exponentOf cs - frac.length
  let x : Float :=
    if m = 0 || e < -5000 then 0
    else if e < 0 then Float.ofScientific m true e.natAbs
    else if 400 < e then Float.ofScientific 1 false 400
    else Float.ofScientific m false e.natAbs
  if x.isInf then none else some (if negative then -x else x)

def skipBlanks : List Char → List Char
  | c :: cs => if c == ' ' || c == '\t' || c == '\n' || c == '\r' then skipBlanks cs else c :: cs
  | [] => []

def hexValue? (c : Char) : Option Nat :=
  if '0' ≤ c && c ≤ '9' then some (c.toNat - '0'.toNat)
  else if 'a' ≤ c && c ≤ 'f' then some (c.toNat - 'a'.toNat + 10)
  else if 'A' ≤ c && c ≤ 'F' then some (c.toNat - 'A'.toNat + 10)
  else none

/-- Four hexadecimal digits. -/
def unit? : List Char → Option (Nat × List Char)
  | a :: b :: c :: d :: rest => do
    return ((← hexValue? a) * 4096 + (← hexValue? b) * 256 + (← hexValue? c) * 16 + (← hexValue? d), rest)
  | _ => none

def isHighSurrogate (n : Nat) : Bool := 0xd800 ≤ n && n < 0xdc00

def isLowSurrogate (n : Nat) : Bool := 0xdc00 ≤ n && n < 0xe000

/-- Stands for half of a surrogate pair. -/
def replacement : Char := Char.ofNat 0xfffd

/-- The character after an escaped unit, and what follows it. -/
def unitChar? (cs : List Char) : Option (Char × List Char) := do
  let (u, rest) ← unit? cs
  if isHighSurrogate u then
    match rest with
    | '\\' :: 'u' :: more =>
      let (l, more) ← unit? more
      if isLowSurrogate l then return (Char.ofNat (0x10000 + (u - 0xd800) * 1024 + (l - 0xdc00)), more)
      else return (replacement, rest)
    | _ => return (replacement, rest)
  else if isLowSurrogate u then return (replacement, rest)
  else return (Char.ofNat u, rest)

/-- The character that a letter after a backslash stands for. -/
def escaped? : Char → Option Char
  | '"' => some '"'
  | '\\' => some '\\'
  | '/' => some '/'
  | 'b' => some (Char.ofNat 8)
  | 'f' => some (Char.ofNat 12)
  | 'n' => some '\n'
  | 'r' => some '\r'
  | 't' => some '\t'
  | _ => none

/-- The rest of a string after its opening quote. -/
def text? : Nat → List Char → List Char → Option (String × List Char)
  | 0, _, _ => none
  | fuel + 1, acc, cs =>
    match cs with
    | [] => none
    | '"' :: rest => some (String.ofList acc.reverse, rest)
    | '\\' :: 'u' :: rest => do
      let (c, rest) ← unitChar? rest
      text? fuel (c :: acc) rest
    | '\\' :: c :: rest => do text? fuel ((← escaped? c) :: acc) rest
    | c :: rest => if c.toNat < 0x20 then none else text? fuel (c :: acc) rest

def fraction? : List Char → Option (List Char × List Char)
  | '.' :: cs =>
    let (ds, rest) := digits cs
    if ds.isEmpty then none else some ('.' :: ds, rest)
  | cs => some ([], cs)

def exponent? : List Char → Option (List Char × List Char)
  | c :: cs =>
    if c == 'e' || c == 'E' then
      let (sign, cs) := match cs with
        | '-' :: cs => (['-'], cs)
        | '+' :: cs => (['+'], cs)
        | cs => ([], cs)
      let (ds, rest) := digits cs
      if ds.isEmpty then none else some ('e' :: sign ++ ds, rest)
    else some ([], c :: cs)
  | [] => some ([], [])

def number? (cs : List Char) : Option (Json × List Char) := do
  let (sign, cs) := match cs with
    | '-' :: cs => (['-'], cs)
    | cs => ([], cs)
  let (whole, cs) := digits cs
  if whole.isEmpty || (1 < whole.length && whole.head? == some '0') then none
  else
    let (frac, cs) ← fraction? cs
    let (exp, cs) ← exponent? cs
    return (.num (String.ofList (sign ++ whole ++ frac ++ exp)), cs)

def word? (word : String) (j : Json) (cs : List Char) : Option (Json × List Char) :=
  if word.toList.isPrefixOf cs then some (j, cs.drop word.length) else none

def openBrace : Char := Char.ofNat 0x7b

def closeBrace : Char := Char.ofNat 0x7d

/-- Sets a key that counts with its last value. -/
def setField (key : String) (j : Json) (fields : List (String × Json)) : List (String × Json) :=
  fields.filter (·.1 != key) ++ [(key, j)]

mutual

def value? : Nat → List Char → Option (Json × List Char)
  | 0, _ => none
  | fuel + 1, cs =>
    match skipBlanks cs with
    | [] => none
    | '"' :: rest => (text? (rest.length + 1) [] rest).map fun (s, r) => (.str s, r)
    | '[' :: rest =>
      match skipBlanks rest with
      | ']' :: r => some (.arr [], r)
      | r => items? fuel [] r
    | c :: rest =>
      if c = openBrace then
        match skipBlanks rest with
        | d :: r => if d = closeBrace then some (.obj [], r) else fields? fuel [] (d :: r)
        | [] => none
      else if c == 't' then word? "true" (.bool true) (c :: rest)
      else if c == 'f' then word? "false" (.bool false) (c :: rest)
      else if c == 'n' then word? "null" .null (c :: rest)
      else number? (c :: rest)

def items? : Nat → List Json → List Char → Option (Json × List Char)
  | 0, _, _ => none
  | fuel + 1, acc, cs => do
    let (v, cs) ← value? fuel cs
    match skipBlanks cs with
    | ',' :: r => items? fuel (v :: acc) r
    | ']' :: r => some (.arr (v :: acc).reverse, r)
    | _ => none

def fields? : Nat → List (String × Json) → List Char → Option (Json × List Char)
  | 0, _, _ => none
  | fuel + 1, acc, cs =>
    match skipBlanks cs with
    | '"' :: rest => do
      let (key, cs) ← text? (rest.length + 1) [] rest
      match skipBlanks cs with
      | ':' :: r =>
        let (v, cs) ← value? fuel r
        let acc := setField key v acc
        match skipBlanks cs with
        | ',' :: r => fields? fuel acc r
        | d :: r => if d = closeBrace then some (.obj acc, r) else none
        | [] => none
      | _ => none
    | _ => none

end

def parse? (text : String) : Option Json := do
  let cs := text.toList
  let (j, rest) ← value? (2 * cs.length + 1) cs
  if (skipBlanks rest).isEmpty then some j else none

end Json
end Rtl
