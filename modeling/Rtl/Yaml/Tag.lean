import Rtl.Yaml.Scalar

/-!
Tags of a YAML text, and the directives in front of a document. A tag is written as a handle and a suffix; the handle
stands for a longer text that a directive gives. A tag may also be written in full, between angle brackets.
-/
namespace Rtl.Yaml

/-- The characters of names and handles. -/
def isNameChar (ch : Char) : Bool := ch.isAlphanum || ch == '_' || ch == '-'

/-- The characters of a tag or of the text behind a handle. -/
def isUriChar (ch : Char) : Bool := isNameChar ch || ";/?:@&=+$,.!~*'()[]%".toList.contains ch

/-- How many octets a character has in its escaped form, by the first of them. -/
def octetCount? (n : Nat) : Option Nat :=
  if n < 0x80 then some 1
  else if 0xc0 ≤ n && n < 0xe0 then some 2
  else if 0xe0 ≤ n && n < 0xf0 then some 3
  else if 0xf0 ≤ n && n < 0xf8 then some 4
  else none

/-- The octet that a percent sign and two digits stand for. -/
def octet? (c : Cursor) : Option Nat := if c.isAt '%' then hexNumber? 2 (c.rest.drop 1) else none

/-- The octets after the first one of an escaped character. -/
def moreOctets : Nat → List Char → Cursor → Option (List Char × Cursor)
  | 0, text, c => some (text, c)
  | n + 1, text, c => do
    let o ← octet? c
    if 0x80 ≤ o && o < 0xc0 then moreOctets n (Char.ofNat o :: text) (c.skipMany 3) else none

/-- An escaped character, put in front of the text read so far. Each of its octets stands for itself. -/
def escapedOctets? (text : List Char) (c : Cursor) : Option (List Char × Cursor) := do
  let o ← octet? c
  let n ← octetCount? o
  moreOctets (n - 1) (Char.ofNat o :: text) (c.skipMany 3)

def uriWith : Nat → List Char → Cursor → Option (List Char × Cursor)
  | 0, _, _ => none
  | fuel + 1, text, c =>
    match c.peek 0 with
    | some ch =>
      if !isUriChar ch then some (text, c)
      else if ch == '%' then do
        let (text, c) ← escapedOctets? text c
        uriWith fuel text c
      else uriWith fuel (ch :: text) c.skip
    | none => some (text, c)

/-- The text of a tag, as far as it goes; it may be empty. -/
def uri? (c : Cursor) : Option (String × Cursor) := do
  let (text, c) ← uriWith (c.rest.length + 1) [] c
  return (String.ofList text.reverse, c)

/-- A text that must not be empty. -/
def nonEmptyUri? (c : Cursor) : Option (String × Cursor) := do
  let (text, c) ← uri? c
  if text = "" then none else return (text, c)

/-- An exclamation mark, a name and, in a complete handle, a second mark. -/
def handle (c : Cursor) : String × Cursor :=
  let name := (c.rest.drop 1).takeWhile isNameChar
  let c := c.skipMany (name.length + 1)
  if c.isAt '!' then (String.ofList ('!' :: name ++ ['!']), c.skip) else (String.ofList ('!' :: name), c)

/-- The handle and the suffix of a tag, at its exclamation mark. A tag in full, or one that is a mark alone, has no
handle. -/
def tagParts? (c : Cursor) : Option (String × String × Cursor) := do
  if c.peek 1 == some '<' then
    let (text, c) ← nonEmptyUri? c.skip.skip
    if c.isAt '>' then return ("", text, c.skip) else none
  else
    let (word, after) := handle c
    if 1 < word.length && word.endsWith "!" then
      let (suffix, c) ← nonEmptyUri? after
      return (word, suffix, c)
    else
      let (suffix, c) ← uri? c.skip
      return if suffix = "" then ("", "!", c) else ("!", suffix, c)

/-- A tag, which a gap must follow. -/
def tag? (c : Cursor) : Option (String × String × Cursor) := do
  let (handle, suffix, c) ← tagParts? c
  if c.gapAt 0 then return (handle, suffix, c) else none

inductive Directive where
  /-- The version of the language. -/
  | version (major minor : Nat)
  /-- What a handle stands for. -/
  | tagHandle (handle text : String)
  deriving DecidableEq, Repr

namespace Directive

/-- A number of a version, of at most two digits. -/
def number? (c : Cursor) : Option (Nat × Cursor) :=
  let ds := c.rest.takeWhile Char.isDigit
  if ds.isEmpty || 2 < ds.length then none
  else some (ds.foldl (fun n d => n * 10 + (d.toNat - '0'.toNat)) 0, c.skipMany ds.length)

def version? (c : Cursor) : Option (Directive × Cursor) := do
  let (major, c) ← number? c.skipBlanks
  if !c.isAt '.' then none
  else
    let (minor, c) ← number? c.skip
    return (.version major minor, c)

/-- A handle and its text, with blanks between. -/
def tagHandle? (c : Cursor) : Option (Directive × Cursor) := do
  let c := c.skipBlanks
  if !c.isAt '!' then none
  else
    let (word, c) := handle c
    if word != "!" && !(1 < word.length && word.endsWith "!") then none
    else if !(c.peek 0).any isBlank then none
    else
      let (text, c) ← nonEmptyUri? c.skipBlanks
      if c.gapAt 0 then return (.tagHandle word text, c) else none

/-- A directive, at its percent sign, and the start of the next line. -/
def read? (c : Cursor) : Option (Directive × Cursor) := do
  let name := (c.rest.drop 1).takeWhile isNameChar
  let c := c.skipMany (name.length + 1)
  if !c.gapAt 0 then none
  else
    let (d, c) ← match String.ofList name with
      | "YAML" => version? c
      | "TAG" => tagHandle? c
      | _ => none
    let c := c.skipBlanks
    let c := if c.isAt '#' then c.skipToBreak else c
    if !c.endsLine 0 then none else return (d, if c.rest.isEmpty then c else c.skipLine)

end Directive
end Rtl.Yaml
