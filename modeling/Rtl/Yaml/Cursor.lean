/-!
Places in a YAML text. A cursor knows its column, because indentation has a meaning, and its line, because a key must
not run over the end of one.
-/
namespace Rtl.Yaml

def isBreak (c : Char) : Bool :=
  let n := c.toNat
  n == 10 || n == 13 || n == 0x85 || n == 0x2028 || n == 0x2029

def isBlank (c : Char) : Bool := c == ' ' || c == '\t'

/-- Whether a text may hold the character; most control characters are refused. -/
def isAllowed (c : Char) : Bool :=
  let n := c.toNat
  n == 9 || n == 10 || n == 13 || (0x20 ≤ n && n ≤ 0x7e) || n == 0x85
    || (0xa0 ≤ n && n ≤ 0xfffd) || 0x10000 ≤ n

/-- A byte order mark, which may stand at the start of a line. -/
def isByteOrderMark (c : Char) : Bool := c.toNat == 0xfeff

/-- A text is read in blocks of so many bytes. -/
def blockSize : Nat := 512

/-- The longest start of a text that has at most `room` bytes, and the rest. -/
def splitBlock : Nat → List Char → List Char × List Char
  | _, [] => ([], [])
  | room, c :: cs =>
    if c.utf8Size ≤ room then
      let (block, rest) := splitBlock (room - c.utf8Size) cs
      (c :: block, rest)
    else ([], c :: cs)

def readableWith : Nat → List Char → List Char × Bool
  | 0, _ => ([], false)
  | _ + 1, [] => ([], false)
  | fuel + 1, text =>
    let (block, rest) := splitBlock blockSize text
    if block.all isAllowed then
      let (more, isCut) := readableWith fuel rest
      (block ++ more, isCut)
    else ([], true)

/-- What can be read of a text: the blocks before the first one with a character that is refused, and whether there is
such a block. -/
def readable (text : List Char) : List Char × Bool := readableWith (text.length + 1) text

/-- What follows a place, with its line, column and index. -/
structure Cursor where
  rest : List Char
  line : Nat
  column : Nat
  index : Nat

namespace Cursor

/-- The start of a text. A byte order mark in front is no part of it. -/
def start (text : List Char) : Cursor :=
  match text with
  | [] => ⟨[], 0, 0, 0⟩
  | c :: rest => ⟨if isByteOrderMark c then rest else text, 0, 0, 0⟩

def peek (c : Cursor) (k : Nat) : Option Char := c.rest[k]?

def isAt (c : Cursor) (ch : Char) : Bool := c.peek 0 == some ch

/-- Whether the `k`-th character from here is a break or the end. -/
def endsLine (c : Cursor) (k : Nat) : Bool :=
  match c.peek k with
  | none => true
  | some ch => isBreak ch

/-- Whether the `k`-th character from here is a blank, a break or the end. -/
def gapAt (c : Cursor) (k : Nat) : Bool :=
  match c.peek k with
  | none => true
  | some ch => isBlank ch || isBreak ch

/-- Steps over a character that is no break. -/
def skip (c : Cursor) : Cursor := ⟨c.rest.drop 1, c.line, c.column + 1, c.index + 1⟩

def skipMany : Nat → Cursor → Cursor
  | 0, c => c
  | n + 1, c => skipMany n c.skip

/-- Steps over a line break, of which a carriage return and a line feed make one. -/
def skipLine (c : Cursor) : Cursor :=
  match c.rest with
  | '\x0d' :: '\n' :: rest => ⟨rest, c.line + 1, 0, c.index + 2⟩
  | _ => ⟨c.rest.drop 1, c.line + 1, 0, c.index + 1⟩

/-- A line break as it is read: the line and paragraph separators stay, all others are line feeds. -/
def breakRead (ch : Char) : Char := if ch.toNat == 0x2028 || ch.toNat == 0x2029 then ch else '\n'

/-- Steps over blanks and nothing else. -/
def skipBlanksWith : Nat → Cursor → Cursor
  | 0, c => c
  | fuel + 1, c =>
    match c.peek 0 with
    | some ch => if isBlank ch then skipBlanksWith fuel c.skip else c
    | none => c

def skipBlanks (c : Cursor) : Cursor := skipBlanksWith c.rest.length c

def skipToBreak (c : Cursor) : Cursor :=
  skipMany (c.rest.takeWhile fun ch => !isBreak ch).length c

/-- Whether three marks of a kind stand here on their own at the start of a line. -/
def atMarker (c : Cursor) (ch : Char) : Bool :=
  c.column == 0 && c.rest.take 3 == [ch, ch, ch] && c.gapAt 3

/-- Whether a document starts or ends here. -/
def atDocument (c : Cursor) : Bool := c.atMarker '-' || c.atMarker '.'

end Cursor
end Rtl.Yaml
