import Rtl.Yaml.Tag

/-!
Tokens of a YAML text. Indentation is turned into tokens that open and close blocks. A key is known as one only when
its colon is found, so the token that announces it is put in front of what has been read since. Tokens are read as far
ahead as this takes, and always two beyond the one that is handed out.
-/
namespace Rtl.Yaml

inductive Token where
  | streamStart
  | directive (d : Directive)
  | documentStart
  | documentEnd
  | sequenceStart
  | mappingStart
  | blockEnd
  | flowSequenceStart
  | flowSequenceEnd
  | flowMappingStart
  | flowMappingEnd
  | entry
  | flowEntry
  | key
  | value
  | alias (name : String)
  | anchor (name : String)
  | tag (handle suffix : String)
  | scalar (isPlain : Bool) (text : String)
  | streamEnd
  deriving DecidableEq, Repr

/-- A place where a key may have started. -/
structure KeyStart where
  isPossible : Bool
  /-- A key must start here, because the block it is in has keys at this column. -/
  isRequired : Bool
  /-- How many tokens precede it. -/
  number : Nat
  line : Nat
  column : Nat
  index : Nat

structure Scanner where
  cursor : Cursor
  /-- Whether the text goes on with what cannot be read. -/
  isCut : Bool
  /-- Tokens that are read but not handed out. -/
  queue : List Token
  /-- How many tokens have been handed out. -/
  handed : Nat
  /-- The column of the innermost block, below zero outside of all. -/
  indent : Int
  outer : List Int
  keyAllowed : Bool
  /-- The latest possible key outside of flow collections, and in each of them; the innermost comes first. -/
  keys : List KeyStart
  /-- Tokens that may be keys, by their number, with how many flow collections they are in. -/
  waiting : List (Nat × Nat)

namespace Scanner

/-- The number of the next token to be read. -/
def nextNumber (s : Scanner) : Nat := s.handed + s.queue.length

def depth (s : Scanner) : Nat := s.keys.length - 1

def inFlow (s : Scanner) : Bool := 0 < s.depth

def noKey (s : Scanner) : KeyStart := ⟨false, false, s.nextNumber, s.cursor.line, s.cursor.column, s.cursor.index⟩

def start (text : List Char) : Scanner :=
  let (text, isCut) := readable text
  ⟨.start text, isCut, [.streamStart], 0, -1, [], true, [⟨false, false, 0, 0, 0, 0⟩], []⟩

def currentKey (s : Scanner) : KeyStart := s.keys.headD s.noKey

/-- The key at a depth of flow collections. -/
def keyAt? (s : Scanner) (depth : Nat) : Option KeyStart := if depth ≤ s.depth then s.keys[s.depth - depth]? else none

def setKeyAt (s : Scanner) (depth : Nat) (k : KeyStart) : Scanner := { s with keys := s.keys.set (s.depth - depth) k }

def forget (s : Scanner) (number : Nat) : Scanner := { s with waiting := s.waiting.filter (·.1 != number) }

def push (s : Scanner) (t : Token) : Scanner := { s with queue := s.queue ++ [t] }

/-- Puts a token where another one was; if that one has been handed out, at the end. -/
def insert (s : Scanner) (number : Nat) (t : Token) : Scanner :=
  if number < s.handed then s.push t
  else
    let k := number - s.handed
    { s with queue := s.queue.take k ++ t :: s.queue.drop k }

/-- Closes the blocks that are indented beyond a column. -/
def unrollWith : Nat → Int → Scanner → Scanner
  | 0, _, s => s
  | fuel + 1, column, s =>
    if column < s.indent then
      unrollWith fuel column { s.push .blockEnd with indent := s.outer.headD (-1), outer := s.outer.drop 1 }
    else s

def unroll (s : Scanner) (column : Int) : Scanner :=
  if s.inFlow then s else unrollWith (s.outer.length + 1) column s

/-- Opens a block if the column is beyond the current one. -/
def roll (s : Scanner) (column number : Nat) (t : Token) : Scanner :=
  if s.inFlow then s
  else if s.indent < column then { s.insert number t with indent := column, outer := s.indent :: s.outer }
  else s

/-- Gives up the latest possible key, which must not have been a required one. -/
def dropKey (s : Scanner) : Option Scanner :=
  let k := s.currentKey
  if !k.isPossible then some s
  else if k.isRequired then none
  else some ((s.setKeyAt s.depth { k with isPossible := false }).forget k.number)

/-- Notes that a key may start here. -/
def saveKey (s : Scanner) : Option Scanner := do
  if s.keyAllowed then
    let required := !s.inFlow && s.indent == s.cursor.column
    let k := { s.noKey with isPossible := true, isRequired := required }
    let s ← s.dropKey
    return { s.setKeyAt s.depth k with waiting := (k.number, s.depth) :: s.waiting }
  else return s

/-- Whether the possible key at a depth can still be one: it is short and on one line. If it cannot, it is given up. -/
def keyHolds (s : Scanner) (depth : Nat) : Option (Bool × Scanner) :=
  match s.keyAt? depth with
  | none => some (false, s)
  | some k =>
    if !k.isPossible then some (false, s)
    else if k.line < s.cursor.line || k.index + 1024 < s.cursor.index then
      if k.isRequired then none else some (false, s.setKeyAt depth { k with isPossible := false })
    else some (true, s)

/-- The start of a comment after blanks and line breaks. -/
def commentAhead? (c : Cursor) : Nat → Option Cursor
  | 0 => none
  | fuel + 1 =>
    match c.peek 0 with
    | none => none
    | some ch =>
      if ch == '#' then some c
      else if isBlank ch then commentAhead? c.skip fuel
      else if isBreak ch then commentAhead? c.skipLine fuel
      else none

/-- Steps over a comment and those on the next lines, up to the end of the last. -/
def skipCommentsWith : Nat → Cursor → Cursor
  | 0, c => c
  | fuel + 1, c =>
    let c := c.skipToBreak
    match commentAhead? c (c.rest.length + 1) with
    | none => c
    | some c => skipCommentsWith fuel c

def skipComments (c : Cursor) : Cursor := skipCommentsWith (c.rest.length + 1) c

/-- Steps to the next token, over blanks, comments and line breaks. Tabs do not indent. -/
def skipGapWith : Nat → Scanner → Scanner
  | 0, s => s
  | fuel + 1, s =>
    match s.cursor.peek 0 with
    | none => s
    | some ch =>
      if ch == ' ' || (ch == '\t' && (s.inFlow || !s.keyAllowed)) || (s.cursor.column == 0 && isByteOrderMark ch) then
        skipGapWith fuel { s with cursor := s.cursor.skip }
      else if ch == '#' then skipGapWith fuel { s with cursor := skipComments s.cursor }
      else if isBreak ch then
        skipGapWith fuel { s with cursor := s.cursor.skipLine, keyAllowed := s.keyAllowed || !s.inFlow }
      else s

def skipGap (s : Scanner) : Scanner := skipGapWith (s.cursor.rest.length + 1) s

/-- Steps over a comment on the line of the token before it. -/
def skipLineComment (s : Scanner) : Scanner :=
  let c := s.cursor.skipBlanks
  if c.isAt '#' then { s with cursor := c.skipToBreak } else s

/-- A token of `n` characters, after which a key may start or not. -/
def take (s : Scanner) (n : Nat) (t : Token) (keyAllowed : Bool) : Scanner :=
  { s.push t with cursor := s.cursor.skipMany n, keyAllowed := keyAllowed }

/-- At the end of the text all blocks are closed. -/
def finish (s : Scanner) : Option Scanner := do
  let s ← (s.unroll (-1)).dropKey
  return { s.push .streamEnd with keyAllowed := false }

def document (s : Scanner) (t : Token) : Option Scanner := do
  let s ← (s.unroll (-1)).dropKey
  return s.take 3 t false

def openFlow (s : Scanner) (t : Token) : Option Scanner := do
  let s ← s.saveKey
  return { s.take 1 t true with keys := s.noKey :: s.keys }

/-- Closes a flow collection. It is no longer waited for if no key could have started in it. -/
def closeFlow (s : Scanner) (t : Token) : Option Scanner := do
  let s ← s.dropKey
  let s := if s.inFlow then { s.forget s.currentKey.number with keys := s.keys.drop 1 } else s
  return s.take 1 t false

def nextEntry (s : Scanner) : Option Scanner := do return (← s.dropKey).take 1 .flowEntry true

def blockEntry (s : Scanner) : Option Scanner := do
  if !s.inFlow && !s.keyAllowed then none
  else
    let s := s.roll s.cursor.column s.nextNumber .sequenceStart
    return (← s.dropKey).take 1 .entry true

def complexKey (s : Scanner) : Option Scanner := do
  if !s.inFlow && !s.keyAllowed then none
  else
    let s := s.roll s.cursor.column s.nextNumber .mappingStart
    return (← s.dropKey).take 1 .key (!s.inFlow)

/-- A colon: what was read since the latest possible key is one. Without such a key, a block must allow one here. -/
def colon (s : Scanner) : Option Scanner := do
  let (holds, s) ← s.keyHolds s.depth
  if holds then
    let k := s.currentKey
    let s := (s.insert k.number .key).roll k.column k.number .mappingStart
    return ((s.setKeyAt s.depth { k with isPossible := false }).forget k.number).take 1 .value false
  else if s.inFlow then return s.take 1 .value false
  else if !s.keyAllowed then none
  else return (s.roll s.cursor.column s.nextNumber .mappingStart).take 1 .value true

/-- Whether an anchor's name may end before what follows. -/
def nameEnds (c : Cursor) : Bool :=
  c.gapAt 0 || (c.peek 0).any fun ch =>
    ch == '?' || ch == ':' || ch == ',' || ch == ']' || ch == Char.ofNat 0x7d || ch == '%' || ch == '@' || ch.toNat == 0x60

/-- The name of an anchor or of its use. -/
def name (s : Scanner) (t : String → Token) : Option Scanner := do
  let s ← s.saveKey
  let word := (s.cursor.rest.drop 1).takeWhile isNameChar
  let s := s.take (word.length + 1) (t (String.ofList word)) false
  if word.isEmpty || !nameEnds s.cursor then none else return s

def tag (s : Scanner) : Option Scanner := do
  let s ← s.saveKey
  let (handle, suffix, c) ← tag? s.cursor
  return { s.push (.tag handle suffix) with cursor := c, keyAllowed := false }

def blockScalar (s : Scanner) (literal : Bool) : Option Scanner := do
  let s ← s.dropKey
  let (text, c) ← block? literal s.indent s.cursor
  return { s.push (.scalar false text) with cursor := c, keyAllowed := true }

def quotedScalar (s : Scanner) : Option Scanner := do
  let s ← s.saveKey
  let (text, c) ← quoted? s.cursor
  return { s.push (.scalar false text) with cursor := c, keyAllowed := false }

def plainScalar (s : Scanner) : Option Scanner := do
  let s ← s.saveKey
  let (text, endsLine, c) ← plain? s.inFlow (s.indent + 1) s.cursor
  return { s.push (.scalar true text) with cursor := c, keyAllowed := endsLine }

def directive (s : Scanner) : Option Scanner := do
  let s ← (s.unroll (-1)).dropKey
  let (d, c) ← Directive.read? s.cursor
  return { s.push (.directive d) with cursor := c, keyAllowed := false }

/-- Whether a plain scalar may start with the character here. -/
def startsPlain (s : Scanner) (ch : Char) : Bool :=
  let special := isFlowMark ch || ch == '-' || ch == '?' || ch == ':' || ch == '#' || ch == '&' || ch == '*' || ch == '!'
    || ch == '|' || ch == '>' || ch == '\'' || ch == '"' || ch == '%' || ch == '@' || ch.toNat == 0x60
  (!special && !isBlank ch) || (ch == '-' && !(s.cursor.peek 1).any isBlank)
    || (!s.inFlow && (ch == '?' || ch == ':') && !s.cursor.gapAt 1)

/-- Reads a token that is neither a directive nor a mark of a document. -/
def content (s : Scanner) (ch : Char) : Option Scanner :=
  let c := s.cursor
  if ch == '[' then s.openFlow .flowSequenceStart
  else if ch == Char.ofNat 0x7b then s.openFlow .flowMappingStart
  else if ch == ']' then s.closeFlow .flowSequenceEnd
  else if ch == Char.ofNat 0x7d then s.closeFlow .flowMappingEnd
  else if ch == ',' then s.nextEntry
  else if ch == '-' && c.gapAt 1 then s.blockEntry
  else if ch == '?' && (s.inFlow || c.gapAt 1) then s.complexKey
  else if ch == ':' && (s.inFlow || c.gapAt 1) then s.colon
  else if ch == '*' then s.name .alias
  else if ch == '&' then s.name .anchor
  else if ch == '!' then s.tag
  else if ch == '|' && !s.inFlow then s.blockScalar true
  else if ch == '>' && !s.inFlow then s.blockScalar false
  else if ch == '\'' || ch == '"' then s.quotedScalar
  else if s.startsPlain ch then s.plainScalar
  else none

/-- Reads one token and the blocks that it closes or opens. A comment on its line goes with it, unless it is the mark
of an entry. -/
def read (s : Scanner) : Option Scanner :=
  let s := s.skipGap
  let s := s.unroll s.cursor.column
  let c := s.cursor
  match c.peek 0 with
  | none => s.finish
  | some ch =>
    if c.column == 0 && ch == '%' then s.directive
    else if c.atMarker '-' then s.document .documentStart
    else if c.atMarker '.' then s.document .documentEnd
    else do
      let s ← s.content ch
      return if s.queue.getLast? = some .entry || (s.keyAllowed && c.line < s.cursor.line) then s else s.skipLineComment

/-- Reads one token, which must not reach what cannot be read. -/
def next (s : Scanner) : Option Scanner := do
  let s ← s.read
  if s.isCut && s.cursor.rest.isEmpty then none else return s

/-- Whether the first token of the queue may still turn out to be a key. -/
def headWaits (s : Scanner) : Option (Bool × Scanner) :=
  match s.waiting.find? (·.1 = s.handed) with
  | some (_, depth) => s.keyHolds depth
  | none => some (false, s)

/-- Reads until the first token of the queue is known for what it is and two more follow. -/
def fillWith : Nat → Scanner → Option Scanner
  | 0, _ => none
  | fuel + 1, s =>
    if 2 < s.queue.length then do
      let (waits, s) ← s.headWaits
      if waits then fillWith fuel (← s.next) else return s
    else do fillWith fuel (← s.next)

def fill (s : Scanner) : Option Scanner := fillWith (s.cursor.rest.length + 8) s

/-- The next token, if the text can be read so far. -/
def peek? (s : Scanner) : Option (Token × Scanner) := do
  let s ← s.fill
  return (← s.queue.head?, s)

def skip (s : Scanner) : Scanner := { s with queue := s.queue.drop 1, handed := s.handed + 1 }

end Scanner
end Rtl.Yaml
