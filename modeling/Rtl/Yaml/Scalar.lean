import Rtl.Yaml.Cursor

/-!
Scalars of a YAML text: plain, quoted and block ones. A line break inside a plain or quoted scalar is folded to a
space; each further one is kept. Readers return `none` for a text that is no scalar.
-/
namespace Rtl.Yaml

/-- The text read so far, backwards, and the white space after it, which counts only if more text follows. -/
structure Folding where
  text : List Char
  blanks : List Char
  /-- The first line break of the white space; empty if it is escaped. -/
  leading : Option (List Char)
  breaks : List Char

namespace Folding

def empty : Folding := ⟨[], [], none, []⟩

/-- Blanks count until the line ends. -/
def blank (f : Folding) (ch : Char) : Folding :=
  if f.leading.isNone then { f with blanks := ch :: f.blanks } else f

def newline (f : Folding) (ch : Char) : Folding :=
  match f.leading with
  | none => { f with blanks := [], leading := some [Cursor.breakRead ch] }
  | some _ => { f with breaks := Cursor.breakRead ch :: f.breaks }

/-- The white space becomes part of the text. -/
def join (f : Folding) : Folding :=
  let text := match f.leading with
    | none => f.blanks ++ f.text
    | some ['\n'] => if f.breaks.isEmpty then ' ' :: f.text else f.breaks ++ f.text
    | some first => f.breaks ++ first ++ f.text
  ⟨text, [], none, []⟩

def add (f : Folding) (ch : Char) : Folding :=
  let f := f.join
  { f with text := ch :: f.text }

/-- A line break that leaves nothing behind. -/
def escapedNewline (f : Folding) : Folding := { f.join with leading := some [] }

def result (f : Folding) : String := String.ofList f.text.reverse

end Folding

/-- The marks that part the entries of a flow collection. -/
def isFlowMark (ch : Char) : Bool :=
  ch == ',' || ch == '[' || ch == ']' || ch == Char.ofNat 0x7b || ch == Char.ofNat 0x7d

/-- Whether a plain scalar ends before the character here. -/
def plainEnds (flow : Bool) (c : Cursor) (ch : Char) : Bool :=
  (ch == ':' && c.gapAt 1) || (flow && (isFlowMark ch || ch == '?'))

/-- The rest of a plain scalar. A line that is indented by less than `indent` ends it outside of flow collections;
`fresh` says that white space was read last. -/
def plainWith (flow : Bool) (indent : Int) : Nat → Bool → Folding → Cursor → Option (Folding × Cursor)
  | 0, _, _, _ => none
  | fuel + 1, fresh, f, c =>
    match c.peek 0 with
    | none => some (f, c)
    | some ch =>
      if isBlank ch then
        if f.leading.isSome && (c.column : Int) < indent && ch == '\t' then none
        else plainWith flow indent fuel true (f.blank ch) c.skip
      else if isBreak ch then plainWith flow indent fuel true (f.newline ch) c.skipLine
      else if fresh && ((!flow && (c.column : Int) < indent) || c.atDocument || ch == '#') then some (f, c)
      else if plainEnds flow c ch then some (f, c)
      else plainWith flow indent fuel false (f.add ch) c.skip

/-- A plain scalar, whether a line break follows it, and the place after both. -/
def plain? (flow : Bool) (indent : Int) (c : Cursor) : Option (String × Bool × Cursor) := do
  let (f, c) ← plainWith flow indent (c.rest.length + 1) false .empty c
  return (f.result, f.leading.isSome, c)

/-- The rest of a scalar in single quotes, in which a quote is written twice. -/
def singleWith : Nat → Folding → Cursor → Option (String × Cursor)
  | 0, _, _ => none
  | fuel + 1, f, c =>
    match c.peek 0 with
    | none => none
    | some ch =>
      if c.atDocument then none
      else if isBlank ch then singleWith fuel (f.blank ch) c.skip
      else if isBreak ch then singleWith fuel (f.newline ch) c.skipLine
      else if ch == '\'' then
        if c.peek 1 == some '\'' then singleWith fuel (f.add ch) c.skip.skip
        else some (f.join.result, c.skip)
      else singleWith fuel (f.add ch) c.skip

/-- The character of an escape without a number. -/
def escape? : Char → Option Nat
  | '0' => some 0
  | 'a' => some 7
  | 'b' => some 8
  | 't' => some 9
  | '\t' => some 9
  | 'n' => some 10
  | 'v' => some 11
  | 'f' => some 12
  | 'r' => some 13
  | 'e' => some 0x1b
  | ' ' => some 0x20
  | '"' => some 0x22
  | '\'' => some 0x27
  | '\\' => some 0x5c
  | 'N' => some 0x85
  | '_' => some 0xa0
  | 'L' => some 0x2028
  | 'P' => some 0x2029
  | _ => none

/-- How many digits follow the letter of an escape with a number. -/
def escapeDigits : Char → Nat
  | 'x' => 2
  | 'u' => 4
  | 'U' => 8
  | _ => 0

def hexDigit? (c : Char) : Option Nat :=
  if c.isDigit then some (c.toNat - '0'.toNat)
  else if 'a' ≤ c && c ≤ 'f' then some (c.toNat - 'a'.toNat + 10)
  else if 'A' ≤ c && c ≤ 'F' then some (c.toNat - 'A'.toNat + 10)
  else none

def hexNumber? (n : Nat) (cs : List Char) : Option Nat :=
  if cs.length < n then none
  else (cs.take n).foldlM (fun acc c => (hexDigit? c).map (acc * 16 + ·)) 0

/-- The character after a backslash, and the place after it. -/
def escaped? (c : Cursor) : Option (Char × Cursor) := do
  let letter ← c.peek 0
  let digits := escapeDigits letter
  if digits = 0 then return (Char.ofNat (← escape? letter), c.skip)
  else
    let n ← hexNumber? digits (c.rest.drop 1)
    if (0xd800 ≤ n && n ≤ 0xdfff) || 0x10ffff < n then none
    else return (Char.ofNat n, c.skipMany (digits + 1))

def doubleWith : Nat → Folding → Cursor → Option (String × Cursor)
  | 0, _, _ => none
  | fuel + 1, f, c =>
    match c.peek 0 with
    | none => none
    | some ch =>
      if c.atDocument then none
      else if isBlank ch then doubleWith fuel (f.blank ch) c.skip
      else if isBreak ch then doubleWith fuel (f.newline ch) c.skipLine
      else if ch == '"' then some (f.join.result, c.skip)
      else if ch == '\\' then
        if (c.peek 1).any isBreak then doubleWith fuel f.escapedNewline c.skip.skipLine
        else
          match escaped? c.skip with
          | none => none
          | some (e, c) => doubleWith fuel (f.add e) c
      else doubleWith fuel (f.add ch) c.skip

def quoted? (c : Cursor) : Option (String × Cursor) :=
  if c.isAt '"' then doubleWith (c.rest.length + 1) .empty c.skip
  else singleWith (c.rest.length + 1) .empty c.skip

/-- What becomes of the line breaks at the end of a block scalar. -/
inductive Chomping where
  | strip
  | clip
  | keep
  deriving DecidableEq

/-- The indentation and empty lines before the next line of a block scalar. An indentation of zero is still to be
found: it is that of the deepest line. -/
def blockBreaksWith (indent : Nat) : Nat → Nat → List Char → Cursor → Option (Nat × List Char × Cursor)
  | 0, _, _, _ => none
  | fuel + 1, deepest, breaks, c =>
    let inside := indent = 0 || c.column < indent
    if inside && c.isAt ' ' then blockBreaksWith indent fuel deepest breaks c.skip
    else
      let deepest := max deepest c.column
      if inside && c.isAt '\t' then none
      else match c.peek 0 with
        | some ch =>
          if isBreak ch then blockBreaksWith indent fuel deepest (Cursor.breakRead ch :: breaks) c.skipLine
          else some (deepest, breaks, c)
        | none => some (deepest, breaks, c)

/-- The lines of a block scalar, all indented by `indent`. Folded ones are joined, unless one of two starts with a
blank. `leading` and `breaks` are the line breaks after the lines read so far. -/
def blockLinesWith (literal : Bool) (indent : Nat) :
    Nat → Bool → List Char → List Char → List Char → Cursor → Option (List Char × List Char × List Char × Cursor)
  | 0, _, _, _, _, _ => none
  | fuel + 1, leadingBlank, text, leading, breaks, c =>
    match c.peek 0 with
    | none => some (text, leading, breaks, c)
    | some ch =>
      if c.column != indent then some (text, leading, breaks, c)
      else
        let blank := isBlank ch
        let text :=
          if !literal && !leadingBlank && !blank && leading == ['\n'] then
            if breaks.isEmpty then ' ' :: text else text
          else leading ++ text
        let text := breaks ++ text
        let line := c.rest.takeWhile fun ch => !isBreak ch
        let c := c.skipToBreak
        let text := line.reverse ++ text
        let (leading, c) := match c.peek 0 with
          | some b => ([Cursor.breakRead b], c.skipLine)
          | none => ([], c)
        match blockBreaksWith indent (c.rest.length + 1) 0 [] c with
        | none => none
        | some (_, breaks, c) => blockLinesWith literal indent fuel blank text leading breaks c

/-- The header of a block scalar: how its end is chomped and how far it is indented, in any order. -/
def blockHeader? (c : Cursor) : Option (Chomping × Nat × Cursor) :=
  let chomp (c : Cursor) : Option (Chomping × Cursor) :=
    if c.isAt '+' then some (.keep, c.skip) else if c.isAt '-' then some (.strip, c.skip) else none
  let depth (c : Cursor) : Option (Option (Nat × Cursor)) :=
    match c.peek 0 with
    | some ch => if ch.isDigit then
        if ch == '0' then none else some (some (ch.toNat - '0'.toNat, c.skip))
      else some none
    | none => some none
  match chomp c with
  | some (k, c) => do
    match ← depth c with
    | some (n, c) => return (k, n, c)
    | none => return (k, 0, c)
  | none => do
    match ← depth c with
    | some (n, c) =>
      match chomp c with
      | some (k, c) => return (k, n, c)
      | none => return (.clip, n, c)
    | none => return (.clip, 0, c)

/-- A block scalar, at its mark, inside a block indented by `parent`. -/
def block? (literal : Bool) (parent : Int) (c : Cursor) : Option (String × Cursor) := do
  let (chomping, depth, c) ← blockHeader? c.skip
  let c := c.skipBlanks
  let c := if c.isAt '#' then c.skipToBreak else c
  if !c.endsLine 0 then none
  else
    let c := if c.rest.isEmpty then c else c.skipLine
    let given := if depth = 0 then 0 else if 0 ≤ parent then parent.toNat + depth else depth
    let (deepest, breaks, c) ← blockBreaksWith given (c.rest.length + 1) 0 [] c
    let indent := if given = 0 then max (max deepest (parent + 1).toNat) 1 else given
    let (text, leading, breaks, c) ← blockLinesWith literal indent (c.rest.length + 1) false [] [] breaks c
    let text := if chomping = .strip then text else leading ++ text
    let text := if chomping = .keep then breaks ++ text else text
    return (String.ofList text.reverse, c)

end Rtl.Yaml
