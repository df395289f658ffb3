import Rtl.Text.Blank
import Rtl.Value.Operand

/-!
Switch patterns: texts of `0`, `1` and `-` (either bit), as wide as the value they are matched against, most
significant bit first. White space in a written pattern does not count, and an integer stands for its binary digits.
-/
namespace Rtl.Pattern

def isPatternChar (c : Char) : Bool := c == '0' || c == '1' || c == '-'

/-- The canonical form of a written pattern for a value of the given width. -/
def ofText (p : String) (width : Int) : Except DesignError String :=
  let s := Text.dropBlanks p
  if !s.toList.all isPatternChar then .error (.grammar (.patternBits p))
  else if (s.utf8ByteSize : Int) ≠ width then .error (.grammar (.patternWidth p width))
  else .ok s

/-- Binary digits of `n`, none for zero, padded with zeros to `width`. -/
def digits (n : Nat) (width : Int) : String :=
  let ds := if n = 0 then [] else Nat.toDigits 2 n
  String.ofList (List.replicate (width.toNat - ds.length) '0' ++ ds)

/-- The pattern of an integer: negative ones are taken modulo `2 ^ width`, others must fit. -/
def ofInt? (v width : Int) : Option String :=
  if v < 0 then some (digits ((Shape.unsigned width).normalize v).toNat width)
  else if v ≠ 0 && width < bitsFor v false then none
  else some (digits v.toNat width)

/-- Integers as patterns are written with one of these types. -/
def isPatternType : IntType → Bool
  | .int | .int64 | .uint | .big => true
  | _ => false

/-- The canonical form of a pattern given as an operand; `none` for an integer that is too wide. No word holds a
negative integer wrapped to a negative width. -/
def normalize (p : Operand) (width : Int) : Except Failure (Option String) :=
  match p with
  | .text s => (ofText s width).map some |>.mapError Failure.design
  | .int t n =>
    if isPatternType t then
      if n < 0 && width < 0 then .error .fault else .ok (ofInt? n width)
    else .error (.design (.grammar (.patternType t.name)))
  | o => .error (.design (.grammar (.patternType o.typeName)))

/-- The pattern of a 64-bit integer, which must fit. -/
def ofKey (key width : Int) : Except Failure String :=
  match normalize (.int .int64 key) width with
  | .error e => .error e
  | .ok none => .error (.design (.shape (.widePattern key width)))
  | .ok (some p) => .ok p

def byteLength : List Char → Nat
  | [] => 0
  | c :: cs => c.utf8Size + byteLength cs

/-- The bits a pattern cares about. -/
def maskOf : List Char → Nat
  | [] => 0
  | c :: cs => (if c = '0' ∨ c = '1' then Nat.pow 2 (byteLength cs) else 0) + maskOf cs

/-- The bits a pattern wants set. -/
def valueOf : List Char → Nat
  | [] => 0
  | c :: cs => (if c = '1' then Nat.pow 2 (byteLength cs) else 0) + valueOf cs

/-- Whether the bits of `v`, in two's complement, match a pattern. -/
def isMatch (p : String) (v : Int) : Bool :=
  (v % Nat.pow 2 (byteLength p.toList)).toNat &&& maskOf p.toList = valueOf p.toList

end Rtl.Pattern
