import Rtl.Shape

/-!
Operators on hardware values, with the symbol each is written by and the shape each gives its result. Shifts by more
than 30 bits' worth of amount have no shape.
-/
namespace Rtl

inductive UnaryOp where
  | plus
  | minus
  | invert
  | bool
  | any
  | all
  | parity
  | asUnsigned
  | asSigned
  deriving DecidableEq, Repr

inductive BinaryOp where
  | add
  | sub
  | mul
  | floorDiv
  | mod
  | and
  | or
  | xor
  | shl
  | shr
  | eq
  | ne
  | lt
  | le
  | gt
  | ge
  deriving DecidableEq, Repr

namespace UnaryOp

def symbol : UnaryOp → String
  | .plus => "+"
  | .minus => "-"
  | .invert => "~"
  | .bool => "b"
  | .any => "r|"
  | .all => "r&"
  | .parity => "r^"
  | .asUnsigned => "u"
  | .asSigned => "s"

def ofSymbol? : String → Option UnaryOp
  | "+" => some .plus
  | "-" => some .minus
  | "~" => some .invert
  | "b" => some .bool
  | "r|" => some .any
  | "r&" => some .all
  | "r^" => some .parity
  | "u" => some .asUnsigned
  | "s" => some .asSigned
  | _ => none

/-- Negation of an unsigned operand gains a sign bit. -/
def shape (a : Shape) : UnaryOp → Shape
  | .plus | .invert => a
  | .minus => if a.isSigned then a else .signed (wrap (a.width + 1))
  | .bool | .any | .all | .parity => .unsigned 1
  | .asUnsigned => .unsigned a.width
  | .asSigned => .signed a.width

end UnaryOp

/-- The width a shift amount counts with: without the sign bit. -/
def shiftBits (b : Shape) : Int := if b.isSigned then wrap (b.width - 1) else b.width

/-- Widest amount a shift accepts, in bits. -/
def maxShiftBits : Int := 30

namespace BinaryOp

def symbol : BinaryOp → String
  | .add => "+"
  | .sub => "-"
  | .mul => "*"
  | .floorDiv => "//"
  | .mod => "%"
  | .and => "&"
  | .or => "|"
  | .xor => "^"
  | .shl => "<<"
  | .shr => ">>"
  | .eq => "=="
  | .ne => "!="
  | .lt => "<"
  | .le => "<="
  | .gt => ">"
  | .ge => ">="

def ofSymbol? : String → Option BinaryOp
  | "+" => some .add
  | "-" => some .sub
  | "*" => some .mul
  | "//" => some .floorDiv
  | "%" => some .mod
  | "&" => some .and
  | "|" => some .or
  | "^" => some .xor
  | "<<" => some .shl
  | ">>" => some .shr
  | "==" => some .eq
  | "!=" => some .ne
  | "<" => some .lt
  | "<=" => some .le
  | ">" => some .gt
  | ">=" => some .ge
  | _ => none

/-- The shape of a result, or `none` when the shift amount `b` is too wide. A right shift by a signed amount may
shift left, so it reserves as many bits as the most negative amount. -/
def shape? (a b : Shape) : BinaryOp → Option Shape
  | .add | .sub =>
    let s := a.promote b
    some ⟨wrap (s.width + 1), s.isSigned⟩
  | .mul =>
    match a.isSigned, b.isSigned with
    | false, false => some (.unsigned (wrap (a.width + b.width)))
    | true, true => some (.signed (wrap (a.width + b.width - 1)))
    | _, _ => some (.signed (wrap (a.width + b.width)))
  | .floorDiv =>
    if a.isSigned || b.isSigned then some (.signed (wrap (a.width + 1))) else some (.unsigned a.width)
  | .mod => some a
  | .eq | .ne | .lt | .le | .gt | .ge => some (.unsigned 1)
  | .and | .or | .xor => some (a.promote b)
  | .shl =>
    if maxShiftBits < shiftBits b then none
    else some ⟨wrap (a.width + Nat.pow 2 (shiftBits b).toNat - 1), a.isSigned⟩
  | .shr =>
    if !b.isSigned then some a
    else if maxShiftBits < shiftBits b then none
    else some ⟨wrap (a.width + Nat.pow 2 (shiftBits b).toNat), a.isSigned⟩

end BinaryOp

/-- The symbol of the three-operand selection. -/
def muxSymbol : String := "m"

def isOperatorSymbol (symbol : String) : Bool :=
  (UnaryOp.ofSymbol? symbol).isSome || (BinaryOp.ofSymbol? symbol).isSome || symbol == muxSymbol

end Rtl
