import Rtl.Text.Decimal
import Rtl.Value.Basic

/-!
Operands as a caller writes them: hardware values, and literals that stand for constants. Some literals (floating
point, text, nothing at all) stand for no constant; they are refused by the type they were written with.
-/
namespace Rtl

/-- The written type of an integer literal. -/
inductive IntType where
  | int
  | int8
  | int16
  | int32
  | int64
  | uint
  | uint8
  | uint16
  | uint32
  | uint64
  | big
  deriving DecidableEq, Repr

namespace IntType

def name : IntType → String
  | .int => "int"
  | .int8 => "int8"
  | .int16 => "int16"
  | .int32 => "int32"
  | .int64 => "int64"
  | .uint => "uint"
  | .uint8 => "uint8"
  | .uint16 => "uint16"
  | .uint32 => "uint32"
  | .uint64 => "uint64"
  | .big => "*big.Int"

/-- The low bits of `n` read in the type: of its two's complement for a signed type, of its magnitude for an unsigned
one. Unbounded integers keep all of it. -/
def truncate (n : Int) : IntType → Int
  | .int | .int64 => wrap n
  | .int8 => n.bmod (Nat.pow 2 8)
  | .int16 => n.bmod (Nat.pow 2 16)
  | .int32 => n.bmod (Nat.pow 2 32)
  | .uint | .uint64 => n.natAbs % Nat.pow 2 64
  | .uint8 => n.natAbs % Nat.pow 2 8
  | .uint16 => n.natAbs % Nat.pow 2 16
  | .uint32 => n.natAbs % Nat.pow 2 32
  | .big => n

end IntType

inductive Operand where
  | value (v : Value)
  | flag (b : Bool)
  | int (type : IntType) (n : Int)
  | float (x : Float)
  | text (s : String)
  | absent
  deriving Inhabited

namespace Value

def kind : Value → String
  | .const _ _ => "Const"
  | .net (.signal _) => "Signal"
  | .net (.clock _) => "ClockSignal"
  | .net (.reset _ _) => "ResetSignal"
  | .unary _ _ _ | .binary _ _ _ _ | .mux _ _ _ _ => "Operator"
  | .slice _ _ _ => "Slice"
  | .part _ _ _ _ => "Part"
  | .cat _ => "CatValue"
  | .repl _ _ => "ReplValue"
  | .proxy _ _ => "ArrayProxy"
  | .sample _ _ _ => "Sample"
  | .initial => "Initial"

/-- A constant of the smallest shape that holds `n`. -/
def ofInt (n : Int) : Value := .const ((Shape.ofInt n).normalize n) (Shape.ofInt n)

def ofBool (b : Bool) : Value := .const (if b then 1 else 0) (.unsigned 1)

/-- A constant of a given shape. Values out of range are wrapped; negative ones need a signed shape. -/
def ofIntShape (n : Int) (s : Shape) : Except DesignError Value :=
  if s.width < 0 then .error (.shape (.negativeWidth s.width))
  else if n < 0 && !s.isSigned then .error (.shape (.negativeConstant n s))
  else .ok (.const (s.normalize n) s)

end Value

namespace Operand

def typeName : Operand → String
  | .value v => "*ast." ++ v.kind
  | .flag _ => "bool"
  | .int t _ => t.name
  | .float _ => "float64"
  | .text _ => "string"
  | .absent => "<nil>"

def cast : Operand → Except DesignError Value
  | .value v => .ok v
  | .flag b => .ok (.ofBool b)
  | .int _ n => .ok (.ofInt n)
  | .float x => .error (.shape (.notConvertible (Text.floatText x) "float64"))
  | .text s => .error (.shape (.notConvertible s "string"))
  | .absent => .error (.shape (.notConvertible "<nil>" "<nil>"))

/-- Casts operands from left to right. -/
def castAll : List Operand → Except DesignError (List Value)
  | [] => .ok []
  | o :: rest => do
    let v ← o.cast
    let vs ← castAll rest
    return v :: vs

end Operand
end Rtl
