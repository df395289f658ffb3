/-!
Shapes of hardware values: a width in bits and a signedness. A width is a 64-bit two's complement word, so sums and
products of widths wrap; `wrap` marks every place where they may.
-/
namespace Rtl

/-- The 64-bit two's complement word congruent to `n`. -/
def wrap (n : Int) : Int := n.bmod (Nat.pow 2 64)

structure Shape where
  width : Int
  isSigned : Bool
  deriving DecidableEq, Repr, Inhabited

/-- Number of binary digits; zero has none. -/
def bitLength (n : Nat) : Nat := if n = 0 then 0 else n.log2 + 1

/-- Bits that hold `n`, with a sign bit when `n` is not positive or `sign` asks for one. -/
def bitsFor (n : Int) (sign : Bool) : Nat :=
  if 0 < n then bitLength n.toNat + (if sign then 1 else 0)
  else bitLength (-n - 1).toNat + 1

/-- The ceiling of the binary logarithm of a 64-bit word; on words below one, of the distance to one. -/
def log2Ceil (n : Int) : Nat := if n = 0 then 0 else bitLength (wrap (n - 1)).natAbs

/-- Whether the 64-bit word `n` is `2 ^ log2Ceil n`, a shift past the word giving zero. -/
def isPowerOfTwo (n : Int) : Bool :=
  n = 0 || (if 64 ≤ log2Ceil n then 0 else wrap (Nat.pow 2 (log2Ceil n))) = n

namespace Shape

def unsigned (width : Int) : Shape := ⟨width, false⟩

def signed (width : Int) : Shape := ⟨width, true⟩

def text (s : Shape) : String :=
  (if s.isSigned then "signed(" else "unsigned(") ++ toString s.width ++ ")"

/-- The smallest shape of a constant: signed exactly for negative values. -/
def ofInt (v : Int) : Shape := ⟨bitsFor v false, v < 0⟩

/-- Wraps `v` into the two's complement range of the shape. -/
def normalize (s : Shape) (v : Int) : Int :=
  if s.isSigned then v.bmod (Nat.pow 2 s.width.toNat) else v % Nat.pow 2 s.width.toNat

/-- The two's complement promotion of two operands: an unsigned operand beside a signed one gains a bit. -/
def promote (a b : Shape) : Shape :=
  match a.isSigned, b.isSigned with
  | false, false => unsigned (max a.width b.width)
  | true, true => signed (max a.width b.width)
  | true, false => signed (max a.width (wrap (b.width + 1)))
  | false, true => signed (max (wrap (a.width + 1)) b.width)

def totalWidth : List Shape → Int
  | [] => 0
  | s :: rest => wrap (s.width + totalWidth rest)

/-- Greatest width among the shapes of one signedness; zero when there is none. -/
def widest (isSigned : Bool) : List Shape → Int
  | [] => 0
  | s :: rest => if s.isSigned = isSigned then max s.width (widest isSigned rest) else widest isSigned rest

/-- The shape that can hold any one of several elements: unsigned elements beside signed ones gain a bit. -/
def join (shapes : List Shape) : Shape :=
  let anySigned := shapes.any (·.isSigned)
  let anyUnsigned := shapes.any (!·.isSigned)
  let u := widest false shapes
  let s := widest true shapes
  if anySigned && anyUnsigned && s ≤ u then signed (wrap (u + 1)) else ⟨max u s, anySigned⟩

end Shape
end Rtl
