/-!
Decimal text of binary floating-point numbers: the fewest digits that read back as the same number. A number is
written positionally when its decimal exponent lies in the format's range, and with an exponent of at least two
digits otherwise.
-/
namespace Rtl.Text

/-- A positive number `mantissa · 2 ^ (exponent - 1075)`, with the flag for the narrower gap below a power of two. -/
structure Binary where
  mantissa : Nat
  exponent : Nat
  narrow : Bool

/-- Decimal digits, most significant first, with the point `point` places to the right of the start. -/
structure Digits where
  digits : List Char
  point : Int

/-- Which decimal exponents are written positionally: `low ≤ e < high`. -/
structure FloatFormat where
  low : Int
  high : Int

/-- Numbers from `0.0001` up to but excluding `1000000` are positional. -/
def FloatFormat.plain : FloatFormat := ⟨-4, 6⟩

namespace Binary

/-- Splits the bit pattern of a finite number without its sign. -/
def ofBits (bits : Nat) : Binary :=
  let fraction := bits % Nat.pow 2 52
  let e := bits / Nat.pow 2 52 % Nat.pow 2 11
  if e = 0 then ⟨fraction, 1, false⟩ else ⟨fraction + Nat.pow 2 52, e, fraction = 0 && e != 1⟩

/-- The number as a quotient of naturals, scaled by four so that the bounds of its rounding interval are exact. -/
def scaled (b : Binary) : Nat × Nat :=
  if 1077 ≤ b.exponent then (4 * b.mantissa * Nat.pow 2 (b.exponent - 1077), 1)
  else (4 * b.mantissa, Nat.pow 2 (1077 - b.exponent))

/-- Numerators of the lower and upper end of the numbers that round to this one, over the same denominator. -/
def bounds (b : Binary) : Nat × Nat :=
  let unit := if 1077 ≤ b.exponent then Nat.pow 2 (b.exponent - 1077) else 1
  ((4 * b.mantissa - (if b.narrow then 1 else 2)) * unit, (4 * b.mantissa + 2) * unit)

/-- Places before the point of `n / d`: the least `k` with `n / d < 10 ^ k`, for positive `n`. -/
def places (n d : Nat) : Int :=
  if d ≤ n then ((Nat.toDigits 10 (n / d)).length : Int)
  else
    match (List.range 400).find? fun j => d ≤ n * Nat.pow 10 (j + 1) with
    | some j => -(j : Int)
    | none => 0

/-- The nearest multiple of `10 ^ unit` that still rounds to the number, if there is one. -/
def candidate? (b : Binary) (unit : Int) : Option Nat :=
  let (n, d) := b.scaled
  let (lo, hi) := b.bounds
  let up := Nat.pow 10 unit.toNat
  let down := Nat.pow 10 (-unit).toNat
  let inside (c : Nat) : Bool :=
    let x := c * up * d
    if b.mantissa % 2 = 0 then lo * down ≤ x && x ≤ hi * down else lo * down < x && x < hi * down
  let c := n * down / (d * up)
  let gapDown := n * down - c * up * d
  let gapUp := (c + 1) * up * d - n * down
  match inside c, inside (c + 1) with
  | true, true => if gapDown < gapUp || (gapDown = gapUp && c % 2 = 0) then some c else some (c + 1)
  | true, false => some c
  | false, true => some (c + 1)
  | false, false => none

/-- Tries one digit, then two, up to seventeen. -/
def shortest (b : Binary) : Digits :=
  let (n, d) := b.scaled
  let k := places n d
  let found := (List.range 17).findSome? fun i =>
    (b.candidate? (k - (i + 1 : Nat))).map fun c => (Nat.toDigits 10 c, k - (i + 1 : Nat))
  match found with
  | some (ds, unit) => ⟨ds, unit + ds.length⟩
  | none => ⟨['0'], 1⟩

end Binary

namespace Digits

def trimZeros (ds : List Char) : List Char := (ds.reverse.dropWhile (· == '0')).reverse

def positional (x : Digits) : String :=
  let ds := trimZeros x.digits
  if x.point ≤ 0 then
    "0." ++ String.ofList (List.replicate (-x.point).toNat '0' ++ ds)
  else
    let k := x.point.toNat
    let whole := ds.take k ++ List.replicate (k - ds.length) '0'
    let rest := ds.drop k
    String.ofList whole ++ (if rest.isEmpty then "" else "." ++ String.ofList rest)

def exponential (x : Digits) : String :=
  let ds := trimZeros x.digits
  let e := x.point - 1
  let mantissa := match ds with
    | [] => "0"
    | [c] => c.toString
    | c :: rest => c.toString ++ "." ++ String.ofList rest
  let size := toString e.natAbs
  mantissa ++ "e" ++ (if e < 0 then "-" else "+") ++ (if size.length < 2 then "0" ++ size else size)

def render (fmt : FloatFormat) (x : Digits) : String :=
  if fmt.low ≤ x.point - 1 && x.point - 1 < fmt.high then x.positional else x.exponential

end Digits

/-- Text of a finite number. -/
def floatText (x : Float) : String :=
  let bits := x.toBits.toNat
  let sign := if Nat.pow 2 63 ≤ bits then "-" else ""
  let size := bits % Nat.pow 2 63
  if size = 0 then sign ++ "0" else sign ++ (Binary.ofBits size).shortest.render FloatFormat.plain

end Rtl.Text
