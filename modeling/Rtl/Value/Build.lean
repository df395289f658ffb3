import Rtl.Pattern

/-!
Building values. Each function checks its operands in a fixed order and reports the first fault; shapes of operators
are settled here.
-/
namespace Rtl.Value

def mkUnary (σ : Arenas) (op : UnaryOp) (a : Value) : Value := .unary op a (op.shape (a.shape σ))

/-- Fails only for a shift whose amount is too wide. -/
def mkBinary (σ : Arenas) (op : BinaryOp) (a b : Value) : Except DesignError Value :=
  match op.shape? (a.shape σ) (b.shape σ) with
  | some s => .ok (.binary op a b s)
  | none => .error (.shape (.shiftTooWide (b.width σ)))

def mkMux (σ : Arenas) (sel a b : Value) : Value := .mux sel a b ((a.shape σ).promote (b.shape σ))

/-- Applies the operator with the given symbol. The symbol is checked first, then the number of operands, then each
operand from left to right. -/
def operator (σ : Arenas) (symbol : String) (args : List Operand) : Except DesignError Value :=
  if !isOperatorSymbol symbol then .error (.shape (.unknownOperator symbol))
  else match args with
    | [a] =>
      match UnaryOp.ofSymbol? symbol with
      | none => .error (.shape (.operatorArity symbol 1))
      | some op => do return mkUnary σ op (← a.cast)
    | [a, b] =>
      match BinaryOp.ofSymbol? symbol with
      | none => .error (.shape (.operatorArity symbol 2))
      | some op => do
        let a ← a.cast
        let b ← b.cast
        mkBinary σ op a b
    | [s, a, b] =>
      if symbol == muxSymbol then do
        let s ← s.cast
        let a ← a.cast
        let b ← b.cast
        return mkMux σ s a b
      else .error (.shape (.operatorArity symbol 3))
    | _ => .error (.shape (.operandCount symbol args.length))

/-- One bit: whether any bit is set, unless the value is a single bit already. -/
def asBit (σ : Arenas) (v : Value) : Value := if v.width σ = 1 then v else mkUnary σ .bool v

/-- Chooses between two values. The condition is cast and reduced to a bit before the others are looked at. -/
def choose (σ : Arenas) (sel a b : Operand) : Except DesignError Value := do
  let s ← sel.cast
  let s := asBit σ s
  let a ← a.cast
  let b ← b.cast
  return mkMux σ s a b

/-- The bits `[start, stop)`, which must exist. -/
def mkSlice (σ : Arenas) (v : Value) (start stop : Int) : Except DesignError Value :=
  let n := v.width σ
  if start < 0 || n < start then .error (.shape (.sliceStart start n))
  else if stop < start || n < stop then .error (.shape (.sliceEnd stop start n))
  else .ok (.slice v start stop)

/-- A single bit; a negative index counts from the end. -/
def bit (σ : Arenas) (v : Value) (i : Int) : Except DesignError Value :=
  let n := v.width σ
  if i < wrap (-n) || n ≤ i then .error (.shape (.bitIndex i n))
  else
    let i := if i < 0 then wrap (i + n) else i
    mkSlice σ v i (wrap (i + 1))

/-- A bit range; negative bounds count from the end. -/
def range (σ : Arenas) (v : Value) (start stop : Int) : Except DesignError Value :=
  let n := v.width σ
  mkSlice σ v (if start < 0 then wrap (start + n) else start) (if stop < 0 then wrap (stop + n) else stop)

/-- The bits of `[start, stop)` that exist. -/
def clampedSlice (σ : Arenas) (v : Value) (start stop : Int) : Except DesignError Value :=
  let n := v.width σ
  let start := min (max start 0) n
  let stop := min (max stop start) n
  mkSlice σ v start stop

/-- `width` bits from bit `offset * stride` on, the offset being an unsigned value. -/
def mkPart (σ : Arenas) (v offset : Value) (width stride : Int) : Except DesignError Value :=
  if width < 0 then .error (.shape (.partWidth width))
  else if stride ≤ 0 then .error (.shape (.partStride stride))
  else if (offset.shape σ).isSigned then .error (.shape .partOffsetSigned)
  else .ok (.part v offset width stride)

/-- The value of a constant that fits a 64-bit word. -/
def word? : Value → Option Int
  | .const n _ => if wrap n = n then some n else none
  | _ => none

/-- `width` bits from bit `offset` on. A constant offset selects the bits that exist. -/
def bitSelect (σ : Arenas) (v : Value) (offset : Operand) (width : Int) : Except DesignError Value := do
  let off ← offset.cast
  match off.word? with
  | some c => clampedSlice σ v c (wrap (c + width))
  | none => mkPart σ v off width 1

/-- The word of `width` bits at index `offset`. A constant offset selects the bits that exist. -/
def wordSelect (σ : Arenas) (v : Value) (offset : Operand) (width : Int) : Except DesignError Value := do
  let off ← offset.cast
  match off.word? with
  | some c =>
    let start := wrap (c * width)
    clampedSlice σ v start (wrap (start + width))
  | none => mkPart σ v off width width

/-- The count is checked before the operand. -/
def mkRepl (v : Operand) (count : Int) : Except DesignError Value :=
  if count < 0 then .error (.shape (.repetition count))
  else do return .repl (← v.cast) count

def mkCat (parts : List Operand) : Except DesignError Value := do
  return .cat (← Operand.castAll parts)

def mkClock (domain : String) : Except DesignError Value :=
  if domain = combDomain then .error (.domain .combClock) else .ok (.net (.clock domain))

def mkReset (domain : String) (allowResetless : Bool) : Except DesignError Value :=
  if domain = combDomain then .error (.domain .combReset) else .ok (.net (.reset domain allowResetless))

/-- Nets, constants and the first-cycle flag can be sampled. -/
def isSampled : Value → Bool
  | .const _ _ | .net _ | .initial => true
  | _ => false

def mkSample (σ : Arenas) (v : Value) (clocks : Int) (domain : String) : Except DesignError Value :=
  if !v.isSampled then .error (.shape (.notSampled (v.text σ)))
  else if clocks < 0 then .error (.shape (.futureSample (wrap (-clocks))))
  else if domain = combDomain then .error (.domain .combSample)
  else .ok (.sample v clocks domain)

def past (σ : Arenas) (x : Operand) (clocks : Int) (domain : String) : Except DesignError Value := do
  mkSample σ (← x.cast) clocks domain

/-- Whether the value did not change in the last sampled cycle. -/
def stable (σ : Arenas) (x : Operand) (clocks : Int) (domain : String) : Except DesignError Value := do
  let before ← past σ x (wrap (clocks + 1)) domain
  let now ← past σ x clocks domain
  mkBinary σ .eq before now

def rose (σ : Arenas) (x : Operand) (clocks : Int) (domain : String) : Except DesignError Value := do
  let before ← past σ x (wrap (clocks + 1)) domain
  let now ← past σ x clocks domain
  mkBinary σ .and (mkUnary σ .invert before) now

def fell (σ : Arenas) (x : Operand) (clocks : Int) (domain : String) : Except DesignError Value := do
  let before ← past σ x (wrap (clocks + 1)) domain
  let now ← past σ x clocks domain
  mkBinary σ .and before (mkUnary σ .invert now)

/-- The element of an array at an index known at run time. -/
def mkProxy (elems : List Value) (index : Operand) : Except DesignError Value :=
  if elems.isEmpty then .error (.shape .emptyArray)
  else do return .proxy elems (← index.cast)

/-- What an array holds at an index: an element of it, or a value that selects one at run time. -/
inductive Element where
  | entry (position : Nat)
  | proxy (v : Value)

/-- Looks an index up in an array. A constant that fits a word must be in range. -/
def element (elems : List Value) (index : Operand) : Except DesignError Element := do
  let i ← index.cast
  match i.word? with
  | some c =>
    if c < 0 || (elems.length : Int) ≤ c then .error (.shape (.arrayIndex c elems.length))
    else return .entry c.toNat
  | none => return .proxy (← mkProxy elems (.value i))

/-- The test of one canonical pattern; a pattern that cares about no bit is always matched. -/
def matchTerm (σ : Arenas) (v : Value) (pattern : String) : Except DesignError Value := do
  let width := v.width σ
  let mask := Pattern.maskOf pattern.toList
  if mask = 0 then ofIntShape 1 (.unsigned 1)
  else
    let masked ← mkBinary σ .and v (← ofIntShape mask (.unsigned width))
    mkBinary σ .eq masked (← ofIntShape (Pattern.valueOf pattern.toList) (.unsigned width))

/-- The tests of the patterns that fit, in order. -/
def matchTerms (σ : Arenas) (v : Value) : List Operand → Except Failure (List Value)
  | [] => .ok []
  | p :: rest => do
    match ← Pattern.normalize p (v.width σ) with
    | none => matchTerms σ v rest
    | some pattern =>
      let term ← (matchTerm σ v pattern).mapError Failure.design
      let terms ← matchTerms σ v rest
      return term :: terms

/-- A bit that is set when the value matches one of the patterns. -/
def matchAny (σ : Arenas) (v : Value) (patterns : List Operand) : Except Failure Value := do
  match ← matchTerms σ v patterns with
  | [] => return .const 0 (.unsigned 1)
  | [t] => return t
  | ts => return mkUnary σ .any (.cat ts)

end Rtl.Value
