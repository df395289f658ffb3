import Rtl.Net
import Rtl.Value.Operator

/-!
Hardware values: constants, nets, and expressions over them. An operator carries the shape it was given when it was
built; every other value takes its shape from its parts as they are now.
-/
namespace Rtl

inductive Value where
  | const (value : Int) (shape : Shape)
  | net (n : Net)
  | unary (op : UnaryOp) (a : Value) (shape : Shape)
  | binary (op : BinaryOp) (a b : Value) (shape : Shape)
  /-- The second operand where the first is true, the third elsewhere. -/
  | mux (sel a b : Value) (shape : Shape)
  /-- The bits from `start` up to but excluding `stop`. -/
  | slice (v : Value) (start stop : Int)
  /-- `width` bits from bit `offset * stride` on. -/
  | part (v offset : Value) (width stride : Int)
  /-- Least significant part first. -/
  | cat (parts : List Value)
  | repl (v : Value) (count : Int)
  /-- The element at a position known only at run time. -/
  | proxy (elems : List Value) (index : Value)
  /-- The value `clocks` cycles of `domain` ago; an empty domain is still to be filled in. -/
  | sample (v : Value) (clocks : Int) (domain : String)
  /-- True during the first cycle. -/
  | initial
  deriving Repr, Inhabited

namespace Value

def signal (id : SignalId) : Value := .net (.signal id)

mutual

def shape (σ : Arenas) : Value → Shape
  | .const _ s => s
  | .net n => n.shape σ
  | .unary _ _ s => s
  | .binary _ _ _ s => s
  | .mux _ _ _ s => s
  | .slice _ start stop => .unsigned (wrap (stop - start))
  | .part _ _ width _ => .unsigned width
  | .cat parts => .unsigned (Shape.totalWidth (shapes σ parts))
  | .repl v count => .unsigned (wrap ((shape σ v).width * count))
  | .proxy elems _ => Shape.join (shapes σ elems)
  | .sample v _ _ => shape σ v
  | .initial => .unsigned 1

def shapes (σ : Arenas) : List Value → List Shape
  | [] => []
  | v :: vs => shape σ v :: shapes σ vs

end

def width (σ : Arenas) (v : Value) : Int := (v.shape σ).width

theorem shapes_eq_map (σ : Arenas) (vs : List Value) : shapes σ vs = vs.map (shape σ) := by
  induction vs with
  | nil => rfl
  | cons v vs ih => rw [shapes, ih, List.map_cons]

mutual

def text (σ : Arenas) : Value → String
  | .const v s => s!"(const {s.width}'" ++ (if s.isSigned then "sd" else "d") ++ s!"{v})"
  | .net n => n.text σ
  | .unary op a _ => "(" ++ op.symbol ++ " " ++ text σ a ++ ")"
  | .binary op a b _ => "(" ++ op.symbol ++ " " ++ text σ a ++ " " ++ text σ b ++ ")"
  | .mux sel a b _ => "(" ++ muxSymbol ++ " " ++ text σ sel ++ " " ++ text σ a ++ " " ++ text σ b ++ ")"
  | .slice v start stop => "(slice " ++ text σ v ++ s!" {start}:{stop})"
  | .part v offset width stride => "(part " ++ text σ v ++ " " ++ text σ offset ++ s!" {width} {stride})"
  | .cat parts => "(cat " ++ " ".intercalate (texts σ parts) ++ ")"
  | .repl v count => "(repl " ++ text σ v ++ s!" {count})"
  | .proxy elems index => "(proxy (array [" ++ ", ".intercalate (texts σ elems) ++ "]) " ++ text σ index ++ ")"
  | .sample v clocks domain => "(sample " ++ text σ v ++ " @ " ++ domain ++ s!"[{clocks}])"
  | .initial => "(initial)"

def texts (σ : Arenas) : List Value → List String
  | [] => []
  | v :: vs => text σ v :: texts σ vs

end

def signText (b : Bool) : String := if b then "true" else "false"

mutual

/-- A canonical key: equal for values of the same structure over the same signals. -/
def key : Value → String
  | .const v s => s!"c{s.width}" ++ signText s.isSigned ++ s!":{v}"
  | .net (.signal id) => s!"s#{id.arena}:{id.number}"
  | .net (.clock d) => "clk:" ++ d
  | .net (.reset d allow) => "rst:" ++ d ++ ":" ++ signText allow
  | .unary op a _ => "op" ++ op.symbol ++ "(" ++ key a ++ ")"
  | .binary op a b _ => "op" ++ op.symbol ++ "(" ++ key a ++ "," ++ key b ++ ")"
  | .mux sel a b _ => "op" ++ muxSymbol ++ "(" ++ key sel ++ "," ++ key a ++ "," ++ key b ++ ")"
  | .slice v start stop => "sl(" ++ key v ++ s!",{start},{stop})"
  | .part v offset width stride => "pt(" ++ key v ++ "," ++ key offset ++ s!",{width},{stride})"
  | .cat parts => "cat(" ++ ",".intercalate (keys parts) ++ ")"
  | .repl v count => "repl(" ++ key v ++ s!",{count})"
  | .proxy elems index => "ap([" ++ ",".intercalate (keys elems) ++ "]," ++ key index ++ ")"
  | .sample v clocks domain => "smp(" ++ key v ++ s!",{clocks}," ++ domain ++ ")"
  | .initial => "init"

def keys : List Value → List String
  | [] => []
  | v :: vs => key v :: keys vs

end

mutual

/-- The nets whose values an expression reads, in order of first mention. A selection reads its index before its
elements. -/
def reads : Value → NetSet
  | .const _ _ | .initial => .empty
  | .net n => ⟨[n]⟩
  | .unary _ a _ => reads a
  | .binary _ a b _ => (reads a).union (reads b)
  | .mux sel a b _ => ((reads sel).union (reads a)).union (reads b)
  | .slice v _ _ => reads v
  | .part v offset _ _ => (reads v).union (reads offset)
  | .cat parts => readsAll .empty parts
  | .repl v _ => reads v
  | .proxy elems index => readsAll (reads index) elems
  | .sample v _ _ => reads v

/-- The nets read by several values, after those already in `acc`. -/
def readsAll (acc : NetSet) : List Value → NetSet
  | [] => acc
  | v :: vs => readsAll (acc.union (reads v)) vs

end

mutual

/-- The nets written by an assignment to the value, in order, or the first part of it that cannot be assigned to. -/
def targets : Value → Except Value NetSet
  | .net n => .ok ⟨[n]⟩
  | .slice v _ _ => targets v
  | .part v _ _ _ => targets v
  | .cat parts => targetsAll .empty parts
  | .proxy elems _ => targetsAll .empty elems
  | v => .error v

def targetsAll (acc : NetSet) : List Value → Except Value NetSet
  | [] => .ok acc
  | v :: vs =>
    match targets v with
    | .error e => .error e
    | .ok s => targetsAll (acc.union s) vs

end

/-- The nets written by an assignment, with the error of a value that cannot be assigned to. -/
def assigned (σ : Arenas) (v : Value) : Except DesignError NetSet :=
  v.targets.mapError fun e => .shape (.notAssignable (e.text σ))

def net? : Value → Option Net
  | .net n => some n
  | _ => none

/-- The net of a value, where only nets have identity. -/
def asNet (σ : Arenas) (v : Value) : Except Failure Net :=
  match v with
  | .net n => .ok n
  | v => .error (.notNet (v.text σ))

end Value

/-- A signal like a value: of its shape, and with everything else that it has if it is a signal. -/
def SignalSpec.ofValue (σ : Arenas) : Value → SignalSpec
  | .net (.signal id) => .like (σ.get id)
  | v => .ofShape (v.shape σ)

end Rtl
