import Rtl.Arena

/-!
Nets: what can be driven and read by name. A net is a signal, or the clock or the reset of a domain that is known
by name only until the domain is resolved. Sets and tables of nets keep the order of insertion and tell nets apart
by their keys; a reset reference keeps the flag it was first inserted with.
-/
namespace Rtl

/-- The name of the domain of combinational statements, which has neither clock nor reset. -/
def combDomain : String := "comb"

/-- The name of the domain used where none is given. -/
def syncDomain : String := "sync"

inductive Net where
  | signal (id : SignalId)
  | clock (domain : String)
  /-- With `allowResetless`, the reset of a domain without one reads as zero. -/
  | reset (domain : String) (allowResetless : Bool)
  deriving DecidableEq, Repr, Inhabited

/-- What tells nets apart. -/
inductive NetKey where
  | signal (id : SignalId)
  | clock (domain : String)
  | reset (domain : String)
  deriving DecidableEq, Repr

namespace NetKey

/-- Signals come first, then clocks, then resets. -/
def rank : NetKey → Nat
  | .signal _ => 0
  | .clock _ => 1
  | .reset _ => 2

def number : NetKey → Nat
  | .signal id => id.number
  | .clock _ | .reset _ => 0

def domain : NetKey → String
  | .signal _ => ""
  | .clock d | .reset d => d

/-- Orders signals by number, whatever their arena, and references by domain name. -/
def less (a b : NetKey) : Bool :=
  if a.rank ≠ b.rank then a.rank < b.rank
  else if a.number ≠ b.number then a.number < b.number
  else a.domain < b.domain

end NetKey

namespace Net

def key : Net → NetKey
  | .signal id => .signal id
  | .clock d => .clock d
  | .reset d _ => .reset d

def text (σ : Arenas) : Net → String
  | .signal id => "(sig " ++ σ.name id ++ ")"
  | .clock d => "(clk " ++ d ++ ")"
  | .reset d _ => "(rst " ++ d ++ ")"

/-- The bare name of a signal, the text of a reference. -/
def label (σ : Arenas) : Net → String
  | .signal id => σ.name id
  | n => n.text σ

def shape (σ : Arenas) : Net → Shape
  | .signal id => σ.shape id
  | .clock _ | .reset _ _ => Shape.unsigned 1

def signal? : Net → Option SignalId
  | .signal id => some id
  | .clock _ | .reset _ _ => none

end Net

/-- Nets in order of first insertion. -/
structure NetSet where
  items : List Net
  deriving DecidableEq, Repr, Inhabited

namespace NetSet

def empty : NetSet := ⟨[]⟩

def contains (s : NetSet) (n : Net) : Bool := s.items.any (·.key = n.key)

/-- A net whose key is there already is not inserted again. -/
def insert (s : NetSet) (n : Net) : NetSet := if s.contains n then s else ⟨s.items ++ [n]⟩

def insertAll (s : NetSet) (ns : List Net) : NetSet := ns.foldl insert s

def ofList (ns : List Net) : NetSet := empty.insertAll ns

def erase (s : NetSet) (n : Net) : NetSet := ⟨s.items.filter (·.key ≠ n.key)⟩

def size (s : NetSet) : Nat := s.items.length

def union (s t : NetSet) : NetSet := s.insertAll t.items

def difference (s t : NetSet) : NetSet := ⟨s.items.filter fun n => !t.contains n⟩

def intersection (s t : NetSet) : NetSet := ⟨s.items.filter fun n => t.contains n⟩

/-- The concrete signals among the members. -/
def signals (s : NetSet) : List SignalId := s.items.filterMap Net.signal?

def text (σ : Arenas) (s : NetSet) : String :=
  "\x7b" ++ ", ".intercalate (s.items.map (Net.text σ)) ++ "\x7d"

end NetSet

/-- A table keyed by nets, in order of first insertion. -/
structure NetTable (α : Type) where
  entries : List (Net × α)
  deriving Repr, Inhabited

namespace NetTable

variable {α : Type}

def empty : NetTable α := ⟨[]⟩

def get? (t : NetTable α) (n : Net) : Option α :=
  (t.entries.find? fun e => e.1.key = n.key).map Prod.snd

def contains (t : NetTable α) (n : Net) : Bool := (t.get? n).isSome

/-- Replaces the value of a key that is there, keeping its place and its net. -/
def setEntry (n : Net) (a : α) : List (Net × α) → List (Net × α)
  | [] => [(n, a)]
  | e :: rest => if e.1.key = n.key then (e.1, a) :: rest else e :: setEntry n a rest

def set (t : NetTable α) (n : Net) (a : α) : NetTable α := ⟨setEntry n a t.entries⟩

def erase (t : NetTable α) (n : Net) : NetTable α := ⟨t.entries.filter fun e => e.1.key ≠ n.key⟩

def keys (t : NetTable α) : List Net := t.entries.map Prod.fst

def size (t : NetTable α) : Nat := t.entries.length

theorem get?_congr {t : NetTable α} {n m : Net} (h : n.key = m.key) : t.get? n = t.get? m := by
  unfold get?
  rw [h]

theorem find?_setEntry (n m : Net) (a : α) (es : List (Net × α)) :
    ((setEntry n a es).find? fun e => e.1.key = m.key).map Prod.snd =
      if n.key = m.key then some a else (es.find? fun e => e.1.key = m.key).map Prod.snd := by
  induction es with
  | nil =>
    by_cases h : n.key = m.key
    · simp [setEntry, h]
    · simp [setEntry, h]
  | cons e es ih =>
    by_cases he : e.1.key = n.key
    · by_cases h : n.key = m.key
      · simp [setEntry, he, h]
      · simp [setEntry, he, h]
    · by_cases hm : e.1.key = m.key
      · have h : ¬ n.key = m.key := fun h => he (hm.trans h.symm)
        rw [setEntry, if_neg he, if_neg h]
        simp [hm]
      · simpa [setEntry, he, hm] using ih

@[simp] theorem get?_set (t : NetTable α) (n m : Net) (a : α) :
    (t.set n a).get? m = if n.key = m.key then some a else t.get? m := find?_setEntry n m a t.entries

end NetTable
end Rtl
