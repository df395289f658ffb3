import Rtl.Value.Basic

/-!
Tables keyed by the structure of values, in order of first insertion.
-/
namespace Rtl

structure ValueTable (α : Type) where
  entries : List (Value × α)
  deriving Inhabited

namespace ValueTable

variable {α : Type}

def empty : ValueTable α := ⟨[]⟩

def get? (t : ValueTable α) (v : Value) : Option α :=
  (t.entries.find? fun e => e.1.key = v.key).map Prod.snd

/-- Replaces the entry of a value with the same key, keeping its place. -/
def setEntry (v : Value) (a : α) : List (Value × α) → List (Value × α)
  | [] => [(v, a)]
  | e :: rest => if e.1.key = v.key then (e.1, a) :: rest else e :: setEntry v a rest

def set (t : ValueTable α) (v : Value) (a : α) : ValueTable α := ⟨setEntry v a t.entries⟩

def size (t : ValueTable α) : Nat := t.entries.length

end ValueTable
end Rtl
