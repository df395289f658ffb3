import Rtl.Net

/-!
Indexed sets and tables of nets. They hold the same nets in the same order as plain ones, with an index from keys to
places beside the lists, so that a net is found without a search. A new net is noted at the end of its list; when a
net is taken out, the nets behind it move up and are noted again.
-/
namespace Rtl

structure NetIndex where
  /-- The place of a key, if it is held. -/
  find : NetKey → Option Nat

namespace NetIndex

def empty : NetIndex := ⟨fun _ => none⟩

def note (x : NetIndex) (k : NetKey) (place : Nat) : NetIndex :=
  ⟨fun k' => if k' = k then some place else x.find k'⟩

def forget (x : NetIndex) (k : NetKey) : NetIndex := ⟨fun k' => if k' = k then none else x.find k'⟩

/-- Notes the nets of a list, the first of them at the given place. -/
def noteFrom (x : NetIndex) (place : Nat) : List Net → NetIndex
  | [] => x
  | n :: rest => (x.note n.key place).noteFrom (place + 1) rest

/-- Takes a key out. `ns` are the nets that are left; those from the place of the key on have moved up. -/
def remove (x : NetIndex) (k : NetKey) (place : Nat) (ns : List Net) : NetIndex :=
  (x.forget k).noteFrom place (ns.drop place)

end NetIndex

structure IndexedSet where
  index : NetIndex
  items : List Net

namespace IndexedSet

def empty : IndexedSet := ⟨.empty, []⟩

/-- The set without its index. -/
def plain (s : IndexedSet) : NetSet := ⟨s.items⟩

def contains (s : IndexedSet) (n : Net) : Bool := (s.index.find n.key).isSome

/-- Adds a net and tells whether it was absent. -/
def add (s : IndexedSet) (n : Net) : IndexedSet × Bool :=
  match s.index.find n.key with
  | some _ => (s, false)
  | none => (⟨s.index.note n.key s.items.length, s.items ++ [n]⟩, true)

def addAll (s : IndexedSet) (ns : List Net) : IndexedSet := ns.foldl (fun s n => (s.add n).1) s

def ofList (ns : List Net) : IndexedSet := empty.addAll ns

/-- Takes a net out and tells whether it was present. -/
def remove (s : IndexedSet) (n : Net) : IndexedSet × Bool :=
  match s.index.find n.key with
  | none => (s, false)
  | some place =>
    let rest := s.items.eraseIdx place
    (⟨s.index.remove n.key place rest, rest⟩, true)

def clone (s : IndexedSet) : IndexedSet := ofList s.items

def union (s t : IndexedSet) : IndexedSet := s.clone.addAll t.items

def difference (s t : IndexedSet) : IndexedSet := ofList (s.items.filter fun n => !t.contains n)

def intersection (s t : IndexedSet) : IndexedSet := ofList (s.items.filter fun n => t.contains n)

end IndexedSet

/-- The value of a key stands in `vals` at the place of its net in `nets`. -/
structure IndexedTable (α : Type) where
  index : NetIndex
  nets : List Net
  vals : List α

namespace IndexedTable

variable {α : Type}

def empty : IndexedTable α := ⟨.empty, [], []⟩

/-- The table without its index. -/
def plain (t : IndexedTable α) : NetTable α := ⟨t.nets.zip t.vals⟩

def get? (t : IndexedTable α) (n : Net) : Option α := do t.vals[← t.index.find n.key]?

/-- Replaces the value of a key that is there, keeping its place and its net. -/
def set (t : IndexedTable α) (n : Net) (a : α) : IndexedTable α :=
  match t.index.find n.key with
  | some place => { t with vals := t.vals.set place a }
  | none => ⟨t.index.note n.key t.nets.length, t.nets ++ [n], t.vals ++ [a]⟩

def erase (t : IndexedTable α) (n : Net) : IndexedTable α :=
  match t.index.find n.key with
  | none => t
  | some place =>
    let rest := t.nets.eraseIdx place
    ⟨t.index.remove n.key place rest, rest, t.vals.eraseIdx place⟩

end IndexedTable
end Rtl
