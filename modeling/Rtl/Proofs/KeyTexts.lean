import Mathlib
import Rtl.Value.Build

/-!
# The texts of keys

The key of a value is a line of text. Its first letters tell what kind of value it is, its numbers end where a character
stands that no number has, and its parts are set off by commas, parentheses and brackets.
-/
namespace Rtl

open List

variable {us vs : List Char} {c : Char}

/-- A run of characters of one kind ends where the first character of another kind stands. -/
theorem span_append_inj {p : Char → Prop} {xs ys : List Char} (hxs : ∀ x ∈ xs, p x) (hys : ∀ y ∈ ys, p y)
    (hus : ∀ c ∈ us.head?, ¬ p c) (hvs : ∀ c ∈ vs.head?, ¬ p c) (h : xs ++ us = ys ++ vs) : xs = ys ∧ us = vs := by
  induction xs generalizing ys with
  | nil =>
    cases ys with
    | nil => exact ⟨rfl, h⟩
    | cons y =>
      have hhead : us.head? = some y := congrArg List.head? h
      exact absurd (hys y mem_cons_self) (hus y hhead)
  | cons x xs ih =>
    cases ys with
    | nil =>
      have hhead : vs.head? = some x := (congrArg List.head? h).symm
      exact absurd (hxs x mem_cons_self) (hvs x hhead)
    | cons y =>
      obtain ⟨rfl, hrest⟩ := List.cons.inj h
      obtain ⟨rfl, htail⟩ := ih (fun x hx => hxs x (mem_cons_of_mem _ hx))
        (fun y hy => hys y (mem_cons_of_mem _ hy)) hrest
      exact ⟨rfl, htail⟩

/-- The characters of written integers. -/
def IsNumeral (c : Char) : Prop := c.isDigit = true ∨ c = '-'

instance (c : Char) : Decidable (IsNumeral c) := inferInstanceAs (Decidable (_ ∨ _))

theorem isNumeral_of_mem_natText {n : Nat} (h : c ∈ (toString n).toList) : IsNumeral c := by
  rw [Nat.toString_eq_ofList_toDigits, String.toList_ofList] at h
  exact Or.inl (Nat.isDigit_of_mem_toDigits (by decide) (by decide) h)

theorem toList_negSucc (n : Nat) : (toString (Int.negSucc n)).toList = '-' :: (toString (n + 1)).toList := by
  change ("-" ++ toString (n + 1)).toList = _
  rw [String.toList_append]
  rfl

theorem isNumeral_of_mem_intText {n : Int} (h : c ∈ (toString n).toList) : IsNumeral c := by
  cases n with
  | ofNat => exact isNumeral_of_mem_natText h
  | negSucc =>
    rw [toList_negSucc, mem_cons] at h
    rcases h with rfl | h
    · exact Or.inr rfl
    · exact isNumeral_of_mem_natText h

/-- A written integer starts with a character of its own. -/
theorem intText_cons (n : Int) : ∃ c cs, (toString n).toList = c :: cs ∧ IsNumeral c := by
  have hne : (toString n).toList ≠ [] := by
    cases n with
    | ofNat => exact fun h => Nat.repr_ne_empty (String.toList_eq_nil_iff.mp h)
    | negSucc =>
      rw [toList_negSucc]
      exact cons_ne_nil _ _
  obtain ⟨c, cs, h⟩ := exists_cons_of_ne_nil hne
  exact ⟨c, cs, h, isNumeral_of_mem_intText (h ▸ mem_cons_self)⟩

/-- What may follow a written integer without being taken for a part of it. -/
def EndsNumeral (rest : List Char) : Prop := ∀ c ∈ rest.head?, ¬ IsNumeral c

theorem endsNumeral_cons (h : ¬ IsNumeral c) (cs : List Char) : EndsNumeral (c :: cs) := by
  intro c' h'
  cases h'
  exact h

theorem intText_append_inj {a b : Int} (hus : EndsNumeral us) (hvs : EndsNumeral vs)
    (h : (toString a).toList ++ us = (toString b).toList ++ vs) : a = b ∧ us = vs := by
  obtain ⟨htext, hrest⟩ := span_append_inj (fun _ => isNumeral_of_mem_intText) (fun _ => isNumeral_of_mem_intText)
    hus hvs h
  exact ⟨Int.repr_injective (String.toList_inj.mp htext), hrest⟩

theorem natText_append_inj {a b : Nat} (hus : EndsNumeral us) (hvs : EndsNumeral vs)
    (h : (toString a).toList ++ us = (toString b).toList ++ vs) : a = b ∧ us = vs := by
  obtain ⟨hab, hrest⟩ := intText_append_inj (a := a) (b := b) hus hvs h
  exact ⟨Int.ofNat.inj hab, hrest⟩

namespace Value

variable {us vs : List Char}
variable {v : Value} {rest rest' : List Char}

/-- The keys of the parts after the first, each behind a comma. -/
def laterText : List Value → List Char
  | [] => []
  | v :: vs => ',' :: (v.key.toList ++ laterText vs)

/-- The keys of parts, with commas between them. -/
def partsText : List Value → List Char
  | [] => []
  | v :: vs => v.key.toList ++ laterText vs

theorem toList_intercalate_keys (vs : List Value) : (",".intercalate (keys vs)).toList = partsText vs := by
  rw [String.toList_intercalate]
  cases vs with
  | nil => rfl
  | cons v vs =>
    induction vs generalizing v with
    | nil => simp [keys, partsText, laterText, List.intercalate]
    | cons w vs ih =>
      have hrest := ih w
      rw [keys, map_cons] at hrest
      rw [keys, keys, map_cons, map_cons, intercalate_cons_cons, hrest, append_assoc]
      rfl

/-- The key of an operator by its symbol and its operands. -/
def operatorText (symbol : String) (operands : List Value) : List Char :=
  'o' :: 'p' :: (symbol.toList ++ '(' :: (partsText operands ++ [')']))

/-- The characters of a key, given the keys of the parts of its value. -/
def keyText : Value → List Char
  | .const n s =>
    'c' :: ((toString s.width).toList ++ ((signText s.isSigned).toList ++ ':' :: (toString n).toList))
  | .net (.signal id) => 's' :: '#' :: ((toString id.arena).toList ++ ':' :: (toString id.number).toList)
  | .net (.clock d) => 'c' :: 'l' :: 'k' :: ':' :: d.toList
  | .net (.reset d allow) => 'r' :: 's' :: 't' :: ':' :: (d ++ ":" ++ signText allow).toList
  | .unary op a _ => operatorText op.symbol [a]
  | .binary op a b _ => operatorText op.symbol [a, b]
  | .mux sel a b _ => operatorText muxSymbol [sel, a, b]
  | .slice v start stop =>
    's' :: 'l' :: '(' :: (v.key.toList ++ ',' :: ((toString start).toList ++ ',' :: ((toString stop).toList ++ [')'])))
  | .part v offset width stride =>
    'p' :: 't' :: '(' :: (v.key.toList ++ ',' :: (offset.key.toList ++
      ',' :: ((toString width).toList ++ ',' :: ((toString stride).toList ++ [')']))))
  | .cat parts => 'c' :: 'a' :: 't' :: '(' :: (partsText parts ++ [')'])
  | .repl v count =>
    'r' :: 'e' :: 'p' :: 'l' :: '(' :: (v.key.toList ++ ',' :: ((toString count).toList ++ [')']))
  | .proxy elems index =>
    'a' :: 'p' :: '(' :: '[' :: (partsText elems ++ ']' :: ',' :: (index.key.toList ++ [')']))
  | .sample v clocks domain =>
    's' :: 'm' :: 'p' :: '(' :: (v.key.toList ++ ',' :: ((toString clocks).toList ++ ',' :: (domain.toList ++ [')'])))
  | .initial => "init".toList

theorem toList_key (v : Value) : v.key.toList = v.keyText := by
  cases v with
  | const | slice | part | repl | sample =>
    rw [key]
    simp only [String.toList_append, append_assoc]
    rfl
  | net n =>
    cases n with
    | signal | clock | reset =>
      rw [key, keyText]
      simp only [String.toList_append, append_assoc]
      rfl
  | unary | binary | mux =>
    rw [key]
    simp only [String.toList_append, append_assoc, keyText, operatorText, partsText, laterText, append_nil,
      cons_append]
    rfl
  | cat | proxy =>
    rw [key]
    simp only [String.toList_append, append_assoc, toList_intercalate_keys]
    rfl
  | initial =>
    rw [key]
    rfl

/-- An operator by its symbol and its operands. -/
def operator? : Value → Option (String × List Value)
  | .unary op a _ => some (op.symbol, [a])
  | .binary op a b _ => some (op.symbol, [a, b])
  | .mux sel a b _ => some (muxSymbol, [sel, a, b])
  | _ => none

theorem toList_key_operator {symbol : String} {operands : List Value} (h : v.operator? = some (symbol, operands)) :
    v.key.toList = operatorText symbol operands := by
  rw [toList_key]
  cases v with
  | unary | binary | mux =>
    cases h
    rfl
  | _ => cases h

/-- What the first letters of a key tell of its value. -/
inductive Genus where
  | const
  | net
  | operator
  | slice
  | part
  | cat
  | repl
  | proxy
  | sample
  | initial
  deriving DecidableEq

def genus : Value → Genus
  | .const _ _ => .const
  | .net _ => .net
  | .unary _ _ _ | .binary _ _ _ _ | .mux _ _ _ _ => .operator
  | .slice _ _ _ => .slice
  | .part _ _ _ _ => .part
  | .cat _ => .cat
  | .repl _ _ => .repl
  | .proxy _ _ => .proxy
  | .sample _ _ _ => .sample
  | .initial => .initial

/-- The genus of the value that a key belongs to. -/
def genusOfKey : List Char → Genus
  | 'c' :: 'l' :: _ => .net
  | 'c' :: 'a' :: _ => .cat
  | 'c' :: _ => .const
  | 's' :: '#' :: _ => .net
  | 's' :: 'l' :: _ => .slice
  | 's' :: _ => .sample
  | 'r' :: 's' :: _ => .net
  | 'r' :: _ => .repl
  | 'o' :: _ => .operator
  | 'p' :: _ => .part
  | 'a' :: _ => .proxy
  | _ => .initial

theorem genusOfKey_numeral (h : IsNumeral c) (cs : List Char) : genusOfKey ('c' :: c :: cs) = .const := by
  have hl : c ≠ 'l' := by
    rintro rfl
    exact absurd h (by decide)
  have ha : c ≠ 'a' := by
    rintro rfl
    exact absurd h (by decide)
  simp [genusOfKey, hl, ha]

theorem genusOfKey_append (v : Value) (rest : List Char) : genusOfKey (v.key.toList ++ rest) = v.genus := by
  rw [toList_key]
  cases v with
  | const n s =>
    obtain ⟨c, cs, htext, hc⟩ := intText_cons s.width
    rw [keyText, htext]
    exact genusOfKey_numeral hc _
  | net n => cases n <;> rfl
  | _ => rfl

/-- Values whose keys begin one text are of one genus. -/
theorem genus_eq_of_key {w : Value} (h : v.key.toList ++ rest = w.key.toList ++ rest') : v.genus = w.genus := by
  rw [← genusOfKey_append v rest, h, genusOfKey_append]

/-- The keys of signals, clock references and reset references start with different letters. -/
theorem rank_eq_of_key {n m : Net} (h : (net n).key.toList ++ rest = (net m).key.toList ++ rest') :
    n.key.rank = m.key.rank := by
  cases n <;> cases m <;> first
    | rfl
    | simp [toList_key, keyText] at h

theorem endsNumeral_signText (b : Bool) (rest : List Char) : EndsNumeral ((signText b).toList ++ rest) := by
  cases b with
  | false => exact endsNumeral_cons (c := 'f') (by decide) _
  | true => exact endsNumeral_cons (c := 't') (by decide) _

theorem signText_append_inj {b b' : Bool} (h : (signText b).toList ++ us = (signText b').toList ++ vs) :
    b = b' ∧ us = vs := by
  cases b <;> cases b'
  · exact ⟨rfl, append_cancel_left h⟩
  · exact absurd (List.cons.inj h).1 (by decide)
  · exact absurd (List.cons.inj h).1 (by decide)
  · exact ⟨rfl, append_cancel_left h⟩

/-- The key of a constant gives away the constant. -/
theorem const_key_inj {n n' : Int} {s s' : Shape} (hus : EndsNumeral us) (hvs : EndsNumeral vs)
    (h : (const n s).key.toList ++ us = (const n' s').key.toList ++ vs) : const n s = const n' s' ∧ us = vs := by
  rw [toList_key, toList_key] at h
  simp only [keyText, cons_append, append_assoc, List.cons.injEq, true_and] at h
  obtain ⟨hwidth, h⟩ := intText_append_inj (endsNumeral_signText _ _) (endsNumeral_signText _ _) h
  obtain ⟨hsigned, h⟩ := signText_append_inj h
  obtain ⟨rfl, hrest⟩ := intText_append_inj hus hvs (List.cons.inj h).2
  cases s
  cases s'
  cases hwidth
  cases hsigned
  exact ⟨rfl, hrest⟩

/-- The key of a signal gives away the signal. -/
theorem signal_key_inj {id id' : SignalId} (hus : EndsNumeral us) (hvs : EndsNumeral vs)
    (h : (net (.signal id)).key.toList ++ us = (net (.signal id')).key.toList ++ vs) : id = id' ∧ us = vs := by
  rw [toList_key, toList_key] at h
  simp only [keyText, cons_append, append_assoc, List.cons.injEq, true_and] at h
  obtain ⟨harena, h⟩ := natText_append_inj (endsNumeral_cons (by decide) _) (endsNumeral_cons (by decide) _) h
  obtain ⟨hnumber, hrest⟩ := natText_append_inj hus hvs (List.cons.inj h).2
  cases id
  cases id'
  cases harena
  cases hnumber
  exact ⟨rfl, hrest⟩

end Value
end Rtl
