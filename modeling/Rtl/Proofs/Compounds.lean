import Mathlib
import Rtl.Value.Basic

/-!
# Constructs and their operands

Whatever is no leaf is a construct over operands: an operator, which carries the shape that it was given, or one of the
forms that only arrange bits. What goes through a value meets the operands of a construct in order and then the
construct itself, so most of what is true of values needs two cases, a leaf and a construct.
-/
namespace Rtl
namespace Value

variable {v w u : Value} {σ σ' : Arenas}
variable {P : Value → Prop}

/-- Induction on a value, with all elements of a list of parts at hand. -/
@[induction_eliminator]
theorem induct (const : ∀ n s, P (.const n s)) (net : ∀ n, P (.net n)) (unary : ∀ op a s, P a → P (.unary op a s))
    (binary : ∀ op a b s, P a → P b → P (.binary op a b s))
    (mux : ∀ sel a b s, P sel → P a → P b → P (.mux sel a b s)) (slice : ∀ v i j, P v → P (.slice v i j))
    (part : ∀ v offset width stride, P v → P offset → P (.part v offset width stride))
    (cat : ∀ parts, (∀ v ∈ parts, P v) → P (.cat parts)) (repl : ∀ v count, P v → P (.repl v count))
    (proxy : ∀ elems index, (∀ v ∈ elems, P v) → P index → P (.proxy elems index))
    (sample : ∀ v clocks domain, P v → P (.sample v clocks domain)) (initial : P .initial) (v : Value) : P v :=
  @Value.rec P (fun vs => ∀ v ∈ vs, P v) const net unary binary mux slice part cat repl proxy sample initial
    (fun _ h => nomatch h) (fun _ _ hv hvs _ h => (List.mem_cons.mp h).elim (fun e => e ▸ hv) (hvs _)) v

/-- Constants, nets, samples and the first-cycle flag. -/
def IsLeaf : Value → Prop
  | .const _ _ | .net _ | .sample _ _ _ | .initial => True
  | _ => False

/-- What a construct is over, in the order in which it is traversed. A leaf is over nothing. -/
def operands : Value → List Value
  | .const _ _ | .net _ | .sample _ _ _ | .initial => []
  | .unary _ a _ => [a]
  | .binary _ a b _ => [a, b]
  | .mux sel a b _ => [sel, a, b]
  | .slice v _ _ | .repl v _ => [v]
  | .part v offset _ _ => [v, offset]
  | .cat parts => parts
  | .proxy elems index => elems ++ [index]

/-- The second value is the same construct as the first, over operands of its own. -/
inductive Like : Value → Value → Prop
  | unary {op a s a' s'} : Like (.unary op a s) (.unary op a' s')
  | binary {op a b s a' b' s'} : Like (.binary op a b s) (.binary op a' b' s')
  | mux {sel a b s sel' a' b' s'} : Like (.mux sel a b s) (.mux sel' a' b' s')
  | slice {start stop v v'} : Like (.slice v start stop) (.slice v' start stop)
  | part {width stride v offset v' offset'} : Like (.part v offset width stride) (.part v' offset' width stride)
  | cat {parts parts'} : Like (.cat parts) (.cat parts')
  | repl {count v v'} : Like (.repl v count) (.repl v' count)
  | proxy {elems index elems' index'} : Like (.proxy elems index) (.proxy elems' index')

def isOperator : Value → Bool
  | .unary _ _ _ | .binary _ _ _ _ | .mux _ _ _ _ => true
  | _ => false

/-- The shape that an operator was given. -/
def note : Value → Shape
  | .unary _ _ s | .binary _ _ _ s | .mux _ _ _ s => s
  | _ => default

/-- An operator has the shape that its operands give it now. -/
def Current (σ : Arenas) : Value → Prop
  | .unary op a s => op.shape (a.shape σ) = s
  | .binary op a b s => op.shape? (a.shape σ) (b.shape σ) = some s
  | .mux _ a b s => (a.shape σ).promote (b.shape σ) = s
  | _ => True

/-- Induction on a value, with one case for all constructs. -/
theorem operands_induct (const : ∀ n s, P (.const n s)) (net : ∀ n, P (.net n))
    (sample : ∀ v clocks domain, P v → P (.sample v clocks domain)) (initial : P .initial)
    (compound : ∀ v, ¬ v.IsLeaf → (∀ c ∈ v.operands, P c) → P v) (v : Value) : P v := by
  induction v with
  | const n s => exact const n s
  | net n => exact net n
  | sample v clocks domain ih => exact sample v clocks domain ih
  | initial => exact initial
  | cat parts ih => exact compound _ id ih
  | unary | binary | mux | slice | part | repl | proxy =>
    refine compound _ id ?_
    simp_all [operands, or_imp]

theorem like_self (hv : ¬ v.IsLeaf) : v.Like v := by
  cases v <;> first | constructor | exact absurd trivial hv

namespace Like

section

variable (h : v.Like w)
include h

theorem not_isLeaf : ¬ w.IsLeaf := by
  cases h <;> exact id

theorem symm : w.Like v := by
  cases h <;> constructor

theorem trans (h' : w.Like u) : v.Like u := by
  cases h <;> cases h' <;> constructor

theorem ext (hops : w.operands = v.operands) (hnote : w.note = v.note) : w = v := by
  cases h <;> simp_all [operands, note]

theorem isOperator_eq : w.isOperator = v.isOperator := by
  cases h <;> rfl

theorem note_eq (hv : v.isOperator = false) : w.note = v.note := by
  cases h <;> simp_all [isOperator, note]

theorem current (hv : v.isOperator = false) (σ : Arenas) : w.Current σ := by
  cases h <;> simp_all [isOperator, Current]

theorem shape (hnote : w.note = v.note)
    (hs : w.operands.map (Value.shape σ') = v.operands.map (Value.shape σ)) : w.shape σ' = v.shape σ := by
  cases h <;> simp_all [operands, note, Value.shape, shapes_eq_map]

/-- Over operands of the same shapes, an operator has its shape exactly if it has the one that it had. -/
theorem current_iff (hs : w.operands.map (Value.shape σ') = v.operands.map (Value.shape σ))
    (hv : v.Current σ) : w.Current σ' ↔ w.note = v.note := by
  cases h <;> simp_all [operands, note, Current]
  all_goals exact eq_comm

theorem current_congr (hs : w.operands.map (Value.shape σ') = v.operands.map (Value.shape σ))
    (hnote : w.note = v.note) : w.Current σ' ↔ v.Current σ :=
  ⟨fun hw => (h.symm.current_iff hs.symm hw).mpr hnote.symm, fun hv => (h.current_iff hs hv).mpr hnote⟩

end

theorem exists_over (hv : ¬ v.IsLeaf) {ws : List Value} (h : ws.length = v.operands.length) :
    ∃ w, v.Like w ∧ w.operands = ws ∧ w.note = v.note := by
  cases v with
  | const | net | sample | initial => exact absurd trivial hv
  | unary op a s =>
    obtain ⟨a', rfl⟩ := List.length_eq_one_iff.mp h
    exact ⟨.unary op a' s, .unary, rfl, rfl⟩
  | binary op a b s =>
    obtain ⟨a', b', rfl⟩ := List.length_eq_two.mp h
    exact ⟨.binary op a' b' s, .binary, rfl, rfl⟩
  | mux sel a b s =>
    obtain ⟨sel', a', b', rfl⟩ := List.length_eq_three.mp h
    exact ⟨.mux sel' a' b' s, .mux, rfl, rfl⟩
  | slice v i j =>
    obtain ⟨v', rfl⟩ := List.length_eq_one_iff.mp h
    exact ⟨.slice v' i j, .slice, rfl, rfl⟩
  | part v offset width stride =>
    obtain ⟨v', offset', rfl⟩ := List.length_eq_two.mp h
    exact ⟨.part v' offset' width stride, .part, rfl, rfl⟩
  | cat => exact ⟨.cat ws, .cat, rfl, rfl⟩
  | repl v count =>
    obtain ⟨v', rfl⟩ := List.length_eq_one_iff.mp h
    exact ⟨.repl v' count, .repl, rfl, rfl⟩
  | proxy =>
    obtain rfl | ⟨elems', index', rfl⟩ := ws.eq_nil_or_concat
    · simp [operands] at h
    · exact ⟨.proxy elems' index', .proxy, List.concat_eq_append.symm, rfl⟩

/-- The construct over other operands, with the shape that they give it. Only a shift can be left without one. -/
theorem exists_current (hv : ¬ v.IsLeaf) {ws : List Value} (h : ws.length = v.operands.length)
    (hshape : ∀ op a b s a' b', v = .binary op a b s → ws = [a', b'] → op.shape? (a'.shape σ) (b'.shape σ) ≠ none) :
    ∃ w, v.Like w ∧ w.operands = ws ∧ w.Current σ := by
  obtain ⟨w, hlike, rfl, -⟩ := exists_over hv h
  cases hlike with
  | @unary op _ _ a' => exact ⟨.unary op a' (op.shape (a'.shape σ)), .unary, rfl, rfl⟩
  | @mux _ _ _ _ sel' a' b' => exact ⟨.mux sel' a' b' ((a'.shape σ).promote (b'.shape σ)), .mux, rfl, rfl⟩
  | @binary op a b s a' b' =>
    obtain ⟨s', hs'⟩ := Option.ne_none_iff_exists'.mp (hshape op a b s a' b' rfl rfl)
    exact ⟨.binary op a' b' s', .binary, rfl, hs'⟩
  | slice | part | cat | repl | proxy => exact ⟨_, by constructor, rfl, trivial⟩

end Like
end Value
end Rtl
