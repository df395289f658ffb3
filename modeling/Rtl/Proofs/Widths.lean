import Mathlib
import Rtl.Value.Build
import Rtl.Proofs.Leaves

/-!
# Widths of the values that can be built

The exact shape of a value follows the rules of shapes over unbounded integers. While the exact widths of a value and
of all its parts are 64-bit words, the value has its exact shape. No width that is checked or computed on the way is
then negative but one: a product of two signed operands of no bits is one bit short of none. A value built over no
such product has as many bits as its exact width says, and never fewer than none.
-/
namespace Rtl

open List

variable {a : Shape} {op : UnaryOp}

/-- A 64-bit two's complement word holds the integer. -/
def InWord (n : Int) : Prop := -2 ^ 63 ≤ n ∧ n < 2 ^ 63

instance (n : Int) : Decidable (InWord n) := inferInstanceAs (Decidable (_ ∧ _))

theorem wrap_of_inWord {n : Int} (h : InWord n) : wrap n = n := by
  obtain ⟨hlow, hhigh⟩ := h
  have hword : ((Nat.pow 2 64 : Nat) : Int) = 2 ^ 64 := by norm_num
  apply Int.bmod_eq_of_le_mul_two <;> omega

/-! ## Shapes over unbounded integers -/

namespace Shape

variable {a b : Shape}

/-- The shape of two operands side by side: an unsigned one beside a signed one takes one bit more. -/
def exactPromote (a b : Shape) : Shape :=
  let isSigned := a.isSigned || b.isSigned
  ⟨max (a.width + if isSigned && !a.isSigned then 1 else 0) (b.width + if isSigned && !b.isSigned then 1 else 0),
    isSigned⟩

/-- The shape of any one of several elements: the unsigned ones beside signed ones take one bit more. -/
def exactJoin (shapes : List Shape) : Shape :=
  let isSigned := shapes.any (·.isSigned)
  ⟨max (widest true shapes) (widest false shapes + if isSigned && shapes.any (!·.isSigned) then 1 else 0), isSigned⟩

theorem promote_eq (ha : InWord a.width) (hb : InWord b.width) (h : InWord (a.exactPromote b).width) :
    a.promote b = a.exactPromote b := by
  obtain ⟨m, sa⟩ := a
  obtain ⟨n, sb⟩ := b
  have hsucc : ∀ k l : Int, InWord k → InWord (max l (k + 1)) → wrap (k + 1) = k + 1 := by
    intro k l hk hmax
    apply wrap_of_inWord
    unfold InWord at *
    omega
  cases sa <;> cases sb <;> simp only [promote, exactPromote, unsigned, signed] at h ⊢
  · simp
  · rw [hsucc m n ha (by simpa [max_comm] using h)]
    simp
  · rw [hsucc n m hb (by simpa using h)]
    simp
  · simp

theorem totalWidth_eq (shapes : List Shape) : totalWidth shapes = wrap (shapes.map (·.width)).sum := by
  induction shapes with
  | nil => rfl
  | cons s rest ih =>
    rw [totalWidth, ih, map_cons, sum_cons]
    exact Int.add_bmod_bmod

theorem widest_nonneg (isSigned : Bool) (shapes : List Shape) : 0 ≤ widest isSigned shapes := by
  induction shapes with
  | nil => exact le_refl 0
  | cons s rest ih =>
    rw [widest]
    split
    · exact le_trans ih (le_max_right _ _)
    · exact ih

theorem join_eq {shapes : List Shape} (h : InWord (exactJoin shapes).width) : join shapes = exactJoin shapes := by
  unfold join
  simp only [exactJoin] at h ⊢
  -- Both signs stand side by side exactly where the widest unsigned element may need its extra bit.
  by_cases hboth : (shapes.any (·.isSigned) && shapes.any (!·.isSigned)) = true
  · rw [hboth] at h ⊢
    have hsigned : shapes.any (·.isSigned) = true := (Bool.and_eq_true _ _ ▸ hboth).1
    simp only [Bool.true_and, decide_eq_true_eq, if_true, hsigned] at h ⊢
    split
    · rename_i hle
      have hmax : max (widest true shapes) (widest false shapes + 1) = widest false shapes + 1 := by omega
      rw [hmax] at h ⊢
      rw [wrap_of_inWord h]
      rfl
    · congr 1
      omega
  · rw [Bool.not_eq_true] at hboth
    simp only [hboth, Bool.false_and, Bool.false_eq_true, if_false, add_zero]
    rw [max_comm]

theorem exactPromote_nonneg (ha : 0 ≤ a.width) : 0 ≤ (a.exactPromote b).width := by
  refine le_trans ?_ (le_max_left _ _)
  split <;> omega

theorem exactJoin_nonneg (shapes : List Shape) : 0 ≤ (exactJoin shapes).width :=
  le_trans (widest_nonneg true shapes) (le_max_left _ _)

end Shape

/-- The shape of a result over unbounded integers. -/
def UnaryOp.exactShape (a : Shape) : UnaryOp → Shape
  | .plus | .invert => a
  | .minus => if a.isSigned then a else .signed (a.width + 1)
  | .bool | .any | .all | .parity => .unsigned 1
  | .asUnsigned => .unsigned a.width
  | .asSigned => .signed a.width

theorem UnaryOp.shape_eq (h : InWord (op.exactShape a).width) : op.shape a = op.exactShape a := by
  cases op with
  | minus =>
    simp only [shape, exactShape] at h ⊢
    split
    · rfl
    · rename_i hs
      rw [if_neg hs] at h
      exact congrArg Shape.signed (wrap_of_inWord h)
  | _ => rfl

theorem UnaryOp.exactShape_nonneg (ha : 0 ≤ a.width) : 0 ≤ (op.exactShape a).width := by
  cases op with
  | minus =>
    simp only [exactShape]
    split
    · exact ha
    · exact Int.add_nonneg ha (by decide)
  | plus | invert | asUnsigned | asSigned => exact ha
  | bool | any | all | parity => exact Int.one_nonneg

namespace BinaryOp

variable {b : Shape}
variable {a : Shape} {op : BinaryOp}

/-- The number of different amounts a shift may count with. -/
def exactAmounts (b : Shape) : Nat := 2 ^ (if b.isSigned then b.width - 1 else b.width).toNat

/-- The shape of a result over unbounded integers. -/
def exactShape (a b : Shape) : BinaryOp → Shape
  | .add | .sub => ⟨(a.exactPromote b).width + 1, (a.exactPromote b).isSigned⟩
  | .mul => ⟨a.width + b.width - (if a.isSigned && b.isSigned then 1 else 0), a.isSigned || b.isSigned⟩
  | .floorDiv => ⟨a.width + (if a.isSigned || b.isSigned then 1 else 0), a.isSigned || b.isSigned⟩
  | .mod => a
  | .eq | .ne | .lt | .le | .gt | .ge => .unsigned 1
  | .and | .or | .xor => a.exactPromote b
  | .shl => ⟨a.width + exactAmounts b - 1, a.isSigned⟩
  | .shr => ⟨a.width + (if b.isSigned then exactAmounts b else 0), a.isSigned⟩

/-- An amount that a shift accepts counts with its exact number of bits. -/
theorem shiftBits_eq (hb : InWord b.width) (h : ¬ maxShiftBits < shiftBits b) :
    shiftBits b = if b.isSigned then b.width - 1 else b.width := by
  unfold shiftBits at *
  split
  · rename_i hs
    rw [if_pos hs] at h
    by_cases hlow : b.width = -2 ^ 63
    · -- One less than the least word is the greatest, which no shift accepts.
      rw [hlow] at h
      exact absurd (by decide) h
    · apply wrap_of_inWord
      unfold InWord at *
      omega
  · rfl

theorem shape_eq {s : Shape} (ha : InWord a.width) (hb : InWord b.width) (h : InWord (op.exactShape a b).width)
    (hs : op.shape? a b = some s) : s = op.exactShape a b := by
  have hpromote : InWord ((a.exactPromote b).width + 1) → a.promote b = a.exactPromote b := by
    intro hsucc
    refine Shape.promote_eq ha hb ⟨?_, ?_⟩
    · refine le_trans ha.1 (le_trans ?_ (le_max_left _ _))
      split <;> omega
    · have := hsucc.2
      omega
  cases op with
  | add | sub =>
    simp only [shape?, Option.some.injEq] at hs
    rw [← hs, hpromote h]
    exact congrArg (Shape.mk · (a.exactPromote b).isSigned) (wrap_of_inWord h)
  | mul =>
    obtain ⟨m, sa⟩ := a
    obtain ⟨n, sb⟩ := b
    cases sa <;> cases sb <;> simp [exactShape] at h <;>
      simp only [shape?, Option.some.injEq] at hs <;>
      rw [← hs, wrap_of_inWord h] <;> simp [exactShape, Shape.signed, Shape.unsigned]
  | floorDiv =>
    simp only [shape?, exactShape] at hs h ⊢
    cases hsign : a.isSigned || b.isSigned with
    | false =>
      simp only [hsign, Bool.false_eq_true, if_false, Option.some.injEq] at hs
      simp [← hs, Shape.unsigned]
    | true =>
      simp only [hsign, if_true, Option.some.injEq] at hs h
      rw [← hs, wrap_of_inWord h]
      rfl
  | mod | eq | ne | lt | le | gt | ge =>
    simp only [shape?, Option.some.injEq] at hs
    exact hs.symm
  | and | or | xor =>
    simp only [shape?, Option.some.injEq] at hs
    rw [← hs]
    exact Shape.promote_eq ha hb h
  | shl =>
    simp only [shape?] at hs
    split at hs
    · cases hs
    · rename_i hwide
      rw [Option.some.injEq, shiftBits_eq hb hwide] at hs
      rw [← hs]
      exact congrArg (Shape.mk · a.isSigned) (wrap_of_inWord h)
  | shr =>
    simp only [shape?, exactShape] at hs h ⊢
    cases hsign : b.isSigned with
    | false =>
      rw [hsign] at hs
      simp only [Bool.not_false, if_true, Option.some.injEq] at hs
      simp [hs]
    | true =>
      rw [hsign] at hs h
      simp only [Bool.not_true, Bool.false_eq_true, if_false] at hs
      split at hs
      · cases hs
      · rename_i hwide
        rw [Option.some.injEq, shiftBits_eq hb hwide] at hs
        rw [← hs]
        exact congrArg (Shape.mk · a.isSigned) (wrap_of_inWord h)

/-- Operands without missing bits give results without missing bits, but for a product of signed operands of no
bits. -/
theorem exactShape_nonneg (ha : 0 ≤ a.width) (hb : 0 ≤ b.width) (h : op = .mul → ¬ (a = .signed 0 ∧ b = .signed 0)) :
    0 ≤ (op.exactShape a b).width := by
  cases op with
  | add | sub => exact Int.add_nonneg (Shape.exactPromote_nonneg ha) (by decide)
  | mul =>
    obtain ⟨m, sa⟩ := a
    obtain ⟨n, sb⟩ := b
    have hvoid := h rfl
    simp only [Shape.signed, Shape.mk.injEq] at hvoid
    simp only [exactShape] at ha hb ⊢
    split
    · rename_i hsigned
      obtain ⟨rfl, rfl⟩ : sa = true ∧ sb = true := by simpa using hsigned
      simp only [and_true] at hvoid
      omega
    · omega
  | floorDiv =>
    simp only [exactShape]
    split <;> omega
  | mod => exact ha
  | eq | ne | lt | le | gt | ge => exact Int.one_nonneg
  | and | or | xor => exact Shape.exactPromote_nonneg ha
  | shl =>
    have hpos : 0 < exactAmounts b := Nat.two_pow_pos _
    simp only [exactShape]
    omega
  | shr =>
    simp only [exactShape]
    split <;> omega

end BinaryOp

namespace Value

variable {v w : Value}
variable {a b u : Value} {offset : Operand} {patterns : List Operand} {P : Value → Prop}

/-! ## Parts of values -/

/-- The values a value is made of. -/
def children : Value → List Value
  | .const _ _ | .net _ | .initial => []
  | .unary _ a _ => [a]
  | .binary _ a b _ => [a, b]
  | .mux sel a b _ => [sel, a, b]
  | .slice v _ _ | .repl v _ | .sample v _ _ => [v]
  | .part v offset _ _ => [v, offset]
  | .cat parts => parts
  | .proxy elems index => index :: elems

mutual

/-- The value and everything it is made of. -/
def subvalues : Value → List Value
  | .const n s => [.const n s]
  | .net n => [.net n]
  | .unary op a s => .unary op a s :: subvalues a
  | .binary op a b s => .binary op a b s :: (subvalues a ++ subvalues b)
  | .mux sel a b s => .mux sel a b s :: (subvalues sel ++ (subvalues a ++ subvalues b))
  | .slice v start stop => .slice v start stop :: subvalues v
  | .part v offset width stride => .part v offset width stride :: (subvalues v ++ subvalues offset)
  | .cat parts => .cat parts :: subvaluesAll parts
  | .repl v count => .repl v count :: subvalues v
  | .proxy elems index => .proxy elems index :: (subvalues index ++ subvaluesAll elems)
  | .sample v clocks domain => .sample v clocks domain :: subvalues v
  | .initial => [.initial]

def subvaluesAll : List Value → List Value
  | [] => []
  | v :: vs => subvalues v ++ subvaluesAll vs

end

variable {σ σ' : Arenas}

theorem mem_children_iff (hv : ¬ v.IsLeaf) : w ∈ v.children ↔ w ∈ v.operands := by
  cases v <;> simp_all [children, operands, IsLeaf, or_comm]

theorem subvaluesAll_eq (vs : List Value) : subvaluesAll vs = vs.flatMap subvalues := by
  induction vs with
  | nil => rfl
  | cons v vs ih => rw [subvaluesAll, ih, flatMap_cons]

theorem subvalues_eq (v : Value) : v.subvalues = v :: v.children.flatMap subvalues := by
  cases v <;> simp [subvalues, children, subvaluesAll_eq]

theorem mem_subvalues : u ∈ v.subvalues ↔ u = v ∨ ∃ c ∈ v.children, u ∈ c.subvalues := by
  rw [subvalues_eq, mem_cons, mem_flatMap]

theorem self_mem_subvalues (v : Value) : v ∈ v.subvalues := mem_subvalues.mpr (.inl rfl)

theorem forall_subvalues : (∀ u ∈ v.subvalues, P u) ↔ P v ∧ ∀ c ∈ v.children, ∀ u ∈ c.subvalues, P u := by
  constructor
  · intro h
    exact ⟨h v (self_mem_subvalues v), fun c hc u hu => h u (mem_subvalues.mpr (.inr ⟨c, hc, hu⟩))⟩
  · rintro ⟨hself, hparts⟩ u hu
    obtain rfl | ⟨c, hc, hu⟩ := mem_subvalues.mp hu
    · exact hself
    · exact hparts c hc u hu

/-- Induction on a value, with everything that it is made of at hand. -/
theorem children_induct (h : ∀ v, (∀ c ∈ v.children, P c) → P v) (v : Value) : P v := by
  induction v with
  | const | net | initial => exact h _ (by simp [children])
  | unary _ _ _ ih | slice _ _ _ ih | repl _ _ ih | sample _ _ _ ih => exact h _ (by simpa [children] using ih)
  | binary _ _ _ _ iha ihb | part _ _ _ _ iha ihb => exact h _ (by simpa [children] using ⟨iha, ihb⟩)
  | mux _ _ _ _ ihs iha ihb => exact h _ (by simpa [children] using ⟨ihs, iha, ihb⟩)
  | cat _ ih => exact h _ ih
  | proxy _ _ ih ihi => exact h _ (forall_mem_cons.mpr ⟨ihi, ih⟩)

theorem subvalues_trans (huv : u ∈ v.subvalues) (hvw : v ∈ w.subvalues) : u ∈ w.subvalues := by
  induction w using children_induct with
  | h w ih =>
    obtain rfl | ⟨c, hc, hv⟩ := mem_subvalues.mp hvw
    · exact huv
    · exact mem_subvalues.mpr (.inr ⟨c, hc, ih c hc hv⟩)

/-! ## Exact shapes -/

mutual

/-- The shape that the rules give over unbounded integers, whatever shapes the operators were given. -/
def exactShape (σ : Arenas) : Value → Shape
  | .const _ s => s
  | .net n => n.shape σ
  | .unary op a _ => op.exactShape (exactShape σ a)
  | .binary op a b _ => op.exactShape (exactShape σ a) (exactShape σ b)
  | .mux _ a b _ => (exactShape σ a).exactPromote (exactShape σ b)
  | .slice _ start stop => .unsigned (stop - start)
  | .part _ _ width _ => .unsigned width
  | .cat parts => .unsigned ((exactShapes σ parts).map (·.width)).sum
  | .repl v count => .unsigned ((exactShape σ v).width * count)
  | .proxy elems _ => Shape.exactJoin (exactShapes σ elems)
  | .sample v _ _ => exactShape σ v
  | .initial => .unsigned 1

def exactShapes (σ : Arenas) : List Value → List Shape
  | [] => []
  | v :: vs => exactShape σ v :: exactShapes σ vs

end

theorem exactShapes_eq_map (σ : Arenas) (vs : List Value) : exactShapes σ vs = vs.map (exactShape σ) := by
  induction vs with
  | nil => rfl
  | cons v vs ih => rw [exactShapes, ih, map_cons]

/-- The value passed the checks of the function that makes it from its parts, and an operator has the shape that its
operands give it. -/
def Admitted (σ : Arenas) : Value → Prop
  | .const _ s => 0 ≤ s.width
  | .net n => 0 ≤ (n.shape σ).width
  | .unary op a s => op.shape (a.shape σ) = s
  | .binary op a b s => op.shape? (a.shape σ) (b.shape σ) = some s
  | .mux _ a b s => (a.shape σ).promote (b.shape σ) = s
  | .slice _ start stop => start ≤ stop
  | .part _ _ width _ => 0 ≤ width
  | .repl _ count => 0 ≤ count
  | .cat _ | .proxy _ _ | .sample _ _ _ | .initial => True

/-- A product of two signed operands without bits. -/
def IsVoidProduct (σ : Arenas) : Value → Prop
  | .binary .mul a b _ => a.shape σ = .signed 0 ∧ b.shape σ = .signed 0
  | _ => False

/-- Everything in the value was admitted. -/
def Sound (σ : Arenas) (v : Value) : Prop := ∀ u ∈ v.subvalues, u.Admitted σ

theorem sound_iff : v.Sound σ ↔ v.Admitted σ ∧ ∀ c ∈ v.children, c.Sound σ := forall_subvalues

/-- While all exact widths are words, every value has its exact shape. -/
theorem shape_eq_exactShape (hv : v.Sound σ) (hword : ∀ u ∈ v.subvalues, InWord (u.exactShape σ).width) :
    v.shape σ = v.exactShape σ := by
  induction v using children_induct with
  | h v ih =>
    obtain ⟨hadm, hsound⟩ := sound_iff.mp hv
    obtain ⟨hself, hparts⟩ := forall_subvalues.mp hword
    have hshape : ∀ c ∈ v.children, c.shape σ = c.exactShape σ := fun c hc => ih c hc (hsound c hc) (hparts c hc)
    have hwidth : ∀ c ∈ v.children, InWord (c.exactShape σ).width := fun c hc => hparts c hc c (self_mem_subvalues c)
    cases v with
    | const | net | initial | part => rfl
    | unary op a =>
      rw [Admitted, hshape a (by simp [children])] at hadm
      rw [shape, ← hadm]
      exact UnaryOp.shape_eq hself
    | binary op a b =>
      rw [Admitted, hshape a (by simp [children]), hshape b (by simp [children])] at hadm
      exact BinaryOp.shape_eq (hwidth a (by simp [children])) (hwidth b (by simp [children])) hself hadm
    | mux sel a b =>
      rw [Admitted, hshape a (by simp [children]), hshape b (by simp [children])] at hadm
      rw [shape, ← hadm]
      exact Shape.promote_eq (hwidth a (by simp [children])) (hwidth b (by simp [children])) hself
    | slice => exact congrArg Shape.unsigned (wrap_of_inWord hself)
    | cat parts =>
      have hmap : parts.map (shape σ) = parts.map (exactShape σ) := map_congr_left hshape
      rw [exactShape, exactShapes_eq_map] at hself ⊢
      rw [shape, shapes_eq_map, hmap, Shape.totalWidth_eq]
      exact congrArg Shape.unsigned (wrap_of_inWord hself)
    | repl v =>
      rw [shape, hshape v (by simp [children])]
      exact congrArg Shape.unsigned (wrap_of_inWord hself)
    | proxy =>
      rw [exactShape, exactShapes_eq_map] at hself ⊢
      rw [shape, shapes_eq_map, map_congr_left fun c hc => hshape c (mem_cons_of_mem _ hc)]
      exact Shape.join_eq hself
    | sample v => exact hshape v (by simp [children])

/-- A value over no product of signed operands of no bits has no missing bits. -/
theorem exactShape_nonneg (hv : v.Sound σ) (hword : ∀ u ∈ v.subvalues, InWord (u.exactShape σ).width)
    (hvoid : ∀ u ∈ v.subvalues, ¬ u.IsVoidProduct σ) : 0 ≤ (v.exactShape σ).width := by
  induction v using children_induct with
  | h v ih =>
    obtain ⟨hadm, hsound⟩ := sound_iff.mp hv
    obtain ⟨-, hwords⟩ := forall_subvalues.mp hword
    obtain ⟨hself, hvoids⟩ := forall_subvalues.mp hvoid
    have hshape : ∀ c ∈ v.children, c.shape σ = c.exactShape σ :=
      fun c hc => shape_eq_exactShape (hsound c hc) (hwords c hc)
    have hwidth : ∀ c ∈ v.children, 0 ≤ (c.exactShape σ).width :=
      fun c hc => ih c hc (hsound c hc) (hwords c hc) (hvoids c hc)
    cases v with
    | const => exact hadm
    | net => exact hadm
    | unary op a => exact UnaryOp.exactShape_nonneg (hwidth a (by simp [children]))
    | binary op a b =>
      refine BinaryOp.exactShape_nonneg (hwidth a (by simp [children])) (hwidth b (by simp [children])) ?_
      rintro rfl hsigned
      rw [← hshape a (by simp [children]), ← hshape b (by simp [children])] at hsigned
      exact hself hsigned
    | mux sel a => exact Shape.exactPromote_nonneg (hwidth a (by simp [children]))
    | slice => exact Int.sub_nonneg_of_le hadm
    | part => exact hadm
    | cat =>
      rw [exactShape, exactShapes_eq_map]
      apply sum_nonneg
      intro n hn
      simp only [map_map, mem_map, Function.comp] at hn
      obtain ⟨c, hc, rfl⟩ := hn
      exact hwidth c hc
    | repl v => exact Int.mul_nonneg (hwidth v (by simp [children])) hadm
    | proxy => exact Shape.exactJoin_nonneg _
    | sample v => exact hwidth v (by simp [children])
    | initial => exact Int.one_nonneg

/-- A product of two signed operands without bits is one bit short of none. -/
theorem IsVoidProduct.width (h : v.IsVoidProduct σ) (hadm : v.Admitted σ) : v.width σ = -1 := by
  unfold IsVoidProduct at h
  split at h
  · rename_i a b s
    rw [Admitted, h.1, h.2] at hadm
    cases hadm
    rfl
  · exact h.elim

/-! ## Building values -/

/-- The values that can be built: from literals and constants, from issued signals, from references to clocks and
resets, and by every function that makes values from values. A value stays built while the arenas change, as long as
its signals keep their shapes. -/
inductive Constructed : Arenas → Value → Prop where
  | literal {σ : Arenas} {o : Operand} {v : Value} (ho : ∀ u, o ≠ .value u) (h : Operand.cast o = .ok v) :
    Constructed σ v
  | const {σ : Arenas} {n : Int} {s : Shape} {v : Value} (h : ofIntShape n s = .ok v) : Constructed σ v
  | issued {σ σ' : Arenas} {a : Nat} {spec : SignalSpec} {id : SignalId} (ha : a < σ.list.size)
      (h : σ.issue a spec = .ok (σ', id)) : Constructed σ' (.signal id)
  | clock {σ : Arenas} {d : String} {v : Value} (h : mkClock d = .ok v) : Constructed σ v
  | reset {σ : Arenas} {d : String} {allow : Bool} {v : Value} (h : mkReset d allow = .ok v) : Constructed σ v
  | initial {σ : Arenas} : Constructed σ .initial
  | operator {σ : Arenas} {symbol : String} {args : List Operand} {v : Value}
      (hargs : ∀ u, .value u ∈ args → Constructed σ u) (h : Value.operator σ symbol args = .ok v) : Constructed σ v
  | choose {σ : Arenas} {sel a b : Operand} {v : Value}
      (hargs : ∀ u, .value u ∈ [sel, a, b] → Constructed σ u) (h : Value.choose σ sel a b = .ok v) : Constructed σ v
  | slice {σ : Arenas} {v w : Value} {start stop : Int} (hv : Constructed σ v)
      (h : mkSlice σ v start stop = .ok w) : Constructed σ w
  | bit {σ : Arenas} {v w : Value} {i : Int} (hv : Constructed σ v) (h : Value.bit σ v i = .ok w) : Constructed σ w
  | range {σ : Arenas} {v w : Value} {start stop : Int} (hv : Constructed σ v)
      (h : Value.range σ v start stop = .ok w) : Constructed σ w
  | part {σ : Arenas} {v offset w : Value} {width stride : Int} (hv : Constructed σ v) (ho : Constructed σ offset)
      (h : mkPart σ v offset width stride = .ok w) : Constructed σ w
  | bitSelect {σ : Arenas} {v w : Value} {offset : Operand} {width : Int} (hv : Constructed σ v)
      (ho : ∀ u, offset = .value u → Constructed σ u) (h : Value.bitSelect σ v offset width = .ok w) : Constructed σ w
  | wordSelect {σ : Arenas} {v w : Value} {offset : Operand} {width : Int} (hv : Constructed σ v)
      (ho : ∀ u, offset = .value u → Constructed σ u) (h : Value.wordSelect σ v offset width = .ok w) : Constructed σ w
  | cat {σ : Arenas} {args : List Operand} {v : Value} (hargs : ∀ u, .value u ∈ args → Constructed σ u)
      (h : mkCat args = .ok v) : Constructed σ v
  | repl {σ : Arenas} {o : Operand} {count : Int} {v : Value} (ho : ∀ u, o = .value u → Constructed σ u)
      (h : mkRepl o count = .ok v) : Constructed σ v
  | proxy {σ : Arenas} {elems : List Value} {index : Operand} {v : Value} (helems : ∀ u ∈ elems, Constructed σ u)
      (hi : ∀ u, index = .value u → Constructed σ u) (h : mkProxy elems index = .ok v) : Constructed σ v
  | sample {σ : Arenas} {v w : Value} {clocks : Int} {domain : String} (hv : Constructed σ v)
      (h : mkSample σ v clocks domain = .ok w) : Constructed σ w
  | matchAny {σ : Arenas} {v w : Value} {patterns : List Operand} (hv : Constructed σ v)
      (h : Value.matchAny σ v patterns = .ok w) : Constructed σ w
  | later {σ σ' : Arenas} {v : Value} (hv : Constructed σ v)
      (h : ∀ n, .net n ∈ v.subvalues → n.shape σ' = n.shape σ) : Constructed σ' v

theorem sound_ofIntShape {n : Int} {s : Shape} (h : ofIntShape n s = .ok v) : v.Sound σ := by
  unfold ofIntShape at h
  split at h
  · cases h
  · split at h
    · cases h
    · cases h
      exact sound_iff.mpr ⟨by simpa [Admitted] using ‹¬ s.width < 0›, by simp [children]⟩

theorem sound_cast {o : Operand} (ho : ∀ u, o = .value u → u.Sound σ) (h : o.cast = .ok v) : v.Sound σ := by
  cases o with
  | value =>
    cases h
    exact ho v rfl
  | flag =>
    cases h
    exact sound_iff.mpr ⟨Int.one_nonneg, by simp [ofBool, children]⟩
  | int =>
    cases h
    exact sound_iff.mpr ⟨Int.natCast_nonneg _, by simp [ofInt, children]⟩
  | float | text | absent => cases h

theorem sound_castAll {os : List Operand} {vs : List Value} (ho : ∀ u, .value u ∈ os → u.Sound σ)
    (h : Operand.castAll os = .ok vs) : ∀ v ∈ vs, v.Sound σ := by
  induction os generalizing vs with
  | nil =>
    cases h
    simp
  | cons o rest ih =>
    obtain ⟨v, hv, h⟩ := except_bind_eq_ok.mp h
    obtain ⟨ws, hws, h⟩ := except_bind_eq_ok.mp h
    cases h
    refine forall_mem_cons.mpr ⟨sound_cast ?_ hv, ih ?_ hws⟩
    · exact fun u hu => ho u (hu ▸ mem_cons_self)
    · exact fun u hu => ho u (mem_cons_of_mem _ hu)

theorem sound_mkUnary (ha : a.Sound σ) (op : UnaryOp) : (mkUnary σ op a).Sound σ :=
  sound_iff.mpr ⟨rfl, by simpa [mkUnary, children] using ha⟩

theorem sound_mkBinary {op : BinaryOp} (ha : a.Sound σ) (hb : b.Sound σ) (h : mkBinary σ op a b = .ok v) :
    v.Sound σ := by
  unfold mkBinary at h
  split at h
  · rename_i s hs
    cases h
    exact sound_iff.mpr ⟨hs, by simpa [children] using ⟨ha, hb⟩⟩
  · cases h

theorem sound_mkMux {sel : Value} (hs : sel.Sound σ) (ha : a.Sound σ) (hb : b.Sound σ) : (mkMux σ sel a b).Sound σ :=
  sound_iff.mpr ⟨rfl, by simpa [mkMux, children] using ⟨hs, ha, hb⟩⟩

theorem sound_mkSlice {start stop : Int} (hv : v.Sound σ) (h : mkSlice σ v start stop = .ok w) : w.Sound σ := by
  unfold mkSlice at h
  dsimp only at h
  split at h
  · cases h
  · split at h
    · cases h
    · rename_i hstop
      cases h
      simp only [Bool.or_eq_true, decide_eq_true_eq, not_or, not_lt] at hstop
      exact sound_iff.mpr ⟨hstop.1, by simpa [children] using hv⟩

theorem sound_mkPart {offset : Value} {width stride : Int} (hv : v.Sound σ) (ho : offset.Sound σ)
    (h : mkPart σ v offset width stride = .ok w) : w.Sound σ := by
  unfold mkPart at h
  split at h
  · cases h
  · rename_i hwidth
    split at h
    · cases h
    · split at h
      · cases h
      · cases h
        exact sound_iff.mpr ⟨not_lt.mp hwidth, by simpa [children] using ⟨hv, ho⟩⟩

theorem sound_operator {symbol : String} {args : List Operand} (hargs : ∀ u, .value u ∈ args → u.Sound σ)
    (h : operator σ symbol args = .ok v) : v.Sound σ := by
  have hcast : ∀ o ∈ args, ∀ a, o.cast = .ok a → a.Sound σ := by
    intro o ho a ha
    refine sound_cast ?_ ha
    rintro u rfl
    exact hargs u ho
  unfold operator at h
  split at h
  · cases h
  · split at h
    · split at h
      · cases h
      · obtain ⟨a, ha, h⟩ := except_bind_eq_ok.mp h
        cases h
        exact sound_mkUnary (hcast _ (by simp) a ha) _
    · split at h
      · cases h
      · obtain ⟨a, ha, h⟩ := except_bind_eq_ok.mp h
        obtain ⟨b, hb, h⟩ := except_bind_eq_ok.mp h
        exact sound_mkBinary (hcast _ (by simp) a ha) (hcast _ (by simp) b hb) h
    · split at h
      · obtain ⟨s, hs, h⟩ := except_bind_eq_ok.mp h
        obtain ⟨a, ha, h⟩ := except_bind_eq_ok.mp h
        obtain ⟨b, hb, h⟩ := except_bind_eq_ok.mp h
        cases h
        exact sound_mkMux (hcast _ (by simp) s hs) (hcast _ (by simp) a ha) (hcast _ (by simp) b hb)
      · cases h
    · cases h

theorem sound_choose {sel a b : Operand} (hargs : ∀ u, .value u ∈ [sel, a, b] → u.Sound σ)
    (h : choose σ sel a b = .ok v) : v.Sound σ := by
  have hcast : ∀ o ∈ [sel, a, b], ∀ a, o.cast = .ok a → a.Sound σ := by
    intro o ho a ha
    refine sound_cast ?_ ha
    rintro u rfl
    exact hargs u ho
  obtain ⟨s, hs, h⟩ := except_bind_eq_ok.mp h
  obtain ⟨x, hx, h⟩ := except_bind_eq_ok.mp h
  obtain ⟨y, hy, h⟩ := except_bind_eq_ok.mp h
  cases h
  refine sound_mkMux ?_ (hcast _ (by simp) x hx) (hcast _ (by simp) y hy)
  unfold asBit
  split
  · exact hcast _ (by simp) s hs
  · exact sound_mkUnary (hcast _ (by simp) s hs) _

section

variable (hv : v.Sound σ) {width : Int}
include hv

theorem sound_bit {i : Int} (h : bit σ v i = .ok w) : w.Sound σ := by
  unfold bit at h
  dsimp only at h
  split at h
  · cases h
  · exact sound_mkSlice hv h

theorem sound_bitSelect (ho : ∀ u, offset = .value u → u.Sound σ)
    (h : bitSelect σ v offset width = .ok w) : w.Sound σ := by
  obtain ⟨off, hoff, h⟩ := except_bind_eq_ok.mp h
  split at h
  · exact sound_mkSlice hv h
  · exact sound_mkPart hv (sound_cast ho hoff) h

theorem sound_wordSelect (ho : ∀ u, offset = .value u → u.Sound σ)
    (h : wordSelect σ v offset width = .ok w) : w.Sound σ := by
  obtain ⟨off, hoff, h⟩ := except_bind_eq_ok.mp h
  split at h
  · exact sound_mkSlice hv h
  · exact sound_mkPart hv (sound_cast ho hoff) h

theorem sound_matchTerm {pattern : String} (h : matchTerm σ v pattern = .ok w) : w.Sound σ := by
  unfold matchTerm at h
  dsimp only at h
  split at h
  · exact sound_ofIntShape h
  · obtain ⟨mask, hmask, h⟩ := except_bind_eq_ok.mp h
    obtain ⟨masked, hmasked, h⟩ := except_bind_eq_ok.mp h
    obtain ⟨wanted, hwanted, h⟩ := except_bind_eq_ok.mp h
    exact sound_mkBinary (sound_mkBinary hv (sound_ofIntShape hmask) hmasked) (sound_ofIntShape hwanted) h

theorem sound_matchTerms {ws : List Value} (h : matchTerms σ v patterns = .ok ws) :
    ∀ w ∈ ws, w.Sound σ := by
  induction patterns generalizing ws with
  | nil =>
    cases h
    simp
  | cons p rest ih =>
    obtain ⟨pattern?, -, h⟩ := except_bind_eq_ok.mp h
    cases pattern? with
    | none => exact ih h
    | some =>
      obtain ⟨term, hterm, h⟩ := except_bind_eq_ok.mp h
      obtain ⟨terms, hterms, h⟩ := except_bind_eq_ok.mp h
      cases h
      exact forall_mem_cons.mpr ⟨sound_matchTerm hv (except_mapError_eq_ok.mp hterm), ih hterms⟩

theorem sound_matchAny (h : matchAny σ v patterns = .ok w) : w.Sound σ := by
  obtain ⟨ws, hws, h⟩ := except_bind_eq_ok.mp h
  have hterms := sound_matchTerms hv hws
  split at h
  · cases h
    exact sound_iff.mpr ⟨Int.one_nonneg, by simp [children]⟩
  · cases h
    exact hterms _ mem_cons_self
  · cases h
    have hcat : (cat ws).Sound σ := sound_iff.mpr ⟨trivial, hterms⟩
    exact sound_mkUnary hcat _

end

/-- The shape of a value depends on the arenas through its nets alone. -/
theorem shape_eq_of_nets (h : ∀ n, .net n ∈ v.subvalues → n.shape σ' = n.shape σ) : v.shape σ' = v.shape σ := by
  induction v using children_induct with
  | h v ih =>
    have hshape : ∀ c ∈ v.children, c.shape σ' = c.shape σ :=
      fun c hc => ih c hc fun n hn => h n (mem_subvalues.mpr (.inr ⟨c, hc, hn⟩))
    cases v with
    | const | unary | binary | mux | slice | part | initial => rfl
    | net n => exact h n (self_mem_subvalues _)
    | cat parts =>
      have hmap : parts.map (shape σ') = parts.map (shape σ) := map_congr_left hshape
      rw [shape, shape, shapes_eq_map, shapes_eq_map, hmap]
    | repl v => rw [shape, shape, hshape v (by simp [children])]
    | proxy =>
      rw [shape, shape, shapes_eq_map, shapes_eq_map,
        map_congr_left fun c hc => hshape c (mem_cons_of_mem _ hc)]
    | sample v => exact hshape v (by simp [children])

theorem Sound.later (hv : v.Sound σ) (h : ∀ n, .net n ∈ v.subvalues → n.shape σ' = n.shape σ) : v.Sound σ' := by
  intro u hu
  have hadm := hv u hu
  have hshape : ∀ c ∈ u.children, c.shape σ' = c.shape σ := by
    intro c hc
    refine shape_eq_of_nets fun n hn => h n (subvalues_trans (mem_subvalues.mpr (.inr ⟨c, hc, hn⟩)) hu)
  cases u with
  | const | slice | part | repl | cat | proxy | sample | initial => exact hadm
  | net n =>
    rw [Admitted, h n hu]
    exact hadm
  | unary op a =>
    rw [Admitted, hshape a (by simp [children])]
    exact hadm
  | binary op a b | mux sel a b =>
    rw [Admitted, hshape a (by simp [children]), hshape b (by simp [children])]
    exact hadm

/-- Whatever is built passed the checks of the functions that made it and its parts. -/
theorem Constructed.sound (hv : Constructed σ v) : v.Sound σ := by
  induction hv with
  | literal ho h => exact sound_cast (fun u hu => absurd hu (ho u)) h
  | const h => exact sound_ofIntShape h
  | issued ha h =>
    obtain ⟨-, -, hshape⟩ := Arenas.issue_spec h ha
    refine sound_iff.mpr ⟨?_, by simp [signal, children]⟩
    change 0 ≤ (Arenas.shape _ _).width
    obtain ⟨-, -, hwidth, -⟩ := Arenas.issue_inv h
    rw [hshape]
    exact hwidth
  | clock h =>
    obtain ⟨-, rfl⟩ := mkClock_eq_ok.mp h
    exact sound_iff.mpr ⟨Int.one_nonneg, by simp [children]⟩
  | reset h =>
    obtain ⟨-, rfl⟩ := mkReset_eq_ok.mp h
    exact sound_iff.mpr ⟨Int.one_nonneg, by simp [children]⟩
  | initial => exact sound_iff.mpr ⟨trivial, by simp [children]⟩
  | operator _ h ih => exact sound_operator ih h
  | choose _ h ih => exact sound_choose ih h
  | slice _ h ih => exact sound_mkSlice ih h
  | bit _ h ih => exact sound_bit ih h
  | range _ h ih => exact sound_mkSlice ih h
  | part _ _ h ihv iho => exact sound_mkPart ihv iho h
  | bitSelect _ _ h ihv iho => exact sound_bitSelect ihv iho h
  | wordSelect _ _ h ihv iho => exact sound_wordSelect ihv iho h
  | cat _ h ih =>
    obtain ⟨parts, hparts, h⟩ := except_bind_eq_ok.mp h
    cases h
    exact sound_iff.mpr ⟨trivial, sound_castAll ih hparts⟩
  | repl _ h ih =>
    unfold mkRepl at h
    split at h
    · cases h
    · rename_i hcount
      obtain ⟨v, hv, h⟩ := except_bind_eq_ok.mp h
      cases h
      exact sound_iff.mpr ⟨not_lt.mp hcount, by simpa [children] using sound_cast ih hv⟩
  | proxy _ _ h ihelems ihindex =>
    unfold mkProxy at h
    split at h
    · cases h
    · obtain ⟨i, hi, h⟩ := except_bind_eq_ok.mp h
      cases h
      exact sound_iff.mpr ⟨trivial, forall_mem_cons.mpr ⟨sound_cast ihindex hi, ihelems⟩⟩
  | sample _ h ih =>
    unfold mkSample at h
    split at h
    · cases h
    · split at h
      · cases h
      · split at h
        · cases h
        · cases h
          exact sound_iff.mpr ⟨trivial, by simpa [children] using ih⟩
  | matchAny _ h ih => exact sound_matchAny ih h
  | later _ h ih => exact ih.later h

/-- A value that can be built, all of whose exact widths are 64-bit words, has its exact shape throughout; and no width
in it is negative exactly when it multiplies nowhere two signed operands without bits. -/
theorem width_nonneg_iff {v : Value} (hv : Constructed σ v) (hword : ∀ u ∈ v.subvalues, InWord (u.exactShape σ).width) :
    (∀ u ∈ v.subvalues, u.shape σ = u.exactShape σ) ∧
      ((∀ u ∈ v.subvalues, 0 ≤ u.width σ) ↔ ∀ u ∈ v.subvalues, ¬ u.IsVoidProduct σ) := by
  have hsound : ∀ u ∈ v.subvalues, u.Sound σ := fun u hu w hw => hv.sound w (subvalues_trans hw hu)
  have hwords : ∀ u ∈ v.subvalues, ∀ w ∈ u.subvalues, InWord (w.exactShape σ).width :=
    fun u hu w hw => hword w (subvalues_trans hw hu)
  have hshape : ∀ u ∈ v.subvalues, u.shape σ = u.exactShape σ :=
    fun u hu => shape_eq_exactShape (hsound u hu) (hwords u hu)
  refine ⟨hshape, ?_, ?_⟩
  · intro hnonneg u hu hvoid
    have hwidth := hnonneg u hu
    rw [hvoid.width (hv.sound u hu)] at hwidth
    exact absurd hwidth (by decide)
  · intro hvoid u hu
    rw [width, hshape u hu]
    exact exactShape_nonneg (hsound u hu) (hwords u hu) fun w hw => hvoid w (subvalues_trans hw hu)

/-- A signed constant without bits. -/
def noBits : Value := .const 0 (.signed 0)

/-- The product of a signed constant of three bits and one without bits. -/
def product : Value := .binary .mul (.const 3 (.signed 3)) noBits (.signed 2)

/-- The product beside its lowest bit, negated. -/
def negated : Value := .unary .minus (.cat [product, .slice product 0 1]) (.signed 4)

theorem constructed_noBits : Constructed .empty noBits := .const (n := 0) (s := .signed 0) rfl

theorem constructed_product : Constructed .empty product := by
  have hmul : operator .empty "*" [.value (.const 3 (.signed 3)), .value noBits] = .ok product := by rfl
  refine .operator ?_ hmul
  intro u hu
  simp only [mem_cons, Operand.value.injEq, not_mem_nil, or_false] at hu
  obtain rfl | rfl := hu
  · exact .const (n := 3) (s := .signed 3) rfl
  · exact constructed_noBits

theorem constructed_negated : Constructed .empty negated := by
  have hslice : mkSlice .empty product 0 1 = .ok (.slice product 0 1) := by rfl
  have hcat : mkCat [.value product, .value (.slice product 0 1)] = .ok (.cat [product, .slice product 0 1]) := by rfl
  have hneg : operator .empty "-" [.value (.cat [product, .slice product 0 1])] = .ok negated := by rfl
  refine .operator ?_ hneg
  intro u hu
  cases mem_singleton.mp hu
  refine .cat ?_ hcat
  intro w hw
  simp only [mem_cons, Operand.value.injEq, not_mem_nil, or_false] at hw
  obtain rfl | rfl := hw
  · exact constructed_product
  · exact .slice constructed_product hslice

theorem width_nonneg_iff_negated :
    Constructed .empty negated ∧ (∀ u ∈ negated.subvalues, InWord (u.exactShape .empty).width) ∧
      (∀ u ∈ negated.subvalues, u.shape .empty = u.exactShape .empty) ∧
      ∀ u ∈ negated.subvalues, 0 ≤ u.width .empty := by
  have hword : ∀ u ∈ negated.subvalues, InWord (u.exactShape .empty).width := by decide
  have hvoid : ∀ u ∈ negated.subvalues, ¬ u.IsVoidProduct .empty := by
    simp [negated, product, noBits, subvalues, subvaluesAll, IsVoidProduct, shape, Shape.signed]
  obtain ⟨hshape, hnonneg⟩ := width_nonneg_iff constructed_negated hword
  exact ⟨constructed_negated, hword, hshape, hnonneg.mpr hvoid⟩

/-- Two signed constants without bits have a product whose width is negative, though all exact widths are words. -/
theorem not_forall_width_nonneg : ¬ ∀ (σ : Arenas) (v : Value), Constructed σ v →
    (∀ u ∈ v.subvalues, InWord (u.exactShape σ).width) → 0 ≤ v.width σ := by
  intro h
  have hmul : operator .empty "*" [.value noBits, .value noBits] =
      .ok (.binary .mul noBits noBits (.signed (-1))) := by rfl
  have hbuilt : Constructed .empty (.binary .mul noBits noBits (.signed (-1))) := by
    refine .operator ?_ hmul
    intro u hu
    have hnone : u = noBits := by simpa using hu
    rw [hnone]
    exact constructed_noBits
  exact absurd (h _ _ hbuilt (by decide)) (by decide)

end Value
end Rtl
