import Mathlib
import Rtl.Proofs.Widths

/-!
# Results of operators and the ranges of their shapes

A shape holds the integers of its two's complement range. An operator that was accepted, applied to integers that its
operands hold, has an exact result over the integers, and the shape of the operator holds it. There are three
exceptions: the difference of two unsigned operands may be negative, the negation of the least integer of a signed
shape is one too large for it, and so is the product of the least integers of two signed shapes. Whatever a shape
does not hold is wrapped to an integer congruent to it.
-/
namespace Rtl

open List Int

variable {y : Int}

namespace Shape

def least (s : Shape) : Int := if s.isSigned then -(2 ^ s.width.toNat / 2) else 0

def greatest (s : Shape) : Int := if s.isSigned then (2 ^ s.width.toNat - 1) / 2 else 2 ^ s.width.toNat - 1

/-- The integer lies in the two's complement range of the shape. A shape of no bits holds zero alone. -/
def Holds (s : Shape) (x : Int) : Prop := 0 ≤ s.width ∧ s.least ≤ x ∧ x ≤ s.greatest

instance (s : Shape) (x : Int) : Decidable (s.Holds x) := inferInstanceAs (Decidable (_ ∧ _))

variable {s a b : Shape} {w v x y : Int}

theorem holds_unsigned : (⟨w, false⟩ : Shape).Holds x ↔ 0 ≤ w ∧ 0 ≤ x ∧ x < 2 ^ w.toNat := by
  simp only [Holds, least, greatest, Bool.false_eq_true, if_false]
  omega

/-- Doubling keeps the range of a signed shape free of halves, also when the shape has no bits. -/
theorem holds_signed : (⟨w, true⟩ : Shape).Holds x ↔ 0 ≤ w ∧ -2 ^ w.toNat ≤ 2 * x ∧ 2 * x < 2 ^ w.toNat := by
  simp only [Holds, least, greatest, if_true]
  omega

theorem Holds.normalize_eq (h : s.Holds x) : s.normalize x = x := by
  obtain ⟨w, isSigned⟩ := s
  have hcast : ((Nat.pow 2 w.toNat : Nat) : Int) = 2 ^ w.toNat := by norm_num
  cases isSigned with
  | false =>
    obtain ⟨-, hlow, hhigh⟩ := holds_unsigned.mp h
    exact emod_eq_of_lt hlow (hcast ▸ hhigh)
  | true =>
    obtain ⟨-, hlow, hhigh⟩ := holds_signed.mp h
    exact bmod_eq_of_le_mul_two (by rw [hcast]; omega) (by rw [hcast]; omega)

theorem normalize_modEq (s : Shape) (x : Int) : s.normalize x ≡ x [ZMOD 2 ^ s.width.toNat] := by
  have hcast : ((Nat.pow 2 s.width.toNat : Nat) : Int) = 2 ^ s.width.toNat := by norm_num
  unfold normalize
  split
  · exact hcast ▸ bmod_emod
  · exact hcast ▸ mod_modEq x _

theorem Holds.widen (h : s.Holds x) (hw : s.width ≤ w) : (⟨w, s.isSigned⟩ : Shape).Holds x := by
  obtain ⟨v, isSigned⟩ := s
  have hpow : (2 : Int) ^ v.toNat ≤ 2 ^ w.toNat := pow_le_pow_right₀ (by decide) (toNat_le_toNat hw)
  cases isSigned <;> simp only [holds_unsigned, holds_signed] at h hw ⊢ <;> omega

theorem two_pow_add (hw : 0 ≤ w) (hv : 0 ≤ v) : (2 : Int) ^ (w + v).toNat = 2 ^ w.toNat * 2 ^ v.toNat := by
  rw [toNat_add hw hv, pow_add]

theorem two_pow_succ (hw : 0 ≤ w) : (2 : Int) ^ (w + 1).toNat = 2 * 2 ^ w.toNat := by
  rw [two_pow_add hw Int.one_nonneg]
  exact mul_comm _ _

theorem Holds.sign (h : (⟨w, false⟩ : Shape).Holds x) : (⟨w + 1, true⟩ : Shape).Holds x := by
  have hpow := two_pow_succ h.1
  simp only [holds_unsigned, holds_signed] at h hpow ⊢
  omega

/-- What stands side by side with another operand keeps its value. -/
theorem Holds.promote_left (h : a.Holds x) (b : Shape) : (a.exactPromote b).Holds x := by
  obtain ⟨w, sa⟩ := a
  obtain ⟨v, sb⟩ := b
  cases sa with
  | true => exact h.widen (le_trans (by simp) (le_max_left _ _))
  | false =>
    cases sb with
    | false => exact h.widen (le_trans (by simp) (le_max_left _ _))
    | true => exact h.sign.widen (le_trans (by simp) (le_max_left _ _))

theorem Holds.promote_right (h : b.Holds y) (a : Shape) : (a.exactPromote b).Holds y := by
  have hcomm : a.exactPromote b = b.exactPromote a := by
    simp only [exactPromote, Bool.or_comm b.isSigned a.isSigned, max_comm]
  exact hcomm ▸ h.promote_left a

/-! ## Exact results -/

theorem Holds.add (hx : s.Holds x) (hy : s.Holds y) : (⟨s.width + 1, s.isSigned⟩ : Shape).Holds (x + y) := by
  obtain ⟨w, isSigned⟩ := s
  have hpow := two_pow_succ (w := w) hx.1
  cases isSigned <;> simp only [holds_unsigned, holds_signed] at hx hy ⊢ <;> omega

/-- A difference needs no more bits than a sum, but a sign when it is negative. -/
theorem Holds.sub_iff (hx : s.Holds x) (hy : s.Holds y) :
    (⟨s.width + 1, s.isSigned⟩ : Shape).Holds (x - y) ↔ (s.isSigned = false → y ≤ x) := by
  obtain ⟨w, isSigned⟩ := s
  have hpow := two_pow_succ (w := w) hx.1
  cases isSigned <;> simp only [holds_unsigned, holds_signed, forall_const, reduceCtorEq, false_imp_iff,
    iff_true] at hx hy ⊢ <;> omega

theorem Holds.neg_unsigned (h : (⟨w, false⟩ : Shape).Holds x) : (⟨w + 1, true⟩ : Shape).Holds (-x) := by
  have hpow := two_pow_succ h.1
  simp only [holds_unsigned, holds_signed] at h hpow ⊢
  omega

theorem Holds.neg_iff (h : (⟨w, true⟩ : Shape).Holds x) (hw : 1 ≤ w) :
    (⟨w, true⟩ : Shape).Holds (-x) ↔ x ≠ least ⟨w, true⟩ := by
  obtain ⟨v, rfl⟩ : ∃ v, w = v + 1 := ⟨w - 1, by omega⟩
  have hpow := two_pow_succ (w := v) (by omega)
  simp only [holds_signed, least, if_true] at h ⊢
  omega

/-- Bits below the sign, and a sign where the shape has one: a negative integer is written by its complement. -/
theorem holds_iff_bits : s.Holds x ↔ 0 ≤ s.width ∧ ∃ m < 2 ^ (if s.isSigned then s.width - 1 else s.width).toNat,
    x = (m : Nat) ∨ (s.isSigned = true ∧ 1 ≤ s.width) ∧ x = Int.negSucc m := by
  obtain ⟨w, isSigned⟩ := s
  cases isSigned with
  | false =>
    simp only [holds_unsigned, Bool.false_eq_true, if_false, false_and, or_false]
    refine and_congr_right fun _ => ⟨fun h => ⟨x.toNat, by zify; omega, by omega⟩, ?_⟩
    rintro ⟨m, hm, rfl⟩
    zify at hm
    omega
  | true =>
    simp only [holds_signed, if_true, true_and]
    refine and_congr_right fun hw => ?_
    by_cases hzero : w = 0
    · subst hzero
      simp
      omega
    · have hpow := two_pow_succ (w := w - 1) (by omega)
      rw [sub_add_cancel] at hpow
      constructor
      · intro h
        cases x with
        | ofNat m => exact ⟨m, by zify; simp at h; omega, .inl rfl⟩
        | negSucc m => exact ⟨m, by zify; omega, .inr ⟨by omega, rfl⟩⟩
      · rintro ⟨m, hm, rfl | ⟨-, rfl⟩⟩ <;> zify at hm <;> omega

theorem Holds.bitwise (hx : s.Holds x) (hy : s.Holds y) :
    s.Holds (x.land y) ∧ s.Holds (x.lor y) ∧ s.Holds (x.xor y) := by
  obtain ⟨hw, m, hm, hx⟩ := holds_iff_bits.mp hx
  obtain ⟨-, k, hk, hy⟩ := holds_iff_bits.mp hy
  have hand := Nat.and_lt_two_pow m hk
  have hor := Nat.or_lt_two_pow hm hk
  have hxor := Nat.xor_lt_two_pow hm hk
  have hmk : m.ldiff k < _ := Nat.bitwise_lt_two_pow hm hk
  have hkm : k.ldiff m < _ := Nat.bitwise_lt_two_pow hk hm
  simp only [holds_iff_bits]
  rcases hx with rfl | ⟨hs, rfl⟩ <;> rcases hy with rfl | ⟨hs, rfl⟩
  · exact ⟨⟨hw, _, hand, .inl rfl⟩, ⟨hw, _, hor, .inl rfl⟩, ⟨hw, _, hxor, .inl rfl⟩⟩
  · exact ⟨⟨hw, _, hmk, .inl rfl⟩, ⟨hw, _, hkm, .inr ⟨hs, rfl⟩⟩, ⟨hw, _, hxor, .inr ⟨hs, rfl⟩⟩⟩
  · exact ⟨⟨hw, _, hkm, .inl rfl⟩, ⟨hw, _, hmk, .inr ⟨hs, rfl⟩⟩, ⟨hw, _, hxor, .inr ⟨hs, rfl⟩⟩⟩
  · exact ⟨⟨hw, _, hor, .inr ⟨hs, rfl⟩⟩, ⟨hw, _, hand, .inr ⟨hs, rfl⟩⟩, ⟨hw, _, hxor, .inl rfl⟩⟩

/-! ## Products, quotients and shifts -/

theorem Holds.mul_unsigned (hx : (⟨w, false⟩ : Shape).Holds x) (hy : (⟨v, false⟩ : Shape).Holds y) :
    (⟨w + v, false⟩ : Shape).Holds (x * y) := by
  obtain ⟨hw, hxl, hxh⟩ := holds_unsigned.mp hx
  obtain ⟨hv, hyl, hyh⟩ := holds_unsigned.mp hy
  rw [holds_unsigned, two_pow_add hw hv]
  exact ⟨add_nonneg hw hv, mul_nonneg hxl hyl, mul_lt_mul'' hxh hyh hxl hyl⟩

/-- An unsigned factor is less than the bits it adds. -/
theorem Holds.mul_mixed (hx : (⟨w, false⟩ : Shape).Holds x) (hy : (⟨v, true⟩ : Shape).Holds y) :
    (⟨w + v, true⟩ : Shape).Holds (x * y) := by
  obtain ⟨hw, hxl, hxh⟩ := holds_unsigned.mp hx
  obtain ⟨hv, hyl, hyh⟩ := holds_signed.mp hy
  have hlow := mul_le_mul_of_nonneg_left hyl hxl
  have hhigh := mul_le_mul_of_nonneg_left hyh.le hxl
  have hlt : x * 2 ^ v.toNat < 2 ^ w.toNat * 2 ^ v.toNat := mul_lt_mul_of_pos_right hxh (by positivity)
  rw [holds_signed, two_pow_add hw hv]
  exact ⟨add_nonneg hw hv, by linarith, by linarith⟩

/-- Only the two least integers together have a product that is too large. -/
theorem Holds.mul_iff (hx : (⟨w, true⟩ : Shape).Holds x) (hy : (⟨v, true⟩ : Shape).Holds y) (hw : 1 ≤ w) (hv : 1 ≤ v) :
    (⟨w + v - 1, true⟩ : Shape).Holds (x * y) ↔ ¬ (x = least ⟨w, true⟩ ∧ y = least ⟨v, true⟩) := by
  obtain ⟨m, rfl⟩ : ∃ m, w = m + 1 := ⟨w - 1, by omega⟩
  obtain ⟨n, rfl⟩ : ∃ n, v = n + 1 := ⟨v - 1, by omega⟩
  have hsum : m + 1 + (n + 1) - 1 = m + n + 1 := by ring
  rw [holds_signed, two_pow_succ (by omega)] at hx hy
  rw [hsum, holds_signed, two_pow_succ (by omega), two_pow_add (by omega) (by omega)]
  simp only [least, if_true]
  rw [two_pow_succ (by omega), two_pow_succ (by omega)]
  have hM : (0 : Int) < 2 ^ m.toNat := by positivity
  have hN : (0 : Int) < 2 ^ n.toNat := by positivity
  generalize (2 : Int) ^ m.toNat = M at *
  generalize (2 : Int) ^ n.toNat = N at *
  constructor
  · rintro ⟨-, -, hlt⟩ ⟨hxe, hye⟩
    obtain rfl : x = -M := by omega
    obtain rfl : y = -N := by omega
    rw [neg_mul_neg] at hlt
    exact lt_irrefl _ hlt
  · intro h
    have hle : |x| ≤ M := abs_le.mpr ⟨by omega, by omega⟩
    have hle' : |y| ≤ N := abs_le.mpr ⟨by omega, by omega⟩
    have hlt : |x * y| < M * N := by
      rw [abs_mul]
      by_cases hxe : x = -M
      · exact mul_lt_mul' hle (abs_lt.mpr ⟨by omega, by omega⟩) (abs_nonneg y) hM
      · calc |x| * |y| ≤ |x| * N := mul_le_mul_of_nonneg_left hle' (abs_nonneg x)
          _ < M * N := mul_lt_mul_of_pos_right (abs_lt.mpr ⟨by omega, by omega⟩) hN
    obtain ⟨hlow, hhigh⟩ := abs_lt.mp hlt
    exact ⟨by omega, by omega, by omega⟩

/-- Rounding down never leads away from zero by more than the dividend. -/
theorem abs_fdiv_le (x y : Int) : |x.fdiv y| ≤ |x| := by
  have hpos : ∀ x y : Int, 0 ≤ y → |x.fdiv y| ≤ |x| := by
    intro x y hy
    rw [fdiv_eq_ediv_of_nonneg x hy, abs_eq_natAbs, abs_eq_natAbs]
    exact_mod_cast natAbs_ediv_le_natAbs x y
  rcases le_total 0 y with hy | hy
  · exact hpos x y hy
  · rw [← Int.neg_fdiv_neg, ← abs_neg x]
    exact hpos (-x) (-y) (by omega)

theorem Holds.fdiv (h : s.Holds x) (y : Int) : (⟨s.width + 1, true⟩ : Shape).Holds (x.fdiv y) := by
  obtain ⟨w, isSigned⟩ := s
  have hpow := two_pow_succ (w := w) h.1
  have hpos : (0 : Int) < 2 ^ w.toNat := by positivity
  have hle := abs_fdiv_le x y
  rw [abs_le, abs_eq_max_neg] at hle
  cases isSigned <;> simp only [holds_unsigned, holds_signed] at h ⊢ <;> omega

theorem Holds.fdiv_unsigned (h : (⟨w, false⟩ : Shape).Holds x) (hy : 0 ≤ y) : (⟨w, false⟩ : Shape).Holds (x.fdiv y) := by
  rw [fdiv_eq_ediv_of_nonneg x hy]
  simp only [holds_unsigned] at h ⊢
  have hnonneg := ediv_nonneg h.2.1 hy
  have hle := ediv_le_self y h.2.1
  omega

theorem Holds.fmod_unsigned (h : (⟨w, false⟩ : Shape).Holds x) (hy : 0 < y) : (⟨w, false⟩ : Shape).Holds (x.fmod y) := by
  rw [fmod_eq_emod_of_nonneg x hy.le]
  simp only [holds_unsigned] at h ⊢
  have hnonneg := emod_nonneg x hy.ne'
  have hle : x % y ≤ x := by
    have := mul_nonneg hy.le (ediv_nonneg h.2.1 hy.le)
    rw [emod_def]
    omega
  omega

theorem Holds.scale (h : s.Holds x) (n : Nat) : (⟨s.width + n, s.isSigned⟩ : Shape).Holds (x * 2 ^ n) := by
  obtain ⟨w, isSigned⟩ := s
  have hpow : (2 : Int) ^ (w + n).toNat = 2 ^ w.toNat * 2 ^ n := two_pow_add h.1 (natCast_nonneg n)
  have hpos : (0 : Int) < 2 ^ n := by positivity
  cases isSigned with
  | false =>
    obtain ⟨hw, hlow, hhigh⟩ := holds_unsigned.mp h
    rw [holds_unsigned, hpow]
    exact ⟨add_nonneg hw (natCast_nonneg n), mul_nonneg hlow hpos.le, mul_lt_mul_of_pos_right hhigh hpos⟩
  | true =>
    obtain ⟨hw, hlow, hhigh⟩ := holds_signed.mp h
    have hlow' := mul_le_mul_of_nonneg_right hlow hpos.le
    have hhigh' := mul_lt_mul_of_pos_right hhigh hpos
    rw [holds_signed, hpow]
    exact ⟨add_nonneg hw (natCast_nonneg n), by linarith, by linarith⟩

theorem Holds.drop (h : s.Holds x) (n : Nat) : s.Holds (x / 2 ^ n) := by
  have hpos : (0 : Int) < 2 ^ n := by positivity
  have hbetween : (0 ≤ x ∧ 0 ≤ x / 2 ^ n ∧ x / 2 ^ n ≤ x) ∨ (x ≤ x / 2 ^ n ∧ x / 2 ^ n < 0) := by
    rcases le_or_gt 0 x with hx | hx
    · exact .inl ⟨hx, ediv_nonneg hx hpos.le, ediv_le_self _ hx⟩
    · exact .inr ⟨Int.le_ediv_of_mul_le hpos (by nlinarith), Int.ediv_neg_of_neg_of_pos hx hpos⟩
  obtain ⟨w, isSigned⟩ := s
  have hwidth : (0 : Int) < 2 ^ w.toNat := by positivity
  cases isSigned <;> simp only [holds_unsigned, holds_signed] at h ⊢ <;> omega

end Shape

/-- Shifts to the left, and for a negative amount to the right, where the bits that fall out are lost. -/
def shift (x amount : Int) : Int :=
  if 0 ≤ amount then x * 2 ^ amount.toNat else x / 2 ^ (-amount).toNat

theorem Shape.Holds.shift {s : Shape} {x k n : Int} (h : s.Holds x) (hk : k ≤ n) (hn : 0 ≤ n) :
    (⟨s.width + n, s.isSigned⟩ : Shape).Holds (shift x k) := by
  unfold Rtl.shift
  split
  · exact (h.scale k.toNat).widen (by dsimp only; omega)
  · exact (h.drop _).widen (by omega)

/-- An amount stays below the number of amounts, and a negative one does not go beyond it. -/
theorem BinaryOp.amount_bounds {b : Shape} (h : b.Holds y) :
    y ≤ (exactAmounts b : Int) - 1 ∧ -y ≤ ((if b.isSigned then exactAmounts b else 0 : Nat) : Int) := by
  obtain ⟨-, m, hm, hy⟩ := Shape.holds_iff_bits.mp h
  have hm' : m < exactAmounts b := hm
  rcases hy with rfl | ⟨⟨hs, -⟩, rfl⟩
  · refine ⟨by omega, ?_⟩
    split <;> omega
  · rw [if_pos hs]
    omega

/-! ## Operators at work -/

/-- The result over the integers; `a` is the shape of the operand, whose bits some operators look at. -/
def UnaryOp.result (a : Shape) (x : Int) : UnaryOp → Int
  | .plus | .asUnsigned | .asSigned => x
  | .minus => -x
  | .invert => -x - 1
  | .bool | .any => if x ≠ 0 then 1 else 0
  | .all => if x % 2 ^ a.width.toNat = 2 ^ a.width.toNat - 1 then 1 else 0
  | .parity => ((x % 2 ^ a.width.toNat).toNat.bits.count true % 2 : Nat)

/-- The result over the integers: quotients are rounded down, and bits are those of the two's complement. -/
def BinaryOp.result (x y : Int) : BinaryOp → Int
  | .add => x + y
  | .sub => x - y
  | .mul => x * y
  | .floorDiv => x.fdiv y
  | .mod => x.fmod y
  | .and => x.land y
  | .or => x.lor y
  | .xor => x.xor y
  | .shl => shift x y
  | .shr => shift x (-y)
  | .eq => if x = y then 1 else 0
  | .ne => if x ≠ y then 1 else 0
  | .lt => if x < y then 1 else 0
  | .le => if x ≤ y then 1 else 0
  | .gt => if x > y then 1 else 0
  | .ge => if x ≥ y then 1 else 0

/-- An operator applied to integers, each with the shape of the operand it is the value of. -/
inductive Operation where
  | unary (op : UnaryOp) (a : Shape) (x : Int)
  | binary (op : BinaryOp) (a b : Shape) (x y : Int)
  | mux (s a b : Shape) (c x y : Int)

namespace Operation

variable {a : Shape} {x : Int}
variable {b : Shape}

def symbol : Operation → String
  | .unary op _ _ => op.symbol
  | .binary op _ _ _ _ => op.symbol
  | .mux .. => muxSymbol

def operands : Operation → List (Shape × Int)
  | .unary _ a x => [(a, x)]
  | .binary _ a b x y => [(a, x), (b, y)]
  | .mux s a b c x y => [(s, c), (a, x), (b, y)]

def result : Operation → Int
  | .unary op a x => op.result a x
  | .binary op _ _ x y => op.result x y
  | .mux _ _ _ c x y => if c = 0 then y else x

/-- The shape that the operator has when no sum of widths overflows. -/
def exactShape : Operation → Shape
  | .unary op a _ => op.exactShape a
  | .binary op a b _ _ => op.exactShape a b
  | .mux _ a b _ _ _ => a.exactPromote b

/-- The operator gives a number: it is none of the unary operators on bits, does not divide by zero, takes remainders
of unsigned operands only, and is no signed product or negation without bits. -/
def IsNumeric : Operation → Prop
  | .unary .plus _ _ => True
  | .unary .minus a _ => a.isSigned = true → 1 ≤ a.width
  | .unary _ _ _ => False
  | .binary .mul a b _ _ => a.isSigned = true → b.isSigned = true → 1 ≤ a.width ∧ 1 ≤ b.width
  | .binary .floorDiv _ _ _ y => y ≠ 0
  | .binary .mod a b _ y => a.isSigned = false ∧ b.isSigned = false ∧ y ≠ 0
  | .binary .. | .mux .. => True

/-- The operations whose result the shape of the operator does not hold. -/
def Exceeds : Operation → Prop
  | .unary .minus a x => a.isSigned = true ∧ x = a.least
  | .binary .sub a b x y => a.isSigned = false ∧ b.isSigned = false ∧ x < y
  | .binary .mul a b x y => a.isSigned = true ∧ b.isSigned = true ∧ x = a.least ∧ y = b.least
  | _ => False

/-- Every operand holds its integer. -/
def Held (o : Operation) : Prop := ∀ p ∈ o.operands, p.1.Holds p.2

/-- The widths of the operands and of the result are words. -/
def Fits (o : Operation) : Prop := (∀ p ∈ o.operands, InWord p.1.width) ∧ InWord o.exactShape.width

theorem holds_bit (c : Prop) [Decidable c] : (Shape.unsigned 1).Holds (if c then 1 else 0) := by
  split <;> decide

theorem unary_iff {op : UnaryOp} (hx : a.Holds x) (hnum : (unary op a x).IsNumeric) :
    (op.exactShape a).Holds (op.result a x) ↔ ¬ (unary op a x).Exceeds := by
  cases op with
  | plus => exact iff_of_true hx id
  | minus =>
    obtain ⟨w, isSigned⟩ := a
    cases isSigned with
    | true =>
      refine (hx.neg_iff (hnum rfl)).trans (not_congr ?_)
      simp [Exceeds]
    | false => exact iff_of_true hx.neg_unsigned (by simp [Exceeds])
  | _ => exact hnum.elim

theorem mul_iff (hx : a.Holds x) (hy : b.Holds y) (hnum : (binary .mul a b x y).IsNumeric) :
    (BinaryOp.mul.exactShape a b).Holds (x * y) ↔ ¬ (binary .mul a b x y).Exceeds := by
  obtain ⟨w, sa⟩ := a
  obtain ⟨v, sb⟩ := b
  cases sa <;> cases sb <;> simp only [BinaryOp.exactShape, Exceeds, Bool.and_true, Bool.and_false, Bool.or_true,
    Bool.or_false, Bool.false_eq_true, if_true, if_false, sub_zero, false_and, and_false, true_and, not_false_iff,
    iff_true]
  · exact hx.mul_unsigned hy
  · exact hx.mul_mixed hy
  · rw [mul_comm, add_comm]
    exact hy.mul_mixed hx
  · obtain ⟨hw, hv⟩ := hnum rfl rfl
    exact hx.mul_iff hy hw hv

theorem binary_iff {op : BinaryOp} (hx : a.Holds x) (hy : b.Holds y) (hnum : (binary op a b x y).IsNumeric) :
    (op.exactShape a b).Holds (op.result x y) ↔ ¬ (binary op a b x y).Exceeds := by
  have hxs := hx.promote_left b
  have hys := hy.promote_right a
  cases op with
  | add => exact iff_of_true (hxs.add hys) id
  | sub =>
    refine (hxs.sub_iff hys).trans ?_
    simp [Shape.exactPromote, Exceeds]
  | mul => exact mul_iff hx hy hnum
  | floorDiv =>
    refine iff_of_true ?_ id
    obtain ⟨w, sa⟩ := a
    obtain ⟨v, sb⟩ := b
    cases hsign : sa || sb with
    | true => simpa [BinaryOp.exactShape, BinaryOp.result, hsign] using hx.fdiv y
    | false =>
      obtain ⟨rfl, rfl⟩ := Bool.or_eq_false_iff.mp hsign
      have hnonneg := (Shape.holds_unsigned.mp hy).2.1
      simpa [BinaryOp.exactShape, BinaryOp.result] using hx.fdiv_unsigned hnonneg
  | mod =>
    obtain ⟨w, sa⟩ := a
    obtain ⟨v, sb⟩ := b
    obtain ⟨rfl, rfl, hne⟩ := hnum
    have hpos := (Shape.holds_unsigned.mp hy).2.1
    exact iff_of_true (hx.fmod_unsigned (by omega)) id
  | and => exact iff_of_true (hxs.bitwise hys).1 id
  | or => exact iff_of_true (hxs.bitwise hys).2.1 id
  | xor => exact iff_of_true (hxs.bitwise hys).2.2 id
  | shl =>
    have hbound := (BinaryOp.amount_bounds hy).1
    have hpos : 0 < BinaryOp.exactAmounts b := Nat.two_pow_pos _
    have hshift := hx.shift hbound (by omega)
    rw [← add_sub_assoc] at hshift
    exact iff_of_true hshift id
  | shr =>
    refine iff_of_true (hx.shift (BinaryOp.amount_bounds hy).2 ?_) id
    split <;> omega
  | eq | ne | lt | le | gt | ge => exact iff_of_true (holds_bit _) id

end Operation

namespace Value

variable {σ : Arenas} {o : Operand} {a : Value}
variable {b : Value} {p : Operand} {vals : List Value} {args : List Operand}

theorem castAll_inv (h : Operand.castAll args = .ok vals) : List.Forall₂ (fun o v => o.cast = .ok v) args vals := by
  induction args generalizing vals with
  | nil =>
    cases h
    exact .nil
  | cons o rest ih =>
    obtain ⟨v, hv, h⟩ := except_bind_eq_ok.mp h
    obtain ⟨vs, hvs, rfl⟩ := except_bind_pure_eq_ok.mp h
    exact .cons hv (ih hvs)

theorem operator_unary {op : UnaryOp} (h : o.cast = .ok a) : operator σ op.symbol [o] = .ok (mkUnary σ op a) := by
  have hop : operator σ op.symbol [o] = o.cast.bind fun a => .ok (mkUnary σ op a) := by cases op <;> rfl
  rw [hop, h, Except.bind]

theorem operator_binary {op : BinaryOp} (ha : o.cast = .ok a) (hb : p.cast = .ok b) :
    operator σ op.symbol [o, p] = mkBinary σ op a b := by
  have hop : operator σ op.symbol [o, p] = o.cast.bind fun a => p.cast.bind fun b => mkBinary σ op a b := by
    cases op <;> rfl
  rw [hop, ha, hb, Except.bind, Except.bind]

theorem operator_mux {q : Operand} {s : Value} (hs : o.cast = .ok s) (ha : p.cast = .ok a) (hb : q.cast = .ok b) :
    operator σ muxSymbol [o, p, q] = .ok (mkMux σ s a b) := by
  have hop : operator σ muxSymbol [o, p, q] =
      o.cast.bind fun s => p.cast.bind fun a => q.cast.bind fun b => .ok (mkMux σ s a b) := rfl
  rw [hop, hs, ha, hb, Except.bind, Except.bind, Except.bind]

/-- An accepted operator has the exact shape of the operation it stands for. -/
theorem operator_shape {r : Value} {o : Operation} (hargs : Operand.castAll args = .ok vals)
    (hshapes : vals.map (shape σ) = o.operands.map Prod.fst) (hr : operator σ o.symbol args = .ok r) (hfits : o.Fits) :
    r.shape σ = o.exactShape := by
  obtain ⟨hwords, hword⟩ := hfits
  -- As many operands were cast as the operation has shapes.
  rcases castAll_inv hargs with _ | ⟨h1, _ | ⟨h2, _ | ⟨h3, _ | _⟩⟩⟩ <;> cases o <;>
    simp only [Operation.operands, map_cons, map_nil, reduceCtorEq, List.cons.injEq, nil_eq, and_true,
      and_false] at hshapes
  · obtain rfl := hshapes
    rw [Operation.symbol, operator_unary h1] at hr
    cases hr
    exact UnaryOp.shape_eq hword
  · obtain ⟨rfl, rfl⟩ := hshapes
    obtain ⟨ha, hb, -⟩ := forall_mem_cons.mp hwords |>.imp_right forall_mem_cons.mp
    rw [Operation.symbol, operator_binary h1 h2, mkBinary] at hr
    split at hr
    · rename_i s hs
      cases hr
      exact BinaryOp.shape_eq ha hb hword hs
    · cases hr
  · obtain ⟨-, rfl, rfl⟩ := hshapes
    obtain ⟨-, ha, hb, -⟩ := forall_mem_cons.mp hwords |>.imp_right fun h =>
      forall_mem_cons.mp h |>.imp_right forall_mem_cons.mp
    rw [Operation.symbol, operator_mux h1 h2 h3] at hr
    cases hr
    exact Shape.promote_eq ha hb hword

/-- The shape of an accepted operator holds the exact result of the operation, the exceptions apart. -/
theorem operator_holds_iff {σ : Arenas} {args : List Operand} {vals : List Value} {r : Value} (o : Operation)
    (hargs : Operand.castAll args = .ok vals) (hshapes : vals.map (shape σ) = o.operands.map Prod.fst)
    (hr : operator σ o.symbol args = .ok r) (hheld : o.Held) (hfits : o.Fits) (hnum : o.IsNumeric) :
    ((r.shape σ).Holds o.result ↔ ¬ o.Exceeds) ∧
      (r.shape σ).normalize o.result ≡ o.result [ZMOD 2 ^ (r.width σ).toNat] := by
  refine ⟨?_, Shape.normalize_modEq _ _⟩
  rw [operator_shape hargs hshapes hr hfits]
  cases o with
  | unary op a x => exact Operation.unary_iff (hheld (a, x) mem_cons_self) hnum
  | binary =>
    obtain ⟨hx, hy, -⟩ := forall_mem_cons.mp hheld |>.imp_right forall_mem_cons.mp
    exact Operation.binary_iff hx hy hnum
  | mux s a b =>
    obtain ⟨-, hx, hy, -⟩ := forall_mem_cons.mp hheld |>.imp_right fun h =>
      forall_mem_cons.mp h |>.imp_right forall_mem_cons.mp
    refine iff_of_true ?_ id
    rw [Operation.result]
    split
    · exact hy.promote_right a
    · exact hx.promote_left b

/-- The least integer of four bits, shifted by the greatest amount of three bits with a sign. -/
def farthestShift : Operation := .binary .shl (.signed 4) (.signed 3) (-8) 3

theorem operator_holds_iff_farthestShift :
    farthestShift.Held ∧ farthestShift.Fits ∧ farthestShift.IsNumeric ∧ farthestShift.result = -64 ∧
      (Shape.signed 7).Holds farthestShift.result := by
  have hheld : farthestShift.Held := by
    unfold Operation.Held
    decide
  have hfits : farthestShift.Fits := ⟨by decide, by decide⟩
  have hvals : (operator .empty "<<" [.value (.const (-8) (.signed 4)), .value (.const 3 (.signed 3))]) =
      .ok (.binary .shl (.const (-8) (.signed 4)) (.const 3 (.signed 3)) (.signed 7)) := by rfl
  exact ⟨hheld, hfits, trivial, rfl, (operator_holds_iff farthestShift rfl rfl hvals hheld hfits trivial).1.mpr id⟩

end Value
end Rtl
