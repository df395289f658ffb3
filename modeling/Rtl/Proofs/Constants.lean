import Mathlib
import Rtl.Proofs.Patterns
import Rtl.Proofs.Ranges

/-!
# Constants

A constant of a given shape stores the one integer of the two's complement range of the shape that is congruent to what
it was made from, so it can be made again from what it stores. A constant without a given shape stores its integer as it
is, in the narrowest shape of its sign.
-/
namespace Rtl

namespace Shape

variable {s : Shape} {x y v : Int}

theorem holds_normalize (hs : 0 ≤ s.width) (x : Int) : s.Holds (s.normalize x) := by
  obtain ⟨w, isSigned⟩ := s
  have hcast : ((Nat.pow 2 w.toNat : Nat) : Int) = 2 ^ w.toNat := by norm_num
  have hpos : 0 < Nat.pow 2 w.toNat := Nat.two_pow_pos _
  cases isSigned with
  | false =>
    have hbound := Int.emod_lt_of_pos x (Int.natCast_pos.mpr hpos)
    exact holds_unsigned.mpr ⟨hs, Int.emod_nonneg x (Int.natCast_pos.mpr hpos).ne', hcast ▸ hbound⟩
  | true =>
    have hlow := Int.le_bmod (x := x) hpos
    have hhigh := Int.bmod_lt (x := x) hpos
    rw [hcast] at hlow hhigh
    refine holds_signed.mpr ⟨hs, ?_⟩
    change _ ≤ 2 * x.bmod (Nat.pow 2 w.toNat) ∧ 2 * x.bmod (Nat.pow 2 w.toNat) < _
    omega

theorem Holds.eq_of_modEq (hx : s.Holds x) (hy : s.Holds y) (h : x ≡ y [ZMOD 2 ^ s.width.toNat]) : x = y := by
  have hcast : ((Nat.pow 2 s.width.toNat : Nat) : Int) = 2 ^ s.width.toNat := by norm_num
  have hsame : s.normalize x = s.normalize y := by
    unfold normalize Int.bmod
    rw [hcast, h]
  rwa [hx.normalize_eq, hy.normalize_eq] at hsame

/-- The widths of the shapes of its sign that hold an integer other than zero begin with that of its own shape. -/
theorem ofInt_width_le_iff (hv : v ≠ 0) {w : Int} : (ofInt v).width ≤ w ↔ (⟨w, v < 0⟩ : Shape).Holds v := by
  by_cases hneg : v < 0
  · have hbits : (ofInt v).width = bitLength (-v - 1).toNat + 1 := by
      simp [ofInt, bitsFor, not_lt.mpr hneg.le]
    rw [hbits, decide_eq_true hneg, holds_signed]
    obtain hw | hw := lt_or_ge w 1
    · have hpow : w = 0 → (2 : Int) ^ w.toNat = 1 := by
        rintro rfl
        rfl
      omega
    · obtain ⟨k, rfl⟩ : ∃ k : Nat, w = k + 1 := ⟨(w - 1).toNat, by omega⟩
      have hlength := bitLength_le_iff (n := (-v - 1).toNat) (w := k)
      have hpow := two_pow_succ (w := k) (Int.natCast_nonneg k)
      rw [Int.toNat_natCast] at hpow
      zify at hlength
      omega
  · have hbits := Pattern.bitsFor_le_iff (n := v) (w := w.toNat) (by omega)
    rw [decide_eq_false hneg, holds_unsigned]
    change (bitsFor v false : Int) ≤ w ↔ _
    omega

theorem holds_ofInt (v : Int) : (ofInt v).Holds v := by
  by_cases hv : v = 0
  · subst hv
    decide
  · exact (ofInt_width_le_iff hv).mp le_rfl

end Shape

namespace Value

/-- A constant of an accepted shape stores the only integer of its range that is congruent to the one given, and is made
again from it. A constant of no given shape stores its integer, and unless this is zero no narrower shape of its sign
does. -/
theorem constants_exact :
    (∀ (v : Int) (s : Shape) (c : Value), ofIntShape v s = .ok c → ∃ n : Int, c = .const n s ∧
      s.Holds n ∧ n ≡ v [ZMOD 2 ^ s.width.toNat] ∧ (∀ m, s.Holds m → m ≡ v [ZMOD 2 ^ s.width.toNat] → m = n) ∧
      (s.width = 0 → n = 0) ∧ ofIntShape n s = .ok c) ∧
    ∀ v : Int, ∃ s : Shape, ofInt v = .const v s ∧ (s.isSigned = true ↔ v < 0) ∧ s.Holds v ∧
      (v ≠ 0 → ∀ w < s.width, ¬ (⟨w, s.isSigned⟩ : Shape).Holds v) := by
  constructor
  · intro v s c h
    unfold ofIntShape at h
    split at h
    · cases h
    · rename_i hwidth
      split at h
      · cases h
      · rename_i hsign
        cases h
        have hholds := Shape.holds_normalize (Int.not_lt.mp hwidth) v
        have hmod := s.normalize_modEq v
        refine ⟨_, rfl, hholds, hmod, fun m hm hmv => hm.eq_of_modEq hholds (hmv.trans hmod.symm), fun hzero => ?_, ?_⟩
        · exact hholds.eq_of_modEq ⟨hzero.ge, by simp [Shape.least, Shape.greatest, hzero]⟩ (by simp [hzero, Int.modEq_one])
        · have hnonneg : ¬ (s.normalize v < 0 && !s.isSigned) := by
            obtain ⟨w, isSigned⟩ := s
            cases isSigned with
            | false => simpa using (Shape.holds_unsigned.mp hholds).2.1
            | true => simp
          rw [ofIntShape, if_neg hwidth, if_neg hnonneg, hholds.normalize_eq]
  · intro v
    refine ⟨Shape.ofInt v, ?_, decide_eq_true_iff, Shape.holds_ofInt v, fun hv w hw h => ?_⟩
    · rw [ofInt, (Shape.holds_ofInt v).normalize_eq]
    · exact absurd ((Shape.ofInt_width_le_iff hv).mpr h) (Int.not_le.mpr hw)

end Value
end Rtl
