import Mathlib
import Rtl.Proofs.Widths

/-!
# Selections at constant offsets

A selection at a constant offset is a slice whose ends are computed in words and then held within the value. Held ends
give exactly the bits asked for that exist, unless a word has wrapped on the way: an end that wraps loses the bits from
an offset within the value, and an offset that wraps may bring a selection past the end back into the value.
-/
namespace Rtl.Value

variable {σ : Arenas} {v : Value} {n : Int}

/-- The outcome is the slice of just those bits from `first` up to `last` that the value has. -/
def SelectsBits (σ : Arenas) (v : Value) (first last : Int) (r : Except DesignError Value) : Prop :=
  ∃ start stop, r = .ok (.slice v start stop) ∧
    ∀ i, start ≤ i ∧ i < stop ↔ (first ≤ i ∧ i < last) ∧ 0 ≤ i ∧ i < v.width σ

theorem interval_eq_iff {s t a b : Int} (h : s ≤ t) :
    (∀ i, s ≤ i ∧ i < t ↔ a ≤ i ∧ i < b) ↔ (s = a ∧ t = b) ∨ (s = t ∧ b ≤ a) := by
  constructor
  · intro hall
    have h1 := hall s
    have h2 := hall (t - 1)
    have h3 := hall a
    have h4 := hall (b - 1)
    omega
  · intro h i
    omega

/-- Ends that are held within the value are those of the bits asked for, or both leave none. A value of a negative
width has no ends to hold. -/
theorem clampedSlice_selects_iff {start stop first last s t : Int} (hn : v.width σ = n)
    (hs : s = min (max start 0) n) (ht : t = min (max stop s) n) (hfirst : 0 ≤ first) :
    SelectsBits σ v first last (clampedSlice σ v start stop) ↔
      0 ≤ n ∧ ((s = first ∧ t = min last n) ∨ (s = t ∧ min last n ≤ first)) := by
  have hheld : clampedSlice σ v start stop = mkSlice σ v s t := by rw [clampedSlice, hn, hs, ht, hs]
  rw [hheld, mkSlice, hn, SelectsBits]
  simp only [Bool.or_eq_true, decide_eq_true_eq]
  by_cases hnonneg : 0 ≤ n
  · rw [if_neg (by omega), if_neg (by omega), ← interval_eq_iff (by omega), and_iff_right hnonneg, hn]
    constructor
    · rintro ⟨_, _, h, hall⟩ i
      cases h
      have := hall i
      omega
    · refine fun hall => ⟨s, t, rfl, fun i => ?_⟩
      have := hall i
      omega
  · rw [if_pos (by omega)]
    exact iff_of_false (by rintro ⟨_, _, h, -⟩; cases h) (fun h => hnonneg h.1)

theorem wrap_of_overflow {k : Int} (hlow : 2 ^ 63 ≤ k) (hhigh : k < 2 ^ 64) : wrap k = k - 2 ^ 64 := by
  have hword : ((Nat.pow 2 64 : Nat) : Int) = 2 ^ 64 := by norm_num
  rw [wrap, Int.bmod_def, hword, Int.emod_eq_of_lt (by omega) hhigh, if_neg (by omega)]

/-- The bits that the wrapped words give lie outside of a value of `n` bits: they start past its end, or stop before
they start or before its first bit. -/
def Misses (n start stop : Int) : Prop := n ≤ max start 0 ∨ stop ≤ max start 0

/-- A selection at a constant offset gives the bits asked for exactly when no word wraps, or when it asks for bits past
the end and the wrapped words miss the value as well. -/
theorem selects_bits_iff {offset : Operand} {c w : Int} {s : Shape} (hcast : offset.cast = .ok (.const c s))
    (hc : 0 ≤ c) (hcword : InWord c) (hw : 0 ≤ w) (hwword : InWord w) (hn : InWord (v.width σ)) :
    (SelectsBits σ v c (c + w) (bitSelect σ v offset w) ↔
      0 ≤ v.width σ ∧ (InWord (c + w) ∨ v.width σ ≤ c)) ∧
    (SelectsBits σ v (c * w) (c * w + w) (wordSelect σ v offset w) ↔
      0 ≤ v.width σ ∧ (InWord (c * w + w) ∨
        v.width σ ≤ c * w ∧ Misses (v.width σ) (wrap (c * w)) (wrap (wrap (c * w) + w)))) := by
  have hconst : (Value.const c s).word? = some c := if_pos (wrap_of_inWord hcword)
  have hbit : bitSelect σ v offset w = clampedSlice σ v c (wrap (c + w)) := by
    simp only [bitSelect, hcast, bind, Except.bind, hconst]
  have hwordsel : wordSelect σ v offset w = clampedSlice σ v (wrap (c * w)) (wrap (wrap (c * w) + w)) := by
    simp only [wordSelect, hcast, bind, Except.bind, hconst]
  have hwrap : ∀ k, 0 ≤ k → InWord k → wrap (k + w) = k + w ∧ InWord (k + w) ∨ wrap (k + w) < 0 ∧ ¬ InWord (k + w) := by
    intro k hk hkword
    by_cases h : InWord (k + w)
    · exact .inl ⟨wrap_of_inWord h, h⟩
    · refine .inr ⟨?_, h⟩
      unfold InWord at *
      rw [wrap_of_overflow (by omega) (by omega)]
      omega
  have hprod : 0 ≤ c * w := Int.mul_nonneg hc hw
  rw [hbit, hwordsel, clampedSlice_selects_iff rfl rfl rfl hc, clampedSlice_selects_iff rfl rfl rfl hprod]
  constructor
  · have := hwrap c hc hcword
    unfold InWord at *
    omega
  · generalize c * w = k at *
    unfold Misses
    by_cases hkword : InWord k
    · have := hwrap k hprod hkword
      rw [wrap_of_inWord hkword]
      unfold InWord at *
      omega
    · -- The product is past every end, so nothing may be selected.
      unfold InWord at *
      omega

/-- The last word of three bits of a constant of eight bits has but two of them. -/
theorem selects_bits_iff_overhang :
    SelectsBits .empty (.const 5 (.unsigned 8)) 6 9 (wordSelect .empty (.const 5 (.unsigned 8)) (.int .int 2) 3) := by
  have hcast : (Operand.int .int 2).cast = .ok (.const 2 (.unsigned 2)) := by rfl
  have hwidth : InWord (Value.width .empty (.const 5 (.unsigned 8))) := by decide
  have hiff := (selects_bits_iff (w := 3) hcast (by decide) (by decide) (by decide) (by decide) hwidth).2
  exact hiff.mpr ⟨by decide, .inl (by decide)⟩

/-- Word `2 ^ 62` of four bits lies far past the end of a byte, and selects its lower half. -/
theorem not_forall_wordSelect_selects : ¬ ∀ (σ : Arenas) (v : Value) (c w : Int), 0 ≤ v.width σ → InWord (v.width σ) →
    0 ≤ c → InWord c → 0 ≤ w → InWord w →
      SelectsBits σ v (c * w) (c * w + w) (wordSelect σ v (.int .int c) w) := by
  intro h
  obtain ⟨start, stop, hslice, hall⟩ := h .empty (.const 5 (.unsigned 8)) (2 ^ 62) 4 (by decide) (by decide) (by decide)
    (by decide) (by decide) (by decide)
  have hwrapped : wordSelect .empty (.const 5 (.unsigned 8)) (.int .int (2 ^ 62)) 4 =
      .ok (.slice (.const 5 (.unsigned 8)) 0 4) := by rfl
  rw [hwrapped] at hslice
  cases hslice
  exact absurd ((hall 0).mp (by decide)) (by decide)

end Rtl.Value
