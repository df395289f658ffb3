import Mathlib
import Rtl.Proofs.Outcome

/-!
# What switch patterns match

A pattern is decided by a mask and a value. Read bit by bit, a canonical pattern agrees with a number when each of its
characters agrees with the bit at its place, the last character being the lowest. A pattern written as an integer
matches exactly the numbers congruent to it, and none when it does not fit the width.
-/
namespace Rtl

open List Nat

theorem bitLength_le_iff {n w : Nat} : bitLength n ≤ w ↔ n < 2 ^ w := by
  unfold bitLength
  split
  · simp_all
  · rename_i hn
    exact log2_lt hn

namespace Pattern

variable {cs : List Char} {p : String} {o : Option String}
variable {width : Int} {n : Nat} {c : Char} {s t : String}

/-- The characters of a pattern, most significant first, agree with the bits of `v`: the place of a character is the
number of characters after it. -/
def agrees (v : Int) : List Char → Bool
  | [] => true
  | c :: cs => (c == '-' || (c == '1') == (v / 2 ^ cs.length % 2 == 1)) && agrees v cs

/-- Whether a written pattern covers the value `v` of a test of the given width. -/
def covers (width v : Int) : Operand → Bool
  | .text s => agrees v (Text.dropBlanks s).toList
  | .int _ n => n < 2 ^ width.toNat && v % 2 ^ width.toNat == n % 2 ^ width.toNat
  | _ => false

theorem isPatternChar_iff : isPatternChar c = true ↔ c = '0' ∨ c = '1' ∨ c = '-' := by
  simp [isPatternChar, or_assoc]

theorem byteLength_eq_length (h : ∀ c ∈ cs, isPatternChar c = true) : byteLength cs = cs.length := by
  induction cs with
  | nil => rfl
  | cons c cs ih =>
    obtain ⟨hc, hcs⟩ := forall_mem_cons.mp h
    have hsize : c.utf8Size = 1 := by
      rcases isPatternChar_iff.mp hc with rfl | rfl | rfl <;> rfl
    rw [byteLength, hsize, ih hcs, length_cons, add_comm]

theorem utf8ByteSize_eq_byteLength (s : String) : s.utf8ByteSize = byteLength s.toList := by
  rw [← String.utf8Len_toList]
  induction s.toList with
  | nil => rfl
  | cons c cs ih => rw [String.utf8Len_cons, ih, byteLength, add_comm]

theorem maskOf_lt (cs : List Char) : maskOf cs < 2 ^ byteLength cs ∧ valueOf cs < 2 ^ byteLength cs := by
  induction cs with
  | nil => simp [maskOf, valueOf, byteLength]
  | cons c cs =>
    have hsize : 1 ≤ c.utf8Size := Char.utf8Size_pos c
    have hpow : 2 ^ (byteLength cs + 1) ≤ 2 ^ byteLength (c :: cs) :=
      Nat.pow_le_pow_right (by decide) (by rw [byteLength]; omega)
    rw [pow_succ] at hpow
    rw [maskOf, valueOf]
    simp only [pow_eq]
    constructor
    · split <;> omega
    · split <;> omega

/-- The bits of a number under a mask, split at a place above all lower bits of the mask. -/
theorem and_two_pow_add_eq_iff {x m u a b : Nat} (hm : m < 2 ^ n) (hu : u < 2 ^ n) :
    x &&& (2 ^ n * a + m) = 2 ^ n * b + u ↔ x / 2 ^ n &&& a = b ∧ x &&& m = u := by
  have hdiv : ∀ c d : Nat, d < 2 ^ n → (2 ^ n * c + d) / 2 ^ n = c ∧ (2 ^ n * c + d) % 2 ^ n = d := by
    intro c d hd
    constructor
    · rw [Nat.mul_add_div (Nat.two_pow_pos n), Nat.div_eq_of_lt hd, Nat.add_zero]
    · rw [mul_add_mod, mod_eq_of_lt hd]
  have hlow : x % 2 ^ n &&& m = x &&& m := by
    rw [← mod_eq_of_lt hm, ← and_mod_two_pow, mod_eq_of_lt hm]
    exact mod_eq_of_lt (lt_of_le_of_lt and_le_right hm)
  have hsplit : x &&& (2 ^ n * a + m) = 2 ^ n * (x / 2 ^ n &&& a) + (x &&& m) := by
    have h := (div_add_mod (x &&& (2 ^ n * a + m)) (2 ^ n)).symm
    rw [and_div_two_pow, and_mod_two_pow, (hdiv a m hm).1, (hdiv a m hm).2, hlow] at h
    exact h
  have hlt : x &&& m < 2 ^ n := lt_of_le_of_lt and_le_right hm
  rw [hsplit]
  constructor
  · intro h
    have hq := congrArg (· / 2 ^ n) h
    have hr := congrArg (· % 2 ^ n) h
    simp only [(hdiv _ _ hlt).1, (hdiv _ _ hlt).2, (hdiv _ _ hu).1, (hdiv _ _ hu).2] at hq hr
    exact ⟨hq, hr⟩
  · rintro ⟨rfl, rfl⟩
    rfl

/-- A character of a pattern against one bit of a number. -/
theorem char_eq_iff (hc : isPatternChar c = true) (y : Nat) :
    (y &&& (if c = '0' ∨ c = '1' then 1 else 0) = if c = '1' then 1 else 0) ↔
      (c == '-' || (c == '1') == (y % 2 == 1)) = true := by
  have hy : y % 2 = 0 ∨ y % 2 = 1 := mod_two_eq_zero_or_one y
  rcases isPatternChar_iff.mp hc with rfl | rfl | rfl
  · rcases hy with h | h <;> simp [and_one_is_mod, h]
  · rcases hy with h | h <;> simp [and_one_is_mod, h]
  · simp

/-- Masking agrees with reading the characters against the bits. -/
theorem and_maskOf_eq_iff (h : ∀ c ∈ cs, isPatternChar c = true) (x : Nat) :
    x &&& maskOf cs = valueOf cs ↔ agrees x cs = true := by
  induction cs with
  | nil => simp [maskOf, valueOf, agrees]
  | cons c cs ih =>
    obtain ⟨hc, hcs⟩ := forall_mem_cons.mp h
    obtain ⟨hm, hv⟩ := maskOf_lt cs
    have hmask : maskOf (c :: cs) = 2 ^ byteLength cs * (if c = '0' ∨ c = '1' then 1 else 0) + maskOf cs := by
      rw [maskOf, pow_eq]
      split <;> simp
    have hvalue : valueOf (c :: cs) = 2 ^ byteLength cs * (if c = '1' then 1 else 0) + valueOf cs := by
      rw [valueOf, pow_eq]
      split <;> simp
    rw [hmask, hvalue, and_two_pow_add_eq_iff hm hv, char_eq_iff hc, ih hcs, agrees, Bool.and_eq_true,
      byteLength_eq_length hcs]
    have hbit : ((x : Int) / 2 ^ cs.length % 2 == 1) = (x / 2 ^ cs.length % 2 == 1) := by
      have hcast : (x : Int) / 2 ^ cs.length % 2 = ((x / 2 ^ cs.length % 2 : Nat) : Int) := by push_cast; rfl
      rw [Bool.eq_iff_iff, beq_iff_eq, beq_iff_eq, hcast]
      exact cast_eq_one
    rw [hbit]

/-- Bits below place `n` are those of the remainder. -/
theorem emod_two_pow_div (v : Int) {k : Nat} (h : k < n) : v % 2 ^ n / 2 ^ k % 2 = v / 2 ^ k % 2 := by
  obtain ⟨m, rfl⟩ := Nat.exists_eq_add_of_lt h
  have hpow : (2 : Int) ^ (k + m + 1) = 2 ^ k * (2 ^ m * 2) := by ring
  have hpos : (2 : Int) ^ k ≠ 0 := by positivity
  have hdiv : v % 2 ^ (k + m + 1) = v + 2 ^ k * (-(2 ^ m * 2 * (v / 2 ^ (k + m + 1)))) := by
    rw [Int.emod_def, hpow]
    ring
  rw [hdiv, Int.add_mul_ediv_left _ _ hpos]
  have heven : v / 2 ^ k + -(2 ^ m * 2 * (v / 2 ^ (k + m + 1))) =
      v / 2 ^ k + -(2 ^ m * (v / 2 ^ (k + m + 1))) * 2 := by ring
  rw [heven, Int.add_mul_emod_self_right]

theorem agrees_emod (h : cs.length ≤ n) (v : Int) : agrees (v % 2 ^ n) cs = agrees v cs := by
  induction cs with
  | nil => rfl
  | cons c cs ih =>
    have hlt : cs.length < n := by
      rw [length_cons] at h
      omega
    rw [agrees, agrees, ih (le_of_lt hlt), emod_two_pow_div v hlt]

/-- A canonical pattern matches the numbers whose bits agree with its characters. -/
theorem isMatch_eq_agrees (h : ∀ c ∈ p.toList, isPatternChar c = true) (v : Int) : isMatch p v = agrees v p.toList := by
  have hlen := byteLength_eq_length h
  have hpos : (0 : Int) ≤ v % 2 ^ p.toList.length := Int.emod_nonneg _ (by positivity)
  rw [Bool.eq_iff_iff, isMatch, decide_eq_true_iff, hlen, and_maskOf_eq_iff h]
  have hcast : (((v % (Nat.pow 2 p.toList.length : Nat)).toNat : Nat) : Int) = v % 2 ^ p.toList.length := by
    rw [pow_eq]
    push_cast
    exact Int.toNat_of_nonneg hpos
  rw [hcast, agrees_emod (le_refl _)]

/-- A text of binary digits. -/
def IsBinary (cs : List Char) : Prop := ∀ c ∈ cs, c = '0' ∨ c = '1'

theorem IsBinary.isPatternChar (h : IsBinary cs) : ∀ c ∈ cs, isPatternChar c = true :=
  fun c hc => isPatternChar_iff.mpr ((h c hc).imp_right Or.inl)

theorem isBinary_toDigits (n : Nat) : IsBinary (Nat.toDigits 2 n) := by
  induction n using Nat.strong_induction_on with
  | h n ih =>
    have hdigit : ∀ d : Nat, d < 2 → d.digitChar = '0' ∨ d.digitChar = '1' := by decide
    intro c hc
    by_cases hn : n < 2
    · rw [toDigits_of_lt_base hn, mem_singleton] at hc
      rw [hc]
      exact hdigit n hn
    · rw [toDigits_of_base_le (by decide) (by omega), mem_append, mem_singleton] at hc
      rcases hc with hc | hc
      · exact ih (n / 2) (by omega) c hc
      · rw [hc]
        exact hdigit (n % 2) (by omega)

theorem maskOf_isBinary (h : IsBinary cs) : maskOf cs = 2 ^ cs.length - 1 := by
  induction cs with
  | nil => rfl
  | cons c cs ih =>
    obtain ⟨hc, hcs⟩ := forall_mem_cons.mp h
    have hpos := Nat.two_pow_pos cs.length
    rw [maskOf, if_pos hc, pow_eq, byteLength_eq_length (IsBinary.isPatternChar hcs), ih hcs, length_cons,
      pow_succ]
    omega

theorem ofDigitChars_isBinary (h : IsBinary cs) (init : Nat) :
    Nat.ofDigitChars 2 cs init = init * 2 ^ cs.length + valueOf cs := by
  induction cs generalizing init with
  | nil => simp [valueOf]
  | cons c cs ih =>
    obtain ⟨hc, hcs⟩ := forall_mem_cons.mp h
    rw [ofDigitChars_cons, ih hcs, valueOf, pow_eq, byteLength_eq_length (IsBinary.isPatternChar hcs),
      length_cons, pow_succ]
    rcases hc with rfl | rfl
    · simp
      ring
    · simp
      ring

theorem valueOf_toDigits (n : Nat) : valueOf (Nat.toDigits 2 n) = n := by
  have h := ofDigitChars_isBinary (isBinary_toDigits n) 0
  rw [ofDigitChars_toDigits (by decide) (by decide)] at h
  omega

theorem valueOf_replicate_append (k : Nat) (cs : List Char) : valueOf (List.replicate k '0' ++ cs) = valueOf cs := by
  induction k with
  | zero => rfl
  | succ k ih =>
    rw [replicate_succ, cons_append, valueOf, ih]
    simp

/-- What the written digits of a number that fits are. -/
theorem digits_spec (hn : n < 2 ^ width.toNat) :
    IsBinary (digits n width).toList ∧ (digits n width).toList.length = width.toNat ∧
      valueOf (digits n width).toList = n := by
  have hdigits : ∃ ds, (digits n width).toList = List.replicate (width.toNat - ds.length) '0' ++ ds ∧
      IsBinary ds ∧ ds.length ≤ width.toNat ∧ valueOf ds = n := by
    by_cases hzero : n = 0
    · refine ⟨[], ?_, fun c hc => absurd hc not_mem_nil, zero_le _, hzero.symm⟩
      rw [digits, if_pos hzero, String.toList_ofList]
    · have hwidth : 0 < width.toNat := by
        by_contra h
        rw [Nat.eq_zero_of_not_pos h] at hn
        omega
      refine ⟨Nat.toDigits 2 n, ?_, isBinary_toDigits n, ?_, valueOf_toDigits n⟩
      · rw [digits, if_neg hzero, String.toList_ofList]
      · exact (length_toDigits_le_iff (by decide) hwidth).mpr hn
  obtain ⟨ds, hds, hbinary, hlen, hvalue⟩ := hdigits
  rw [hds]
  refine ⟨?_, ?_, ?_⟩
  · intro c hc
    rcases mem_append.mp hc with hc | hc
    · exact Or.inl (eq_of_mem_replicate hc)
    · exact hbinary c hc
  · rw [length_append, length_replicate]
    omega
  · rw [valueOf_replicate_append, hvalue]

/-- The digits of a number match the numbers congruent to it. -/
theorem isMatch_digits (hn : n < 2 ^ width.toNat) (v : Int) :
    isMatch (digits n width) v = (v % 2 ^ width.toNat == (n : Int)) := by
  obtain ⟨hbinary, hlen, hvalue⟩ := digits_spec hn
  have hpos : (0 : Int) ≤ v % 2 ^ width.toNat := Int.emod_nonneg _ (by positivity)
  have hlt : v % 2 ^ width.toNat < 2 ^ width.toNat := Int.emod_lt_of_pos _ (by positivity)
  have hcast : v % (Nat.pow 2 width.toNat : Nat) = v % 2 ^ width.toNat := by
    rw [pow_eq]
    push_cast
    rfl
  have hsmall : (v % 2 ^ width.toNat).toNat < 2 ^ width.toNat := by
    zify
    rw [Int.toNat_of_nonneg hpos]
    exact hlt
  rw [Bool.eq_iff_iff, isMatch, decide_eq_true_iff, byteLength_eq_length hbinary.isPatternChar, hlen, hcast,
    maskOf_isBinary hbinary, hlen, and_two_pow_sub_one_eq_mod, mod_eq_of_lt hsmall, hvalue, beq_iff_eq]
  omega

theorem ofText_inv (h : ofText p width = .ok s) :
    s = Text.dropBlanks p ∧ (∀ c ∈ s.toList, isPatternChar c = true) ∧ (s.utf8ByteSize : Int) = width := by
  unfold ofText at h
  dsimp only at h
  split at h
  · cases h
  · rename_i hchars
    split at h
    · cases h
    · rename_i hwidth
      cases h
      rw [Bool.not_eq_true, Bool.not_eq_false'] at hchars
      exact ⟨rfl, all_eq_true.mp hchars, not_not.mp hwidth⟩

/-- A text of pattern characters is its own canonical form. -/
theorem dropBlanks_eq (h : ∀ c ∈ p.toList, isPatternChar c = true) : Text.dropBlanks p = p := by
  have hfilter : p.toList.filter (fun c => !Text.isBlank c) = p.toList := by
    refine filter_eq_self.mpr fun c hc => ?_
    rcases isPatternChar_iff.mp (h c hc) with rfl | rfl | rfl <;> decide
  rw [Text.dropBlanks, hfilter, String.ofList_toList]

theorem bitsFor_le_iff {n : Int} (hn : 0 < n) {w : Nat} : bitsFor n false ≤ w ↔ n < 2 ^ w := by
  rw [bitsFor, if_pos hn, if_neg Bool.false_ne_true, add_zero, bitLength_le_iff]
  zify
  rw [Int.toNat_of_nonneg hn.le]

/-- The bits for a number are the fewest that hold it, and at least one. -/
theorem bitsFor_isLeast {n : Int} (hn : 0 ≤ n) : IsLeast { w | 1 ≤ w ∧ n < 2 ^ w } (bitsFor n false) := by
  obtain rfl | hn := hn.eq_or_lt
  · exact ⟨by decide, fun w hw => hw.1⟩
  · refine ⟨⟨?_, (bitsFor_le_iff hn).mp le_rfl⟩, fun w hw => (bitsFor_le_iff hn).mpr hw.2⟩
    by_contra hzero
    have hlt := (bitsFor_le_iff hn).mp (Nat.lt_one_iff.mp (Nat.lt_of_not_le hzero)).le
    omega

/-- A pattern for a test of the given width. -/
structure Spans (width : Int) (t : String) : Prop where
  chars : ∀ c ∈ t.toList, isPatternChar c = true
  length : (t.toList.length : Int) = width

/-- A pattern that a switch holds for a test of at least one bit. -/
structure Canonical (t : String) : Prop where
  nonempty : t ≠ ""
  chars : ∀ c ∈ t.toList, isPatternChar c = true

theorem Spans.canonical (h : Spans width t) (hwidth : 1 ≤ width) : Canonical t := by
  refine ⟨fun hempty => ?_, h.chars⟩
  have hlength := h.length
  rw [hempty, String.toList_empty, length_nil] at hlength
  omega

theorem Spans.size (h : Spans width t) : (t.utf8ByteSize : Int) = width := by
  rw [utf8ByteSize_eq_byteLength, byteLength_eq_length h.chars, h.length]

theorem Spans.ofText_eq (h : Spans width p) : ofText p width = .ok p := by
  have hall : p.toList.all isPatternChar = true := all_eq_true.mpr h.chars
  simp [ofText, dropBlanks_eq h.chars, hall, h.size]

theorem spans_ofText (h : ofText p width = .ok s) : Spans width s := by
  obtain ⟨-, hchars, hsize⟩ := ofText_inv h
  rw [utf8ByteSize_eq_byteLength, byteLength_eq_length hchars] at hsize
  exact ⟨hchars, hsize⟩

theorem spans_digits (hwidth : 0 ≤ width) (hn : n < 2 ^ width.toNat) : Spans width (digits n width) := by
  obtain ⟨hbinary, hlen, -⟩ := digits_spec hn
  exact ⟨hbinary.isPatternChar, by omega⟩

/-- The pattern of an integer that fits matches the numbers congruent to it; one that does not fit has none. -/
theorem ofInt?_spec {n : Int} (hwidth : 0 ≤ width) :
    (∀ p, ofInt? n width = some p →
      Spans width p ∧ n < 2 ^ width.toNat ∧ ∀ v, isMatch p v = (v % 2 ^ width.toNat == n % 2 ^ width.toNat)) ∧
    (ofInt? n width = none → 2 ^ width.toNat ≤ n) := by
  have hpos : (0 : Int) < 2 ^ width.toNat := by positivity
  have hdigits : ∀ m : Int, 0 ≤ m → m < 2 ^ width.toNat → m = n % 2 ^ width.toNat →
      Spans width (digits m.toNat width) ∧
        ∀ v, isMatch (digits m.toNat width) v = (v % 2 ^ width.toNat == n % 2 ^ width.toNat) := by
    intro m hnonneg hlt hm
    have hfits : m.toNat < 2 ^ width.toNat := by
      zify
      rwa [Int.toNat_of_nonneg hnonneg]
    refine ⟨spans_digits hwidth hfits, fun v => ?_⟩
    rw [isMatch_digits hfits, Int.toNat_of_nonneg hnonneg, hm]
  unfold ofInt?
  by_cases hneg : n < 0
  · -- A negative integer is written as its remainder.
    have hnorm : (Shape.unsigned width).normalize n = n % 2 ^ width.toNat := by
      unfold Shape.normalize Shape.unsigned
      rw [if_neg Bool.false_ne_true, pow_eq]
      push_cast
      rfl
    obtain ⟨hspans, hmatch⟩ := hdigits _ (Int.emod_nonneg n hpos.ne') (Int.emod_lt_of_pos n hpos) rfl
    rw [if_pos hneg, hnorm]
    simpa using ⟨hspans, by omega, hmatch⟩
  · rw [if_neg hneg]
    by_cases hwide : (n ≠ 0 && decide (width < (bitsFor n false : Int))) = true
    · rw [if_pos hwide]
      rw [Bool.and_eq_true, decide_eq_true_iff, decide_eq_true_iff] at hwide
      simpa using mt (bitsFor_le_iff (w := width.toNat) (by omega)).mpr (by omega)
    · rw [if_neg hwide]
      have hlt : n < 2 ^ width.toNat := by
        by_cases hzero : n = 0
        · omega
        · rw [Bool.and_eq_true, decide_eq_true_iff, decide_eq_true_iff] at hwide
          exact (bitsFor_le_iff (by omega)).mp (by omega)
      obtain ⟨hspans, hmatch⟩ := hdigits n (by omega) hlt (Int.emod_eq_of_lt (by omega) hlt).symm
      simpa using ⟨hspans, hlt, hmatch⟩

theorem normalize_int {t : IntType} {n : Int} (h : normalize (.int t n) width = .ok o) : o = ofInt? n width := by
  unfold normalize at h
  dsimp only at h
  split at h
  · split at h
    · cases h
    · exact (Except.ok.inj h).symm
  · cases h

theorem normalize_text (h : normalize (.text p) width = .ok o) : ∃ s, ofText p width = .ok s ∧ o = some s := by
  unfold normalize at h
  obtain hok := except_mapError_eq_ok.mp h
  cases htext : ofText p width with
  | error =>
    rw [htext] at hok
    cases hok
  | ok s =>
    rw [htext] at hok
    exact ⟨s, rfl, (Except.ok.inj hok).symm⟩

/-- A pattern that is kept has the width of the test and matches what was written; one that is dropped covers
nothing. -/
theorem normalize_spec {p : Operand} (hwidth : 0 ≤ width) (h : normalize p width = .ok o) (v : Int) :
    (∀ t, o = some t → Spans width t ∧ isMatch t v = covers width v p) ∧ (o = none → covers width v p = false) := by
  cases p with
  | text =>
    obtain ⟨q, hq, rfl⟩ := normalize_text h
    refine ⟨?_, fun hnone => absurd hnone (Option.some_ne_none _)⟩
    rintro t ht
    obtain rfl := Option.some.inj ht
    have hspans := spans_ofText hq
    refine ⟨hspans, ?_⟩
    rw [isMatch_eq_agrees hspans.chars v, (ofText_inv hq).1]
    rfl
  | int t n =>
    obtain rfl := normalize_int h
    obtain ⟨hsome, hnone⟩ := ofInt?_spec (n := n) hwidth
    constructor
    · intro q hq
      obtain ⟨hspans, hlt, hmatch⟩ := hsome q hq
      refine ⟨hspans, ?_⟩
      rw [hmatch, covers, decide_eq_true hlt, Bool.true_and]
    · intro h
      rw [covers, decide_eq_false (by have := hnone h; omega), Bool.false_and]
  | value | flag | float | absent => cases h

end Pattern
end Rtl
