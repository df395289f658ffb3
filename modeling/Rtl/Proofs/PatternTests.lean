import Mathlib
import Rtl.Proofs.Patterns
import Rtl.Proofs.Ranges

/-!
# Patterns read as bits, as masks and as expressions

A pattern is written as an integer or as a text, is matched by its mask and value, and can be turned into an
expression that tests a value. The three agree at every width, none included: an integer that fits matches the numbers
congruent to it, a text the numbers whose bits agree with its characters, and the expression is one exactly when a
pattern that fits matches the value, whether the value has a sign or not.
-/
namespace Rtl

open List

variable {n : Nat} {p : String}

namespace Pattern

variable {w : Int}

theorem forall_getElem?_append {α : Type} {P : Nat → α → Prop} {l : List α} {a : α} :
    (∀ i c, (l ++ [a])[i]? = some c → P i c) ↔ (∀ i c, l[i]? = some c → P i c) ∧ P l.length a := by
  constructor
  · refine fun h => ⟨fun i c hi => h i c ?_, h l.length a (by simp)⟩
    rw [List.getElem?_append_left (List.getElem?_eq_some_iff.mp hi).1, hi]
  · rintro ⟨hl, ha⟩ i c hi
    rcases lt_or_ge i l.length with hlt | hge
    · exact hl i c (getElem?_append_left hlt ▸ hi)
    · rw [getElem?_append_right hge, getElem?_singleton] at hi
      split at hi
      · obtain rfl : i = l.length := by omega
        exact Option.some.inj hi ▸ ha
      · cases hi

/-- Each character that is cared about is the bit at its place, the last one being the lowest. -/
def ReadsAs (v : Int) (cs : List Char) : Prop :=
  ∀ i c, cs.reverse[i]? = some c → (c = '0' → v / 2 ^ i % 2 = 0) ∧ (c = '1' → v / 2 ^ i % 2 = 1)

theorem agrees_iff {v : Int} {cs : List Char} (h : ∀ c ∈ cs, isPatternChar c = true) :
    agrees v cs = true ↔ ReadsAs v cs := by
  induction cs with
  | nil => simp [agrees, ReadsAs]
  | cons c cs ih =>
    obtain ⟨hc, hcs⟩ := forall_mem_cons.mp h
    rw [ReadsAs, reverse_cons, forall_getElem?_append, length_reverse, agrees, Bool.and_eq_true, ih hcs,
      and_comm]
    refine and_congr_right fun _ => ?_
    rcases isPatternChar_iff.mp hc with rfl | rfl | rfl <;> simp

theorem normalize_self (h : Spans w p) : normalize (.text p) w = .ok (some p) := by
  rw [normalize, h.ofText_eq]
  rfl

theorem valueOf_le_maskOf (cs : List Char) : valueOf cs ≤ maskOf cs := by
  induction cs with
  | nil => exact le_refl 0
  | cons c cs ih =>
    rw [valueOf, maskOf]
    refine Nat.add_le_add ?_ ih
    by_cases hc : c = '1' <;> simp [hc]

end Pattern

/-- Under a mask, an integer is what it leaves below the width of the mask. -/
theorem land_mask {m : Nat} (hm : m < 2 ^ n) (x : Int) : x.land m = (((x % 2 ^ n).toNat &&& m : Nat) : Int) := by
  have hbelow : ∀ i, m.testBit i = true → i < n := by
    intro i hi
    by_contra hge
    rw [Nat.testBit_lt_two_pow (hm.trans_le (Nat.pow_le_pow_right (by decide) (not_lt.mp hge)))] at hi
    cases hi
  have hcast : ((2 ^ n : Nat) : Int) = 2 ^ n := by norm_num
  -- A negative integer is the complement of what it is written by, bit by bit.
  cases x with
  | ofNat k =>
    have hmod : (Int.ofNat k % 2 ^ n).toNat = k % 2 ^ n := by exact_mod_cast Int.toNat_natCast (k % 2 ^ n)
    rw [hmod]
    refine congrArg Int.ofNat (Nat.eq_of_testBit_eq fun i => ?_)
    have hi := hbelow i
    simp only [Nat.testBit_and, Nat.testBit_mod_two_pow]
    grind
  | negSucc k =>
    have hmod : (Int.negSucc k % 2 ^ n).toNat = 2 ^ n - (k % 2 ^ n + 1) := by
      rw [← hcast, Int.negSucc_emod _ (Int.natCast_pos.mpr (Nat.two_pow_pos n)), ← Int.natCast_emod]
      omega
    rw [hmod]
    refine congrArg Int.ofNat (Nat.eq_of_testBit_eq fun i => ?_)
    have hi := hbelow i
    simp only [Nat.testBit_and, Nat.testBit_ldiff, Nat.testBit_mod_two_pow,
      Nat.testBit_two_pow_sub_succ (Nat.mod_lt k (Nat.two_pow_pos n))]
    grind

namespace Value

variable {w : Int} {patterns : List Operand}

mutual

/-- What an expression stands for: constants, operators and concatenations are computed at their shapes, and `ρ` says
what everything else reads as. -/
def eval (σ : Arenas) (ρ : Value → Int) : Value → Int
  | .const n s => s.normalize n
  | .unary op a s => s.normalize (op.result (a.shape σ) (eval σ ρ a))
  | .binary op a b s => s.normalize (op.result (eval σ ρ a) (eval σ ρ b))
  | .mux sel a b s => s.normalize (if eval σ ρ sel = 0 then eval σ ρ b else eval σ ρ a)
  | .cat parts => evalAll σ ρ parts
  | v => (v.shape σ).normalize (ρ v)

/-- Several values side by side, the lowest first. -/
def evalAll (σ : Arenas) (ρ : Value → Int) : List Value → Int
  | [] => 0
  | v :: vs => eval σ ρ v % 2 ^ (v.width σ).toNat + 2 ^ (v.width σ).toNat * evalAll σ ρ vs

end

variable {σ : Arenas} {ρ : Value → Int} {x : Value}

/-- A value of one bit. -/
structure IsBit (σ : Arenas) (ρ : Value → Int) (t : Value) : Prop where
  shape : t.shape σ = .unsigned 1
  bit : t.eval σ ρ = 0 ∨ t.eval σ ρ = 1

theorem isBit_of_eval {t : Value} {c : Prop} [Decidable c] (hshape : t.shape σ = .unsigned 1)
    (heval : t.eval σ ρ = (Shape.unsigned 1).normalize (if c then 1 else 0)) :
    IsBit σ ρ t ∧ (t.eval σ ρ = 1 ↔ c) := by
  rw [(Operation.holds_bit c).normalize_eq] at heval
  refine ⟨⟨hshape, ?_⟩, ?_⟩ <;> rw [heval] <;> split <;> simp [*]

theorem evalAll_ne_zero {ts : List Value} (hts : ∀ t ∈ ts, IsBit σ ρ t) :
    0 ≤ evalAll σ ρ ts ∧ (evalAll σ ρ ts ≠ 0 ↔ ∃ t ∈ ts, t.eval σ ρ = 1) := by
  induction ts with
  | nil => simp [evalAll]
  | cons t ts ih =>
    obtain ⟨ht, hts⟩ := forall_mem_cons.mp hts
    obtain ⟨hnonneg, hiff⟩ := ih hts
    have hwidth : (2 : Int) ^ (t.width σ).toNat = 2 := by rw [width, ht.shape]; rfl
    simp only [evalAll, hwidth, exists_mem_cons_iff, ← hiff]
    rcases ht.bit with hbit | hbit <;> rw [hbit] <;> omega

theorem eval_constant (hw : 0 ≤ w) (hn : n < 2 ^ w.toNat) :
    ∃ c, ofIntShape n (.unsigned w) = .ok c ∧ c.shape σ = .unsigned w ∧ c.eval σ ρ = n := by
  have hholds : (Shape.unsigned w).Holds n := Shape.holds_unsigned.mpr ⟨hw, Int.natCast_nonneg n, by exact_mod_cast hn⟩
  have hok : ofIntShape n (.unsigned w) = .ok (.const n (.unsigned w)) := by
    rw [ofIntShape, if_neg (by exact not_lt.mpr hw), if_neg (by simp), hholds.normalize_eq]
  exact ⟨_, hok, rfl, hholds.normalize_eq⟩

/-- The width at which the value stands beside a mask of its own width is a word: its width is, and where the value has a
sign so is the width after it. -/
def Comparable (σ : Arenas) (x : Value) : Prop := InWord ((x.shape σ).exactPromote (.unsigned (x.width σ))).width

/-- Beside a mask of its own width a value keeps what the mask leaves of it, with a bit more where it has a sign. -/
theorem promote_holds {s : Shape} (hs : s.width = w) (hw : 0 ≤ w)
    (hword : InWord (s.exactPromote (.unsigned w)).width) (hn : n < 2 ^ w.toNat) :
    (s.promote (.unsigned w)).Holds n := by
  have hin : InWord w := by
    simp only [Shape.exactPromote, Shape.unsigned, hs, InWord] at hword ⊢
    split_ifs at hword <;> omega
  rw [Shape.promote_eq (hs.symm ▸ hin) hin hword]
  refine Shape.Holds.promote_right (b := .unsigned w) ?_ s
  exact Shape.holds_unsigned.mpr ⟨hw, Int.natCast_nonneg n, by exact_mod_cast hn⟩

/-- The test of a pattern is a bit, set when the pattern matches. -/
theorem eval_matchTerm (hp : Pattern.Spans (x.width σ) p) (hword : x.Comparable σ) :
    ∃ t, matchTerm σ x p = .ok t ∧ IsBit σ ρ t ∧ (t.eval σ ρ = 1 ↔ Pattern.isMatch p (x.eval σ ρ) = true) := by
  have hw : 0 ≤ x.width σ := hp.length ▸ Int.natCast_nonneg _
  have hlen : Pattern.byteLength p.toList = (x.width σ).toNat := by
    rw [Pattern.byteLength_eq_length hp.chars, ← hp.length, Int.toNat_natCast]
  obtain ⟨hmask, hvalue⟩ := Pattern.maskOf_lt p.toList
  rw [hlen] at hmask hvalue
  have hmatch : Pattern.isMatch p (x.eval σ ρ) = true ↔
      (x.eval σ ρ % 2 ^ (x.width σ).toNat).toNat &&& Pattern.maskOf p.toList = Pattern.valueOf p.toList := by
    rw [Pattern.isMatch, decide_eq_true_iff, hlen, Nat.pow_eq]
    push_cast
    rfl
  rw [hmatch]
  unfold matchTerm
  by_cases hzero : Pattern.maskOf p.toList = 0
  · have hone : ofIntShape 1 (.unsigned 1) = .ok (.const 1 (.unsigned 1)) := rfl
    have hnone : Pattern.valueOf p.toList = 0 := by
      have := Pattern.valueOf_le_maskOf p.toList
      omega
    dsimp only
    rw [if_pos hzero, hone, hzero, hnone, Nat.and_zero]
    exact ⟨_, rfl, isBit_of_eval (c := True) rfl rfl |>.imp_right fun h => h.trans (by simp)⟩
  · obtain ⟨mask, hmaskc, hmasks, hmaske⟩ := eval_constant (σ := σ) (ρ := ρ) hw hmask
    obtain ⟨value, hvaluec, hvalues, hvaluee⟩ := eval_constant (σ := σ) (ρ := ρ) hw hvalue
    have hland : ((x.shape σ).promote (.unsigned (x.width σ))).normalize
        ((x.eval σ ρ).land (Pattern.maskOf p.toList)) =
          ((x.eval σ ρ % 2 ^ (x.width σ).toNat).toNat &&& Pattern.maskOf p.toList : Nat) := by
      rw [land_mask hmask]
      exact (promote_holds rfl hw hword (Nat.and_le_right.trans_lt hmask)).normalize_eq
    dsimp only
    rw [if_neg hzero, hmaskc, hvaluec]
    refine ⟨_, rfl, isBit_of_eval rfl ?_⟩
    simp only [eval, BinaryOp.result, hmasks, hmaske, hvaluee, hland, Nat.cast_inj]

/-- The patterns that fit have their tests, and one of the tests is set when one of the patterns matches. -/
theorem eval_matchTerms (hw : 0 ≤ x.width σ) (hword : x.Comparable σ)
    (h : ∀ p ∈ patterns, ∃ o, Pattern.normalize p (x.width σ) = .ok o) :
    ∃ ts, matchTerms σ x patterns = .ok ts ∧ (∀ t ∈ ts, IsBit σ ρ t) ∧
      ((∃ t ∈ ts, t.eval σ ρ = 1) ↔ ∃ p ∈ patterns, ∃ q, Pattern.normalize p (x.width σ) = .ok (some q) ∧
        Pattern.isMatch q (x.eval σ ρ) = true) := by
  induction patterns with
  | nil => exact ⟨[], rfl, by simp, by simp⟩
  | cons p patterns ih =>
    obtain ⟨⟨o, ho⟩, hrest⟩ := forall_mem_cons.mp h
    obtain ⟨ts, hts, hbits, hiff⟩ := ih hrest
    simp only [exists_mem_cons_iff, ho, Except.ok.injEq]
    cases o with
    | none =>
      refine ⟨ts, ?_, hbits, by simpa using hiff⟩
      rw [matchTerms, ho]
      exact hts
    | some q =>
      have hspans := ((Pattern.normalize_spec hw ho 0).1 q rfl).1
      obtain ⟨t, ht, hbit, hset⟩ := eval_matchTerm (ρ := ρ) hspans hword
      refine ⟨t :: ts, ?_, forall_mem_cons.mpr ⟨hbit, hbits⟩, ?_⟩
      · rw [matchTerms, ho]
        dsimp only [bind, Except.bind]
        rw [ht, hts]
        rfl
      · rw [exists_mem_cons_iff, hset, hiff]
        simp

/-- The expression over all patterns is a bit, set when one of those that fit matches. -/
theorem eval_matchAny (hw : 0 ≤ x.width σ) (hword : x.Comparable σ)
    (h : ∀ p ∈ patterns, ∃ o, Pattern.normalize p (x.width σ) = .ok o) :
    ∃ r, matchAny σ x patterns = .ok r ∧ IsBit σ ρ r ∧
      (r.eval σ ρ = 1 ↔ ∃ p ∈ patterns, ∃ q, Pattern.normalize p (x.width σ) = .ok (some q) ∧
        Pattern.isMatch q (x.eval σ ρ) = true) := by
  obtain ⟨ts, hts, hbits, hiff⟩ := eval_matchTerms (ρ := ρ) hw hword h
  rw [matchAny, hts, ← hiff]
  rcases ts with _ | ⟨t, _ | ⟨u, ts⟩⟩
  · exact ⟨_, rfl, isBit_of_eval (c := False) rfl rfl |>.imp_right fun h => h.trans (by simp)⟩
  · exact ⟨t, rfl, hbits t mem_cons_self, by simp⟩
  · rw [← (evalAll_ne_zero hbits).2]
    exact ⟨mkUnary σ .any (.cat (t :: u :: ts)), rfl, isBit_of_eval rfl rfl⟩

end Value

namespace Pattern

variable {w : Int}
variable {k : Int}

theorem isMatch_ofInt (hw : 0 ≤ w) (h : ofInt? k w = some p) :
    (p.length : Int) = w ∧ ∀ v, isMatch p v = true ↔ v ≡ k [ZMOD 2 ^ w.toNat] := by
  obtain ⟨hspans, -, hmatch⟩ := (ofInt?_spec hw).1 p h
  refine ⟨String.length_toList ▸ hspans.length, fun v => ?_⟩
  rw [hmatch, beq_iff_eq, Int.ModEq]

theorem isSome_ofInt (hw : 0 ≤ w) : (ofInt? k w).isSome = true ↔ k < 2 ^ w.toNat := by
  obtain ⟨hsome, hnone⟩ := ofInt?_spec (n := k) hw
  cases h : ofInt? k w with
  | none => simpa using hnone h
  | some p => simpa using (hsome p h).2.1

/-- Integers, texts and expressions agree on what a pattern matches. -/
theorem matching_agrees (hw : 0 ≤ w) :
    (∀ (t : IntType) (k : Int), isPatternType t = true →
      ∃ o, normalize (.int t k) w = .ok o ∧ (o.isSome = true ↔ k < 2 ^ w.toNat) ∧
        ∀ p, o = some p → (p.length : Int) = w ∧ ∀ v, isMatch p v = true ↔ v ≡ k [ZMOD 2 ^ w.toNat]) ∧
    (∀ p, Spans w p → (∀ v, isMatch p v = true ↔ ReadsAs v p.toList) ∧ normalize (.text p) w = .ok (some p)) ∧
    ∀ (σ : Arenas) (ρ : Value → Int) (x : Value) (patterns : List Operand), x.width σ = w → x.Comparable σ →
      (∀ p ∈ patterns, ∃ o, normalize p w = .ok o) →
      ∃ r, x.matchAny σ patterns = .ok r ∧ r.IsBit σ ρ ∧ (r.eval σ ρ = 1 ↔
        ∃ p ∈ patterns, ∃ q, normalize p w = .ok (some q) ∧ isMatch q (x.eval σ ρ) = true) := by
  refine ⟨fun t k ht => ⟨ofInt? k w, ?_, isSome_ofInt hw, fun p => isMatch_ofInt hw⟩, fun p hp => ⟨fun v => ?_, ?_⟩, ?_⟩
  · simp [normalize, ht, not_lt.mpr hw]
  · rw [isMatch_eq_agrees hp.chars, agrees_iff hp.chars]
  · exact normalize_self hp
  · rintro σ ρ x patterns rfl hword h
    exact Value.eval_matchAny hw hword h

/-- A negative integer of three bits against a text with a free bit, a negative integer and one that is too wide. -/
theorem matching_agrees_negative :
    let x := Value.const (-3) (.signed 3)
    let patterns := [Operand.text "0-1", .int .int (-3), .int .int 9]
    ∃ r, x.matchAny .empty patterns = .ok r ∧ r.eval .empty (fun _ => 0) = 1 := by
  intro x patterns
  have h : ∀ p ∈ patterns, ∃ o, normalize p 3 = .ok o := by
    simp only [patterns, forall_mem_cons, not_mem_nil, false_imp_iff, implies_true, and_true]
    exact ⟨⟨some "0-1", by rfl⟩, ⟨some "101", by rfl⟩, ⟨none, by rfl⟩⟩
  have hword : x.Comparable .empty := by
    unfold Value.Comparable
    decide
  obtain ⟨r, hr, -, hiff⟩ := (matching_agrees (w := 3) (by decide)).2.2 .empty (fun _ => 0) x patterns rfl hword h
  refine ⟨r, hr, hiff.mpr ⟨.int .int (-3), by simp [patterns], "101", by rfl, ?_⟩⟩
  decide

end Pattern
end Rtl
