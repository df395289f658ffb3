import Mathlib
import Rtl.Builder.Scope
import Rtl.Proofs.Patterns
import Rtl.Proofs.Tree

/-!
# The arms of a switch

A switch is made from arms one after the other, and an arm takes the place of an earlier one with the same key. The
builder of a switch compares the lists of patterns themselves, and the switch that is made from its arms compares the
texts into which the patterns are joined. The two agree but for one pair of lists, the empty one and the one that holds
the empty pattern: both are joined to the empty text. Only a test without bits has an empty pattern.
-/
namespace Rtl

open List

namespace Statement

variable {ps qs : List String} {σ : Arenas} {test : Value} {x : Statement}
variable {width : Int} {arms : List Arm}

/-! ## Placing arms by a key -/

/-- Puts an arm in the place of the first one with its key, or behind all others. -/
def putArm {κ : Type} [DecidableEq κ] (key : List String → κ) (arm : Arm) : List Arm → List Arm
  | [] => [arm]
  | a :: rest => if key a.1 = key arm.1 then arm :: rest else a :: putArm key arm rest

def putArms {κ : Type} [DecidableEq κ] (key : List String → κ) (acc arms : List Arm) : List Arm :=
  arms.foldl (fun acc a => putArm key a acc) acc

theorem setArm_eq_putArm (arm : Arm) (arms : List Arm) : setArm arm arms = putArm armKey arm arms := by
  induction arms with
  | nil => rfl
  | cons a arms ih => rw [setArm, putArm, ih]

theorem builder_setArm_eq_putArm (arm : Arm) (arms : List Arm) : Builder.setArm arm arms = putArm id arm arms := by
  induction arms with
  | nil => rfl
  | cons a arms ih => rw [Builder.setArm, putArm, ih, id, id]

section Keys

variable {κ κ' : Type} [DecidableEq κ] [DecidableEq κ'] {key : List String → κ} {key' : List String → κ'}
  {arm a : Arm} {acc arms : List Arm}

theorem mem_putArm (h : a ∈ putArm key arm arms) : a = arm ∨ a ∈ arms := by
  induction arms with
  | nil => exact .inl (mem_singleton.mp h)
  | cons b arms ih =>
    rw [putArm] at h
    split at h
    · exact (mem_cons.mp h).imp_right (mem_cons_of_mem _)
    · rcases mem_cons.mp h with rfl | h
      · exact .inr mem_cons_self
      · exact (ih h).imp_right (mem_cons_of_mem _)

theorem mem_putArms (h : a ∈ putArms key acc arms) : a ∈ acc ∨ a ∈ arms := by
  induction arms generalizing acc with
  | nil => exact .inl h
  | cons b arms ih =>
    rcases ih h with h | h
    · rcases mem_putArm h with rfl | h
      · exact .inr mem_cons_self
      · exact .inl h
    · exact .inr (mem_cons_of_mem _ h)

/-- A key that is new comes last; no key is lost. -/
theorem putArm_keys (arm : Arm) (arms : List Arm) : (putArm key arm arms).map (key ·.1) =
    if key arm.1 ∈ arms.map (key ·.1) then arms.map (key ·.1) else arms.map (key ·.1) ++ [key arm.1] := by
  induction arms with
  | nil => rfl
  | cons b arms ih =>
    rw [putArm]
    by_cases hba : key b.1 = key arm.1
    · rw [if_pos hba, if_pos (mem_map.mpr ⟨b, mem_cons_self, hba⟩), map_cons, map_cons, hba]
    · simp only [if_neg hba, map_cons, ih, mem_cons, or_iff_right (Ne.symm hba)]
      split <;> rfl

theorem mem_keys_putArms {k : κ} :
    k ∈ (putArms key acc arms).map (key ·.1) ↔ k ∈ acc.map (key ·.1) ∨ k ∈ arms.map (key ·.1) := by
  induction arms generalizing acc with
  | nil => simp [putArms]
  | cons b arms ih =>
    refine ih.trans ?_
    rw [putArm_keys, map_cons, mem_cons, ← or_assoc]
    split
    · rename_i hold
      exact or_congr_left ⟨.inl, fun h => h.elim id (· ▸ hold)⟩
    · rw [mem_append, mem_singleton]

theorem nodup_putArm (h : (arms.map (key ·.1)).Nodup) : ((putArm key arm arms).map (key ·.1)).Nodup := by
  rw [putArm_keys]
  split
  · exact h
  · rw [← concat_eq_append]
    exact h.concat ‹_›

theorem nodup_putArms (h : (acc.map (key ·.1)).Nodup) : ((putArms key acc arms).map (key ·.1)).Nodup := by
  induction arms generalizing acc with
  | nil => exact h
  | cons b arms ih => exact ih (nodup_putArm h)

theorem putArms_of_nodup (h : ((acc ++ arms).map (key ·.1)).Nodup) : putArms key acc arms = acc ++ arms := by
  have hnew : ∀ {arm : Arm} {acc : List Arm}, key arm.1 ∉ acc.map (key ·.1) → putArm key arm acc = acc ++ [arm] := by
    intro arm acc h
    induction acc with
    | nil => rfl
    | cons b acc ih =>
      rw [map_cons, mem_cons, not_or] at h
      rw [putArm, if_neg (Ne.symm h.1), ih h.2, cons_append]
  induction arms generalizing acc with
  | nil => rw [append_nil]; rfl
  | cons b arms ih =>
    have hshift : acc ++ b :: arms = acc ++ [b] ++ arms := by simp
    have hb : key b.1 ∉ acc.map (key ·.1) := by
      rw [map_append, nodup_append] at h
      exact fun hmem => h.2.2 _ hmem (key b.1) (by simp) rfl
    rw [hshift, ← ih (hshift ▸ h), ← hnew hb]
    rfl

/-- Arms stay as they are, each in its place, exactly when no two have the same key. -/
theorem putArms_eq_iff : putArms key [] arms = arms ↔ (arms.map (key ·.1)).Nodup := by
  constructor
  · intro h
    rw [← h]
    exact nodup_putArms nodup_nil
  · intro h
    rw [putArms_of_nodup, nil_append]
    rwa [nil_append]

theorem putArms_congr (h : ∀ a ∈ acc ++ arms, ∀ b ∈ acc ++ arms, key a.1 = key b.1 ↔ key' a.1 = key' b.1) :
    putArms key acc arms = putArms key' acc arms := by
  have hput : ∀ {arm : Arm} {acc : List Arm}, (∀ a ∈ acc, key a.1 = key arm.1 ↔ key' a.1 = key' arm.1) →
      putArm key arm acc = putArm key' arm acc := by
    intro arm acc h
    induction acc with
    | nil => rfl
    | cons b acc ih =>
      obtain ⟨hb, hrest⟩ := forall_mem_cons.mp h
      rw [putArm, putArm, ih hrest]
      exact if_congr hb rfl rfl
  induction arms generalizing acc with
  | nil => rfl
  | cons b arms ih =>
    have hb : putArm key b acc = putArm key' b acc :=
      hput fun a ha => h a (mem_append_left _ ha) b (by simp)
    have hsub : ∀ a ∈ putArm key' b acc ++ arms, a ∈ acc ++ b :: arms := by
      intro a ha
      rcases mem_append.mp ha with ha | ha
      · rcases mem_putArm ha with rfl | ha <;> simp [*]
      · simp [ha]
    have hstep := ih fun a ha c hc => h a (hsub a ha) c (hsub c hc)
    rw [putArms, putArms, foldl_cons, foldl_cons, hb]
    exact hstep

end Keys

/-! ## Making a switch -/

/-- The second arm is the first one with its patterns in canonical form. -/
structure Normalizes (width : Int) (a b : Arm) : Prop where
  patterns : armPatterns width a.1 = .ok b.1
  body : b.2 = a.2

theorem armPatterns_spans (h : armPatterns width ps = .ok qs) : ∀ q ∈ qs, Pattern.Spans width q := by
  induction ps generalizing qs with
  | nil =>
    cases h
    simp
  | cons p ps ih =>
    obtain ⟨q, hq, h⟩ := except_bind_eq_ok.mp h
    obtain ⟨rest, hrest, rfl⟩ := except_bind_pure_eq_ok.mp h
    exact forall_mem_cons.mpr ⟨Pattern.spans_ofText hq, ih hrest⟩

theorem armPatterns_self (h : ∀ p ∈ ps, Pattern.Spans width p) : armPatterns width ps = .ok ps := by
  induction ps with
  | nil => rfl
  | cons p ps ih =>
    obtain ⟨hp, hps⟩ := forall_mem_cons.mp h
    rw [armPatterns, hp.ofText_eq, ih hps]
    rfl

theorem armPatterns_eq (hps : ∀ p ∈ ps, Pattern.Canonical p) (h : armPatterns width ps = .ok qs) : qs = ps := by
  induction ps generalizing qs with
  | nil => exact (Except.ok.inj h).symm
  | cons p ps ih =>
    obtain ⟨hp, hps⟩ := forall_mem_cons.mp hps
    obtain ⟨q, hq, h⟩ := except_bind_eq_ok.mp h
    obtain ⟨rest, hrest, rfl⟩ := except_bind_pure_eq_ok.mp h
    rw [(Pattern.ofText_inv hq).1, Pattern.dropBlanks_eq hp.chars, ih hps hrest]

theorem mkArms_iff {acc arms out : List Arm} : mkArms width acc arms = .ok out ↔
    ∃ canon, List.Forall₂ (Normalizes width) arms canon ∧ out = putArms armKey acc canon := by
  induction arms generalizing acc with
  | nil => simp [mkArms, putArms, eq_comm]
  | cons a arms ih =>
    obtain ⟨patterns, body⟩ := a
    constructor
    · intro h
      obtain ⟨qs, hqs, h⟩ := except_bind_eq_ok.mp h
      obtain ⟨canon, hcanon, rfl⟩ := ih.mp h
      refine ⟨(qs, body) :: canon, .cons ⟨hqs, rfl⟩ hcanon, ?_⟩
      rw [setArm_eq_putArm]
      rfl
    · rintro ⟨canon, hcanon, rfl⟩
      cases hcanon with
      | @cons _ b _ canon hb hrest =>
        obtain ⟨qs, body'⟩ := b
        obtain ⟨hqs, rfl⟩ := hb
        refine except_bind_eq_ok.mpr ⟨qs, hqs, ih.mpr ⟨canon, hrest, ?_⟩⟩
        rw [setArm_eq_putArm]
        rfl

/-- A switch holds its arms in canonical form, each in the place of its key. -/
theorem mkSwitch_iff :
    mkSwitch σ test arms = .ok x ↔ ∃ canon, List.Forall₂ (Normalizes (test.width σ)) arms canon ∧
      x = .switch test (putArms armKey [] canon) := by
  refine except_bind_pure_eq_ok.trans ?_
  simp only [mkArms_iff]
  constructor
  · rintro ⟨_, ⟨canon, hcanon, rfl⟩, rfl⟩
    exact ⟨canon, hcanon, rfl⟩
  · rintro ⟨canon, hcanon, rfl⟩
    exact ⟨_, ⟨canon, hcanon, rfl⟩, rfl⟩

theorem mkSwitch_arms (h : mkSwitch σ test arms = .ok x) :
    ∃ out, x = .switch test out ∧ ∀ a ∈ out, ∃ b ∈ arms, Normalizes (test.width σ) b a := by
  obtain ⟨canon, hcanon, rfl⟩ := mkSwitch_iff.mp h
  refine ⟨_, rfl, fun a ha => forall₂_mem_right hcanon ?_⟩
  exact (mem_putArms ha).resolve_left not_mem_nil

/-- A list of patterns is read off its key, as the separator is no pattern character. Only the empty list has the key
of another one, which holds the pattern without characters. -/
theorem armKey_eq_iff (hps : ∀ p ∈ ps, ∀ c ∈ p.toList, Pattern.isPatternChar c = true)
    (hqs : ∀ q ∈ qs, ∀ c ∈ q.toList, Pattern.isPatternChar c = true) :
    armKey ps = armKey qs ↔ ps = qs ∨ (ps = [] ∧ qs = [""]) ∨ (ps = [""] ∧ qs = []) := by
  have hsplit : ∀ {ts : List String}, (∀ t ∈ ts, ∀ c ∈ t.toList, Pattern.isPatternChar c = true) → ts ≠ [] →
      (armKey ts).toList.splitOn '|' = ts.map String.toList := by
    intro ts hts hne
    rw [armKey, String.toList_intercalate]
    refine splitOn_intercalate '|' ?_ (fun hnil => hne (map_eq_nil_iff.mp hnil))
    intro l hl hbar
    obtain ⟨t, ht, rfl⟩ := mem_map.mp hl
    exact absurd (hts t ht '|' hbar) (by decide)
  have hempty : ∀ {ts : List String}, (∀ t ∈ ts, ∀ c ∈ t.toList, Pattern.isPatternChar c = true) →
      armKey ts = "" → ts ≠ [] → ts = [""] := by
    intro ts hts hkey hne
    have hmap := hsplit hts hne
    rw [hkey, String.toList_empty, splitOn_nil] at hmap
    obtain ⟨t, rfl, ht⟩ := map_eq_singleton_iff.mp hmap.symm
    rw [String.toList_injective (ht.trans String.toList_empty.symm)]
  constructor
  · intro h
    by_cases hnil : ps = [] <;> by_cases hnil' : qs = []
    · exact .inl (hnil.trans hnil'.symm)
    · exact .inr (.inl ⟨hnil, hempty hqs (by rw [← h, hnil]; rfl) hnil'⟩)
    · exact .inr (.inr ⟨hempty hps (by rw [h, hnil']; rfl) hnil, hnil'⟩)
    · have hmap := (hsplit hps hnil).symm.trans ((congrArg (fun k => k.toList.splitOn '|') h).trans (hsplit hqs hnil'))
      exact .inl (map_injective_iff.mpr (fun _ _ => String.toList_injective) hmap)
  · rintro (rfl | ⟨rfl, rfl⟩ | ⟨rfl, rfl⟩)
    · rfl
    · rfl
    · rfl

/-- Two of the arms differ in their patterns and not in their key. -/
def Blends (arms : List Arm) : Prop := [] ∈ arms.map Prod.fst ∧ [""] ∈ arms.map Prod.fst

theorem nodup_armKey_iff (harms : ∀ a ∈ arms, ∀ p ∈ a.1, ∀ c ∈ p.toList, Pattern.isPatternChar c = true) :
    (arms.map (armKey ·.1)).Nodup ↔ (arms.map Prod.fst).Nodup ∧ ¬ Blends arms := by
  have hmap : arms.map (armKey ·.1) = (arms.map Prod.fst).map armKey := by rw [map_map]; rfl
  have hpatterns : ∀ ps ∈ arms.map Prod.fst, ∀ p ∈ ps, ∀ c ∈ p.toList, Pattern.isPatternChar c = true := by
    intro ps hps
    obtain ⟨a, ha, rfl⟩ := mem_map.mp hps
    exact harms a ha
  rw [hmap]
  constructor
  · refine fun h => ⟨h.of_map _, fun hblend => ?_⟩
    have hsame := inj_on_of_nodup_map h hblend.1 hblend.2 rfl
    exact absurd hsame (by decide)
  · rintro ⟨hnodup, hblend⟩
    refine hnodup.map_on fun ps hps qs hqs hkey => ?_
    obtain h | ⟨rfl, rfl⟩ | ⟨rfl, rfl⟩ := (armKey_eq_iff (hpatterns ps hps) (hpatterns qs hqs)).mp hkey
    · exact h
    · exact absurd ⟨hps, hqs⟩ hblend
    · exact absurd ⟨hqs, hps⟩ hblend

theorem not_blends_of_canonical (h : ∀ a ∈ arms, ∀ p ∈ a.1, Pattern.Canonical p) : ¬ Blends arms := by
  rintro ⟨-, hempty⟩
  obtain ⟨a, ha, hpatterns⟩ := mem_map.mp hempty
  exact (h a ha "" (hpatterns ▸ mem_cons_self)).nonempty rfl

/-- A switch over arms in canonical form keeps all of them as they are exactly when no two of them have the same
patterns or blend. -/
theorem mkSwitch_self_iff (harms : ∀ a ∈ arms, ∀ p ∈ a.1, Pattern.Spans (test.width σ) p) :
    mkSwitch σ test arms = .ok (.switch test arms) ↔ (arms.map Prod.fst).Nodup ∧ ¬ Blends arms := by
  have hself : List.Forall₂ (Normalizes (test.width σ)) arms arms := by
    rw [forall₂_same]
    exact fun a ha => ⟨armPatterns_self (harms a ha), rfl⟩
  have hmade := mkSwitch_iff.mpr ⟨arms, hself, rfl⟩
  rw [hmade, ← nodup_armKey_iff fun a ha p hp => (harms a ha p hp).chars, ← putArms_eq_iff, Except.ok.injEq,
    Statement.switch.injEq, and_iff_right rfl]

/-- A switch over canonical arms, no two of them with the same patterns, holds these arms. -/
theorem mkSwitch_eq (harms : ∀ a ∈ arms, ∀ p ∈ a.1, Pattern.Canonical p)
    (hnodup : (arms.map Prod.fst).Nodup) (h : mkSwitch σ test arms = .ok x) : x = .switch test arms := by
  obtain ⟨canon, hcanon, rfl⟩ := mkSwitch_iff.mp h
  have hsame : canon = arms := by
    clear h hnodup
    induction hcanon with
    | nil => rfl
    | cons hab hrest ih =>
      obtain ⟨ha, harms⟩ := forall_mem_cons.mp harms
      rw [ih harms, Prod.ext (armPatterns_eq ha hab.patterns) hab.body]
  rw [hsame, putArms_eq_iff.mpr]
  rw [nodup_armKey_iff fun a ha p hp => (harms a ha p hp).chars]
  exact ⟨hnodup, not_blends_of_canonical harms⟩

/-- The canonical patterns of a switch are as wide as its test. -/
theorem mkSwitch_width (h : mkSwitch σ test arms = .ok x) {a : Arm} (ha : a ∈ arms)
    (hcanonical : ∀ p ∈ a.1, Pattern.Canonical p) : ∀ p ∈ a.1, (p.utf8ByteSize : Int) = test.width σ := by
  obtain ⟨canon, hcanon, -⟩ := mkSwitch_iff.mp h
  obtain ⟨b, -, hab⟩ := forall₂_mem_left hcanon ha
  have hspans := armPatterns_spans hab.patterns
  rw [armPatterns_eq hcanonical hab.patterns] at hspans
  exact fun p hp => (hspans p hp).size

theorem blends_putArms_id : Blends (putArms id [] arms) ↔ Blends arms := by
  have hmem : ∀ ps, ps ∈ (putArms id [] arms).map Prod.fst ↔ ps ∈ arms.map Prod.fst := by
    intro ps
    have hkeys : ps ∈ (putArms id [] arms).map (id ·.1) ↔ _ := mem_keys_putArms
    exact hkeys.trans (or_iff_right not_mem_nil)
  rw [Blends, Blends, hmem, hmem]

/-- Arms are merged when they have the same patterns, or when one has none and the other the empty one. So a switch over
any arms agrees with their builder, and keeps the arms of the builder as they are, exactly when the arms do not blend;
arms over a test that has bits never do. -/
theorem mkSwitch_agrees_iff {σ : Arenas} {test : Value} {arms canon : List Arm}
    (h : List.Forall₂ (Normalizes (test.width σ)) arms canon) :
    let built := canon.foldl (fun acc a => Builder.setArm a acc) []
    ∃ merged, mkSwitch σ test arms = .ok (.switch test merged) ∧
      (∀ a ∈ canon, ∀ b ∈ canon, armKey a.1 = armKey b.1 ↔
        a.1 = b.1 ∨ (a.1 = [] ∧ b.1 = [""]) ∨ (a.1 = [""] ∧ b.1 = [])) ∧
      (merged = built ↔ ¬ Blends canon) ∧ (mkSwitch σ test built = .ok (.switch test built) ↔ ¬ Blends canon) ∧
      (Blends canon → test.width σ = 0) := by
  intro built
  have hbuilt : built = putArms id [] canon := by
    simp only [built, builder_setArm_eq_putArm]
    rfl
  have hspans : ∀ a ∈ canon, ∀ p ∈ a.1, Pattern.Spans (test.width σ) p := by
    intro a ha
    obtain ⟨b, -, hab⟩ := forall₂_mem_right h ha
    exact armPatterns_spans hab.patterns
  have hchars : ∀ a ∈ canon, ∀ p ∈ a.1, ∀ c ∈ p.toList, Pattern.isPatternChar c = true :=
    fun a ha p hp => (hspans a ha p hp).chars
  have hkey : ∀ a ∈ canon, ∀ b ∈ canon, armKey a.1 = armKey b.1 ↔ _ :=
    fun a ha b hb => armKey_eq_iff (hchars a ha) (hchars b hb)
  refine ⟨putArms armKey [] canon, mkSwitch_iff.mpr ⟨canon, h, rfl⟩, hkey, ⟨fun hsame => ?_, fun hblend => ?_⟩, ?_, ?_⟩
  · have hkeys : ((putArms armKey [] canon).map (armKey ·.1)).Nodup := nodup_putArms nodup_nil
    rw [nodup_armKey_iff fun a ha => hchars a ((mem_putArms ha).resolve_left not_mem_nil), hsame, hbuilt,
      blends_putArms_id] at hkeys
    exact hkeys.2
  · rw [hbuilt]
    refine putArms_congr fun a ha b hb => (hkey a ha b hb).trans (or_iff_left ?_)
    have hfst : ∀ a ∈ canon, a.1 ∈ canon.map Prod.fst := fun a ha => mem_map_of_mem ha
    rintro (⟨hnil, hblank⟩ | ⟨hblank, hnil⟩)
    · exact hblend ⟨hnil ▸ hfst a ha, hblank ▸ hfst b hb⟩
    · exact hblend ⟨hnil ▸ hfst b hb, hblank ▸ hfst a ha⟩
  · rw [hbuilt, mkSwitch_self_iff fun a ha => hspans a ((mem_putArms ha).resolve_left not_mem_nil),
      blends_putArms_id]
    have hkeys : ((putArms id [] canon).map (id ·.1)).Nodup := nodup_putArms nodup_nil
    exact and_iff_right hkeys
  · rintro ⟨-, hblank⟩
    obtain ⟨a, ha, hpatterns⟩ := mem_map.mp hblank
    exact (hspans a ha "" (hpatterns ▸ mem_cons_self)).length.symm

/-- Two arms of one pattern, written with and without a blank, around an arm without patterns. -/
theorem mkSwitch_agrees_iff_respaced :
    let body := [Statement.assign (.signal ⟨0, 1⟩) (.const 1 (.unsigned 1))]
    mkSwitch .empty (.const 2 (.unsigned 2)) [(["1 -"], []), ([], []), (["1-"], body)] =
      .ok (.switch (.const 2 (.unsigned 2)) [(["1-"], body), ([], [])]) := by
  intro body
  have hone : armPatterns 2 ["1 -"] = .ok ["1-"] := by rfl
  have htwo : armPatterns 2 ["1-"] = .ok ["1-"] := by rfl
  have hcanon : List.Forall₂ (Normalizes (Value.width .empty (.const 2 (.unsigned 2))))
      [(["1 -"], []), ([], []), (["1-"], body)] [(["1-"], []), ([], []), (["1-"], body)] :=
    .cons ⟨hone, rfl⟩ (.cons ⟨rfl, rfl⟩ (.cons ⟨htwo, rfl⟩ .nil))
  obtain ⟨merged, hmerged, -, hiff, -⟩ := mkSwitch_agrees_iff hcanon
  rw [hmerged, hiff.mpr (by simp [Blends])]
  rfl

/-- Over a test without bits, an arm without patterns takes the place of an arm with the empty pattern. -/
theorem not_forall_mkSwitch_keeps : ¬ ∀ (σ : Arenas) (test : Value) (arms : List Arm),
    (∀ a ∈ arms, ∀ p ∈ a.1, Pattern.Spans (test.width σ) p) → (arms.map Prod.fst).Nodup →
      mkSwitch σ test arms = .ok (.switch test arms) := by
  intro h
  have hspans : Pattern.Spans (Value.width .empty (.const 0 (.unsigned 0))) "" := ⟨by simp, rfl⟩
  have hkept := h .empty (.const 0 (.unsigned 0)) [([""], []), ([], [])] (by simpa using hspans) (by decide)
  rw [mkSwitch_self_iff (by simpa using hspans)] at hkept
  exact hkept.2 (by simp [Blends])

end Statement
end Rtl
