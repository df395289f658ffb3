import Mathlib
import Rtl.Proofs.ControlFlow
import Rtl.Statement.Execution

/-!
# What lowered constructs do

Statements of a builder are looked at as they end up in a fragment, after the default domain has been filled in: a
list of statements performs a selection when, in every such form, it executes exactly the statements of the
selection, one for one. A switch that was made of an if chain performs its first branch that holds; one made of
arms, its first arm that covers the test.
-/
namespace Rtl

open List

variable {n : Nat}

namespace Control

theorem agrees_replicate (v : Int) (k : Nat) (cs : List Char) :
    Pattern.agrees v (List.replicate k '-' ++ cs) = Pattern.agrees v cs := by
  induction k with
  | zero => rfl
  | succ k ih =>
    rw [replicate_succ, cons_append, Pattern.agrees, ih]
    rfl

theorem branchPattern_toList (n i : Nat) : (branchPattern n i).toList =
    if i < n then List.replicate (n - i - 1) '-' ++ '1' :: List.replicate i '-' else List.replicate n '-' := by
  unfold branchPattern
  split <;> rw [String.toList_ofList]

theorem branchPattern_length (n i : Nat) : (branchPattern n i).toList.length = n := by
  rw [branchPattern_toList]
  split
  · rw [length_append, length_cons, length_replicate, length_replicate]
    omega
  · rw [length_replicate]

theorem branchPattern_chars (n i : Nat) : ∀ c ∈ (branchPattern n i).toList, Pattern.isPatternChar c = true := by
  have hdash : ∀ k, ∀ c ∈ List.replicate k '-', Pattern.isPatternChar c = true := by
    intro k c hc
    rw [eq_of_mem_replicate hc]
    rfl
  rw [branchPattern_toList]
  split
  · intro c hc
    rcases mem_append.mp hc with hc | hc
    · exact hdash _ c hc
    · rcases mem_cons.mp hc with rfl | hc
      · rfl
      · exact hdash _ c hc
  · exact hdash n

theorem canonical_branchPattern (hn : 0 < n) (i : Nat) : Pattern.Canonical (branchPattern n i) := by
  refine ⟨fun hempty => ?_, branchPattern_chars n i⟩
  have hlen := branchPattern_length n i
  rw [hempty, String.toList_empty, length_nil] at hlen
  omega

theorem branchPattern_size (n i : Nat) : (branchPattern n i).utf8ByteSize = n := by
  rw [Pattern.utf8ByteSize_eq_byteLength, Pattern.byteLength_eq_length (branchPattern_chars n i), branchPattern_length]

/-- Branch `i` asks for bit `i`; a branch beyond the conditions asks for nothing. -/
theorem isMatch_branchPattern (n i : Nat) (v : Int) :
    Pattern.isMatch (branchPattern n i) v = (decide (n ≤ i) || v / 2 ^ i % 2 == 1) := by
  have hdashes : ∀ k, Pattern.agrees v (List.replicate k '-') = true := by
    intro k
    have h := agrees_replicate v k []
    rwa [append_nil] at h
  rw [Pattern.isMatch_eq_agrees (branchPattern_chars n i), branchPattern_toList]
  split
  · rw [agrees_replicate, Pattern.agrees, hdashes, length_replicate, decide_eq_false (by omega), Bool.and_true]
    simp
  · rw [hdashes, decide_eq_true (by omega), Bool.true_or]

/-- Branches of a chain have different patterns, for they match different numbers. -/
theorem branchPattern_injective {i j : Nat} (hi : i ≤ n) (hj : j ≤ n) (h : branchPattern n i = branchPattern n j) :
    i = j := by
  have hmatch : ∀ v : Int, (decide (n ≤ i) || v / 2 ^ i % 2 == 1) = (decide (n ≤ j) || v / 2 ^ j % 2 == 1) := by
    intro v
    rw [← isMatch_branchPattern, ← isMatch_branchPattern, h]
  have hlast := hmatch 0
  simp only [Int.zero_ediv, Int.zero_emod] at hlast
  have hbit := hmatch ((2 ^ i : Nat) : Int)
  have hpow : (((2 ^ i : Nat) : Int) / 2 ^ j % 2 == 1) = decide (i = j) := by
    have hcast : ((2 ^ i : Nat) : Int) / 2 ^ j % 2 = ((2 ^ i / 2 ^ j % 2 : Nat) : Int) := by push_cast; rfl
    rw [hcast, ← Nat.testBit_two_pow, Nat.testBit_eq_decide_div_mod_eq, Bool.eq_iff_iff, beq_iff_eq,
      decide_eq_true_iff]
    exact Nat.cast_eq_one
  by_cases hin : n ≤ i
  · have : n ≤ j := by simpa [hin] using hlast
    omega
  · have hjn : ¬ n ≤ j := by simpa [hin] using hlast
    rw [hpow, decide_eq_false hin, decide_eq_false hjn, Bool.false_or, Bool.false_or] at hbit
    refine of_decide_eq_true (hbit.symm.trans ?_)
    rw [beq_iff_eq]
    push_cast
    rw [Int.ediv_self (by positivity)]
    rfl

end Control

namespace Statement

variable {σ : Arenas} {ys : List Statement} {x : Statement}
variable {domain : String}

theorem runAll_append (tests : Value → Int) (xs ys : List Statement) :
    runAll tests (xs ++ ys) = runAll tests xs ++ runAll tests ys := by
  induction xs with
  | nil => rfl
  | cons x xs ih => rw [cons_append, runAll, runAll, ih, append_assoc]

theorem fillSampleDomain_singleton (h : fillSampleDomain σ domain [x] = .ok ys) :
    x.traverse (sampleFiller σ domain) = .ok ys := by
  rw [fillSampleDomain, traverseAll] at h
  obtain ⟨here, hhere, h⟩ := except_bind_eq_ok.mp h
  obtain ⟨others, hothers, h⟩ := except_bind_eq_ok.mp h
  obtain rfl := except_pure_eq_ok.mp hothers
  obtain rfl := except_pure_eq_ok.mp h
  rw [append_nil]
  exact hhere

/-- Assignments and properties. -/
def isAction : Statement → Bool
  | .switch _ _ => false
  | _ => true

/-- Filling in domains turns an assignment or property into one. -/
theorem traverse_isAction (hx : x.isAction = true) (h : x.traverse (sampleFiller σ domain) = .ok ys) :
    ∃ y, ys = [y] ∧ y.isAction = true := by
  cases x with
  | assign =>
    obtain ⟨lhs', s1, rhs', -, -, rfl⟩ := gives_assign gives_none (gives_of_ok h)
    exact ⟨_, rfl, rfl⟩
  | switch => cases hx
  | property =>
    obtain ⟨test', -, rfl⟩ := gives_property gives_none (gives_of_ok h)
    exact ⟨_, rfl, rfl⟩

theorem run_of_isAction (hx : x.isAction = true) (tests : Value → Int) : run tests x = [x] := by
  cases x with
  | switch => cases hx
  | assign => rw [run]
  | property => rw [run]

end Statement

namespace Builder

variable {σ : Arenas} {ρ : Valuation σ}
variable {fs : List Selection} {x : Statement} {v : Int} {ess : List (List Selection)} {ps : List Operand} {a : Arm}
variable {width : Int} {taken : Bool} {test : Value} {tests ts : List Value} {es sel : List Selection}
variable {body : List Statement} {bodies : List (List Statement)} {arms : List Arm}

/-- However the default domain is filled in, the statements execute to what was selected. -/
def Performs (ρ : Valuation σ) (xs : List Statement) (es : List Selection) : Prop :=
  ∀ ys, Statement.fillSampleDomain σ syncDomain xs = .ok ys →
    List.Forall₂ (Delivered σ) es (Statement.runAll ρ.value ys)

theorem performs_nil : Performs ρ [] [] := by
  intro ys h
  obtain rfl := except_pure_eq_ok.mp h
  exact .nil

theorem Performs.append {xs ys : List Statement} (hx : Performs ρ xs es) (hy : Performs ρ ys fs) :
    Performs ρ (xs ++ ys) (es ++ fs) := by
  intro zs h
  obtain ⟨xs', ys', hxs, hys, rfl⟩ := Statement.traverseAll_append h
  rw [Statement.runAll_append]
  exact rel_append (hx xs' hxs) (hy ys' hys)

/-- An added statement performs itself. -/
theorem performs_placed {domain : String} {filled : List Statement} (hx : x.isAction = true)
    (h : placed σ domain x = .ok filled) : Performs ρ filled [(domain, x)] := by
  have hfilled : ∃ x', filled = [x'] ∧ x'.isAction = true := by
    unfold placed at h
    split at h
    · exact ⟨x, (Except.ok.inj h).symm, hx⟩
    · exact Statement.traverse_isAction hx (Statement.fillSampleDomain_singleton h)
  obtain ⟨x', rfl, hx'⟩ := hfilled
  intro ys hys
  obtain ⟨y, rfl, hy⟩ := Statement.traverse_isAction hx' (Statement.fillSampleDomain_singleton hys)
  have hrun : Statement.runAll ρ.value [y] = [y] := by
    rw [Statement.runAll, Statement.runAll, Statement.run_of_isAction hy, append_nil]
  rw [hrun]
  refine .cons ?_ .nil
  exact except_bind_eq_ok.mpr ⟨[x'], h, hys⟩

/-- Arms of which, for a test value `v`, the first that is taken performs the selection. -/
def Picks (ρ : Valuation σ) (v : Int) : List Arm → List Selection → Prop
  | [], es => es = []
  | (patterns, body) :: rest, es => if Statement.armTaken v patterns then Performs ρ body es else Picks ρ v rest es

theorem Picks.run {arms arms' : List Arm} (h : Picks ρ v arms es)
    (harms : Statement.traverseArms (Statement.sampleFiller σ syncDomain) arms = .ok arms') :
    List.Forall₂ (Delivered σ) es (Statement.runArms ρ.value v arms') := by
  induction arms generalizing arms' with
  | nil =>
    obtain rfl := except_pure_eq_ok.mp harms
    rw [Statement.runArms, (h : es = [])]
    exact .nil
  | cons a arms ih =>
    obtain ⟨patterns, body⟩ := a
    rw [Statement.traverseArms] at harms
    obtain ⟨body', hbody, harms⟩ := except_bind_eq_ok.mp harms
    obtain ⟨rest, hrest, rfl⟩ := except_bind_pure_eq_ok.mp harms
    rw [Picks] at h
    rw [Statement.runArms]
    split
    · rename_i htaken
      rw [if_pos htaken] at h
      exact h body' hbody
    · rename_i htaken
      rw [if_neg htaken] at h
      exact ih h hrest

/-- A switch performs what its arms pick for the value of its test. -/
theorem performs_switch (htest : test.Settled σ) (h : Picks ρ (ρ.value test) arms es) :
    Performs ρ [.switch test arms] es := by
  intro ys hys
  have hswitch := Statement.fillSampleDomain_singleton hys
  rw [Statement.traverse] at hswitch
  obtain ⟨o, ho, hswitch⟩ := except_bind_eq_ok.mp hswitch
  obtain rfl := except_pure_eq_ok.mp ho
  obtain ⟨test', htest', hswitch⟩ := except_bind_eq_ok.mp hswitch
  obtain ⟨arms', harms', rfl⟩ := except_bind_pure_eq_ok.mp hswitch
  rw [Statement.runAll, Statement.runAll, Statement.run, append_nil, ρ.value_traversed htest htest']
  exact h.run harms'

/-- What a chain selects: its first branch that holds. A branch beyond the conditions holds by itself. -/
def firstHeld (ρ : Valuation σ) : List Value → List (List Selection) → List Selection
  | t :: ts, es :: rest => if ρ.value t ≠ 0 then es else firstHeld ρ ts rest
  | [], es :: _ => es
  | _, [] => []

/-- Further branches of a chain count when none of the earlier ones holds. -/
theorem firstHeld_append {us : List Value} {fss : List (List Selection)} (h : ts.length = ess.length) :
    firstHeld ρ (ts ++ us) (ess ++ fss) =
      firstHeld ρ ts ess ++ if ts.any (fun t => ρ.value t ≠ 0) then [] else firstHeld ρ us fss := by
  induction ts generalizing ess with
  | nil =>
    obtain rfl := eq_nil_of_length_eq_zero h.symm
    rfl
  | cons t ts ih =>
    cases ess with
    | nil => cases h
    | cons =>
      rw [cons_append, cons_append, firstHeld, firstHeld, any_cons]
      by_cases ht : ρ.value t ≠ 0
      · rw [if_pos ht, if_pos ht, decide_eq_true ht, Bool.true_or, if_pos rfl, append_nil]
      · rw [if_neg ht, if_neg ht, decide_eq_false ht, Bool.false_or]
        exact ih (Nat.succ.inj h)

/-- The arms of a chain pick the branch that the chain selects. -/
theorem picks_branches {k : Nat} (hbodies : List.Forall₂ (Performs ρ) bodies ess) (hn : n = k + ts.length)
    (hbits : ∀ i (hi : i < ts.length), v / 2 ^ (k + i) % 2 = 1 ↔ ρ.value ts[i] ≠ 0) :
    Picks ρ v ((bodies.zipIdx k).map fun (body, i) => ([Control.branchPattern n i], body)) (firstHeld ρ ts ess) := by
  induction hbodies generalizing k ts with
  | nil => cases ts <;> rfl
  | @cons body es bodies ess hbody hrest ih =>
    have htaken : Statement.armTaken v [Control.branchPattern n k] = (decide (n ≤ k) || v / 2 ^ k % 2 == 1) := by
      rw [← Control.isMatch_branchPattern]
      simp [Statement.armTaken]
    rw [zipIdx_cons, map_cons, Picks, htaken]
    cases ts with
    | nil =>
      rw [if_pos (by simp [hn])]
      exact hbody
    | cons t =>
      rw [length_cons] at hn
      have hbit := hbits 0 (Nat.succ_pos _)
      rw [Nat.add_zero, getElem_cons_zero] at hbit
      rw [firstHeld, decide_eq_false (by omega), Bool.false_or]
      by_cases ht : ρ.value t ≠ 0
      · rw [if_pos (beq_iff_eq.mpr (hbit.mpr ht)), if_pos ht]
        exact hbody
      · rw [if_neg (fun h => ht (hbit.mp (beq_iff_eq.mp h))), if_neg ht]
        refine ih (by omega) fun i hi => ?_
        have hnext := hbits (i + 1) (Nat.succ_lt_succ hi)
        rwa [← Nat.add_assoc, Nat.add_right_comm, getElem_cons_succ] at hnext

/-- A lowered chain performs its first branch that holds. -/
theorem performs_chain (htests : ∀ t ∈ tests, t.Settled σ) (hne : tests ≠ [])
    (hbodies : List.Forall₂ (Performs ρ) bodies ess) (hlen : bodies.length ≤ tests.length + 1)
    (h : Control.lowerChain σ tests bodies = .ok x) : Performs ρ [x] (firstHeld ρ tests ess) := by
  have hpos : 0 < tests.length := length_pos_iff.mpr hne
  have hcanonical : ∀ a ∈ bodies.zipIdx.map (fun (body, i) => ([Control.branchPattern tests.length i], body)),
      ∀ p ∈ a.1, Pattern.Canonical p := by
    intro a ha p hp
    obtain ⟨⟨body, i⟩, -, rfl⟩ := mem_map.mp ha
    rw [mem_singleton.mp hp]
    exact Control.canonical_branchPattern hpos i
  have hnodup : ((bodies.zipIdx.map (fun (body, i) => ([Control.branchPattern tests.length i], body))).map
      Prod.fst).Nodup := by
    have hindices : (bodies.zipIdx.map (fun (body, i) => ([Control.branchPattern tests.length i], body))).map Prod.fst =
        (List.range' 0 bodies.length).map fun i => [Control.branchPattern tests.length i] := by
      rw [map_map, ← zipIdx_map_snd 0 bodies, map_map]
      rfl
    rw [hindices]
    refine List.Nodup.map_on ?_ nodup_range'
    intro i hi j hj heq
    rw [mem_range'_1] at hi hj
    exact Control.branchPattern_injective (by omega) (by omega) (singleton_inj.mp heq)
  have hswitch := Statement.mkSwitch_eq hcanonical hnodup h
  subst hswitch
  refine performs_switch (Value.settled_iff.mpr ⟨fun _ => trivial, forall_mem_map.mpr fun t ht => ?_⟩) ?_
  · exact Valuation.settled_asBit (htests t ht)
  · cases bodies with
    | nil =>
      cases hbodies
      cases tests <;> rfl
    | cons body bodies =>
      have hmem : ([Control.branchPattern tests.length 0], body) ∈ (body :: bodies).zipIdx.map
          (fun (body, i) => ([Control.branchPattern tests.length i], body)) := by
        rw [zipIdx_cons, map_cons]
        exact mem_cons_self
      have hwidth := Statement.mkSwitch_width h hmem (hcanonical _ hmem) _ mem_cons_self
      rw [Control.branchPattern_size] at hwidth
      refine picks_branches hbodies (Nat.zero_add _).symm fun i hi => ?_
      rw [Nat.zero_add]
      exact ρ.packedTests_bit hwidth.symm hi

/-- Branches of an if chain, each with its condition: whether one of them is taken, and what they select. -/
structure Branches (ρ : Valuation σ) (tests : List Value) (bodies : List (List Statement)) (taken : Bool)
    (es : List Selection) : Prop where
  settled : ∀ t ∈ tests, t.Settled σ
  length : tests.length = bodies.length
  taken : taken = tests.any fun t => ρ.value t ≠ 0
  selects : ∃ ess, List.Forall₂ (Performs ρ) bodies ess ∧ es = firstHeld ρ tests ess

theorem branches_nil : Branches ρ [] [] false [] := ⟨fun _ ht => absurd ht not_mem_nil, rfl, rfl, [], .nil, rfl⟩

theorem Branches.concat (h : Branches ρ tests bodies taken es) {v : Value} (hv : v.Settled σ)
    (hbody : Performs ρ body fs) :
    Branches ρ (tests ++ [v]) (bodies ++ [body]) (taken || ρ.value v ≠ 0)
      (es ++ if !taken && ρ.value v ≠ 0 then fs else []) := by
  obtain ⟨ess, hess, rfl⟩ := h.selects
  refine ⟨?_, ?_, ?_, ess ++ [fs], rel_append hess (.cons hbody .nil), ?_⟩
  · intro t ht
    rcases mem_append.mp ht with ht | ht
    · exact h.settled t ht
    · rw [mem_singleton.mp ht]
      exact hv
  · rw [length_append, length_append, h.length]
    rfl
  · rw [h.taken, any_append]
    simp
  · rw [firstHeld_append (h.length.trans hess.length_eq), ← h.taken, firstHeld, firstHeld]
    cases taken <;> simp

theorem Branches.lower (h : Branches ρ tests bodies taken es) (hne : tests ≠ [])
    (hx : Control.lowerChain σ tests bodies = .ok x) : Performs ρ [x] es := by
  obtain ⟨ess, hess, rfl⟩ := h.selects
  have hlen := h.length
  exact performs_chain h.settled hne hess (by omega) hx

/-- The last branch of a chain is performed when no other is taken. -/
theorem Branches.lowerOtherwise (h : Branches ρ tests bodies taken es) (hne : tests ≠ []) (hbody : Performs ρ body fs)
    (hx : Control.lowerChain σ tests (bodies ++ [body]) = .ok x) : Performs ρ [x] (es ++ if taken then [] else fs) := by
  obtain ⟨ess, hess, rfl⟩ := h.selects
  have hlen := h.length
  have hchain := performs_chain h.settled hne (rel_append hess (.cons hbody .nil))
    (by rw [length_append, length_singleton]; omega) hx
  have hselects : firstHeld ρ (tests ++ []) (ess ++ [fs]) = _ := firstHeld_append (h.length.trans hess.length_eq)
  rw [append_nil, ← h.taken] at hselects
  rwa [hselects] at hchain

/-- An arm of a switch that stands for a written one. -/
structure ArmFor (ρ : Valuation σ) (width : Int) (a : Arm) (e : List Operand × List Selection) : Prop where
  kept : a.1 = keptPatterns width e.1
  fits : ∀ p ∈ e.1, ∃ o, Pattern.normalize p width = .ok o
  proper : e.1 ≠ [] → a.1 ≠ []
  body : Performs ρ a.2 e.2

theorem keptPatterns_cons {p : Operand} {o : Option String} (h : Pattern.normalize p width = .ok o) :
    keptPatterns width (p :: ps) = o.toList ++ keptPatterns width ps := by
  have hjoin : (Pattern.normalize p width).toOption.join = o := by rw [h]; rfl
  unfold keptPatterns
  rw [filterMap_cons, hjoin]
  cases o <;> rfl

theorem canonical_keptPatterns (hwidth : 1 ≤ width) (hps : ∀ p ∈ ps, ∃ o, Pattern.normalize p width = .ok o) :
    ∀ t ∈ keptPatterns width ps, Pattern.Canonical t := by
  intro t ht
  obtain ⟨p, hp, hjoin⟩ := mem_filterMap.mp ht
  obtain ⟨o, ho⟩ := hps p hp
  rw [ho] at hjoin
  exact ((Pattern.normalize_spec (by omega) ho 0).1 t hjoin).1.canonical hwidth

/-- The patterns that are kept match what was written. -/
theorem any_keptPatterns (hwidth : 1 ≤ width) (v : Int) (hps : ∀ p ∈ ps, ∃ o, Pattern.normalize p width = .ok o) :
    (keptPatterns width ps).any (fun t => Pattern.isMatch t v) = ps.any (Pattern.covers width v) := by
  induction ps with
  | nil => rfl
  | cons p ps ih =>
    obtain ⟨⟨o, ho⟩, hrest⟩ := forall_mem_cons.mp hps
    obtain ⟨hsome, hnone⟩ := Pattern.normalize_spec (by omega) ho v
    rw [keptPatterns_cons ho, any_append, ih hrest, any_cons]
    cases o with
    | none => rw [hnone rfl]; rfl
    | some t => rw [← (hsome t rfl).2]; simp

theorem ArmFor.armTaken_eq (hwidth : 1 ≤ width) {e : List Operand × List Selection} (h : ArmFor ρ width a e) (v : Int) :
    Statement.armTaken v a.1 = (e.1.isEmpty || e.1.any (Pattern.covers width v)) := by
  have hempty : a.1.isEmpty = e.1.isEmpty := by
    rw [Bool.eq_iff_iff, List.isEmpty_iff, List.isEmpty_iff]
    constructor
    · exact fun ha => by_contra fun he => h.proper he ha
    · intro he
      rw [h.kept, he]
      rfl
  rw [Statement.armTaken, hempty, ← any_keptPatterns hwidth v h.fits, ← h.kept]

/-- The arms of a switch pick what its first covering arm selects. -/
theorem picks_arms (hwidth : 1 ≤ width) {es : List (List Operand × List Selection)}
    (h : List.Forall₂ (ArmFor ρ width) arms es) : Picks ρ v arms (firstCovered width v es) := by
  induction h with
  | nil => rfl
  | @cons a e arms es ha hrest ih =>
    obtain ⟨patterns, body⟩ := a
    obtain ⟨ps, sel⟩ := e
    have htaken := ha.armTaken_eq hwidth v
    rw [Picks, firstCovered, htaken]
    split
    · exact ha.body
    · exact ih

theorem setArm_for {es : List (List Operand × List Selection)}
    (h : List.Forall₂ (ArmFor ρ width) arms es) (ha : ArmFor ρ width a (ps, sel)) :
    List.Forall₂ (ArmFor ρ width) (setArm a arms) (placeArm width ps sel es) := by
  induction h with
  | nil => exact .cons ha .nil
  | @cons b e arms es hb hrest ih =>
    obtain ⟨qs, old⟩ := e
    rw [setArm, placeArm]
    have hsame : b.1 = a.1 ↔ keptPatterns width qs = keptPatterns width ps := by
      rw [hb.kept, ha.kept]
    by_cases hba : b.1 = a.1
    · rw [if_pos hba, if_pos (hsame.mp hba)]
      exact .cons ⟨hba.symm.trans hb.kept, hb.fits, fun hqs => hba ▸ hb.proper hqs, ha.body⟩ hrest
    · rw [if_neg hba, if_neg (fun hkept => hba (hsame.mpr hkept))]
      exact .cons hb ih

/-- The arms of a switch under construction, beside the written ones. -/
structure Arms (ρ : Valuation σ) (width : Int) (arms : List Arm) (es : List (List Operand × List Selection)) :
    Prop where
  forms : List.Forall₂ (ArmFor ρ width) arms es
  nodup : (arms.map Prod.fst).Nodup

theorem Arms.set {es : List (List Operand × List Selection)} (h : Arms ρ width arms es)
    (ha : ArmFor ρ width a (ps, sel)) : Arms ρ width (setArm a arms) (placeArm width ps sel es) := by
  refine ⟨setArm_for h.forms ha, ?_⟩
  rw [Statement.builder_setArm_eq_putArm]
  have hkeys : (arms.map (id ·.1)).Nodup := h.nodup
  exact Statement.nodup_putArm hkeys

/-- A lowered switch performs its first arm that covers the test. -/
theorem Arms.lower {es : List (List Operand × List Selection)}
    (htest : test.Settled σ) (hwidth : 1 ≤ test.width σ) (h : Arms ρ (test.width σ) arms es)
    (hx : Statement.mkSwitch σ test arms = .ok x) : Performs ρ [x] (firstCovered (test.width σ) (ρ.value test) es) := by
  have hcanonical : ∀ a ∈ arms, ∀ p ∈ a.1, Pattern.Canonical p := by
    intro a ha
    obtain ⟨e, -, hfor⟩ := forall₂_mem_left h.forms ha
    rw [hfor.kept]
    exact canonical_keptPatterns hwidth hfor.fits
  obtain rfl := Statement.mkSwitch_eq hcanonical h.nodup hx
  exact performs_switch htest (picks_arms hwidth h.forms)

end Builder
end Rtl
