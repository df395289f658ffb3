import Mathlib
import Rtl.Proofs.HeldActions
import Rtl.Statement.Clean

/-!
# What cleaning does to a run

Cleaning drops the arms that hold no assignment and no property. Such an arm does nothing when it is taken, but it also
keeps the arms after it from being taken. So a cleaned list runs everything that the list runs, in the same order, and
runs more exactly where an arm that does nothing stood in front of one that does something.
-/
namespace Rtl.Statement

open List

mutual

/-- A run in which arms that hold no assignment and no property are passed over. -/
def runBusy (tests : Value → Int) : Statement → List Statement
  | .switch test arms => runBusyArms tests (tests test) arms
  | .assign lhs rhs => [.assign lhs rhs]
  | .property kind test check enable => [.property kind test check enable]

def runBusyAll (tests : Value → Int) : List Statement → List Statement
  | [] => []
  | x :: rest => runBusy tests x ++ runBusyAll tests rest

def runBusyArms (tests : Value → Int) (v : Int) : List (List String × List Statement) → List Statement
  | [] => []
  | (patterns, body) :: rest =>
    if armTaken v patterns ∧ bodyActions body ≠ [] then runBusyAll tests body else runBusyArms tests v rest

end

mutual

/-- A switch that is reached takes an arm that holds nothing, and passing it over would run something. -/
def Shields (tests : Value → Int) : Statement → Prop
  | .switch test arms => ArmsShield tests (tests test) arms
  | .assign _ _ => False
  | .property _ _ _ _ => False

def BodyShields (tests : Value → Int) : List Statement → Prop
  | [] => False
  | x :: rest => Shields tests x ∨ BodyShields tests rest

def ArmsShield (tests : Value → Int) (v : Int) : List (List String × List Statement) → Prop
  | [] => False
  | (patterns, body) :: rest =>
    if armTaken v patterns then
      if bodyActions body = [] then runBusyArms tests v rest ≠ [] else BodyShields tests body
    else ArmsShield tests v rest

end

section Blank

variable {xs : List Statement} {arms : List Arm}
variable {patterns : List String} {body : List Statement}

theorem cleanAll_eq_nil_of (h : ∀ x ∈ xs, (clean x = [] ↔ x.actions = [])) :
    cleanAll xs = [] ↔ bodyActions xs = [] := by
  induction xs with
  | nil => exact iff_of_true rfl rfl
  | cons x xs ih =>
    obtain ⟨hx, hxs⟩ := forall_mem_cons.mp h
    rw [cleanAll, bodyActions, append_eq_nil_iff, append_eq_nil_iff, hx, ih hxs]

theorem cleanArms_eq_nil_of (h : ∀ a ∈ arms, (cleanAll a.2 = [] ↔ bodyActions a.2 = [])) :
    cleanArms arms = [] ↔ armsActions arms = [] := by
  induction arms with
  | nil => exact iff_of_true rfl rfl
  | cons a arms ih =>
    obtain ⟨patterns, body⟩ := a
    obtain ⟨hbody, harms⟩ := forall_mem_cons.mp h
    rw [cleanArms, armsActions, append_eq_nil_iff, ← hbody, ← ih harms]
    cases cleanAll body with
    | nil => simp
    | cons => simp

/-- Cleaning leaves nothing exactly of what holds no assignment and no property. -/
theorem clean_eq_nil_iff {x : Statement} : clean x = [] ↔ x.actions = [] := by
  induction x with
  | assign => simp [clean, actions]
  | property => simp [clean, actions]
  | switch test arms ih =>
    rw [clean, actions, ← cleanArms_eq_nil_of fun a ha => cleanAll_eq_nil_of (ih a ha)]
    cases cleanArms arms with
    | nil => simp
    | cons => simp

theorem cleanAll_eq_nil_iff : cleanAll xs = [] ↔ bodyActions xs = [] := cleanAll_eq_nil_of fun _ _ => clean_eq_nil_iff

theorem cleanArms_cons_of_blank (h : bodyActions body = []) :
    cleanArms ((patterns, body) :: arms) = cleanArms arms := by
  rw [cleanArms, cleanAll_eq_nil_iff.mpr h]

theorem cleanArms_cons_of_busy (h : bodyActions body ≠ []) :
    cleanArms ((patterns, body) :: arms) = (patterns, cleanAll body) :: cleanArms arms := by
  rw [cleanArms]
  cases hbody : cleanAll body with
  | nil => exact absurd (cleanAll_eq_nil_iff.mp hbody) h
  | cons => rfl

end Blank

section Runs

variable {tests : Value → Int}
variable {xs : List Statement} {v : Int} {arms : List Arm}

theorem runAll_cleanAll_of (h : ∀ x ∈ xs, runAll tests (clean x) = runBusy tests x) :
    runAll tests (cleanAll xs) = runBusyAll tests xs := by
  induction xs with
  | nil => rfl
  | cons x xs ih =>
    obtain ⟨hx, hxs⟩ := forall_mem_cons.mp h
    rw [cleanAll, runBusyAll, runAll_append, hx, ih hxs]

theorem runArms_cleanArms_of (h : ∀ a ∈ arms, runAll tests (cleanAll a.2) = runBusyAll tests a.2) :
    runArms tests v (cleanArms arms) = runBusyArms tests v arms := by
  induction arms with
  | nil => rfl
  | cons a arms ih =>
    obtain ⟨patterns, body⟩ := a
    obtain ⟨hbody, harms⟩ := forall_mem_cons.mp h
    rw [runBusyArms, ← ih harms]
    by_cases hblank : bodyActions body = []
    · rw [cleanArms_cons_of_blank hblank, if_neg fun htaken => htaken.2 hblank]
    · rw [cleanArms_cons_of_busy hblank, runArms, hbody]
      by_cases htaken : armTaken v patterns = true
      · rw [if_pos htaken, if_pos ⟨htaken, hblank⟩]
      · rw [if_neg htaken, if_neg fun h => htaken h.1]

/-- A cleaned statement runs what the statement runs when its empty arms are passed over. -/
theorem runAll_clean (x : Statement) : runAll tests (clean x) = runBusy tests x := by
  induction x with
  | assign => rfl
  | property => rfl
  | switch test arms ih =>
    rw [runBusy, ← runArms_cleanArms_of fun a ha => runAll_cleanAll_of (ih a ha), clean]
    cases cleanArms arms with
    | nil => rfl
    | cons => rw [runAll, run, runAll, append_nil]

theorem runAll_cleanAll (xs : List Statement) : runAll tests (cleanAll xs) = runBusyAll tests xs :=
  runAll_cleanAll_of fun x _ => runAll_clean x

theorem runAll_sublist_of (h : ∀ x ∈ xs, (run tests x).Sublist x.actions) :
    (runAll tests xs).Sublist (bodyActions xs) := by
  induction xs with
  | nil => exact List.Sublist.refl []
  | cons x xs ih =>
    obtain ⟨hx, hxs⟩ := forall_mem_cons.mp h
    exact hx.append (ih hxs)

theorem runArms_sublist_of (h : ∀ a ∈ arms, (runAll tests a.2).Sublist (bodyActions a.2)) :
    (runArms tests v arms).Sublist (armsActions arms) := by
  induction arms with
  | nil => exact List.Sublist.refl []
  | cons a arms ih =>
    obtain ⟨patterns, body⟩ := a
    obtain ⟨hbody, harms⟩ := forall_mem_cons.mp h
    rw [runArms, armsActions]
    by_cases htaken : armTaken v patterns = true
    · rw [if_pos htaken]
      exact hbody.trans (sublist_append_left _ _)
    · rw [if_neg htaken]
      exact (ih harms).trans (sublist_append_right _ _)

/-- A run takes some of the assignments and properties that are there, in their order. -/
theorem run_sublist_actions (x : Statement) : (run tests x).Sublist x.actions := by
  induction x with
  | assign => exact List.Sublist.refl _
  | property => exact List.Sublist.refl _
  | switch test arms ih => exact runArms_sublist_of fun a ha => runAll_sublist_of (ih a ha)

theorem runAll_of_blank (h : bodyActions xs = []) : runAll tests xs = [] := by
  have hsub : (runAll tests xs).Sublist (bodyActions xs) := runAll_sublist_of fun x _ => run_sublist_actions x
  rw [h] at hsub
  exact sublist_nil.mp hsub

/-- A run `ys` goes through all of `xs`, in order, and adds nothing unless `extra`. -/
structure Covers (extra : Prop) (xs ys : List Statement) : Prop where
  sublist : xs.Sublist ys
  eq_iff : ys = xs ↔ ¬ extra

theorem Covers.same (xs : List Statement) : Covers False xs xs := ⟨List.Sublist.refl xs, iff_of_true rfl not_false⟩

theorem Covers.append {p q : Prop} {ys xs' ys' : List Statement} (h : Covers p xs ys) (h' : Covers q xs' ys') :
    Covers (p ∨ q) (xs ++ xs') (ys ++ ys') := by
  refine ⟨h.sublist.append h'.sublist, ?_⟩
  rw [not_or, ← h.eq_iff, ← h'.eq_iff]
  constructor
  · intro heq
    -- Neither part can be longer than what it covers, so both are as long.
    have hlen : ys.length = xs.length := by
      have htotal := congrArg List.length heq
      have hle := h.sublist.length_le
      have hle' := h'.sublist.length_le
      rw [length_append, length_append] at htotal
      omega
    exact append_inj heq hlen
  · rintro ⟨rfl, rfl⟩
    rfl

theorem bodyCovers_of (h : ∀ x ∈ xs, Covers (Shields tests x) (run tests x) (runBusy tests x)) :
    Covers (BodyShields tests xs) (runAll tests xs) (runBusyAll tests xs) := by
  induction xs with
  | nil => exact Covers.same []
  | cons x xs ih =>
    obtain ⟨hx, hxs⟩ := forall_mem_cons.mp h
    exact hx.append (ih hxs)

theorem armsCover_of (h : ∀ a ∈ arms, Covers (BodyShields tests a.2) (runAll tests a.2) (runBusyAll tests a.2)) :
    Covers (ArmsShield tests v arms) (runArms tests v arms) (runBusyArms tests v arms) := by
  induction arms with
  | nil => exact Covers.same []
  | cons a arms ih =>
    obtain ⟨patterns, body⟩ := a
    obtain ⟨hbody, harms⟩ := forall_mem_cons.mp h
    rw [ArmsShield, runArms, runBusyArms]
    by_cases htaken : armTaken v patterns = true
    · rw [if_pos htaken, if_pos htaken]
      by_cases hblank : bodyActions body = []
      · -- The arm that is taken does nothing; whatever comes after it is extra.
        rw [if_pos hblank, if_neg fun h => h.2 hblank, runAll_of_blank hblank]
        exact ⟨nil_sublist _, not_not.symm⟩
      · rw [if_neg hblank, if_pos ⟨htaken, hblank⟩]
        exact hbody
    · rw [if_neg htaken, if_neg htaken, if_neg fun h => htaken h.1]
      exact ih harms

theorem run_covers (x : Statement) : Covers (Shields tests x) (run tests x) (runBusy tests x) := by
  induction x with
  | assign => exact Covers.same _
  | property => exact Covers.same _
  | switch test arms ih => exact armsCover_of fun a ha => bodyCovers_of (ih a ha)

end Runs

/-- A cleaned list runs all that the list runs, in the same order. It runs the same and nothing else exactly when no arm
that holds nothing is taken in front of an arm that would do something. -/
theorem cleanAll_runs (tests : Value → Int) (xs : List Statement) :
    (runAll tests xs).Sublist (runAll tests (cleanAll xs)) ∧
      (runAll tests (cleanAll xs) = runAll tests xs ↔ ¬ BodyShields tests xs) := by
  rw [runAll_cleanAll]
  have hcovers : Covers (BodyShields tests xs) (runAll tests xs) (runBusyAll tests xs) :=
    bodyCovers_of fun x _ => run_covers x
  exact ⟨hcovers.sublist, hcovers.eq_iff⟩

/-- A switch with an empty arm for `1` in front of a default does nothing at `1`; cleaned, it runs the default. -/
theorem not_forall_runAll_cleanAll :
    ¬ ∀ (tests : Value → Int) (xs : List Statement), runAll tests (cleanAll xs) = runAll tests xs := by
  intro h
  have hrun := h (fun _ => 1)
    [.switch (.signal ⟨0, 0⟩) [(["1"], []), ([], [.assign (.signal ⟨0, 1⟩) (.const 1 ⟨1, false⟩)])]]
  exact absurd (congrArg List.length hrun) (by decide)

end Rtl.Statement
