import Rtl.Statement.Basic

/-!
Grouping the nets that are written together. Every net points to a net of its group, at last to the root of the group,
which points to itself. Looking a net up follows its pointers and then lets it, and all nets on the way, point to the
root at once. No pointers run in a circle, which is what makes the lookup end; so a net may only be pointed to a root
or to itself.
-/
namespace Rtl.Statement

/-- The net that `n` points to is `p`, another net than `n`. -/
def Above (parents : NetTable Net) (p n : Net) : Prop := parents.get? n = some p ∧ p.key ≠ n.key

/-- The net points to itself. -/
def IsRoot (parents : NetTable Net) (n : Net) : Prop := ∃ p, parents.get? n = some p ∧ p.key = n.key

/-- Where every net points to. -/
structure Grouping where
  parents : NetTable Net
  acyclic : WellFounded (Above parents)

namespace Grouping

variable {parents : NetTable Net} {n m root : Net}

theorem not_above_of_isRoot (h : IsRoot parents n) (p : Net) : ¬ Above parents p n := by
  intro hp
  obtain ⟨q, hq, hkey⟩ := h
  rw [hp.1] at hq
  cases hq
  exact hp.2 hkey

/-- A root other than the net that is set stays a root. -/
theorem isRoot_set_of_ne (hne : n.key ≠ m.key) (h : IsRoot parents m) : IsRoot (parents.set n root) m := by
  obtain ⟨p, hp, hkey⟩ := h
  refine ⟨p, ?_, hkey⟩
  rw [NetTable.get?_set, if_neg hne, hp]

/-- What a net was pointed to is a root, if it was one before or is the net itself. -/
theorem isRoot_set (h : root.key = n.key ∨ IsRoot parents root) : IsRoot (parents.set n root) root := by
  by_cases hkey : root.key = n.key
  · refine ⟨root, ?_, rfl⟩
    rw [NetTable.get?_set, if_pos hkey.symm]
  · exact isRoot_set_of_ne (Ne.symm hkey) (h.resolve_left hkey)

/-- What `m` points to after `n` was pointed to `root`. -/
theorem above_set_iff {p : Net} :
    Above (parents.set n root) p m ↔
      (n.key = m.key ∧ p = root ∧ root.key ≠ n.key) ∨ (n.key ≠ m.key ∧ Above parents p m) := by
  unfold Above
  rw [NetTable.get?_set]
  by_cases h : n.key = m.key
  · rw [if_pos h, Option.some.injEq, h]
    constructor
    · intro ⟨hp, hkey⟩
      exact .inl ⟨rfl, hp.symm, hp ▸ hkey⟩
    · intro hcases
      cases hcases with
      | inl hhere => exact ⟨hhere.2.1.symm, hhere.2.1 ▸ hhere.2.2⟩
      | inr hthere => exact absurd rfl hthere.1
  · rw [if_neg h]
    constructor
    · intro hp
      exact .inr ⟨h, hp⟩
    · intro hcases
      cases hcases with
      | inl hhere => exact absurd hhere.1 h
      | inr hthere => exact hthere.2

/-- Pointing a net to a root, or to itself, closes no circle. -/
theorem acyclic_set (hacyclic : WellFounded (Above parents)) (hroot : root.key = n.key ∨ IsRoot parents root) :
    WellFounded (Above (parents.set n root)) := by
  -- What `n` points to now is a root, so its own chain of pointers has one step at most.
  have hhere : ∀ m, n.key = m.key → Acc (Above (parents.set n root)) m := by
    intro m hm
    refine ⟨m, fun p hp => ?_⟩
    cases above_set_iff.mp hp with
    | inr hthere => exact absurd hm hthere.1
    | inl hhere =>
      obtain ⟨-, rfl, -⟩ := hhere
      exact ⟨p, fun q hq => absurd hq (not_above_of_isRoot (isRoot_set hroot) q)⟩
  refine ⟨fun m => hacyclic.induction m fun m ih => ?_⟩
  by_cases hm : n.key = m.key
  · exact hhere m hm
  · refine ⟨m, fun p hp => ?_⟩
    cases above_set_iff.mp hp with
    | inl hhere => exact absurd hhere.1 hm
    | inr hthere => exact ih p hthere.2

def empty : Grouping := ⟨.empty, ⟨fun _ => ⟨_, fun _ h => by cases h.1⟩⟩⟩

/-- Lets a net point to a root, or to itself. -/
def point (g : Grouping) (n root : Net) (h : root.key = n.key ∨ IsRoot g.parents root) : Grouping :=
  ⟨g.parents.set n root, acyclic_set g.acyclic h⟩

/-- The root of a net, with the grouping after the lookup. -/
structure Found (g : Grouping) where
  root : Net
  after : Grouping
  isRoot : IsRoot after.parents root
  keeps : ∀ m, IsRoot g.parents m → IsRoot after.parents m

/-- Looks up the root of a net. A net that is new becomes a root. -/
def find (g : Grouping) (n : Net) : Found g :=
  match h : g.parents.get? n with
  | none =>
    have hnew (m : Net) (hm : IsRoot g.parents m) : n.key ≠ m.key := by
      intro hkey
      obtain ⟨p, hp, -⟩ := hm
      rw [NetTable.get?_congr hkey, hp] at h
      cases h
    { root := n
      after := g.point n n (.inl rfl)
      isRoot := isRoot_set (.inl rfl)
      keeps := fun m hm => isRoot_set_of_ne (hnew m hm) hm }
  | some p =>
    if hp : p.key = n.key then
      { root := n, after := g, isRoot := ⟨p, h, hp⟩, keeps := fun _ hm => hm }
    else
      have hbelow (m : Net) (hm : IsRoot g.parents m) : n.key ≠ m.key := by
        intro hkey
        exact not_above_of_isRoot hm p ⟨(NetTable.get?_congr hkey).symm.trans h, hkey ▸ hp⟩
      let r := find g p
      { root := r.root
        after := r.after.point n r.root (.inr r.isRoot)
        isRoot := isRoot_set (.inr r.isRoot)
        keeps := fun m hm => isRoot_set_of_ne (hbelow m hm) (r.keeps m hm) }
termination_by g.acyclic.wrap n
decreasing_by exact ⟨h, hp⟩

/-- Puts the groups of more nets under a root. -/
def join (g : Grouping) (root : Net) (h : IsRoot g.parents root) : List Net → Grouping
  | [] => g
  | n :: rest =>
    let r := g.find n
    if r.root.key = root.key then r.after.join root (r.keeps root h) rest
    else
      have hroot := r.keeps root h
      (r.after.point r.root root (.inr hroot)).join root (isRoot_set (.inr hroot)) rest

/-- Makes one group of the groups of all these nets. -/
def unify (g : Grouping) : List Net → Grouping
  | [] => g
  | first :: rest =>
    let r := g.find first
    r.after.join r.root r.isRoot rest

/-- Adds a net to the group with this root, or starts that group. -/
def addMember (root : NetKey) (n : Net) : List (NetKey × NetSet) → List (NetKey × NetSet)
  | [] => [(root, NetSet.empty.insert n)]
  | (k, members) :: rest =>
    if k = root then (k, members.insert n) :: rest else (k, members) :: addMember root n rest

/-- Sorts nets into groups by their roots. -/
def collect (g : Grouping) (out : List (NetKey × NetSet)) : List Net → Grouping × List (NetKey × NetSet)
  | [] => (g, out)
  | n :: rest =>
    let r := g.find n
    r.after.collect (addMember r.root.key n out) rest

/-- The groups in order of first appearance, each with its nets in that order, and the grouping after the lookups. -/
def groups (g : Grouping) : Grouping × List NetSet :=
  let (g, out) := g.collect [] g.parents.keys
  (g, out.map Prod.snd)

end Grouping

mutual

/-- Adds the nets of every assignment and property to the grouping, at any depth. -/
def group (g : Grouping) : Statement → Except Value Grouping
  | .switch _ arms => groupArms g arms
  | .assign lhs rhs => do return g.unify (← targets (.assign lhs rhs)).items
  | .property kind test check enable => do
    return g.unify (← targets (.property kind test check enable)).items

def groupAll (g : Grouping) : List Statement → Except Value Grouping
  | [] => .ok g
  | s :: rest => do groupAll (← group g s) rest

def groupArms (g : Grouping) : List (List String × List Statement) → Except Value Grouping
  | [] => .ok g
  | (_, body) :: rest => do groupArms (← groupAll g body) rest

end

end Rtl.Statement
