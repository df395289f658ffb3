import Mathlib
import Rtl.Proofs.Cleaning
import Rtl.Proofs.GroupedNets

/-!
# Splitting statements by what is written together

The nets that one assignment or property writes end up in one group. So every assignment and property belongs to the
group of what it writes, and filtering a list by a group keeps those that belong to it, wherever they stand and
whenever they are run.
-/
namespace Rtl

open List NetSet

theorem nodup_ofList (ns : List Net) : ((ofList ns).items.map Net.key).Nodup := by
  induction ns using List.reverseRecOn with
  | nil => exact nodup_nil
  | append_singleton ns n ih =>
    have hlist : ofList (ns ++ [n]) = (ofList ns).insert n := insertAll_append _ ns [n]
    rw [hlist]
    by_cases hn : n ∈ ofList ns
    · rw [insert_of_mem hn]
      exact ih
    · have hkey : n.key ∉ (ofList ns).items.map Net.key := by
        intro h
        obtain ⟨m, hm, hkey⟩ := mem_map.mp h
        exact hn (mem_iff.mpr ⟨m, hm, hkey⟩)
      rw [insert_of_not_mem hn, map_append]
      exact nodup_append_comm.mp (nodup_cons.mpr ⟨hkey, ih⟩)

namespace Statement

variable {x : Statement} {t : NetSet} {xs : List Statement}
variable {s : NetSet}

/-- The nets that a statement writes. -/
def lefts (x : Statement) : NetSet := x.targets.toOption.getD .empty

/-- Whether a statement writes into a set. -/
def touches (s : NetSet) (x : Statement) : Bool := x.lefts.items.any s.contains

/-- One assignment or property writes both of the nets with these keys. -/
def Together (xs : List Statement) (k l : NetKey) : Prop :=
  ∃ x ∈ bodyActions xs, k.net ∈ x.lefts ∧ l.net ∈ x.lefts

/-- Every left side can be written. -/
def Writable (xs : List Statement) : Prop := ∀ x ∈ xs, x.targets = .ok x.lefts

theorem targets_eq_lefts (h : x.targets = .ok t) : x.targets = .ok x.lefts := by
  rw [lefts, h]
  rfl

/-- What statements write, one after the other. -/
def allLefts (xs : List Statement) : List Net := xs.flatMap fun x => x.lefts.items

theorem bodyActions_append (xs ys : List Statement) : bodyActions (xs ++ ys) = bodyActions xs ++ bodyActions ys := by
  induction xs with
  | nil => rfl
  | cons x xs ih => rw [cons_append, bodyActions, bodyActions, ih, append_assoc]

theorem bodyActions_singleton (x : Statement) : bodyActions [x] = x.actions := append_nil _

theorem runAll_singleton (tests : Value → Int) (x : Statement) : runAll tests [x] = run tests x := append_nil _

theorem allLefts_append (xs ys : List Statement) : allLefts (xs ++ ys) = allLefts xs ++ allLefts ys :=
  flatMap_append

theorem writable_append {ys : List Statement} : Writable (xs ++ ys) ↔ Writable xs ∧ Writable ys :=
  forall_mem_append

section Targets

variable {acc : NetSet}

/-- The targets of a statement are those of its assignments and properties. -/
def Gathers (x : Statement) : Prop :=
  ∀ t, x.targets = .ok t → Writable x.actions ∧ ∀ acc : NetSet, acc.union t = acc.insertAll (allLefts x.actions)

theorem bodyTargets_of (hxs : ∀ x ∈ xs, x.Gathers) (h : bodyTargets acc xs = .ok t) :
    Writable (bodyActions xs) ∧ t = acc.insertAll (allLefts (bodyActions xs)) := by
  induction xs generalizing acc with
  | nil =>
    cases h
    exact ⟨fun x hx => absurd hx not_mem_nil, rfl⟩
  | cons x xs ih =>
    obtain ⟨hx, hxs⟩ := forall_mem_cons.mp hxs
    rw [bodyTargets] at h
    cases hhere : x.targets with
    | error =>
      rw [hhere] at h
      cases h
    | ok here =>
      rw [hhere] at h
      obtain ⟨hwritable, hunion⟩ := hx here hhere
      obtain ⟨hwritable', ht⟩ := ih hxs h
      refine ⟨writable_append.mpr ⟨hwritable, hwritable'⟩, ?_⟩
      rw [ht, hunion, bodyActions, allLefts_append, insertAll_append]

theorem armsTargets_of {arms : List Arm} (harms : ∀ a ∈ arms, ∀ x ∈ a.2, x.Gathers) (h : armsTargets acc arms = .ok t) :
    Writable (armsActions arms) ∧ t = acc.insertAll (allLefts (armsActions arms)) := by
  induction arms generalizing acc with
  | nil =>
    cases h
    exact ⟨fun x hx => absurd hx not_mem_nil, rfl⟩
  | cons a arms ih =>
    obtain ⟨patterns, body⟩ := a
    obtain ⟨hbody, harms⟩ := forall_mem_cons.mp harms
    rw [armsTargets] at h
    cases hhere : bodyTargets acc body with
    | error =>
      rw [hhere] at h
      cases h
    | ok =>
      rw [hhere] at h
      obtain ⟨hwritable, hunion⟩ := bodyTargets_of hbody hhere
      obtain ⟨hwritable', ht⟩ := ih harms h
      refine ⟨writable_append.mpr ⟨hwritable, hwritable'⟩, ?_⟩
      rw [ht, hunion, armsActions, allLefts_append, insertAll_append]

theorem gathers_of_isAction (hx : x.isAction = true) : x.Gathers := by
  intro t ht
  have hlefts : x.lefts = t := by
    rw [lefts, ht]
    rfl
  rw [actions_of_isAction hx]
  refine ⟨fun y hy => ?_, fun acc => ?_⟩
  · rw [mem_singleton.mp hy]
    exact targets_eq_lefts ht
  · rw [allLefts, flatMap_singleton, hlefts]
    rfl

theorem gathers (x : Statement) : x.Gathers := by
  induction x with
  | assign | property => exact gathers_of_isAction rfl
  | switch test arms ih =>
    intro t ht
    obtain ⟨hwritable, hunion⟩ := armsTargets_of ih ht
    refine ⟨hwritable, fun acc => ?_⟩
    rw [hunion]
    exact insertAll_ofList acc _

end Targets

section Grouping

/-- The grouping after the nets of statements were united, one statement after the other. -/
def united (g : Grouping) (xs : List Statement) : Grouping := (xs.map fun x => x.lefts.items).foldl Grouping.unify g

theorem united_append (g : Grouping) (xs ys : List Statement) : united g (xs ++ ys) = united (united g xs) ys := by
  rw [united, map_append, foldl_append]
  rfl

theorem groupAll_of (hxs : ∀ x ∈ xs, ∀ g, Writable x.actions → group g x = .ok (united g x.actions)) (g : Grouping)
    (h : Writable (bodyActions xs)) : groupAll g xs = .ok (united g (bodyActions xs)) := by
  induction xs generalizing g with
  | nil => rfl
  | cons x xs ih =>
    obtain ⟨hx, hxs⟩ := forall_mem_cons.mp hxs
    obtain ⟨hwritable, hwritable'⟩ := writable_append.mp h
    rw [groupAll, hx g hwritable, bodyActions, united_append]
    exact ih hxs _ hwritable'

theorem groupArms_of {arms : List Arm}
    (harms : ∀ a ∈ arms, ∀ x ∈ a.2, ∀ g, Writable x.actions → group g x = .ok (united g x.actions)) (g : Grouping)
    (h : Writable (armsActions arms)) : groupArms g arms = .ok (united g (armsActions arms)) := by
  induction arms generalizing g with
  | nil => rfl
  | cons a arms ih =>
    obtain ⟨patterns, body⟩ := a
    obtain ⟨hbody, harms⟩ := forall_mem_cons.mp harms
    obtain ⟨hwritable, hwritable'⟩ := writable_append.mp h
    rw [groupArms, groupAll_of hbody g hwritable, armsActions, united_append]
    exact ih harms _ hwritable'

/-- Grouping unites the nets of every assignment and property, in their order. -/
theorem group_eq (x : Statement) (g : Grouping) (h : Writable x.actions) : group g x = .ok (united g x.actions) := by
  induction x generalizing g with
  | assign | property =>
    rw [group, h _ mem_cons_self]
    rfl
  | switch test arms ih => exact groupArms_of ih g h

end Grouping

section Filtering

variable {s : NetSet}
variable {x : Statement}

theorem writesInto_eq (h : x.targets = .ok x.lefts) : writesInto s x = .ok (touches s x) := by
  rw [writesInto, h]
  rfl

theorem filter_of_isAction (hx : x.isAction = true) (h : x.targets = .ok x.lefts) :
    filter s x = .ok (if touches s x then [x] else []) := by
  cases x with
  | assign | property =>
    rw [filter, writesInto_eq h]
    rfl
  | switch => cases hx

/-- What a filtered list holds and runs is what the list holds and runs, as far as it writes into the set. -/
structure Keeps (s : NetSet) (xs ys : List Statement) : Prop where
  actions : bodyActions ys = (bodyActions xs).filter (touches s)
  runs : ∀ tests, runAll tests ys = (runAll tests xs).filter (touches s)

structure ArmsKeep (s : NetSet) (arms arms' : List Arm) : Prop where
  actions : armsActions arms' = (armsActions arms).filter (touches s)
  runs : ∀ tests v, runArms tests v arms' = (runArms tests v arms).filter (touches s)

theorem Keeps.append {xs' ys ys' : List Statement} (h : Keeps s xs ys) (h' : Keeps s xs' ys') :
    Keeps s (xs ++ xs') (ys ++ ys') := by
  constructor
  · rw [bodyActions_append, bodyActions_append, filter_append, h.actions, h'.actions]
  · intro tests
    rw [runAll_append, runAll_append, filter_append, h.runs, h'.runs]

theorem keeps_of_isAction (hx : x.isAction = true) : Keeps s [x] (if touches s x then [x] else []) := by
  have hactions : bodyActions [x] = [x] := by rw [bodyActions_singleton, actions_of_isAction hx]
  have hrun (tests : Value → Int) : runAll tests [x] = [x] := by rw [runAll_singleton, run_of_isAction hx]
  by_cases htouches : touches s x = true
  · rw [if_pos htouches]
    refine ⟨?_, fun tests => ?_⟩
    · rw [hactions, filter_singleton, htouches, cond_true]
    · rw [hrun, filter_singleton, htouches, cond_true]
  · rw [Bool.not_eq_true] at htouches
    rw [htouches, if_neg Bool.false_ne_true]
    refine ⟨?_, fun tests => ?_⟩
    · rw [hactions, filter_singleton, htouches, cond_false, bodyActions]
    · rw [hrun, filter_singleton, htouches, cond_false, runAll]

theorem filterAll_of (hxs : ∀ x ∈ xs, Writable x.actions → ∃ ys, filter s x = .ok ys ∧ Keeps s [x] ys)
    (h : Writable (bodyActions xs)) : ∃ ys, filterAll s xs = .ok ys ∧ Keeps s xs ys := by
  induction xs with
  | nil => exact ⟨[], rfl, ⟨rfl, fun _ => rfl⟩⟩
  | cons x xs ih =>
    obtain ⟨hx, hxs⟩ := forall_mem_cons.mp hxs
    obtain ⟨hwritable, hwritable'⟩ := writable_append.mp h
    obtain ⟨ys, hys, hkeeps⟩ := hx hwritable
    obtain ⟨ys', hys', hkeeps'⟩ := ih hxs hwritable'
    refine ⟨ys ++ ys', ?_, hkeeps.append hkeeps'⟩
    rw [filterAll, hys, hys']
    rfl

theorem filterArms_of {arms : List Arm}
    (harms : ∀ a ∈ arms, ∀ x ∈ a.2, Writable x.actions → ∃ ys, filter s x = .ok ys ∧ Keeps s [x] ys)
    (h : Writable (armsActions arms)) : ∃ arms', filterArms s arms = .ok arms' ∧ ArmsKeep s arms arms' := by
  induction arms with
  | nil => exact ⟨[], rfl, ⟨rfl, fun _ _ => rfl⟩⟩
  | cons a arms ih =>
    obtain ⟨patterns, body⟩ := a
    obtain ⟨hbody, harms⟩ := forall_mem_cons.mp harms
    obtain ⟨hwritable, hwritable'⟩ := writable_append.mp h
    obtain ⟨ys, hys, hkeeps⟩ := filterAll_of hbody hwritable
    obtain ⟨arms', harms', hkeep'⟩ := ih harms hwritable'
    refine ⟨(patterns, ys) :: arms', ?_, ?_, fun tests v => ?_⟩
    · rw [filterArms, hys, harms']
      rfl
    · rw [armsActions, armsActions, filter_append, hkeeps.actions, hkeep'.actions]
    · -- The arms keep their patterns, so the same one is taken.
      rw [runArms, runArms]
      by_cases htaken : armTaken v patterns = true
      · rw [if_pos htaken, if_pos htaken, hkeeps.runs]
      · rw [if_neg htaken, if_neg htaken, hkeep'.runs]

theorem filter_keeps (x : Statement) (h : Writable x.actions) : ∃ ys, filter s x = .ok ys ∧ Keeps s [x] ys := by
  induction x with
  | assign => exact ⟨_, filter_of_isAction rfl (h _ mem_cons_self), keeps_of_isAction rfl⟩
  | property =>
    exact ⟨_, filter_of_isAction rfl (h _ mem_cons_self), keeps_of_isAction rfl⟩
  | switch test arms ih =>
    obtain ⟨arms', harms', hkeep⟩ := filterArms_of ih h
    refine ⟨[.switch test arms'], ?_, ?_, fun tests => ?_⟩
    · rw [filter, harms']
      rfl
    · rw [bodyActions_singleton, bodyActions_singleton, Statement.actions, Statement.actions, hkeep.actions]
    · rw [runAll_singleton, runAll_singleton, run, run, hkeep.runs]

end Filtering

theorem touches_iff : touches s x = true ↔ ∃ n, n ∈ x.lefts ∧ n ∈ s := by
  rw [touches, any_eq_true]
  constructor
  · intro ⟨n, hn, hs⟩
    exact ⟨n, mem_iff.mpr ⟨n, hn, rfl⟩, hs⟩
  · intro ⟨n, hn, hs⟩
    obtain ⟨m, hm, hkey⟩ := mem_iff.mp hn
    exact ⟨m, hm, (mem_congr hkey).mpr hs⟩

theorem net_mem_iff {k : NetKey} : k.net ∈ s ↔ ∃ n ∈ s.items, k = n.key := by
  rw [mem_iff, NetKey.key_net]
  exact exists_congr fun n => and_congr_right fun _ => eq_comm

/-- The groups after all nets of a list were united are the classes of nets that it writes together. -/
theorem united_classes (xs : List Statement) :
    Grouping.Classes (Relation.EqvGen (Together xs)) (NetSet.ofList (allLefts (bodyActions xs)))
      (united .empty (bodyActions xs)).groups.2 := by
  obtain ⟨hclass, hnets⟩ := Grouping.classifies_empty.foldl_unify ((bodyActions xs).map fun x => x.lefts.items)
  have htogether (c d : NetKey) : Together xs c d ↔ False ∨
      ∃ ns ∈ (bodyActions xs).map fun x => x.lefts.items, (∃ n ∈ ns, c = n.key) ∧ ∃ n ∈ ns, d = n.key := by
    simp only [Together, net_mem_iff, false_or, mem_map, exists_exists_and_eq_and]
  have hclass' : (united .empty (bodyActions xs)).Classifies (Together xs) :=
    hclass.congr (fun c d hcd => .rel c d ((htogether c d).mpr hcd)) fun c d hcd => .rel c d ((htogether c d).mp hcd)
  have hnets' : (united .empty (bodyActions xs)).nets = NetSet.ofList (allLefts (bodyActions xs)) := by
    rw [allLefts, flatMap_def]
    exact hnets
  rw [← hnets']
  refine hclass'.groups ?_
  rw [hnets']
  exact nodup_ofList _

/-- What writes a net belongs to the group of the net and to no other. -/
theorem Grouping.Classes.existsUnique_touches {all : NetSet} {sets : List NetSet}
    (h : Grouping.Classes (Relation.EqvGen (Together xs)) all sets) (hx : x ∈ bodyActions xs) {n : Net}
    (hn : n ∈ x.lefts) (hall : n ∈ all) : ∃! s, s ∈ sets ∧ touches s x = true := by
  obtain ⟨s, hs, hns⟩ := (h.cover n).mp hall
  refine ⟨s, ⟨hs, touches_iff.mpr ⟨n, hn, hns⟩⟩, fun t ⟨ht, htouches⟩ => ?_⟩
  obtain ⟨m, hm, hmt⟩ := touches_iff.mp htouches
  -- The two nets are written together, so the group of the one holds the other.
  have hnet {l : Net} (hl : l ∈ x.lefts) : l.key.net ∈ x.lefts := (mem_congr (NetKey.key_net _)).mpr hl
  have hms : m ∈ s :=
    (h.related s hs n hns m).mpr ⟨(h.cover m).mpr ⟨t, ht, hmt⟩, .rel _ _ ⟨x, hx, hnet hn, hnet hm⟩⟩
  have : Std.Symm fun s t : NetSet => ∀ n, n ∈ s → n ∉ t := ⟨fun s t hst n hn hn' => hst n hn' hn⟩
  by_contra hne
  exact h.disjoint.forall hs ht (Ne.symm hne) m hms hmt

/-- The groups are the classes of nets that are written together, in order of first appearance. An assignment or property
that writes a net at all is kept for one of them, and filtering by any set of nets keeps what writes into it, in every
run. -/
theorem groups_partition {xs : List Statement} {all : NetSet} (h : bodyTargets .empty xs = .ok all) :
    ∃ g, groupAll .empty xs = .ok g ∧
      Grouping.Classes (Relation.EqvGen (Together xs)) all g.groups.2 ∧
      (∀ x ∈ bodyActions xs, x.lefts.items ≠ [] → ∃! s, s ∈ g.groups.2 ∧ filter s x = .ok [x]) ∧
      ∀ s, ∃ ys, filterAll s xs = .ok ys ∧ Keeps s xs ys := by
  obtain ⟨hwritable, rfl⟩ := bodyTargets_of (fun x _ => gathers x) h
  have hclasses := united_classes xs
  refine ⟨_, groupAll_of (fun x _ => group_eq x) .empty hwritable, hclasses, fun x hx hne => ?_, fun s => ?_⟩
  · obtain ⟨n, hn⟩ := exists_mem_of_ne_nil _ hne
    have hall : n ∈ NetSet.ofList (allLefts (bodyActions xs)) :=
      mem_ofList.mpr ⟨n, mem_flatMap.mpr ⟨x, hx, hn⟩, rfl⟩
    have haction : x.isAction = true := by
      obtain ⟨y, -, hy⟩ := mem_bodyActions.mp hx
      exact isAction_of_mem_actions hy
    have hkept (s : NetSet) : filter s x = .ok [x] ↔ touches s x = true := by
      rw [filter_of_isAction haction (hwritable x hx)]
      by_cases htouches : touches s x = true
      · simp [htouches]
      · simp [htouches]
    simp only [hkept]
    exact hclasses.existsUnique_touches hx (mem_iff.mpr ⟨n, hn, rfl⟩) hall
  · exact filterAll_of (fun x _ => filter_keeps x) hwritable

/-- Two assignments that share a net, the second in a switch beside a property. -/
def overlapping : List Statement :=
  [.assign (.cat [.signal ⟨0, 0⟩, .signal ⟨0, 1⟩]) (.const 0 ⟨2, false⟩),
    .switch (.signal ⟨0, 2⟩)
      [(["1"], [.property .assert (.signal ⟨0, 2⟩) ⟨0, 4⟩ ⟨0, 5⟩,
        .assign (.cat [.signal ⟨0, 3⟩, .signal ⟨0, 0⟩]) (.const 1 ⟨2, false⟩)]),
      ([], [])]]

theorem groups_partition_overlapping :
    bodyTargets .empty overlapping =
        .ok ⟨[.signal ⟨0, 0⟩, .signal ⟨0, 1⟩, .signal ⟨0, 5⟩, .signal ⟨0, 4⟩, .signal ⟨0, 3⟩]⟩ ∧
      ∃ g, groupAll .empty overlapping = .ok g ∧
        Grouping.Classes (Relation.EqvGen (Together overlapping))
          ⟨[.signal ⟨0, 0⟩, .signal ⟨0, 1⟩, .signal ⟨0, 5⟩, .signal ⟨0, 4⟩, .signal ⟨0, 3⟩]⟩ g.groups.2 ∧
        (∀ x ∈ bodyActions overlapping, x.lefts.items ≠ [] → ∃! s, s ∈ g.groups.2 ∧ filter s x = .ok [x]) ∧
        ∀ s, ∃ ys, filterAll s overlapping = .ok ys ∧ Keeps s overlapping ys :=
  ⟨rfl, groups_partition rfl⟩

end Statement
end Rtl
