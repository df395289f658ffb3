import Mathlib
import Rtl.Proofs.Endings
import Rtl.Proofs.Rewriting
import Rtl.Workspace.Elaborate

/-!
# The assignments and properties that a builder holds

What was added to a builder is kept in the body being filled, in the bodies and arms of the open constructs and, while
a construct is being filled, among the statements around its body. Opening, closing, leaving and lowering constructs
moves assignments and properties between these places and drops some of them, but brings in none: what holds of all of
them before a call holds of all of them after it, however the call ends. The driving table is not touched by any of
this.
-/
namespace Rtl

open List

namespace Statement

variable {x y : Statement} {xs : List Statement} {Q : Statement → Prop} {ys : List Statement} {f : Value → Value}
variable {domain : String} {arms : List Arm} {σ : Arenas}

mutual

/-- The assignments and properties in a statement, at any depth. -/
def actions : Statement → List Statement
  | .switch _ arms => armsActions arms
  | x => [x]

def bodyActions : List Statement → List Statement
  | [] => []
  | x :: rest => actions x ++ bodyActions rest

def armsActions : List (List String × List Statement) → List Statement
  | [] => []
  | (_, body) :: rest => bodyActions body ++ armsActions rest

end

theorem mem_bodyActions : y ∈ bodyActions xs ↔ ∃ x ∈ xs, y ∈ x.actions := by
  induction xs with
  | nil => simp [bodyActions]
  | cons x xs ih => simp [bodyActions, ih]

theorem mem_armsActions : y ∈ armsActions arms ↔ ∃ a ∈ arms, y ∈ bodyActions a.2 := by
  induction arms with
  | nil => simp [armsActions]
  | cons a arms ih => simp [armsActions, ih]

theorem actions_of_isAction (h : x.isAction = true) : x.actions = [x] := by
  cases x with
  | switch => cases h
  | _ => rfl

theorem isAction_of_mem_actions (h : y ∈ x.actions) : y.isAction = true := by
  induction x with
  | assign | property =>
    obtain rfl := mem_singleton.mp h
    rfl
  | switch test arms ih =>
    obtain ⟨a, ha, h⟩ := mem_armsActions.mp h
    obtain ⟨x, hx, h⟩ := mem_bodyActions.mp h
    exact ih a ha x hx h

theorem values_subset_of_mem_actions (h : y ∈ x.actions) : y.values ⊆ x.values := by
  induction x with
  | assign | property =>
    obtain rfl := mem_singleton.mp h
    exact Subset.refl _
  | switch test arms ih =>
    obtain ⟨a, ha, h⟩ := mem_armsActions.mp h
    obtain ⟨x, hx, h⟩ := mem_bodyActions.mp h
    exact fun v hv => mem_cons_of_mem _ (mem_armsValues.mpr ⟨a, ha, x, hx, ih a ha x hx h hv⟩)

/-- All assignments and properties in the statements satisfy `Q`. -/
def AllActions (Q : Statement → Prop) (xs : List Statement) : Prop := ∀ y ∈ bodyActions xs, Q y

theorem allActions_append : AllActions Q (xs ++ ys) ↔ AllActions Q xs ∧ AllActions Q ys := by
  simp only [AllActions, mem_bodyActions, mem_append, or_and_right, exists_or, or_imp, forall_and]

theorem allActions_singleton : AllActions Q [x] ↔ ∀ y ∈ x.actions, Q y := by
  simp only [AllActions, mem_bodyActions, mem_singleton, exists_eq_left]

theorem mkSwitch_allActions {test : Value} (h : mkSwitch σ test arms = .ok x)
    (harms : ∀ a ∈ arms, AllActions Q a.2) : AllActions Q [x] := by
  obtain ⟨out, rfl, hout⟩ := mkSwitch_arms h
  refine allActions_singleton.mpr fun y hy => ?_
  obtain ⟨a, ha, hy⟩ := mem_armsActions.mp hy
  obtain ⟨b, hb, hab⟩ := hout a ha
  exact harms b hb y (hab.body ▸ hy)

theorem actions_mapValues (x : Statement) : (x.mapValues f).actions = x.actions.map (mapValues f) := by
  induction x with
  | assign | property => rfl
  | switch test arms ih =>
    change armsActions (armsMapValues f arms) = (armsActions arms).map (mapValues f)
    have hbody {xs : List Statement} (ih : ∀ x ∈ xs, (x.mapValues f).actions = x.actions.map (mapValues f)) :
        bodyActions (bodyMapValues f xs) = (bodyActions xs).map (mapValues f) := by
      induction xs with
      | nil => rfl
      | cons x xs ihxs =>
        obtain ⟨hx, hxs⟩ := forall_mem_cons.mp ih
        rw [bodyMapValues, bodyActions, bodyActions, hx, ihxs hxs, map_append]
    induction arms with
    | nil => rfl
    | cons a arms iharms =>
      obtain ⟨ha, harms⟩ := forall_mem_cons.mp ih
      rw [armsMapValues, armsActions, armsActions, hbody ha, iharms harms, map_append]

/-- The assignments and properties of filled statements are those that there were, with the domain filled in. -/
theorem fillSampleDomain_actions (h : fillSampleDomain σ domain xs = .ok ys) (hy : y ∈ bodyActions ys) :
    ∃ x ∈ bodyActions xs, ∃ f, y = x.mapValues f ∧ (∀ v ∈ x.values, v.Refills σ domain (f v)) ∧
      ∀ v, (f v).bare = (v.filled domain).bare := by
  obtain ⟨f, rfl, hvalues, hf⟩ := fillSampleDomain_eq_ok h
  obtain ⟨_, hy', hy⟩ := mem_bodyActions.mp hy
  obtain ⟨x', hx', rfl⟩ := mem_map.mp hy'
  rw [actions_mapValues] at hy
  obtain ⟨x, hx, rfl⟩ := mem_map.mp hy
  refine ⟨x, mem_bodyActions.mpr ⟨x', hx', hx⟩, f, rfl, fun v hv => Value.traversed_eq_ok_iff.mp ?_, hf⟩
  exact hvalues v (mem_bodyValues.mpr ⟨x', hx', values_subset_of_mem_actions hx hv⟩)

/-- With domains filled in, a statement writes what it wrote. -/
theorem targets_mapValues (hf : ∀ v, (f v).bare = (v.filled domain).bare)
    (hx : x.isAction = true) {ts : NetSet} (hts : x.targets = .ok ts) : (x.mapValues f).targets = .ok ts := by
  cases x with
  | assign lhs =>
    refine Value.targets_relabel.mp ((congrArg Value.targets (hf lhs)).trans ?_)
    exact Value.targets_relabel.mpr (Value.targets_relabel.mpr hts)
  | property => exact hts
  | switch => cases hx

end Statement

theorem Machine.arms_bodies {m : Machine} {P : List Statement → Prop} {states : List (String × List Statement)}
    {arms : List Arm} (h : m.arms states = .ok arms) (hstates : ∀ state ∈ states, P state.2) :
    ∀ a ∈ arms, P a.2 := by
  induction states generalizing arms with
  | nil =>
    cases h
    exact fun _ h => absurd h not_mem_nil
  | cons state states ih =>
    obtain ⟨hstate, hrest⟩ := forall_mem_cons.mp hstates
    obtain ⟨pattern, -, h⟩ := except_bind_eq_ok.mp h
    obtain ⟨others, hothers, rfl⟩ := except_bind_pure_eq_ok.mp h
    exact forall_mem_cons.mpr ⟨hstate, ih hothers hrest⟩

/-- The assignments and properties in the bodies and arms of an open construct. -/
def Control.actions : Control → List Statement
  | .chain _ _ bodies => bodies.flatMap Statement.bodyActions
  | .switch _ arms => Statement.armsActions arms
  | .machine _ states => states.flatMap fun state => Statement.bodyActions state.2

namespace Builder

open Statement

variable {α β γ : Type} {Q : Statement → Prop}
variable {frame : Frame}

/-- A call that opens a construct; its body follows. -/
inductive Construct where
  | ifThen (cond : Operand)
  | elifThen (cond : Operand)
  | orElse
  | switch (test : Operand)
  | case (patterns : List Operand)
  | default
  | state (name : String)

def Construct.opened : Construct → Build α Frame
  | .ifThen cond => openIf cond
  | .elifThen cond => openElif cond
  | .orElse => openElse
  | .switch test => openSwitch test
  | .case patterns => openCase patterns
  | .default => openDefault
  | .state name => openState name

/-- The statements around the body of a frame. -/
def outer : Frame → List Statement
  | .branch _ _ stmts => stmts
  | .otherwise _ stmts => stmts
  | .arm _ _ _ stmts => stmts
  | .state _ _ stmts => stmts
  | _ => []

/-- The assignments and properties of the builder: those of the body being filled and those of the open constructs. -/
def held (b : Builder α) : List Statement := bodyActions b.statements ++ b.stack.flatMap Control.actions

/-- All assignments and properties of the builder satisfy `Q`. -/
structure HoldsOnly (Q : Statement → Prop) (b : Builder α) : Prop where
  statements : AllActions Q b.statements
  stack : ∀ c ∈ b.stack, ∀ x ∈ c.actions, Q x

theorem holdsOnly_iff {b : Builder α} : b.HoldsOnly Q ↔ ∀ x ∈ b.held, Q x := by
  unfold held
  rw [forall_mem_append]
  simp only [mem_flatMap, forall_exists_index, and_imp]
  exact ⟨fun h => ⟨h.statements, fun x c hc hx => h.stack c hc x hx⟩, fun h => ⟨h.1, fun c hc x hx => h.2 x c hc hx⟩⟩

/-- What ending a construct does to its control: it stays what it is, and its new body is added or takes the place of
another. -/
structure Fills (Q : Statement → Prop) (c c' : Control) : Prop where
  machine : machineOf? c' = machineOf? c
  actions : (∀ x ∈ c.actions, Q x) → ∀ x ∈ c'.actions, Q x

section Fills

variable {body : List Statement} (hbody : AllActions Q body)
include hbody

theorem fills_addBranch (test : Value) (c : Control) : Fills Q c (addBranch test body c) := by
  cases c with
  | chain =>
    refine ⟨rfl, fun hc => ?_⟩
    simp only [addBranch, Control.actions, flatMap_append, flatMap_singleton]
    exact forall_mem_append.mpr ⟨hc, hbody⟩
  | _ => exact ⟨rfl, id⟩

theorem fills_addOtherwise (c : Control) : Fills Q c (addOtherwise body c) := by
  cases c with
  | chain =>
    refine ⟨rfl, fun hc => ?_⟩
    simp only [addOtherwise, Control.actions, flatMap_append, flatMap_singleton]
    exact forall_mem_append.mpr ⟨hc, hbody⟩
  | _ => exact ⟨rfl, id⟩

theorem fills_addState (name : String) (c : Control) : Fills Q c (addState name body c) := by
  cases c with
  | machine =>
    refine ⟨rfl, fun hc => ?_⟩
    simp only [addState, Control.actions, flatMap_append, flatMap_singleton]
    exact forall_mem_append.mpr ⟨hc, hbody⟩
  | _ => exact ⟨rfl, id⟩

/-- An arm may take the place of one with the same patterns, whose body is dropped. -/
theorem fills_addArm (patterns : List String) (c : Control) : Fills Q c (addArm (patterns, body) c) := by
  cases c with
  | switch =>
    refine ⟨rfl, fun hc x hx => ?_⟩
    obtain ⟨a, ha, hx⟩ := mem_armsActions.mp hx
    rw [Statement.builder_setArm_eq_putArm] at ha
    rcases Statement.mem_putArm ha with rfl | ha
    · exact hbody x hx
    · exact hc x (mem_armsActions.mpr ⟨a, ha, hx⟩)
  | _ => exact ⟨rfl, id⟩

end Fills

theorem holdsOnly_true (b : Builder α) : b.HoldsOnly fun _ => True := ⟨fun _ _ => trivial, fun _ _ _ _ => trivial⟩

/-- Started where everything held satisfies `Q`, the computation ends so and moves along `R`, whatever its outcome; and
what it returns satisfies `P`. -/
def Carries (Q : Statement → Prop) (R : State α → State α → Prop) (x : Build α β) (P : β → Prop) : Prop :=
  ∀ s, s.block.HoldsOnly Q → Ends x s (fun t => t.block.HoldsOnly Q ∧ R s t) ∧ ∀ a t, Gives x s a t → P a

variable {R : State α → State α → Prop} {P : β → Prop} {P' : γ → Prop}

theorem Carries.moves {x : Build α β} (h : Carries (fun _ => True) R x P) : Moves R x :=
  fun s => (h s (holdsOnly_true _)).1.2

theorem Carries.ite {p : Prop} [Decidable p] {x y : Build α β} (hx : Carries Q R x P) (hy : Carries Q R y P) :
    Carries Q R (if p then x else y) P := by
  split
  · exact hx
  · exact hy

section Tolerates

variable [Tolerates R] {xs : List Statement}

namespace Carries

variable {x : Build α β} {f : β → Build α γ}

theorem of_still (hx : Moves Still x) (h : ∀ s a t, s.block.HoldsOnly Q → Gives x s a t → P a) :
    Carries Q R x P :=
  fun s hs => ⟨⟨(hx s).block ▸ hs, Tolerates.still hx s⟩, fun a t hg => h s a t hs hg⟩

theorem still (hx : Moves Still x) : Carries Q R x fun _ => True := of_still hx fun _ _ _ _ _ => trivial

theorem pure {a : β} (h : P a) : Carries Q R (Pure.pure a : Build α β) P :=
  of_still (Still.isPath.pure a) fun _ _ _ _ hg => (gives_pure.mp hg).1 ▸ h

theorem throw (e : Failure) : Carries Q R (MonadExcept.throw e : Build α β) P :=
  of_still (Still.isPath.throw e) fun _ _ _ _ hg => absurd hg not_gives_throw

theorem bind (hx : Carries Q R x P) (hf : ∀ a, P a → Carries Q R (f a) P') :
    Carries Q R (x >>= f) P' := by
  intro s hs
  obtain ⟨hend, hP⟩ := hx s hs
  refine ⟨ends_bind hend fun a t hg => ?_, fun b u hg => ?_⟩
  · obtain ⟨ht, hst⟩ := hend.gives hg
    exact (hf a (hP a t hg) t ht).1.imp fun u hu => ⟨hu.1, Tolerates.toIsPath.trans hst hu.2⟩
  · obtain ⟨a, t, hga, hgb⟩ := gives_bind.mp hg
    exact (hf a (hP a t hga) t (hend.gives hga).1).2 b u hgb

theorem reports_bind (hx : Moves Reports x) (hf : ∀ a, Carries Q R (f a) P') :
    Carries Q R (x >>= f) P' := (still (still_of_reports hx)).bind fun a _ => hf a

/-- A body that is left because of a failure. -/
theorem rescue (hx : Carries Q R x P) (hleft : Carries Q R (abandon frame) fun _ => True) :
    Carries Q R (tryCatch x fun e => do
      abandon frame
      MonadExcept.throw e) P := by
  intro s hs
  obtain ⟨hend, hP⟩ := hx s hs
  refine ⟨ends_tryCatch hend (fun _ => id) fun e t ht => ?_, fun a t hg => hP a t (rescue_inv hg)⟩
  have hthrow := hleft.bind fun _ _ => throw (β := β) (P := P) e
  exact (hthrow t ht.1).1.imp fun u hu => ⟨hu.1, Tolerates.toIsPath.trans ht.2 hu.2⟩

theorem update {f : Builder α → Builder α} (h : ∀ b, (f b).arena = b.arena ∧ (f b).driving = b.driving)
    (hstack : ∀ b n, Holds n (f b).stack → Holds n b.stack) (hf : ∀ b, b.HoldsOnly Q → (f b).HoldsOnly Q) :
    Carries Q R (Build.modifyBlock f) fun _ => True :=
  fun s hs => ⟨⟨hf s.block hs, Tolerates.modify h hstack s⟩, fun _ _ _ => trivial⟩

end Carries

theorem block_carries : Carries Q R (Build.block : Build α (Builder α)) (HoldsOnly Q) :=
  .of_still (Still.isPath.read _) fun _ _ _ hs hg => (gives_block.mp hg).1 ▸ hs

theorem append_carries (h : AllActions Q xs) :
    Carries Q R (append xs : Build α Unit) fun _ => True :=
  .update (fun _ => ⟨rfl, rfl⟩) (fun _ _ => id) fun _ hb => ⟨allActions_append.mpr ⟨hb.statements, h⟩, hb.stack⟩

theorem setStatements_carries (h : AllActions Q xs) :
    Carries Q R (setStatements xs : Build α Unit) fun _ => True :=
  .update (fun _ => ⟨rfl, rfl⟩) (fun _ _ => id) fun _ hb => ⟨h, hb.stack⟩

theorem deeper_carries : Carries Q R (deeper : Build α Unit) fun _ => True :=
  .update (fun _ => ⟨rfl, rfl⟩) (fun _ _ => id) fun _ hb => ⟨hb.statements, hb.stack⟩

theorem shallower_carries : Carries Q R (shallower : Build α Unit) fun _ => True :=
  .update (fun _ => ⟨rfl, rfl⟩) (fun _ _ => id) fun _ hb => ⟨hb.statements, hb.stack⟩

theorem setContext_carries (c : Context) : Carries Q R (setContext c : Build α Unit) fun _ => True :=
  .update (fun _ => ⟨rfl, rfl⟩) (fun _ _ => id) fun _ hb => ⟨hb.statements, hb.stack⟩

/-- The statements that a control stands for hold nothing else. -/
theorem lower_allActions {c : Control} {s t : State α} {ys : List Statement} (hc : ∀ x ∈ c.actions, Q x)
    (hg : Gives (lower c) s ys t) : AllActions Q ys := by
  cases c with
  | chain =>
    replace hg := gives_arenas_bind.mp hg
    obtain ⟨x, hx, hg⟩ := gives_raise_bind.mp hg
    obtain ⟨rfl, -⟩ := gives_pure.mp hg
    refine mkSwitch_allActions hx fun a ha => ?_
    obtain ⟨⟨body, i⟩, hi, rfl⟩ := mem_map.mp ha
    exact fun x hx => hc x (mem_flatMap.mpr ⟨body, fst_mem_of_mem_zipIdx hi, hx⟩)
  | switch =>
    replace hg := gives_arenas_bind.mp hg
    obtain ⟨x, hx, hg⟩ := gives_raise_bind.mp hg
    obtain ⟨rfl, -⟩ := gives_pure.mp hg
    exact mkSwitch_allActions hx fun a ha x hx => hc x (mem_armsActions.mpr ⟨a, ha, hx⟩)
  | machine number states =>
    change Gives (lowerMachine number states) s ys t at hg
    rcases gives_ite.mp hg with ⟨-, hg⟩ | ⟨-, hg⟩
    · obtain ⟨rfl, -⟩ := gives_pure.mp hg
      exact fun _ h => absurd h not_mem_nil
    · obtain ⟨m, s1, -, hg⟩ := gives_bind.mp hg
      obtain ⟨σ, s2, -, hg⟩ := gives_bind.mp hg
      obtain ⟨σ', s3, -, hg⟩ := gives_bind.mp hg
      obtain ⟨v, s4, -, hg⟩ := gives_bind.mp hg
      obtain ⟨arms, s5, harms, hg⟩ := gives_bind.mp hg
      obtain ⟨x, hx, hg⟩ := gives_raise_bind.mp hg
      obtain ⟨rfl, -⟩ := gives_pure.mp hg
      refine mkSwitch_allActions hx (Machine.arms_bodies (gives_ofExcept.mp harms).1 fun state hstate => ?_)
      exact fun x hx => hc x (mem_flatMap.mpr ⟨state, hstate, hx⟩)

theorem pop_carries : Carries Q R (pop : Build α Unit) fun _ => True := by
  refine block_carries.bind fun b hb => ?_
  split
  · exact .throw _
  · rename_i c hc
    have hlower : Carries Q R (lower c) (AllActions Q) :=
      .of_still (lower_still c) fun _ _ _ _ hg => lower_allActions (hb.stack c (mem_of_getLast? hc)) hg
    refine Carries.bind (.update (fun _ => ⟨rfl, rfl⟩) (fun b n hn => ?_) fun b hb => ?_) fun _ _ =>
      hlower.bind fun _ hxs => append_carries hxs
    · obtain ⟨c, hc, hn⟩ := hn
      exact ⟨c, dropLast_subset _ hc, hn⟩
    · exact ⟨hb.statements, fun c hc => hb.stack c (dropLast_subset _ hc)⟩

theorem popMany_carries (n : Nat) : Carries Q R (popMany n : Build α Unit) fun _ => True := by
  induction n with
  | zero => exact .pure trivial
  | succ n ih => exact pop_carries.bind fun _ _ => ih

theorem flush_carries : Carries Q R (flush : Build α Unit) fun _ => True :=
  block_carries.bind fun _ _ => popMany_carries _

theorem finish_carries : Carries Q R (finish : Build α Unit) fun _ => True :=
  block_carries.bind fun _ _ => popMany_carries _

/-- A construct is opened with nothing in it. -/
theorem push_carries {c : Nat → Control} (hc : ∀ d, machineOf? (c d) = none ∧ (c d).actions = []) :
    Carries Q R (push c : Build α Nat) fun _ => True := by
  refine flush_carries.bind fun _ _ => block_carries.bind fun b _ =>
    Carries.bind (.update (fun _ => ⟨rfl, rfl⟩) (fun b n hn => ?_) fun b hb => ?_) fun _ _ => .pure trivial
  · rcases holds_concat.mp hn with hn | hn
    · exact hn
    · rw [(hc _).1] at hn
      cases hn
  · refine ⟨hb.statements, forall_mem_append.mpr ⟨hb.stack, forall_mem_singleton.mpr ?_⟩⟩
    rw [(hc _).2]
    exact fun _ h => absurd h not_mem_nil

theorem modifyControl_carries (position : Nat) {f : Control → Control} (hf : ∀ c, Fills Q c (f c)) :
    Carries Q R (modifyControl position f : Build α Unit) fun _ => True := by
  refine .update (fun _ => ⟨rfl, rfl⟩) (fun _ _ hn => hn.of_modify fun c => (hf c).machine) fun b hb =>
    ⟨hb.statements, fun c hc => ?_⟩
  obtain ⟨i, hi⟩ := mem_iff_getElem?.mp hc
  rw [getElem?_modify] at hi
  obtain ⟨c', hc', rfl⟩ := Option.map_eq_some_iff.mp hi
  have hold := hb.stack c' (mem_of_getElem? hc')
  split
  · exact (hf c').actions hold
  · exact hold

/-- A frame that is opened keeps the statements around its body. -/
theorem beginFrame_carries {frame : List Statement → Frame} (hframe : ∀ stmts, outer (frame stmts) = stmts) :
    Carries Q R (do return frame (← beginBody) : Build α Frame) fun f => AllActions Q (outer f) := by
  have hbegin : Carries Q R (beginBody : Build α (List Statement)) (AllActions Q) :=
    block_carries.bind fun _ hb => (setStatements_carries fun _ h => absurd h not_mem_nil).bind fun _ _ =>
      .pure hb.statements
  exact hbegin.bind fun stmts h => .pure (by rwa [hframe])

theorem abandon_carries (h : AllActions Q (outer frame)) : Carries Q R (abandon frame : Build α Unit) fun _ => True := by
  cases frame with
  | branch => exact (setStatements_carries h).bind fun _ _ => shallower_carries
  | otherwise => exact setStatements_carries h
  | switch | machine => exact shallower_carries.bind fun _ _ => setContext_carries _
  | arm | state => exact (setStatements_carries h).bind fun _ _ => setContext_carries _

theorem finishBody_carries {stmts : List Statement} (hframe : AllActions Q (outer frame)) (h : AllActions Q stmts) :
    Carries Q R (finishBody frame stmts : Build α (List Statement)) (AllActions Q) := by
  have hend : Carries Q R (endBody stmts : Build α (List Statement)) (AllActions Q) :=
    flush_carries.bind fun _ _ => block_carries.bind fun _ hb => (setStatements_carries h).bind fun _ _ =>
      .pure hb.statements
  exact hend.rescue (abandon_carries hframe)

/-- Ending a construct moves its body into the construct. -/
theorem close_carries (h : AllActions Q (outer frame)) : Carries Q R (close frame : Build α Unit) fun _ => True := by
  cases frame with
  | branch position test =>
    exact (finishBody_carries h h).bind fun body hbody =>
      (modifyControl_carries position (fills_addBranch hbody test)).bind fun _ _ => shallower_carries
  | otherwise position =>
    exact (finishBody_carries h h).bind fun body hbody => shallower_carries.bind fun _ _ =>
      (modifyControl_carries position (fills_addOtherwise hbody)).bind fun _ _ => pop_carries
  | switch => exact (abandon_carries h).bind fun _ _ => pop_carries
  | arm position patterns =>
    refine (finishBody_carries h h).bind fun body hbody => (setContext_carries _).bind fun _ _ =>
      Carries.ite (.pure trivial) ?_
    cases position with
    | some position => exact modifyControl_carries position (fills_addArm hbody patterns)
    | none => exact .throw _
  | machine =>
    refine (abandon_carries h).bind fun _ _ => block_carries.bind fun b _ => ?_
    split
    · refine .reports_bind (Reports.isPath.read _) fun m => ?_
      split
      · exact .throw _
      · exact pop_carries
    · exact pop_carries
  | state position name =>
    exact (finishBody_carries h h).bind fun body hbody => (setContext_carries _).bind fun _ _ =>
      modifyControl_carries position (fills_addState hbody name)

theorem opened_carries (c : Construct) (hstate : ∀ name, c = .state name → ∀ n, Moves R (Build.encode n name)) :
    Carries Q R (c.opened : Build α Frame) fun f => AllActions Q (outer f) := by
  -- A further branch of the chain of this level.
  have hextend {k : Nat} {e : Failure} {framed : List Statement → Frame} (hframed : ∀ stmts, outer (framed stmts) = stmts) :
      Carries Q R (do
        if k ≠ (← Build.block).depth then throw e
        deeper
        return framed (← beginBody) : Build α Frame) fun f => AllActions Q (outer f) := by
    refine block_carries.bind fun b _ => ?_
    split
    · exact .throw _
    · exact deeper_carries.bind fun _ _ => beginFrame_carries hframed
  cases c with
  | ifThen cond =>
    exact .reports_bind (requireContext_reports _ _) fun _ => .reports_bind (condition_reports cond) fun _ =>
      (push_carries fun _ => ⟨rfl, rfl⟩).bind fun _ _ => deeper_carries.bind fun _ _ => beginFrame_carries fun _ => rfl
  | elifThen cond =>
    refine .reports_bind (requireContext_reports _ _) fun _ => .reports_bind (condition_reports cond) fun test =>
      .reports_bind top_reports fun top => ?_
    split
    · exact hextend fun _ => rfl
    · exact .throw _
  | orElse =>
    refine .reports_bind (requireContext_reports _ _) fun _ => .reports_bind top_reports fun top => ?_
    split
    · exact hextend fun _ => rfl
    · exact .throw _
  | switch =>
    exact .reports_bind (requireContext_reports _ _) fun _ => .reports_bind (Reports.isPath.raise _) fun _ =>
      (push_carries fun _ => ⟨rfl, rfl⟩).bind fun _ _ => (setContext_carries _).bind fun _ _ => deeper_carries.bind fun _ _ =>
        .pure fun _ h => absurd h not_mem_nil
  | case =>
    refine .reports_bind (requireContext_reports _ _) fun _ => .reports_bind top_reports fun top => ?_
    split
    · exact .reports_bind (Reports.isPath.read _) fun _ => .reports_bind (armPatterns_reports _ _) fun _ =>
        (setContext_carries _).bind fun _ _ => beginFrame_carries fun _ => rfl
    · exact .throw _
  | default =>
    exact .reports_bind (requireContext_reports _ _) fun _ => .reports_bind top_reports fun _ =>
      (setContext_carries _).bind fun _ _ => beginFrame_carries fun _ => rfl
  | state name =>
    refine .reports_bind (requireContext_reports _ _) fun _ => .reports_bind top_reports fun top => ?_
    split
    · have hencode (n : Nat) : Carries Q R (Build.encode n name) fun _ => True :=
        fun s hs => ⟨⟨hs, hstate name rfl n s⟩, fun _ _ _ => trivial⟩
      exact Carries.ite (.throw _) ((hencode _).bind fun _ _ => (setContext_carries _).bind fun _ _ =>
        beginFrame_carries fun _ => rfl)
    · exact .throw _

theorem moves_flush : Moves R (flush : Build α Unit) := flush_carries.moves

theorem moves_abandon (frame : Frame) : Moves R (abandon frame : Build α Unit) := (abandon_carries fun _ _ => trivial).moves

theorem moves_close (frame : Frame) : Moves R (close frame : Build α Unit) := (close_carries fun _ _ => trivial).moves

end Tolerates

end Builder
end Rtl
