import Mathlib
import Rtl.Proofs.Programs

/-!
# Nested constructs

However a builder is used, and whatever calls fail, its depth never exceeds its stack and every if chain on the stack
was opened at the depth of its place (`Ordered`). What is built in between keeps the constructs around it, whether it
succeeds or fails: in a body nothing below the depth changes, in a switch or a machine only its arms or states grow
(`Retains`). Each construct keeps to this because what it opens (`Begun`) and what its end leaves (`Settled`) fit
together. A program that succeeds also comes back to its depth, and the states that a machine has gained are those that
the program defines (`Completes`).
-/
namespace Rtl.Builder

open List Nat

variable {α β : Type} {s t : State α} {b b' b'' : Builder α} {frame : Frame}
variable {c : Control} {n : Nat} {es : List Event} {u : Unit} {opts : MachineOptions}
variable {number position : Nat} {name : String} {s1 s2 : State α} {b1 : Builder α} {outer : List Statement}
variable {f : Control → Control} {body : Nat → Build α Unit} {states : List (String × List Statement)}

/-- The depth that an if chain was opened at. -/
def level? : Control → Option Nat
  | .chain depth _ _ => some depth
  | _ => none

/-- Every if chain was opened at the depth of its place on the stack. -/
def Levelled (stack : List Control) : Prop :=
  ∀ (i : Nat) (c : Control) (depth : Nat), stack[i]? = some c → level? c = some depth → depth = i

theorem levelled_nil : Levelled [] := by
  intro i c depth hi
  cases hi

variable {stack : List Control}

theorem Levelled.take (h : Levelled stack) (n : Nat) : Levelled (stack.take n) := by
  intro i c depth hi
  rw [getElem?_take] at hi
  split at hi
  · exact h i c depth hi
  · cases hi

theorem Levelled.concat (h : Levelled stack)
    (hc : ∀ depth, level? c = some depth → depth = stack.length) : Levelled (stack ++ [c]) := by
  intro i c' depth hi
  rw [getElem?_append] at hi
  split at hi
  · exact h i c' depth hi
  · rw [getElem?_singleton] at hi
    split at hi
    · cases hi
      intro hlevel
      have := hc depth hlevel
      omega
    · cases hi

theorem Levelled.modify (h : Levelled stack) (hf : ∀ c, level? (f c) = level? c)
    (position : Nat) : Levelled (stack.modify position f) := by
  intro i c depth hi
  rw [getElem?_modify] at hi
  obtain ⟨c', hc', rfl⟩ := Option.map_eq_some_iff.mp hi
  intro hlevel
  refine h i c' depth hc' ?_
  split at hlevel
  · rwa [hf] at hlevel
  · exact hlevel

theorem level?_addBranch (test : Value) (body : List Statement) (c : Control) :
    level? (addBranch test body c) = level? c := by
  cases c <;> rfl

theorem level?_addOtherwise (body : List Statement) (c : Control) : level? (addOtherwise body c) = level? c := by
  cases c <;> rfl

theorem level?_addArm (arm : Arm) (c : Control) : level? (addArm arm c) = level? c := by
  cases c <;> rfl

theorem level?_addState (name : String) (body : List Statement) (c : Control) :
    level? (addState name body c) = level? c := by
  cases c <;> rfl

/-- The open constructs are in order. -/
structure Ordered (b : Builder α) : Prop where
  depth : b.depth ≤ b.stack.length
  levelled : Levelled b.stack

/-- A builder that calls can lead to: its arena exists and its open constructs are in order. -/
structure Standing (s : State α) : Prop where
  arena : s.block.arena < s.arenas.list.size
  depth : s.block.depth ≤ s.block.stack.length
  levelled : Levelled s.block.stack

theorem Standing.ordered (hs : Standing s) : Ordered s.block := ⟨hs.depth, hs.levelled⟩

theorem Standing.of_ordered (hs : Standing s) (h : Rooted s t) (ht : Ordered t.block) : Standing t := by
  refine ⟨?_, ht.depth, ht.levelled⟩
  rw [h.arena, h.size]
  exact hs.arena

theorem Ordered.length_take (h : Ordered b) : (b.stack.take b.depth).length = b.depth := by
  rw [List.length_take, min_eq_left h.depth]

theorem length_take_depth (hs : Standing s) : (s.block.stack.take s.block.depth).length = s.block.depth :=
  hs.ordered.length_take

/-- What can be seen of the open constructs. -/
structure Poised (context : Context) (stack : List Control) (depth : Nat) (s : State α) : Prop where
  context : s.block.context = context
  stack : s.block.stack = stack
  depth : s.block.depth = depth

variable {context : Context} {stack base : List Control} {depth : Nat}

theorem Idle.poised (h : Idle s t) (hp : Poised context stack depth s) : Poised context stack depth t :=
  ⟨h.context.trans hp.context, h.stack.trans hp.stack, h.depth.trans hp.depth⟩

theorem Standing.mentioned (hs : Standing s) (number : Nat) (name : String) : Standing (s.mentioned number name) :=
  ⟨hs.arena, hs.depth, hs.levelled⟩

/-- The number of statements that a control is lowered to. -/
def weight : Control → Nat
  | .machine _ states => if states.isEmpty then 0 else 1
  | _ => 1

def weights (stack : List Control) : Nat := (stack.map weight).sum

theorem weights_append (xs ys : List Control) : weights (xs ++ ys) = weights xs + weights ys := by
  unfold weights
  rw [map_append, List.sum_append]

theorem weights_cons (c : Control) (xs : List Control) : weights (c :: xs) = weight c + weights xs := sum_cons

/-- The number of statements of a block once everything that is open has been lowered. -/
def total (b : Builder α) : Nat := b.statements.length + weights b.stack

theorem lower_length {ys : List Statement} (hg : Gives (lower c) s ys t) : ys.length = weight c := by
  cases c with
  | chain | switch =>
    obtain ⟨σ, s1, -, hg⟩ := gives_bind.mp hg
    obtain ⟨x, s2, -, hg⟩ := gives_bind.mp hg
    obtain ⟨rfl, -⟩ := gives_pure.mp hg
    rfl
  | machine number states =>
    change Gives (lowerMachine number states) s ys t at hg
    rcases gives_ite.mp hg with ⟨hempty, hg⟩ | ⟨hstates, hg⟩
    · obtain ⟨rfl, -⟩ := gives_pure.mp hg
      exact (if_pos hempty).symm
    · obtain ⟨m, s1, -, hg⟩ := gives_bind.mp hg
      obtain ⟨σ, s2, -, hg⟩ := gives_bind.mp hg
      obtain ⟨σ', s3, -, hg⟩ := gives_bind.mp hg
      obtain ⟨v, s4, -, hg⟩ := gives_bind.mp hg
      obtain ⟨arms, s5, -, hg⟩ := gives_bind.mp hg
      obtain ⟨x, s6, -, hg⟩ := gives_bind.mp hg
      obtain ⟨rfl, -⟩ := gives_pure.mp hg
      exact (if_neg hstates).symm

/-- The innermost control is gone even when it cannot be lowered. -/
theorem pop_yields : Yields (pop : Build α Unit) s
    (fun _ t => Poised s.block.context s.block.stack.dropLast s.block.depth t ∧ t.block.total = s.block.total)
    (Poised s.block.context s.block.stack.dropLast s.block.depth) := by
  refine yields_block_bind ?_
  split
  · rename_i hnone
    have hnil := getLast?_eq_none_iff.mp hnone
    exact yields_throw _ ⟨rfl, by rw [hnil]; rfl, rfl⟩
  · rename_i c hlast
    refine yields_modify_bind ((lower_still c).yields_bind (fun ys t hg ht => ?_) fun t ht => ?_)
    · replace ht := ht.block
      refine yields_of_gives (a := ()) (t := { t with block := { t.block with statements := t.block.statements ++ ys } })
        rfl ⟨⟨by rw [ht], by rw [ht], by rw [ht]⟩, ?_⟩
      have hweights : weights s.block.stack = weights s.block.stack.dropLast + weight c := by
        conv_lhs => rw [← dropLast_append_getLast? c hlast, weights_append]
        rfl
      change (t.block.statements ++ ys).length + weights t.block.stack = s.block.statements.length + weights s.block.stack
      rw [ht, length_append, lower_length hg, hweights]
      dsimp only
      omega
    · exact ⟨by rw [ht.block], by rw [ht.block], by rw [ht.block]⟩

theorem pop_poised : Ends (pop : Build α Unit) s (Poised s.block.context s.block.stack.dropLast s.block.depth) :=
  pop_yields.ends fun _ _ h => h.1

/-- As many controls are taken off as are asked for, or fewer when one cannot be lowered. -/
theorem popMany_yields : Yields (popMany n : Build α Unit) s
    (fun _ t => Poised s.block.context (s.block.stack.take (s.block.stack.length - n)) s.block.depth t ∧
      t.block.total = s.block.total)
    fun t => ∃ k ≤ n, Poised s.block.context (s.block.stack.take (s.block.stack.length - k)) s.block.depth t := by
  induction n generalizing s with
  | zero =>
    refine yields_of_gives (gives_pure.mpr ⟨rfl, rfl⟩) ⟨⟨rfl, ?_, rfl⟩, rfl⟩
    rw [Nat.sub_zero, take_length]
  | succ n ih =>
    have hpop := pop_yields (s := s)
    rw [dropLast_eq_take] at hpop
    refine (hpop.imp (fun _ _ => id) fun t ht => ⟨1, le_add_left 1 n, ht⟩).bind fun _ t ht => ?_
    have hmin (k : Nat) : min (min (s.block.stack.length - 1) s.block.stack.length - k) (s.block.stack.length - 1) =
        s.block.stack.length - (k + 1) := by omega
    refine ih.imp (fun _ u hu => ?_) fun u hu => ?_
    · rw [ht.1.context, ht.1.depth, ht.1.stack, take_take, length_take, hmin, ht.2] at hu
      exact hu
    · obtain ⟨k, hk, hu⟩ := hu
      rw [ht.1.context, ht.1.depth, ht.1.stack, take_take, length_take, hmin] at hu
      exact ⟨k + 1, Nat.add_le_add_right hk 1, hu⟩

/-- What is not being filled is lowered, or some of it when that fails. -/
theorem flush_yields (hs : Ordered s.block) : Yields flush s
    (fun _ t => Poised s.block.context (s.block.stack.take s.block.depth) s.block.depth t ∧ t.block.total = s.block.total)
    fun t => ∃ n, s.block.depth ≤ n ∧ Poised s.block.context (s.block.stack.take n) s.block.depth t := by
  refine yields_block_bind (popMany_yields.imp (fun _ t ht => ?_) fun t ht => ?_)
  · rwa [Nat.sub_sub_self hs.depth] at ht
  · obtain ⟨k, hk, ht⟩ := ht
    have hdepth := hs.depth
    exact ⟨s.block.stack.length - k, by omega, ht⟩

/-- The same construct, perhaps with other arms or more states. -/
inductive Grown : Control → Control → Prop where
  | same (c : Control) : Grown c c
  | switch (test : Value) (arms arms' : List Arm) : Grown (.switch test arms) (.switch test arms')
  | machine (number : Nat) (states more : List (String × List Statement)) :
      Grown (.machine number states) (.machine number (states ++ more))

theorem Grown.trans {c' c'' : Control} (h : Grown c c') (h' : Grown c' c'') : Grown c c'' := by
  cases h with
  | same => exact h'
  | switch test arms arms' =>
    cases h' with
    | same => exact .switch test arms arms'
    | switch _ _ arms'' => exact .switch test arms arms''
  | machine number states more =>
    cases h' with
    | same => exact .machine number states more
    | machine _ _ more' =>
      rw [append_assoc]
      exact .machine number states (more ++ more')

theorem grown_addArm (arm : Arm) (c : Control) : Grown c (addArm arm c) := by
  cases c with
  | switch test arms => exact .switch test arms (setArm arm arms)
  | _ => exact .same _

theorem grown_addState (name : String) (body : List Statement) (c : Control) : Grown c (addState name body c) := by
  cases c with
  | machine number states => exact .machine number states [(name, body)]
  | _ => exact .same _

/-- What calls keep of a builder, whatever their outcome. -/
structure Retains (b b' : Builder α) : Prop where
  context : b'.context = b.context
  depth : b.depth ≤ b'.depth
  statements : b.context ≠ .plain → b'.statements = b.statements
  kept : ∀ i < b.depth, b.context = .plain ∨ i + 1 < b.depth → b'.stack[i]? = b.stack[i]?
  grown : ∀ i < b.depth, ∀ c, b.stack[i]? = some c → ∃ c', b'.stack[i]? = some c' ∧ Grown c c'

theorem Retains.of_below (hcontext : b'.context = b.context) (hdepth : b.depth ≤ b'.depth)
    (hstatements : b.context ≠ .plain → b'.statements = b.statements) (h : ∀ i < b.depth, b'.stack[i]? = b.stack[i]?) :
    Retains b b' :=
  ⟨hcontext, hdepth, hstatements, fun i hi _ => h i hi, fun i hi c hc => ⟨c, (h i hi).trans hc, .same c⟩⟩

theorem Retains.refl (b : Builder α) : Retains b b := .of_below rfl le_rfl (fun _ => rfl) fun _ _ => rfl

theorem Retains.trans (h : Retains b b') (h' : Retains b' b'') : Retains b b'' := by
  refine ⟨h'.context.trans h.context, h.depth.trans h'.depth, fun hb => ?_, fun i hi hheld => ?_, fun i hi c hc => ?_⟩
  · have hb' : b'.context ≠ .plain := by rwa [h.context]
    exact (h'.statements hb').trans (h.statements hb)
  · have hheld' : b'.context = .plain ∨ i + 1 < b'.depth := by
      rw [h.context]
      exact hheld.imp_right fun hlt => hlt.trans_le h.depth
    exact (h'.kept i (hi.trans_le h.depth) hheld').trans (h.kept i hi hheld)
  · obtain ⟨c', hc', hgrown⟩ := h.grown i hi c hc
    obtain ⟨c'', hc'', hgrown'⟩ := h'.grown i (hi.trans_le h.depth) c' hc'
    exact ⟨c'', hc'', hgrown.trans hgrown'⟩

/-- The open constructs stay in order and those around are kept. -/
def Keeps (b b' : Builder α) : Prop := Ordered b → Ordered b' ∧ Retains b b'

theorem Keeps.refl (b : Builder α) : Keeps b b := fun h => ⟨h, .refl b⟩

theorem Keeps.trans (h : Keeps b b') (h' : Keeps b' b'') : Keeps b b'' :=
  fun hb => ⟨(h' (h hb).1).1, (h hb).2.trans (h' (h hb).1).2⟩

theorem Keeps.of_eq (h : b' = b) : Keeps b b' := h ▸ .refl b

/-- In a body, what stands above the constructs that are being filled may go. -/
theorem keeps_of_take (hcontext : b.context = .plain) (hn : b.depth ≤ n)
    (h : Poised b.context (b.stack.take n) b.depth t) : Keeps b t.block := by
  refine fun hb => ⟨⟨?_, ?_⟩, .of_below h.context h.depth.ge (fun hne => absurd hcontext hne) fun i hi => ?_⟩
  · rw [h.depth, h.stack, length_take]
    exact le_min hn hb.depth
  · rw [h.stack]
    exact hb.levelled.take n
  · rw [h.stack, getElem?_take_of_lt (hi.trans_le hn)]

/-- The frame of a construct that is filled one level deeper, at depth `d` and in the given context. -/
def Deeper (d : Nat) (context : Context) : Frame → Prop
  | .branch position _ _ | .otherwise position _ => position = d ∧ context = .plain
  | .switch => context = .switch
  | .machine position _ => position = d ∧ context = .machine
  | _ => False

/-- The frame of an arm or a state. -/
def Alongside (b : Builder α) : Frame → Prop
  | .arm position _ _ outer => b.context = .switch ∧ outer = b.statements ∧ ∀ p, position = some p → b.depth ≤ p + 1
  | .state position _ outer => b.context = .machine ∧ outer = b.statements ∧ b.depth ≤ position + 1
  | _ => False

/-- What opening a construct leads to: one that is filled a level deeper, or the body of an arm or a state. -/
inductive Begun (b : Builder α) (frame : Frame) (b' : Builder α) : Prop where
  | deeper (c : Control) : b.context = .plain → Deeper b.depth b'.context frame →
      b'.stack = b.stack.take b.depth ++ [c] → b'.depth = b.depth + 1 → (∀ d, level? c = some d → d = b.depth) →
      Begun b frame b'
  | alongside : Alongside b frame → b' = { b with context := .plain, statements := [] } → Begun b frame b'

theorem Begun.ordered (h : Begun b frame b') (hb : Ordered b) : Ordered b' := by
  cases h with
  | deeper c _ _ hstack hdepth hlevel =>
    refine ⟨?_, ?_⟩
    · rw [hstack, hdepth, length_append, hb.length_take]
      exact le_rfl
    · rw [hstack]
      refine (hb.levelled.take _).concat fun d hd => ?_
      rw [hlevel d hd, hb.length_take]
  | alongside _ hblock =>
    rw [hblock]
    exact ⟨hb.depth, hb.levelled⟩

/-- A construct was put above those that are being filled; `outer` are the statements around it. -/
structure Pushed (context : Context) (c : Control) (outer : List Statement) (b : Builder α) (t : State α) : Prop where
  before : b.context = .plain
  poised : Poised context (b.stack.take b.depth ++ [c]) (b.depth + 1) t
  total : outer.length + weights (b.stack.take b.depth) = b.total

theorem Pushed.begun (h : Pushed context c outer b t) (hframe : Deeper b.depth context frame)
    (hlevel : ∀ d, level? c = some d → d = b.depth) : Begun b frame t.block :=
  .deeper c h.before (h.poised.context.symm ▸ hframe) h.poised.stack h.poised.depth hlevel

theorem push_yields {c : Nat → Control} (hs : Ordered s.block) (hcontext : s.block.context = .plain) :
    Yields (push c) s (fun position t => position = s.block.depth ∧
        Poised .plain (s.block.stack.take s.block.depth ++ [c s.block.depth]) s.block.depth t ∧
        t.block.statements.length + weights (s.block.stack.take s.block.depth) = s.block.total)
      fun t => Keeps s.block t.block := by
  refine ((flush_yields hs).imp (fun _ _ => id) fun t ht => ?_).bind fun _ t ht => ?_
  · obtain ⟨n, hn, ht⟩ := ht
    exact keeps_of_take hcontext hn ht
  · refine yields_block_bind (yields_modify_bind (yields_of_gives (gives_pure.mpr ⟨rfl, rfl⟩) ⟨?_, ?_, ?_⟩))
    · rw [ht.1.stack, hs.length_take]
    · refine ⟨ht.1.context.trans hcontext, ?_, ht.1.depth⟩
      change t.block.stack ++ [c t.block.depth] = _
      rw [ht.1.stack, ht.1.depth]
    · rw [← ht.2, total, ht.1.stack]

theorem exists_gives_condition_iff {cond : Operand} {v : Value} :
    (∃ t, Gives (condition cond) s v t) ↔ cond.cast = .ok v := by
  constructor
  · rintro ⟨t, hg⟩
    exact gives_condition_cast hg
  · intro hcast
    have hstart {t : State α} (h : Gives (if (v.shape s.arenas).isSigned then do
        Build.warn signedCondition
        return v else return v) s v t) : Gives (condition cond) s v t :=
      gives_bind.mpr ⟨v, s, gives_raise.mpr ⟨hcast, rfl⟩, gives_bind.mpr ⟨s.arenas, s, gives_arenas.mpr ⟨rfl, rfl⟩, h⟩⟩
    by_cases hsigned : (v.shape s.arenas).isSigned = true
    · exact ⟨_, hstart (gives_ite.mpr (.inl ⟨hsigned, gives_bind.mpr ⟨(), _, gives_modify.mpr rfl, gives_pure.mpr ⟨rfl, rfl⟩⟩⟩))⟩
    · exact ⟨s, hstart (gives_ite.mpr (.inr ⟨hsigned, gives_pure.mpr ⟨rfl, rfl⟩⟩))⟩

theorem openIf_yields (hs : Ordered s.block) (cond : Operand) : Yields (openIf cond) s
    (fun frame t => ∃ v outer, cond.cast = .ok v ∧ frame = .branch s.block.depth v outer ∧
      Pushed .plain (.chain s.block.depth [] []) outer s.block t) fun t => Keeps s.block t.block := by
  refine yields_required (fun hcontext => ?_) (.refl _)
  refine (still_of_reports (condition_reports cond)).yields_bind (fun v s1 hg h1 => ?_) fun t h => .of_eq h.block
  rw [← h1.block] at hs hcontext ⊢
  refine (push_yields hs hcontext).bind fun position s2 h2 => yields_modify_bind (yields_begin ?_)
  obtain ⟨rfl, hp, htotal⟩ := h2
  refine ⟨v, s2.block.statements, gives_condition_cast hg, rfl, hcontext, ?_, htotal⟩
  exact ⟨hp.context, hp.stack, congrArg (· + 1) hp.depth⟩

/-- The innermost construct is an if chain of this level, which takes one more branch. -/
structure Extended (c : Control) (b b' : Builder α) : Prop where
  before : b.context = .plain
  stack : b.stack = b.stack.take b.depth ++ [c]
  level : level? c = some b.depth
  block : b' = { b with depth := b.depth + 1, statements := [] }

theorem Extended.begun (h : Extended c b b') (hframe : Deeper b.depth .plain frame) : Begun b frame b' := by
  rw [h.block]
  refine .deeper c h.before (h.before.symm ▸ hframe) h.stack rfl fun d hd => ?_
  exact Option.some.inj (hd.symm.trans h.level)

/-- A chain of this level is innermost only at the place of its level. -/
theorem Ordered.last (h : Ordered b) (hstack : b.stack = base ++ [c]) (hlevel : level? c = some b.depth) :
    base.length = b.depth ∧ b.stack = b.stack.take b.depth ++ [c] := by
  have hlast : b.stack[base.length]? = some c := by
    rw [hstack]
    exact getElem?_concat_length
  have hdepth := h.levelled base.length c b.depth hlast hlevel
  refine ⟨hdepth.symm, ?_⟩
  rw [hdepth, hstack, take_left]

section

variable (hs : Ordered s.block)
include hs

theorem openElif_yields (cond : Operand) : Yields (openElif cond) s
    (fun frame t => ∃ v test tests bodies, cond.cast = .ok v ∧ frame = .branch s.block.depth v s.block.statements ∧
      Extended (.chain s.block.depth (test :: tests) bodies) s.block t.block) fun t => Keeps s.block t.block := by
  refine yields_required (fun hcontext => ?_) (.refl _)
  refine (still_of_reports (condition_reports cond)).yields_bind (fun v s1 hg h1 => yields_top_bind fun o htop => ?_)
    fun t h => .of_eq h.block
  rw [← h1.block] at hs hcontext ⊢
  split
  · rename_i position depth test tests bodies
    obtain ⟨-, base, hstack, rfl⟩ := top_inv htop
    refine yields_block_bind ?_
    split
    · exact yields_throw_bind (.refl _)
    · rename_i hdepth
      obtain rfl := not_not.mp hdepth
      obtain ⟨hlength, hstack⟩ := hs.last hstack rfl
      rw [hlength]
      exact yields_modify_bind (yields_begin
        ⟨v, test, tests, bodies, gives_condition_cast hg, rfl, hcontext, hstack, rfl, rfl⟩)
  · exact yields_throw _ (.refl _)

theorem openElse_yields : Yields openElse s
    (fun frame t => ∃ tests bodies, frame = .otherwise s.block.depth s.block.statements ∧
      Extended (.chain s.block.depth tests bodies) s.block t.block) fun t => Keeps s.block t.block := by
  refine yields_required (fun hcontext => yields_top_bind fun o htop => ?_) (.refl _)
  split
  · rename_i position depth tests bodies
    obtain ⟨-, base, hstack, rfl⟩ := top_inv htop
    refine yields_block_bind ?_
    split
    · exact yields_throw_bind (.refl _)
    · rename_i hdepth
      obtain rfl := not_not.mp hdepth
      obtain ⟨hlength, hstack⟩ := hs.last hstack rfl
      rw [hlength]
      exact yields_modify_bind (yields_begin ⟨tests, bodies, rfl, hcontext, hstack, rfl, rfl⟩)
  · exact yields_throw _ (.refl _)

theorem openSwitch_yields (test : Operand) : Yields (openSwitch test) s
    (fun frame t => frame = .switch ∧ ∃ v, Pushed .switch (.switch v []) t.block.statements s.block t)
    fun t => Keeps s.block t.block := by
  refine yields_required (fun hcontext => yields_raise_bind (fun v _ => ?_) (.refl _)) (.refl _)
  refine (push_yields hs hcontext).bind fun position t ht => yields_modify_bind (yields_modify_bind ?_)
  obtain ⟨-, hp, htotal⟩ := ht
  exact yields_of_gives (gives_pure.mpr ⟨rfl, rfl⟩) ⟨rfl, v, hcontext, ⟨rfl, hp.stack, congrArg (· + 1) hp.depth⟩, htotal⟩

theorem openCase_yields (patterns : List Operand) : Yields (openCase patterns) s
    (fun frame t => Alongside s.block frame ∧ t.block = { s.block with context := .plain, statements := [] })
    fun t => Keeps s.block t.block := by
  refine yields_required (fun hcontext => yields_top_bind fun o htop => ?_) (.refl _)
  split
  · obtain ⟨-, base, hstack, rfl⟩ := top_inv htop
    refine yields_arenas_bind ((still_of_reports (armPatterns_reports _ patterns)).yields_bind (fun kept t _ ht => ?_)
      fun t h => .of_eq h.block)
    rw [← ht.block] at hs hcontext hstack ⊢
    refine yields_modify_bind (yields_begin ⟨⟨hcontext, rfl, fun p hp => ?_⟩, rfl⟩)
    obtain rfl := Option.some.inj hp
    have hdepth := hs.depth
    rwa [hstack, length_append] at hdepth
  · exact yields_throw _ (.refl _)

theorem openDefault_yields : Yields openDefault s
    (fun frame t => Alongside s.block frame ∧ t.block = { s.block with context := .plain, statements := [] })
    fun t => Keeps s.block t.block := by
  refine yields_required (fun hcontext => yields_top_bind fun o htop => ?_) (.refl _)
  refine yields_modify_bind (yields_begin ⟨⟨hcontext, rfl, fun p hp => ?_⟩, rfl⟩)
  split at hp
  · obtain ⟨-, base, hstack, rfl⟩ := top_inv htop
    obtain rfl := Option.some.inj hp
    have hdepth := hs.depth
    rwa [hstack, length_append] at hdepth
  · cases hp

theorem opened_yields (c : Construct) : Yields c.opened s
    (fun frame t => Begun s.block frame t.block ∧ t.block.context ≠ .machine) fun t => Keeps s.block t.block := by
  have halongside {frame : Frame} {t : State α} (h : Alongside s.block frame ∧
      t.block = { s.block with context := .plain, statements := [] }) :
      Begun s.block frame t.block ∧ t.block.context ≠ .machine := by
    refine ⟨.alongside h.1 h.2, ?_⟩
    rw [h.2]
    exact Context.noConfusion
  have hextended {frame : Frame} {c : Control} {t : State α} (h : Extended c s.block t.block)
      (hframe : Deeper s.block.depth .plain frame) : Begun s.block frame t.block ∧ t.block.context ≠ .machine := by
    refine ⟨h.begun hframe, ?_⟩
    rw [h.block, h.before]
    decide
  cases c with
  | ifThen cond =>
    refine (openIf_yields hs cond).imp (fun frame t ht => ?_) fun _ => id
    obtain ⟨v, outer, -, rfl, hp⟩ := ht
    refine ⟨hp.begun ⟨rfl, rfl⟩ fun d hd => (Option.some.inj hd).symm, ?_⟩
    rw [hp.poised.context]
    decide
  | elifThen cond =>
    refine (openElif_yields hs cond).imp (fun frame t ht => ?_) fun _ => id
    obtain ⟨v, test, tests, bodies, -, rfl, h⟩ := ht
    exact hextended h ⟨rfl, rfl⟩
  | orElse =>
    refine (openElse_yields hs).imp (fun frame t ht => ?_) fun _ => id
    obtain ⟨tests, bodies, rfl, h⟩ := ht
    exact hextended h ⟨rfl, rfl⟩
  | switch test =>
    refine (openSwitch_yields hs test).imp (fun frame t ht => ?_) fun _ => id
    obtain ⟨rfl, v, hp⟩ := ht
    have hlevel (d : Nat) (hd : level? (.switch v []) = some d) : d = s.block.depth := by cases hd
    refine ⟨hp.begun rfl hlevel, ?_⟩
    rw [hp.poised.context]
    decide
  | case patterns => exact (openCase_yields hs patterns).imp (fun _ _ => halongside) fun _ => id
  | default => exact (openDefault_yields hs).imp (fun _ _ => halongside) fun _ => id
  | state name =>
    refine (openState_yields name).imp (fun frame t ht => ?_) fun t ht => ht ▸ .refl _
    obtain ⟨base, number, states, hcontext, hstack, -, rfl, rfl⟩ := ht
    have hdepth := hs.depth
    rw [hstack, length_append] at hdepth
    exact halongside ⟨⟨hcontext, rfl, hdepth⟩, rfl⟩

/-- A machine is entered above what was being filled. -/
theorem openMachine_yields (opts : MachineOptions) : Yields (openMachine opts) s
    (fun opened t => opened.1 = .machine s.block.depth opened.2 ∧
      Pushed .machine (.machine opened.2 []) t.block.statements s.block t) fun t => Keeps s.block t.block := by
  refine yields_openMachine (fun t ht => .of_eq ht.block) fun σ state hcontext _ => ?_
  -- The new machine and its name do not matter to the constructs.
  refine (flush_yields (s := s.created opts σ state) ⟨hs.depth, hs.levelled⟩).imp (fun _ t ht => ?_) fun t ht => ?_
  · obtain ⟨hp, htotal⟩ := ht
    have hstack : t.block.stack = s.block.stack.take s.block.depth := hp.stack
    refine ⟨by rw [hstack, hs.length_take], hcontext, ⟨rfl, ?_, congrArg (· + 1) hp.depth⟩, ?_⟩
    · exact congrArg (· ++ [_]) hstack
    · rw [← hstack]
      exact htotal
  · obtain ⟨n, hn, ht⟩ := ht
    exact keeps_of_take hcontext hn ht

end

theorem left_stack (frame : Frame) (b : Builder α) : (left frame b).stack = b.stack := by
  cases frame <;> rfl

theorem left_depth (frame : Frame) (b : Builder α) :
    (left frame b).depth ≤ b.depth ∧ b.depth ≤ (left frame b).depth + 1 := by
  cases frame <;> dsimp only [left] <;> omega

/-- The frames of arms and states, whose bodies are filled at the same depth. -/
def Flat : Frame → Prop
  | .arm _ _ _ _ | .state _ _ _ => True
  | _ => False

theorem Deeper.not_flat {d : Nat} (h : Deeper d context frame) : ¬ Flat frame := by
  cases frame with
  | arm => exact h.elim
  | state => exact h.elim
  | _ => exact id

theorem Alongside.flat (h : Alongside b frame) : Flat frame := by
  cases frame with
  | arm => trivial
  | state => trivial
  | _ => exact h.elim

/-- Where and how the end of a construct may change a control. -/
def Changes (position : Nat) (f : Control → Control) : Frame → Prop
  | .branch place _ _ | .otherwise place _ => position = place
  | .arm place _ _ _ => place = some position ∧ ∀ c, Grown c (f c)
  | .state place _ _ => position = place ∧ ∀ c, Grown c (f c)
  | _ => False

/-- What the end of a construct makes of a builder, whatever its outcome. -/
structure Settled (frame : Frame) (b b' : Builder α) : Prop where
  context : b'.context = (left frame b).context
  upper : b'.depth ≤ b.depth
  lower : b.depth ≤ b'.depth + 1
  flat : Flat frame → b'.depth = b.depth ∧ b'.statements = (left frame b).statements
  stack : ∃ n position f, b.depth ≤ n + 1 ∧ b'.depth ≤ n ∧ b'.stack = (b.stack.take n).modify position f ∧
    (∀ c, level? (f c) = level? c) ∧ (f = id ∨ Changes position f frame)

theorem Settled.ordered (h : Settled frame b b') (hb : Ordered b) : Ordered b' := by
  obtain ⟨n, position, f, -, hn, hstack, hlevel, -⟩ := h.stack
  refine ⟨?_, ?_⟩
  · rw [hstack, length_modify, length_take]
    exact le_min hn (h.upper.trans hb.depth)
  · rw [hstack]
    exact (hb.levelled.take n).modify hlevel position

/-- The construct is left, perhaps after some of what was open in it has been lowered. -/
theorem settled_left (hn : b.depth ≤ n) (h : Poised b.context (b.stack.take n) b.depth t) :
    Settled frame b (left frame t.block) := by
  obtain ⟨hupper, hlower⟩ := left_depth frame t.block
  rw [h.depth] at hupper hlower
  refine ⟨?_, hupper, hlower, fun hflat => ?_, n, 0, id, le_succ_of_le hn, hupper.trans hn, ?_, fun _ => rfl, .inl rfl⟩
  · cases frame with
    | branch => exact h.context
    | otherwise => exact h.context
    | _ => rfl
  · cases frame with
    | arm => exact ⟨h.depth, rfl⟩
    | state => exact ⟨h.depth, rfl⟩
    | _ => exact hflat.elim
  · rw [left_stack, h.stack, modify_id]

theorem settled_abandoned (frame : Frame) (s : State α) : Settled frame s.block (left frame s.block) := by
  refine settled_left (le_add_right s.block.depth s.block.stack.length) ⟨rfl, ?_, rfl⟩
  rw [take_of_length_le (le_add_left _ _)]

theorem endBody_yields (hs : Ordered s.block) (outer : List Statement) : Yields (endBody outer) s
    (fun _ t => Poised s.block.context (s.block.stack.take s.block.depth) s.block.depth t ∧ t.block.statements = outer)
    fun t => ∃ n, s.block.depth ≤ n ∧ Poised s.block.context (s.block.stack.take n) s.block.depth t := by
  refine (flush_yields hs).bind fun _ t ht => yields_block_bind (yields_modify_bind ?_)
  exact yields_of_gives (gives_pure.mpr ⟨rfl, rfl⟩) ⟨⟨ht.1.context, ht.1.stack, ht.1.depth⟩, rfl⟩

theorem finishBody_yields (hs : Ordered s.block) (frame : Frame) (outer : List Statement) : Yields (finishBody frame outer) s
    (fun _ t => Poised s.block.context (s.block.stack.take s.block.depth) s.block.depth t ∧ t.block.statements = outer)
    fun t => Settled frame s.block t.block := by
  refine yields_rescue _ ((endBody_yields hs outer).imp (fun _ _ => id) fun t ht => ?_)
  obtain ⟨n, hn, ht⟩ := ht
  exact settled_left hn ht

theorem dropLast_modify (l : List Control) (position : Nat) (f : Control → Control) :
    (l.modify position f).dropLast = l.dropLast.modify position f := by
  refine ext_getElem? fun i => ?_
  simp only [getElem?_dropLast, getElem?_modify, length_modify]
  split <;> rfl

/-- The control that was being filled is taken off at the end of its construct. -/
theorem pop_settled (hb : Ordered b) (hn : b.depth ≤ n) (hflat : ¬ Flat frame)
    (h : Poised (left frame b).context ((b.stack.take n).modify position f) (b.depth - 1) s)
    (hlevel : ∀ c, level? (f c) = level? c) (hf : f = id ∨ Changes position f frame) :
    Ends pop s fun t => Settled frame b t.block ∧ t.block.depth = b.depth - 1 := by
  refine pop_poised.imp fun t ht => ?_
  rw [h.context, h.depth, h.stack, dropLast_modify, dropLast_eq_take, take_take, length_take] at ht
  have hdepth := hb.depth
  exact ⟨⟨ht.context, by rw [ht.depth]; omega, by rw [ht.depth]; omega, fun h => absurd h hflat,
    min (min n b.stack.length - 1) n, position, f, by omega, by rw [ht.depth]; omega, ht.stack, hlevel, hf⟩, ht.depth⟩

theorem close_yields (hs : Ordered s.block) (frame : Frame) : Yields (close frame) s
    (fun _ t => Settled frame s.block t.block ∧ (¬ Flat frame → t.block.depth = s.block.depth - 1))
    fun t => Settled frame s.block t.block := by
  have hpop {x : Build α Unit} {r : State α}
      (h : Ends x r fun t => Settled frame s.block t.block ∧ t.block.depth = s.block.depth - 1) : Yields x r
        (fun _ t => Settled frame s.block t.block ∧ (¬ Flat frame → t.block.depth = s.block.depth - 1))
        fun t => Settled frame s.block t.block :=
    h.yields.imp (fun _ _ h => ⟨h.1, fun _ => h.2⟩) fun _ h => h.1
  have hwhole : s.block.stack = (s.block.stack.take s.block.stack.length).modify 0 id := by
    rw [take_length, modify_id]
  cases frame with
  | branch position test outer =>
    refine (finishBody_yields hs _ outer).bind fun body t ht => yields_modify_bind ?_
    obtain ⟨ht, -⟩ := ht
    have hdepth : t.block.depth - 1 = s.block.depth - 1 := by rw [ht.depth]
    refine yields_modify ⟨⟨ht.context, ?_, ?_, False.elim, s.block.depth, position, addBranch test body,
      le_succ _, ?_, congrArg (List.modify · position _) ht.stack, level?_addBranch test body, .inr rfl⟩, fun _ => hdepth⟩
    · change t.block.depth - 1 ≤ s.block.depth
      omega
    · change s.block.depth ≤ t.block.depth - 1 + 1
      omega
    · change t.block.depth - 1 ≤ s.block.depth
      omega
  | otherwise position outer =>
    refine (finishBody_yields hs _ outer).bind fun body t ht => yields_modify_bind (yields_modify_bind (hpop ?_))
    obtain ⟨ht, -⟩ := ht
    refine pop_settled hs le_rfl id ⟨ht.context, congrArg (List.modify · position _) ht.stack, ?_⟩
      (level?_addOtherwise body) (.inr rfl)
    exact congrArg (· - 1) ht.depth
  | switch =>
    exact yields_modify_bind (hpop (pop_settled hs hs.depth id ⟨rfl, hwhole, rfl⟩ (fun _ => rfl) (.inl rfl)))
  | arm position patterns omitted outer =>
    refine (finishBody_yields hs _ outer).bind fun body t ht => yields_modify_bind ?_
    obtain ⟨ht, hstatements⟩ := ht
    have hsettled {f : Control → Control} (place : Nat) (hlevel : ∀ c, level? (f c) = level? c)
        (hf : f = id ∨ Changes place f (.arm position patterns omitted outer)) {b : Builder α}
        (hblock : b = { t.block with context := .switch, stack := t.block.stack.modify place f }) :
        Settled (.arm position patterns omitted outer) s.block b := by
      rw [hblock]
      exact ⟨rfl, ht.depth.le, ht.depth.ge.trans (le_succ _), fun _ => ⟨ht.depth, hstatements⟩, s.block.depth, place, f,
        le_succ _, ht.depth.le, congrArg (List.modify · place f) ht.stack, hlevel, hf⟩
    have hsame : Settled (.arm position patterns omitted outer) s.block { t.block with context := .switch } :=
      hsettled (f := id) 0 (fun _ => rfl) (.inl rfl) (by rw [modify_id])
    split
    · exact yields_of_gives (gives_pure.mpr ⟨rfl, rfl⟩) ⟨hsame, fun h => absurd trivial h⟩
    · cases position with
      | some place =>
        refine yields_modify ⟨hsettled place (level?_addArm _) (.inr ⟨rfl, grown_addArm _⟩) rfl, ?_⟩
        exact fun h => absurd trivial h
      | none => exact yields_throw _ hsame
  | machine position number =>
    refine yields_modify_bind (yields_block_bind ?_)
    have hleft : Ends pop { s with block := left (.machine position number) s.block } fun t =>
        Settled (.machine position number) s.block t.block ∧ t.block.depth = s.block.depth - 1 :=
      pop_settled hs hs.depth id ⟨rfl, hwhole, rfl⟩ (fun _ => rfl) (.inl rfl)
    split
    · refine yields_get_bind ?_
      split
      · exact yields_throw _ (settled_abandoned (.machine position number) s)
      · exact hpop hleft
    · exact hpop hleft
  | state position name outer =>
    refine (finishBody_yields hs _ outer).bind fun body t ht => yields_modify_bind (yields_modify ?_)
    obtain ⟨ht, hstatements⟩ := ht
    exact ⟨⟨rfl, ht.depth.le, ht.depth.ge.trans (le_succ _), fun _ => ⟨ht.depth, hstatements⟩, s.block.depth, position,
      addState name body, le_succ _, ht.depth.le, congrArg (List.modify · position _) ht.stack, level?_addState name body,
      .inr ⟨rfl, grown_addState name body⟩⟩, fun h => absurd trivial h⟩

theorem Settled.getElem? (h : Settled frame b b') : ∃ position f, (f = id ∨ Changes position f frame) ∧
    ∀ i, i < b'.depth ∨ i + 1 < b.depth → b'.stack[i]? = b.stack[i]?.map fun c => if position = i then f c else c := by
  obtain ⟨n, position, f, hn, hn', hstack, -, hf⟩ := h.stack
  refine ⟨position, f, hf, fun i hi => ?_⟩
  rw [hstack, getElem?_modify, getElem?_take_of_lt (by omega)]
  rfl

theorem map_changed {i : Nat} (o : Option Control) (h : f = id ∨ position ≠ i) :
    (o.map fun c => if position = i then f c else c) = o := by
  rcases h with rfl | hne
  · simp only [id, ite_self, Option.map_id']
  · simp only [if_neg hne, Option.map_id']

/-- A construct keeps what is around it because its body does. -/
theorem Begun.retains {b2 b3 : Builder α} (hb : Ordered b) (h : Begun b frame b1) (hbody : Retains b1 b2)
    (hend : Settled frame b2 b3) : Retains b b3 := by
  obtain ⟨position, f, hf, hget⟩ := hend.getElem?
  have hlower := hend.lower
  have hdepth := hbody.depth
  cases h with
  | deeper c hcontext hframe hstack hdepth1 _ =>
    have hleft : (left frame b2).context = .plain ∧ (f = id ∨ position = b.depth) := by
      rw [← hbody.context] at hframe
      cases frame with
      | branch | otherwise => exact ⟨hframe.2, hf.imp_right fun h => h.trans hframe.1⟩
      | switch | machine => exact ⟨rfl, hf.imp_right False.elim⟩
      | _ => exact hframe.elim
    refine .of_below ((hend.context.trans hleft.1).trans hcontext.symm) (by omega) (fun hne => absurd hcontext hne) fun i hi => ?_
    calc b3.stack[i]? = b2.stack[i]? := by
          rw [hget i (.inr (by omega)), map_changed _ (hleft.2.imp_right fun h => by omega)]
      _ = b1.stack[i]? := hbody.kept i (by omega) (.inr (by omega))
      _ = b.stack[i]? := by
          rw [hstack, getElem?_append_left (by rw [hb.length_take]; exact hi), getElem?_take_of_lt hi]
  | alongside hframe hblock =>
    subst hblock
    have hleft : (left frame b2).context = b.context ∧ (left frame b2).statements = b.statements ∧
        b.context ≠ .plain ∧ (f = id ∨ b.depth ≤ position + 1 ∧ ∀ c, Grown c (f c)) := by
      cases frame with
      | arm =>
        refine ⟨hframe.1.symm, hframe.2.1, by rw [hframe.1]; decide, hf.imp_right fun h => ?_⟩
        exact ⟨hframe.2.2 position h.1, h.2⟩
      | state =>
        refine ⟨hframe.1.symm, hframe.2.1, by rw [hframe.1]; decide, hf.imp_right fun h => ?_⟩
        exact ⟨h.1 ▸ hframe.2.2, h.2⟩
      | _ => exact hframe.elim
    obtain ⟨hcontext, hstatements, hne, hf⟩ := hleft
    obtain ⟨hdepth3, hstatements3⟩ := hend.flat hframe.flat
    change b.depth ≤ b2.depth at hdepth
    have hget' (i : Nat) (hi : i < b.depth) : b3.stack[i]? = b.stack[i]?.map fun c => if position = i then f c else c := by
      rw [hget i (.inl (by omega)), hbody.kept i hi (.inl rfl)]
    refine ⟨hend.context.trans hcontext, hdepth3 ▸ hdepth, fun _ => hstatements3.trans hstatements, fun i hi hheld => ?_,
      fun i hi c hc => ⟨if position = i then f c else c, by rw [hget' i hi, hc]; rfl, ?_⟩⟩
    · rw [hget' i hi, map_changed _ (hf.imp_right fun h => ?_)]
      have hlt := hheld.resolve_left hne
      omega
    · rcases hf with rfl | hf
      · rw [id, ite_self]
        exact .same c
      · split
        · exact hf.2 c
        · exact .same c

/-- What every call does to a builder, whatever its outcome. -/
structure Stays (s t : State α) : Prop extends Rooted s t where
  keeps : Keeps s.block t.block

theorem Stays.isPath : IsPath (Stays (α := α)) where
  refl s := ⟨Rooted.isPath.refl s, .refl _⟩
  trans h h' := ⟨Rooted.isPath.trans h.toRooted h'.toRooted, h.keeps.trans h'.keeps⟩

theorem Stays.standing (h : Stays s t) (hs : Standing s) : Standing t := hs.of_ordered h.toRooted (h.keeps hs.ordered).1

/-- The body and the end of a construct that was opened. -/
theorem Begun.ends {body : Build α Unit} (hb : Ordered b) (h : Begun b frame s1.block) (hbody : Moves Stays body) :
    Ends (do
      tryCatch body fun e => do
        abandon frame
        throw e
      close frame) s1 fun t => Keeps b t.block := by
  have hend {s2 : State α} {b3 : Builder α} (hs2 : Stays s1 s2) (hsettled : Settled frame s2.block b3) : Keeps b b3 := by
    obtain ⟨hordered, hretains⟩ := hs2.keeps (h.ordered hb)
    exact fun hb => ⟨hsettled.ordered hordered, h.retains hb hretains hsettled⟩
  have hrescued := yields_rescue frame (P := fun _ s2 => Stays s1 s2) (I := fun t => Keeps b t.block)
    ⟨fun _ s2 hg => hbody.gives hg, fun _ s2 hx => hend (hbody.ends hx) (settled_abandoned frame s2)⟩
  refine hrescued.ends_bind fun _ s2 hs2 => ?_
  have hclose := close_yields (hs2.keeps (h.ordered hb)).1 frame
  exact (hclose.ends fun _ _ h => h.1).imp fun t ht => hend hs2 ht

theorem block_stays (c : Construct) {body : Build α Unit} (hbody : Moves Stays body) : Moves Stays (inside c.opened body) := by
  refine fun s => ⟨Admits.inside (Admits.opened c) (hbody.imp fun _ _ h => h.toRooted) s, fun hs => ?_⟩
  have hends : Ends (inside c.opened body) s fun t => Keeps s.block t.block :=
    (opened_yields hs c).ends_bind fun frame s1 h1 => h1.1.ends hs hbody
  exact hends hs

theorem Pushed.begun_machine (h : Pushed .machine (.machine number []) outer b t) :
    Begun b (.machine b.depth number) t.block :=
  h.begun ⟨rfl, rfl⟩ fun d hd => by cases hd

theorem machine_stays (opts : MachineOptions) (hbody : ∀ number, Moves Stays (body number)) :
    Moves Stays (machine opts body) := by
  refine fun s => ⟨Admits.machine opts (fun number => (hbody number).imp fun _ _ h => h.toRooted) s, fun hs => ?_⟩
  have hends : Ends (machine opts body) s fun t => Keeps s.block t.block := by
    refine (openMachine_yields hs opts).ends_bind fun opened s1 h1 => ?_
    have hinside : Ends (inside (pure opened.1) (body opened.2)) s1 fun t => Keeps s.block t.block := by
      rw [h1.1]
      exact ends_bind_of_gives (gives_pure.mpr ⟨rfl, rfl⟩) (h1.2.begun_machine.ends hs (hbody opened.2))
    exact ends_bind hinside fun _ t ht => ends_pure _ (hinside.gives ht)
  exact hends hs

theorem addStatements_yields (hs : Ordered s.block) (domain : String) (stmts : List Statement) :
    Yields (addStatements domain stmts) s (fun _ t => s.block.context = .plain ∧
        Poised s.block.context (s.block.stack.take s.block.depth) s.block.depth t) fun t => Keeps s.block t.block := by
  refine yields_required (fun hcontext => ?_) (.refl _)
  refine ((flush_yields hs).imp (fun _ _ => id) fun t ht => ?_).bind fun _ t ht => ?_
  · obtain ⟨n, hn, ht⟩ := ht
    exact keeps_of_take hcontext hn ht
  · have hadd : Ends (addEach domain stmts) t (Idle t) := addEach_idle domain stmts t
    exact hadd.yields.imp (fun _ u hu => ⟨hcontext, hu.poised ht.1⟩) fun u hu =>
      keeps_of_take hcontext le_rfl (hu.poised ht.1)

theorem addStatements_stays (domain : String) (stmts : List Statement) : Moves Stays (addStatements domain stmts : Build α Unit) := by
  refine fun s => ⟨Admits.addStatements domain stmts s, fun hs => ?_⟩
  exact (addStatements_yields hs domain stmts).ends (fun _ t ht => keeps_of_take ht.1 le_rfl ht.2) hs

theorem Enrolled.stays (h : Enrolled s t) : Stays s t := by
  obtain ⟨_, _, _, rfl⟩ := h
  exact ⟨⟨rfl, rfl, fun _ => id⟩, fun hs => ⟨⟨hs.depth, hs.levelled⟩, .of_below rfl le_rfl (fun _ => rfl) fun _ _ => rfl⟩⟩

theorem act_stays (a : Act α) : Moves Stays a.build := by
  cases a with
  | add domain stmts => exact addStatements_stays domain stmts
  | submodule name sub => exact (addSubmodule_enrolled name sub).imp fun _ _ => Enrolled.stays
  | domains list => exact (addDomains_enrolled list).imp fun _ _ => Enrolled.stays

theorem issue_stays (spec : SignalSpec) : Moves Stays (Build.issue spec : Build α SignalId) :=
  (issue_still spec).imp fun _ _ h => ⟨h.toRooted, .of_eq h.block⟩

theorem stays_mentioned (s : State α) (number : Nat) (name : String) : Stays s (s.mentioned number name) :=
  ⟨⟨rfl, rfl, fun _ => id⟩, .refl _⟩

theorem next_stays (name : String) : Moves Stays (next name : Build α Unit) := by
  intro s
  cases howner : if s.block.context = .machine then none else innermostMachine? s.block.stack with
  | none =>
    refine ends_bind_of_gives (gives_block.mpr ⟨rfl, rfl⟩) ?_
    rw [howner]
    exact ends_throw _ (Stays.isPath.refl s)
  | some number =>
    unfold Ends
    rw [run_next name howner]
    exact Stays.isPath.trans (stays_mentioned s number name) (addStatements_stays _ _ _)

theorem ongoing_stays (number : Nat) (name : String) : Moves Stays (Build.ongoing number name : Build α Value) :=
  fun s => ends_of_eq (run_ongoing number name) (stays_mentioned s number name)

/-- Whatever becomes of a program, the builder stays in order and the constructs around it are kept. -/
theorem build_stays (p : Program α) : Moves Stays p.build := by
  induction p with
  | done => exact Stays.isPath.pure ()
  | look rest ih => exact fun s => ih s s
  | act a rest ih => exact Stays.isPath.bind (act_stays a) fun _ => ih
  | signal spec rest ih => exact Stays.isPath.bind (issue_stays spec) ih
  | block c body rest ihbody ih => exact Stays.isPath.bind (block_stays c ihbody) fun _ => ih
  | machine opts body rest ihbody ih => exact Stays.isPath.bind (machine_stays opts ihbody) ih
  | next name rest ih => exact Stays.isPath.bind (next_stays name) fun _ => ih
  | ongoing number name rest ih => exact Stays.isPath.bind (ongoing_stays number name) ih

/-- One thing done to a builder, whatever its outcome: a construct is opened, closed or abandoned, a program is run, or
something changes elsewhere. -/
inductive Step : State α → State α → Prop where
  | opened (c : Construct) (s : State α) : Step s (c.opened.run.run s).2
  | machine (opts : MachineOptions) (s : State α) : Step s ((openMachine opts).run.run s).2
  | closed (frame : Frame) (s : State α) : Step s ((close frame).run.run s).2
  | abandoned (frame : Frame) (s : State α) : Step s ((abandon frame).run.run s).2
  | called (p : Program α) (s : State α) : Step s (p.build.run.run s).2
  | elsewhere (s t : State α) : t.block = s.block → s.arenas.list.size ≤ t.arenas.list.size →
      s.machines.size ≤ t.machines.size → Step s t

/-- The states that a builder can be in before it is elaborated. -/
inductive Reached : State α → Prop where
  | created (s : State α) (arena : Nat) (reports : Bool) : s.block = .create arena reports →
      arena < s.arenas.list.size → Reached s
  | step {s t : State α} : Reached s → Step s t → Reached t

theorem openMachine_standing (hs : Standing s) (opts : MachineOptions) : Ends (openMachine opts) s Standing := by
  refine hs.of_ordered (Admits.openMachine opts s) ?_
  refine ((openMachine_yields hs.ordered opts).imp (fun _ _ => id) fun t ht => (ht hs.ordered).1).ends fun opened t ht => ?_
  exact ht.2.begun_machine.ordered hs.ordered

theorem opened_standing (hs : Standing s) (c : Construct) : Ends c.opened s Standing := by
  refine hs.of_ordered (Admits.opened c s) ?_
  refine ((opened_yields hs.ordered c).imp (fun _ _ => id) fun t ht => (ht hs.ordered).1).ends fun frame t ht => ?_
  exact ht.1.ordered hs.ordered

theorem close_standing (hs : Standing s) (frame : Frame) : Ends (close frame) s Standing := by
  refine hs.of_ordered (moves_close frame s) ?_
  have hclose : Ends (close frame) s fun t => Settled frame s.block t.block :=
    (close_yields hs.ordered frame).ends fun _ _ h => h.1
  exact hclose.ordered hs.ordered

theorem abandon_standing (hs : Standing s) (frame : Frame) : Ends (abandon frame) s Standing := by
  refine hs.of_ordered (moves_abandon frame s) ?_
  rw [run_abandon]
  exact (settled_abandoned frame s).ordered hs.ordered

theorem Step.standing (h : Step s t) (hs : Standing s) : Standing t := by
  cases h with
  | opened c => exact opened_standing hs c
  | machine opts => exact openMachine_standing hs opts
  | closed frame => exact close_standing hs frame
  | abandoned frame => exact abandon_standing hs frame
  | called p => exact (build_stays p s).standing hs
  | elsewhere _ _ hblock hsize _ =>
    refine ⟨?_, ?_, ?_⟩
    · rw [hblock]
      exact hs.arena.trans_le hsize
    · rw [hblock]
      exact hs.depth
    · rw [hblock]
      exact hs.levelled

theorem Reached.standing (h : Reached s) : Standing s := by
  induction h with
  | created s arena reports hblock harena =>
    refine ⟨?_, ?_, ?_⟩
    · rw [hblock]
      exact harena
    · rw [hblock]
      exact le_rfl
    · rw [hblock]
      exact levelled_nil
  | step _ hstep ih => exact hstep.standing ih

/-- What a program with the given events has done when it succeeds: it is back at its depth, and the machine that it is
directly in has gained the states that the events define. -/
structure Completes (es : List Event) (s t : State α) : Prop where
  size : s.machines.size ≤ t.machines.size
  context : t.block.context = s.block.context
  depth : t.block.depth = s.block.depth
  quiet : s.block.context ≠ .machine → ∀ n < s.machines.size, definitions n es = []
  machine : ∀ base number states, Poised .machine (base ++ [.machine number states]) (base.length + 1) s →
    number < s.machines.size →
    Poised .machine (base ++ [.machine number (states ++ definitions number es)]) (base.length + 1) t ∧
      ((states.map Prod.fst).Nodup → ((states ++ definitions number es).map Prod.fst).Nodup) ∧
      ∀ n < s.machines.size, n ≠ number → definitions n es = []

theorem Completes.trans {es' : List Event} {u : State α} (h : Completes es s t) (h' : Completes es' t u) :
    Completes (es ++ es') s u where
  size := h.size.trans h'.size
  context := h'.context.trans h.context
  depth := h'.depth.trans h.depth
  quiet hs n hn := by
    have ht : t.block.context ≠ .machine := by rwa [h.context]
    rw [definitions_append, h.quiet hs n hn, h'.quiet ht n (hn.trans_le h.size)]
    rfl
  machine base number states hs hnumber := by
    obtain ⟨ht, hnodup, hquiet⟩ := h.machine base number states hs hnumber
    obtain ⟨hu, hnodup', hquiet'⟩ := h'.machine base number _ ht (hnumber.trans_le h.size)
    rw [append_assoc, ← definitions_append] at hu hnodup'
    refine ⟨hu, fun hs => hnodup' (hnodup hs), fun n hn hne => ?_⟩
    rw [definitions_append, hquiet n hn hne, hquiet' n (hn.trans_le h.size) hne]
    rfl

/-- A call that leaves the constructs alone and defines nothing. -/
theorem completes_of_poised (hsize : s.machines.size ≤ t.machines.size)
    (hp : Poised s.block.context s.block.stack s.block.depth t) (hes : ∀ n, definitions n es = []) :
    Completes es s t where
  size := hsize
  context := hp.context
  depth := hp.depth
  quiet _ n _ := hes n
  machine base number states hs _ := by
    rw [hs.context, hs.stack, hs.depth] at hp
    rw [hes number, append_nil]
    exact ⟨hp, id, fun n _ _ => hes n⟩

theorem Idle.completes (h : Idle s t) : Completes [] s t :=
  completes_of_poised (congrArg Array.size h.machines).ge (h.poised ⟨rfl, rfl, rfl⟩) fun _ => rfl

theorem completes_of_ne (hsize : s.machines.size ≤ t.machines.size) (hs : s.block.context ≠ .machine)
    (hcontext : t.block.context = s.block.context) (hdepth : t.block.depth = s.block.depth)
    (hquiet : ∀ n < s.machines.size, definitions n es = []) : Completes es s t :=
  ⟨hsize, hcontext, hdepth, fun _ => hquiet, fun _ _ _ h _ => absurd h.context hs⟩

/-- After a body that is back at its depth, what is being filled is as before. -/
theorem Retains.take_depth (h : Retains b b') (hcontext : b.context = .plain) (hdepth : b'.depth = b.depth) :
    b'.stack.take b'.depth = b.stack.take b.depth := by
  refine ext_getElem? fun i => ?_
  rw [hdepth, getElem?_take, getElem?_take]
  split
  · rename_i hi
    exact h.kept i hi (.inl hcontext)
  · rfl

/-- What a construct with a body that is back at its depth leaves when it succeeds. -/
theorem Begun.closed (h : Begun b frame b1) (hb : Ordered b) (hbody : Keeps b1 s2.block)
    (hdepth : s2.block.depth = b1.depth) (hg : Gives (close frame) s2 u t) :
    t.block.context = b.context ∧ t.block.depth = b.depth := by
  obtain ⟨hordered, hretains⟩ := hbody (h.ordered hb)
  obtain ⟨hsettled, hclosed⟩ := (close_yields hordered frame).1 u t hg
  refine ⟨(h.retains hb hretains hsettled).context, ?_⟩
  cases h with
  | deeper c _ hframe _ hdepth1 _ =>
    rw [hclosed hframe.not_flat, hdepth, hdepth1, Nat.add_sub_cancel]
  | alongside hframe hblock =>
    rw [(hsettled.flat hframe.flat).1, hdepth, hblock]

theorem modify_concat (base : List Control) (c : Control) (f : Control → Control) :
    (base ++ [c]).modify base.length f = base ++ [f c] := by
  induction base with
  | nil => rfl
  | cons b base ih => exact congrArg (b :: ·) ih

/-- What the end of a machine does: every state that was mentioned must be defined, and the machine is taken off. -/
theorem run_close_machine (hs : Poised .machine (base ++ [.machine number states]) (base.length + 1) s) :
    (close (.machine base.length number)).run.run s =
      ((undefinedState? (s.machines.getD number Inhabited.default) states).elim pop fun name =>
        throw (.design (.name (.stateUndefined name))) : Build α Unit).run.run
        { s with block := { s.block with depth := s.block.depth - 1, context := .plain } } := by
  have hcontrol : s.block.stack[base.length]? = some (.machine number states) := by
    rw [hs.stack]
    exact getElem?_concat_length
  have habandon : Gives (abandon (.machine base.length number)) s ()
      { s with block := { s.block with depth := s.block.depth - 1, context := .plain } } := rfl
  refine (run_bind_of_gives habandon).trans ?_
  refine (run_bind_of_gives (gives_block.mpr ⟨rfl, rfl⟩)).trans ?_
  dsimp only
  rw [hcontrol]
  refine (run_bind_of_gives (gives_read.mpr ⟨rfl, rfl⟩)).trans ?_
  cases undefinedState? (s.machines.getD number Inhabited.default) states with
  | some => rfl
  | none => rfl

theorem close_machine (hs : Poised .machine (base ++ [.machine number states]) (base.length + 1) s)
    (hg : Gives (close (.machine base.length number)) s u t) :
    undefinedState? (s.machines.getD number Inhabited.default) states = none ∧
      Gives pop { s with block := { s.block with depth := s.block.depth - 1, context := .plain } } u t := by
  have hrun := (run_close_machine hs).symm.trans hg
  cases hdefined : undefinedState? (s.machines.getD number Inhabited.default) states with
  | some =>
    rw [hdefined, Option.elim_some] at hrun
    exact absurd (gives_run.mpr hrun) not_gives_throw
  | none =>
    rw [hdefined, Option.elim_none] at hrun
    exact ⟨rfl, hrun⟩

theorem openMachine_opens (hs : Standing s) (hg : Gives (openMachine opts) s (frame, number) t) :
    frame = .machine s.block.depth number ∧
      Poised .machine (s.block.stack.take s.block.depth ++ [.machine number []]) (s.block.depth + 1) t := by
  obtain ⟨hframe, hp⟩ := (openMachine_yields hs.ordered opts).1 (frame, number) t hg
  exact ⟨hframe, hp.poised⟩

theorem machine_inv (hg : Gives (machine opts body) s number t) :
    ∃ frame s1 s2, Gives (openMachine opts) s (frame, number) s1 ∧ Gives (body number) s1 () s2 ∧
      Gives (close frame) s2 () t := by
  obtain ⟨⟨frame, number'⟩, s1, hopen, hrest⟩ := gives_bind.mp hg
  obtain ⟨u, hinside, rfl⟩ := gives_bind_pure.mp hrest
  obtain ⟨frame', s3, s4, hframe, hbody, hclose⟩ := inside_inv hinside
  obtain ⟨rfl, rfl⟩ := gives_pure.mp hframe
  exact ⟨frame, s1, s4, hopen, hbody, hclose⟩

/-- The end of a state adds it to its machine. -/
theorem close_state (hs : Ordered s.block) (hg : Gives (close (.state position name outer)) s u t) :
    ∃ body s1, Gives (endBody outer) s body s1 ∧
      Poised .machine ((s.block.stack.take s.block.depth).modify position (addState name body)) s.block.depth t := by
  obtain ⟨body, s1, hfinish, hg⟩ := gives_bind.mp hg
  have hend := rescue_inv hfinish
  obtain ⟨hs1, -⟩ := (endBody_yields hs outer).1 body s1 hend
  replace hg := gives_modify_bind.mp hg
  obtain rfl := gives_modify.mp hg
  exact ⟨body, s1, hend, rfl, congrArg (List.modify · position _) hs1.stack, hs1.depth⟩

/-- The states of a machine are added by the calls that define them. -/
theorem state_completes (hs : Standing s) (hopen : Gives (openState name) s frame s1) (hstays : Stays s1 s2)
    (hbody : Completes es s1 s2) (hclose : Gives (close frame) s2 u t) (hsize : s.machines.size ≤ s1.machines.size)
    (hsize' : s.machines.size ≤ t.machines.size)
    (hback : t.block.context = s.block.context ∧ t.block.depth = s.block.depth) :
    Completes (Construct.entry s.block (.state name) ++ (es ++ Construct.completion s.block frame s2 (.state name))) s t
      := by
  obtain ⟨base, number, states, hcontext, hstack, hfree, rfl, rfl⟩ := (openState_yields name).1 frame s1 hopen
  refine ⟨hsize', hback.1, hback.2, fun h => absurd hcontext h, fun base' number' states' h hnumber => ?_⟩
  obtain ⟨rfl, hlast⟩ := append_inj' (hstack.symm.trans h.stack) rfl
  cases hlast
  obtain ⟨hordered, hretains⟩ := hstays.keeps ⟨hs.depth, hs.levelled⟩
  obtain ⟨body, s3, hend, ht⟩ := close_state hordered hclose
  rw [hretains.take_depth rfl hbody.depth, hbody.depth] at ht
  change Poised .machine ((s.block.stack.take s.block.depth).modify base.length _) s.block.depth t at ht
  rw [h.depth, h.stack, take_of_length_le (by rw [length_append]; exact le_rfl), modify_concat] at ht
  have hevents : Construct.entry s.block (.state name) ++
      (es ++ Construct.completion s.block (.state base.length name s.block.statements) s2 (.state name)) =
      .entered number name :: (es ++ [.defined number name body]) := by
    unfold Construct.entry Construct.completion
    rw [hstack, innermostMachine?_concat]
    simp only [outer, Option.toList_some, map_cons, map_nil, flatMap_cons, flatMap_nil,
      afterwards_ok hend]
    rfl
  have hdefinitions (n : Nat) (hn : n < s.machines.size) :
      definitions n (Construct.entry s.block (.state name) ++
        (es ++ Construct.completion s.block (.state base.length name s.block.statements) s2 (.state name))) =
      if number = n then [(name, body)] else [] := by
    rw [hevents]
    change definitions n (es ++ [.defined number name body]) = _
    rw [definitions_append, hbody.quiet Context.noConfusion n (hn.trans_le hsize)]
    by_cases heq : number = n <;> simp [definitions, Event.definition?, heq]
  rw [hdefinitions number hnumber, if_pos rfl]
  refine ⟨ht, fun hnodup => ?_, fun n hn hne => (hdefinitions n hn).trans (if_neg (Ne.symm hne))⟩
  rw [map_append]
  exact hnodup.append (nodup_singleton _) (by simpa using hfree)

theorem block_completes {c : Construct} (hs : Standing s) (hopen : Gives c.opened s frame s1) (hstays : Stays s1 s2)
    (hbody : Completes es s1 s2) (hclose : Gives (close frame) s2 u t) :
    Completes (c.entry s.block ++ (es ++ c.completion s.block frame s2)) s t := by
  have hsize : s.machines.size ≤ s1.machines.size := ((opened_follows c).1 frame s1 hopen).size
  have hsize' : s.machines.size ≤ t.machines.size :=
    (hsize.trans hbody.size).trans (congrArg Array.size ((moves_close (R := Calm) frame).gives hclose).machines).ge
  obtain ⟨hbegun, hne⟩ := (opened_yields hs.ordered c).1 frame s1 hopen
  have hback := hbegun.closed hs.ordered hstays.keeps hbody.depth hclose
  cases c with
  | state => exact state_completes hs hopen hstays hbody hclose hsize hsize' hback
  | _ =>
    have hcontext := (required_inv hopen).1
    change Completes (es ++ []) s t
    rw [append_nil]
    refine completes_of_ne hsize' (by rw [hcontext]; decide) hback.1 hback.2 fun n hn => ?_
    exact hbody.quiet hne n (hn.trans_le hsize)

theorem machine_completes (hs : Standing s) (hopen : Gives (openMachine opts) s (frame, number) s1)
    (hstays : Stays s1 s2) (hbody : Completes es s1 s2) (hclose : Gives (close frame) s2 u t)
    (hsize : s.machines.size ≤ t.machines.size) : Completes (MachineOptions.entry opts number ++ es) s t := by
  obtain ⟨hframe, hp⟩ := (openMachine_yields hs.ordered opts).1 (frame, number) s1 hopen
  obtain rfl : frame = .machine s.block.depth number := hframe
  obtain ⟨hcontext, hdepth⟩ := hp.begun_machine.closed hs.ordered hstays.keeps hbody.depth hclose
  obtain ⟨state, hm⟩ := getElem?_openMachine hopen
  have hnumber := (Array.getElem?_eq_some_iff.mp hm).1
  obtain ⟨-, -, hquiet⟩ := hbody.machine (s.block.stack.take s.block.depth) number [] (by
    rw [length_take_depth hs]
    exact hp.poised) hnumber
  refine completes_of_ne hsize (by rw [hp.before]; decide) hcontext hdepth fun n hn => ?_
  obtain ⟨-, rfl, -⟩ := openMachine_inv hopen
  rw [definitions_append, definitions_machineEntry, hquiet n (hn.trans hnumber) (Nat.ne_of_lt hn)]
  rfl

theorem addStatements_completes {domain : String} {stmts : List Statement} (hs : Standing s)
    (hg : Gives (addStatements domain stmts) s u t) (hes : ∀ n, definitions n es = []) : Completes es s t := by
  obtain ⟨hcontext, hp⟩ := (addStatements_yields hs.ordered domain stmts).1 u t hg
  exact completes_of_ne (congrArg Array.size ((addStatements_calm domain stmts).gives hg).machines).ge
    (by rw [hcontext]; decide) hp.context hp.depth fun n _ => hes n

theorem act_completes {a : Act α} (hs : Standing s) (hg : Gives a.build s u t) : Completes [] s t := by
  cases a with
  | add => exact addStatements_completes hs hg fun _ => rfl
  | submodule name sub => exact ((addSubmodule_enrolled name sub).gives hg).idle.completes
  | domains list => exact ((addDomains_enrolled list).gives hg).idle.completes

theorem mentioned_completes (hes : ∀ n, definitions n es = []) : Completes es s (s.mentioned number name) :=
  completes_of_poised (Array.size_setIfInBounds ..).ge ⟨rfl, rfl, rfl⟩ hes

theorem next_completes (hs : Standing s) (hg : Gives (next name) s u t) : Completes (transition name s) s t := by
  cases howner : if s.block.context = .machine then none else innermostMachine? s.block.stack with
  | none =>
    replace hg := gives_block_bind.mp hg
    rw [howner] at hg
    exact absurd hg not_gives_throw
  | some number =>
    have hadd := gives_run.mpr ((run_next name howner).symm.trans hg)
    have hevents : transition name s = [] ++ [.transition number name (added? name s)] := by
      unfold transition
      rw [howner]
      rfl
    rw [hevents]
    exact (mentioned_completes fun _ => rfl).trans (addStatements_completes (hs.mentioned number name) hadd fun _ => rfl)

/-- A program that succeeds leaves the constructs around it as they were, but for the states it defines. -/
theorem build_completes (p : Program α) (hs : Standing s) (hg : Gives p.build s u t) : Completes (p.events s) s t := by
  induction p generalizing s t with
  | done =>
    obtain ⟨-, rfl⟩ := gives_pure.mp hg
    exact (Idle.isPath.refl s).completes
  | look rest ih =>
    replace hg := gives_get_bind.mp hg
    exact ih s hs hg
  | act a rest ih =>
    obtain ⟨v, s1, hact, hg⟩ := gives_bind.mp hg
    unfold Program.events
    rw [afterwards_ok hact]
    exact (act_completes hs hact).trans (ih (((act_stays a).gives hact).standing hs) hg)
  | signal spec rest ih =>
    obtain ⟨id, s1, hissue, hg⟩ := gives_bind.mp hg
    unfold Program.events
    rw [afterwards_ok hissue]
    exact ((issue_still spec).gives hissue).idle.completes.trans (ih id (((issue_stays spec).gives hissue).standing hs) hg)
  | block c body rest ihbody ih =>
    obtain ⟨v, s1, hinside, hg⟩ := gives_bind.mp hg
    obtain ⟨frame, s2, s3, hopen, hbody, hclose⟩ := inside_inv hinside
    have hs2 := (opened_standing hs c).gives hopen
    unfold Program.events
    rw [afterwards_ok hopen, afterwards_ok hbody, afterwards_ok hinside]
    exact (block_completes hs hopen ((build_stays body).gives hbody) (ihbody hs2 hbody) hclose).trans
      (ih (((block_stays c (build_stays body)).gives hinside).standing hs) hg)
  | machine opts body rest ihbody ih =>
    obtain ⟨number, s1, hmachine, hg⟩ := gives_bind.mp hg
    obtain ⟨frame, s2, s3, hopen, hbody, hclose⟩ := machine_inv hmachine
    have hs2 := (openMachine_standing hs opts).gives hopen
    have hsize := ((machine_follows fun n s => build_follows (body n) s).gives hmachine).size
    unfold Program.events machineEvents
    rw [afterwards_ok hopen, afterwards_ok hmachine]
    exact (machine_completes hs hopen ((build_stays (body number)).gives hbody) (ihbody number hs2 hbody) hclose hsize).trans
      (ih number (((machine_stays opts fun n => build_stays (body n)).gives hmachine).standing hs) hg)
  | next name rest ih =>
    obtain ⟨v, s1, hnext, hg⟩ := gives_bind.mp hg
    unfold Program.events
    rw [afterwards_ok hnext]
    exact (next_completes hs hnext).trans (ih (((next_stays name).gives hnext).standing hs) hg)
  | ongoing number name rest ih =>
    obtain ⟨v, s1, hongoing, hg⟩ := gives_bind.mp hg
    unfold Program.events
    rw [afterwards_ok hongoing]
    obtain ⟨-, rfl⟩ := Prod.mk.inj ((run_ongoing number name).symm.trans hongoing)
    have hasked : Completes [.asked number name v] s (s.mentioned number name) := mentioned_completes fun _ => rfl
    exact hasked.trans (ih v (hs.mentioned number name) hg)

end Rtl.Builder
