import Mathlib
import Rtl.Proofs.Nesting
import Rtl.Proofs.Persistence
import Rtl.Proofs.Selected

/-!
# What failed constructs leave behind

An attempt makes builder calls, may catch the design errors that some of them raise, and goes on. A construct whose
body fails is abandoned, but it stays among the open constructs, with the arms or states that were completed, and so
does everything that its body had not closed. All of that is lowered later, into the block around it. An if chain that
failed may even be extended: by an else branch always, by a condition once one of its branches has been completed. The
statements of a block are counted before they exist, one for each control that is lowered to one, so that what a
failure adds can be read off the open constructs.
-/
namespace Rtl.Builder

open List

variable {α : Type} {s t : State α} {frame : Frame}
variable {u : Unit} {c : Control} {cond : Operand}
variable {e : Failure} {s1 s2 : State α} {base stack : List Control} {opts : MachineOptions}

/-- Builder calls one after the other, some of them with their design errors caught. What comes next may depend on
what a call returned, on what was caught and on anything that can be seen of the builder. -/
inductive Attempt (α : Type) where
  | done
  | look (rest : State α → Attempt α)
  | act (a : Act α) (rest : Attempt α)
  | signal (spec : SignalSpec) (rest : SignalId → Attempt α)
  | block (c : Construct) (body rest : Attempt α)
  | machine (opts : MachineOptions) (body rest : Nat → Attempt α)
  | next (name : String) (rest : Attempt α)
  | ongoing (number : Nat) (name : String) (rest : Value → Attempt α)
  | recover (tried : Attempt α) (rest : Option Failure → Attempt α)

/-- A design error is caught, any other failure goes on. -/
def caught (x : Build α Unit) : Build α (Option Failure) :=
  tryCatch (do
    x
    return none) fun e => if e.isDesign then return some e else throw e

/-- The calls of an attempt. -/
def Attempt.build : Attempt α → Build α Unit
  | .done => pure ()
  | .look rest => do (rest (← get)).build
  | .act a rest => do
    a.build
    rest.build
  | .signal spec rest => do (rest (← Build.issue spec)).build
  | .block c body rest => do
    inside c.opened body.build
    rest.build
  | .machine opts body rest => do (rest (← Builder.machine opts fun number => (body number).build)).build
  | .next name rest => do
    Builder.next name
    rest.build
  | .ongoing number name rest => do (rest (← Build.ongoing number name)).build
  | .recover tried rest => do (rest (← caught tried.build)).build

theorem caught_stays {x : Build α Unit} (hx : Moves Stays x) : Moves Stays (caught x) :=
  Stays.isPath.tryCatch (Stays.isPath.bind hx fun _ => Stays.isPath.pure none) fun e =>
    (Stays.isPath.pure (some e)).ite (Stays.isPath.throw e)

/-- Whatever becomes of an attempt, the builder stays in order and the constructs around it are kept. -/
theorem attempt_stays (p : Attempt α) : Moves Stays p.build := by
  induction p with
  | done => exact Stays.isPath.pure ()
  | look rest ih => exact fun s => ih s s
  | act a rest ih => exact Stays.isPath.bind (act_stays a) fun _ => ih
  | signal spec rest ih => exact Stays.isPath.bind (issue_stays spec) ih
  | block c body rest ihbody ih => exact Stays.isPath.bind (block_stays c ihbody) fun _ => ih
  | machine opts body rest ihbody ih => exact Stays.isPath.bind (machine_stays opts ihbody) ih
  | next name rest ih => exact Stays.isPath.bind (next_stays name) fun _ => ih
  | ongoing number name rest ih => exact Stays.isPath.bind (ongoing_stays number name) ih
  | recover tried rest ihtried ih => exact Stays.isPath.bind (caught_stays ihtried) ih

theorem finish_length (hg : Gives finish s u t) : t.block.statements.length = s.block.total := by
  replace hg := gives_block_bind.mp hg
  obtain ⟨ht, htotal⟩ := popMany_yields.1 u t hg
  have hstack := ht.stack
  rw [Nat.sub_self, take_zero] at hstack
  rw [← htotal, total, hstack]
  rfl

theorem elaborated_length {σ : Arenas} {out : Body} (hg : Gives finish s u t) (hbody : t.block.body σ = .ok out) :
    out.statements.length = s.block.total := by
  have hfill := Builder.body_statements hbody
  rw [← finish_length hg]
  exact (Statement.gives_statements (r := Statement.sampleFiller σ syncDomain) gives_none (gives_of_ok hfill)).length_eq

/-- A construct that may be opened. -/
def Accepts (opened : Build α Frame) (s : State α) : Prop := ∃ frame t, Gives opened s frame t

theorem gives_requireContext {wanted : Context} (construct : String) (h : s.block.context = wanted) :
    Gives (requireContext construct wanted) s () s :=
  gives_bind.mpr ⟨s.block, s, gives_block.mpr ⟨rfl, rfl⟩, gives_ite.mpr (.inl ⟨h, gives_pure.mpr ⟨rfl, rfl⟩⟩)⟩

theorem gives_top (h : s.block.stack = base ++ [c]) : Gives top? s (some (base.length, c)) s := by
  refine gives_bind.mpr ⟨s.block, s, gives_block.mpr ⟨rfl, rfl⟩, gives_pure.mpr ⟨?_, rfl⟩⟩
  rw [h, getLast?_concat, length_append]
  rfl

/-- A condition is added to the chain of this level that is innermost and has a completed branch. -/
theorem accepts_openElif_iff (hs : Ordered s.block) :
    Accepts (openElif cond) s ↔ s.block.context = .plain ∧ (∃ v, cond.cast = .ok v) ∧
      ∃ base test tests bodies, s.block.stack = base ++ [.chain s.block.depth (test :: tests) bodies] := by
  constructor
  · rintro ⟨frame, t, hg⟩
    obtain ⟨v, test, tests, bodies, hcast, -, hextended⟩ := (openElif_yields hs cond).1 frame t hg
    exact ⟨hextended.before, ⟨v, hcast⟩, _, test, tests, bodies, hextended.stack⟩
  · rintro ⟨hcontext, ⟨v, hcast⟩, base, test, tests, bodies, hstack⟩
    obtain ⟨s1, hcond⟩ := exists_gives_condition_iff (s := s).mpr hcast
    have hstill := ((condition_reports cond).gives hcond).still.block
    rw [← hstill] at hstack
    exact ⟨.branch base.length v s1.block.statements, _, gives_bind.mpr ⟨(), s, gives_requireContext _ hcontext,
      gives_bind.mpr ⟨v, s1, hcond, gives_bind.mpr ⟨_, s1, gives_top hstack,
      gives_bind.mpr ⟨s1.block, s1, gives_block.mpr ⟨rfl, rfl⟩, gives_ite.mpr (.inr ⟨not_not.mpr rfl, rfl⟩)⟩⟩⟩⟩⟩

/-- A last branch is added to the chain of this level that is innermost, whether or not a branch was completed. -/
theorem accepts_openElse_iff (hs : Ordered s.block) : Accepts openElse s ↔ s.block.context = .plain ∧
    ∃ base tests bodies, s.block.stack = base ++ [.chain s.block.depth tests bodies] := by
  constructor
  · rintro ⟨frame, t, hg⟩
    obtain ⟨tests, bodies, -, hextended⟩ := (openElse_yields hs).1 frame t hg
    exact ⟨hextended.before, _, tests, bodies, hextended.stack⟩
  · rintro ⟨hcontext, base, tests, bodies, hstack⟩
    exact ⟨.otherwise base.length s.block.statements, _, gives_bind.mpr ⟨(), s, gives_requireContext _ hcontext,
      gives_bind.mpr ⟨_, s, gives_top hstack, gives_bind.mpr ⟨s.block, s, gives_block.mpr ⟨rfl, rfl⟩,
      gives_ite.mpr (.inr ⟨not_not.mpr rfl, rfl⟩)⟩⟩⟩⟩

/-- The construct is opened, its body fails, and the failure leaves the construct. -/
def FailsInside (opened : Build α Frame) (body : Build α Unit) (s t : State α) : Prop :=
  ∃ frame s₁ e s₂, Gives opened s frame s₁ ∧ body.run.run s₁ = (.error e, s₂) ∧
    (inside opened body).run.run s = (.error e, t)

/-- The machine is opened, its body fails, and the failure leaves the machine. -/
def MachineFails (opts : MachineOptions) (body : Nat → Build α Unit) (s t : State α) : Prop :=
  ∃ frame number s₁ e s₂, Gives (openMachine opts) s (frame, number) s₁ ∧ (body number).run.run s₁ = (.error e, s₂) ∧
    (machine opts body).run.run s = (.error e, t)

/-- A body that fails is left where it failed. -/
theorem FailsInside.inv {opened : Build α Frame} {body : Build α Unit} (h : FailsInside opened body s t) :
    ∃ frame s1 e s2, Gives opened s frame s1 ∧ body.run.run s1 = (.error e, s2) ∧ t.block = left frame s2.block := by
  obtain ⟨frame, s1, e, s2, hopen, hbody, hrun⟩ := h
  cases ((run_bind_of_gives hopen).trans (run_bind_of_error (run_rescue hbody))).symm.trans hrun
  exact ⟨frame, s1, e, s2, hopen, hbody, rfl⟩

theorem MachineFails.inv {body : Nat → Build α Unit} (h : MachineFails opts body s t) :
    ∃ frame number s1 e s2, Gives (openMachine opts) s (frame, number) s1 ∧ (body number).run.run s1 = (.error e, s2) ∧
      t.block = left frame s2.block := by
  obtain ⟨frame, number, s1, e, s2, hopen, hbody, hrun⟩ := h
  cases (run_machine_of_error hopen hbody).symm.trans hrun
  exact ⟨frame, number, s1, e, s2, hopen, hbody, rfl⟩

/-- What stands on the stack of `t` above the place where a construct was opened in `s`. -/
def leftOpen (s t : State α) : List Control := t.block.stack.drop (s.block.depth + 1)

/-- What a failed construct leaves: itself as the control `c`, with what its body left open above it. It adds `added`
statements to those of the block, and what was left open adds its own. -/
structure Leaves (c : Control) (added : Nat) (s t : State α) : Prop where
  context : t.block.context = .plain
  depth : s.block.depth ≤ t.block.depth
  stack : t.block.stack = s.block.stack.take s.block.depth ++ c :: leftOpen s t
  total : t.block.total = s.block.total + added + weights (leftOpen s t)
  /-- A condition can be added to a chain with a completed branch, if nothing was left open in it. -/
  elifThen : t.block.depth = s.block.depth → ∀ cond, Accepts (openElif cond) t ↔
    (∃ v, cond.cast = .ok v) ∧ leftOpen s t = [] ∧ ∃ test tests bodies, c = .chain s.block.depth (test :: tests) bodies
  /-- A last branch can be added to any chain, if nothing was left open in it. -/
  orElse : t.block.depth = s.block.depth → (Accepts openElse t ↔
    leftOpen s t = [] ∧ ∃ tests bodies, c = .chain s.block.depth tests bodies)

/-- A chain of the level of its place is innermost only if nothing stands above that place. -/
theorem Levelled.last_iff {left : List Control} {c' : Control} (h : Levelled stack)
    (hstack : stack = base ++ c :: left) (hlevel : level? c' = some base.length) :
    (∃ base', stack = base' ++ [c']) ↔ left = [] ∧ c = c' := by
  constructor
  · rintro ⟨base', hlast⟩
    have hplace : stack[base'.length]? = some c' := by
      rw [hlast]
      exact getElem?_concat_length
    have hlength := h base'.length c' base.length hplace hlevel
    obtain ⟨-, hrest⟩ := append_inj (hstack.symm.trans hlast) hlength
    obtain ⟨rfl, rfl⟩ := List.cons.inj hrest
    exact ⟨rfl, rfl⟩
  · rintro ⟨rfl, rfl⟩
    exact ⟨base, hstack⟩

theorem stack_eq_of_below {stack' : List Control} {d : Nat} (hbelow : ∀ i < d, stack'[i]? = stack[i]?)
    (hplace : stack'[d]? = some c) : stack' = stack.take d ++ c :: stack'.drop (d + 1) := by
  obtain ⟨hlt, hget⟩ := List.getElem?_eq_some_iff.mp hplace
  have htake : stack'.take d = stack.take d := by
    refine List.ext_getElem? fun i => ?_
    rw [List.getElem?_take, List.getElem?_take]
    split
    · rename_i hi
      exact hbelow i hi
    · rfl
  calc stack' = stack'.take d ++ stack'.drop d := (List.take_append_drop d stack').symm
    _ = stack.take d ++ c :: stack'.drop (d + 1) := by rw [htake, List.drop_eq_getElem_cons hlt, hget]

section Failed

variable (p : Attempt α) (body : Nat → Attempt α) (hs : Ordered s.block)
include hs

theorem leaves_of_retains {added : Nat} (ht : Ordered t.block)
    (hcontext : s.block.context = .plain) (h : Retains s.block t.block)
    (hplace : t.block.stack[s.block.depth]? = some c)
    (htotal : t.block.statements.length + weights (s.block.stack.take s.block.depth) + weight c = s.block.total + added)
    : Leaves c added s t := by
  have hstack : t.block.stack = s.block.stack.take s.block.depth ++ c :: leftOpen s t :=
    stack_eq_of_below (fun i hi => h.kept i hi (.inl hcontext)) hplace
  have hlast {c' : Control} (hlevel : level? c' = some s.block.depth) :
      (∃ base, t.block.stack = base ++ [c']) ↔ leftOpen s t = [] ∧ c = c' :=
    ht.levelled.last_iff hstack (hlevel.trans (congrArg some hs.length_take.symm))
  refine ⟨h.context.trans hcontext, h.depth, hstack, ?_, fun hdepth cond => ?_, fun hdepth => ?_⟩
  · rw [total, hstack, weights_append, weights_cons]
    omega
  · rw [accepts_openElif_iff ht, hdepth]
    constructor
    · rintro ⟨-, hcast, base, test, tests, bodies, htop⟩
      obtain ⟨hleft, hc⟩ := (hlast rfl).mp ⟨base, htop⟩
      exact ⟨hcast, hleft, test, tests, bodies, hc⟩
    · rintro ⟨hcast, hleft, test, tests, bodies, hc⟩
      obtain ⟨base, htop⟩ := (hlast rfl).mpr ⟨hleft, hc⟩
      exact ⟨h.context.trans hcontext, hcast, base, test, tests, bodies, htop⟩
  · rw [accepts_openElse_iff ht, hdepth]
    constructor
    · rintro ⟨-, base, tests, bodies, htop⟩
      obtain ⟨hleft, hc⟩ := (hlast rfl).mp ⟨base, htop⟩
      exact ⟨hleft, tests, bodies, hc⟩
    · rintro ⟨hleft, tests, bodies, hc⟩
      obtain ⟨base, htop⟩ := (hlast rfl).mpr ⟨hleft, hc⟩
      exact ⟨h.context.trans hcontext, base, tests, bodies, htop⟩

/-- A construct that is filled one level deeper stays when its body fails; only a switch or a machine may have grown. -/
theorem failed_stays {context : Context} (hbegun : Begun s.block frame s1.block) (hcontext : s.block.context = .plain)
    (hp : Poised context (s.block.stack.take s.block.depth ++ [c]) (s.block.depth + 1) s1)
    (hbody : p.build.run.run s1 = (.error e, s2)) (ht : t.block = left frame s2.block) :
    ∃ c', Grown c c' ∧ (context = .plain → c' = c) ∧ (context ≠ .plain → s2.block.statements = s1.block.statements) ∧
      ∀ added, t.block.statements.length + weights (s.block.stack.take s.block.depth) + weight c' = s.block.total + added →
        Leaves c' added s t := by
  obtain ⟨hordered, hretains⟩ := ((attempt_stays p).ends hbody).keeps (hbegun.ordered hs)
  have hsettled := settled_abandoned frame s2
  rw [← ht] at hsettled
  have hlt : s.block.depth < s1.block.depth := by
    rw [hp.depth]
    exact Nat.lt_succ_self _
  have hplace : s1.block.stack[s.block.depth]? = some c := by
    rw [hp.stack, getElem?_append_right hs.length_take.le, hs.length_take, Nat.sub_self]
    rfl
  obtain ⟨c', hc', hgrown⟩ := hretains.grown s.block.depth hlt c hplace
  refine ⟨c', hgrown, fun hplain => ?_, fun hne => hretains.statements (by rwa [hp.context]), fun added htotal => ?_⟩
  · have hkept := hretains.kept s.block.depth hlt (.inl (hp.context.trans hplain))
    rw [hc', hplace] at hkept
    exact Option.some.inj hkept
  · refine leaves_of_retains hs (hsettled.ordered hordered) hcontext (hbegun.retains hs hretains hsettled) ?_ htotal
    rw [ht, left_stack, hc']

theorem failed_if (h : FailsInside (openIf cond) p.build s t) :
    Leaves (.chain s.block.depth [] []) 1 s t := by
  obtain ⟨frame, s1, e, s2, hopen, hbody, ht⟩ := h.inv
  obtain ⟨v, outer, -, rfl, hp⟩ := (openIf_yields hs cond).1 frame s1 hopen
  have hbegun : Begun s.block (.branch s.block.depth v outer) s1.block :=
    hp.begun ⟨rfl, rfl⟩ fun d hd => (Option.some.inj hd).symm
  obtain ⟨c, -, hc, -, hleaves⟩ := failed_stays p hs hbegun hp.before hp.poised hbody ht
  obtain rfl := hc rfl
  refine hleaves 1 ?_
  rw [ht]
  exact congrArg (· + 1) hp.total

/-- A chain that is extended by a branch whose body fails stays as it was. -/
theorem failed_extension (h : Extended c s.block s1.block)
    (hframe : Deeper s.block.depth .plain frame) (hbody : p.build.run.run s1 = (.error e, s2))
    (ht : t.block = left frame s2.block) (hstatements : t.block.statements = s.block.statements) : Leaves c 0 s t := by
  have hp : Poised .plain (s.block.stack.take s.block.depth ++ [c]) (s.block.depth + 1) s1 := by
    rw [← h.stack]
    exact ⟨by rw [h.block]; exact h.before, by rw [h.block], by rw [h.block]⟩
  obtain ⟨c', -, hc, -, hleaves⟩ := failed_stays p hs (h.begun hframe) h.before hp hbody ht
  obtain rfl := hc rfl
  refine hleaves 0 ?_
  have hweights := congrArg weights h.stack
  rw [weights_append, weights_cons] at hweights
  rw [hstatements, total, hweights, Nat.add_assoc]
  rfl

theorem failed_elif (h : FailsInside (openElif cond) p.build s t) :
    ∃ test tests bodies, Leaves (.chain s.block.depth (test :: tests) bodies) 0 s t := by
  obtain ⟨frame, s1, e, s2, hopen, hbody, ht⟩ := h.inv
  obtain ⟨v, test, tests, bodies, -, rfl, hextended⟩ := (openElif_yields hs cond).1 frame s1 hopen
  have hframe : Deeper s.block.depth .plain (.branch s.block.depth v s.block.statements) := ⟨rfl, rfl⟩
  exact ⟨test, tests, bodies, failed_extension p hs hextended hframe hbody ht (by rw [ht]; rfl)⟩

/-- When a last branch fails, the depth is not taken back. -/
theorem failed_else (h : FailsInside openElse p.build s t) :
    (∃ tests bodies, Leaves (.chain s.block.depth tests bodies) 0 s t) ∧ s.block.depth < t.block.depth := by
  obtain ⟨frame, s1, e, s2, hopen, hbody, ht⟩ := h.inv
  obtain ⟨tests, bodies, rfl, hextended⟩ := (openElse_yields hs).1 frame s1 hopen
  have hframe : Deeper s.block.depth .plain (.otherwise s.block.depth s.block.statements) := ⟨rfl, rfl⟩
  refine ⟨⟨tests, bodies, failed_extension p hs hextended hframe hbody ht (by rw [ht]; rfl)⟩, ?_⟩
  have hdepth := (((attempt_stays p).ends hbody).keeps ((hextended.begun hframe).ordered hs)).2.depth
  rw [hextended.block] at hdepth
  rw [ht]
  exact hdepth

theorem failed_switch {test : Operand}
    (h : FailsInside (openSwitch test) p.build s t) : ∃ v arms, Leaves (.switch v arms) 1 s t := by
  obtain ⟨frame, s1, e, s2, hopen, hbody, ht⟩ := h.inv
  obtain ⟨rfl, v, hp⟩ := (openSwitch_yields hs test).1 frame s1 hopen
  have hbegun : Begun s.block .switch s1.block := hp.begun rfl fun d hd => by cases hd
  obtain ⟨c, hgrown, -, hkept, hleaves⟩ := failed_stays p hs hbegun hp.before hp.poised hbody ht
  obtain ⟨arms, rfl⟩ : ∃ arms, c = .switch v arms := by
    cases hgrown with
    | same => exact ⟨[], rfl⟩
    | switch _ _ arms => exact ⟨arms, rfl⟩
  refine ⟨v, arms, hleaves 1 ?_⟩
  rw [ht]
  change s2.block.statements.length + _ + 1 = _
  rw [hkept Context.noConfusion, hp.total]

theorem failed_machine (h : MachineFails opts (fun number => (body number).build) s t) :
    ∃ number states, Leaves (.machine number states) (weight (.machine number states)) s t := by
  obtain ⟨frame, number, s1, e, s2, hopen, hbody, ht⟩ := h.inv
  obtain ⟨hframe, hp⟩ := (openMachine_yields hs opts).1 (frame, number) s1 hopen
  obtain rfl : frame = .machine s.block.depth number := hframe
  obtain ⟨c, hgrown, -, hkept, hleaves⟩ := failed_stays (body number) hs hp.begun_machine hp.before hp.poised hbody ht
  obtain ⟨states, rfl⟩ : ∃ states, c = .machine number states := by
    cases hgrown with
    | same => exact ⟨[], rfl⟩
    | machine _ _ more => exact ⟨more, rfl⟩
  refine ⟨number, states, hleaves _ ?_⟩
  rw [ht]
  change s2.block.statements.length + _ + _ = _
  rw [hkept Context.noConfusion, hp.total]

/-- A completed if chain is innermost and has one branch, unless failures in its body have changed the depth. -/
theorem completed_if (hg : Gives (ifThen cond p.build) s u t) (hdepth : t.block.depth = s.block.depth) :
    Ordered t.block ∧ t.block.context = .plain ∧ ∃ v branch,
      t.block.stack = s.block.stack.take s.block.depth ++ [.chain s.block.depth [v] [branch]] := by
  obtain ⟨frame, s1, s2, hopen, hbody, hclose⟩ := inside_inv hg
  obtain ⟨v, outer, -, rfl, hp⟩ := (openIf_yields hs cond).1 frame s1 hopen
  have hbegun : Begun s.block (.branch s.block.depth v outer) s1.block :=
    hp.begun ⟨rfl, rfl⟩ fun d hd => (Option.some.inj hd).symm
  obtain ⟨hordered, hretains⟩ := ((attempt_stays p).gives hbody).keeps (hbegun.ordered hs)
  obtain ⟨hsettled, hclosed⟩ := (close_yields hordered _).1 u t hclose
  have hp := hp.poised
  refine ⟨hsettled.ordered hordered, hsettled.context.trans (hretains.context.trans hp.context), v, ?_⟩
  have hdepth2 : s2.block.depth = s1.block.depth := by
    have hle := hretains.depth
    have hend := hclosed id
    rw [hp.depth] at hle ⊢
    omega
  have hopened : s1.block.stack.take s1.block.depth = s.block.stack.take s.block.depth ++ [.chain s.block.depth [] []] := by
    rw [hp.depth, hp.stack, take_of_length_le]
    rw [length_append, hs.length_take]
    exact le_rfl
  obtain ⟨branch, s3, hfinish, hclose⟩ := gives_bind.mp hclose
  obtain ⟨hs3, -⟩ := (endBody_yields hordered outer).1 branch s3 (rescue_inv hfinish)
  replace hclose := gives_modify_bind.mp hclose
  obtain rfl := gives_modify.mp hclose
  refine ⟨branch, ?_⟩
  change s3.block.stack.modify s.block.depth (addBranch v branch) = _
  rw [hs3.stack, hretains.take_depth hp.context hdepth2, hopened]
  have hmodify := modify_concat (s.block.stack.take s.block.depth) (.chain s.block.depth [] []) (addBranch v branch)
  rw [hs.length_take] at hmodify
  exact hmodify

end Failed

/-- However a builder came to be where it is, and whatever failures were caught in the body, a construct whose body
fails stays among the open constructs: an if chain without a branch, a switch with its completed arms, a machine with
its completed states, each with what was left open in it. All of these count among the statements of the elaborated
block. A chain that stays takes a last branch, and a condition if an earlier branch was completed. -/
theorem failed_constructs_stay (p : Attempt α) (body : Nat → Attempt α) (hs : Reached s) :
    (∀ cond t, FailsInside (openIf cond) p.build s t → Leaves (.chain s.block.depth [] []) 1 s t) ∧
    (∀ cond t, FailsInside (openElif cond) p.build s t →
      ∃ test tests bodies, Leaves (.chain s.block.depth (test :: tests) bodies) 0 s t) ∧
    (∀ t, FailsInside openElse p.build s t →
      (∃ tests bodies, Leaves (.chain s.block.depth tests bodies) 0 s t) ∧ s.block.depth < t.block.depth) ∧
    (∀ test t, FailsInside (openSwitch test) p.build s t → ∃ v arms, Leaves (.switch v arms) 1 s t) ∧
    (∀ opts t, MachineFails opts (fun number => (body number).build) s t →
      ∃ number states, Leaves (.machine number states) (weight (.machine number states)) s t) ∧
    (∀ cond t, Gives (ifThen cond p.build) s () t → t.block.depth = s.block.depth →
      Accepts openElse t ∧ ∀ cond' v, cond'.cast = .ok v → Accepts (openElif cond') t) ∧
    (∀ cond, Accepts (openElif cond) s ↔ s.block.context = .plain ∧ (∃ v, cond.cast = .ok v) ∧
      ∃ base test tests bodies, s.block.stack = base ++ [.chain s.block.depth (test :: tests) bodies]) ∧
    (Accepts openElse s ↔ s.block.context = .plain ∧
      ∃ base tests bodies, s.block.stack = base ++ [.chain s.block.depth tests bodies]) ∧
    (∀ (t u : State α) (σ : Arenas) (out : Body), Gives finish t () u → u.block.body σ = .ok out →
      out.statements.length = t.block.total) := by
  have hordered := hs.standing.ordered
  refine ⟨fun cond t h => failed_if p hordered h, fun cond t h => failed_elif p hordered h,
    fun t h => failed_else p hordered h, fun test t h => failed_switch p hordered h,
    fun opts t h => failed_machine body hordered h, fun cond t hg hdepth => ?_, fun cond => accepts_openElif_iff hordered,
    accepts_openElse_iff hordered, fun t u σ out hg hbody => elaborated_length hg hbody⟩
  obtain ⟨ht, hcontext, v, branch, hstack⟩ := completed_if p hordered hg hdepth
  rw [← hdepth] at hstack
  exact ⟨(accepts_openElse_iff ht).mpr ⟨hcontext, _, _, _, hstack⟩,
    fun cond' v' hcast => (accepts_openElif_iff ht).mpr ⟨hcontext, ⟨v', hcast⟩, _, _, _, _, hstack⟩⟩

/-- A builder that nothing has been done to. -/
def blank : State Unit := ⟨⟨#[⟨#[], 0, 0⟩]⟩, #[], .empty, .create 0 false⟩

theorem blank_reached : Reached blank := .created blank 0 false rfl (by decide)

/-- An arm that stands in no switch. -/
def misplaced : Attempt Unit := .block (.case []) .done .done

/-- An if chain that is still open when the failure comes. -/
def unfinished : Attempt Unit := .block (.ifThen (.flag true)) .done misplaced

/-- A state, and then a statement outside of the states. -/
def stray : Attempt Unit := .block (.state "A") .done (.act (.add combDomain []) .done)

def afterIf : State Unit := ((ifThen (.flag true) unfinished.build).run.run blank).2

def afterMachine : State Unit := ((machine .plain fun _ => stray.build).run.run blank).2

theorem failed_constructs_stay_blank :
    Reached blank ∧ FailsInside (openIf (.flag true)) unfinished.build blank afterIf ∧
      MachineFails .plain (fun _ => stray.build) blank afterMachine ∧
      Leaves (.chain 0 [] []) 1 blank afterIf ∧ afterIf.block.total = 2 ∧
      (∃ number states, Leaves (.machine number states) (weight (.machine number states)) blank afterMachine) ∧
      afterMachine.block.total = 1 := by
  have hif : FailsInside (openIf (.flag true)) unfinished.build blank afterIf := ⟨_, _, _, _, rfl, rfl, rfl⟩
  have hmachine : MachineFails .plain (fun _ => stray.build) blank afterMachine := ⟨_, _, _, _, _, rfl, rfl, rfl⟩
  obtain ⟨hleaves, -, -, -, hstays, -⟩ := failed_constructs_stay unfinished (fun _ => stray) blank_reached
  exact ⟨blank_reached, hif, hmachine, hleaves _ _ hif, rfl, hstays _ _ hmachine, rfl⟩

/-- A failed if chain adds a statement to the finished block, and a last branch may follow it. -/
theorem not_forall_failed_if_gone :
    (¬ ∀ (s t u v : State Unit) (cond : Operand) (p : Attempt Unit), Reached s → FailsInside (openIf cond) p.build s t →
      Gives finish s () u → Gives finish t () v → v.block.statements.length = u.block.statements.length) ∧
    ¬ ∀ (s t : State Unit) (cond : Operand) (p : Attempt Unit), Reached s → FailsInside (openIf cond) p.build s t →
      ¬ Accepts openElse t := by
  have hfails : FailsInside (openIf (.flag true)) misplaced.build blank _ := ⟨_, _, _, _, rfl, rfl, rfl⟩
  constructor
  · intro h
    have hlength := h blank _ blank _ (.flag true) misplaced blank_reached hfails rfl rfl
    exact absurd hlength (by decide)
  · intro h
    exact h blank _ (.flag true) misplaced blank_reached hfails ⟨_, _, rfl⟩

end Rtl.Builder
