import Mathlib
import Rtl.Proofs.Endings
import Rtl.Workspace.Elaborate

/-!
# What a program of calls builds

A builder is followed through what it looks like: its context, the open constructs, the depth and the statements of
the current body. Inside the constructs of a program the stack holds exactly these and, above them, at most one if
chain that may still be extended. Each call adds to the current body what its control flow selects, so the elaborated
block executes the selection of the whole program.
-/
namespace Rtl.Builder

open List

variable {α : Type} {σ : Arenas} {s t : State α}
variable {u : Unit} {cond : Operand} {c : Control}
variable {ys : List Statement}

/-- What a builder without submodules looks like. -/
structure Looks (σ : Arenas) (context : Context) (stack : List Control) (depth : Nat) (statements : List Statement)
    (s : State α) : Prop where
  arenas : s.arenas = σ
  context : s.block.context = context
  stack : s.block.stack = stack
  depth : s.block.depth = depth
  statements : s.block.statements = statements
  named : s.block.named = []
  anonymous : s.block.anonymous = []

variable {context : Context} {stack base : List Control} {depth : Nat} {xs : List Statement}

theorem Reports.looks (h : Reports s t) (hs : Looks σ context stack depth xs s) : Looks σ context stack depth xs t := by
  obtain ⟨r, rfl⟩ := h
  exact ⟨hs.arenas, hs.context, hs.stack, hs.depth, hs.statements, hs.named, hs.anonymous⟩

theorem deeper_looks (hs : Looks σ context stack depth xs s) (hg : Gives deeper s u t) :
    Looks σ context stack (depth + 1) xs t := by
  obtain rfl := gives_modify.mp hg
  exact ⟨hs.arenas, hs.context, hs.stack, congrArg (· + 1) hs.depth, hs.statements, hs.named, hs.anonymous⟩

theorem shallower_looks (hs : Looks σ context stack (depth + 1) xs s) (hg : Gives shallower s u t) :
    Looks σ context stack depth xs t := by
  obtain rfl := gives_modify.mp hg
  exact ⟨hs.arenas, hs.context, hs.stack, congrArg (· - 1) hs.depth, hs.statements, hs.named, hs.anonymous⟩

theorem setContext_looks {c : Context} (hs : Looks σ context stack depth xs s) (hg : Gives (setContext c) s u t) :
    Looks σ c stack depth xs t := by
  obtain rfl := gives_modify.mp hg
  exact ⟨hs.arenas, rfl, hs.stack, hs.depth, hs.statements, hs.named, hs.anonymous⟩

theorem setStatements_looks (hs : Looks σ context stack depth xs s) (hg : Gives (setStatements ys) s u t) :
    Looks σ context stack depth ys t := by
  obtain rfl := gives_modify.mp hg
  exact ⟨hs.arenas, hs.context, hs.stack, hs.depth, rfl, hs.named, hs.anonymous⟩

theorem append_looks (hs : Looks σ context stack depth xs s) (hg : Gives (append ys) s u t) :
    Looks σ context stack depth (xs ++ ys) t := by
  obtain rfl := gives_modify.mp hg
  exact ⟨hs.arenas, hs.context, hs.stack, hs.depth, congrArg (· ++ ys) hs.statements, hs.named, hs.anonymous⟩

theorem modifyControl_looks {f : Control → Control} (hs : Looks σ context (base ++ [c]) depth xs s)
    (hg : Gives (modifyControl base.length f) s u t) : Looks σ context (base ++ [f c]) depth xs t := by
  obtain rfl := gives_modify.mp hg
  refine ⟨hs.arenas, hs.context, ?_, hs.depth, hs.statements, hs.named, hs.anonymous⟩
  have hmodify : ∀ l : List Control, (l ++ [c]).modify l.length f = l ++ [f c] := by
    intro l
    induction l with
    | nil => rfl
    | cons b l ih => exact congrArg (b :: ·) ih
  change s.block.stack.modify base.length f = _
  rw [hs.stack, hmodify]

theorem beginBody_looks {outer : List Statement} (hs : Looks σ context stack depth xs s)
    (hg : Gives beginBody s outer t) : outer = xs ∧ Looks σ context stack depth [] t := by
  replace hg := gives_block_bind.mp hg
  obtain ⟨u, hset, rfl⟩ := gives_bind_pure.mp hg
  exact ⟨hs.statements, setStatements_looks hs hset⟩

theorem top_looks {o : Option (Nat × Control)} (hs : Looks σ context stack depth xs s) (hg : Gives top? s o t) :
    o = stack.getLast?.map (fun c => (stack.length - 1, c)) ∧ Looks σ context stack depth xs t := by
  replace hg := gives_block_bind.mp hg
  obtain ⟨rfl, rfl⟩ := gives_pure.mp hg
  rw [hs.stack]
  exact ⟨rfl, hs⟩

/-- Takes the innermost control off the stack; what it is lowered to is added. -/
theorem pop_inv (hs : Looks σ context (base ++ [c]) depth xs s) (hg : Gives pop s u t) :
    ∃ ys s1 s2, Looks σ context base depth xs s1 ∧ Gives (lower c) s1 ys s2 ∧ Gives (append ys) s2 u t := by
  replace hg := gives_block_bind.mp hg
  rw [hs.stack, getLast?_concat] at hg
  replace hg := gives_modify_bind.mp hg
  obtain ⟨ys, s3, hlower, hg⟩ := gives_bind.mp hg
  refine ⟨ys, _, s3, ?_, hlower, hg⟩
  refine ⟨hs.arenas, hs.context, ?_, hs.depth, hs.statements, hs.named, hs.anonymous⟩
  change s.block.stack.dropLast = base
  rw [hs.stack, dropLast_concat]

/-- Takes off a control that is lowered to one statement. -/
theorem pop_looks {f : Arenas → Except DesignError Statement}
    (hc : (lower c : Build α (List Statement)) = do return [← Value.raise (f (← Build.arenas))])
    (hs : Looks σ context (base ++ [c]) depth xs s) (hg : Gives pop s u t) :
    ∃ x, f σ = .ok x ∧ Looks σ context base depth (xs ++ [x]) t := by
  obtain ⟨ys, s1, s2, hs1, hlower, hg⟩ := pop_inv hs hg
  rw [hc] at hlower
  obtain ⟨σ', s3, har, hlower⟩ := gives_bind.mp hlower
  obtain ⟨rfl, rfl⟩ := gives_arenas.mp har
  obtain ⟨x, hx, hlower⟩ := gives_raise_bind.mp hlower
  obtain ⟨rfl, rfl⟩ := gives_pure.mp hlower
  rw [hs1.arenas] at hx
  exact ⟨x, hx, append_looks hs1 hg⟩

theorem pop_chain {k : Nat} {tests : List Value} {bodies : List (List Statement)}
    (hs : Looks σ context (base ++ [.chain k tests bodies]) depth xs s) (hg : Gives pop s u t) :
    ∃ x, Control.lowerChain σ tests bodies = .ok x ∧ Looks σ context base depth (xs ++ [x]) t :=
  pop_looks (f := fun σ => Control.lowerChain σ tests bodies) rfl hs hg

theorem pop_switch {test : Value} {arms : List Arm} (hs : Looks σ context (base ++ [.switch test arms]) depth xs s)
    (hg : Gives pop s u t) : ∃ x, Statement.mkSwitch σ test arms = .ok x ∧ Looks σ context base depth (xs ++ [x]) t :=
  pop_looks (f := fun σ => Statement.mkSwitch σ test arms) rfl hs hg

section Simulation

variable {ρ : Valuation σ} {taken : Bool} {opens : List Control} {es es1 es2 : List Selection}
variable {u : Unit} {calls : List Call} {test : Value}
variable {k position : Nat} {frame : Frame} {domain : String} {s1 : State α} {tests : List Value} {kept : List String}
variable {patterns : List Operand} {added body outer : List Statement} {bodies : List (List Statement)}
variable {specs : List (List Operand × List Selection)} {arms : List Arm}

/-- What is open above the enclosing constructs: nothing, or an if chain that may still be extended. -/
inductive Pending (ρ : Valuation σ) (depth : Nat) : List Control → Bool → List Selection → Prop where
  | none {taken : Bool} : Pending ρ depth [] taken []
  | chain {tests : List Value} {bodies : List (List Statement)} {taken : Bool} {es : List Selection}
      (hne : tests ≠ []) (hbranches : Branches ρ tests bodies taken es) :
      Pending ρ depth [.chain depth tests bodies] taken es

/-- Taking off all that is open adds what it selects. -/
theorem popMany_pending (hs : Looks σ context (base ++ opens) depth xs s) (hx : Performs ρ xs es1)
    (hopens : Pending ρ base.length opens taken es2) (hg : Gives (popMany opens.length) s u t) :
    ∃ ys, Looks σ context base depth ys t ∧ Performs ρ ys (es1 ++ es2) := by
  cases hopens with
  | none =>
    obtain ⟨-, rfl⟩ := gives_pure.mp hg
    rw [append_nil] at hs ⊢
    exact ⟨xs, hs, hx⟩
  | chain hne hbranches =>
    obtain ⟨u1, s1, hpop, hg⟩ := gives_bind.mp hg
    obtain ⟨-, rfl⟩ := gives_pure.mp hg
    obtain ⟨x, hlower, hlooks⟩ := pop_chain hs hpop
    exact ⟨xs ++ [x], hlooks, hx.append (hbranches.lower hne hlower)⟩

theorem flush_pending (hs : Looks σ context (base ++ opens) base.length xs s) (hx : Performs ρ xs es1)
    (hopens : Pending ρ base.length opens taken es2) (hg : Gives flush s u t) :
    ∃ ys, Looks σ context base base.length ys t ∧ Performs ρ ys (es1 ++ es2) := by
  replace hg := gives_block_bind.mp hg
  have hcount : s.block.stack.length - s.block.depth = opens.length := by
    rw [hs.stack, hs.depth, length_append, Nat.add_sub_cancel_left]
  rw [hcount] at hg
  exact popMany_pending hs hx hopens hg

/-- Constructs that a body can be inside of: no chain among them is at the depth of the body. -/
def Enclosing (base : List Control) : Prop := ∀ k tests bodies, .chain k tests bodies ∈ base → k < base.length

theorem Enclosing.concat (h : Enclosing base) (hc : ∀ k tests bodies, c = .chain k tests bodies → k = base.length) :
    Enclosing (base ++ [c]) := by
  intro k tests bodies hmem
  rw [length_append, length_singleton]
  rcases mem_append.mp hmem with hmem | hmem
  · exact Nat.lt_succ_of_lt (h k tests bodies hmem)
  · exact Nat.lt_succ_of_le (Nat.le_of_eq (hc k tests bodies (mem_singleton.mp hmem).symm))

/-- The builder is in a body inside the constructs `base`, and the calls of the body so far select `es`. -/
def Within (ρ : Valuation σ) (base : List Control) (taken : Bool) (es : List Selection) (s : State α) : Prop :=
  Enclosing base ∧ ∃ opens xs es₁ es₂, Looks σ .plain (base ++ opens) base.length xs s ∧ Performs ρ xs es₁ ∧
    Pending ρ base.length opens taken es₂ ∧ es = es₁ ++ es₂

theorem Looks.within (hs : Looks σ .plain base base.length xs s) (hbase : Enclosing base) (hx : Performs ρ xs es)
    (taken : Bool) : Within ρ base taken es s := by
  refine ⟨hbase, [], xs, es, [], ?_, hx, .none, (append_nil es).symm⟩
  rw [append_nil]
  exact hs

section

variable (h : Within ρ base taken es s)
include h

theorem Reports.within (hr : Reports s t) : Within ρ base taken es t := by
  obtain ⟨hbase, opens, xs, es1, es2, hs, hrest⟩ := h
  exact ⟨hbase, opens, xs, es1, es2, hr.looks hs, hrest⟩

theorem Within.flush (hg : Gives flush s u t) :
    ∃ ys, Looks σ .plain base base.length ys t ∧ Performs ρ ys es := by
  obtain ⟨-, opens, xs, es1, es2, hs, hx, hopens, rfl⟩ := h
  exact flush_pending hs hx hopens hg

theorem finishBody_within (hg : Gives (finishBody frame outer) s body t) :
    Performs ρ body es ∧ Looks σ .plain base base.length outer t := by
  obtain ⟨u, s1, hflush, hend⟩ := gives_bind.mp (rescue_inv hg)
  obtain ⟨ys, hs1, hys⟩ := h.flush hflush
  replace hend := gives_block_bind.mp hend
  obtain ⟨u1, hset, rfl⟩ := gives_bind_pure.mp hend
  rw [hs1.statements]
  exact ⟨hys, setStatements_looks hs1 hset⟩

theorem Within.push {c : Nat → Control} (hg : Gives (push c) s position t) :
    ∃ ys, position = base.length ∧ Looks σ .plain (base ++ [c base.length]) base.length ys t ∧ Performs ρ ys es := by
  obtain ⟨u, s1, hflush, hg⟩ := gives_bind.mp hg
  obtain ⟨ys, hs1, hys⟩ := h.flush hflush
  replace hg := gives_block_bind.mp hg
  replace hg := gives_modify_bind.mp hg
  obtain ⟨rfl, rfl⟩ := gives_pure.mp hg
  refine ⟨ys, congrArg List.length hs1.stack, ⟨hs1.arenas, hs1.context, ?_, hs1.depth, hs1.statements, hs1.named,
    hs1.anonymous⟩, hys⟩
  change s1.block.stack ++ [c s1.block.depth] = _
  rw [hs1.stack, hs1.depth]

end

theorem addStatement_looks {x : Statement} (hs : Looks σ context stack depth xs s) (hx : Performs ρ xs es)
    (hg : Gives (addStatement domain x) s u t) :
    ∃ ys, Looks σ context stack depth ys t ∧ Performs ρ ys (es ++ [(domain, x)]) := by
  have hadd : Yields (addStatement domain x) s (fun _ t => ∃ ys, Looks σ context stack depth ys t ∧
      Performs ρ ys (es ++ [(domain, x)])) fun _ => True := by
    refine yields_addStatement trivial fun filled nets haction hfilled _ => ⟨fun _ t ht => ?_, fun _ _ _ => trivial⟩
    obtain ⟨table, rfl⟩ := (drive_redriven domain nets.items).gives ht
    rw [hs.arenas] at hfilled
    refine ⟨xs ++ filled, ⟨hs.arenas, hs.context, hs.stack, hs.depth, ?_, hs.named, hs.anonymous⟩,
      hx.append (performs_placed haction hfilled)⟩
    exact congrArg (· ++ filled) hs.statements
  exact hadd.1 u t hg

theorem addEach_looks (hs : Looks σ context stack depth xs s) (hx : Performs ρ xs es)
    (hg : Gives (addEach domain added) s u t) :
    ∃ ys, Looks σ context stack depth ys t ∧ Performs ρ ys (es ++ added.map fun x => (domain, x)) := by
  induction added generalizing s xs es with
  | nil =>
    obtain ⟨-, rfl⟩ := gives_pure.mp hg
    rw [map_nil, append_nil]
    exact ⟨xs, hs, hx⟩
  | cons x added ih =>
    obtain ⟨u1, s1, hadd, hg⟩ := gives_bind.mp hg
    obtain ⟨ys, hs1, hys⟩ := addStatement_looks hs hx hadd
    obtain ⟨zs, ht, hzs⟩ := ih hs1 hys hg
    rw [append_assoc] at hzs
    exact ⟨zs, ht, hzs⟩

theorem add_within (h : Within ρ base taken es s) (hg : Gives (addStatements domain added) s u t) :
    Within ρ base true (es ++ added.map fun x => (domain, x)) t := by
  replace hg := (required_inv hg).2
  obtain ⟨u2, s2, hflush, hg⟩ := gives_bind.mp hg
  obtain ⟨ys, hs2, hys⟩ := h.flush hflush
  obtain ⟨zs, ht, hzs⟩ := addEach_looks hs2 hys hg
  exact ht.within h.1 hzs true

/-- Calls that, wherever they are made, add what they select. -/
def Runs (α : Type) (ρ : Valuation σ) (calls : List Call) : Prop :=
  ∀ {base taken es} {s t : State α}, Within ρ base taken es s → Gives (Call.buildAll calls) s () t →
    ∃ taken', Within ρ base taken' (es ++ Call.selectAll ρ taken calls) t

/-- The body of a construct performs what its calls select, and the statements around it are back afterwards. -/
theorem body_performs (hcalls : Runs α ρ calls) (hbase : Enclosing (base ++ [c]))
    (hs : Looks σ .plain (base ++ [c]) (base.length + 1) [] s) (hg : Gives (Call.buildAll calls) s () s1)
    (hfinish : Gives (finishBody frame outer) s1 body t) :
    Performs ρ body (Call.selectAll ρ true calls) ∧ Looks σ .plain (base ++ [c]) (base.length + 1) outer t := by
  have hlen : (base ++ [c]).length = base.length + 1 := by rw [length_append, length_singleton]
  rw [← hlen] at hs
  obtain ⟨taken', hwithin⟩ := hcalls (hs.within hbase performs_nil true) hg
  obtain ⟨hperforms, hlooks⟩ := finishBody_within hwithin hfinish
  rw [hlen] at hlooks
  exact ⟨hperforms, hlooks⟩

/-- A further branch of a chain, from its body on. -/
theorem branch_within {v : Value} (hcalls : Runs α ρ calls) (hbase : Enclosing base)
    (hbranches : Branches ρ tests bodies taken es2) (houter : Performs ρ outer es1) (hv : v.Settled σ)
    (hs : Looks σ .plain (base ++ [.chain base.length tests bodies]) (base.length + 1) [] s)
    (hbody : Gives (Call.buildAll calls) s () s1) (hclose : Gives (close (.branch base.length v outer)) s1 u t) :
    Within ρ base (taken || ρ.value v ≠ 0)
      (es1 ++ es2 ++ if !taken && ρ.value v ≠ 0 then Call.selectAll ρ true calls else []) t := by
  have hbase' : Enclosing (base ++ [.chain base.length tests bodies]) :=
    hbase.concat fun k tests bodies hc => (Control.chain.inj hc).1.symm
  obtain ⟨body, s2, hfinish, hclose⟩ := gives_bind.mp hclose
  obtain ⟨hperforms, hs2⟩ := body_performs hcalls hbase' hs hbody hfinish
  obtain ⟨u1, s3, hmodify, hshallower⟩ := gives_bind.mp hclose
  have ht := shallower_looks (modifyControl_looks hs2 hmodify) hshallower
  refine ⟨hbase, _, outer, es1, _, ht, houter, .chain ?_ (hbranches.concat hv hperforms), append_assoc _ _ _⟩
  exact append_ne_nil_of_right_ne_nil _ (cons_ne_nil _ _)

theorem ifThen_within (hcond : ∀ v, cond.cast = .ok v → v.Settled σ) (hcalls : Runs α ρ calls)
    (h : Within ρ base taken es s) (hg : Gives (ifThen cond (Call.buildAll calls)) s u t) :
    Within ρ base (ρ.read cond ≠ 0) (es ++ if ρ.read cond ≠ 0 then Call.selectAll ρ true calls else []) t := by
  obtain ⟨frame, s1, s2, hopen, hbody, hclose⟩ := inside_inv hg
  replace hopen := (required_inv hopen).2
  obtain ⟨v, s4, hcast, hopen⟩ := gives_bind.mp hopen
  obtain ⟨position, s5, hpush, hopen⟩ := gives_bind.mp hopen
  obtain ⟨u2, s6, hdeeper, hopen⟩ := gives_bind.mp hopen
  obtain ⟨outer, hbegin, rfl⟩ := gives_bind_pure.mp hopen
  have hv := gives_condition_cast hcast
  obtain ⟨ys, rfl, hs5, hys⟩ := (((condition_reports cond).gives hcast).within h).push hpush
  obtain ⟨rfl, hs7⟩ := beginBody_looks (deeper_looks hs5 hdeeper) hbegin
  have hwithin := branch_within hcalls h.1 branches_nil hys (hcond v hv) hs7 hbody hclose
  have hread : ρ.read cond = ρ.value v := by rw [Valuation.read, hv]
  rw [append_nil, Bool.false_or, Bool.not_false, Bool.true_and, ← hread] at hwithin
  simpa only [decide_eq_true_iff] using hwithin

/-- What the top of the stack is when it is a chain at the depth of the current body. -/
theorem chain_of_top (hbase : Enclosing base) (hopens : Pending ρ base.length opens taken es2)
    (htop : some (position, .chain k tests bodies) =
      (base ++ opens).getLast?.map (fun c => ((base ++ opens).length - 1, c))) (hdepth : k = base.length) :
    position = base.length ∧ opens = [.chain k tests bodies] ∧ tests ≠ [] ∧ Branches ρ tests bodies taken es2 := by
  obtain ⟨c, hlast, hc⟩ := Option.map_eq_some_iff.mp htop.symm
  obtain ⟨rfl, rfl⟩ := Prod.mk.inj hc
  cases hopens with
  | none =>
    rw [append_nil] at hlast
    have hlt := hbase k tests bodies (mem_of_getLast? hlast)
    omega
  | chain hne hbranches =>
    rw [getLast?_concat] at hlast
    cases hlast
    refine ⟨?_, rfl, hne, hbranches⟩
    rw [length_append, length_singleton, Nat.add_sub_cancel]

/-- A chain at the depth of the current body is extended in a body of its own. -/
theorem extend_looks {e : Failure} {framed : List Statement → Frame} (hs : Looks σ context stack depth xs s)
    (hg : Gives (do
      if k ≠ (← Build.block).depth then throw e
      deeper
      return framed (← beginBody) : Build α Frame) s frame t) :
    k = depth ∧ frame = framed xs ∧ Looks σ context stack (depth + 1) [] t := by
  replace hg := gives_block_bind.mp hg
  rcases gives_ite.mp hg with ⟨-, hg⟩ | ⟨hdepth, hg⟩
  · obtain ⟨u1, s1, hthrow, -⟩ := gives_bind.mp hg
    exact absurd hthrow not_gives_throw
  · obtain ⟨u1, s1, hdeeper, hg⟩ := gives_bind.mp hg
    obtain ⟨outer, hbegin, rfl⟩ := gives_bind_pure.mp hg
    obtain ⟨rfl, ht⟩ := beginBody_looks (deeper_looks hs hdeeper) hbegin
    exact ⟨(not_not.mp hdepth).trans hs.depth, rfl, ht⟩

theorem elifThen_within (hcond : ∀ v, cond.cast = .ok v → v.Settled σ) (hcalls : Runs α ρ calls)
    (h : Within ρ base taken es s) (hg : Gives (elifThen cond (Call.buildAll calls)) s u t) :
    Within ρ base (taken || ρ.read cond ≠ 0)
      (es ++ if !taken && ρ.read cond ≠ 0 then Call.selectAll ρ true calls else []) t := by
  obtain ⟨frame, s1, s2, hopen, hbody, hclose⟩ := inside_inv hg
  replace hopen := (required_inv hopen).2
  obtain ⟨v, s4, hcast, hopen⟩ := gives_bind.mp hopen
  obtain ⟨o, s5, htop, hopen⟩ := gives_bind.mp hopen
  obtain ⟨hbase, opens, xs, es1, es2, hs, hx, hopens, rfl⟩ := h
  have hv := gives_condition_cast hcast
  obtain ⟨ho, hs5⟩ := top_looks (((condition_reports cond).gives hcast).looks hs) htop
  split at hopen
  · rename_i position k test tests bodies
    obtain ⟨hk, rfl, hs6⟩ := extend_looks hs5 hopen
    obtain ⟨rfl, rfl, -, hbranches⟩ := chain_of_top hbase hopens ho hk
    subst hk
    have hread : ρ.read cond = ρ.value v := by rw [Valuation.read, hv]
    rw [hread]
    exact branch_within hcalls hbase hbranches hx (hcond v hv) hs6 hbody hclose
  · exact absurd hopen not_gives_throw

theorem orElse_within (hcalls : Runs α ρ calls) (h : Within ρ base taken es s)
    (hg : Gives (orElse (Call.buildAll calls)) s u t) :
    Within ρ base true (es ++ if taken then [] else Call.selectAll ρ true calls) t := by
  obtain ⟨frame, s1, s2, hopen, hbody, hclose⟩ := inside_inv hg
  replace hopen := (required_inv hopen).2
  obtain ⟨o, s4, htop, hopen⟩ := gives_bind.mp hopen
  obtain ⟨hbase, opens, xs, es1, es2, hs, hx, hopens, rfl⟩ := h
  obtain ⟨ho, hs4⟩ := top_looks hs htop
  split at hopen
  · rename_i position k tests bodies
    obtain ⟨hk, rfl, hs5⟩ := extend_looks hs4 hopen
    obtain ⟨rfl, rfl, hne, hbranches⟩ := chain_of_top hbase hopens ho hk
    subst hk
    have hbase' : Enclosing (base ++ [.chain base.length tests bodies]) :=
      hbase.concat fun k tests bodies hc => (Control.chain.inj hc).1.symm
    obtain ⟨body, s6, hfinish, hclose⟩ := gives_bind.mp hclose
    obtain ⟨hperforms, hs6⟩ := body_performs hcalls hbase' hs5 hbody hfinish
    obtain ⟨u2, s7, hshallower, hclose⟩ := gives_bind.mp hclose
    obtain ⟨u3, s8, hmodify, hpop⟩ := gives_bind.mp hclose
    obtain ⟨x, hlower, ht⟩ := pop_chain (modifyControl_looks (shallower_looks hs6 hshallower) hmodify) hpop
    have hall := hx.append (hbranches.lowerOtherwise hne hperforms hlower)
    rw [← append_assoc] at hall
    exact ht.within hbase hall true
  · exact absurd hopen not_gives_throw

theorem armPatterns_kept {width : Int} (hg : Gives (armPatterns width patterns) s kept t) :
    kept = keptPatterns width patterns ∧ ∀ p ∈ patterns, ∃ o, Pattern.normalize p width = .ok o := by
  induction patterns generalizing s kept with
  | nil =>
    obtain ⟨rfl, rfl⟩ := gives_pure.mp hg
    exact ⟨rfl, fun p hp => absurd hp not_mem_nil⟩
  | cons p patterns ih =>
    obtain ⟨o, s1, hnormalize, hg⟩ := gives_bind.mp hg
    obtain ⟨ho, rfl⟩ := gives_ofExcept.mp hnormalize
    rw [keptPatterns_cons ho]
    cases o with
    | some =>
      obtain ⟨others, hothers, rfl⟩ := gives_bind_pure.mp hg
      obtain ⟨rfl, hfits⟩ := ih hothers
      exact ⟨rfl, forall_mem_cons.mpr ⟨⟨_, ho⟩, hfits⟩⟩
    | none =>
      have hrest : ∃ s2, Gives (armPatterns width patterns) s2 kept t := by
        cases p with
        | int =>
          obtain ⟨u, s2, -, hg⟩ := gives_bind.mp hg
          exact ⟨s2, hg⟩
        | value | flag | float | text | absent => exact ⟨s, hg⟩
      obtain ⟨s2, hg⟩ := hrest
      obtain ⟨rfl, hfits⟩ := ih hg
      exact ⟨rfl, forall_mem_cons.mpr ⟨⟨_, ho⟩, hfits⟩⟩

/-- The builder is in a switch inside the constructs `base`, and the calls of the switch so far make the arms `specs`. -/
def Switching (ρ : Valuation σ) (base : List Control) (test : Value) (outer : List Statement)
    (specs : List (List Operand × List Selection)) (s : State α) : Prop :=
  Enclosing base ∧ ∃ arms, Looks σ .switch (base ++ [.switch test arms]) (base.length + 1) outer s ∧
    Arms ρ (test.width σ) arms specs

/-- An arm of a switch, once its patterns are known. -/
theorem arm_looks {omitted : Bool} {s2 : State α} (hcalls : Runs α ρ calls) (hbase : Enclosing base)
    (hs : Looks σ .switch (base ++ [.switch test arms]) (base.length + 1) outer s) (hopen : Gives (do
      setContext .plain
      return .arm (some base.length) kept omitted (← beginBody) : Build α Frame) s frame s1)
    (hbody : Gives (Call.buildAll calls) s1 () s2) (hclose : Gives (close frame) s2 u t) :
    ∃ body, Performs ρ body (Call.selectAll ρ true calls) ∧
      Looks σ .switch (base ++ [.switch test (if omitted then arms else setArm (kept, body) arms)]) (base.length + 1)
        outer t := by
  have hbase' : Enclosing (base ++ [.switch test arms]) := hbase.concat fun k tests bodies hc => nomatch hc
  obtain ⟨u1, s3, hplain, hopen⟩ := gives_bind.mp hopen
  obtain ⟨xs, hbegin, rfl⟩ := gives_bind_pure.mp hopen
  obtain ⟨rfl, hs1⟩ := beginBody_looks (setContext_looks hs hplain) hbegin
  obtain ⟨body, s4, hfinish, hclose⟩ := gives_bind.mp hclose
  obtain ⟨hperforms, hs4⟩ := body_performs hcalls hbase' hs1 hbody hfinish
  obtain ⟨u2, s5, hcontext, hclose⟩ := gives_bind.mp hclose
  have hs5 := setContext_looks hs4 hcontext
  refine ⟨body, hperforms, ?_⟩
  rcases gives_ite.mp hclose with ⟨homitted, hclose⟩ | ⟨homitted, hclose⟩
  · obtain ⟨-, rfl⟩ := gives_pure.mp hclose
    rw [if_pos homitted]
    exact hs5
  · rw [if_neg homitted]
    exact modifyControl_looks hs5 hclose

theorem top_switch {o : Option (Nat × Control)}
    (hs : Looks σ context (base ++ [.switch test arms]) depth xs s) (hg : Gives top? s o t) :
    o = some (base.length, .switch test arms) ∧ Looks σ context (base ++ [.switch test arms]) depth xs t := by
  obtain ⟨rfl, ht⟩ := top_looks hs hg
  refine ⟨?_, ht⟩
  rw [getLast?_concat, length_append, length_singleton, Nat.add_sub_cancel]
  rfl

theorem case_switching (hcalls : Runs α ρ calls) (h : Switching ρ base test outer specs s)
    (hg : Gives (case patterns (Call.buildAll calls)) s u t) :
    Switching ρ base test outer (Call.arms ρ (test.width σ) specs (.case patterns calls)) t := by
  obtain ⟨hbase, arms, hs, harms⟩ := h
  obtain ⟨frame, s1, s2, hopen, hbody, hclose⟩ := inside_inv hg
  replace hopen := (required_inv hopen).2
  obtain ⟨o, s4, htop, hopen⟩ := gives_bind.mp hopen
  obtain ⟨rfl, hs4⟩ := top_switch hs htop
  obtain ⟨σ', s5, har, hopen⟩ := gives_bind.mp hopen
  obtain ⟨rfl, rfl⟩ := gives_arenas.mp har
  obtain ⟨kept, s6, hpatterns, hopen⟩ := gives_bind.mp hopen
  rw [hs4.arenas] at hpatterns
  obtain ⟨rfl, hfits⟩ := armPatterns_kept hpatterns
  have hs6 := ((armPatterns_reports _ _).gives hpatterns).looks hs4
  obtain ⟨body, hperforms, ht⟩ := arm_looks hcalls hbase hs6 hopen hbody hclose
  refine ⟨hbase, _, ht, ?_⟩
  rw [Call.arms]
  split
  · exact harms
  · rename_i hkept
    refine harms.set ⟨rfl, hfits, ?_, hperforms⟩
    intro hne hempty
    rw [Bool.and_eq_true, Bool.not_eq_true', List.isEmpty_eq_false_iff, List.isEmpty_iff] at hkept
    exact hkept ⟨hne, hempty⟩

theorem default_switching (hcalls : Runs α ρ calls) (h : Switching ρ base test outer specs s)
    (hg : Gives (Builder.default (Call.buildAll calls)) s u t) :
    Switching ρ base test outer (Call.arms ρ (test.width σ) specs (.default calls)) t := by
  obtain ⟨hbase, arms, hs, harms⟩ := h
  obtain ⟨frame, s1, s2, hopen, hbody, hclose⟩ := inside_inv hg
  replace hopen := (required_inv hopen).2
  obtain ⟨o, s4, htop, hopen⟩ := gives_bind.mp hopen
  obtain ⟨rfl, hs4⟩ := top_switch hs htop
  obtain ⟨body, hperforms, ht⟩ := arm_looks hcalls hbase hs4 hopen hbody hclose
  refine ⟨hbase, _, ht, ?_⟩
  rw [Call.arms]
  exact harms.set ⟨rfl, fun p hp => absurd hp not_mem_nil, fun hne => absurd rfl hne, hperforms⟩

/-- Calls that, made in a switch, add their arms to it. -/
def RunsArms (α : Type) (ρ : Valuation σ) (calls : List Call) : Prop :=
  ∀ {base test outer specs} {s t : State α}, Switching ρ base test outer specs s →
    Gives (Call.buildAll calls) s () t → Switching ρ base test outer (Call.armsAll ρ (test.width σ) specs calls) t

theorem switch_within {test : Operand} (htest : ∀ v, test.cast = .ok v → v.Settled σ ∧ 1 ≤ v.width σ)
    (hcalls : RunsArms α ρ calls) (h : Within ρ base taken es s) (hg : Gives (switch test (Call.buildAll calls)) s u t) :
    Within ρ base true (es ++ Call.select ρ taken (.switch test calls)) t := by
  obtain ⟨frame, s1, s2, hopen, hbody, hclose⟩ := inside_inv hg
  replace hopen := (required_inv hopen).2
  obtain ⟨v, hv, hopen⟩ := gives_raise_bind.mp hopen
  obtain ⟨position, s5, hpush, hopen⟩ := gives_bind.mp hopen
  obtain ⟨u2, s6, hswitch, hopen⟩ := gives_bind.mp hopen
  obtain ⟨u3, hdeeper, rfl⟩ := gives_bind_pure.mp hopen
  obtain ⟨ys, -, hs5, hys⟩ := h.push hpush
  have hs7 := deeper_looks (setContext_looks hs5 hswitch) hdeeper
  obtain ⟨-, arms, hs2, harms⟩ := hcalls ⟨h.1, _, hs7, .nil, nodup_nil⟩ hbody
  obtain ⟨u4, s8, habandon, hpop⟩ := gives_bind.mp hclose
  obtain ⟨u5, s9, hshallower, hplain⟩ := gives_bind.mp habandon
  obtain ⟨x, hmk, ht⟩ := pop_switch (setContext_looks (shallower_looks hs2 hshallower) hplain) hpop
  have hselect : Call.select ρ taken (.switch test calls) =
      firstCovered (v.width σ) (ρ.value v) (Call.armsAll ρ (v.width σ) [] calls) := by
    rw [Call.select, Call.testWidth, Valuation.read, hv]
  rw [hselect]
  exact ht.within h.1 (hys.append (harms.lower (htest v hv).1 (htest v hv).2 hmk)) true

/-- What one call does, in a body and in a switch. -/
structure Steps (α : Type) (ρ : Valuation σ) (c : Call) : Prop where
  plain : ∀ {base taken es} {s t : State α}, Within ρ base taken es s → Gives (Call.build c) s () t →
    Within ρ base (c.chainTaken ρ taken) (es ++ c.select ρ taken) t
  arm : ∀ {base test outer specs} {s t : State α}, Switching ρ base test outer specs s → Gives (Call.build c) s () t →
    Switching ρ base test outer (c.arms ρ (test.width σ) specs) t

theorem runs_of_steps (h : ∀ c ∈ calls, Steps α ρ c) : Runs α ρ calls := by
  induction calls with
  | nil =>
    intro base taken es s t hwithin hg
    obtain ⟨-, rfl⟩ := gives_pure.mp hg
    rw [Call.selectAll, append_nil]
    exact ⟨taken, hwithin⟩
  | cons c calls ih =>
    obtain ⟨hc, hrest⟩ := forall_mem_cons.mp h
    intro base taken es s t hwithin hg
    obtain ⟨u, s1, hfirst, hg⟩ := gives_bind.mp hg
    obtain ⟨taken', ht⟩ := ih hrest (hc.plain hwithin hfirst) hg
    rw [Call.selectAll, ← append_assoc]
    exact ⟨taken', ht⟩

theorem runsArms_of_steps (h : ∀ c ∈ calls, Steps α ρ c) : RunsArms α ρ calls := by
  induction calls with
  | nil =>
    intro base test outer specs s t h hg
    obtain ⟨-, rfl⟩ := gives_pure.mp hg
    exact h
  | cons c calls ih =>
    obtain ⟨hc, hrest⟩ := forall_mem_cons.mp h
    intro base test outer specs s t h hg
    obtain ⟨u, s1, hfirst, hg⟩ := gives_bind.mp hg
    exact ih hrest (hc.arm h hfirst) hg

theorem inside_context {construct : String} {wanted : Context} {rest : Unit → Build α Frame} {body : Build α Unit}
    (hg : Gives (inside (requireContext construct wanted >>= rest) body) s u t) : s.block.context = wanted := by
  obtain ⟨frame, s1, s2, hopen, -, -⟩ := inside_inv hg
  exact (required_inv hopen).1

theorem Within.context_eq (h : Within ρ base taken es s) : s.block.context = .plain := by
  obtain ⟨-, opens, xs, es1, es2, hs, -⟩ := h
  exact hs.context

theorem Steps.of_plain {c : Call} (hcontext : ∀ {s t : State α}, Gives (Call.build c) s () t → s.block.context = .plain)
    (h : ∀ {base taken es} {s t : State α}, Within ρ base taken es s → Gives (Call.build c) s () t →
      Within ρ base (c.chainTaken ρ taken) (es ++ c.select ρ taken) t) : Steps α ρ c :=
  ⟨h, fun ⟨_, _, hs, _⟩ hg => nomatch hs.context.symm.trans (hcontext hg)⟩

/-- A call that can only be made in a switch. -/
theorem Steps.of_arm {c : Call} (hcontext : ∀ {s t : State α}, Gives (Call.build c) s () t → s.block.context = .switch)
    (h : ∀ {base test outer specs} {s t : State α}, Switching ρ base test outer specs s → Gives (Call.build c) s () t →
      Switching ρ base test outer (c.arms ρ (test.width σ) specs) t) : Steps α ρ c :=
  ⟨fun hwithin hg => (nomatch hwithin.context_eq.symm.trans (hcontext hg)), h⟩

/-- Every call does what its control flow says; the induction is on the calls in its body. -/
theorem steps_of_settled (c : Call) : c.Asks (Value.Settled σ) σ → Steps α ρ c := by
  have hbody : ∀ {calls : List Call}, (∀ c ∈ calls, c.Asks (Value.Settled σ) σ → Steps α ρ c) →
      Call.AsksAll (Value.Settled σ) σ calls → ∀ c ∈ calls, Steps α ρ c :=
    fun ih h c hc => ih c hc (Call.asksAll_iff.mp h c hc)
  induction c using Call.induct with
  | add => exact fun _ => .of_plain (fun hg => (required_inv hg).1) add_within
  | ifThen cond body ih =>
    exact fun h => .of_plain inside_context (ifThen_within h.1 (runs_of_steps (hbody ih h.2)))
  | elifThen cond body ih =>
    exact fun h => .of_plain inside_context (elifThen_within h.1 (runs_of_steps (hbody ih h.2)))
  | orElse body ih => exact fun h => .of_plain inside_context (orElse_within (runs_of_steps (hbody ih h)))
  | switch test body ih =>
    exact fun h => .of_plain inside_context (switch_within h.1 (runsArms_of_steps (hbody ih h.2)))
  | case patterns body ih => exact fun h => .of_arm inside_context (case_switching (runs_of_steps (hbody ih h)))
  | default body ih => exact fun h => .of_arm inside_context (default_switching (runs_of_steps (hbody ih h)))

/-- A finished program has added what it selects, whatever was still open at its end. -/
theorem finish_performs (hcalls : ∀ c ∈ calls, c.Asks (Value.Settled σ) σ) (hs : Looks σ .plain [] 0 [] s)
    (hbuild : Gives (Call.buildAll calls) s () s1) (hfinish : Gives finish s1 u t) :
    ∃ ys, Looks σ .plain [] 0 ys t ∧ Performs ρ ys (Call.selectAll ρ true calls) := by
  have hnone : Enclosing [] := fun k tests bodies hmem => absurd hmem not_mem_nil
  have hruns : Runs α ρ calls := runs_of_steps fun c hc => steps_of_settled c (hcalls c hc)
  obtain ⟨taken, -, opens, xs, es1, es2, hs1, hx, hopens, hes⟩ := hruns (hs.within hnone performs_nil true) hbuild
  rw [nil_append] at hs1 hes
  replace hfinish := gives_block_bind.mp hfinish
  rw [hs1.stack] at hfinish
  rw [hes]
  exact popMany_pending hs1 hx hopens hfinish

end Simulation

end Rtl.Builder
