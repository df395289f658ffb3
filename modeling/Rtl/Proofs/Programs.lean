import Mathlib
import Rtl.Proofs.HeldActions

/-!
# Programs of builder calls

A program makes builder calls one after the other, and what it does next may depend on what it has seen. Its events
are the uses it makes of state machines: which states are entered, defined, gone to or asked for. Whatever the outcome
of a program, a machine keeps everything but the list of its states, and that list grows by the names in the events,
in their order.
-/
namespace Rtl

open List

namespace Machine

variable {m : Machine} {y : String} {n : Nat}

theorem encode_fst (m : Machine) (x : String) :
    (m.encode x).1 = { m with order := if x ∈ m.order then m.order else m.order ++ [x] } := by
  unfold encode encoding?
  cases h : m.order.idxOf? x with
  | none => simp only [if_neg (idxOf?_eq_none_iff.mp h)]
  | some =>
    have hmem : x ∈ m.order := by
      by_contra hnot
      rw [idxOf?_eq_none_iff.mpr hnot] at h
      cases h
    simp only [if_pos hmem]

theorem encoding?_append (h : m.encoding? y = some n) (names : List String) :
    ({ m with order := m.order ++ names } : Machine).encoding? y = some n := by
  unfold encoding? List.idxOf? at h ⊢
  rw [findIdx?_append, h]
  rfl

theorem encoding?_encode_self (m : Machine) (x : String) : (m.encode x).1.encoding? x = some (m.encode x).2 := by
  unfold encode
  cases h : m.encoding? x with
  | some => exact h
  | none =>
    unfold encoding? List.idxOf? at h ⊢
    rw [findIdx?_append, h]
    simp

theorem encoding?_encode (h : m.encoding? y = some n) (x : String) : (m.encode x).1.encoding? y = some n := by
  rw [encode_fst]
  split
  · exact h
  · exact encoding?_append h [x]

/-- The machine after states were mentioned one after the other. -/
def mentioning (m : Machine) (names : List String) : Machine := names.foldl (fun m name => (m.encode name).1) m

theorem mentioning_append (m : Machine) (xs ys : List String) :
    m.mentioning (xs ++ ys) = (m.mentioning xs).mentioning ys := foldl_append

theorem mentioning_eq (m : Machine) (names : List String) :
    m.mentioning names = { m with order := (m.mentioning names).order } := by
  induction names generalizing m with
  | nil => rfl
  | cons x rest ih =>
    change (m.encode x).1.mentioning rest = { m with order := ((m.encode x).1.mentioning rest).order }
    rw [encode_fst]
    exact ih _

theorem encoding?_mentioning (h : m.encoding? y = some n) (names : List String) :
    (m.mentioning names).encoding? y = some n := by
  induction names generalizing m with
  | nil => exact h
  | cons x rest ih => exact ih (encoding?_encode h x)

/-- States are numbered in the order in which they are first mentioned. -/
theorem order_mentioning_append {xs : List String} (h : m.order = xs.eraseDups) (names : List String) :
    (m.mentioning names).order = (xs ++ names).eraseDups := by
  induction names using List.reverseRecOn with
  | nil => rw [append_nil, ← h]; rfl
  | append_singleton names x ih =>
    rw [mentioning_append, ← append_assoc, eraseDups_append, ← ih]
    change ((m.mentioning names).encode x).1.order = _
    rw [encode_fst]
    have hmem : x ∈ (m.mentioning names).order ↔ x ∈ xs ++ names := by rw [ih, mem_eraseDups]
    have hold {ys : List String} (hx : x ∈ ys) : [x].removeAll ys = [] := by simp [List.removeAll, hx]
    have hnew {ys : List String} (hx : x ∉ ys) : [x].removeAll ys = [x] := by simp [List.removeAll, hx]
    by_cases hx : x ∈ xs ++ names
    · rw [if_pos (hmem.mpr hx), hold hx, eraseDups_nil, append_nil]
    · rw [if_neg fun h => hx (hmem.mp h), hnew hx]
      rfl

theorem order_mentioning (h : m.order = []) (names : List String) :
    (m.mentioning names).order = names.eraseDups := order_mentioning_append (h.trans eraseDups_nil.symm) names

end Machine

namespace Builder

variable {α β : Type} {s t : State α}
variable {frame : Frame} {n : Nat} {opts : MachineOptions} {es : β → State α → List Event} {number : Nat}
variable {x : Build α β} {body : Nat → Build α Unit} {e : Event} {b : Builder α} {name : String} {c : Construct}
variable {m : Machine}

/-- A call without a body. -/
inductive Act (α : Type) where
  | add (domain : String) (stmts : List Statement)
  | submodule (name : String) (sub : Option α)
  | domains (list : List ClockDomain)

def Act.build : Act α → Build α Unit
  | .add domain stmts => addStatements domain stmts
  | .submodule name sub => addSubmodule name sub
  | .domains list => addDomains list

/-- Builder calls one after the other. What comes next may depend on what a call returned and on anything that can be
seen of the builder. -/
inductive Program (α : Type) where
  | done
  | look (rest : State α → Program α)
  | act (a : Act α) (rest : Program α)
  | signal (spec : SignalSpec) (rest : SignalId → Program α)
  | block (c : Construct) (body rest : Program α)
  | machine (opts : MachineOptions) (body rest : Nat → Program α)
  | next (name : String) (rest : Program α)
  | ongoing (number : Nat) (name : String) (rest : Value → Program α)

/-- The calls of a program. -/
def Program.build : Program α → Build α Unit
  | .done => pure ()
  | .look rest => do (rest (← get)).build
  | .act a rest => do
    a.build
    rest.build
  | .signal spec rest => do (rest (← Build.issue spec)).build
  | .block c body rest => do
    inside c.opened body.build
    rest.build
  | .machine opts body rest => do (rest (← Builder.machine opts fun number => (body number).build)).build
  | .next name rest => do
    Builder.next name
    rest.build
  | .ongoing number name rest => do (rest (← Build.ongoing number name)).build

/-- A use of the state machine with the given number. -/
inductive Event where
  /-- The machine is opened with this reset state. -/
  | reset (machine : Nat) (name : String)
  /-- The definition of a state begins. -/
  | entered (machine : Nat) (name : String)
  /-- The definition of a state ends. -/
  | defined (machine : Nat) (name : String) (body : List Statement)
  /-- A transition to a state, and the statement that was added for it. -/
  | transition (machine : Nat) (name : String) (added : Option Statement)
  /-- A test for a state, and its value. -/
  | asked (machine : Nat) (name : String) (answer : Value)

namespace Event

/-- The state of the machine that an event names. -/
def mention? (number : Nat) : Event → Option String
  | .reset n name | .entered n name | .transition n name _ | .asked n name _ => if n = number then some name else none
  | .defined _ _ _ => none

/-- The state of the machine that an event defines, with its body. -/
def definition? (number : Nat) : Event → Option (String × List Statement)
  | .defined n name body => if n = number then some (name, body) else none
  | _ => none

end Event

/-- The names passed for a machine, in order. -/
def mentions (number : Nat) (es : List Event) : List String := es.filterMap (Event.mention? number)

/-- The states defined for a machine, in order. -/
def definitions (number : Nat) (es : List Event) : List (String × List Statement) :=
  es.filterMap (Event.definition? number)

/-- The events after a call has succeeded. -/
def afterwards (x : Build α β) (s : State α) (es : β → State α → List Event) : List Event :=
  match x.run.run s with
  | (.ok a, t) => es a t
  | (.error _, _) => []

/-- The event of opening a construct. -/
def Construct.entry (b : Builder α) : Construct → List Event
  | .state name => (innermostMachine? b.stack).toList.map fun number => .entered number name
  | _ => []

/-- The event of finishing the body of a construct that was opened in `b`. -/
def Construct.completion (b : Builder α) (frame : Frame) (s : State α) : Construct → List Event
  | .state name => (innermostMachine? b.stack).toList.flatMap fun number =>
      afterwards (endBody (outer frame)) s fun body _ => [.defined number name body]
  | _ => []

/-- The statement that a transition adds. -/
def added? (name : String) (s : State α) : Option Statement :=
  match (next name).run.run s with
  | (.ok _, t) => t.block.statements.getLast?
  | (.error _, _) => none

/-- The event of a transition. A transition outside the states of a machine names no state of any. -/
def transition (name : String) (s : State α) : List Event :=
  match if s.block.context = .machine then none else innermostMachine? s.block.stack with
  | none => []
  | some number => [.transition number name (added? name s)]

/-- The event of opening a machine. -/
def MachineOptions.entry (opts : MachineOptions) (number : Nat) : List Event :=
  if opts.reset = "" then [] else [.reset number opts.reset]

/-- The events of a machine whose body has the given events. -/
def machineEvents (opts : MachineOptions) (es : Nat → State α → List Event) (s : State α) : List Event :=
  afterwards (openMachine opts) s fun opened s₁ => MachineOptions.entry opts opened.2 ++ es opened.2 s₁

/-- The events of a program that starts in `s`, up to the call that fails. -/
def Program.events : Program α → State α → List Event
  | .done, _ => []
  | .look rest, s => (rest s).events s
  | .act a rest, s => afterwards a.build s fun _ t => rest.events t
  | .signal spec rest, s => afterwards (Build.issue spec) s fun id t => (rest id).events t
  | .block c body rest, s =>
    afterwards c.opened s (fun frame s₁ => c.entry s.block ++ (body.events s₁ ++
      afterwards body.build s₁ fun _ s₂ => c.completion s.block frame s₂)) ++
    afterwards (inside c.opened body.build) s fun _ t => rest.events t
  | .machine opts body rest, s =>
    machineEvents opts (fun number => (body number).events) s ++
    afterwards (Builder.machine opts fun number => (body number).build) s fun number t => (rest number).events t
  | .next name rest, s => transition name s ++ afterwards (Builder.next name) s fun _ t => rest.events t
  | .ongoing number name rest, s => afterwards (Build.ongoing number name) s fun v t =>
      .asked number name v :: (rest v).events t

/-- What the machine makes of an event: a transition assigns the number of the state it names to the state register,
and a test compares the register with it. -/
def Event.Faithful (number : Nat) (m : Machine) : Event → Prop
  | .transition n name added => n = number → ∃ code, m.encoding? name = some code ∧
      ∀ x ∈ added, x = .assign (.signal m.state) (.ofInt code)
  | .asked n name answer => n = number → ∃ code, m.encoding? name = some code ∧
      answer = .binary .eq (.signal m.state) (.ofInt code) (.unsigned 1)
  | _ => True

theorem Event.Faithful.mentioning (h : e.Faithful number m)
    (names : List String) : e.Faithful number (m.mentioning names) := by
  cases e with
  | transition | asked =>
    intro hn
    obtain ⟨code, hcode, hrest⟩ := h hn
    refine ⟨code, Machine.encoding?_mentioning hcode names, ?_⟩
    rw [Machine.mentioning_eq]
    exact hrest
  | _ => trivial

/-- The machines of `t` are those of `s` after the events, and perhaps new ones. -/
structure Follows (es : List Event) (s t : State α) : Prop where
  size : s.machines.size ≤ t.machines.size
  machines : ∀ (number : Nat) (m : Machine), s.machines[number]? = some m →
    t.machines[number]? = some (m.mentioning (mentions number es))
  faithful : ∀ (number : Nat) (m : Machine), s.machines[number]? = some m →
    ∀ e ∈ es, e.Faithful number (m.mentioning (mentions number es))

theorem mentions_append (number : Nat) (es es' : List Event) :
    mentions number (es ++ es') = mentions number es ++ mentions number es' := filterMap_append

theorem Follows.trans {es es' : List Event} {u : State α} (h : Follows es s t) (h' : Follows es' t u) :
    Follows (es ++ es') s u where
  size := h.size.trans h'.size
  machines number m hm := by
    rw [mentions_append, Machine.mentioning_append]
    exact h'.machines number _ (h.machines number m hm)
  faithful number m hm e he := by
    rw [mentions_append, Machine.mentioning_append]
    rcases mem_append.mp he with he | he
    · exact (h.faithful number m hm e he).mentioning _
    · exact h'.faithful number _ (h.machines number m hm) e he

theorem Calm.follows (h : Calm s t) : Follows [] s t where
  size := (congrArg Array.size h.machines).ge
  machines number _ hm := (congrArg (·[number]?) h.machines).trans hm
  faithful _ _ _ _ he := absurd he not_mem_nil

/-- The only event at the end of a construct is the definition of a state that was entered. -/
theorem mem_completion (h : e ∈ c.completion b frame s) :
    ∃ number name body, e = .defined number name body ∧ .entered number name ∈ c.entry b := by
  cases c with
  | state name =>
    obtain ⟨number, hnumber, h⟩ := mem_flatMap.mp h
    unfold afterwards at h
    split at h
    · exact ⟨number, name, _, mem_singleton.mp h, mem_map.mpr ⟨number, hnumber, rfl⟩⟩
    · exact absurd h not_mem_nil
  | _ => exact absurd h not_mem_nil

/-- Definitions change nothing about a machine. -/
theorem Follows.completion {es : List Event} (h : Follows es s t) (b : Builder α) (frame : Frame) (u : State α)
    (c : Construct) : Follows (es ++ c.completion b frame u) s t := by
  have hquiet (number : Nat) : mentions number (c.completion b frame u) = [] := by
    refine filterMap_eq_nil_iff.mpr fun e he => ?_
    obtain ⟨n, name, body, rfl, -⟩ := mem_completion he
    rfl
  refine ⟨h.size, fun number m hm => ?_, fun number m hm e he => ?_⟩
  · rw [mentions_append, hquiet, append_nil]
    exact h.machines number m hm
  · rw [mentions_append, hquiet, append_nil]
    rcases mem_append.mp he with he | he
    · exact h.faithful number m hm e he
    · obtain ⟨n, name, body, rfl, -⟩ := mem_completion he
      trivial

/-- One more state is mentioned. -/
theorem follows_encode (number : Nat) (name : String)
    (ht : t.machines = s.machines.setIfInBounds number ((s.machines.getD number Inhabited.default).encode name).1)
    (hname : ∀ n, e.mention? n = if number = n then some name else none)
    (hfaithful : ∀ m, s.machines[number]? = some m → e.Faithful number (m.encode name).1)
    (hother : ∀ n m, number ≠ n → e.Faithful n m) : Follows [e] s t := by
  have hget (n : Nat) (m : Machine) (hm : s.machines[n]? = some m) :
      t.machines[n]? = some (m.mentioning (mentions n [e])) ∧ e.Faithful n (m.mentioning (mentions n [e])) := by
    have hmention : mentions n [e] = if number = n then [name] else [] := by
      by_cases hn : number = n <;> simp [mentions, hname, hn]
    rw [ht, Array.getElem?_setIfInBounds, hmention]
    by_cases hn : number = n
    · subst hn
      obtain ⟨hlt, rfl⟩ := Array.getElem?_eq_some_iff.mp hm
      rw [if_pos rfl, if_pos rfl, if_pos hlt, Array.getD_eq_getD_getElem?, hm]
      exact ⟨rfl, hfaithful _ hm⟩
    · rw [if_neg hn, if_neg hn]
      exact ⟨hm, hother n _ hn⟩
  refine ⟨?_, fun n m hm => (hget n m hm).1, fun n m hm e' he' => ?_⟩
  · rw [ht, Array.size_setIfInBounds]
  · rw [mem_singleton.mp he']
    exact (hget n m hm).2

theorem addStatements_last {domain : String} {id : SignalId} {n : Int} {u : Unit}
    (hg : Gives (addStatements domain [.assign (.signal id) (.ofInt n)]) s u t) :
    t.block.statements.getLast? = some (.assign (.signal id) (.ofInt n)) := by
  obtain ⟨u2, s2, -, hg⟩ := gives_bind.mp (required_inv hg).2
  obtain ⟨u3, s3, hone, hnil⟩ := gives_bind.mp hg
  obtain ⟨-, rfl⟩ := gives_pure.mp hnil
  have hadd : Yields (addStatement domain (.assign (.signal id) (.ofInt n))) s2
      (fun _ t => t.block.statements.getLast? = some (.assign (.signal id) (.ofInt n))) fun _ => True := by
    refine yields_addStatement trivial fun filled nets _ hplaced _ => ⟨fun _ t _ => ?_, fun _ _ _ => trivial⟩
    have hfilled : filled = [.assign (.signal id) (.ofInt n)] := by
      unfold placed at hplaced
      split at hplaced
      · exact (Except.ok.inj hplaced).symm
      · exact (Except.ok.inj hplaced).symm
    rw [hfilled]
    exact getLast?_concat
  exact hadd.1 u3 s3 hone

theorem addStatements_calm (domain : String) (stmts : List Statement) : Moves Calm (addStatements domain stmts : Build α Unit) :=
  Calm.isPath.bind (calm_of_idle (idle_of_still (still_of_reports (requireContext_reports _ _)))) fun _ =>
    Calm.isPath.bind moves_flush fun _ => calm_of_idle (addEach_idle domain stmts)

/-- The state after a state of a machine was mentioned. -/
def State.mentioned (s : State α) (number : Nat) (name : String) : State α :=
  { s with machines := s.machines.setIfInBounds number ((s.machines.getD number Inhabited.default).encode name).1 }

theorem getD_mentioned (hm : s.machines[number]? = some m) (name : String) :
    (s.mentioned number name).machines.getD number Inhabited.default = (m.encode name).1 ∧
      ((s.machines.getD number Inhabited.default).encode name).2 = (m.encode name).2 := by
  have hold : s.machines.getD number Inhabited.default = m := by
    rw [Array.getD_eq_getD_getElem?, hm]
    rfl
  have hlt := (Array.getElem?_eq_some_iff.mp hm).1
  refine ⟨?_, by rw [hold]⟩
  unfold State.mentioned
  rw [hold, Array.getD_eq_getD_getElem?, Array.getElem?_setIfInBounds_self_of_lt hlt]
  rfl

theorem run_block_bind (f : Builder α → Build α β) : (Build.block >>= f).run.run s = (f s.block).run.run s := rfl

/-- A transition mentions its state and then adds an assignment of its number. -/
theorem run_next (name : String)
    (howner : (if s.block.context = .machine then none else innermostMachine? s.block.stack) = some number) :
    (next name).run.run s =
      (addStatements ((s.mentioned number name).machines.getD number Inhabited.default).domain
        [.assign (.signal ((s.mentioned number name).machines.getD number Inhabited.default).state)
          (.ofInt ((s.machines.getD number Inhabited.default).encode name).2)]).run.run (s.mentioned number name) := by
  rw [next, run_block_bind, howner]
  rfl

theorem next_follows (name : String) : Ends (next name) s (Follows (transition name s) s) := by
  unfold transition
  cases howner : if s.block.context = .machine then none else innermostMachine? s.block.stack with
  | none =>
    refine ends_bind (ends_read _ (Calm.isPath.refl s).follows) fun b t hb => ?_
    obtain ⟨rfl, rfl⟩ := gives_block.mp hb
    rw [howner]
    exact ends_throw _ (Calm.isPath.refl s).follows
  | some number =>
    have hrun := run_next name howner
    have hcalm : Calm (s.mentioned number name) ((next name).run.run s).2 := by
      rw [hrun]
      exact addStatements_calm _ _ _
    refine follows_encode number name hcalm.machines (fun n => rfl) (fun m hm _ => ?_)
      fun n m hne heq => absurd heq hne
    refine ⟨_, m.encoding?_encode_self name, fun x hx => ?_⟩
    unfold added? at hx
    split at hx
    · rename_i u t hok
      have hg := gives_run.mpr (hrun.symm.trans hok)
      rw [(getD_mentioned hm name).1, (getD_mentioned hm name).2] at hg
      exact (Option.some.inj ((addStatements_last hg).symm.trans hx)).symm
    · cases hx

theorem afterwards_ok {a : β} (hg : Gives x s a t) :
    afterwards x s es = es a t := by
  unfold afterwards
  rw [gives_run.mp hg]

theorem afterwards_error {e : Failure} (hx : x.run.run s = (.error e, t)) : afterwards x s es = []:= by
  unfold afterwards
  rw [hx]

/-- The events of a call that succeeded, and of none that failed. -/
theorem follows_of_yields
    (hx : Yields x s (fun a t => Follows (es a t) s t) (Follows [] s)) : Ends x s (Follows (afterwards x s es) s) := by
  cases hrun : x.run.run s with
  | mk r t =>
    cases r with
    | ok a =>
      rw [afterwards_ok hrun]
      exact ends_of_eq hrun (hx.1 a t hrun)
    | error e =>
      rw [afterwards_error hrun]
      exact ends_of_eq hrun (hx.2 e t hrun)

theorem follows_bind {γ : Type} {f : β → Build α γ} {es : List Event} {es' : β → State α → List Event}
    (hx : Ends x s (Follows es s)) (hf : ∀ a t, Gives x s a t → Ends (f a) t (Follows (es' a t) t)) :
    Ends (x >>= f) s (Follows (es ++ afterwards x s es') s) := by
  cases hrun : x.run.run s with
  | mk r t =>
    cases r with
    | ok a =>
      rw [afterwards_ok hrun]
      exact ends_bind_of_gives hrun ((hx.gives hrun).trans (hf a t hrun))
    | error =>
      rw [afterwards_error hrun, append_nil]
      unfold Ends at hx
      rw [hrun] at hx
      exact ends_bind_of_error hrun hx

theorem follows_isPath : IsPath (Follows (α := α) []) where
  refl s := (Calm.isPath.refl s).follows
  trans h h' := h.trans h'

/-- A state that the machine knows is mentioned again. -/
theorem follows_known
    (h : ∀ m : Machine, s.machines[number]? = some m → (m.encode name).1 = m) : Follows [.reset number name] s s := by
  refine follows_encode number name ?_ (fun _ => rfl) (fun _ _ => trivial) fun _ _ _ => trivial
  by_cases hlt : number < s.machines.size
  · have hm := Array.getElem?_eq_getElem hlt
    rw [Array.getD_eq_getD_getElem?, hm, Option.getD_some, h _ hm]
    refine Array.ext_getElem? fun i => ?_
    rw [Array.getElem?_setIfInBounds]
    split
    · rename_i hi
      rw [← hi, hm]
    · rfl
  · rw [Array.setIfInBounds_eq_of_size_le (Nat.le_of_not_lt hlt)]

/-- A state is opened directly in the machine on top of the stack, under a name that is not defined there. One that
cannot be opened is not mentioned. -/
theorem openState_yields (name : String) : Yields (openState name) s
    (fun frame t => ∃ base number states, s.block.context = .machine ∧ s.block.stack = base ++ [.machine number states] ∧
      name ∉ states.map Prod.fst ∧ frame = .state base.length name s.block.statements ∧
      t = { s.mentioned number name with block := { s.block with context := .plain, statements := [] } })
    fun t => t = s := by
  refine yields_required (fun hcontext => yields_top_bind fun o htop => ?_) rfl
  split
  · rename_i position number states
    obtain ⟨-, base, hstack, rfl⟩ := top_inv htop
    split
    · exact yields_throw_bind rfl
    · rename_i hfree
      refine yields_of_gives rfl ⟨base, number, states, hcontext, hstack, fun hmem => ?_, rfl, rfl⟩
      obtain ⟨p, hp, hname⟩ := mem_map.mp hmem
      exact hfree (any_eq_true.mpr ⟨p, hp, decide_eq_true hname⟩)
  · exact yields_throw _ rfl

theorem innermostMachine?_concat (base : List Control) (number : Nat) (states : List (String × List Statement)) :
    innermostMachine? (base ++ [.machine number states]) = some number := by
  unfold innermostMachine?
  rw [reverse_append]
  rfl

theorem opened_follows (c : Construct) :
    Yields c.opened s (fun _ t => Follows (c.entry s.block) s t) (Follows [] s) := by
  have hcalm (h : ∀ name, c ≠ .state name) : Ends c.opened s (Follows [] s) :=
    ((opened_carries (R := Calm) c fun name hc => absurd hc (h name)).moves s).follows
  cases c with
  | state name =>
    refine (openState_yields name).imp (fun frame t ht => ?_) fun t ht => ht ▸ follows_isPath.refl s
    obtain ⟨base, number, states, -, hstack, -, -, rfl⟩ := ht
    unfold Construct.entry
    rw [hstack, innermostMachine?_concat]
    exact follows_encode number name rfl (fun _ => rfl) (fun _ _ => trivial) fun _ _ _ => trivial
  | _ => exact (hcalm fun _ h => by cases h).yields

/-- The machines follow the events of a construct's opening and of its body; its end adds nothing. -/
theorem inside_follows {opened : Build α Frame} {body : Build α Unit} {entry : List Event}
    {es : Frame → State α → List Event} (hopened : Yields opened s (fun _ t => Follows entry s t) (Follows [] s))
    (hbody : ∀ frame s1, Ends body s1 (Follows (es frame s1) s1)) :
    Ends (inside opened body) s (Follows (afterwards opened s fun frame s1 => entry ++ es frame s1) s) := by
  cases hrun : opened.run.run s with
  | mk r s1 =>
    cases r with
    | error e =>
      rw [afterwards_error hrun]
      exact ends_bind_of_error hrun (hopened.2 e s1 hrun)
    | ok frame =>
      rw [afterwards_ok hrun]
      refine ends_bind_of_gives hrun ((hopened.1 frame s1 hrun).trans ?_)
      -- Leaving the construct, whether its body failed or not, is calm.
      have hcalm {t u : State α} (ht : Follows (es frame s1) s1 t) (hu : Calm t u) : Follows (es frame s1) s1 u := by
        have h := ht.trans hu.follows
        rwa [append_nil] at h
      have htry : Ends (tryCatch body fun e => do
          abandon frame
          throw e) s1 (Follows (es frame s1) s1) :=
        ends_tryCatch (hbody frame s1) (fun _ => id) fun e t ht =>
          hcalm ht (Calm.isPath.bind (moves_abandon frame) (fun _ => Calm.isPath.throw e) t)
      exact ends_bind htry fun u t hg => hcalm (htry.gives hg) (moves_close frame t)

theorem issue_inv {spec : SignalSpec} {id : SignalId} (hg : Gives (Build.issue spec) s id t) :
    ∃ σ, s.arenas.issue s.block.arena spec = .ok (σ, id) ∧ t = { s with arenas := σ } := by
  replace hg := gives_arenas_bind.mp hg
  replace hg := gives_block_bind.mp hg
  obtain ⟨⟨σ, id'⟩, s1, hraise, hg⟩ := gives_bind.mp hg
  obtain ⟨hissue, rfl⟩ := gives_raise.mp hraise
  replace hg := gives_modify_bind.mp hg
  obtain ⟨rfl, rfl⟩ := gives_pure.mp hg
  exact ⟨σ, hissue, rfl⟩

/-- The state after a machine was created, with its register. -/
def State.created (s : State α) (opts : MachineOptions) (σ : Arenas) (state : SignalId) : State α :=
  { s with
    arenas := σ
    machines := s.machines.push (Machine.create opts state)
    block := { s.block with generated := setAttr opts.name s.machines.size s.block.generated } }

/-- The state after a machine was put on the stack. -/
def State.entered (s : State α) (number : Nat) : State α :=
  { s with block := { s.block with
    context := .machine
    stack := s.block.stack ++ [.machine number []]
    depth := s.block.depth + 1 } }

/-- Opening a machine issues its register, finishes what is open beside it and puts it on the stack. -/
theorem yields_openMachine {P : Frame × Nat → State α → Prop} {I : State α → Prop} (hI : ∀ t, Still s t → I t)
    (h : ∀ σ state, s.block.context = .plain → s.arenas.issue s.block.arena (Machine.registerSpec opts) = .ok (σ, state) →
      Yields flush (s.created opts σ state)
        (fun _ t => P (.machine t.block.stack.length s.machines.size, s.machines.size) (t.entered s.machines.size)) I) :
    Yields (openMachine opts) s P I := by
  refine yields_required (fun hcontext => ?_) (hI s (Still.isPath.refl s))
  split
  · exact yields_throw_bind (hI s (Still.isPath.refl s))
  refine (issue_still _).yields_bind (fun state s1 hissue _ => ?_) hI
  obtain ⟨σ, hσ, rfl⟩ := issue_inv hissue
  refine yields_get_bind (yields_modify_bind (yields_modify_bind ?_))
  have hpush : Yields (push fun _ => .machine s.machines.size []) (s.created opts σ state) (fun position t =>
      P (.machine position s.machines.size, s.machines.size)
        { t with block := { t.block with context := .machine, depth := t.block.depth + 1 } }) I :=
    (h σ state hcontext hσ).bind fun _ t ht =>
      yields_block_bind (yields_modify_bind (yields_of_gives (gives_pure.mpr ⟨rfl, rfl⟩) ht))
  exact hpush.bind fun position t ht =>
    yields_modify_bind (yields_modify_bind (yields_of_gives (gives_pure.mpr ⟨rfl, rfl⟩) ht))

theorem openMachine_inv (hg : Gives (openMachine opts) s (frame, number) t) :
    s.block.context = .plain ∧ number = s.machines.size ∧ ∃ σ state s1,
      s.arenas.issue s.block.arena (Machine.registerSpec opts) = .ok (σ, state) ∧
      Gives flush (s.created opts σ state) () s1 ∧ frame = .machine s1.block.stack.length number ∧
      t = s1.entered number := by
  have hspec : Yields (openMachine opts) s (fun opened t => s.block.context = .plain ∧ opened.2 = s.machines.size ∧
      ∃ σ state s1, s.arenas.issue s.block.arena (Machine.registerSpec opts) = .ok (σ, state) ∧
        Gives flush (s.created opts σ state) () s1 ∧ opened.1 = .machine s1.block.stack.length opened.2 ∧
        t = s1.entered opened.2) fun _ => True :=
    yields_openMachine (fun _ _ => trivial) fun σ state hcontext hissue =>
      ⟨fun _ s1 hflush => ⟨hcontext, rfl, σ, state, s1, hissue, hflush, rfl, rfl⟩, fun _ _ _ => trivial⟩
  exact hspec.1 (frame, number) t hg

theorem State.entered_calm (s : State α) (number : Nat) : Calm s (s.entered number) := ⟨⟨rfl, rfl, fun _ => id⟩, rfl⟩

/-- Relations that the creation of a machine is along, and every calm step. -/
theorem moves_openMachine {R : State α → State α → Prop} (hR : IsPath R) (hcalm : ∀ s t, Calm s t → R s t)
    (hcreated : ∀ s σ state, s.arenas.issue s.block.arena (Machine.registerSpec opts) = .ok (σ, state) →
      R s (s.created opts σ state)) : Moves R (openMachine opts) := by
  intro s
  refine Yields.ends (P := fun _ => R s) (yields_openMachine (fun t ht => hcalm s t ht.toCalm) fun σ state _ hissue => ?_)
    fun _ _ => id
  have hflush : Ends flush (s.created opts σ state) (R s) :=
    (moves_flush (R := Calm) _).imp fun t ht => hR.trans (hcreated s σ state hissue) (hcalm _ t ht)
  exact hflush.yields.imp (fun _ t ht => hR.trans ht (hcalm t _ (t.entered_calm _))) fun _ => id

/-- A machine is opened under a number of its own. -/
theorem openMachine_follows (opts : MachineOptions) : Moves (Follows []) (openMachine opts : Build α (Frame × Nat)) := by
  refine moves_openMachine follows_isPath (fun _ _ h => h.follows) fun s σ state _ => ⟨?_, fun number m hm => ?_, ?_⟩
  · exact (Nat.le_succ _).trans_eq (Array.size_push _).symm
  · have hlt := (Array.getElem?_eq_some_iff.mp hm).1
    exact (Array.getElem?_push_lt hlt).trans ((Array.getElem?_eq_getElem hlt).symm.trans hm)
  · exact fun _ _ _ _ he => absurd he not_mem_nil

/-- A machine whose body fails is left where the body failed. -/
theorem run_machine_of_error {e : Failure} {s1 s2 : State α}
    (hopen : Gives (openMachine opts) s (frame, number) s1) (hbody : (body number).run.run s1 = (.error e, s2)) :
    (machine opts body).run.run s = (.error e, { s2 with block := left frame s2.block }) := by
  have hinside : (inside (pure frame) (body number)).run.run s1 = (.error e, { s2 with block := left frame s2.block }) :=
    (run_bind_of_gives (gives_pure.mpr ⟨rfl, rfl⟩)).trans (run_bind_of_error (run_rescue hbody))
  exact (run_bind_of_gives hopen).trans (run_bind_of_error hinside)

theorem getElem?_openMachine (hg : Gives (openMachine opts) s (frame, number) t) :
    ∃ state, t.machines[number]? = some (Machine.create opts state) := by
  obtain ⟨-, rfl, σ, state, s1, -, hflush, -, rfl⟩ := openMachine_inv hg
  refine ⟨state, ?_⟩
  change s1.machines[s.machines.size]? = _
  rw [((moves_flush (R := Calm)).gives hflush).machines]
  exact Array.getElem?_push_size

theorem create_eq (opts : MachineOptions) (state : SignalId) :
    Machine.create opts state = (⟨opts.name, opts.domain, state, opts.reset, []⟩ : Machine).mentioning
      (if opts.reset = "" then [] else [opts.reset]) := by
  unfold Machine.create
  split <;> rfl

/-- The reset state of a machine is known from the start. -/
theorem openMachine_entry (opts : MachineOptions) : Yields (openMachine opts) s
    (fun opened t => Follows (MachineOptions.entry opts opened.2) s t) (Follows [] s) := by
  refine ⟨fun (frame, number) t hg => ?_, fun e t h => (openMachine_follows opts).ends h⟩
  suffices hentry : Follows (MachineOptions.entry opts number) t t from
    ((openMachine_follows opts).gives hg).trans hentry
  obtain ⟨state, hm⟩ := getElem?_openMachine hg
  unfold MachineOptions.entry
  split
  · exact follows_isPath.refl t
  · rename_i hreset
    refine follows_known fun m hm' => ?_
    obtain rfl := Option.some.inj (hm.symm.trans hm')
    rw [create_eq, if_neg hreset, Machine.encode_fst]
    have hmem : opts.reset ∈ ((⟨opts.name, opts.domain, state, opts.reset, []⟩ : Machine).mentioning [opts.reset]).order := by
      rw [Machine.order_mentioning rfl]
      exact mem_singleton_self _
    rw [if_pos hmem]

/-- The machines follow the events of a machine's body. -/
theorem machine_follows {es : Nat → State α → List Event}
    (hbody : ∀ number s1, Ends (body number) s1 (Follows (es number s1) s1)) :
    Ends (machine opts body) s (Follows (machineEvents opts es s) s) := by
  unfold machineEvents
  cases hrun : (openMachine opts).run.run s with
  | mk r s1 =>
    cases r with
    | error e =>
      rw [afterwards_error hrun]
      exact ends_bind_of_error hrun ((openMachine_entry opts).2 e s1 hrun)
    | ok opened =>
      have hopened := (openMachine_entry opts).1 opened s1 hrun
      rw [afterwards_ok hrun]
      refine ends_bind_of_gives hrun ?_
      have hinside : Ends (inside (pure opened.1) (body opened.2)) s1
          (Follows (afterwards (pure opened.1 : Build α Frame) s1 fun _ s2 => [] ++ es opened.2 s2) s1) :=
        inside_follows (yields_of_gives (gives_pure.mpr ⟨rfl, rfl⟩) (follows_isPath.refl s1)) fun _ s2 => hbody opened.2 s2
      exact ends_bind (hopened.trans hinside) fun u t hg => ends_pure opened.2 (hopened.trans (hinside.gives hg))

/-- A test for a state mentions it and compares the state register with its number; it never fails. -/
theorem run_ongoing (number : Nat) (name : String) :
    (Build.ongoing number name).run.run s =
      (.ok (.binary .eq (.signal ((s.mentioned number name).machines.getD number Inhabited.default).state)
        (.ofInt ((s.machines.getD number Inhabited.default).encode name).2) (.unsigned 1)), s.mentioned number name) := rfl

theorem ongoing_follows {v : Value} (hg : Gives (Build.ongoing number name) s v t) :
    Follows [.asked number name v] s t := by
  obtain ⟨hv, rfl⟩ := Prod.mk.inj ((run_ongoing number name).symm.trans hg)
  obtain rfl := Except.ok.inj hv
  refine follows_encode number name rfl (fun _ => rfl) (fun m hm _ => ?_) fun n m hne heq => absurd heq hne
  rw [(getD_mentioned hm name).1, (getD_mentioned hm name).2]
  exact ⟨_, m.encoding?_encode_self name, rfl⟩

/-- The machines follow the events of a program, whatever its outcome. -/
theorem build_follows (p : Program α) (s : State α) : Ends p.build s (Follows (p.events s) s) := by
  induction p generalizing s with
  | done => exact ends_pure () (follows_isPath.refl s)
  | look rest ih => exact ih s s
  | act a rest ih =>
    have ha : Moves (Follows []) a.build := by
      cases a with
      | add domain stmts => exact (addStatements_calm domain stmts).imp fun _ _ h => h.follows
      | submodule name sub => exact (addSubmodule_enrolled name sub).imp fun _ _ h => h.idle.toCalm.follows
      | domains list => exact (addDomains_enrolled list).imp fun _ _ h => h.idle.toCalm.follows
    exact follows_bind (ha s) fun _ t _ => ih t
  | signal spec rest ih =>
    exact follows_bind ((issue_still spec s).toCalm.follows) fun id t _ => ih id t
  | block c body rest ihbody ih =>
    refine follows_bind (inside_follows (opened_follows c) fun frame s1 => ?_) fun _ t _ => ih t
    have hbody := ihbody s1
    unfold afterwards
    split
    · exact hbody.completion _ _ _ _
    · rw [append_nil]
      exact hbody
  | machine opts body rest ihbody ih =>
    exact follows_bind (machine_follows fun number s1 => ihbody number s1) fun number t _ => ih number t
  | next name rest ih => exact follows_bind (next_follows name) fun _ t _ => ih t
  | ongoing number name rest ih =>
    have hg : Gives (Build.ongoing number name) s _ _ := run_ongoing number name
    unfold Program.events
    rw [afterwards_ok hg]
    exact ends_bind_of_gives hg ((ongoing_follows hg).trans (ih _ _))

/-- What every building step moves along. -/
class Admits (R : State α → State α → Prop) : Prop extends Tolerates R where
  idle : ∀ {β : Type} {x : Build α β}, Moves Idle x → Moves R x
  encode : ∀ number name, Moves R (Build.encode number name)
  openMachine : ∀ opts, Moves R (openMachine opts)

namespace Admits

variable {R : State α → State α → Prop} [hR : Admits R]

theorem opened (c : Construct) : Moves R (c.opened : Build α Frame) :=
  (opened_carries c fun name _ n => encode n name).moves

theorem inside {opened : Build α Frame} {body : Build α Unit} (hopened : Moves R opened) (hbody : Moves R body) :
    Moves R (inside opened body) := by
  refine hR.bind hopened fun frame => hR.bind (hR.tryCatch hbody fun e => ?_) fun _ => moves_close frame
  exact hR.bind (moves_abandon frame) fun _ => hR.throw e

theorem addStatements (domain : String) (stmts : List Statement) : Moves R (addStatements domain stmts : Build α Unit) :=
  hR.bind (hR.still (still_of_reports (requireContext_reports _ _))) fun _ =>
    hR.bind moves_flush fun _ => idle (addEach_idle domain stmts)

theorem act (a : Act α) : Moves R a.build := by
  cases a with
  | add domain stmts => exact addStatements domain stmts
  | submodule name sub => exact idle ((addSubmodule_enrolled name sub).imp fun _ _ => Enrolled.idle)
  | domains list => exact idle ((addDomains_enrolled list).imp fun _ _ => Enrolled.idle)

theorem next (name : String) : Moves R (next name : Build α Unit) := by
  refine hR.bind (hR.read _) fun b => ?_
  split
  · exact hR.throw _
  · exact hR.bind (encode _ _) fun _ => hR.bind (hR.read _) fun _ => addStatements _ _

theorem ongoing (number : Nat) (name : String) : Moves R (Build.ongoing number name : Build α Value) :=
  hR.bind (encode number name) fun _ => hR.bind (hR.read _) fun _ => hR.bind (hR.read _) fun _ => hR.raise _

theorem machine (opts : MachineOptions) {body : Nat → Build α Unit} (hbody : ∀ number, Moves R (body number)) :
    Moves R (machine opts body) :=
  hR.bind (openMachine opts) fun opened => hR.bind (inside (hR.pure _) (hbody opened.2)) fun _ => hR.pure _

theorem build (p : Program α) : Moves R p.build := by
  induction p with
  | done => exact hR.pure ()
  | look rest ih => exact fun s => ih s s
  | act a rest ih => exact hR.bind (act a) fun _ => ih
  | signal spec rest ih => exact hR.bind (hR.still (issue_still spec)) fun id => ih id
  | block c body rest ihbody ih => exact hR.bind (inside (opened c) ihbody) fun _ => ih
  | machine opts body rest ihbody ih => exact hR.bind (machine opts ihbody) fun number => ih number
  | next name rest ih => exact hR.bind (next name) fun _ => ih
  | ongoing number name rest ih => exact hR.bind (ongoing number name) fun v => ih v

end Admits

/-- A program stays with its arena and keeps issued signals issued. -/
instance : Admits (Rooted (α := α)) where
  idle h := rooted_of_calm (calm_of_idle h)
  encode _ _ _ := ⟨rfl, rfl, fun _ => id⟩
  openMachine _ := moves_openMachine Rooted.isPath (fun _ _ h => h.toRooted) fun _ _ _ hissue =>
    ⟨rfl, (Arenas.issue_extends hissue).size, (Arenas.issue_extends hissue).issued⟩

/-- Every state that is defined is also mentioned. -/
def Announced (n : Nat) (es : List Event) : Prop := ∀ name ∈ (definitions n es).map Prod.fst, name ∈ mentions n es

theorem definitions_append (number : Nat) (es es' : List Event) :
    definitions number (es ++ es') = definitions number es ++ definitions number es' := filterMap_append

theorem announced_nil (n : Nat) : Announced n [] := fun _ h => absurd h not_mem_nil

theorem Announced.append {es es' : List Event} (h : Announced n es) (h' : Announced n es') :
    Announced n (es ++ es') := by
  intro name hname
  rw [definitions_append, map_append] at hname
  rw [mentions_append]
  rcases mem_append.mp hname with hname | hname
  · exact mem_append_left _ (h name hname)
  · exact mem_append_right _ (h' name hname)

theorem announced_afterwards (h : ∀ a t, Announced n (es a t)) :
    Announced n (afterwards x s es) := by
  unfold afterwards
  split
  · exact h _ _
  · exact announced_nil n

theorem announced_of_no_definitions {es : List Event} (h : definitions n es = []) : Announced n es := by
  intro name hname
  rw [h] at hname
  exact absurd hname not_mem_nil

theorem definitions_entry (n : Nat) (b : Builder α) (c : Construct) : definitions n (c.entry b) = [] := by
  refine filterMap_eq_nil_iff.mpr fun e he => ?_
  cases c with
  | state =>
    obtain ⟨number, -, rfl⟩ := mem_map.mp he
    rfl
  | _ => exact absurd he not_mem_nil

theorem definitions_machineEntry (opts : MachineOptions) (number n : Nat) :
    definitions n (MachineOptions.entry opts number) = [] := by
  unfold MachineOptions.entry
  split <;> rfl

/-- A state is mentioned when its definition begins. -/
theorem announced_block {es : List Event} (h : Announced n es) :
    Announced n (c.entry b ++ (es ++ c.completion b frame s)) := by
  intro name hname
  rw [definitions_append, definitions_append, map_append, map_append] at hname
  rw [mentions_append, mentions_append]
  rw [definitions_entry, map_nil, nil_append] at hname
  rcases mem_append.mp hname with hname | hname
  · exact mem_append_right _ (mem_append_left _ (h name hname))
  · obtain ⟨d, hd, rfl⟩ := mem_map.mp hname
    obtain ⟨e, he, hdef⟩ := mem_filterMap.mp hd
    obtain ⟨number, name, body, rfl, hentered⟩ := mem_completion he
    have hn : number = n := by
      by_contra hne
      rw [Event.definition?, if_neg hne] at hdef
      cases hdef
    subst hn
    rw [Event.definition?, if_pos rfl] at hdef
    cases hdef
    exact mem_append_left _ (mem_filterMap.mpr ⟨_, hentered, if_pos rfl⟩)

theorem announced_events (p : Program α) (s : State α) (n : Nat) : Announced n (p.events s) := by
  induction p generalizing s with
  | done => exact announced_nil n
  | look rest ih => exact ih s s
  | act a rest ih => exact announced_afterwards fun _ t => ih t
  | signal spec rest ih => exact announced_afterwards fun id t => ih id t
  | block c body rest ihbody ih =>
    refine Announced.append (announced_afterwards fun frame s1 => ?_) (announced_afterwards fun _ t => ih t)
    unfold afterwards
    split
    · exact announced_block (ihbody s1)
    · rw [append_nil]
      exact (announced_of_no_definitions (definitions_entry n s.block c)).append (ihbody s1)
  | machine opts body rest ihbody ih =>
    refine Announced.append (announced_afterwards fun opened s1 => ?_) (announced_afterwards fun number t => ih number t)
    exact (announced_of_no_definitions (definitions_machineEntry opts opened.2 n)).append (ihbody opened.2 s1)
  | next name rest ih =>
    refine Announced.append (announced_of_no_definitions ?_) (announced_afterwards fun _ t => ih t)
    unfold transition
    split <;> rfl
  | ongoing number name rest ih =>
    refine announced_afterwards fun v t => ?_
    have hasked : Announced n [.asked number name v] := announced_of_no_definitions rfl
    exact hasked.append (ih v t)

end Builder
end Rtl
