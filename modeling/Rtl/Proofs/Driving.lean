import Mathlib
import Rtl.Proofs.Programs
import Rtl.Proofs.Selected

/-!
# Each signal is driven from one domain

A builder notes the domain of every net that is assigned, and refuses an assignment from another domain. It is followed
here through every call, inside the bodies of its constructs and after calls that failed halfway. Each step is
labelled with the statements it accepted and the domains they were added to. The table only grows, and every
assignment or property that the builder holds anywhere was accepted for the domain that the table gives for each of the
nets it writes. So the drivers of the elaborated fragment list each net under one domain, and cover all that its
statements assign.
-/
namespace Rtl

open List

/-- Entries stay as they are. -/
def NetTable.Grows {α : Type} (t t' : NetTable α) : Prop := ∀ n a, t.get? n = some a → t'.get? n = some a

/-- The drivers of a finished block are the entries of the driving table. -/
theorem Builder.body_drives {α : Type} {σ : Arenas} {b : Builder α} {body : Body} (hdistinct : b.driving.Distinct)
    (h : b.body σ = .ok body) {d : String} {n : Net} : body.Drives d n ↔ b.driving.get? n = some d := by
  rw [hdistinct.get?_eq_some_iff]
  unfold Body.Drives
  rw [(Builder.body_inv h).2]
  refine (Body.addDriverPairs_drives _).trans ?_
  simp [Body.Drives, Body.empty, and_comm]

namespace Builder

open Statement

/-- Statements with the domains they were added to, in order. -/
abbrev Additions := List (String × Statement)

variable {α β γ : Type} {s t : State α} {es es' : Additions} {x : Build α β} {k : β → State α → List γ}
variable {Q : Statement → Prop} {body : Build α Unit} {domain : String} {P : β → Prop}

/-- What may have been noted on the way to adding a statement: nets that had no entry have got one. -/
structure Noted (s t : State α) : Prop where
  distinct : s.block.driving.Distinct → t.block.driving.Distinct
  grows : s.block.driving.Grows t.block.driving
  statements : t.block.statements = s.block.statements
  stack : t.block.stack = s.block.stack

theorem Noted.isPath : IsPath (Noted (α := α)) where
  refl _ := ⟨id, fun _ _ => id, rfl, rfl⟩
  trans h h' := ⟨fun hs => h'.distinct (h.distinct hs), fun n d hn => h'.grows n d (h.grows n d hn),
    h'.statements.trans h.statements, h'.stack.trans h.stack⟩

/-- A net is noted, or found noted under the domain; one that is driven from another domain is an error. -/
theorem drive_step (domain : String) (n : Net) (rest : List Net) (s : State α) :
    (∃ s', Noted s s' ∧ s'.block.driving.get? n = some domain ∧
      (drive domain (n :: rest)).run.run s = (drive domain rest).run.run s') ∨
    ∃ e, (drive domain (n :: rest)).run.run s = (.error e, s) := by
  rw [drive, run_block_bind]
  cases hget : s.block.driving.get? n with
  | none =>
    refine .inl ⟨{ s with block := { s.block with driving := s.block.driving.set n domain } }, ?_,
      (NetTable.get?_set _ _ _ _).trans (if_pos rfl), rfl⟩
    refine ⟨fun h => h.set n domain, fun m d hm => ?_, rfl, rfl⟩
    have hne : n.key ≠ m.key := fun hkey => by
      rw [NetTable.get?_congr hkey, hm] at hget
      cases hget
    exact (NetTable.get?_set _ _ _ _).trans ((if_neg hne).trans hm)
  | some current =>
    dsimp only
    by_cases hdomain : current = domain
    · rw [if_neg (not_not_intro hdomain)]
      exact .inl ⟨s, Noted.isPath.refl s, hget.trans (congrArg some hdomain), rfl⟩
    · rw [if_pos hdomain]
      exact .inr ⟨_, rfl⟩

/-- Domains are noted net by net until one is driven from another domain. -/
theorem drive_notes (domain : String) (nets : List Net) (s : State α) :
    Ends (drive domain nets) s (Noted s) ∧
      ∀ {u t}, Gives (drive domain nets) s u t → ∀ n ∈ nets, t.block.driving.get? n = some domain := by
  induction nets generalizing s with
  | nil => exact ⟨ends_pure () (Noted.isPath.refl s), fun _ _ hn => absurd hn not_mem_nil⟩
  | cons n rest ih =>
    simp only [gives_run, Ends]
    obtain ⟨s', hnoted, hn, hrun⟩ | ⟨e, hrun⟩ := drive_step domain n rest s
    · rw [hrun]
      obtain ⟨hend, hdone⟩ := ih s'
      refine ⟨Noted.isPath.trans hnoted hend, fun {u t} hg => ?_⟩
      exact forall_mem_cons.mpr ⟨(hend.gives (gives_run.mpr hg)).grows n domain hn, hdone (gives_run.mpr hg)⟩
    · rw [hrun]
      exact ⟨Noted.isPath.refl s, fun {u t} hg => by cases hg⟩

/-- An assignment or property is placed as one that writes the same nets. -/
theorem placed_action {σ : Arenas} {x : Statement} {ys : List Statement} (hx : x.isAction = true)
    (h : placed σ domain x = .ok ys) :
    ∃ y, ys = [y] ∧ y.isAction = true ∧ ∀ ts, x.targets = .ok ts → y.targets = .ok ts := by
  unfold placed at h
  split at h
  · cases h
    exact ⟨x, rfl, hx, fun _ => id⟩
  · obtain ⟨y, rfl, hy⟩ := traverse_isAction hx (fillSampleDomain_singleton h)
    refine ⟨y, rfl, hy, ?_⟩
    have hsingle {z : Statement} (hz : z.isAction = true) : bodyActions [z] = [z] := by
      rw [bodyActions, actions_of_isAction hz]
      rfl
    obtain ⟨x', hx', f, rfl, -, hf⟩ := fillSampleDomain_actions h (by rw [hsingle hy]; exact mem_singleton_self y)
    rw [hsingle hx] at hx'
    obtain rfl := mem_singleton.mp hx'
    exact fun ts => targets_mapValues hf hx

/-- A statement that is taken is placed at the end of the body, and its domain is noted for all it writes. One that is
refused leaves at most notes behind. -/
theorem addStatement_yields (domain : String) (x : Statement) : Yields (addStatement domain x) s
    (fun _ t => x.isAction = true ∧ ∃ y ts s1, placed s.arenas domain x = .ok [y] ∧ y.isAction = true ∧
      x.targets = .ok ts ∧ Noted s s1 ∧ (∀ n ∈ ts.items, s1.block.driving.get? n = some domain) ∧
      t = { s1 with block := { s1.block with statements := s1.block.statements ++ [y] } }) (Noted s) := by
  refine yields_addStatement (Noted.isPath.refl s) fun filled ts hx hplaced htargets => ?_
  obtain ⟨y, rfl, hy, -⟩ := placed_action hx hplaced
  obtain ⟨hnoted, hdriven⟩ := drive_notes domain ts.items s
  refine ⟨fun _ s1 hdrive => ?_, fun _ _ h => hnoted.result h⟩
  exact ⟨hx, y, ts, s1, hplaced, hy, except_mapError_eq_ok.mp htargets, hnoted.gives hdrive, hdriven hdrive, rfl⟩

/-- What follows a call that succeeded. -/
def continued (x : Build α β) (s : State α) (k : β → State α → List γ) : List γ :=
  match x.run.run s with
  | (.ok a, t) => k a t
  | (.error _, _) => []

theorem continued_of_gives {a : β} (h : Gives x s a t) :
    continued x s k = k a t := by
  unfold continued
  rw [gives_run.mp h]

theorem continued_of_error {e : Failure} (h : x.run.run s = (.error e, t)) : continued x s k = []:= by
  unfold continued
  rw [h]

/-- The statements of a list that are taken, each with its domain: those before the first that is refused. -/
def takenEach (domain : String) : List Statement → State α → Additions
  | [], _ => []
  | x :: rest, s => continued (addStatement domain x) s fun _ t => (domain, x) :: takenEach domain rest t

/-- The statements that a call adds to a domain. -/
def taken (domain : String) (stmts : List Statement) (s : State α) : Additions :=
  continued (requireContext ("adding statements to " ++ domain) .plain) s fun _ s =>
    continued flush s fun _ s => takenEach domain stmts s

/-- What a call without a body adds. -/
def Act.taken (s : State α) : Act α → Additions
  | .add domain stmts => Builder.taken domain stmts s
  | _ => []

/-- What a transition adds: the assignment of a state number in the domain of the innermost machine. -/
def takenNext (name : String) (s : State α) : Additions :=
  match if s.block.context = .machine then none else innermostMachine? s.block.stack with
  | none => []
  | some number =>
    let s' := s.mentioned number name
    let m := s'.machines.getD number Inhabited.default
    Builder.taken m.domain
      [.assign (.signal m.state) (.ofInt ((s.machines.getD number Inhabited.default).encode name).2)] s'

/-- The assignment or property stands for one of the statements that were added. -/
def Stems (es : Additions) (x : Statement) : Prop := ∃ e ∈ es, ∃ σ, placed σ e.1 e.2 = .ok [x]

theorem Stems.mono (hsub : es ⊆ es') {x : Statement} (h : Stems es x) : Stems es' x := by
  obtain ⟨e, he, hplaced⟩ := h
  exact ⟨e, hsub he, hplaced⟩

theorem HoldsOnly.mono {Q Q' : Statement → Prop} {b : Builder α} (h : b.HoldsOnly Q) (hQ : ∀ x, Q x → Q' x) :
    b.HoldsOnly Q' :=
  ⟨fun x hx => hQ x (h.statements x hx), fun c hc x hx => hQ x (h.stack c hc x hx)⟩

/-- The builder after the statements `es` were added: the table gives their domain for all they write, and everything
held stems from one of them. -/
structure Books (es : Additions) (s : State α) : Prop where
  distinct : s.block.driving.Distinct
  entries : ∀ e ∈ es, e.2.isAction = true ∧
    ∃ ts, e.2.targets = .ok ts ∧ ∀ n ∈ ts.items, s.block.driving.get? n = some e.1
  held : s.block.HoldsOnly (Stems es)

theorem Books.grown (h : Books es s) (hdistinct : t.block.driving.Distinct)
    (hgrows : s.block.driving.Grows t.block.driving) (hheld : t.block.HoldsOnly (Stems es)) : Books es t := by
  refine ⟨hdistinct, fun e he => ?_, hheld⟩
  obtain ⟨haction, ts, hts, hentries⟩ := h.entries e he
  exact ⟨haction, ts, hts, fun n hn => hgrows n e.1 (hentries n hn)⟩

theorem Books.noted (h : Books es s) (hnoted : Noted s t) : Books es t := by
  refine h.grown (hnoted.distinct h.distinct) hnoted.grows ⟨?_, ?_⟩
  · rw [hnoted.statements]
    exact h.held.statements
  · rw [hnoted.stack]
    exact h.held.stack

/-- From `s` to `t` the statements `es'` were added, and all entries stayed as they were. -/
def Entered (es es' : Additions) (s t : State α) : Prop :=
  Books (es ++ es') t ∧ s.block.driving.Grows t.block.driving

theorem Entered.after {u : State α} (hgrows : s.block.driving.Grows u.block.driving) (h : Entered es es' u t) :
    Entered es es' s t := ⟨h.1, fun n d hn => h.2 n d (hgrows n d hn)⟩

/-- The driving table is left alone. -/
def Undriven (s t : State α) : Prop := t.block.driving = s.block.driving

theorem Undriven.isPath : IsPath (Undriven (α := α)) := ⟨fun _ => rfl, fun h h' => h'.trans h⟩

instance : Tolerates (Undriven (α := α)) where
  toIsPath := Undriven.isPath
  still h := h.imp fun _ _ h => congrArg driving h.block
  modify h _ s := (h s.block).2

theorem Books.carried (h : Books es s) (ht : t.block.HoldsOnly (Stems es) ∧ Undriven s t) :
    Entered es [] s t := by
  obtain ⟨hheld, hdriving⟩ := ht
  have hgrows : s.block.driving.Grows t.block.driving := fun n d hn => hdriving ▸ hn
  refine ⟨?_, hgrows⟩
  rw [append_nil]
  exact h.grown (hdriving ▸ h.distinct) hgrows hheld

theorem Books.carries (h : Books es s) (hx : Carries (Stems es) Undriven x P) :
    Ends x s (Entered es [] s) := (hx s h.held).1.imp fun _ ht => h.carried ht

/-- A statement that is taken is entered. -/
theorem Books.taken {x : Statement} {u : Unit} (h : Books es s)
    (hg : Gives (addStatement domain x) s u t) : Entered es [(domain, x)] s t := by
  obtain ⟨hx, y, ts, s1, hplaced, hy, hts, hnoted, hdriven, rfl⟩ := (addStatement_yields domain x).1 u t hg
  have hs1 := h.noted hnoted
  have hheld := hs1.held.mono fun _ hz => hz.mono (subset_append_left es [(domain, x)])
  refine ⟨⟨hs1.distinct, forall_mem_append.mpr ⟨hs1.entries, ?_⟩, ?_, hheld.stack⟩, hnoted.grows⟩
  · exact forall_mem_singleton.mpr ⟨hx, ts, hts, hdriven⟩
  · refine allActions_append.mpr ⟨hheld.statements, allActions_singleton.mpr fun z hz => ?_⟩
    rw [actions_of_isAction hy] at hz
    obtain rfl := mem_singleton.mp hz
    exact ⟨(domain, x), mem_append_right _ (mem_singleton_self _), s.arenas, hplaced⟩

theorem addEach_entered (domain : String) (stmts : List Statement) (h : Books es s) :
    Ends (addEach domain stmts) s (Entered es (takenEach domain stmts s) s) := by
  induction stmts generalizing s es with
  | nil => exact ends_pure () (h.carried ⟨h.held, rfl⟩)
  | cons x rest ih =>
    rw [takenEach]
    cases hrun : (addStatement domain x).run.run s with
    | mk r u =>
      cases r with
      | error e =>
        rw [continued_of_error hrun]
        have hnoted := (addStatement_yields domain x).2 e u hrun
        exact ends_bind_of_error hrun ⟨(append_nil es).symm ▸ h.noted hnoted, hnoted.grows⟩
      | ok =>
        obtain ⟨hu, hgrows⟩ := h.taken hrun
        rw [continued_of_gives hrun]
        refine ends_bind_of_gives hrun ((ih hu).imp fun t ht => .after hgrows ?_)
        unfold Entered at ht ⊢
        rwa [append_cons]

/-- After a part that only moves statements around, the books go on with what the rest adds. -/
theorem Books.andThen {f : β → Build α Unit} {k : β → State α → Additions}
    (h : Books es s) (hx : Carries (Stems es) Undriven x P)
    (hf : ∀ {a u}, Books es u → Ends (f a) u (Entered es (k a u) u)) :
    Ends (x >>= f) s (Entered es (continued x s k) s) := by
  cases hrun : x.run.run s with
  | mk r =>
    have hu := (h.carries hx).result hrun
    cases r with
    | error =>
      rw [continued_of_error hrun]
      exact ends_bind_of_error hrun hu
    | ok =>
      rw [continued_of_gives hrun]
      exact ends_bind_of_gives hrun ((hf (append_nil es ▸ hu.1)).imp fun t ht => ht.after hu.2)

theorem addStatements_entered (domain : String) (stmts : List Statement) (h : Books es s) :
    Ends (addStatements domain stmts) s (Entered es (taken domain stmts s) s) :=
  h.andThen (.still (still_of_reports (requireContext_reports _ _))) fun hu => hu.andThen flush_carries fun hu =>
    addEach_entered domain stmts hu

theorem Books.enrolled (h : Books es s) (hx : Moves Enrolled x) : Ends x s (Entered es [] s) := by
  obtain ⟨_, _, _, ht⟩ := hx s
  unfold Ends
  rw [ht]
  exact h.carried ⟨⟨h.held.statements, h.held.stack⟩, rfl⟩

theorem act_entered (a : Act α) (h : Books es s) : Ends a.build s (Entered es (a.taken s) s) := by
  cases a with
  | add domain stmts => exact addStatements_entered domain stmts h
  | submodule name sub => exact h.enrolled (addSubmodule_enrolled name sub)
  | domains list => exact h.enrolled (addDomains_enrolled list)

theorem next_entered (name : String) (h : Books es s) : Ends (next name) s (Entered es (takenNext name s) s) := by
  unfold takenNext
  cases howner : if s.block.context = .machine then none else innermostMachine? s.block.stack with
  | none =>
    have hrun : (next name).run.run s = (.error (.design (.grammar .nextOutsideState)), s) := by
      rw [next, run_block_bind, howner]
      rfl
    exact ends_of_eq hrun (h.carried ⟨h.held, rfl⟩)
  | some number =>
    unfold Ends
    rw [run_next name howner]
    exact addStatements_entered _ _ (s := s.mentioned number name) ⟨h.distinct, h.entries, h.held⟩

/-- A call that opens a construct. -/
inductive Opening where
  | construct (c : Construct)
  | machine (opts : MachineOptions)

def Opening.build : Opening → Build α Frame
  | .construct c => c.opened
  | .machine opts => do return (← openMachine opts).1

theorem openMachine_carries (opts : MachineOptions) :
    Carries Q Undriven (openMachine opts : Build α (Frame × Nat)) fun r => AllActions Q (outer r.1) := by
  intro s hs
  have hopen : Yields (openMachine opts) s (fun r t => (t.block.HoldsOnly Q ∧ Undriven s t) ∧ AllActions Q (outer r.1))
      fun t => t.block.HoldsOnly Q ∧ Undriven s t := by
    refine yields_openMachine (fun t ht => ⟨ht.block ▸ hs, congrArg driving ht.block⟩) fun σ state _ _ => ?_
    obtain ⟨hend, -⟩ := flush_carries (R := Undriven) (s.created opts σ state) ⟨hs.statements, hs.stack⟩
    refine hend.yields.imp (fun _ t ht => ⟨⟨⟨ht.1.statements, ?_⟩, ht.2⟩, ?_⟩) fun _ => id
    · exact forall_mem_append.mpr ⟨ht.1.stack, forall_mem_singleton.mpr fun _ h => absurd h not_mem_nil⟩
    · exact fun _ h => absurd h not_mem_nil
  exact ⟨hopen.ends fun _ _ h => h.1, fun a t hg => (hopen.1 a t hg).2⟩

theorem opening_carries (o : Opening) :
    Carries Q Undriven (o.build : Build α Frame) fun f => AllActions Q (outer f) := by
  cases o with
  | construct c => exact opened_carries c fun _ _ _ _ => rfl
  | machine opts => exact (openMachine_carries opts).bind fun _ hr => .pure hr

/-- A builder and the frames of the constructs that are being filled, innermost first. -/
structure Site (α : Type) where
  state : State α
  frames : List Frame

/-- The assignments and properties of the builder, and those around the bodies that are being filled. -/
def Site.held (c : Site α) : List Statement :=
  c.state.block.held ++ c.frames.flatMap fun f => bodyActions (outer f)

/-- What can happen to a builder, with the statements that are added by it. A call may succeed or fail; after a failure
the constructs around it are left one after the other, up to where it is caught. Only a frame that was opened is closed
or left: it holds statements that are put back then. -/
inductive Site.Step : Site α → Additions → Site α → Prop
  /-- Signals, state machines and warnings of others. -/
  | elsewhere {s t : State α} {fs : List Frame} (h : t.block = s.block) : Site.Step ⟨s, fs⟩ [] ⟨t, fs⟩
  | act {s : State α} {fs : List Frame} (a : Act α) : Site.Step ⟨s, fs⟩ (a.taken s) ⟨(a.build.run.run s).2, fs⟩
  | next {s : State α} {fs : List Frame} (name : String) :
    Site.Step ⟨s, fs⟩ (takenNext name s) ⟨((next name).run.run s).2, fs⟩
  | opened {s t : State α} {fs : List Frame} (o : Opening) {f : Frame} (h : o.build.run.run s = (.ok f, t)) :
    Site.Step ⟨s, fs⟩ [] ⟨t, f :: fs⟩
  | refused {s t : State α} {fs : List Frame} (o : Opening) {e : Failure} (h : o.build.run.run s = (.error e, t)) :
    Site.Step ⟨s, fs⟩ [] ⟨t, fs⟩
  | closed {s : State α} {f : Frame} {fs : List Frame} : Site.Step ⟨s, f :: fs⟩ [] ⟨((close f).run.run s).2, fs⟩
  | abandoned {s : State α} {f : Frame} {fs : List Frame} : Site.Step ⟨s, f :: fs⟩ [] ⟨((abandon f).run.run s).2, fs⟩
  | finished {s : State α} {fs : List Frame} : Site.Step ⟨s, fs⟩ [] ⟨(finish.run.run s).2, fs⟩

/-- Steps one after the other, with all the statements that are added by them. -/
inductive Site.Reaches : Site α → Additions → Site α → Prop
  | refl (c : Site α) : Site.Reaches c [] c
  | step {c c' c'' : Site α} {es es' : Additions} (h : Site.Reaches c es c') (hstep : Site.Step c' es' c'') :
    Site.Reaches c (es ++ es') c''

theorem Site.Reaches.trans {c c' c'' : Site α} (h : Site.Reaches c es c') (h' : Site.Reaches c' es' c'') :
    Site.Reaches c (es ++ es') c'' := by
  induction h' with
  | refl => rwa [append_nil]
  | step h' hstep ih =>
    rw [← append_assoc]
    exact .step ih hstep

theorem Site.Reaches.single {c c' : Site α} (h : Site.Step c es c') : Site.Reaches c es c' := .step (.refl c) h

/-- Whatever is being filled, steps lead from one state to the other. -/
def Leads (s t : State α) : Prop := ∀ fs, ∃ es, Site.Reaches ⟨s, fs⟩ es ⟨t, fs⟩

theorem Leads.isPath : IsPath (Leads (α := α)) where
  refl s fs := ⟨[], .refl _⟩
  trans h h' fs := by
    obtain ⟨es, hes⟩ := h fs
    obtain ⟨es', hes'⟩ := h' fs
    exact ⟨es ++ es', hes.trans hes'⟩

theorem addStatements_leads (domain : String) (stmts : List Statement) :
    Moves Leads (addStatements domain stmts : Build α Unit) := fun _ _ => ⟨_, .single (.act (.add domain stmts))⟩

theorem next_leads (name : String) : Moves Leads (next name : Build α Unit) := fun _ _ => ⟨_, .single (.next name)⟩

/-- The body of a construct that was opened is filled. Then the construct is closed, or abandoned if the body failed. -/
theorem filled_leads (f : Frame) (hbody : Moves Leads body) (s : State α) (fs : List Frame) :
    Ends (inside (pure f) body) s fun t => ∃ es, Site.Reaches ⟨s, f :: fs⟩ es ⟨t, fs⟩ := by
  have hrescued := yields_rescue f (x := body) (P := fun _ t => ∃ es, Site.Reaches ⟨s, f :: fs⟩ es ⟨t, f :: fs⟩)
    (I := fun t => ∃ es, Site.Reaches ⟨s, f :: fs⟩ es ⟨t, fs⟩) ⟨fun _ t hg => hbody.gives hg (f :: fs), fun _ t hx => by
      obtain ⟨es, hes⟩ := hbody.ends hx (f :: fs)
      have hleft := hes.step .abandoned
      rw [run_abandon] at hleft
      exact ⟨_, hleft⟩⟩
  refine hrescued.ends_bind fun _ t ht => ?_
  obtain ⟨es, hes⟩ := ht
  exact ⟨_, hes.step .closed⟩

theorem inside_leads (o : Opening) (hbody : Moves Leads body) :
    Moves Leads (inside o.build body) := by
  intro s fs
  refine Yields.ends_bind (P := fun f t => o.build.run.run s = (.ok f, t))
    (I := fun t => ∃ es, Site.Reaches ⟨s, fs⟩ es ⟨t, fs⟩)
    ⟨fun _ _ hg => hg, fun _ _ h => ⟨_, .single (.refused o h)⟩⟩ fun f t h => ?_
  refine (filled_leads f hbody t fs).imp fun u hu => ?_
  obtain ⟨es, hes⟩ := hu
  exact ⟨_, (Site.Reaches.single (.opened o h)).trans hes⟩

theorem machine_leads (opts : MachineOptions) {body : Nat → Build α Unit}
    (hbody : ∀ number, Moves Leads (body number)) : Moves Leads (machine opts body) := by
  intro s fs
  refine Yields.ends_bind (P := fun r t => Gives (openMachine opts) s r t)
    (I := fun t => ∃ es, Site.Reaches ⟨s, fs⟩ es ⟨t, fs⟩)
    ⟨fun _ _ => id, fun _ _ h => ⟨_, .single (.refused (.machine opts) (run_bind_of_error h))⟩⟩ fun r t h => ?_
  have hfilled : Ends (inside (pure r.1) (body r.2)) t fun u => ∃ es, Site.Reaches ⟨s, fs⟩ es ⟨u, fs⟩ := by
    refine (filled_leads r.1 (hbody r.2) t fs).imp fun u hu => ?_
    obtain ⟨es, hes⟩ := hu
    exact ⟨_, (Site.Reaches.single (.opened (.machine opts) (run_bind_of_gives h))).trans hes⟩
  exact ends_bind hfilled fun _ u hg => ends_pure r.2 (hfilled.gives hg)

/-- The books of the builder are in order, and what stands around the bodies being filled stems from what was added. -/
structure Site.Books (es : Additions) (c : Site α) : Prop where
  state : Builder.Books es c.state
  frames : ∀ f ∈ c.frames, AllActions (Stems es) (outer f)

theorem Site.Step.books {c c' : Site α} (h : Site.Step c es' c') (hc : c.Books es) :
    c'.Books (es ++ es') ∧ c.state.block.driving.Grows c'.state.block.driving := by
  -- What stands around the bodies is left alone; there is only more that it may stem from.
  have hframes {s t : State α} {fs : List Frame} (hc : Site.Books es ⟨s, fs⟩) (ht : Entered es es' s t) :
      Site.Books (es ++ es') ⟨t, fs⟩ ∧ s.block.driving.Grows t.block.driving :=
    ⟨⟨ht.1, fun f hf x hx => (hc.frames f hf x hx).mono (subset_append_left _ _)⟩, ht.2⟩
  cases h with
  | elsewhere hblock => exact hframes hc (hc.state.carried ⟨hblock ▸ hc.state.held, congrArg driving hblock⟩)
  | act a => exact hframes hc (act_entered a hc.state)
  | next name => exact hframes hc (next_entered name hc.state)
  | opened o hopened =>
    obtain ⟨hend, hframe⟩ := opening_carries o _ hc.state.held
    obtain ⟨hbooks, hgrows⟩ := hframes hc (hc.state.carried (hend.gives hopened))
    rw [append_nil] at hbooks ⊢
    exact ⟨⟨hbooks.state, forall_mem_cons.mpr ⟨hframe _ _ hopened, hc.frames⟩⟩, hgrows⟩
  | refused o hrefused => exact hframes hc ((hc.state.carries (opening_carries o)).result hrefused)
  | closed =>
    obtain ⟨hf, hfs⟩ := forall_mem_cons.mp hc.frames
    exact hframes ⟨hc.state, hfs⟩ (hc.state.carries (close_carries hf))
  | abandoned =>
    obtain ⟨hf, hfs⟩ := forall_mem_cons.mp hc.frames
    exact hframes ⟨hc.state, hfs⟩ (hc.state.carries (abandon_carries hf))
  | finished => exact hframes hc (hc.state.carries finish_carries)

theorem Site.Reaches.books {c c' : Site α} (h : Site.Reaches c es' c') (hc : c.Books es) :
    c'.Books (es ++ es') ∧ c.state.block.driving.Grows c'.state.block.driving := by
  induction h with
  | refl => exact ⟨(append_nil es).symm ▸ hc, fun _ _ => id⟩
  | step h hstep ih =>
    obtain ⟨hc', hgrows⟩ := ih
    obtain ⟨hc'', hgrows'⟩ := hstep.books hc'
    exact ⟨append_assoc es _ _ ▸ hc'', fun n d hn => hgrows' n d (hgrows n d hn)⟩

theorem books_create {arena : Nat} {reports : Bool} (h : s.block = .create arena reports) :
    Site.Books [] (⟨s, []⟩ : Site α) := by
  refine ⟨⟨?_, fun _ he => absurd he not_mem_nil, ?_, ?_⟩, fun _ hf => absurd hf not_mem_nil⟩
  · rw [h]
    exact NetTable.distinct_empty
  · rw [h]
    exact fun _ hx => absurd hx not_mem_nil
  · rw [h]
    exact fun _ hc => absurd hc not_mem_nil

/-- What is held was added to the domain that the table gives for all that it writes. -/
theorem Books.domain_eq (h : Books es s) {x : Statement} (hx : Stems es x) :
    ∃ e ∈ es, (∃ σ, placed σ e.1 e.2 = .ok [x]) ∧
      ∃ ts, x.targets = .ok ts ∧ ∀ n ∈ ts.items, s.block.driving.get? n = some e.1 := by
  obtain ⟨e, he, σ, hplaced⟩ := hx
  obtain ⟨haction, ts, hts, hentries⟩ := h.entries e he
  obtain ⟨y, hy, -, htargets⟩ := placed_action haction hplaced
  obtain rfl := singleton_inj.mp hy
  exact ⟨e, he, ⟨σ, hplaced⟩, ts, htargets ts hts, hentries⟩

/-- The elaborated fragment drives what the table lists, and what its statements assign is listed. -/
theorem Books.elaborated {s : State Elaboratable} (h : Books es s) {fuel number top : Nat} {w w' : Workspace}
    (hb : w.builders[number]? = some s.block) (hg : Gives (Work.elaborateWith fuel (.builder number)) w top w') :
    (∀ d n, (w'.cell top).body.Drives d n ↔ s.block.driving.get? n = some d) ∧
      ∀ x ∈ bodyActions (w'.cell top).body.statements, ∃ e ∈ es, ∃ ts, x.targets = .ok ts ∧
        ∀ n ∈ ts.items, s.block.driving.get? n = some e.1 := by
  obtain ⟨s1, u, hfinish, hbody, -⟩ := Work.elaborateWith_builder_inv hb hg
  obtain ⟨hend, -⟩ := finish_carries (Q := Stems es) (R := Undriven) ⟨w.arenas, w.machines, w.reporter, s.block⟩ h.held
  obtain ⟨hheld, hdriving⟩ := hend.gives hfinish
  refine ⟨fun d n => ?_, fun x hx => ?_⟩
  · rw [body_drives (hdriving ▸ h.distinct) hbody, hdriving]
  · obtain ⟨y, hy, f, rfl, -, hf⟩ := fillSampleDomain_actions (body_inv hbody).1 hx
    obtain ⟨e, he, -, ts, hts, hentries⟩ := h.domain_eq (hheld.statements y hy)
    obtain ⟨x, -, hy⟩ := mem_bodyActions.mp hy
    exact ⟨e, he, ts, targets_mapValues hf (isAction_of_mem_actions hy) hts, hentries⟩

/-- In every state that a builder reaches, by whatever calls, the driving table lists each net once, and its entries
never change. The table gives the domain of every statement that was added for all it writes. Every assignment or
property held in the current body, in an open construct or around one is a statement that was added to the domain that
the table gives for all it writes. The drivers of the elaborated fragment are the entries of the table, and whatever a
statement of it assigns, at any depth, is driven from exactly the one domain it was added to. -/
theorem driven_from_one_domain {s₀ s : State Elaboratable} {arena : Nat} {reports : Bool} {fs : List Frame}
    (hnew : s₀.block = .create arena reports) (hreach : Site.Reaches ⟨s₀, []⟩ es ⟨s, fs⟩) :
    s.block.driving.Distinct ∧
    (∀ es' c, Site.Reaches ⟨s, fs⟩ es' c → s.block.driving.Grows c.state.block.driving) ∧
    (∀ e ∈ es, ∃ ts, e.2.targets = .ok ts ∧ ∀ n ∈ ts.items, s.block.driving.get? n = some e.1) ∧
    (∀ x ∈ Site.held ⟨s, fs⟩, ∃ e ∈ es, (∃ σ, placed σ e.1 e.2 = .ok [x]) ∧
      ∃ ts, x.targets = .ok ts ∧ ∀ n ∈ ts.items, s.block.driving.get? n = some e.1) ∧
    ∀ (fuel number top : Nat) (w w' : Workspace), w.builders[number]? = some s.block →
      (Work.elaborateWith fuel (.builder number)).run.run w = (.ok top, w') →
      (∀ d n, (w'.cell top).body.Drives d n ↔ s.block.driving.get? n = some d) ∧
      ∀ x ∈ bodyActions (w'.cell top).body.statements, ∃ e ∈ es, ∃ ts, x.targets = .ok ts ∧
        ∀ n ∈ ts.items, ∀ d, (w'.cell top).body.Drives d n ↔ d = e.1 := by
  obtain ⟨hbooks, -⟩ := hreach.books (books_create hnew)
  have hstate := hbooks.state
  refine ⟨hstate.distinct, fun es' c h => (h.books hbooks).2, fun e he => (hstate.entries e he).2, ?_, ?_⟩
  · intro x hx
    refine hstate.domain_eq ?_
    rcases mem_append.mp hx with hx | hx
    · exact holdsOnly_iff.mp hstate.held x hx
    · obtain ⟨f, hf, hx⟩ := mem_flatMap.mp hx
      exact hbooks.frames f hf x hx
  · intro fuel number top w w' hb helaborate
    obtain ⟨hdrives, hassigned⟩ := hstate.elaborated hb helaborate
    refine ⟨hdrives, fun x hx => ?_⟩
    obtain ⟨e, he, ts, hts, hentries⟩ := hassigned x hx
    refine ⟨e, he, ts, hts, fun n hn d => ?_⟩
    rw [hdrives, hentries n hn, Option.some.injEq, eq_comm]

section Recovered

open Work (bench bit)

/-- A builder in the workspace of the dispatching block. -/
def start : State Elaboratable := ⟨bench.arenas, #[], .empty, .create 0 false⟩

/-- The second call fails at the second net of its left side. -/
def before : Build Elaboratable Unit := do
  sync [bit 4 1]
  tryCatch (comb [.assign (.cat [.signal ⟨0, 7⟩, .signal ⟨0, 4⟩]) (.ofInt 0)]) fun _ => pure ()

/-- A switch is left because of a call that may not stand there, and stays open with the arm it has got. -/
def within : Build Elaboratable Unit := do
  comb [bit 5 0]
  tryCatch
    (switch (.value (.signal ⟨0, 3⟩)) do
      case [.int .int 3] (comb [bit 5 1])
      sync [bit 6 0])
    fun _ => pure ()
  let _ ← machine .plain fun _ => state "idle" do
    sync [bit 6 1]
    next "idle"

theorem before_leads : Moves Leads before := by
  have hpath := Leads.isPath (α := Elaboratable)
  exact hpath.bind (addStatements_leads _ _) fun _ =>
    hpath.tryCatch (addStatements_leads _ _) fun _ => hpath.pure ()

theorem within_leads : Moves Leads within := by
  have hpath := Leads.isPath (α := Elaboratable)
  have hcase : Moves Leads (case [.int .int 3] (comb [bit 5 1]) : Build Elaboratable Unit) :=
    inside_leads (.construct (.case _)) (addStatements_leads _ _)
  have hswitch := inside_leads (.construct (.switch (.value (.signal ⟨0, 3⟩))))
    (hpath.bind hcase fun _ => addStatements_leads syncDomain [bit 6 0])
  have hstate := inside_leads (.construct (.state "idle"))
    (hpath.bind (addStatements_leads syncDomain [bit 6 1]) fun _ => next_leads "idle")
  exact hpath.bind (addStatements_leads _ _) fun _ => hpath.bind (hpath.tryCatch hswitch fun _ => hpath.pure ())
    fun _ => hpath.bind (machine_leads _ fun _ => hstate) fun _ => hpath.pure ()

/-- The branch of an if around the second part. -/
def around : Frame := .branch 0 (.signal ⟨0, 1⟩) [bit 4 1]

def halfway : State Elaboratable :=
  (within.run.run ((openIf (.value (.signal ⟨0, 1⟩))).run.run (before.run.run start).2).2).2

theorem around_opened : (Opening.construct (.ifThen (.value (.signal ⟨0, 1⟩)))).build.run.run (before.run.run start).2 =
    (.ok around, ((openIf (.value (.signal ⟨0, 1⟩))).run.run (before.run.run start).2).2) := by
  rfl

/-- A workspace with the builder in it. -/
def housed (s : State Elaboratable) : Workspace :=
  { bench with arenas := s.arenas, machines := s.machines, builders := #[s.block] }

theorem housed_builder (s : State Elaboratable) : (housed s).builders[0]? = some s.block := rfl

/-- Inside an if, after calls that failed in it and before it, each signal has kept the first domain it was assigned
from, and so it has in the fragment. -/
theorem driven_from_one_domain_recovered : ∃ es w,
    Site.Reaches ⟨start, []⟩ es ⟨halfway, [around]⟩ ∧
    halfway.block.driving.entries = [(.signal ⟨0, 4⟩, syncDomain), (.signal ⟨0, 7⟩, combDomain),
      (.signal ⟨0, 5⟩, combDomain), (.signal ⟨0, 6⟩, syncDomain), (.signal ⟨0, 8⟩, syncDomain)] ∧
    (Site.held ⟨halfway, [around]⟩).length = 5 ∧
    (∀ x ∈ Site.held ⟨halfway, [around]⟩, ∃ e ∈ es, (∃ σ, placed σ e.1 e.2 = .ok [x]) ∧
      ∃ ts, x.targets = .ok ts ∧ ∀ n ∈ ts.items, halfway.block.driving.get? n = some e.1) ∧
    (Work.elaborate (some (.builder 0))).run.run (housed halfway) = (.ok 0, w) ∧
    (∀ d n, (w.cell 0).body.Drives d n ↔ halfway.block.driving.get? n = some d) ∧
    ∀ x ∈ bodyActions (w.cell 0).body.statements, ∃ e ∈ es, ∃ ts, x.targets = .ok ts ∧
      ∀ n ∈ ts.items, ∀ d, (w.cell 0).body.Drives d n ↔ d = e.1 := by
  obtain ⟨es, hbefore⟩ := before_leads start []
  obtain ⟨es', hwithin⟩ := within_leads _ [around]
  have hreach : Site.Reaches ⟨start, []⟩ (es ++ [] ++ es') ⟨halfway, [around]⟩ :=
    (hbefore.step (.opened _ around_opened)).trans hwithin
  have helaborate : (Work.elaborate (some (.builder 0))).run.run (housed halfway) = (.ok 0, _) :=
    eq_ok_of_toOption (by decide +kernel)
  have hnew : start.block = .create 0 false := rfl
  obtain ⟨-, -, -, hheld, helaborated⟩ := driven_from_one_domain hnew hreach
  obtain ⟨hdrives, hassigned⟩ := helaborated _ 0 0 _ _ (housed_builder halfway)
    ((Work.run_elaborate _ _).symm.trans helaborate)
  exact ⟨_, _, hreach, by decide +kernel, by decide +kernel, hheld, helaborate, hdrives, hassigned⟩

end Recovered

end Builder
end Rtl
