import Mathlib
import Rtl.Proofs.StateMachines
import Rtl.Workspace.Elaborate

/-!
# Names of states

A machine checks once, when its construct ends, that every state named in it was defined. After that it is no longer
on the stack of its builder, so only a test for a state can still name one. Such a test never fails: a name that was
not defined gets the next number, whether or not the state register can hold it.
-/
namespace Rtl

open List

namespace Machine

variable {m : Machine}

/-- The register holds every number of a state exactly if there are not too many states. -/
theorem fits_iff (h : m.order.Nodup) (w : Nat) :
    (∀ name v, m.encoding? name = some v → (Shape.unsigned w).normalize v = v) ↔ m.order.length ≤ 2 ^ w := by
  constructor
  · intro hfits
    by_contra hmany
    have hlt : 2 ^ w < m.order.length := Nat.lt_of_not_le hmany
    have hcode := (encoding?_eq_some_iff h).mpr (getElem?_eq_getElem hlt)
    exact absurd (lt_of_normalize (hfits _ _ hcode)) (Nat.lt_irrefl _)
  · intro hfew name v hv
    have hlt := (List.getElem?_eq_some_iff.mp ((encoding?_eq_some_iff h).mp hv)).1
    exact normalize_of_lt (hlt.trans_le hfew)

/-- The states that were there before others were mentioned are those with the first numbers. -/
theorem lt_length_iff_mem (h : m.order.Nodup) {names : List String} {name : String} {v : Nat}
    (hv : (m.mentioning names).encoding? name = some v) : v < m.order.length ↔ name ∈ m.order := by
  constructor
  · intro hlt
    have hold := encoding?_mentioning ((encoding?_eq_some_iff h).mpr (getElem?_eq_getElem hlt)) names
    have hnodup := nodup_mentioning h names
    have hsame := ((encoding?_eq_some_iff hnodup).mp hold).symm.trans ((encoding?_eq_some_iff hnodup).mp hv)
    exact Option.some.inj hsame ▸ getElem_mem hlt
  · intro hname
    have hold := encoding?_mentioning (encoding?_code hname) names
    obtain rfl := Option.some.inj (hold.symm.trans hv)
    exact code_lt h hname

end Machine

namespace Builder

variable {α β : Type} {s t u : State α}
variable {number : Nat}

/-- A machine that comes onto the stack is a new one. -/
structure NoStrays (s t : State α) : Prop where
  size : s.machines.size ≤ t.machines.size
  holds : ∀ n, Holds n t.block.stack → Holds n s.block.stack ∨ s.machines.size ≤ n ∧ n < t.machines.size

theorem NoStrays.isPath : IsPath (NoStrays (α := α)) where
  refl _ := ⟨le_rfl, fun _ => .inl⟩
  trans h h' := by
    refine ⟨h.size.trans h'.size, fun n hn => ?_⟩
    rcases h'.holds n hn with hn | ⟨hle, hlt⟩
    · rcases h.holds n hn with hn | ⟨hle, hlt⟩
      · exact .inl hn
      · exact .inr ⟨hle, hlt.trans_le h'.size⟩
    · exact .inr ⟨h.size.trans hle, hlt⟩

theorem Idle.noStrays (h : Idle s t) : NoStrays s t :=
  ⟨(congrArg Array.size h.machines).ge, fun _ hn => .inl (h.stack ▸ hn)⟩

instance : Tolerates (NoStrays (α := α)) where
  toIsPath := NoStrays.isPath
  still h := h.imp fun _ _ h => h.idle.noStrays
  modify _ hf s := ends_modify ⟨le_rfl, fun n hn => .inl (hf s.block n hn)⟩

theorem openMachine_noStrays (opts : MachineOptions) : Moves NoStrays (openMachine opts : Build α (Frame × Nat)) := by
  intro s
  refine Yields.ends (P := fun _ => NoStrays s) (yields_openMachine (fun t ht => ht.idle.noStrays) fun σ state _ _ => ?_)
    fun _ _ => id
  -- The number of the new machine is the number of machines so far.
  have hsize : (s.created opts σ state).machines.size = s.machines.size + 1 := Array.size_push _
  have hcreated : NoStrays s (s.created opts σ state) := ⟨hsize ▸ Nat.le_succ _, fun _ => .inl⟩
  have hflush : Ends flush (s.created opts σ state) (NoStrays (s.created opts σ state)) := moves_flush _
  refine hflush.yields.imp (fun _ t ht => ?_) fun t ht => NoStrays.isPath.trans hcreated ht
  have hst := NoStrays.isPath.trans hcreated ht
  refine ⟨hst.size, fun n hn => ?_⟩
  rcases holds_concat.mp hn with hn | hn
  · exact hst.holds n hn
  · obtain rfl := Option.some.inj hn
    exact .inr ⟨le_rfl, hsize.ge.trans ht.size⟩

instance : Admits (NoStrays (α := α)) where
  idle h := h.imp fun _ _ h => h.noStrays
  encode _ _ _ := ⟨Array.size_setIfInBounds.ge, fun _ => .inl⟩
  openMachine := openMachine_noStrays

theorem Step.noStrays (h : Step s t) : NoStrays s t := by
  cases h with
  | opened c => exact Admits.opened c s
  | machine opts => exact openMachine_noStrays opts s
  | closed frame => exact moves_close frame s
  | abandoned frame => exact moves_abandon frame s
  | called p => exact Admits.build p s
  | elsewhere _ _ hblock _ hsize => exact ⟨hsize, fun _ hn => .inl (hblock ▸ hn)⟩

theorem Reached.known (h : Reached s) {n : Nat} (hn : Holds n s.block.stack) : n < s.machines.size := by
  induction h with
  | created s arena reports hblock _ =>
    rw [hblock] at hn
    obtain ⟨c, hc, -⟩ := hn
    exact absurd hc not_mem_nil
  | step _ hstep ih =>
    rcases hstep.noStrays.holds n hn with hn | ⟨-, hlt⟩
    · exact (ih hn).trans_le hstep.noStrays.size
    · exact hlt

/-- The machine is there and not on the stack: its construct has ended. -/
structure Free (number : Nat) (s : State α) : Prop where
  known : number < s.machines.size
  away : ¬ Holds number s.block.stack

theorem NoStrays.free (h : NoStrays s t) (hs : Free number s) : Free number t := by
  refine ⟨hs.known.trans_le h.size, fun hn => ?_⟩
  rcases h.holds number hn with hn | ⟨hle, -⟩
  · exact hs.away hn
  · exact absurd hs.known (Nat.not_lt.mpr hle)

/-- Nothing but tests name states of the machine. -/
def OnlyAsked (number : Nat) (es : List Event) : Prop :=
  ∀ e ∈ es, ∀ name, e.mention? number = some name → ∃ answer, e = .asked number name answer

section OnlyAsked

variable {number : Nat} {es es' : List Event}

theorem onlyAsked_nil : OnlyAsked number [] := fun _ he => absurd he not_mem_nil

theorem OnlyAsked.append (h : OnlyAsked number es) (h' : OnlyAsked number es') : OnlyAsked number (es ++ es') :=
  fun e he => (mem_append.mp he).elim (h e) (h' e)

theorem onlyAsked_of_mentions (h : ∀ e ∈ es, e.mention? number = none) : OnlyAsked number es := by
  intro e he name hname
  rw [h e he] at hname
  cases hname

theorem onlyAsked_afterwards {x : Build α β} {es : β → State α → List Event} (hs : Free number s) (hx : Moves NoStrays x)
    (h : ∀ a t, Free number t → OnlyAsked number (es a t)) : OnlyAsked number (afterwards x s es) := by
  unfold afterwards
  split
  · rename_i hrun
    exact h _ _ ((hx.ends hrun).free hs)
  · exact onlyAsked_nil

theorem holds_of_innermostMachine? {stack : List Control} (h : innermostMachine? stack = some number) :
    Holds number stack := by
  obtain ⟨c, hc, hnumber⟩ := exists_of_findSome?_eq_some h
  refine ⟨c, mem_reverse.mp hc, ?_⟩
  cases c with
  | machine => exact hnumber
  | _ => cases hnumber

theorem onlyAsked_entry (hs : Free number s) (c : Construct) : OnlyAsked number (c.entry s.block) := by
  refine onlyAsked_of_mentions fun e he => ?_
  cases c with
  | state =>
    obtain ⟨n, hn, rfl⟩ := mem_map.mp he
    refine if_neg fun heq => hs.away ?_
    exact heq ▸ holds_of_innermostMachine? (Option.mem_toList.mp hn)
  | _ => exact absurd he not_mem_nil

theorem onlyAsked_completion (b : Builder α) (frame : Frame) (c : Construct) :
    OnlyAsked number (c.completion b frame s) := by
  refine onlyAsked_of_mentions fun e he => ?_
  obtain ⟨n, name, body, rfl, -⟩ := mem_completion he
  rfl

theorem onlyAsked_transition (hs : Free number s) (name : String) : OnlyAsked number (transition name s) := by
  refine onlyAsked_of_mentions fun e he => ?_
  unfold transition at he
  split at he
  · exact absurd he not_mem_nil
  · rename_i n howner
    rw [mem_singleton.mp he]
    refine if_neg fun heq => hs.away ?_
    split at howner
    · cases howner
    · exact heq ▸ holds_of_innermostMachine? howner

/-- A machine that is opened is a new one. -/
theorem onlyAsked_machine (opts : MachineOptions) (es : Nat → State α → List Event) (hs : Free number s)
    (h : ∀ n t, Free number t → OnlyAsked number (es n t)) :
    OnlyAsked number (afterwards (openMachine opts) s fun opened s1 =>
      MachineOptions.entry opts opened.2 ++ es opened.2 s1) := by
  unfold afterwards
  split
  · rename_i opened s1 hrun
    refine OnlyAsked.append (onlyAsked_of_mentions fun e he => ?_) (h _ _ (((openMachine_noStrays opts).ends hrun).free hs))
    obtain ⟨frame, n⟩ := opened
    obtain ⟨-, rfl, -⟩ := openMachine_inv hrun
    unfold MachineOptions.entry at he
    split at he
    · exact absurd he not_mem_nil
    · rw [mem_singleton.mp he]
      exact if_neg (Nat.ne_of_gt hs.known)
  · exact onlyAsked_nil

/-- Once its construct has ended, a program can do no more with a machine than test for its states. -/
theorem onlyAsked_events (p : Program α) (hs : Free number s) : OnlyAsked number (p.events s) := by
  induction p generalizing s with
  | done => exact onlyAsked_nil
  | look rest ih => exact ih s hs
  | act a rest ih => exact onlyAsked_afterwards hs (Admits.act a) fun _ _ ht => ih ht
  | signal spec rest ih => exact onlyAsked_afterwards hs (Tolerates.still (issue_still spec)) fun id _ ht => ih id ht
  | block c body rest ihbody ih =>
    have hbody : Moves NoStrays body.build := Admits.build body
    refine OnlyAsked.append (onlyAsked_afterwards hs (Admits.opened c) fun frame s1 hs1 => ?_)
      (onlyAsked_afterwards hs (Admits.inside (Admits.opened c) hbody) fun _ _ ht => ih ht)
    refine (onlyAsked_entry hs c).append ((ihbody hs1).append ?_)
    exact onlyAsked_afterwards hs1 hbody fun _ _ _ => onlyAsked_completion _ _ _
  | machine opts body rest ihbody ih =>
    have hmachine := Admits.machine (R := NoStrays) opts fun n => Admits.build (body n)
    exact (onlyAsked_machine opts _ hs fun n _ ht => ihbody n ht).append
      (onlyAsked_afterwards hs hmachine fun n _ ht => ih n ht)
  | next name rest ih =>
    exact (onlyAsked_transition hs name).append (onlyAsked_afterwards hs (Admits.next name) fun _ _ ht => ih ht)
  | ongoing n name rest ih =>
    refine onlyAsked_afterwards hs (Admits.ongoing n name) fun v t ht => ?_
    have hasked : OnlyAsked number [.asked n name v] := by
      intro e he name' hname
      rw [mem_singleton.mp he] at hname ⊢
      obtain ⟨rfl, rfl⟩ : n = number ∧ name = name' := by simpa [Event.mention?] using hname
      exact ⟨v, rfl⟩
    exact hasked.append (ih v ht)

end OnlyAsked

/-- What may happen to a builder from `s` on, with the names that are passed. -/
inductive Continues (s : State α) : List Event → State α → Prop where
  | here : Continues s [] s
  | opened {es : List Event} {t : State α} (c : Construct) : Continues s es t →
      Continues s (es ++ afterwards c.opened t fun _ _ => c.entry t.block) (c.opened.run.run t).2
  | machine {es : List Event} {t : State α} (opts : MachineOptions) : Continues s es t →
      Continues s (es ++ afterwards (openMachine opts) t fun opened _ => MachineOptions.entry opts opened.2)
        ((openMachine opts).run.run t).2
  | closed {es : List Event} {t : State α} (frame : Frame) : Continues s es t →
      Continues s es ((close frame).run.run t).2
  | abandoned {es : List Event} {t : State α} (frame : Frame) : Continues s es t →
      Continues s es ((abandon frame).run.run t).2
  | called {es : List Event} {t : State α} (p : Program α) : Continues s es t →
      Continues s (es ++ p.events t) (p.build.run.run t).2
  | elsewhere {es : List Event} {t u : State α} : Continues s es t → u.block = t.block →
      (∀ (n : Nat) (m : Machine), t.machines[n]? = some m → u.machines[n]? = some m) → Continues s es u

theorem follows_elsewhere (h : ∀ (n : Nat) (m : Machine), s.machines[n]? = some m → t.machines[n]? = some m) :
    Follows [] s t := by
  refine ⟨?_, h, fun _ _ _ _ he => absurd he not_mem_nil⟩
  by_contra hlt
  have hget := h t.machines.size _ (Array.getElem?_eq_getElem (Nat.lt_of_not_le hlt))
  rw [Array.getElem?_eq_none le_rfl] at hget
  cases hget

/-- A machine whose construct has ended stays off the stack, and only tests name its states. -/
theorem Continues.spec {es : List Event} (h : Continues s es t) (hs : Free number s) :
    Free number t ∧ Follows es s t ∧ OnlyAsked number es := by
  have hquiet {es : List Event} {t u : State α} (ht : Follows es s t) (hu : Follows [] t u) : Follows es s u := by
    have h := ht.trans hu
    rwa [append_nil] at h
  induction h with
  | here => exact ⟨hs, follows_isPath.refl s, onlyAsked_nil⟩
  | opened c _ ih =>
    obtain ⟨ht, hfollows, hasked⟩ := ih
    exact ⟨(Admits.opened (R := NoStrays) c _).free ht, hfollows.trans (follows_of_yields (opened_follows c)),
      hasked.append (onlyAsked_afterwards ht (Admits.opened c) fun _ _ _ => onlyAsked_entry ht c)⟩
  | machine opts _ ih =>
    obtain ⟨ht, hfollows, hasked⟩ := ih
    refine ⟨(openMachine_noStrays opts _).free ht, hfollows.trans (follows_of_yields (openMachine_entry opts)), hasked.append ?_⟩
    have hentry := onlyAsked_machine opts (fun _ _ => []) ht fun _ _ _ => onlyAsked_nil
    simpa only [append_nil] using hentry
  | closed frame _ ih =>
    obtain ⟨ht, hfollows, hasked⟩ := ih
    exact ⟨(moves_close (R := NoStrays) frame _).free ht, hquiet hfollows (moves_close (R := Calm) frame _).follows, hasked⟩
  | abandoned frame _ ih =>
    obtain ⟨ht, hfollows, hasked⟩ := ih
    exact ⟨(moves_abandon (R := NoStrays) frame _).free ht, hquiet hfollows (moves_abandon (R := Calm) frame _).follows, hasked⟩
  | called p _ ih =>
    obtain ⟨ht, hfollows, hasked⟩ := ih
    exact ⟨(Admits.build (R := NoStrays) p _).free ht, hfollows.trans (build_follows p _), hasked.append (onlyAsked_events p ht)⟩
  | elsewhere _ hblock hmachines ih =>
    obtain ⟨ht, hfollows, hasked⟩ := ih
    have hlater := follows_elsewhere hmachines
    exact ⟨⟨ht.known.trans_le hlater.size, hblock ▸ ht.away⟩, hquiet hfollows hlater, hasked⟩

/-- After its body a machine is closed. -/
theorem run_machine {opts : MachineOptions} {frame : Frame} {s1 s2 : State α} (body : Nat → Build α Unit)
    (hopen : Gives (openMachine opts) s (frame, number) s1) (hbody : Gives (body number) s1 () s2) :
    (machine opts body).run.run s = (do
      close frame
      return number : Build α Nat).run.run s2 := by
  have hrescue : Gives (tryCatch (body number) fun e => do
      abandon frame
      throw e) s1 () s2 := run_tryCatch_of_gives hbody
  have hinside : (inside (pure frame) (body number)).run.run s1 = (close frame).run.run s2 := run_bind_of_gives hrescue
  refine (run_bind_of_gives hopen).trans ?_
  cases hclose : (close frame).run.run s2 with
  | mk r =>
    rw [hclose] at hinside
    cases r with
    | ok => exact (run_bind_of_gives hinside).trans (run_bind_of_gives (f := fun _ => pure number) hclose).symm
    | error => exact (run_bind_of_error hinside).trans (run_bind_of_error (f := fun _ => pure number) hclose).symm

/-- What is named for a machine from `t` on, where its construct, with the events `es`, has ended. -/
structure NamedLater (number : Nat) (es later : List Event) (t u : State α) : Prop where
  /-- Only a test can name a state. -/
  tests : OnlyAsked number later
  /-- A test compares the register with the number of its state. The states that were defined have the first ones. -/
  answers : ∀ name answer, .asked number name answer ∈ later → ∃ v : Nat,
    (u.machineAt number).encoding? name = some v ∧
      answer = .binary .eq (.signal (t.machineAt number).state) (.ofInt v) (.unsigned 1) ∧
      (v < (definitions number es).length ↔ name ∈ (definitions number es).map Prod.fst)
  defined : (∀ name ∈ mentions number (es ++ later), name ∈ (definitions number es).map Prod.fst) ↔
    ∀ name answer, .asked number name answer ∈ later → name ∈ (definitions number es).map Prod.fst
  /-- The register, which is sized for the states defined, holds all numbers as long as there are no more names. -/
  register : definitions number es ≠ [] → ∃ w : Nat, t.arenas.shape (t.machineAt number).state = .unsigned w ∧
    IsLeast { w | 1 ≤ w ∧ (definitions number es).length ≤ 2 ^ w } w ∧
    ((∀ (name : String) (v : Nat), (u.machineAt number).encoding? name = some v → (Shape.unsigned w).normalize v = v) ↔
      (mentions number (es ++ later)).eraseDups.length ≤ 2 ^ w)

namespace Filled

variable {opts : MachineOptions} {base : List Control} {number : Nat} {es : List Event}
variable {a : Unit}

/-- The end of a machine leaves it off the stack, with the states that it had. -/
theorem close_free (h : Filled opts base number es s) (hbase : ¬ Holds number base)
    (hclose : Gives (close (.machine base.length number)) s a t) :
    Free number t ∧ t.machineAt number = s.machineAt number := by
  have hpop := (close_machine h.poised hclose).2
  have hmachines : t.machines = s.machines := ((pop_carries (R := Calm)).moves.gives hpop).machines
  have hstack : t.block.stack = base := by
    rw [(pop_poised.gives hpop).stack]
    change s.block.stack.dropLast = base
    rw [h.poised.stack, dropLast_concat]
  refine ⟨⟨?_, ?_⟩, ?_⟩
  · rw [hmachines]
    exact h.known
  · rw [hstack]
    exact hbase
  · unfold State.machineAt
    rw [hmachines]

/-- Where every state named in a machine is defined, this is what may happen to it after its end. -/
theorem namedLater (h : Filled opts base number es s) (hbase : ¬ Holds number base)
    (hclose : Gives (close (.machine base.length number)) s a t) {later : List Event} (hu : Continues t later u) :
    NamedLater number es later t u := by
  have hdefined := h.undefinedState?_eq_none_iff.mp (close_machine h.poised hclose).1
  obtain ⟨hfree, hm⟩ := h.close_free hbase hclose
  obtain ⟨-, hfollows, hasked⟩ := hu.spec hfree
  have hperm := h.perm hdefined
  have hlength : (definitions number es).length = (s.machineAt number).order.length := by
    rw [← hperm.length_eq, length_map]
  have hknown : t.machines[number]? = some (s.machineAt number) := by
    rw [← hm, State.machineAt, Array.getD_eq_getD_getElem?, Array.getElem?_eq_getElem hfree.known]
    rfl
  have hlater := machineAt_eq (hfollows.machines number _ hknown)
  have horder := Machine.order_mentioning_append h.order (mentions number later)
  rw [← mentions_append] at horder
  refine ⟨hasked, fun name answer hanswer => ?_, ⟨fun hall name answer hanswer => ?_, fun hall name hname => ?_⟩, ?_⟩
  · obtain ⟨v, hv, rfl⟩ := hfollows.faithful number _ hknown _ hanswer rfl
    refine ⟨v, by rw [hlater]; exact hv, ?_, ?_⟩
    · rw [hm, Machine.mentioning_eq]
    · rw [hlength, hperm.mem_iff]
      exact Machine.lt_length_iff_mem h.nodup hv
  · refine hall name (mem_filterMap.mpr ⟨_, mem_append_right _ hanswer, if_pos rfl⟩)
  · rw [mentions_append] at hname
    rcases mem_append.mp hname with hname | hname
    · exact hdefined name hname
    · obtain ⟨e, he, hmention⟩ := mem_filterMap.mp hname
      obtain ⟨answer, rfl⟩ := hasked e he name hmention
      exact hall name answer he
  · intro hstates
    have hcomplete := h.complete hstates hdefined
    obtain ⟨-, -, hshape, -⟩ := h.close_complete hcomplete hclose
    refine ⟨(s.machineAt number).bits, by rw [hm]; exact hshape, ?_, ?_⟩
    · rw [hlength]
      exact Machine.bits_isLeast hcomplete.order_ne_nil
    · rw [hlater, Machine.fits_iff (Machine.nodup_mentioning h.nodup _), horder]

end Filled

/-- A machine fails as its body does; otherwise it ends exactly if every state named in it is defined, and fails for
one that is not. From then on a state that was not defined can be named, by a test, and nothing fails. -/
theorem machine_names {opts : MachineOptions} (body : Nat → Program α) {frame : Frame} {number : Nat} {s₁ : State α}
    (hs : Reached s) (hopen : Gives (openMachine opts) s (frame, number) s₁) :
    (∀ e s₂, (body number).build.run.run s₁ = (.error e, s₂) →
      ∃ t, (machine opts fun n => (body n).build).run.run s = (.error e, t)) ∧
    (∀ s₂, Gives (body number).build s₁ () s₂ →
      (AllDefined number (machineEvents opts (fun n => (body n).events) s) →
        ∃ t, Gives (machine opts fun n => (body n).build) s number t) ∧
      (¬ AllDefined number (machineEvents opts (fun n => (body n).events) s) → ∃ name t,
        name ∈ mentions number (machineEvents opts (fun n => (body n).events) s) ∧
        name ∉ (definitions number (machineEvents opts (fun n => (body n).events) s)).map Prod.fst ∧
        (machine opts fun n => (body n).build).run.run s = (.error (.design (.name (.stateUndefined name))), t))) ∧
    ∀ t, Gives (machine opts fun n => (body n).build) s number t → ∀ later u, Continues t later u →
      NamedLater number (machineEvents opts (fun n => (body n).events) s) later t u := by
  have hevents : machineEvents opts (fun n => (body n).events) s =
      MachineOptions.entry opts number ++ (body number).events s₁ := afterwards_ok hopen
  rw [hevents]
  refine ⟨fun e s₂ hbody => ⟨_, run_machine_of_error hopen hbody⟩, fun s₂ hbody => ?_, fun t hg later u hu => ?_⟩
  · obtain ⟨rfl, hfilled⟩ := filled_of_body hs.standing hopen hbody
    have hrun := run_machine (fun n => (body n).build) hopen hbody
    refine ⟨fun hdefined => ?_, fun hundefined => ?_⟩
    · obtain ⟨t, ht⟩ := hfilled.close_gives hdefined
      exact ⟨t, gives_run.mpr (hrun.trans (run_bind_of_gives ht))⟩
    · have hclose := run_close_machine hfilled.poised
      cases hname : undefinedState? (s₂.machines.getD number Inhabited.default)
          (definitions number (MachineOptions.entry opts number ++ (body number).events s₁)) with
      | none => exact absurd (hfilled.undefinedState?_eq_none_iff.mp hname) hundefined
      | some name =>
        rw [hname] at hclose
        obtain ⟨hmem, hnot⟩ := hfilled.mem_of_undefinedState? hname
        exact ⟨name, _, hmem, hnot, hrun.trans (run_bind_of_error hclose)⟩
  · obtain ⟨frame', s₁', s₂, hopen', hbody, hclose⟩ := machine_inv hg
    obtain ⟨hframe, rfl⟩ := Prod.mk.inj (hopen.symm.trans hopen')
    obtain rfl := (Prod.mk.inj (Except.ok.inj hframe)).1
    obtain ⟨rfl, hfilled⟩ := filled_of_body hs.standing hopen hbody
    refine hfilled.namedLater (fun hbase => ?_) hclose hu
    -- The machine is newer than those on the stack when it was opened.
    obtain ⟨c, hc, hnumber⟩ := hbase
    have hlt := hs.known ⟨c, mem_of_mem_take hc, hnumber⟩
    rw [(openMachine_inv hopen).2.1] at hlt
    exact Nat.lt_irrefl _ hlt

def lockOpened : State Unit := ((openMachine lockOptions).run.run lockStart).2

def lockFilled : State Unit := ((lockBody 0).build.run.run lockOpened).2

/-- Someone asks for a state that the lock does not have. -/
def lockTest : Program Unit := .ongoing 0 "JAMMED" fun _ => .done

theorem machine_names_lock :
    (∃ t, Gives (machine lockOptions fun n => (lockBody n).build) lockStart 0 t) ∧
      NamedLater 0 (machineEvents lockOptions (fun n => (lockBody n).events) lockStart) (lockTest.events lockEnd) lockEnd
        (lockTest.build.run.run lockEnd).2 := by
  have hreached : Reached lockStart := .created lockStart 0 false rfl (by decide)
  have hopen : Gives (openMachine lockOptions) lockStart (.machine 0 0, 0) lockOpened := rfl
  have hbody : Gives (lockBody 0).build lockOpened () lockFilled := eq_ok_of_toOption (by decide +kernel)
  have hdefined : AllDefined 0 (machineEvents lockOptions (fun n => (lockBody n).events) lockStart) := by
    unfold AllDefined
    decide +kernel
  have hg : Gives (machine lockOptions fun n => (lockBody n).build) lockStart 0 lockEnd :=
    eq_ok_of_toOption (by decide +kernel)
  obtain ⟨-, hends, hlater⟩ := machine_names lockBody hreached hopen
  exact ⟨(hends lockFilled hbody).1 hdefined, hlater lockEnd hg _ _ (.called lockTest .here)⟩

/-- A lamp that is on or off. -/
def lampBody : Program Unit := .block (.state "ON") (.next "OFF" .done) <| .block (.state "OFF") .done .done

def lampEnd : State Unit := ((machine .plain fun _ => lampBody.build).run.run lockStart).2

/-- A test for a third state of the lamp succeeds, with a number that the register does not hold. -/
theorem lamp_third_state :
    Gives (machine .plain fun _ => lampBody.build) lockStart 0 lampEnd ∧
      ∃ answer u, Gives (Build.ongoing 0 "DIM") lampEnd answer u ∧
        "DIM" ∉ (definitions 0 (machineEvents .plain (fun _ => lampBody.events) lockStart)).map Prod.fst ∧
        (u.machineAt 0).encoding? "DIM" = some 2 ∧ u.arenas.shape (u.machineAt 0).state = .unsigned 1 := by
  have hg : Gives (machine .plain fun _ => lampBody.build) lockStart 0 lampEnd := eq_ok_of_toOption (by decide +kernel)
  exact ⟨hg, _, _, rfl, by decide +kernel, by decide +kernel, by decide +kernel⟩

end Builder
end Rtl
