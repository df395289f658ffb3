import Mathlib
import Rtl.Proofs.ControlLowering
import Rtl.Proofs.DelayRegisters
import Rtl.Proofs.Resets

/-!
# What inserted resets and enables do to registers

The statements of a fragment are run at a moment at which every expression has a value; what they assign is carried
out in order, so that of two assignments to a signal the later one stays. The switches that are inserted come last.
While the control of a domain is high, an inserted reset leaves the reset values in the registers of the domain; while
it is low, an inserted enable leaves their current values. At the other level, and for all other signals, the switches
do nothing.
-/
namespace Rtl

open List

/-- A moment: values of expressions, constants being what they are and signals within their shapes, and what assignments
and properties do to the signals. Assigning a whole signal replaces its value; what an assignment to parts of signals
does is left open. -/
structure Moment (σ : Arenas) where
  value : Value → Int
  perform : Statement → (SignalId → Int) → SignalId → Int
  value_const : ∀ n s, value (.const n s) = n
  value_signal : ∀ id, (σ.shape id).normalize (value (.signal id)) = value (.signal id)
  perform_whole : ∀ id v st,
    perform (.assign (.signal id) v) st = Function.update st id ((σ.shape id).normalize (value v))

variable {σ : Arenas}

namespace Moment

/-- What the signals hold after the statements were run. -/
def settle (m : Moment σ) (xs : List Statement) (st : SignalId → Int) : SignalId → Int :=
  (Statement.runAll m.value xs).foldl (fun st x => m.perform x st) st

theorem settle_append (m : Moment σ) (xs ys : List Statement) (st : SignalId → Int) :
    m.settle (xs ++ ys) st = m.settle ys (m.settle xs st) := by
  rw [settle, Statement.runAll_append, foldl_append]
  rfl

/-- Of assignments to whole signals every signal that is assigned has its own. -/
theorem foldl_whole (m : Moment σ) (rhs : SignalId → Value) (ids : List SignalId) (st : SignalId → Int) (id : SignalId) :
    (ids.map fun s => Statement.assign (.signal s) (rhs s)).foldl (fun st x => m.perform x st) st id =
      if id ∈ ids then (σ.shape id).normalize (m.value (rhs id)) else st id := by
  induction ids generalizing st with
  | nil => rfl
  | cons s ids ih =>
    rw [map_cons, foldl_cons, ih, m.perform_whole]
    by_cases hs : id = s
    · simp [hs]
    · simp [hs]

end Moment

theorem Statement.runAll_of_isAction {tests : Value → Int} {xs : List Statement} (h : ∀ x ∈ xs, x.isAction = true) :
    runAll tests xs = xs := by
  induction xs with
  | nil => rfl
  | cons x xs ih =>
    obtain ⟨hx, hxs⟩ := forall_mem_cons.mp h
    rw [runAll, run_of_isAction hx, ih hxs]
    rfl

namespace ControlKind

/-- The value of the control at which the registers are overruled. -/
def bit : ControlKind → Int
  | .reset => 1
  | .enable => 0

/-- What a register is overruled with. A reset leaves a reset-less signal alone. -/
def overruled (m : Moment σ) (id : SignalId) : ControlKind → Option Int
  | .reset => if (σ.get id).resetless then none else some ((σ.shape id).normalize (σ.get id).reset)
  | .enable => some (m.value (.signal id))

variable (kind : ControlKind)
include kind

theorem canonical_level : Pattern.Canonical kind.level := by
  cases kind with
  | reset | enable => exact ⟨by decide, by simp [level, Pattern.isPatternChar]⟩

theorem armTaken_level (v : Int) : Statement.armTaken v [kind.level] = true ↔ v % 2 = kind.bit := by
  have hmatch : Statement.armTaken v [kind.level] = Pattern.agrees v kind.level.toList := by
    simp [Statement.armTaken, Pattern.isMatch_eq_agrees kind.canonical_level.chars]
  rw [hmatch]
  cases kind with
  | reset | enable => simp [level, Pattern.agrees, bit]

theorem settle_assignments (m : Moment σ) (ids : List SignalId) (st : SignalId → Int)
    (id : SignalId) : (kind.assignments σ ids).foldl (fun st x => m.perform x st) st id =
      if id ∈ ids then (kind.overruled m id).getD (st id) else st id := by
  cases kind with
  | enable =>
    rw [assignments, m.foldl_whole, m.value_signal]
    rfl
  | reset =>
    rw [assignments, m.foldl_whole (fun s => .const ((σ.shape s).normalize (σ.get s).reset) (σ.shape s)), m.value_const,
      Shape.normalize_normalize]
    by_cases hid : (σ.get id).resetless = true
    · simp [hid, overruled]
    · simp [hid, overruled]

theorem isAction_of_mem_assignments (ids : List SignalId) :
    ∀ x ∈ kind.assignments σ ids, x.isAction = true := by
  intro x hx
  cases kind with
  | reset | enable =>
    obtain ⟨s, -, rfl⟩ := mem_map.mp hx
    rfl

theorem ofText_level : Pattern.ofText kind.level 1 = .ok kind.level := by
  cases kind with
  | reset => rfl
  | enable => rfl

/-- The switch for some signals whose control is one bit wide runs its assignments at its level. -/
theorem switch_runs {control : Value} (hwidth : control.width σ = 1) (ids : List SignalId) :
    ∃ xs, kind.switch σ control ids = .ok xs ∧ ∀ tests,
      Statement.runAll tests xs = if tests control % 2 = kind.bit then kind.assignments σ ids else [] := by
  unfold switch
  by_cases hempty : kind = .reset ∧ (kind.assignments σ ids).isEmpty = true
  · refine ⟨[], if_pos hempty, fun tests => ?_⟩
    rw [isEmpty_iff.mp hempty.2, ite_self]
    rfl
  · refine ⟨[.switch control [([kind.level], kind.assignments σ ids)]], ?_, fun tests => ?_⟩
    · rw [if_neg hempty, Statement.mkSwitch, hwidth, Statement.mkArms, Statement.armPatterns, ofText_level]
      rfl
    · rw [Statement.runAll, Statement.runAll, Statement.run, Statement.runArms, Statement.runArms, append_nil,
        Statement.runAll_of_isAction (kind.isAction_of_mem_assignments ids)]
      exact if_congr (kind.armTaken_level _) rfl rfl

end ControlKind

/-- The control of a domain; the combinational domain has none. -/
def Controls.control? (controls : Controls) (d : String) : Option Value :=
  if d = combDomain then none else (controls.find? (·.1 = d)).map Prod.snd

theorem Controls.mem_of_control? {controls : Controls} {d : String} {c : Value} (h : controls.control? d = some c) :
    ∃ e ∈ controls, e.2 = c := by
  unfold control? at h
  by_cases hd : d = combDomain
  · rw [if_pos hd] at h
    cases h
  · rw [if_neg hd] at h
    obtain ⟨e, he, hc⟩ := Option.map_eq_some_iff.mp h
    exact ⟨e, mem_of_find?_eq_some he, hc⟩

namespace Body

variable {kind : ControlKind} {controls : Controls}
variable {b : Body}

theorem controlSwitch_eq (d : String) (driven : NetSet) : controlSwitch σ kind controls d driven =
    (controls.control? d).elim (.ok []) fun c => kind.switch σ c driven.signals := by
  unfold controlSwitch Controls.control?
  cases hfind : controls.find? (·.1 = d) with
  | none => simp
  | some =>
    by_cases hd : d = combDomain
    · simp [hd]
    · simp [hd]

/-- The control of the domain is at the level that overrules, and the signal is among those driven there. -/
def Overrules (kind : ControlKind) (controls : Controls) (m : Moment σ) (id : SignalId) (e : String × NetSet) : Prop :=
  ∃ c, controls.control? e.1 = some c ∧ m.value c % 2 = kind.bit ∧ id ∈ e.2.signals

variable (kind) in
theorem controlSwitch_settles (hwidth : ∀ e ∈ controls, e.2.width σ = 1) (e : String × NetSet) :
    ∃ xs, controlSwitch σ kind controls e.1 e.2 = .ok xs ∧ ∀ (m : Moment σ) st id,
      (Overrules kind controls m id e → m.settle xs st id = (kind.overruled m id).getD (st id)) ∧
      (¬ Overrules kind controls m id e → m.settle xs st id = st id) := by
  rw [controlSwitch_eq]
  cases hcontrol : controls.control? e.1 with
  | none =>
    refine ⟨[], rfl, fun m st id => ⟨fun ⟨c, hc, _⟩ => ?_, fun _ => rfl⟩⟩
    rw [hcontrol] at hc
    cases hc
  | some c =>
    obtain ⟨e', he', rfl⟩ := Controls.mem_of_control? hcontrol
    obtain ⟨xs, hxs, hruns⟩ := ControlKind.switch_runs kind (hwidth e' he') e.2.signals
    refine ⟨xs, hxs, fun m st id => ⟨fun ⟨c, hc, hbit, hid⟩ => ?_, fun hnot => ?_⟩⟩
    · rw [hcontrol] at hc
      cases hc
      rw [Moment.settle, hruns, if_pos hbit, ControlKind.settle_assignments, if_pos hid]
    · rw [Moment.settle, hruns]
      by_cases hbit : m.value e'.2 % 2 = kind.bit
      · have hid : id ∉ e.2.signals := fun hid => hnot ⟨e'.2, hcontrol, hbit, hid⟩
        rw [if_pos hbit, ControlKind.settle_assignments, if_neg hid]
      · rw [if_neg hbit]
        rfl

variable (kind) in
/-- The switches for all driver domains overrule a signal if one of them does. -/
theorem controlSwitches_settle (hwidth : ∀ e ∈ controls, e.2.width σ = 1) (drivers : List (String × NetSet)) :
    ∃ xs, controlSwitches σ kind controls drivers = .ok xs ∧ ∀ (m : Moment σ) st id,
      ((∃ e ∈ drivers, Overrules kind controls m id e) → m.settle xs st id = (kind.overruled m id).getD (st id)) ∧
      ((∀ e ∈ drivers, ¬ Overrules kind controls m id e) → m.settle xs st id = st id) := by
  induction drivers with
  | nil => exact ⟨[], rfl, fun m st id => ⟨fun ⟨e, he, _⟩ => absurd he not_mem_nil, fun _ => rfl⟩⟩
  | cons e drivers ih =>
    obtain ⟨xs, hxs, hhere⟩ := controlSwitch_settles kind hwidth e
    obtain ⟨ys, hys, hrest⟩ := ih
    refine ⟨xs ++ ys, ?_, fun m st id => ⟨fun hsome => ?_, fun hnone => ?_⟩⟩
    · rw [controlSwitches, hxs, hys]
      rfl
    · have htwice (x : Int) : (kind.overruled m id).getD ((kind.overruled m id).getD x) = (kind.overruled m id).getD x := by
        cases kind.overruled m id with
        | none => rfl
        | some => rfl
      rw [Moment.settle_append]
      by_cases hlater : ∃ e ∈ drivers, Overrules kind controls m id e
      · rw [(hrest m _ id).1 hlater]
        by_cases hfirst : Overrules kind controls m id e
        · rw [(hhere m st id).1 hfirst, htwice]
        · rw [(hhere m st id).2 hfirst]
      · have hfirst : Overrules kind controls m id e := by
          obtain ⟨e', he', h⟩ := hsome
          cases mem_cons.mp he' with
          | inl heq => exact heq ▸ h
          | inr hmem => exact absurd ⟨e', hmem, h⟩ hlater
        rw [(hrest m _ id).2 fun e' he' h => hlater ⟨e', he', h⟩, (hhere m st id).1 hfirst]
    · obtain ⟨hfirst, hlater⟩ := forall_mem_cons.mp hnone
      rw [Moment.settle_append, (hrest m _ id).2 hlater, (hhere m st id).2 hfirst]

/-- The fragment drives no signal in two domains. -/
def OneDomain (b : Body) : Prop := ∀ d d' id, b.Drives d (.signal id) → b.Drives d' (.signal id) → d = d'

theorem oneDomain_of_nodup (h : (b.driverPairs.map fun e => e.2.key).Nodup) : b.OneDomain := by
  intro d d' id hd hd'
  obtain ⟨e, he, rfl, hkey⟩ := drives_iff.mp hd
  obtain ⟨e', he', rfl, hkey'⟩ := drives_iff.mp hd'
  rw [inj_on_of_nodup_map h he he' (hkey.trans hkey'.symm)]

/-- What controls do to the registers of a fragment: a signal that is driven in a domain with a control is overruled at
one level of the control and is left alone at the other; a signal without such a domain is left alone. -/
structure Controlled (σ : Arenas) (kind : ControlKind) (controls : Controls) (b b' : Body) : Prop where
  overruled : ∀ (m : Moment σ) st id d c, b.Drives d (.signal id) → controls.control? d = some c →
    m.value c % 2 = kind.bit →
    m.settle b'.statements st id = (kind.overruled m id).getD (m.settle b.statements st id)
  passed : ∀ (m : Moment σ) st id d c, b.Drives d (.signal id) → controls.control? d = some c →
    m.value c % 2 ≠ kind.bit → m.settle b'.statements st id = m.settle b.statements st id
  untouched : ∀ (m : Moment σ) st id, (∀ d, b.Drives d (.signal id) → controls.control? d = none) →
    m.settle b'.statements st id = m.settle b.statements st id

theorem exists_overrules_iff {m : Moment σ} {id : SignalId} :
    (∃ e ∈ b.drivers, Overrules kind controls m id e) ↔
      ∃ d c, b.Drives d (.signal id) ∧ controls.control? d = some c ∧ m.value c % 2 = kind.bit := by
  constructor
  · intro ⟨e, he, c, hc, hbit, hid⟩
    exact ⟨e.1, c, ⟨e, he, rfl, NetSet.mem_signals.mp hid⟩, hc, hbit⟩
  · intro ⟨d, c, ⟨e, he, hd, hid⟩, hc, hbit⟩
    exact ⟨e, he, c, hd ▸ hc, hbit, NetSet.mem_signals.mpr hid⟩

variable (kind) in
theorem controlled_of_oneDomain (hwidth : ∀ e ∈ controls, e.2.width σ = 1) (hone : b.OneDomain) :
    ∃ xs, controlSwitches σ kind controls b.drivers = .ok xs ∧
      Controlled σ kind controls b (b.withoutIdleDomains.addStatements xs) := by
  obtain ⟨xs, hxs, hsettle⟩ := controlSwitches_settle kind hwidth b.drivers
  have hstatements (m : Moment σ) (st : SignalId → Int) :
      m.settle (b.withoutIdleDomains.addStatements xs).statements st = m.settle xs (m.settle b.statements st) :=
    m.settle_append b.statements xs st
  refine ⟨xs, hxs, ?_, ?_, ?_⟩
  · intro m st id d c hd hc hbit
    rw [hstatements]
    exact (hsettle m _ id).1 (exists_overrules_iff.mpr ⟨d, c, hd, hc, hbit⟩)
  · intro m st id d c hd hc hbit
    rw [hstatements]
    refine (hsettle m _ id).2 fun e he hover => hbit ?_
    obtain ⟨d', c', hd', hc', hbit'⟩ := exists_overrules_iff.mp ⟨e, he, hover⟩
    -- The signal has no other domain, hence no other control.
    rw [hone d' d id hd' hd, hc] at hc'
    cases hc'
    exact hbit'
  · intro m st id hnone
    rw [hstatements]
    refine (hsettle m _ id).2 fun e he hover => ?_
    obtain ⟨d, c, hd, hc, -⟩ := exists_overrules_iff.mp ⟨e, he, hover⟩
    rw [hnone d hd] at hc
    cases hc

end Body

namespace Fragment

variable {controls : Controls}

theorem insertControls_controlled (kind : ControlKind) (hwidth : ∀ e ∈ controls, e.2.width σ = 1) {f : Fragment}
    (hone : ∀ b ∈ f.bodies, b.OneDomain) :
    ∃ f', f.insertControls σ kind controls = .ok f' ∧
      List.Forall₂ (Body.Controlled σ kind controls) f.bodies f'.bodies := by
  induction f with
  | node b cs ih =>
    obtain ⟨hb, hcs⟩ := forall_bodies_node.mp hone
    have hchildren : ∃ cs', insertControlsAll σ kind controls cs = .ok cs' ∧
        List.Forall₂ (fun c c' => List.Forall₂ (Body.Controlled σ kind controls) c.2.bodies c'.2.bodies) cs cs' := by
      clear hone
      induction cs with
      | nil => exact ⟨[], rfl, .nil⟩
      | cons c cs ihcs =>
        obtain ⟨name, g⟩ := c
        obtain ⟨hg, hrest⟩ := forall_mem_cons.mp hcs
        obtain ⟨ihg, ihrest⟩ := forall_mem_cons.mp ih
        obtain ⟨g', hg', hbodies⟩ := ihg hg
        obtain ⟨cs', hcs', hall⟩ := ihcs ihrest hrest
        refine ⟨(name, g') :: cs', ?_, .cons hbodies hall⟩
        rw [insertControlsAll, hg', hcs']
        rfl
    obtain ⟨cs', hcs', hall⟩ := hchildren
    obtain ⟨xs, hxs, hcontrolled⟩ := Body.controlled_of_oneDomain kind hwidth hb
    refine ⟨.node (b.withoutIdleDomains.addStatements xs) cs', ?_, forall₂_bodies_node hcontrolled hall⟩
    rw [insertControls, hcs', hxs]
    rfl

/-- In every fragment of the tree, an inserted reset that is high leaves the reset value in a register of its domain, and
one that is low changes nothing; an inserted enable that is low leaves the current value, and one that is high changes
nothing. A signal that is driven in no domain with a control, or only in the combinational one, is never changed. -/
theorem insertControls_settles {f : Fragment} (hwidth : ∀ e ∈ controls, e.2.width σ = 1)
    (hone : ∀ b ∈ f.bodies, b.OneDomain) :
    (∃ f', f.insertControls σ .reset controls = .ok f' ∧
      List.Forall₂ (fun b b' => ∀ (m : Moment σ) (st : SignalId → Int) (id : SignalId),
        (∀ d c, b.Drives d (.signal id) → controls.control? d = some c →
          (m.value c % 2 = 1 → (σ.get id).resetless = false →
            m.settle b'.statements st id = (σ.shape id).normalize (σ.get id).reset) ∧
          (m.value c % 2 = 0 ∨ (σ.get id).resetless = true →
            m.settle b'.statements st id = m.settle b.statements st id)) ∧
        ((∀ d, b.Drives d (.signal id) → controls.control? d = none) →
          m.settle b'.statements st id = m.settle b.statements st id)) f.bodies f'.bodies) ∧
    ∃ f', f.insertControls σ .enable controls = .ok f' ∧
      List.Forall₂ (fun b b' => ∀ (m : Moment σ) (st : SignalId → Int) (id : SignalId),
        (∀ d c, b.Drives d (.signal id) → controls.control? d = some c →
          (m.value c % 2 = 0 → m.settle b'.statements st id = m.value (.signal id)) ∧
          (m.value c % 2 = 1 → m.settle b'.statements st id = m.settle b.statements st id)) ∧
        ((∀ d, b.Drives d (.signal id) → controls.control? d = none) →
          m.settle b'.statements st id = m.settle b.statements st id)) f.bodies f'.bodies := by
  obtain ⟨f₁, hf₁, hreset⟩ := insertControls_controlled .reset hwidth hone
  obtain ⟨f₂, hf₂, henable⟩ := insertControls_controlled .enable hwidth hone
  refine ⟨⟨f₁, hf₁, hreset.imp fun b b' h m st id => ⟨fun d c hd hc => ⟨?_, ?_⟩, h.untouched m st id⟩⟩,
    f₂, hf₂, henable.imp fun b b' h m st id => ⟨fun d c hd hc => ⟨?_, ?_⟩, h.untouched m st id⟩⟩
  · intro hhigh hid
    rw [h.overruled m st id d c hd hc hhigh, ControlKind.overruled, hid]
    rfl
  · intro hpass
    by_cases hhigh : m.value c % 2 = 1
    · have hid : (σ.get id).resetless = true := hpass.resolve_left (by omega)
      rw [h.overruled m st id d c hd hc hhigh, ControlKind.overruled, hid]
      rfl
    · exact h.passed m st id d c hd hc hhigh
  · intro hlow
    rw [h.overruled m st id d c hd hc hlow]
    rfl
  · intro hhigh
    refine h.passed m st id d c hd hc ?_
    rw [hhigh]
    decide

/-- A control, a register with reset value 3, a signal that follows it and a register of another domain. -/
def gatedArenas : Arenas :=
  ⟨#[⟨#[⟨"rst", .unsigned 1, 0, false, [], none⟩, ⟨"x", .unsigned 4, 3, false, [], none⟩,
    ⟨"y", .unsigned 4, 0, false, [], none⟩, ⟨"z", .unsigned 4, 5, false, [], none⟩], 0, 0⟩]⟩

def gated : Fragment :=
  .node { Body.empty with
      statements := [.assign (.signal ⟨0, 2⟩) (.signal ⟨0, 3⟩), .assign (.signal ⟨0, 3⟩) (.signal ⟨0, 2⟩)]
      drivers := [("sync", ⟨[.signal ⟨0, 2⟩]⟩), ("comb", ⟨[.signal ⟨0, 3⟩]⟩)] }
    [("c", .leaf { Body.empty with
      statements := [.assign (.signal ⟨0, 4⟩) (.signal ⟨0, 2⟩)]
      drivers := [("pix", ⟨[.signal ⟨0, 4⟩]⟩)] })]

theorem gated_oneDomain : ∀ b ∈ gated.bodies, b.OneDomain := by
  have hnodup : ∀ b ∈ gated.bodies, (b.driverPairs.map fun e => e.2.key).Nodup := by decide
  exact fun b hb => Body.oneDomain_of_nodup (hnodup b hb)

/-- The values of constants and signals, all else being zero. -/
def plainValue (σ : Arenas) (now : SignalId → Int) : Value → Int
  | .const n _ => n
  | .net (.signal id) => (σ.shape id).normalize (now id)
  | _ => 0

def plainPerform (σ : Arenas) (now : SignalId → Int) (x : Statement) (st : SignalId → Int) : SignalId → Int :=
  match x with
  | .assign (.net (.signal id)) v => Function.update st id ((σ.shape id).normalize (plainValue σ now v))
  | _ => st

/-- A moment at which signals have these values and only whole signals are assigned. -/
def plainMoment (σ : Arenas) (now : SignalId → Int) : Moment σ where
  value := plainValue σ now
  perform := plainPerform σ now
  value_const _ _ := rfl
  value_signal _ := Shape.normalize_normalize _ _
  perform_whole _ _ _ := rfl

/-- While the reset is high the register ends with its reset value. -/
theorem insertControls_settles_gated :
    (∀ e ∈ [("sync", Value.signal ⟨0, 1⟩)], e.2.width gatedArenas = 1) ∧ (∀ b ∈ gated.bodies, b.OneDomain) ∧
      ∃ f', gated.insertControls gatedArenas .reset [("sync", .signal ⟨0, 1⟩)] = .ok f' ∧ ∃ b' ∈ f'.bodies,
        ∀ st, (plainMoment gatedArenas fun _ => 1).settle b'.statements st ⟨0, 2⟩ = 3 := by
  have hwidth : ∀ e ∈ [("sync", Value.signal ⟨0, 1⟩)], e.2.width gatedArenas = 1 := by
    intro e he
    rw [mem_singleton.mp he]
    rfl
  refine ⟨hwidth, gated_oneDomain, ?_⟩
  obtain ⟨⟨f', hf', hbodies⟩, -⟩ := insertControls_settles hwidth gated_oneDomain
  obtain ⟨b', hb', hsettles⟩ := forall₂_mem_left hbodies (body_mem_bodies gated)
  refine ⟨f', hf', b', hb', fun st => ?_⟩
  have hdrives : gated.body.Drives "sync" (.signal ⟨0, 2⟩) := ⟨_, mem_cons_self, rfl, by decide⟩
  exact ((hsettles (plainMoment gatedArenas fun _ => 1) st ⟨0, 2⟩).1 "sync" (.signal ⟨0, 1⟩) hdrives rfl).1 rfl rfl

end Fragment
end Rtl
