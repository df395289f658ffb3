import Mathlib
import Rtl.Proofs.DomainBinding
import Rtl.Proofs.Prepared

/-!
# Registers are cleared last

The preparation ends the statements of a fragment with one switch for each clocked domain in which it drives something
by name and for which the top fragment has a reset. These switches say what happens to a register while a reset is
high, since nothing assigns it after the last of them. What the top does not know, such as a local domain of a fragment
below, is not reset, and neither is a register that is driven by way of a clock or reset reference: switches are
inserted before references are lowered.
-/
namespace Rtl

open List

variable {b : Body}

namespace Statement

variable {s : SignalId}

/-- The statement assigns the signal, or some of its bits, in some place. -/
def Writes (x : Statement) (id : SignalId) : Prop := ∃ t, x.targets = .ok t ∧ Net.signal id ∈ t

/-- Gives a signal its reset value. -/
def clearing (σ : Arenas) (id : SignalId) : Statement :=
  .assign (.signal id) (.const ((σ.shape id).normalize (σ.get id).reset) (σ.shape id))

/-- The statement is a switch over the reset, and the last that its case for a high reset does to the signal is to give
it its reset value. -/
def Clears (σ : Arenas) (rst id : SignalId) (x : Statement) : Prop :=
  ∃ arms body, x = .switch (.signal rst) arms ∧ (["1"], body) ∈ arms ∧
    ExistsThen (· = clearing σ id) (fun y => ¬ y.Writes id) body

/-- Some statement clears the signal by the reset, and none after it assigns the signal. -/
def ClearedLast (σ : Arenas) (rst id : SignalId) (xs : List Statement) : Prop :=
  ExistsThen (Clears σ rst id) (fun y => ¬ y.Writes id) xs

/-- The switch that clears some signals. -/
def resetSwitch (σ : Arenas) (rst : SignalId) (ids : List SignalId) : Statement :=
  .switch (.signal rst) [(["1"], ids.map (clearing σ))]

variable {σ : Arenas} {rst id : SignalId} {ids : List SignalId}

theorem writes_clearing : (clearing σ s).Writes id ↔ s = id := by
  have htargets : (clearing σ s).targets = .ok ⟨[.signal s]⟩ := rfl
  simp [Writes, htargets, Net.key]

theorem clearing_injective {s' : SignalId} (h : clearing σ s = clearing σ s') : s = s' := by
  have hwrites : (clearing σ s).Writes s' := by
    rw [h]
    exact writes_clearing.mpr rfl
  exact writes_clearing.mp hwrites

/-- A list of clearings gives a signal its reset value last if it does so at all. -/
theorem existsThen_clearing :
    ExistsThen (· = clearing σ id) (fun y => ¬ y.Writes id) (ids.map (clearing σ)) ↔ id ∈ ids := by
  induction ids with
  | nil => simp [existsThen_nil]
  | cons s ids ih =>
    rw [map_cons, existsThen_cons, ih, forall_mem_map, mem_cons]
    simp only [writes_clearing]
    constructor
    · rintro (⟨h, -⟩ | h)
      · exact Or.inl (clearing_injective h).symm
      · exact Or.inr h
    · rintro (rfl | h)
      · by_cases hmem : id ∈ ids
        · exact Or.inr hmem
        · exact Or.inl ⟨rfl, fun s hs => by rintro rfl; exact hmem hs⟩
      · exact Or.inr h

theorem bodyTargets_clearing (σ : Arenas) (ids : List SignalId) (acc : NetSet) :
    ∃ t, bodyTargets acc (ids.map (clearing σ)) = .ok t ∧ ∀ id, Net.signal id ∈ t ↔ Net.signal id ∈ acc ∨ id ∈ ids := by
  induction ids generalizing acc with
  | nil => exact ⟨acc, rfl, by simp⟩
  | cons s ids ih =>
    obtain ⟨t, ht, hmem⟩ := ih (acc.union ⟨[.signal s]⟩)
    refine ⟨t, ht, fun id => ?_⟩
    rw [hmem, NetSet.mem_union, NetSet.mem_mk_singleton, mem_cons]
    have hkey : (Net.signal s).key = (Net.signal id).key ↔ id = s := by
      simp only [Net.key, NetKey.signal.injEq]
      exact eq_comm
    rw [hkey, or_assoc]

theorem writes_resetSwitch : (resetSwitch σ rst ids).Writes id ↔ id ∈ ids := by
  obtain ⟨t, ht, hmem⟩ := bodyTargets_clearing σ ids .empty
  have htargets : (resetSwitch σ rst ids).targets = .ok t := by
    rw [resetSwitch, targets, armsTargets, ht]
    rfl
  simp [Writes, htargets, hmem]

theorem clears_resetSwitch {rst' : SignalId} : Clears σ rst' id (resetSwitch σ rst ids) ↔ rst = rst' ∧ id ∈ ids := by
  constructor
  · rintro ⟨arms, body, hswitch, harm, hlast⟩
    obtain ⟨htest, rfl⟩ := Statement.switch.inj hswitch
    have hrst : rst = rst' := by
      injection htest with hnet
      injection hnet
    rw [mem_singleton, Prod.mk.injEq] at harm
    rw [harm.2] at hlast
    exact ⟨hrst, existsThen_clearing.mp hlast⟩
  · rintro ⟨rfl, hid⟩
    exact ⟨_, _, rfl, mem_singleton_self _, existsThen_clearing.mpr hid⟩

/-- Nothing in the switch is there to be lowered. -/
theorem traverse_resetSwitch : (resetSwitch σ rst ids).traverse (b.lowering σ) = .ok [resetSwitch σ rst ids] := by
  have hbody : traverseAll (b.lowering σ) (ids.map (clearing σ)) = .ok (ids.map (clearing σ)) := by
    induction ids with
    | nil => rfl
    | cons s ids ih =>
      refine except_bind_eq_ok.mpr ⟨[clearing σ s], rfl, ?_⟩
      exact except_bind_eq_ok.mpr ⟨_, ih, rfl⟩
  refine except_bind_eq_ok.mpr ⟨none, rfl, except_bind_eq_ok.mpr ⟨.signal rst, rfl, ?_⟩⟩
  refine except_bind_eq_ok.mpr ⟨[(["1"], ids.map (clearing σ))], ?_, rfl⟩
  exact except_bind_eq_ok.mpr ⟨_, hbody, rfl⟩

theorem traverseAll_resetSwitches {xs ys : List Statement} (hxs : ∀ x ∈ xs, ∃ rst ids, x = resetSwitch σ rst ids)
    (h : traverseAll (b.lowering σ) xs = .ok ys) : ys = xs := by
  induction xs generalizing ys with
  | nil =>
    cases h
    rfl
  | cons x xs ih =>
    obtain ⟨⟨r, ids', hx⟩, hrest⟩ := forall_mem_cons.mp hxs
    obtain ⟨here, hhere, h⟩ := except_bind_eq_ok.mp h
    obtain ⟨others, hothers, rfl⟩ := except_bind_pure_eq_ok.mp h
    rw [hx] at hhere
    cases traverse_resetSwitch.symm.trans hhere
    rw [ih hrest hothers, hx]
    rfl

end Statement

namespace Body

variable {d : String} {f : Fragment} {xs : List Statement} {b : Body}
variable {b' : Body} {ds : List (String × NetSet)}

/-- The reset that a fragment's table has for a domain. -/
def reset? (top : Body) (d : String) : Option SignalId :=
  top.domains.findSome? fun cd => if cd.name = d then cd.rst else none

/-- The reset that clears a signal on account of one entry of a driver table. -/
def resetOf? (top : Body) (id : SignalId) (e : String × NetSet) : Option SignalId :=
  if e.1 ≠ combDomain ∧ Net.signal id ∈ e.2 then top.reset? e.1 else none

/-- The resets that clear a signal in a fragment: those that the top has for the clocked domains in which the fragment
drives the signal by name, in the order of its driver table. -/
def resetsOf (top b : Body) (id : SignalId) : List SignalId := b.drivers.filterMap (top.resetOf? id)

variable {σ : Arenas} {rst id : SignalId}

theorem reset?_of_domain? {top : Body} {cd : ClockDomain} (hd : top.domain? d = some cd) (hrst : cd.rst = some rst) :
    top.reset? d = some rst := by
  unfold domain? at hd
  unfold reset?
  generalize top.domains = cds at hd ⊢
  induction cds with
  | nil => cases hd
  | cons x xs ih =>
    rw [find?_cons] at hd
    rw [findSome?_cons]
    by_cases hx : x.name = d
    · simp only [hx, decide_true, Option.some.injEq] at hd
      rw [if_pos hx, hd, hrst]
    · simp only [hx, decide_false] at hd
      rw [if_neg hx]
      exact ih hd

theorem find?_domainResets (f : Fragment) (d : String) :
    f.domainResets.find? (·.1 = d) = (f.body.reset? d).map fun rst => (d, .signal rst) := by
  unfold Fragment.domainResets reset?
  induction f.body.domains with
  | nil => rfl
  | cons x xs ih =>
    rw [filterMap_cons, findSome?_cons]
    cases hrst : x.rst with
    | none => simpa using ih
    | some =>
      by_cases hx : x.name = d
      · simp [hx]
      · simp only [Option.map_some, find?_cons, hx, decide_false, if_false]
        exact ih

/-- What one driver domain adds: nothing, or a switch. -/
theorem controlSwitch_reset {driven : NetSet} (h : controlSwitch σ .reset f.domainResets d driven = .ok xs) :
    xs = [] ∧ (d = combDomain ∨ f.body.reset? d = none ∨ ∀ id ∈ driven.signals, (σ.get id).resetless = true) ∨
      ∃ rst, d ≠ combDomain ∧ f.body.reset? d = some rst ∧
        xs = [Statement.resetSwitch σ rst (driven.signals.filter fun s => !(σ.get s).resetless)] := by
  unfold controlSwitch at h
  rw [find?_domainResets] at h
  cases hreset : f.body.reset? d with
  | none =>
    rw [hreset] at h
    cases h
    exact Or.inl ⟨rfl, Or.inr (Or.inl rfl)⟩
  | some rst =>
    rw [hreset] at h
    by_cases hd : d = combDomain
    · rw [Option.map_some] at h
      dsimp only at h
      rw [if_pos hd] at h
      cases h
      exact Or.inl ⟨rfl, Or.inl hd⟩
    · rw [Option.map_some] at h
      dsimp only at h
      rw [if_neg hd] at h
      unfold ControlKind.switch at h
      dsimp only at h
      split at h
      · rename_i hempty
        cases h
        refine Or.inl ⟨rfl, Or.inr (Or.inr ?_)⟩
        simpa [ControlKind.assignments] using hempty.2
      · obtain ⟨x, hx, rfl⟩ := except_bind_pure_eq_ok.mp h
        have hcanonical : Pattern.Canonical "1" := ⟨by decide, by simp [Pattern.isPatternChar]⟩
        have hswitch := Statement.mkSwitch_eq (by simpa [ControlKind.level] using hcanonical) (by simp) hx
        exact Or.inr ⟨rst, hd, rfl, by rw [hswitch]; rfl⟩

/-- For a signal with a reset value, what one driver domain adds clears it by the reset of that domain or leaves it
alone. -/
theorem controlSwitch_cleared {e : String × NetSet} (h : controlSwitch σ .reset f.domainResets e.1 e.2 = .ok xs)
    (hid : (σ.get id).resetless = false) (rst : SignalId) :
    (Statement.ClearedLast σ rst id xs ↔ f.body.resetOf? id e = some rst) ∧
      ((∀ y ∈ xs, ¬ y.Writes id) ↔ f.body.resetOf? id e = none) := by
  unfold resetOf?
  rcases controlSwitch_reset h with ⟨rfl, hnone⟩ | ⟨r, hd, hr, rfl⟩
  · have hnothing : (if e.1 ≠ combDomain ∧ Net.signal id ∈ e.2 then f.body.reset? e.1 else none) = none := by
      split
      · rename_i hboth
        rcases hnone with hd | hr | hall
        · exact absurd hd hboth.1
        · exact hr
        · have hresetless := hall id (NetSet.mem_signals.mpr hboth.2)
          rw [hid] at hresetless
          cases hresetless
      · rfl
    rw [hnothing]
    simp [Statement.ClearedLast, existsThen_nil]
  · have hmem : id ∈ e.2.signals.filter (fun s => !(σ.get s).resetless) ↔ Net.signal id ∈ e.2 := by
      rw [mem_filter, NetSet.mem_signals, hid]
      simp
    have hlast : Statement.ClearedLast σ rst id
        [Statement.resetSwitch σ r (e.2.signals.filter fun s => !(σ.get s).resetless)] ↔
          r = rst ∧ Net.signal id ∈ e.2 := by
      rw [Statement.ClearedLast, existsThen_cons, Statement.clears_resetSwitch, hmem]
      simp [existsThen_nil]
    rw [hlast, forall_mem_singleton, Statement.writes_resetSwitch, hmem, hr]
    by_cases hin : Net.signal id ∈ e.2
    · simp [hd, hin]
    · simp [hin]

theorem controlSwitches_switch (h : controlSwitches σ .reset f.domainResets ds = .ok xs) :
    ∀ x ∈ xs, ∃ rst ids, x = Statement.resetSwitch σ rst ids := by
  induction ds generalizing xs with
  | nil =>
    cases h
    simp
  | cons e ds ih =>
    obtain ⟨here, hhere, h⟩ := except_bind_eq_ok.mp h
    obtain ⟨others, hothers, rfl⟩ := except_bind_pure_eq_ok.mp h
    refine forall_mem_append.mpr ⟨?_, ih hothers⟩
    rcases controlSwitch_reset hhere with ⟨rfl, -⟩ | ⟨r, -, -, rfl⟩
    · simp
    · simp

/-- Of the switches added for all driver domains, the last that clears a signal decides. -/
theorem controlSwitches_cleared (h : controlSwitches σ .reset f.domainResets ds = .ok xs)
    (hid : (σ.get id).resetless = false) (rst : SignalId) :
    (Statement.ClearedLast σ rst id xs ↔ (ds.filterMap (f.body.resetOf? id)).getLast? = some rst) ∧
      ((∀ y ∈ xs, ¬ y.Writes id) ↔ ds.filterMap (f.body.resetOf? id) = []) := by
  induction ds generalizing xs with
  | nil =>
    cases h
    simp [Statement.ClearedLast, existsThen_nil]
  | cons e ds ih =>
    obtain ⟨here, hhere, h⟩ := except_bind_eq_ok.mp h
    obtain ⟨others, hothers, rfl⟩ := except_bind_pure_eq_ok.mp h
    obtain ⟨hlast, hnone⟩ := controlSwitch_cleared hhere hid rst
    obtain ⟨hlast', hnone'⟩ := ih hothers
    unfold Statement.ClearedLast at hlast hlast' ⊢
    rw [existsThen_append, hlast', hlast, hnone', forall_mem_append, hnone, hnone']
    -- This entry decides only if no later one clears the signal.
    cases hreset : f.body.resetOf? id e with
    | none => simp [hreset]
    | some =>
      cases hlater : ds.filterMap (f.body.resetOf? id) with
      | nil => simp [hreset, hlater]
      | cons => simp [hreset, hlater]

/-- What the lowering makes of a fragment: the records it knows are the same, its statements are lowered one by one, and
it drives the signals that its drivers are resolved to. -/
structure LoweredTo (σ : Arenas) (b b' : Body) : Prop where
  known : ∀ d, b'.domain? d = b.domain? d
  statements : Statement.traverseAll (b.lowering σ) b.statements = .ok b'.statements
  drives : ∀ d id, b'.Drives d (.signal id) ↔ ∃ n, b.Drives d n ∧ b.resolveNet n = .signal id

theorem traverse_loweredTo (h : b.traverse (Fragment.domainLowering σ) (b.lowering σ) = .ok b') : b.LoweredTo σ b' := by
  obtain ⟨-, -, -, hstatements, -⟩ := lowered_parts h
  refine ⟨lowered_domain? h, hstatements, fun d id => ?_⟩
  rw [(lowered_drivers h).1]
  constructor
  · rintro ⟨e, he, hd, k, hk, hkey⟩
    obtain rfl := Net.key_eq_signal_iff.mp hkey
    exact ⟨e.2, drives_iff.mpr ⟨e, he, hd, rfl⟩, (loweredNet?_eq_some.mp hk).1⟩
  · rintro ⟨n, hdrives, hn⟩
    obtain ⟨e, he, hd, hkey⟩ := drives_iff.mp hdrives
    refine ⟨e, he, hd, .signal id, ?_, rfl⟩
    rw [loweredNet?_of_key hkey]
    exact loweredNet?_eq_some.mpr ⟨hn, id, rfl⟩

/-- What the preparation made of a fragment of a flattened tree with the given top. A signal with a reset value is
cleared last by the last of the resets that the top has for it in the fragment; if there are none, it is if the
fragment's own statements have it so. -/
structure ResetTo (σ : Arenas) (top b b' : Body) : Prop where
  known : ∀ d, b'.domain? d = b.domain? d
  drives : ∀ d id, b'.Drives d (.signal id) ↔ ∃ n, b.Drives d n ∧ b.resolveNet n = .signal id
  cleared : ∃ own, Statement.traverseAll (b.lowering σ) b.statements = .ok own ∧
    ∀ rst id, (σ.get id).resetless = false →
      (Statement.ClearedLast σ rst id b'.statements ↔ (top.resetsOf b id).getLast? = some rst ∨
        top.resetsOf b id = [] ∧ Statement.ClearedLast σ rst id own)

theorem withoutIdleDomains_drives {n : Net} : b.withoutIdleDomains.Drives d n ↔ b.Drives d n := by
  rw [drives_iff, drives_iff, driverPairs_withoutIdleDomains]

/-- Switches for the driver domains, then lowering, then ports. -/
theorem resetTo_of_lowered {b2 : Body} (hxs : controlSwitches σ .reset f.domainResets b.drivers = .ok xs)
    (hlowered : (b.withoutIdleDomains.addStatements xs).LoweredTo σ b2) (hports : b2.SameButPorts b') :
    ResetTo σ f.body b b' := by
  have hdomains : (b.withoutIdleDomains.addStatements xs).domains = b.domains := rfl
  have hlowering := lowering_congr (σ := σ) hdomains
  constructor
  · intro d
    have hsame : b'.domain? d = b2.domain? d := by rw [hports]; rfl
    rw [hsame, hlowered.known]
    rfl
  · intro d id
    have hsame : b'.Drives d (.signal id) ↔ b2.Drives d (.signal id) := by rw [hports]; rfl
    rw [hsame, hlowered.drives, resolveNet_congr hdomains]
    exact exists_congr fun n => and_congr_left fun _ => withoutIdleDomains_drives
  · have hstatements := hlowered.statements
    rw [hlowering] at hstatements
    -- The switches come through the lowering as they are, so they still end the statements.
    obtain ⟨own, xs', hown, hxs', happend⟩ := Statement.traverseAll_append hstatements
    obtain rfl := Statement.traverseAll_resetSwitches (controlSwitches_switch hxs) hxs'
    refine ⟨own, hown, fun rst id hid => ?_⟩
    obtain ⟨hlast, hnone⟩ := controlSwitches_cleared hxs hid rst
    have hsame : b'.statements = own ++ xs' := by rw [hports]; exact happend
    unfold Statement.ClearedLast at hlast ⊢
    rw [hsame, existsThen_append, hlast, hnone, and_comm (a := _ = [])]
    rfl

end Body

namespace Fragment

variable {σ : Arenas} {a : Nat}
variable {f : Fragment}
variable {f' : Fragment}

theorem insertControls_bodies {kind : ControlKind} {controls : Controls}
    (h : f.insertControls σ kind controls = .ok f') :
    List.Forall₂ (fun b b' => ∃ xs, Body.controlSwitches σ kind controls b.drivers = .ok xs ∧
      b' = b.withoutIdleDomains.addStatements xs) f.bodies f'.bodies := by
  induction f generalizing f' with
  | node b cs ih =>
    obtain ⟨xs, cs', hxs, hinv, rfl⟩ := insertControls_inv h
    refine forall₂_bodies_node ⟨xs, hxs, rfl⟩ ?_
    refine (forall₂_mem hinv).imp ?_
    exact fun c c' hone => ih c hone.1 hone.2

/-- What the last passes make of every fragment of a flattened tree. -/
theorem resetTo_of_passes {ports : NetSet} {f1 f2 f3 : Fragment} (hresets : f.insertDomainResets σ = .ok f1)
    (hdomains : f1.lowerDomains σ = .ok f2) (hports : f2.propagatePorts σ ports = .ok f3) :
    List.Forall₂ (Body.ResetTo σ f.body) f.bodies f3.bodies := by
  have hlowered : List.Forall₂ (Body.LoweredTo σ) f1.bodies f2.bodies :=
    traverse_bodies (fun _ hbody => Body.traverse_loweredTo hbody) hdomains
  have hlast : List.Forall₂ (fun b b' => ∃ b2, b.LoweredTo σ b2 ∧ b2.SameButPorts b') f1.bodies f3.bodies :=
    forall₂_trans (fun hb hb' => ⟨_, hb, hb'⟩) hlowered (propagatePorts_bodies hports)
  refine forall₂_trans ?_ (insertControls_bodies hresets) hlast
  rintro b b1 b' ⟨xs, hxs, rfl⟩ ⟨b2, hb2, hb'⟩
  exact Body.resetTo_of_lowered hxs hb2 hb'

theorem lowerSamples_numbered {σ' : Arenas} (hf : f.NumberedBy a σ) (h : f.lowerSamples σ a = (.ok f', σ')) :
    σ'.list.size = σ.list.size ∧ f'.NumberedBy a σ' := by
  have hrecords : f.RecordsIn {cd | ∃ b ∈ f.bodies, cd ∈ b.domains} := fun b hb cd hcd => ⟨b, hb, hcd⟩
  obtain ⟨hsize, hdomains, hf'⟩ := lowerSamples_records hrecords h
  refine ⟨hsize, ?_, ?_⟩
  · intro b hb cd hcd
    obtain ⟨b0, hb0, hcd0⟩ := hf' b hb cd hcd
    rw [hdomains]
    exact hf.issued b0 hb0 cd hcd0
  · intro b hb cd hcd b' hb' cd' hcd'
    obtain ⟨b0, hb0, hcd0⟩ := hf' b hb cd hcd
    obtain ⟨b1, hb1, hcd1⟩ := hf' b' hb' cd' hcd'
    exact hf.unique b0 hb0 cd hcd0 b1 hb1 cd' hcd1

/-- The top of a flattened tree knows every domain of its fragments that is not local. -/
theorem domain?_of_flattened {mode : ConflictMode} {r : Resolution} (hlifted : f.Lifted) (hshared : f.Shared)
    (h : f.resolveConflicts σ mode = .ok r) (hb : b ∈ r.fragment.bodies) {d : String} {cd : ClockDomain}
    (hd : b.domain? d = some cd) (hlocal : cd.isLocal = false) : r.fragment.body.domain? d = some cd := by
  have htree := resolveWith_gathered Body.tabular_meansAlike hshared.meansAlike h
  obtain ⟨groups, hperm, hgathers, -⟩ := htree.gathered.groups Body.tabular_meansAlike
  obtain ⟨p, hp, hgather⟩ := forall₂_mem_right hgathers hb
  have hhost : p.1 ∈ f.bodies := hperm.mem_iff.mp (mem_flatMap.mpr ⟨p, hp, mem_cons_self⟩)
  obtain ⟨g, hg, hbody⟩ := mem_bodies_iff.mp hhost
  obtain ⟨hname, hknows⟩ := Body.knows_of_domain? hd
  have hknown : g.body.Knows cd := by
    unfold Body.Knows at hknows ⊢
    rw [hbody, ← Body.domain?_congr hgather.domains]
    exact hknows
  have htop := (knows_iff_of_closed hlifted hshared hg hlocal).mp hknown
  unfold Body.Knows at htop
  rw [Body.domain?_congr htree.domains, ← hname]
  exact htop

end Fragment

/-- The reset that the top has for the only clocked domain in which a fragment drives a signal by name. -/
theorem Body.getLast?_resetsOf {top : Body} {d : String} {rst id : SignalId} (hreset : top.reset? d = some rst)
    (hcomb : d ≠ combDomain) (honly : ∀ d' ≠ combDomain, b.Drives d' (.signal id) ↔ d' = d) :
    (top.resetsOf b id).getLast? = some rst := by
  have hall : ∀ r ∈ top.resetsOf b id, r = rst := by
    intro r hr
    obtain ⟨e, he, hof⟩ := mem_filterMap.mp hr
    unfold resetOf? at hof
    split at hof
    · rename_i hboth
      have hed : e.1 = d := (honly e.1 hboth.1).mp ⟨e, he, rfl, hboth.2⟩
      rw [hed, hreset] at hof
      exact (Option.some.inj hof).symm
    · cases hof
  have hmem : rst ∈ top.resetsOf b id := by
    obtain ⟨e, he, rfl, hin⟩ := (honly d hcomb).mpr rfl
    refine mem_filterMap.mpr ⟨e, he, ?_⟩
    rw [resetOf?, if_pos ⟨hcomb, hin⟩, hreset]
  have hne : top.resetsOf b id ≠ [] := ne_nil_of_mem hmem
  rw [getLast?_eq_getLast_of_ne_nil hne, hall _ (getLast_mem hne)]

namespace Prepare

/-- Where a preparation that succeeds clears registers. Every fragment of the prepared tree stems from one of the
flattened tree, with the same records and with the same drivers, resolved. In it a signal with a reset value is cleared,
after everything else that assigns it, by the reset that the top has for the last clocked domain in which the fragment
drives the signal by name. If the top has none, no switch is added for the signal. For records numbered by the arena
the top has the reset of every domain that is not local. So a register is cleared last by the reset of its domain if
that is not local, and if the fragment drives the register by name in that clocked domain and in no other. -/
theorem run_clears_last {a : Nat} {opts : PrepareOptions} {f : Fragment} {p : Prepared} {s t : PrepareState}
    (h : (run a opts f).run.run s = (.ok p, t)) :
    ∃ g, Flattens a opts f s.arenas g t.arenas ∧ List.Forall₂ (fun b b' => Body.ResetTo t.arenas g.body b b' ∧
      (a < s.arenas.list.size → f.NumberedBy a s.arenas → ∀ d cd rst id, b'.domain? d = some cd → cd.isLocal = false →
        cd.rst = some rst → d ≠ combDomain → (∀ d' ≠ combDomain, b.Drives d' (.signal id) ↔ d' = d) →
        (t.arenas.get id).resetless = false → Statement.ClearedLast t.arenas rst id b'.statements))
      g.bodies p.top.bodies := by
  obtain ⟨g, f₁, f₂, ports, hflattens, hresets, hlower, hports⟩ := run_inv (gives_run.mpr h)
  have hall := Fragment.resetTo_of_passes hresets hlower hports
  refine ⟨g, hflattens, (forall₂_mem hall).imp ?_⟩
  rintro b b' ⟨hb, hreset⟩
  refine ⟨hreset, ?_⟩
  intro ha hf d cd rst id hd hlocal hrst hcomb honly hid
  obtain ⟨g₁, σ₁, g₂, r, hsamples, hpropagate, hconflicts, rfl⟩ := hflattens
  obtain ⟨hsize, hf₁⟩ := Fragment.lowerSamples_numbered hf hsamples
  obtain ⟨lifted, -, -, hsharing⟩ := Fragment.propagateDomains_sharing (ha.trans_eq hsize.symm) hf₁ hpropagate
  obtain ⟨own, -, hcleared⟩ := hreset.cleared
  -- A domain that is not local has been lifted to the top, whose table flattening keeps.
  rw [hreset.known] at hd
  have htop := Fragment.domain?_of_flattened hsharing.lifted hsharing.shared hconflicts hb hd hlocal
  refine (hcleared rst id hid).mpr (Or.inl ?_)
  exact Body.getLast?_resetsOf (Body.reset?_of_domain? htop hrst) hcomb honly

/-- A child that drives one register in a domain of its own that is not local, and another in one that is. -/
def divided : Fragment :=
  .node Body.empty [("c", .leaf { Body.empty with
    statements := [.assign (.signal ⟨0, 5⟩) (.signal ⟨0, 6⟩), .assign (.signal ⟨0, 6⟩) (.signal ⟨0, 5⟩)]
    drivers := [("d", ⟨[.signal ⟨0, 5⟩]⟩), ("l", ⟨[.signal ⟨0, 6⟩]⟩)]
    domains := [Fragment.tick 1 "d" false, Fragment.tick 2 "l" true] })]

def dividedState : PrepareState :=
  ⟨⟨#[⟨Array.replicate 6 ⟨"$signal", .unsigned 1, 0, false, [], none⟩, 2, 0⟩]⟩, []⟩

theorem divided_numbered : divided.NumberedBy 0 dividedState.arenas := by
  have hdomains : divided.bodies.flatMap Body.domains = [Fragment.tick 1 "d" false, Fragment.tick 2 "l" true] := rfl
  exact Fragment.numberedBy_of_list hdomains (by decide) (by decide)

/-- In the flattened example the child drives both registers by name, in domains that it knows. -/
theorem divided_flattens {g : Fragment} {σ : Arenas} (h : Flattens 0 .plain divided dividedState.arenas g σ) :
    ∃ b ∈ g.bodies, b.drivers = [("d", ⟨[.signal ⟨0, 5⟩]⟩), ("l", ⟨[.signal ⟨0, 6⟩]⟩)] ∧
      b.domain? "d" = some (Fragment.tick 1 "d" false) := by
  obtain ⟨f1, σ1, f2, r, hsamples, hpropagate, hconflicts, rfl⟩ := h
  have hall : (divided.lowerSamples dividedState.arenas 0).1.toOption.bind (fun f1 =>
      ((f1.propagateDomains 0 true).run.run (divided.lowerSamples dividedState.arenas 0).2).1.toOption.bind fun f2 =>
        (f2.resolveConflicts ((f1.propagateDomains 0 true).run.run
          (divided.lowerSamples dividedState.arenas 0).2).2 .warn).toOption.map fun r =>
            decide (∃ b ∈ r.fragment.bodies, b.drivers = [("d", ⟨[.signal ⟨0, 5⟩]⟩), ("l", ⟨[.signal ⟨0, 6⟩]⟩)] ∧
              b.domain? "d" = some (Fragment.tick 1 "d" false))) = some true := by decide +kernel
  have hpropagated : (f1.propagateDomains 0 true).run.run σ1 = (.ok f2, σ) := hpropagate
  have hresolved : f2.resolveConflicts σ .warn = .ok r := hconflicts
  simpa [hsamples, hpropagated, hresolved, Except.toOption] using hall

/-- The register of the domain that is not local is cleared last by its reset. -/
theorem run_clears_last_divided : ∃ p t, (run 0 .plain divided).run.run dividedState = (.ok p, t) ∧
    ∃ b ∈ p.top.bodies, b.Drives "d" (.signal ⟨0, 5⟩) ∧ Statement.ClearedLast t.arenas ⟨0, 2⟩ ⟨0, 5⟩ b.statements := by
  have hsome : ((run 0 .plain divided).run.run dividedState).1.toOption.isSome = true := by decide +kernel
  have hvalue : (((run 0 .plain divided).run.run dividedState).2.arenas.get ⟨0, 5⟩).resetless = false := by
    decide +kernel
  obtain ⟨p, hp⟩ := Option.isSome_iff_exists.mp hsome
  have hrun := eq_ok_of_toOption hp
  obtain ⟨g, hflattens, hall⟩ := run_clears_last hrun
  obtain ⟨b, hb, hdrivers, hdomain⟩ := divided_flattens hflattens
  obtain ⟨b', hb', hreset, hclears⟩ := forall₂_mem_left hall hb
  have honly : ∀ d, b.Drives d (.signal ⟨0, 5⟩) ↔ d = "d" := by
    intro d
    unfold Body.Drives
    rw [hdrivers]
    simp [eq_comm, Net.key]
  refine ⟨p, _, hrun, b', hb', (hreset.drives _ _).mpr ⟨_, (honly "d").mpr rfl, rfl⟩, ?_⟩
  refine hclears (by decide) divided_numbered "d" (Fragment.tick 1 "d" false) ⟨0, 2⟩ ⟨0, 5⟩ ?_ rfl rfl (by decide) ?_ hvalue
  · rw [hreset.known, hdomain]
  · exact fun d _ => honly d

/-- The net that a switch is over. -/
def switchNet? : Statement → Option Net
  | .switch (.net n) _ => some n
  | _ => none

/-- The register of the local domain is not cleared: the top does not know the domain. -/
theorem not_forall_run_clears_last : ¬ ∀ (a : Nat) (opts : PrepareOptions) (f : Fragment) (p : Prepared)
    (s t : PrepareState), a < s.arenas.list.size → f.NumberedBy a s.arenas → (run a opts f).run.run s = (.ok p, t) →
    ∀ b ∈ p.top.bodies, ∀ d id cd rst, b.Drives d (.signal id) → b.domain? d = some cd → cd.rst = some rst →
      (t.arenas.get id).resetless = false → Statement.ClearedLast t.arenas rst id b.statements := by
  intro h
  have hall : ((run 0 .plain divided).run.run dividedState).1.toOption.map (fun p => decide (∃ b ∈ p.top.bodies,
      ("l", ⟨[.signal ⟨0, 6⟩]⟩) ∈ b.drivers ∧ b.domain? "l" = some (Fragment.tick 2 "l" true) ∧
        some (.signal ⟨0, 4⟩) ∉ b.statements.map switchNet?)) = some true := by decide +kernel
  have hvalue : (((run 0 .plain divided).run.run dividedState).2.arenas.get ⟨0, 6⟩).resetless = false := by
    decide +kernel
  obtain ⟨p, hp, hfacts⟩ := Option.map_eq_some_iff.mp hall
  obtain ⟨b, hb, hdriver, hdomain, hswitches⟩ := of_decide_eq_true hfacts
  have hdrives : b.Drives "l" (.signal ⟨0, 6⟩) := ⟨_, hdriver, rfl, by decide⟩
  have hlast := h 0 .plain divided p dividedState _ (by decide) divided_numbered (eq_ok_of_toOption hp) b hb "l" ⟨0, 6⟩
    (Fragment.tick 2 "l" true) ⟨0, 4⟩ hdrives hdomain rfl hvalue
  obtain ⟨x, hx, arms, body, rfl, -⟩ := ExistsThen.exists hlast
  exact hswitches (mem_map.mpr ⟨_, hx, rfl⟩)

end Prepare
end Rtl
