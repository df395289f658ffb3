import Mathlib
import Rtl.Proofs.ControlLowering
import Rtl.Proofs.Nesting

/-!
# State machines

When the construct of a machine ends, the states that were mentioned anywhere in it are the states that were defined,
numbered in the order in which they were first mentioned. The state register is just wide enough for the last number,
its reset value is the number of the reset state, and the machine has become one switch that runs, for every value of
the register, the body of the state with that number.
-/
namespace Rtl

open List Int

namespace Machine

variable {m : Machine}

theorem nodup_mentioning (h : m.order.Nodup) (names : List String) : (m.mentioning names).order.Nodup := by
  induction names generalizing m with
  | nil => exact h
  | cons x rest ih =>
    refine ih ?_
    dsimp only
    rw [encode_fst]
    split
    · exact h
    · rename_i hnew
      exact h.append (nodup_singleton x) (by simpa using hnew)

/-- A state has the number of its place. -/
theorem encoding?_eq_some_iff (h : m.order.Nodup) {name : String} {v : Nat} :
    m.encoding? name = some v ↔ m.order[v]? = some name := by
  unfold encoding?
  rw [idxOf?_eq_some_iff, getElem?_eq_some_iff]
  constructor
  · rintro ⟨hlt, hname, -⟩
    exact ⟨hlt, hname⟩
  · rintro ⟨hlt, hname⟩
    refine ⟨hlt, hname, fun j hj heq => ?_⟩
    exact absurd ((h.getElem_inj_iff).mp (heq.trans hname.symm)) (Nat.ne_of_lt hj)

/-- The number of bits of the state register. -/
def bits (m : Machine) : Nat := bitsFor ((m.order.length : Int) - 1) false

theorem width_eq (m : Machine) : m.width = m.bits := rfl

theorem bits_isLeast (h : m.order ≠ []) : IsLeast { w | 1 ≤ w ∧ m.order.length ≤ 2 ^ w } m.bits := by
  have hpos : 0 < m.order.length := length_pos_iff.mpr h
  have hset : { w | 1 ≤ w ∧ m.order.length ≤ 2 ^ w } = { w : Nat | 1 ≤ w ∧ (m.order.length : Int) - 1 < 2 ^ w } := by
    ext w
    simp only [Set.mem_ofPred_eq]
    zify
    omega
  rw [hset]
  exact Pattern.bitsFor_isLeast (by omega)

end Machine

namespace Pattern

/-- The pattern of a number that fits is made of its digits. -/
theorem ofKey_eq {code : Nat} {width : Int} (hwidth : 0 ≤ width) (h : code < 2 ^ width.toNat) :
    ofKey code width = .ok (digits code width) := by
  have hnormalize : normalize (.int .int64 code) width = .ok (ofInt? code width) := by
    simp [normalize, isPatternType]
  have hfits : ofInt? code width = some (digits code width) := by
    unfold ofInt?
    rw [if_neg (by omega), if_neg, toNat_natCast]
    intro hwide
    simp only [ne_eq, Bool.and_eq_true, decide_not, Bool.not_eq_true', decide_eq_false_iff_not,
      decide_eq_true_eq] at hwide
    have hlong := mt (bitsFor_le_iff (n := code) (w := width.toNat) (by omega)).mpr (by omega)
    zify at h
    exact hlong h
  unfold ofKey
  rw [hnormalize, hfits]

end Pattern

namespace Machine

variable {m : Machine} {v : Nat}
variable {w : Nat} {name : String} {tests : Value → Int} {states : List (String × List Statement)}

/-- The number of a state, which is there. -/
def code (m : Machine) (name : String) : Nat := (m.encoding? name).getD 0

/-- The arm of a state. -/
def arm (m : Machine) (d : String × List Statement) : Arm := ([Pattern.digits (m.code d.1) m.width], d.2)

theorem arms_eq (h : ∀ d ∈ states, m.code d.1 < 2 ^ m.bits) : m.arms states = .ok (states.map m.arm) := by
  induction states with
  | nil => rfl
  | cons d states ih =>
    obtain ⟨hd, hstates⟩ := forall_mem_cons.mp h
    obtain ⟨name, body⟩ := d
    have hkey : Pattern.ofKey (m.code name) m.width = .ok (Pattern.digits (m.code name) m.width) :=
      Pattern.ofKey_eq (natCast_nonneg m.bits) hd
    unfold code at hkey
    rw [arms, hkey, ih hstates]
    rfl

theorem encoding?_code (h : name ∈ m.order) : m.encoding? name = some (m.code name) := by
  unfold code
  cases hnone : m.encoding? name with
  | none => exact absurd h (idxOf?_eq_none_iff.mp hnone)
  | some => rfl

theorem code_lt (hnodup : m.order.Nodup) (h : name ∈ m.order) : m.code name < m.order.length :=
  (List.getElem?_eq_some_iff.mp ((encoding?_eq_some_iff hnodup).mp (encoding?_code h))).1

theorem code_injective (hnodup : m.order.Nodup) {x y : String} (hx : x ∈ m.order) (hy : y ∈ m.order)
    (h : m.code x = m.code y) : x = y := by
  have hplace := (encoding?_eq_some_iff hnodup).mp (encoding?_code hx)
  rw [h, (encoding?_eq_some_iff hnodup).mp (encoding?_code hy)] at hplace
  exact (Option.some.inj hplace).symm

/-- A machine that defines exactly the states it mentions, each once. -/
structure Complete (m : Machine) (states : List (String × List Statement)) : Prop where
  nodup : m.order.Nodup
  perm : (states.map Prod.fst).Perm m.order
  nonempty : states ≠ []

namespace Complete

variable {m : Machine} {states : List (String × List Statement)} (h : m.Complete states)
variable {d : String × List Statement}
include h

theorem mem (hd : d ∈ states) : d.1 ∈ m.order :=
  h.perm.mem_iff.mp (mem_map_of_mem hd)

theorem order_ne_nil : m.order ≠ [] := by
  intro hnil
  have hperm := h.perm
  rw [hnil] at hperm
  exact h.nonempty (map_eq_nil_iff.mp hperm.eq_nil)

theorem code_lt_two_pow (hd : d ∈ states) : m.code d.1 < 2 ^ m.bits :=
  (code_lt h.nodup (h.mem hd)).trans_le (bits_isLeast h.order_ne_nil).1.2

theorem code_lt_width (hd : d ∈ states) : m.code d.1 < 2 ^ m.width.toNat :=
  h.code_lt_two_pow hd

theorem eq_of_code {d' : String × List Statement} (hd : d ∈ states) (hd' : d' ∈ states)
    (hcode : m.code d.1 = m.code d'.1) : d = d' :=
  inj_on_of_nodup_map (h.perm.nodup_iff.mpr h.nodup) hd hd' (code_injective h.nodup (h.mem hd) (h.mem hd') hcode)

theorem one_le_width : 1 ≤ m.width := ofNat_le.mpr (bits_isLeast h.order_ne_nil).1.1

theorem spans_digits (hd : d ∈ states) : Pattern.Spans m.width (Pattern.digits (m.code d.1) m.width) :=
  Pattern.spans_digits (natCast_nonneg _) (h.code_lt_width hd)

theorem nodup_patterns : ((states.map m.arm).map Prod.fst).Nodup := by
  rw [map_map]
  refine List.Nodup.map_on ?_ (List.Nodup.of_map _ (h.perm.nodup_iff.mpr h.nodup))
  intro d hd d' hd' heq
  refine h.eq_of_code hd hd' ?_
  have hvalue := (Pattern.digits_spec (h.code_lt_width hd)).2.2
  rw [(List.cons.inj heq).1] at hvalue
  exact hvalue.symm.trans (Pattern.digits_spec (h.code_lt_width hd')).2.2

theorem armTaken_eq (hd : d ∈ states) (hv : v < 2 ^ m.bits) :
    Statement.armTaken v (m.arm d).1 = decide (m.code d.1 = v) := by
  have hmatch := Pattern.isMatch_digits (h.code_lt_width hd) v
  have hmod : (v : Int) % 2 ^ m.width.toNat = v := by
    refine emod_eq_of_lt (natCast_nonneg v) ?_
    rw [width_eq, toNat_natCast]
    exact_mod_cast hv
  rw [hmod] at hmatch
  unfold Statement.armTaken arm
  rw [isEmpty_cons, Bool.false_or, any_cons, any_nil, Bool.or_false, hmatch, Bool.eq_iff_iff,
    beq_iff_eq, decide_eq_true_iff]
  omega

end Complete

/-- The arm of the state with the number runs. -/
theorem runArms_of_code (htaken : ∀ d ∈ states, Statement.armTaken v (m.arm d).1 = decide (m.code d.1 = v))
    {d : String × List Statement} (hd : d ∈ states) (hcode : m.code d.1 = v)
    (honly : ∀ d' ∈ states, m.code d'.1 = v → d' = d) :
    Statement.runArms tests v (states.map m.arm) = Statement.runAll tests d.2 := by
  induction states with
  | nil => exact absurd hd not_mem_nil
  | cons d' states ih =>
    obtain ⟨hhead, htail⟩ := forall_mem_cons.mp htaken
    obtain ⟨honlyHead, honlyTail⟩ := forall_mem_cons.mp honly
    change (if Statement.armTaken v (m.arm d').1 then Statement.runAll tests d'.2 else
      Statement.runArms tests v (states.map m.arm)) = _
    rw [hhead]
    by_cases hv : m.code d'.1 = v
    · rw [decide_eq_true hv, if_pos rfl, honlyHead hv]
    · rw [decide_eq_false hv, if_neg (by decide)]
      refine ih htail ?_ honlyTail
      rcases mem_cons.mp hd with rfl | hd
      · exact absurd hcode hv
      · exact hd

/-- No arm runs for a number without a state. -/
theorem runArms_of_no_code (htaken : ∀ d ∈ states, Statement.armTaken v (m.arm d).1 = decide (m.code d.1 = v))
    (hnone : ∀ d ∈ states, m.code d.1 ≠ v) : Statement.runArms tests v (states.map m.arm) = [] := by
  induction states with
  | nil => rfl
  | cons d' states ih =>
    obtain ⟨hhead, htail⟩ := forall_mem_cons.mp htaken
    obtain ⟨hv, hnoneTail⟩ := forall_mem_cons.mp hnone
    change (if Statement.armTaken v (m.arm d').1 then Statement.runAll tests d'.2 else
      Statement.runArms tests v (states.map m.arm)) = _
    rw [hhead, decide_eq_false hv, if_neg (by decide)]
    exact ih htail hnoneTail

namespace Complete

variable {m : Machine} {states : List (String × List Statement)} {tests : Value → Int} {v : Nat}

/-- The dispatch switch runs the body of the state whose number the register holds. -/
theorem run_state (h : m.Complete states) (hv : v < 2 ^ m.bits) (htest : tests (.signal m.state) = v) {name : String}
    {body : List Statement} (hd : (name, body) ∈ states) (hcode : m.encoding? name = some v) :
    Statement.run tests (.switch (.signal m.state) (states.map m.arm)) = Statement.runAll tests body := by
  have hcode' : m.code name = v := by
    unfold code
    rw [hcode]
    rfl
  rw [Statement.run, htest]
  exact runArms_of_code (fun d hd => h.armTaken_eq hd hv) hd hcode' fun d' hd' heq =>
    h.eq_of_code hd' hd (heq.trans hcode'.symm)

/-- The dispatch switch runs nothing when the register holds no number of a state. -/
theorem run_nothing (h : m.Complete states) (hv : v < 2 ^ m.bits) (htest : tests (.signal m.state) = v)
    (hnone : ∀ name, m.encoding? name ≠ some v) :
    Statement.run tests (.switch (.signal m.state) (states.map m.arm)) = [] := by
  rw [Statement.run, htest]
  refine runArms_of_no_code (fun d hd => h.armTaken_eq hd hv) fun d hd hcode => hnone d.1 ?_
  rw [← hcode]
  exact encoding?_code (h.mem hd)

end Complete

/-- Sizing the register of a machine. -/
theorem sizeRegister_spec {σ : Arenas} (hissued : σ.Issued m.state) (number : Nat) (defined : List String) :
    ∃ σ', m.sizeRegister σ number defined = .ok σ' ∧ σ'.shape m.state = .unsigned m.bits ∧
      (σ'.get m.state).reset = (Shape.unsigned m.bits).normalize (m.resetEncoding defined) := by
  obtain ⟨r, hr⟩ := Option.isSome_iff_exists.mp hissued
  have hreshape : σ.reshape m.state (.unsigned m.width) (m.resetEncoding defined) =
      .ok (σ.modify m.state fun r => { r with
        shape := .unsigned m.width
        reset := (Shape.unsigned m.width).normalize (m.resetEncoding defined) }) := by
    unfold Arenas.reshape
    exact if_neg (not_lt.mpr (natCast_nonneg m.bits))
  refine ⟨_, by rw [sizeRegister, hreshape]; rfl, ?_, ?_⟩
  · unfold Arenas.shape Arenas.get
    rw [Arenas.get?_modify, Arenas.get?_modify, hr, Option.map_some, Option.map_some, if_pos rfl, if_pos rfl]
    rfl
  · unfold Arenas.get
    rw [Arenas.get?_modify, Arenas.get?_modify, hr, Option.map_some, Option.map_some, if_pos rfl, if_pos rfl]
    rfl

theorem normalize_of_lt (h : v < 2 ^ w) : (Shape.unsigned w).normalize v = v := by
  unfold Shape.normalize Shape.unsigned
  rw [if_neg Bool.false_ne_true, toNat_natCast]
  exact emod_eq_of_lt (natCast_nonneg v) (by exact_mod_cast h)

theorem lt_of_normalize (h : (Shape.unsigned w).normalize v = v) : v < 2 ^ w := by
  unfold Shape.normalize Shape.unsigned at h
  rw [if_neg Bool.false_ne_true, toNat_natCast] at h
  have hlt : (v : Int) % (Nat.pow 2 w : Nat) < (Nat.pow 2 w : Nat) :=
    emod_lt_of_pos _ (by exact_mod_cast Nat.two_pow_pos w)
  rw [h] at hlt
  exact_mod_cast hlt

end Machine

namespace Builder

variable {α : Type} {s t : State α}
variable {number : Nat} {m : Machine} {opts : MachineOptions}

/-- A machine by number. -/
def State.machineAt (s : State α) (number : Nat) : Machine := s.machines.getD number Inhabited.default

theorem machineAt_eq (h : s.machines[number]? = some m) : s.machineAt number = m := by
  unfold State.machineAt
  rw [Array.getD_eq_getD_getElem?, h]
  rfl

/-- A complete machine is lowered to one switch over its register. -/
theorem lowerMachine_gives (number : Nat) {states : List (String × List Statement)} (hm : s.machineAt number = m)
    (hcomplete : m.Complete states) (hissued : s.arenas.Issued m.state) :
    ∃ σ, Gives (lowerMachine number states) s [.switch (.signal m.state) (states.map m.arm)] { s with arenas := σ } ∧
      σ.shape m.state = .unsigned m.bits ∧
      (σ.get m.state).reset = (Shape.unsigned m.bits).normalize (m.resetEncoding (states.map Prod.fst)) := by
  obtain ⟨σ, hsize, hshape, hreset⟩ := Machine.sizeRegister_spec hissued number (states.map Prod.fst)
  refine ⟨σ, ?_, hshape, hreset⟩
  have hswitch : Statement.mkSwitch σ (.signal m.state) (states.map m.arm) =
      .ok (.switch (.signal m.state) (states.map m.arm)) := by
    have hspans : ∀ a ∈ states.map m.arm, ∀ p ∈ a.1, Pattern.Spans m.width p := by
      intro a ha p hp
      obtain ⟨d, hd, rfl⟩ := mem_map.mp ha
      rw [mem_singleton.mp hp]
      exact hcomplete.spans_digits hd
    have hwidth : m.width = Value.width σ (.signal m.state) := (congrArg Shape.width hshape).symm
    refine (Statement.mkSwitch_self_iff (hwidth ▸ hspans)).mpr ⟨hcomplete.nodup_patterns, ?_⟩
    exact Statement.not_blends_of_canonical fun a ha p hp => (hspans a ha p hp).canonical hcomplete.one_le_width
  have hstates : states.isEmpty = false := isEmpty_eq_false_iff.mpr hcomplete.nonempty
  unfold lowerMachine
  rw [hstates]
  refine gives_bind.mpr ⟨m, s, gives_read.mpr ⟨hm, rfl⟩, gives_bind.mpr ⟨_, s, gives_arenas.mpr ⟨rfl, rfl⟩, ?_⟩⟩
  refine gives_bind.mpr ⟨σ, s, gives_raise.mpr ⟨hsize, rfl⟩, gives_bind.mpr ⟨(), _, gives_modify.mpr rfl, ?_⟩⟩
  refine gives_bind.mpr ⟨_, _, gives_ofExcept.mpr ⟨Machine.arms_eq fun d hd => hcomplete.code_lt_two_pow hd, rfl⟩, ?_⟩
  exact gives_bind.mpr ⟨_, _, gives_raise.mpr ⟨hswitch, rfl⟩, gives_pure.mpr ⟨rfl, rfl⟩⟩

theorem pop_gives {base : List Control} {c : Control} {ys : List Statement} {u : State α}
    (hstack : s.block.stack = base ++ [c])
    (hlower : Gives (lower c) { s with block := { s.block with stack := base } } ys u) :
    Gives pop s () { u with block := { u.block with statements := u.block.statements ++ ys } } := by
  refine gives_bind.mpr ⟨_, _, gives_block.mpr ⟨rfl, rfl⟩, ?_⟩
  rw [hstack, getLast?_concat]
  refine gives_bind.mpr ⟨(), { s with block := { s.block with stack := base } }, gives_modify.mpr ?_, ?_⟩
  · dsimp only
    rw [hstack, dropLast_concat]
  · exact gives_bind.mpr ⟨ys, u, hlower, gives_modify.mpr rfl⟩

/-- A machine whose body has been run: what it knows of its states, before they are compared with those defined. -/
structure Filled (opts : MachineOptions) (base : List Control) (number : Nat) (es : List Event) (s : State α) : Prop where
  known : number < s.machines.size
  reset : (s.machineAt number).reset = opts.reset
  resetNamed : opts.reset ≠ "" → (mentions number es).head? = some opts.reset
  issued : s.arenas.Issued (s.machineAt number).state
  order : (s.machineAt number).order = (mentions number es).eraseDups
  nodup : (s.machineAt number).order.Nodup
  poised : Poised .machine (base ++ [.machine number (definitions number es)]) (base.length + 1) s
  once : ((definitions number es).map Prod.fst).Nodup
  announced : Announced number es
  faithful : ∀ e ∈ es, e.Faithful number (s.machineAt number)

theorem mentions_entry (opts : MachineOptions) (number : Nat) :
    mentions number (MachineOptions.entry opts number) = if opts.reset = "" then [] else [opts.reset] := by
  unfold MachineOptions.entry
  split
  · rfl
  · simp [mentions, Event.mention?]

theorem filled_of_body {p : Program α} {frame : Frame} {s1 s2 : State α} (hs : Standing s)
    (hopen : Gives (openMachine opts) s (frame, number) s1) (hbody : Gives p.build s1 () s2) :
    frame = .machine (s.block.stack.take s.block.depth).length number ∧
      Filled opts (s.block.stack.take s.block.depth) number (MachineOptions.entry opts number ++ p.events s1) s2 := by
  obtain ⟨hframe, hp⟩ := openMachine_opens hs hopen
  rw [← length_take_depth hs] at hframe
  refine ⟨hframe, ?_⟩
  obtain ⟨state, hm, hissued⟩ : ∃ state,
      s1.machines[number]? = some (Machine.create opts state) ∧ s1.arenas.Issued state := by
    obtain ⟨-, rfl, σ, state, s0, hissue, hflush, -, rfl⟩ := openMachine_inv hopen
    have hcalm := (moves_flush (R := Calm)).gives hflush
    refine ⟨state, ?_, hcalm.issued state (Arenas.issue_spec hissue hs.arena).2.1⟩
    change s0.machines[s.machines.size]? = _
    rw [hcalm.machines]
    exact Array.getElem?_push_size
  have hnumber := (Array.getElem?_eq_some_iff.mp hm).1
  have hfollows := (build_follows p s1).gives hbody
  have hm2 := hfollows.machines number _ hm
  have hmachine := machineAt_eq hm2
  have hnested := (build_completes p ((openMachine_standing hs opts).gives hopen) hbody).machine
    (s.block.stack.take s.block.depth) number [] (by rw [length_take_depth hs]; exact hp) hnumber
  have hdefinitions : definitions number (MachineOptions.entry opts number ++ p.events s1) =
      [] ++ definitions number (p.events s1) := by
    rw [definitions_append, definitions_machineEntry]
  have hall : (Machine.create opts state).mentioning (mentions number (p.events s1)) =
      (⟨opts.name, opts.domain, state, opts.reset, []⟩ : Machine).mentioning
        (mentions number (MachineOptions.entry opts number ++ p.events s1)) := by
    rw [create_eq, ← Machine.mentioning_append, mentions_append, mentions_entry]
  refine ⟨(Array.getElem?_eq_some_iff.mp hm2).1, ?_, ?_, ?_, ?_, ?_, ?_, ?_, ?_, ?_⟩
  · rw [hmachine, hall, Machine.mentioning_eq]
  · intro hreset
    rw [mentions_append, mentions_entry, if_neg hreset]
    rfl
  · rw [hmachine, hall, Machine.mentioning_eq]
    exact ((Admits.build (R := Rooted) p).gives hbody).issued state hissued
  · rw [hmachine, hall, Machine.order_mentioning rfl]
  · rw [hmachine, hall]
    exact Machine.nodup_mentioning nodup_nil _
  · rw [hdefinitions]
    exact hnested.1
  · rw [hdefinitions]
    exact hnested.2.1 nodup_nil
  · exact (announced_of_no_definitions (definitions_machineEntry opts number number)).append
      (announced_events p s1 number)
  · intro e he
    rw [hmachine]
    rcases mem_append.mp he with he | he
    · unfold MachineOptions.entry at he
      split at he
      · exact absurd he not_mem_nil
      · rw [mem_singleton.mp he]
        trivial
    · exact hfollows.faithful number _ hm e he

/-- Every state that is named is defined. -/
def AllDefined (number : Nat) (es : List Event) : Prop :=
  ∀ name ∈ mentions number es, name ∈ (definitions number es).map Prod.fst

/-- The state that the register of a machine resets to: the one that was named, or else the first one defined. -/
def resetState (opts : MachineOptions) (number : Nat) (es : List Event) : String :=
  if opts.reset = "" then ((definitions number es).map Prod.fst).headD "" else opts.reset

namespace Filled

variable {opts : MachineOptions} {base : List Control} {number : Nat} {es : List Event}
variable {name : String}

variable (h : Filled opts base number es s)
include h

theorem mem_order :
    name ∈ (s.machineAt number).order ↔ name ∈ mentions number es := by
  rw [h.order, mem_eraseDups]

/-- The check at the end of a machine finds a state that was named but not defined, if there is one. -/
theorem undefinedState?_eq_none_iff :
    undefinedState? (s.machineAt number) (definitions number es) = none ↔ AllDefined number es := by
  unfold undefinedState? AllDefined
  simp only [find?_eq_none, h.mem_order, Bool.not_eq_true', Bool.not_eq_false, any_eq_true,
    decide_eq_true_eq, mem_map]

theorem mem_of_undefinedState? (hname : undefinedState? (s.machineAt number) (definitions number es) = some name) :
    name ∈ mentions number es ∧ name ∉ (definitions number es).map Prod.fst := by
  unfold undefinedState? at hname
  refine ⟨h.mem_order.mp (mem_of_find?_eq_some hname), fun hmem => ?_⟩
  have hany := find?_some hname
  obtain ⟨d, hd, rfl⟩ := mem_map.mp hmem
  rw [Bool.not_eq_true'] at hany
  exact any_eq_false.mp hany d hd (decide_eq_true rfl)

theorem perm (hdefined : AllDefined number es) :
    ((definitions number es).map Prod.fst).Perm (s.machineAt number).order :=
  (perm_ext_iff_of_nodup h.once h.nodup).mpr fun name =>
    ⟨fun hname => h.mem_order.mpr (h.announced name hname), fun hname => hdefined name (h.mem_order.mp hname)⟩

theorem complete (hstates : definitions number es ≠ [])
    (hdefined : AllDefined number es) : (s.machineAt number).Complete (definitions number es) := ⟨h.nodup, h.perm hdefined, hstates⟩

/-- A machine ends if every state that was named is defined. -/
theorem close_gives (hdefined : AllDefined number es) :
    ∃ t, Gives (close (.machine base.length number)) s () t := by
  have hlower : ∃ ys u, Gives (lower (.machine number (definitions number es))) { s with block := { s.block with
      depth := s.block.depth - 1
      context := .plain
      stack := base } } ys u := by
    by_cases hstates : definitions number es = []
    · rw [hstates]
      exact ⟨[], _, rfl⟩
    · obtain ⟨σ, hlower, -⟩ := lowerMachine_gives (s := { s with block := { s.block with
        depth := s.block.depth - 1
        context := .plain
        stack := base } }) number rfl (h.complete hstates hdefined) h.issued
      exact ⟨_, _, hlower⟩
  obtain ⟨ys, u, hlower⟩ := hlower
  have hpop := pop_gives (s := { s with block := { s.block with
    depth := s.block.depth - 1
    context := .plain } }) h.poised.stack hlower
  have hrun := run_close_machine h.poised
  rw [show undefinedState? (s.machines.getD number Inhabited.default) (definitions number es) = none from
    h.undefinedState?_eq_none_iff.mpr hdefined, Option.elim_none] at hrun
  exact ⟨_, gives_run.mpr (hrun.trans hpop)⟩

/-- The end of a machine that is complete: it becomes a switch, and its register is sized. -/
theorem close_complete (hcomplete : (s.machineAt number).Complete (definitions number es))
    {u : Unit} (hclose : Gives (close (.machine base.length number)) s u t) :
    t.machineAt number = s.machineAt number ∧
      t.block.statements = s.block.statements ++
        [.switch (.signal (s.machineAt number).state) ((definitions number es).map (s.machineAt number).arm)] ∧
      t.arenas.shape (s.machineAt number).state = .unsigned (s.machineAt number).bits ∧
      (t.arenas.get (s.machineAt number).state).reset = (Shape.unsigned (s.machineAt number).bits).normalize
        ((s.machineAt number).resetEncoding ((definitions number es).map Prod.fst)) := by
  have hpop := (close_machine h.poised hclose).2
  obtain ⟨σ, hlower, hshape, hreset⟩ := lowerMachine_gives (s := { s with block := { s.block with
    depth := s.block.depth - 1
    context := .plain
    stack := base } }) number rfl hcomplete h.issued
  have hgives := pop_gives (s := { s with block := { s.block with
    depth := s.block.depth - 1
    context := .plain } }) h.poised.stack hlower
  obtain ⟨-, rfl⟩ := Prod.mk.inj (hgives.symm.trans hpop)
  exact ⟨rfl, rfl, hshape, hreset⟩

theorem resetEncoding_eq :
    (s.machineAt number).resetEncoding ((definitions number es).map Prod.fst) =
      (s.machineAt number).code (resetState opts number es) := by
  unfold Machine.resetEncoding Machine.code resetState
  rw [h.reset]

/-- The state that the register resets to is one of the machine. -/
theorem resetState_mem (hcomplete : (s.machineAt number).Complete (definitions number es)) :
    resetState opts number es ∈ (s.machineAt number).order := by
  unfold resetState
  split
  · refine hcomplete.perm.mem_iff.mp ?_
    cases hstates : definitions number es with
    | nil => exact absurd hstates hcomplete.nonempty
    | cons => exact mem_cons_self
  · rename_i hreset
    exact h.mem_order.mpr (mem_of_head? (h.resetNamed hreset))

/-- The register holds the number of the state that it resets to. -/
theorem register_reset (hcomplete : (s.machineAt number).Complete (definitions number es))
    (hreset : (t.arenas.get (s.machineAt number).state).reset = (Shape.unsigned (s.machineAt number).bits).normalize
      ((s.machineAt number).resetEncoding ((definitions number es).map Prod.fst))) :
    (t.arenas.get (s.machineAt number).state).reset = (s.machineAt number).code (resetState opts number es) := by
  have hlt := Machine.code_lt h.nodup (h.resetState_mem hcomplete)
  rw [hreset, h.resetEncoding_eq]
  exact Machine.normalize_of_lt (hlt.trans_le (Machine.bits_isLeast hcomplete.order_ne_nil).1.2)

/-- The first number belongs to the first state named. -/
theorem code_eq_zero_iff (hname : name ∈ (s.machineAt number).order) :
    (s.machineAt number).code name = 0 ↔ (mentions number es).head? = some name := by
  have hplace : (s.machineAt number).encoding? name = some 0 ↔ _ := Machine.encoding?_eq_some_iff h.nodup
  rw [Machine.encoding?_code hname, Option.some.injEq, h.order, ← head?_eq_getElem?] at hplace
  rw [hplace]
  cases mentions number es with
  | nil => rfl
  | cons => rw [eraseDups_cons, head?_cons, head?_cons]

end Filled

/-- The machine `m`, with the given number and events, is what the end of its construct should make of it. -/
structure Realized (opts : MachineOptions) (number : Nat) (es : List Event) (m : Machine) (t : State α) : Prop where
  /-- States are numbered in the order in which they were first named. -/
  first_seen : m.order = (mentions number es).eraseDups
  numbered : ∀ (name : String) (v : Nat), m.encoding? name = some v ↔ m.order[v]? = some name
  /-- The states named are the states defined, each of them once. -/
  defined : ((definitions number es).map Prod.fst).Perm m.order
  register : ∃ w : Nat, IsLeast { w | 1 ≤ w ∧ m.order.length ≤ 2 ^ w } w ∧ t.arenas.shape m.state = .unsigned w
  /-- What a transition assigns is the number of its state, and the register holds it as it is. -/
  transitions : ∀ (name : String) (x : Statement), .transition number name (some x) ∈ es → ∃ v : Nat,
    m.encoding? name = some v ∧ x = .assign (.signal m.state) (.ofInt v) ∧ (t.arenas.shape m.state).normalize v = v
  dispatch : ∃ before arms, t.block.statements = before ++ [.switch (.signal m.state) arms] ∧
    arms.length = m.order.length ∧ (∀ a ∈ arms, ∃ p, a.1 = [p]) ∧ (arms.map Prod.fst).Nodup ∧
    ∀ (tests : Value → Int) (v : Nat), (t.arenas.shape m.state).normalize v = v → tests (.signal m.state) = v →
      (∀ name body, (name, body) ∈ definitions number es → m.encoding? name = some v →
        Statement.run tests (.switch (.signal m.state) arms) = Statement.runAll tests body) ∧
      ((∀ name, m.encoding? name ≠ some v) → Statement.run tests (.switch (.signal m.state) arms) = [])
  reset : ∃ v : Nat, m.encoding? (resetState opts number es) = some v ∧ (t.arenas.get m.state).reset = v

/-- A machine that ends was filled by its body, and is complete if it has a state. -/
theorem machine_filled {body : Nat → Program α} (hs : Reached s)
    (hg : Gives (machine opts fun n => (body n).build) s number t)
    (hstates : definitions number (machineEvents opts (fun n => (body n).events) s) ≠ []) :
    ∃ base s2, Filled opts base number (machineEvents opts (fun n => (body n).events) s) s2 ∧
      (s2.machineAt number).Complete (definitions number (machineEvents opts (fun n => (body n).events) s)) ∧
      Gives (close (.machine base.length number)) s2 () t := by
  obtain ⟨frame, s1, s2, hopen, hbody, hclose⟩ := machine_inv hg
  obtain ⟨rfl, hfilled⟩ := filled_of_body hs.standing hopen hbody
  have hevents : machineEvents opts (fun n => (body n).events) s =
      MachineOptions.entry opts number ++ (body number).events s1 := afterwards_ok hopen
  rw [← hevents] at hfilled
  exact ⟨_, s2, hfilled, hfilled.complete hstates
    (hfilled.undefinedState?_eq_none_iff.mp (close_machine hfilled.poised hclose).1), hclose⟩

/-- Whatever its body does, a machine with a state stands for its events once its construct has ended. -/
theorem machine_realized {opts : MachineOptions} {body : Nat → Program α} {number : Nat} (hs : Reached s)
    (hg : Gives (machine opts fun n => (body n).build) s number t)
    (hstates : definitions number (machineEvents opts (fun n => (body n).events) s) ≠ []) :
    Realized opts number (machineEvents opts (fun n => (body n).events) s) (t.machineAt number) t := by
  obtain ⟨base, s₂, hfilled, hcomplete, hclose⟩ := machine_filled hs hg hstates
  obtain ⟨hm, hstatements, hshape, hreset⟩ := hfilled.close_complete hcomplete hclose
  have hleast := Machine.bits_isLeast hcomplete.order_ne_nil
  rw [hm]
  refine ⟨hfilled.order, fun name v => Machine.encoding?_eq_some_iff hfilled.nodup, hcomplete.perm,
    ⟨_, hleast, hshape⟩, ?_, ?_, ?_⟩
  · intro name x hx
    obtain ⟨v, hv, hassign⟩ := hfilled.faithful _ hx rfl
    refine ⟨v, hv, hassign x rfl, ?_⟩
    rw [hshape]
    have hplace := (Machine.encoding?_eq_some_iff hfilled.nodup).mp hv
    exact Machine.normalize_of_lt ((List.getElem?_eq_some_iff.mp hplace).1.trans_le hleast.1.2)
  · refine ⟨_, _, hstatements, ?_, ?_, hcomplete.nodup_patterns, fun tests v hv htest => ?_⟩
    · rw [length_map, ← hcomplete.perm.length_eq, length_map]
    · intro a ha
      obtain ⟨d, -, rfl⟩ := mem_map.mp ha
      exact ⟨_, rfl⟩
    · rw [hshape] at hv
      have hlt := Machine.lt_of_normalize hv
      exact ⟨fun name body' hd hcode => hcomplete.run_state hlt htest hd hcode, hcomplete.run_nothing hlt htest⟩
  · exact ⟨_, Machine.encoding?_code (hfilled.resetState_mem hcomplete), hfilled.register_reset hcomplete hreset⟩

/-- A builder with one signal. -/
def lockStart : State Unit :=
  ⟨⟨#[⟨#[⟨"key", .unsigned 1, 0, false, [], none⟩], 0, 0⟩]⟩, #[], .empty, .create 0 false⟩

def lockOptions : MachineOptions := ⟨"lock", syncDomain, "OPEN"⟩

/-- A lock whose states are named before they are defined; one of them has a machine of its own. -/
def lockBody (number : Nat) : Program Unit :=
  .block (.state "SHUT")
    (.block (.ifThen (.value (.signal ⟨0, 1⟩))) (.next "OPEN" .done) <| .block .orElse (.next "ALARM" .done) .done) <|
  .block (.state "OPEN") (.ongoing number "ALARM" fun _ => .next "SHUT" .done) <|
  .block (.state "ALARM")
    (.machine .plain (fun _ => .block (.state "RING") .done .done) fun _ => .next "SHUT" .done) .done

def lockEnd : State Unit := ((machine lockOptions fun n => (lockBody n).build).run.run lockStart).2

theorem machine_realized_lock :
    Realized lockOptions 0 (machineEvents lockOptions (fun n => (lockBody n).events) lockStart) (lockEnd.machineAt 0) lockEnd ∧
      (lockEnd.machineAt 0).order = ["OPEN", "SHUT", "ALARM"] := by
  have hreached : Reached lockStart := .created lockStart 0 false rfl (by decide)
  have hg : Gives (machine lockOptions fun n => (lockBody n).build) lockStart 0 lockEnd :=
    eq_ok_of_toOption (by decide +kernel)
  have hstates : definitions 0 (machineEvents lockOptions (fun n => (lockBody n).events) lockStart) ≠ [] :=
    ne_nil_of_length_pos (by decide +kernel)
  exact ⟨machine_realized hreached hg hstates, by decide +kernel⟩

/-- States have their numbers in the order in which they are first named. So the state that the register resets to is
number zero exactly if it is the first one named, as it is whenever the machine was given it. -/
theorem reset_number {opts : MachineOptions} {body : Nat → Program α} {number : Nat} (hs : Reached s)
    (hg : Gives (machine opts fun n => (body n).build) s number t)
    (hstates : definitions number (machineEvents opts (fun n => (body n).events) s) ≠ []) :
    ∃ es m v, es = machineEvents opts (fun n => (body n).events) s ∧ m = t.machineAt number ∧
      m.order = (mentions number es).eraseDups ∧ (∀ name code, m.encoding? name = some code ↔ m.order[code]? = some name) ∧
      m.encoding? (resetState opts number es) = some v ∧ (t.arenas.get m.state).reset = v ∧
      (v = 0 ↔ (mentions number es).head? = some (resetState opts number es)) ∧ (opts.reset ≠ "" → v = 0) := by
  obtain ⟨base, s₂, hfilled, hcomplete, hclose⟩ := machine_filled hs hg hstates
  obtain ⟨hm, -, -, hreset⟩ := hfilled.close_complete hcomplete hclose
  have hmem := hfilled.resetState_mem hcomplete
  have hzero := hfilled.code_eq_zero_iff hmem
  refine ⟨_, _, _, rfl, hm.symm, hfilled.order, fun _ _ => Machine.encoding?_eq_some_iff hfilled.nodup,
    Machine.encoding?_code hmem, hfilled.register_reset hcomplete hreset, hzero, fun hnamed => hzero.mpr ?_⟩
  rw [hfilled.resetNamed hnamed, resetState, if_neg hnamed]

/-- A gate that is tested for a state before any is defined. -/
def gateBody (number : Nat) : Program Unit :=
  .ongoing number "OPEN" fun _ => .block (.state "SHUT") (.next "OPEN" .done) <| .block (.state "OPEN") .done .done

def gateEnd : State Unit := ((machine .plain fun n => (gateBody n).build).run.run lockStart).2

def gateEvents : List Event := machineEvents .plain (fun n => (gateBody n).events) lockStart

theorem gate_ends : Reached lockStart ∧ Gives (machine .plain fun n => (gateBody n).build) lockStart 0 gateEnd ∧
    definitions 0 gateEvents ≠ [] ∧ resetState .plain 0 gateEvents = "SHUT" :=
  ⟨.created lockStart 0 false rfl (by decide), eq_ok_of_toOption (by decide +kernel),
    ne_nil_of_length_pos (by decide +kernel), by decide +kernel⟩

theorem reset_number_gate : ∃ v, (gateEnd.machineAt 0).encoding? (resetState .plain 0 gateEvents) = some v ∧
    (gateEnd.arenas.get (gateEnd.machineAt 0).state).reset = v ∧
    (v = 0 ↔ (mentions 0 gateEvents).head? = some (resetState .plain 0 gateEvents)) := by
  obtain ⟨hreached, hg, hstates, -⟩ := gate_ends
  obtain ⟨_, _, v, rfl, rfl, -, -, hcode, hreset, hzero, -⟩ := reset_number hreached hg hstates
  exact ⟨v, hcode, hreset, hzero⟩

/-- The state that a register resets to need not be number zero. -/
theorem not_forall_reset_zero : ¬ ∀ (opts : MachineOptions) (body : Nat → Program Unit) (s t : State Unit) (number : Nat),
    Reached s → Gives (machine opts fun n => (body n).build) s number t →
    definitions number (machineEvents opts (fun n => (body n).events) s) ≠ [] →
    (t.machineAt number).encoding? (resetState opts number (machineEvents opts (fun n => (body n).events) s)) = some 0 := by
  intro h
  obtain ⟨hreached, hg, hstates, hreset⟩ := gate_ends
  have hzero := h .plain gateBody lockStart gateEnd 0 hreached hg hstates
  change (gateEnd.machineAt 0).encoding? (resetState .plain 0 gateEvents) = some 0 at hzero
  rw [hreset] at hzero
  exact absurd hzero (by decide +kernel)

end Builder
end Rtl
