import Mathlib
import Rtl.Proofs.Tree
import Rtl.Proofs.Usage

/-!
# Port derivation, one fragment at a time

What the ports of one fragment are in terms of what it assigns and reads itself and of the ports its children were
given. A signal has one direction: outputs are entered last and inputs before them, over what is connected both ways.
Children are visited in order, and an input that one of them wants is struck out only by a later child that gives it.
-/
namespace Rtl

open List NetSet

variable {n : Net}
variable {α : Type} {l : List α} {Q R : α → Prop}

/-- Some element has `Q`, and everything after it has `R`. -/
def ExistsThen {α : Type} (Q R : α → Prop) (l : List α) : Prop :=
  ∃ before x after, l = before ++ x :: after ∧ Q x ∧ ∀ y ∈ after, R y

theorem existsThen_nil : ¬ ExistsThen Q R [] := by
  rintro ⟨before, x, after, h, -⟩
  cases before <;> cases h

theorem existsThen_cons {a : α} : ExistsThen Q R (a :: l) ↔ (Q a ∧ ∀ y ∈ l, R y) ∨ ExistsThen Q R l := by
  constructor
  · rintro ⟨before, x, after, h, hq, hr⟩
    cases before with
    | nil =>
      cases h
      exact Or.inl ⟨hq, hr⟩
    | cons b before =>
      cases h
      exact Or.inr ⟨before, x, after, rfl, hq, hr⟩
  · rintro (⟨hq, hr⟩ | ⟨before, x, after, rfl, hq, hr⟩)
    · exact ⟨[], a, l, rfl, hq, hr⟩
    · exact ⟨a :: before, x, after, rfl, hq, hr⟩

theorem existsThen_append {l' : List α} :
    ExistsThen Q R (l ++ l') ↔ ExistsThen Q R l' ∨ ExistsThen Q R l ∧ ∀ y ∈ l', R y := by
  induction l with
  | nil => simp [existsThen_nil]
  | cons a l ih =>
    rw [cons_append, existsThen_cons, existsThen_cons, ih]
    simp only [forall_mem_append]
    tauto

theorem ExistsThen.exists (h : ExistsThen Q R l) : ∃ x ∈ l, Q x := by
  obtain ⟨before, x, after, rfl, hq, -⟩ := h
  exact ⟨x, by simp, hq⟩

theorem existsThen_of_forall (hr : ∀ y ∈ l, R y) : ExistsThen Q R l ↔ ∃ x ∈ l, Q x := by
  refine ⟨ExistsThen.exists, ?_⟩
  rintro ⟨x, hx, hq⟩
  obtain ⟨before, after, rfl⟩ := append_of_mem hx
  exact ⟨before, x, after, rfl, hq, fun y hy => hr y (by simp [hy])⟩

namespace Body

variable {b : Body}

/-- The body as it is apart from its ports. -/
def SameButPorts (b b' : Body) : Prop := b' = { b with ports := b'.ports }

theorem SameButPorts.trans {c d : Body} (h : b.SameButPorts c) (h' : c.SameButPorts d) : b.SameButPorts d := by
  unfold SameButPorts at *
  rw [h', h]

theorem addPorts_sameButPorts (b : Body) (dir : Direction) (ns : List Net) : b.SameButPorts (b.addPorts dir ns) := by
  induction ns generalizing b with
  | nil => rfl
  | cons n ns ih => exact SameButPorts.trans (c := b.addPort dir n) rfl (ih _)

theorem addPorts_get? (b : Body) (dir : Direction) (ns : List Net) (n : Net) :
    (b.addPorts dir ns).ports.get? n = if n ∈ NetSet.ofList ns then some dir else b.ports.get? n := by
  induction ns generalizing b with
  | nil => simp [addPorts]
  | cons m ns ih =>
    have hstep : b.addPorts dir (m :: ns) = (b.addPort dir m).addPorts dir ns := rfl
    rw [hstep, ih]
    simp only [addPort, NetTable.get?_set, mem_ofList, mem_cons, exists_eq_or_imp]
    by_cases hm : m.key = n.key <;> simp [hm]

theorem addPorts_distinct (h : b.ports.Distinct) (dir : Direction) (ns : List Net) :
    (b.addPorts dir ns).ports.Distinct := by
  induction ns generalizing b with
  | nil => exact h
  | cons n ns ih => exact ih (b := b.addPort dir n) (h.set n dir)

theorem mem_portsOf (h : b.ports.Distinct) {dir : Direction} : n ∈ b.portsOf dir ↔ b.ports.get? n = some dir := by
  rw [h.get?_eq_some_iff, mem_iff]
  simp only [portsOf, mem_map, mem_filter, decide_eq_true_eq]
  constructor
  · rintro ⟨m, ⟨e, ⟨he, hd⟩, rfl⟩, hk⟩
    exact ⟨e, he, hk, hd⟩
  · rintro ⟨e, he, hk, hd⟩
    exact ⟨e.1, ⟨e, ⟨he, hd⟩, rfl⟩, hk⟩

theorem ofList_items (s : NetSet) (n : Net) : n ∈ NetSet.ofList s.items ↔ n ∈ s := by
  rw [mem_ofList, mem_iff]

/-- Inputs, then outputs, entered over a table that has bidirectional ports only. -/
theorem addPorts_layers (hb : b.ports.get? n = some .inout ∨ b.ports.get? n = none) (ins outs : NetSet) :
    (((b.addPorts .input ins.items).addPorts .output outs.items).ports.get? n = some .output ↔ n ∈ outs) ∧
    (((b.addPorts .input ins.items).addPorts .output outs.items).ports.get? n = some .input ↔ n ∉ outs ∧ n ∈ ins) ∧
    (b.ports.get? n = some .inout →
      ((b.addPorts .input ins.items).addPorts .output outs.items).ports.contains n = true) := by
  rw [NetTable.contains_iff, addPorts_get?, addPorts_get?]
  simp only [ofList_items]
  by_cases ho : n ∈ outs
  · simp [ho]
  · by_cases hi : n ∈ ins
    · simp [ho, hi]
    · rcases hb with hb | hb <;> simp [ho, hi, hb]

end Body

namespace Fragment

variable {σ : Arenas} {f : Fragment}
variable {ports : NetSet} {f' : Fragment} {dir : Direction} {cs : List (String × Fragment)}

/-- The children with their own ports, taken into account one after the other. -/
def PortState.addChildren (driven ports : NetSet) (s : PortState) (cs : List (String × Fragment)) : PortState :=
  cs.foldl (fun s c => s.addChild driven ports c.2.body.portSets) s

theorem propagateChildren_inv {driven request : NetSet} {cs' : List (String × Fragment)} {s s' : PortState}
    (h : propagateChildren σ driven ports request s cs = .ok (s', cs')) :
    List.Forall₂ (fun c c' => c'.1 = c.1 ∧ c.2.propagatePorts σ request = .ok c'.2) cs cs' ∧
      s' = s.addChildren driven ports cs' := by
  induction cs generalizing s cs' with
  | nil =>
    rw [propagateChildren, Except.ok.injEq, Prod.mk.injEq] at h
    obtain ⟨rfl, rfl⟩ := h
    exact ⟨.nil, rfl⟩
  | cons c cs ih =>
    obtain ⟨name, f⟩ := c
    rw [propagateChildren] at h
    obtain ⟨f', hf, h⟩ := except_bind_eq_ok.mp h
    obtain ⟨⟨t, others⟩, ht, h⟩ := except_bind_eq_ok.mp h
    rw [except_pure_eq_ok, Prod.mk.injEq] at h
    obtain ⟨rfl, rfl⟩ := h
    obtain ⟨hall, rfl⟩ := ih ht
    exact ⟨.cons ⟨rfl, hf⟩ hall, rfl⟩

/-- What a fragment has gathered once its children have their ports. -/
def PortState.gathered (ports : NetSet) (b : Body) (u : Usage) (cs : List (String × Fragment)) : PortState :=
  PortState.addChildren u.driven ports
    ⟨b.addPorts .inout u.both.items, u.used.difference u.driven, ports.intersection u.driven⟩ cs

theorem propagatePorts_inv {b : Body} (h : (node b cs).propagatePorts σ ports = .ok f') :
    ∃ u cs' s, b.usage σ = .ok u ∧
      List.Forall₂ (fun c c' => c'.1 = c.1 ∧ c.2.propagatePorts σ (u.used.union ports) = .ok c'.2) cs cs' ∧
      s = PortState.gathered ports b u cs' ∧
      f' = node ((s.body.addPorts .input s.ins.items).addPorts .output s.outs.items) cs' := by
  rw [propagatePorts] at h
  obtain ⟨u, hu, h⟩ := except_bind_eq_ok.mp h
  obtain ⟨⟨s, cs'⟩, hs, h⟩ := except_bind_eq_ok.mp h
  obtain ⟨hall, rfl⟩ := propagateChildren_inv hs
  exact ⟨u, cs', _, hu, hall, rfl, (except_pure_eq_ok.mp h).symm⟩

/-- The fragment has the net as a port of the given direction. -/
def HasPort (f : Fragment) (dir : Direction) (n : Net) : Prop := f.body.ports.get? n = some dir

instance (f : Fragment) (dir : Direction) (n : Net) : Decidable (f.HasPort dir n) :=
  inferInstanceAs (Decidable (_ = _))

theorem HasPort.unique {dir' : Direction} (h : f.HasPort dir n) (h' : f.HasPort dir' n) : dir = dir' := by
  unfold HasPort at h h'
  rw [h, Option.some.injEq] at h'
  exact h'

theorem HasPort.contains (h : f.HasPort dir n) : f.body.ports.contains n = true := NetTable.contains_iff.mpr ⟨dir, h⟩

section Children

variable {driven ports : NetSet} {cs : List (String × Fragment)} (hd : ∀ c ∈ cs, c.2.body.ports.Distinct) (n : Net)
include hd

theorem mem_addChildren_outs (s : PortState) :
    n ∈ (s.addChildren driven ports cs).outs ↔
      n ∈ s.outs ∨ n ∈ ports ∧ ∃ c ∈ cs, c.2.HasPort .output n := by
  induction cs generalizing s with
  | nil => simp [PortState.addChildren]
  | cons c cs ih =>
    obtain ⟨hc, hcs⟩ := forall_mem_cons.mp hd
    change n ∈ ((s.addChild driven ports c.2.body.portSets).addChildren driven ports cs).outs ↔ _
    rw [ih hcs]
    simp only [PortState.addChild, Body.portSets, mem_union, mem_intersection, mem_cons,
      exists_eq_or_imp, Body.mem_portsOf hc, HasPort]
    tauto

theorem mem_addChildren_ins (s : PortState) :
    n ∈ (s.addChildren driven ports cs).ins ↔
      (n ∈ s.ins ∧ ∀ c ∈ cs, ¬ c.2.HasPort .output n) ∨
      n ∉ driven ∧ ExistsThen (fun c => c.2.HasPort .input n) (fun c => ¬ c.2.HasPort .output n) cs := by
  induction cs generalizing s with
  | nil => simp [PortState.addChildren, existsThen_nil]
  | cons c cs ih =>
    obtain ⟨hc, hcs⟩ := forall_mem_cons.mp hd
    change n ∈ ((s.addChild driven ports c.2.body.portSets).addChildren driven ports cs).ins ↔ _
    rw [ih hcs, existsThen_cons]
    simp only [PortState.addChild, Body.portSets, mem_union, mem_difference, mem_cons,
      forall_eq_or_imp, Body.mem_portsOf hc, HasPort]
    tauto

theorem addChildren_get? (s : PortState) :
    (s.addChildren driven ports cs).body.ports.get? n =
        (if ∃ c ∈ cs, c.2.HasPort .inout n then some .inout else s.body.ports.get? n) := by
  induction cs generalizing s with
  | nil => simp [PortState.addChildren]
  | cons c cs ih =>
    obtain ⟨hc, hcs⟩ := forall_mem_cons.mp hd
    change ((s.addChild driven ports c.2.body.portSets).addChildren driven ports cs).body.ports.get? n = _
    rw [ih hcs]
    simp only [PortState.addChild, Body.portSets, Body.addPorts_get?, Body.ofList_items, mem_cons,
      exists_eq_or_imp, Body.mem_portsOf hc]
    by_cases h : c.2.HasPort .inout n
    · have h' : c.2.body.ports.get? n = some .inout := h
      simp [h, h']
    · have h' : ¬ c.2.body.ports.get? n = some .inout := h
      simp only [h, h', false_or, if_false]

/-- Over a fragment without ports only bidirectional ones are entered: its own and those of its children. -/
theorem gathered_inout {b : Body} (hb : b.ports = .empty) (u : Usage) :
    (PortState.gathered ports b u cs).body.ports.get? n =
      if (∃ c ∈ cs, c.2.HasPort .inout n) ∨ n ∈ u.both then some .inout else none := by
  rw [PortState.gathered, addChildren_get? hd, Body.addPorts_get?, hb, NetTable.get?_empty]
  simp only [Body.ofList_items]
  split
  · rename_i h
    rw [if_pos (Or.inl h)]
  · rename_i h
    simp only [h, false_or]

omit hd in
theorem addChildren_body (s : PortState) :
    s.body.SameButPorts (s.addChildren driven ports cs).body ∧
      (s.body.ports.Distinct → (s.addChildren driven ports cs).body.ports.Distinct) := by
  induction cs generalizing s with
  | nil => exact ⟨rfl, id⟩
  | cons c cs ih =>
    obtain ⟨hb, hd⟩ := ih (s.addChild driven ports c.2.body.portSets)
    exact ⟨(Body.addPorts_sameButPorts _ _ _).trans hb, fun h => hd (Body.addPorts_distinct h _ _)⟩

end Children

theorem propagatePorts_sameButPorts (h : f.propagatePorts σ ports = .ok f') : f.body.SameButPorts f'.body := by
  cases f with
  | node =>
    obtain ⟨u, cs', s, -, -, rfl, rfl⟩ := propagatePorts_inv h
    exact (((Body.addPorts_sameButPorts _ _ _).trans (addChildren_body _).1).trans
      (Body.addPorts_sameButPorts _ _ _)).trans (Body.addPorts_sameButPorts _ _ _)

/-- No fragment of the tree has ports. -/
def Portless (f : Fragment) : Prop := ∀ b ∈ f.bodies, b.ports = .empty

theorem Portless.body (h : f.Portless) : f.body.ports = .empty := h _ f.body_mem_bodies

theorem Portless.child (h : f.Portless) {c : String × Fragment} (hc : c ∈ f.children) :
    c.2.Portless := fun _ hb => h _ (bodies_of_child hc hb)

/-- What deriving the ports of a tree without ports makes of its top fragment, when `ports` are asked of it and `u` is
what it assigns and reads itself. -/
structure PortsDerived (σ : Arenas) (ports : NetSet) (u : Usage) (f f' : Fragment) : Prop where
  usage : f.body.usage σ = .ok u
  children : List.Forall₂ (fun c c' => c'.1 = c.1 ∧ c.2.propagatePorts σ (u.used.union ports) = .ok c'.2)
    f.children f'.children
  body : f.body.SameButPorts f'.body
  distinct : f'.body.ports.Distinct
  output_iff : ∀ n, f'.HasPort .output n ↔ n ∈ ports ∧ (n ∈ u.driven ∨ ∃ c ∈ f'.children, c.2.HasPort .output n)
  input_iff : ∀ n, f'.HasPort .input n ↔ ¬ f'.HasPort .output n ∧ n ∉ u.driven ∧
    ((n ∈ u.used ∧ ∀ c ∈ f'.children, ¬ c.2.HasPort .output n) ∨
      ExistsThen (fun c => c.2.HasPort .input n) (fun c => ¬ c.2.HasPort .output n) f'.children)
  inout_of_child : ∀ n, ∀ c ∈ f'.children, c.2.HasPort .inout n → f'.body.ports.contains n = true

theorem propagatePorts_distinct (hf : f.Portless) (h : f.propagatePorts σ ports = .ok f') : f'.body.ports.Distinct := by
  cases f with
  | node b =>
    obtain ⟨u, cs', s, -, -, rfl, rfl⟩ := propagatePorts_inv h
    have hb : b.ports.Distinct := hf.body ▸ NetTable.distinct_empty
    exact Body.addPorts_distinct (Body.addPorts_distinct
      ((addChildren_body _).2 (Body.addPorts_distinct hb _ _)) _ _) _ _

theorem propagatePorts_derived (hf : f.Portless) (h : f.propagatePorts σ ports = .ok f') :
    ∃ u, PortsDerived σ ports u f f' := by
  have hdistinct := propagatePorts_distinct hf h
  have hsame := propagatePorts_sameButPorts h
  have hports := hf.body
  cases f with
  | node b =>
    obtain ⟨u, cs', s, hu, hall, hs, rfl⟩ := propagatePorts_inv h
    have hd : ∀ c ∈ cs', c.2.body.ports.Distinct := by
      intro c hc
      obtain ⟨c0, hc0, -, hr⟩ := forall₂_mem_right hall hc
      exact propagatePorts_distinct (hf.child hc0) hr
    have hbody : ∀ n, s.body.ports.get? n =
        if (∃ c ∈ cs', c.2.HasPort .inout n) ∨ n ∈ u.both then some .inout else none :=
      fun n => hs ▸ gathered_inout hd n hports u
    have hlayers := fun n => Body.addPorts_layers (b := s.body) (n := n)
      (by rw [hbody]; split; exacts [Or.inl rfl, Or.inr rfl]) s.ins s.outs
    have houts : ∀ n, n ∈ s.outs ↔ n ∈ ports ∧ (n ∈ u.driven ∨ ∃ c ∈ cs', c.2.HasPort .output n) := by
      intro n
      rw [hs, PortState.gathered, mem_addChildren_outs hd, mem_intersection, and_or_left]
    have hins : ∀ n, n ∈ s.ins ↔ n ∉ u.driven ∧
        ((n ∈ u.used ∧ ∀ c ∈ cs', ¬ c.2.HasPort .output n) ∨
          ExistsThen (fun c => c.2.HasPort .input n) (fun c => ¬ c.2.HasPort .output n) cs') := by
      intro n
      rw [hs, PortState.gathered, mem_addChildren_ins hd, mem_difference]
      tauto
    refine ⟨u, hu, hall, hsame, hdistinct, ?_, ?_, ?_⟩
    · intro n
      exact (hlayers n).1.trans (houts n)
    · intro n
      have ho : _ ↔ n ∈ s.outs := (hlayers n).1
      exact (hlayers n).2.1.trans (and_congr (not_congr ho.symm) (hins n))
    · intro n c hc h
      refine (hlayers n).2.2 ?_
      rw [hbody, if_pos (Or.inl ⟨c, hc, h⟩)]

end Fragment
end Rtl
