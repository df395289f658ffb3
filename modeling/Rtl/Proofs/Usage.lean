import Mathlib
import Rtl.Fragment.Ports
import Rtl.Proofs.Nets
import Rtl.Proofs.Outcome

/-!
# What a fragment assigns and reads

The nets that the statements and the cell of one fragment assign, read and connect both ways, said of the fragment
itself, and the agreement of the usage that port derivation computes with them.
-/
namespace Rtl

variable {σ : Arenas} {u : Usage}
variable {t : NetSet}

theorem Value.assigned_eq_ok {v : Value} : v.assigned σ = .ok t ↔ v.targets = .ok t :=
  except_mapError_eq_ok

theorem Statement.assigned_eq_ok {s : Statement} : s.assigned σ = .ok t ↔ s.targets = .ok t := except_mapError_eq_ok

/-- The port is bound to a value over the net, in the given direction. -/
def Binding.Targets (p : Binding) (dir : Direction) (n : Net) : Prop :=
  p.dir = dir ∧ ∃ t, p.value.targets = .ok t ∧ n ∈ t

namespace Body

/-- A statement of the fragment assigns the net, or its cell drives it. -/
def Assigns (b : Body) (n : Net) : Prop :=
  (∃ s ∈ b.statements, ∃ t, s.targets = .ok t ∧ n ∈ t) ∨ ∃ i, b.cell = some i ∧ ∃ p ∈ i.ports, p.Targets .output n

/-- The fragment reads the net: a cell through its inputs, any other fragment by its statements, or as the clock or
reset of a domain it drives something in. -/
def Uses (b : Body) (n : Net) : Prop :=
  match b.cell with
  | some i => ∃ p ∈ i.ports, p.dir = .input ∧ n ∈ p.value.reads
  | none => (∃ s ∈ b.statements, n ∈ s.reads) ∨ ∃ cd ∈ b.drivenDomains, ∃ m ∈ cd.signals, m.key = n.key

/-- Cells carry no statements. -/
def Sealed (b : Body) : Prop := b.cell.isSome → b.statements = []

end Body

namespace Usage

variable {u' : Usage}

theorem addBindings_spec {ps : List Binding} (h : u.addBindings σ ps = .ok u') (n : Net) :
    (n ∈ u'.driven ↔ n ∈ u.driven ∨ ∃ p ∈ ps, p.Targets .output n) ∧
    (n ∈ u'.used ↔ n ∈ u.used ∨ ∃ p ∈ ps, p.dir = .input ∧ n ∈ p.value.reads) ∧
    (n ∈ u'.both ↔ n ∈ u.both ∨ ∃ p ∈ ps, p.Targets .inout n) := by
  induction ps generalizing u with
  | nil =>
    rw [addBindings, Except.ok.injEq] at h
    simp [h]
  | cons p ps ih =>
    have hother {d : Direction} (hdir : p.dir ≠ d) : ¬ p.Targets d n := fun ht => hdir ht.1
    have htargets {d : Direction} {t : NetSet} (hdir : p.dir = d) (ht : p.value.assigned σ = .ok t) :
        p.Targets d n ↔ n ∈ t := by
      rw [Value.assigned_eq_ok] at ht
      simp [Binding.Targets, hdir, ht]
    rw [addBindings] at h
    simp only [List.mem_cons, exists_eq_or_imp]
    cases hdir : p.dir with
    | input =>
      rw [hdir] at h
      obtain ⟨hd, hu, hb⟩ := ih h
      rw [hd, hu, hb, NetSet.mem_union]
      simp [hother (d := .output), hother (d := .inout), hdir, or_assoc]
    | output | inout =>
      rw [hdir] at h
      obtain ⟨t, ht, h⟩ := except_bind_eq_ok.mp h
      obtain ⟨hd, hu, hb⟩ := ih h
      rw [hd, hu, hb, NetSet.mem_union, htargets hdir ht]
      simp [hother, hdir, or_assoc]

theorem addStatements_spec {ss : List Statement} (h : u.addStatements σ ss = .ok u') (n : Net) :
    (n ∈ u'.driven ↔ n ∈ u.driven ∨ ∃ s ∈ ss, ∃ t, s.targets = .ok t ∧ n ∈ t) ∧
    (n ∈ u'.used ↔ n ∈ u.used ∨ ∃ s ∈ ss, n ∈ s.reads) := by
  induction ss generalizing u with
  | nil =>
    rw [addStatements, Except.ok.injEq] at h
    simp [h]
  | cons s ss ih =>
    rw [addStatements] at h
    obtain ⟨t, ht, h⟩ := except_bind_eq_ok.mp h
    rw [Statement.assigned_eq_ok] at ht
    obtain ⟨hd, hu⟩ := ih h
    rw [hd, hu, NetSet.mem_union, NetSet.mem_union]
    simp [ht, or_assoc]

end Usage

namespace Body

/-- Where cells carry no statements, the computed usage is what the fragment assigns and reads. -/
theorem usage_spec {b : Body} (hb : b.Sealed) (h : b.usage σ = .ok u) (n : Net) :
    (n ∈ u.driven ↔ b.Assigns n) ∧ (n ∈ u.used ↔ b.Uses n) := by
  unfold usage at h
  unfold Assigns Uses
  cases hc : b.cell with
  | some =>
    rw [hc] at h
    have hs : b.statements = [] := hb (by rw [hc]; rfl)
    obtain ⟨hd, hu, -⟩ := Usage.addBindings_spec h n
    rw [hd, hu]
    simp [Usage.empty, hs]
  | none =>
    rw [hc] at h
    obtain ⟨v, hv, h⟩ := except_bind_eq_ok.mp h
    rw [except_pure_eq_ok] at h
    subst h
    obtain ⟨hd, hu⟩ := Usage.addStatements_spec hv n
    refine ⟨?_, ?_⟩
    · change n ∈ v.driven ↔ _
      rw [hd]
      simp [Usage.empty]
    · rw [NetSet.mem_insertAll, hu]
      simp only [Usage.empty, NetSet.not_mem_empty, false_or, List.mem_flatMap]
      apply or_congr Iff.rfl
      constructor
      · rintro ⟨m, ⟨cd, hcd, hm⟩, hk⟩
        exact ⟨cd, hcd, m, hm, hk⟩
      · rintro ⟨cd, hcd, m, hm, hk⟩
        exact ⟨m, ⟨cd, hcd, hm⟩, hk⟩

end Body
end Rtl
