import Mathlib
import Rtl.Proofs.Leaves
import Rtl.Proofs.Nets

/-!
# What an assignment reads

An assignment reads its right side and whatever says which bits of its left side are meant: the offset of every part
and the index of every element selected at run time, at any depth. Recorded as read are the nets of the right side and
of the outermost selection. So nothing is recorded that is not read, and nothing is missed exactly when the selections
further in read nothing else.
-/
namespace Rtl

variable {n : Net}

namespace Value

variable {vs : List Value} {t : NetSet}

mutual

/-- The offsets and indices that say which bits of a left side are meant, outermost first. -/
def selectors : Value → List Value
  | .slice v _ _ => selectors v
  | .part v offset _ _ => offset :: selectors v
  | .cat parts => selectorsAll parts
  | .proxy elems index => index :: selectorsAll elems
  | _ => []

def selectorsAll : List Value → List Value
  | [] => []
  | v :: vs => selectors v ++ selectorsAll vs

end

/-- The offset or index of a value that is itself a selection. -/
def selector? : Value → Option Value
  | .part _ offset _ _ => some offset
  | .proxy _ index => some index
  | _ => none

/-- The offsets and indices below the outermost selection. -/
def innerSelectors : Value → List Value
  | .part v _ _ _ => selectors v
  | .proxy elems _ => selectorsAll elems
  | v => selectors v

theorem selectors_eq (v : Value) : v.selectors = v.selector?.toList ++ v.innerSelectors := by
  cases v <;> simp [selectors, selector?, innerSelectors]

theorem mem_selectorsAll {u : Value} : u ∈ selectorsAll vs ↔ ∃ v ∈ vs, u ∈ v.selectors := by
  induction vs with
  | nil => simp [selectorsAll]
  | cons v vs ih => simp [selectorsAll, ih]

theorem mem_targetsAll {acc : NetSet} (h : targetsAll acc vs = .ok t) :
    (∀ v ∈ vs, ∃ s, v.targets = .ok s) ∧
      ∀ n, n ∈ t ↔ n ∈ acc ∨ ∃ v ∈ vs, ∃ s, v.targets = .ok s ∧ n ∈ s := by
  induction vs generalizing acc with
  | nil =>
    rw [targetsAll, Except.ok.injEq] at h
    subst h
    exact ⟨by simp, by simp⟩
  | cons v vs ih =>
    rw [targetsAll] at h
    cases hv : v.targets with
    | error =>
      rw [hv] at h
      cases h
    | ok s =>
      rw [hv] at h
      obtain ⟨hall, hmem⟩ := ih h
      refine ⟨List.forall_mem_cons.mpr ⟨⟨s, hv⟩, hall⟩, fun n => ?_⟩
      rw [hmem, NetSet.mem_union]
      simp only [List.mem_cons, exists_eq_or_imp, hv, Except.ok.injEq, exists_eq_left', or_assoc]

/-- The net says which bits of the left side are meant. -/
def Selecting (v : Value) (n : Net) : Prop := ∃ u ∈ v.selectors, n ∈ u.reads

theorem selecting_list : (∃ u ∈ selectorsAll vs, n ∈ u.reads) ↔ ∃ v ∈ vs, v.Selecting n := by
  unfold Selecting
  constructor
  · rintro ⟨u, hu, hn⟩
    obtain ⟨v, hv, hu⟩ := mem_selectorsAll.mp hu
    exact ⟨v, hv, u, hu, hn⟩
  · rintro ⟨v, hv, u, hu, hn⟩
    exact ⟨u, mem_selectorsAll.mpr ⟨v, hv, hu⟩, hn⟩

/-- Parts of a left side, once each of them is known to mention only its targets and what selects among them. -/
theorem reads_list_iff (ih : ∀ v ∈ vs, ∀ {s}, v.targets = .ok s → (n ∈ v.reads ↔ n ∈ s ∨ v.Selecting n))
    (h : targetsAll .empty vs = .ok t) : (∃ v ∈ vs, n ∈ v.reads) ↔ n ∈ t ∨ ∃ v ∈ vs, v.Selecting n := by
  obtain ⟨hall, hmem⟩ := mem_targetsAll h
  rw [hmem]
  constructor
  · rintro ⟨v, hv, hn⟩
    obtain ⟨s, hs⟩ := hall v hv
    rcases (ih v hv hs).mp hn with hn | hn
    · exact Or.inl (Or.inr ⟨v, hv, s, hs, hn⟩)
    · exact Or.inr ⟨v, hv, hn⟩
  · rintro ((hn | ⟨v, hv, s, hs, hn⟩) | ⟨v, hv, hn⟩)
    · exact absurd hn (NetSet.not_mem_empty n)
    · exact ⟨v, hv, (ih v hv hs).mpr (Or.inl hn)⟩
    · obtain ⟨s, hs⟩ := hall v hv
      exact ⟨v, hv, (ih v hv hs).mpr (Or.inr hn)⟩

/-- A left side mentions the nets that it writes and those that say which of their bits are meant, and no others. -/
theorem mem_reads_of_targets {v : Value} (h : v.targets = .ok t) (n : Net) : n ∈ v.reads ↔ n ∈ t ∨ v.Selecting n := by
  induction v generalizing t with
  | net =>
    cases h
    simp [reads, Selecting, selectors]
  | slice v i j ih => exact ih h
  | part v offset width stride ih _ =>
    rw [reads, NetSet.mem_union, ih h]
    simp only [Selecting, selectors, List.mem_cons, exists_eq_or_imp, or_assoc]
    rw [or_comm (a := n ∈ offset.reads)]
  | cat parts ih =>
    have hlist := reads_list_iff ih h
    rw [reads, mem_readsAll, Selecting, selectors, selecting_list, ← hlist]
    simp
  | proxy elems index ih _ =>
    have hlist := reads_list_iff ih h
    rw [reads, mem_readsAll, Selecting, selectors]
    simp only [List.mem_cons, exists_eq_or_imp]
    rw [selecting_list, hlist]
    tauto
  | _ => cases h

end Value

namespace Statement

variable {lhs rhs : Value}

/-- The value of the net matters to the assignment: it is read by the right side, or says which bits of the left side
are meant. -/
def AssignmentReads (lhs rhs : Value) (n : Net) : Prop := n ∈ rhs.reads ∨ lhs.Selecting n

/-- Recorded are the nets of the right side and of the outermost selection. -/
theorem mem_reads_assign : n ∈ (Statement.assign lhs rhs).reads ↔ n ∈ rhs.reads ∨ ∃ u ∈ lhs.selector?, n ∈ u.reads := by
  rw [reads]
  cases lhs <;> simp [assignReads, Value.selector?]

theorem assignmentReads_iff :
    AssignmentReads lhs rhs n ↔
      n ∈ (Statement.assign lhs rhs).reads ∨ ∃ u ∈ lhs.innerSelectors, n ∈ u.reads := by
  rw [mem_reads_assign, AssignmentReads, Value.Selecting, Value.selectors_eq]
  simp only [List.mem_append, Option.mem_toList, Option.mem_def, or_and_right, exists_or, or_assoc]

/-- For every left side that can be assigned to: it mentions its targets and what selects among them, and nothing else;
whatever is recorded as read is read; and all that is read is recorded exactly when the selections below the outermost
one read only what the right side or the outermost selection reads anyway. -/
theorem assign_reads_complete_iff {lhs : Value} (rhs : Value) {t : NetSet} (h : lhs.targets = .ok t) :
    (∀ n, n ∈ lhs.reads ↔ n ∈ t ∨ lhs.Selecting n) ∧
    (∀ n ∈ (Statement.assign lhs rhs).reads, AssignmentReads lhs rhs n) ∧
    ((∀ n, AssignmentReads lhs rhs n → n ∈ (Statement.assign lhs rhs).reads) ↔
      ∀ u ∈ lhs.innerSelectors, ∀ n ∈ u.reads, n ∈ rhs.reads ∨ ∃ o ∈ lhs.selector?, n ∈ o.reads) := by
  refine ⟨Value.mem_reads_of_targets h, fun n hn => assignmentReads_iff.mpr (Or.inl hn), ?_⟩
  constructor
  · intro hcomplete u hu n hn
    exact mem_reads_assign.mp (hcomplete n (assignmentReads_iff.mpr (Or.inr ⟨u, hu, hn⟩)))
  · intro hinner n hn
    rcases assignmentReads_iff.mp hn with hn | ⟨u, hu, hn⟩
    · exact hn
    · exact mem_reads_assign.mpr (hinner u hu n hn)

/-- A part, at an offset, of an element that an index selects: the index is recorded since the right side reads it. -/
theorem assign_reads_indexed :
    let lhs : Value := .part (.proxy [.signal ⟨0, 1⟩, .signal ⟨0, 2⟩] (.signal ⟨0, 3⟩)) (.signal ⟨0, 4⟩) 4 1
    let rhs : Value := .signal ⟨0, 3⟩
    lhs.targets = .ok ⟨[.signal ⟨0, 1⟩, .signal ⟨0, 2⟩]⟩ ∧
      ∀ n, AssignmentReads lhs rhs n → n ∈ (Statement.assign lhs rhs).reads := by
  intro lhs rhs
  have htargets : lhs.targets = .ok ⟨[.signal ⟨0, 1⟩, .signal ⟨0, 2⟩]⟩ := rfl
  refine ⟨htargets, (assign_reads_complete_iff rhs htargets).2.2.mpr ?_⟩
  intro u hu n hn
  obtain rfl := List.mem_singleton.mp hu
  exact Or.inl hn

/-- The offset of a part is missed when a slice stands around the part. -/
theorem not_forall_mkAssign_reads : ¬ ∀ (σ : Arenas) (l r : Operand) (lhs rhs : Value),
    mkAssign σ l r = .ok (.assign lhs rhs) →
    ∀ n, AssignmentReads lhs rhs n → n ∈ (Statement.assign lhs rhs).reads := by
  intro h
  have hoffset := h ⟨#[]⟩ (.value (.slice (.part (.signal ⟨0, 1⟩) (.signal ⟨0, 2⟩) 4 1) 0 2))
    (.value (.signal ⟨0, 3⟩)) _ _ rfl (.signal ⟨0, 2⟩) (Or.inr ⟨_, List.mem_singleton.mpr rfl, by decide⟩)
  exact absurd hoffset (by decide)

end Statement
end Rtl
