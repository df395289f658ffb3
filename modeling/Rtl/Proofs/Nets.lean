import Mathlib
import Rtl.Net

/-!
# Sets and tables of nets through their keys

A set of nets is known by the keys it holds and a table by what it gives for a key. The order of insertion, and the
flag a reset reference was first inserted with, are not part of this view.
-/
namespace Rtl

open List

namespace NetSet

variable {s t : NetSet} {m n : Net} {ns : List Net}

/-- Membership is by key: a net belongs to a set that holds a net with its key. -/
instance : Membership Net NetSet := ⟨fun s n => s.contains n = true⟩

instance (s : NetSet) (n : Net) : Decidable (n ∈ s) := inferInstanceAs (Decidable (s.contains n = true))

theorem contains_iff : s.contains n = true ↔ n ∈ s := Iff.rfl

theorem mem_iff : n ∈ s ↔ ∃ m ∈ s.items, m.key = n.key := by
  rw [← contains_iff]
  simp [contains]

theorem mem_congr (h : n.key = m.key) : n ∈ s ↔ m ∈ s := by
  rw [mem_iff, mem_iff, h]

@[simp] theorem not_mem_empty (n : Net) : n ∉ empty := by simp [mem_iff, empty]

@[simp] theorem mem_mk_singleton : m ∈ (⟨[n]⟩ : NetSet) ↔ n.key = m.key := by simp [mem_iff]

@[simp] theorem mem_insert : m ∈ s.insert n ↔ m ∈ s ∨ n.key = m.key := by
  unfold insert
  split
  · rename_i h
    constructor
    · exact Or.inl
    · rintro (h' | h')
      · exact h'
      · exact (mem_congr h').mp h
  · simp only [mem_iff, mem_append, mem_singleton]
    constructor
    · rintro ⟨k, hk | rfl, he⟩
      · exact Or.inl ⟨k, hk, he⟩
      · exact Or.inr he
    · rintro (⟨k, hk, he⟩ | he)
      · exact ⟨k, Or.inl hk, he⟩
      · exact ⟨n, Or.inr rfl, he⟩

@[simp] theorem mem_insertAll : m ∈ s.insertAll ns ↔ m ∈ s ∨ ∃ n ∈ ns, n.key = m.key := by
  induction ns generalizing s with
  | nil => simp [insertAll]
  | cons n ns ih =>
    have hstep : s.insertAll (n :: ns) = (s.insert n).insertAll ns := rfl
    rw [hstep, ih, mem_insert]
    simp only [mem_cons, exists_eq_or_imp, or_assoc]

@[simp] theorem mem_ofList : m ∈ ofList ns ↔ ∃ n ∈ ns, n.key = m.key := by
  simp [ofList]

theorem insert_of_mem (h : n ∈ s) : s.insert n = s := if_pos h

theorem insert_of_not_mem (h : n ∉ s) : s.insert n = ⟨s.items ++ [n]⟩ := if_neg h

theorem insertAll_append (s : NetSet) (ns ms : List Net) : s.insertAll (ns ++ ms) = (s.insertAll ns).insertAll ms :=
  foldl_append

/-- Inserting the members of a set that was made of a list is inserting the list. -/
theorem insertAll_ofList (s : NetSet) (ns : List Net) : s.insertAll (ofList ns).items = s.insertAll ns := by
  induction ns using List.reverseRecOn with
  | nil => rfl
  | append_singleton ns n ih =>
    have hlist : ofList (ns ++ [n]) = (ofList ns).insert n := insertAll_append _ ns [n]
    have hall : s.insertAll (ns ++ [n]) = (s.insertAll ns).insert n := insertAll_append _ ns [n]
    rw [hlist, hall, ← ih]
    by_cases hn : n ∈ ofList ns
    · have hthere : n ∈ s.insertAll (ofList ns).items := mem_insertAll.mpr (.inr (mem_iff.mp hn))
      rw [insert_of_mem hn, insert_of_mem hthere]
    · rw [insert_of_not_mem hn]
      exact insertAll_append _ (ofList ns).items [n]

@[simp] theorem mem_union : n ∈ s.union t ↔ n ∈ s ∨ n ∈ t := by
  rw [union, mem_insertAll, ← mem_iff]

@[simp] theorem mem_difference : n ∈ s.difference t ↔ n ∈ s ∧ n ∉ t := by
  rw [mem_iff]
  simp only [difference, mem_filter, Bool.not_eq_true']
  constructor
  · rintro ⟨m, ⟨hm, ht⟩, hk⟩
    refine ⟨mem_iff.mpr ⟨m, hm, hk⟩, fun hn => ?_⟩
    rw [← mem_congr hk, ← contains_iff, ht] at hn
    exact Bool.false_ne_true hn
  · rintro ⟨hs, ht⟩
    obtain ⟨m, hm, hk⟩ := mem_iff.mp hs
    refine ⟨m, ⟨hm, ?_⟩, hk⟩
    rw [← Bool.not_eq_true, contains_iff, mem_congr hk]
    exact ht

@[simp] theorem mem_intersection : n ∈ s.intersection t ↔ n ∈ s ∧ n ∈ t := by
  rw [mem_iff]
  simp only [intersection, mem_filter, contains_iff]
  constructor
  · rintro ⟨m, ⟨hm, ht⟩, hk⟩
    exact ⟨mem_iff.mpr ⟨m, hm, hk⟩, (mem_congr hk).mp ht⟩
  · rintro ⟨hs, ht⟩
    obtain ⟨m, hm, hk⟩ := mem_iff.mp hs
    exact ⟨m, ⟨hm, (mem_congr hk).mpr ht⟩, hk⟩

theorem mem_signals {id : SignalId} : id ∈ s.signals ↔ Net.signal id ∈ s := by
  rw [signals, mem_filterMap, mem_iff]
  refine exists_congr fun n => and_congr_right fun _ => ?_
  cases n <;> simp [Net.signal?, Net.key]

end NetSet

namespace NetTable

variable {α : Type}
variable {t : NetTable α}

/-- No key is listed twice. Tables that grow by `set` keep this. -/
def Distinct (t : NetTable α) : Prop := (t.entries.map fun e => e.1.key).Nodup

theorem distinct_empty : (empty : NetTable α).Distinct := by simp [Distinct, empty]

@[simp] theorem get?_empty (n : Net) : (empty : NetTable α).get? n = none := rfl

theorem contains_iff {n : Net} : t.contains n = true ↔ ∃ a, t.get? n = some a := by
  rw [contains, Option.isSome_iff_exists]

theorem keys_setEntry (n : Net) (a : α) (es : List (Net × α)) :
    (setEntry n a es).map (fun e => e.1.key) =
      if n.key ∈ es.map (fun e => e.1.key) then es.map (fun e => e.1.key)
      else es.map (fun e => e.1.key) ++ [n.key] := by
  induction es with
  | nil => simp [setEntry]
  | cons e es ih =>
    by_cases he : e.1.key = n.key
    · simp [setEntry, he]
    · have hne : n.key ≠ e.1.key := fun h => he h.symm
      rw [setEntry, if_neg he, map_cons, ih, map_cons]
      by_cases hm : n.key ∈ es.map (fun e => e.1.key)
      · simp [hm]
      · simp [hm, hne]

theorem Distinct.set (h : t.Distinct) (n : Net) (a : α) : (t.set n a).Distinct := by
  unfold Distinct NetTable.set at *
  rw [keys_setEntry]
  split
  · exact h
  · rename_i hn
    rw [nodup_append]
    refine ⟨h, by simp, ?_⟩
    intro k hk k' hk' he
    rw [mem_singleton] at hk'
    exact hn (hk' ▸ he ▸ hk)

/-- In a table without repeated keys the entries and the look-ups agree. -/
theorem Distinct.get?_eq_some_iff (h : t.Distinct) {n : Net} {a : α} :
    t.get? n = some a ↔ ∃ e ∈ t.entries, e.1.key = n.key ∧ e.2 = a := by
  obtain ⟨es⟩ := t
  unfold Distinct at h
  unfold get?
  induction es with
  | nil => simp
  | cons e es ih =>
    rw [map_cons, nodup_cons] at h
    by_cases he : e.1.key = n.key
    · have hno : ∀ e' ∈ es, e'.1.key ≠ n.key := fun e' he' hk =>
        h.1 (mem_map.mpr ⟨e', he', hk.trans he.symm⟩)
      constructor
      · intro hs
        simp only [find?_cons, he, decide_true, Option.map_some, Option.some.injEq] at hs
        exact ⟨e, by simp, he, hs⟩
      · rintro ⟨e', he', hk, ha⟩
        rcases mem_cons.mp he' with rfl | hmem
        · simp [he, ha]
        · exact absurd hk (hno e' hmem)
    · have hih := ih h.2
      simp only [find?_cons, he, decide_false] at hih ⊢
      rw [hih]
      simp [he]

end NetTable
end Rtl
