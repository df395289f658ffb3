import Mathlib
import Rtl.IndexedNets
import Rtl.Proofs.Nets

/-!
# Indexed containers

Every run of operations leaves the index of a set or table exact: it gives each key that is held at its own place and
knows no other. So a container with an index answers as the plain one that went through the same operations, holds the
same nets in the same order, and builds the same unions, differences, intersections and copies.
-/
namespace Rtl

open List NetSet

/-- Taking out the place of a key that is listed once takes out what has that key. -/
theorem eraseIdx_eq_filter {β : Type} {f : β → NetKey} {l : List β} {p : Nat} {k : NetKey}
    (hd : (l.map f).Nodup) (hp : (l.map f)[p]? = some k) : l.eraseIdx p = l.filter fun b => f b ≠ k := by
  induction l generalizing p with
  | nil => simp at hp
  | cons b l ih =>
    obtain ⟨hb, hd⟩ := nodup_cons.mp hd
    cases p with
    | zero =>
      obtain rfl : f b = k := by simpa using hp
      have hrest : ∀ c ∈ l, f c ≠ f b := fun c hc he => hb (he ▸ mem_map_of_mem hc)
      simpa using (filter_eq_self.mpr fun c hc => decide_eq_true (hrest c hc)).symm
    | succ p =>
      have hp : (l.map f)[p]? = some k := hp
      have hne : f b ≠ k := fun he => hb (he ▸ mem_of_getElem? hp)
      rw [eraseIdx_cons_succ, ih hd hp, filter_cons, if_pos (decide_eq_true hne)]

namespace NetIndex

variable {x : NetIndex} {ns : List Net} {n : Net} {k : NetKey} {p : Nat}
variable {i : Nat}

/-- The index gives each key of the list at exactly its place and knows no other key. -/
def Exact (x : NetIndex) (ns : List Net) : Prop := ∀ k i, x.find k = some i ↔ (ns.map Net.key)[i]? = some k

theorem exact_empty : empty.Exact [] := by simp [Exact, empty]

@[simp] theorem find_note (k' : NetKey) : (x.note k p).find k' = if k' = k then some p else x.find k' := rfl

theorem find_forget_eq_some_iff {k' : NetKey} : (x.forget k).find k' = some i ↔ k' ≠ k ∧ x.find k' = some i := by
  by_cases h : k' = k
  · simp [forget, h]
  · simp [forget, h]

theorem Exact.nodup (h : x.Exact ns) : (ns.map Net.key).Nodup := by
  rw [nodup_iff_injective_getElem]
  intro i j hij
  have hi := (h _ i).mpr (getElem?_eq_getElem i.isLt)
  have hj := (h _ j).mpr (getElem?_eq_getElem j.isLt)
  dsimp only at hij
  rw [hij, hj] at hi
  exact Fin.ext (Option.some.inj hi).symm

theorem Exact.isSome_iff (h : x.Exact ns) : (x.find k).isSome ↔ k ∈ ns.map Net.key := by
  rw [Option.isSome_iff_exists, mem_iff_getElem?]
  exact exists_congr fun i => h k i

theorem Exact.ncard (h : x.Exact ns) : { k | (x.find k).isSome }.ncard = ns.length := by
  have hset : { k | (x.find k).isSome } = ↑(ns.map Net.key).toFinset := by
    ext k
    rw [Set.mem_ofPred_eq, h.isSome_iff, Finset.mem_coe, mem_toFinset]
  rw [hset, Set.ncard_coe_finset, toFinset_card_of_nodup h.nodup, length_map]

theorem Exact.note (h : x.Exact ns) (hn : x.find n.key = none) : (x.note n.key ns.length).Exact (ns ++ [n]) := by
  intro k i
  rw [map_append, getElem?_append, length_map, find_note]
  by_cases hi : i < ns.length
  · rw [if_pos hi, ← h k i]
    by_cases hk : k = n.key
    · simp [hk, hn, hi.ne']
    · rw [if_neg hk]
  · have hout : x.find k ≠ some i := by
      rw [Ne, h k i, getElem?_eq_none (by simpa using hi)]
      exact Option.some_ne_none k ∘ Eq.symm
    rw [if_neg hi, map_singleton, getElem?_singleton]
    by_cases hk : k = n.key
    · rw [if_pos hk, hk, Option.some.injEq]
      split
      · exact iff_of_true (by omega) rfl
      · exact iff_of_false (by omega) (Option.some_ne_none _ ∘ Eq.symm)
    · simp [hk, hout, Ne.symm hk]

/-- Renumbering gives the keys of the list their new places and leaves every other key where it was. -/
theorem find_noteFrom_eq_some_iff (hd : (ns.map Net.key).Nodup) :
    (x.noteFrom p ns).find k = some i ↔
      (p ≤ i ∧ (ns.map Net.key)[i - p]? = some k) ∨ (k ∉ ns.map Net.key ∧ x.find k = some i) := by
  induction ns generalizing x p with
  | nil => simp [noteFrom]
  | cons n ns ih =>
    obtain ⟨hn, hd⟩ := nodup_cons.mp hd
    rw [noteFrom, ih hd, map_cons, mem_cons, find_note]
    have hlater : p < i → (n.key :: ns.map Net.key)[i - p]? = (ns.map Net.key)[i - (p + 1)]? := fun hi => by
      rw [show i - p = i - (p + 1) + 1 by omega, getElem?_cons_succ]
    by_cases hk : k = n.key
    · subst hk
      have habsent : ∀ j, (ns.map Net.key)[j]? ≠ some n.key := fun j h => hn (mem_of_getElem? h)
      simp only [habsent, hn, and_false, false_or, not_false_eq_true, true_and, if_true, not_true_eq_false, false_and,
        or_false, Option.some.injEq]
      rcases lt_trichotomy i p with hi | rfl | hi
      · omega
      · simp
      · exact iff_of_false hi.ne fun h => habsent _ (hlater hi ▸ h.2)
    · simp only [hk, false_or, if_false]
      refine or_congr ?_ Iff.rfl
      rcases lt_trichotomy i p with hi | rfl | hi
      · omega
      · simp [Ne.symm hk]
      · rw [hlater hi]
        exact and_congr_left fun _ => by omega

theorem Exact.remove (h : x.Exact ns) (hp : x.find k = some p) :
    (x.remove k p (ns.eraseIdx p)).Exact (ns.eraseIdx p) := by
  have hmap : (ns.eraseIdx p).map Net.key = (ns.map Net.key).eraseIdx p := by simp [eraseIdx_map]
  have hdrop : ((ns.eraseIdx p).drop p).map Net.key = (ns.map Net.key).drop (p + 1) := by
    apply ext_getElem?
    intro j
    rw [map_drop, hmap, getElem?_drop, getElem?_drop, getElem?_eraseIdx, if_neg (by omega),
      Nat.add_right_comm]
  intro k' i
  have hbehind : k' ∈ (ns.map Net.key).drop (p + 1) ↔ ∃ j, p < j ∧ x.find k' = some j := by
    simp only [mem_iff_getElem?, getElem?_drop, ← h k']
    constructor
    · rintro ⟨j, hj⟩
      exact ⟨p + 1 + j, by omega, hj⟩
    · rintro ⟨j, hpj, hj⟩
      exact ⟨j - (p + 1), by rwa [Nat.add_sub_cancel' hpj]⟩
  have hsame : x.find k' = some p → k' = k := fun hk' => by
    rw [h k', (h k p).mp hp] at hk'
    exact (Option.some.inj hk').symm
  rw [NetIndex.remove, find_noteFrom_eq_some_iff (hdrop ▸ h.nodup.sublist (drop_sublist ..)), hdrop, hbehind,
    getElem?_drop, hmap, getElem?_eraseIdx, ← h k', find_forget_eq_some_iff]
  -- the places before the key stay, those behind it move up by one
  by_cases hi : i < p
  · rw [if_pos hi, ← h k']
    constructor
    · rintro (⟨hpi, -⟩ | ⟨-, -, hx⟩)
      · omega
      · exact hx
    · refine fun hx => .inr ⟨?_, ?_, hx⟩
      · rintro ⟨j, hpj, hj⟩
        rw [hx, Option.some.injEq] at hj
        omega
      · rintro rfl
        rw [hp, Option.some.injEq] at hx
        omega
  · have hnext : p + 1 + (i - p) = i + 1 := by omega
    rw [if_neg hi, hnext, ← h k']
    constructor
    · rintro (⟨-, hx⟩ | ⟨hbehind, hne, hx⟩)
      · exact hx
      · have hip : i ≠ p := fun he => hne (hsame (he ▸ hx))
        exact absurd ⟨i, by omega, hx⟩ hbehind
    · exact fun hx => .inl ⟨by omega, hx⟩

end NetIndex

/-- Inserting nets with keys of their own appends those that are new, in their order. -/
theorem items_insertAll {s : NetSet} {ns : List Net} (hd : (ns.map Net.key).Nodup) :
    (s.insertAll ns).items = s.items ++ ns.filter fun n => !s.contains n := by
  induction ns generalizing s with
  | nil => simp [insertAll]
  | cons n ns ih =>
    obtain ⟨hn, hd⟩ := nodup_cons.mp hd
    have hother : ∀ m ∈ ns, (s.insert n).contains m = s.contains m := fun m hm => by
      have hne : n.key ≠ m.key := fun he => hn (he ▸ mem_map_of_mem hm)
      rw [Bool.eq_iff_iff, contains_iff, mem_insert, or_iff_left hne, contains_iff]
    have hstep : s.insertAll (n :: ns) = (s.insert n).insertAll ns := rfl
    rw [hstep, ih hd, filter_congr fun m hm => congrArg not (hother m hm), filter_cons]
    by_cases h : n ∈ s
    · simp [insert_of_mem h, contains_iff.mpr h]
    · simp [insert_of_not_mem h, Bool.eq_false_iff.mpr h]

namespace IndexedSet

variable {s o : IndexedSet} {c d : NetSet}

def Consistent (s : IndexedSet) : Prop := s.index.Exact s.items

theorem Consistent.contains_eq (h : s.Consistent) (n : Net) : s.contains n = s.plain.contains n := by
  rw [Bool.eq_iff_iff, contains, h.isSome_iff, contains_iff, mem_iff, mem_map]
  rfl

theorem Consistent.add (h : s.Consistent) (n : Net) :
    (s.add n).1.Consistent ∧ (s.add n).1.plain = s.plain.insert n ∧ (s.add n).2 = !s.contains n := by
  have hin : n ∈ s.plain ↔ (s.index.find n.key).isSome := by rw [← contains_iff, ← h.contains_eq n, contains]
  rw [IndexedSet.add, contains]
  cases hn : s.index.find n.key with
  | some =>
    have hmem : n ∈ s.plain := by simp [hin, hn]
    exact ⟨h, (insert_of_mem hmem).symm, rfl⟩
  | none =>
    have hnew : n ∉ s.plain := by simp [hin, hn]
    exact ⟨NetIndex.Exact.note h hn, (insert_of_not_mem hnew).symm, rfl⟩

theorem Consistent.addAll (h : s.Consistent) (ns : List Net) :
    (s.addAll ns).Consistent ∧ (s.addAll ns).plain = s.plain.insertAll ns := by
  induction ns generalizing s with
  | nil => exact ⟨h, rfl⟩
  | cons n ns ih =>
    obtain ⟨hadd, hplain, -⟩ := h.add n
    obtain ⟨hall, heq⟩ := ih hadd
    exact ⟨hall, heq.trans (by rw [hplain]; rfl)⟩

theorem Consistent.remove (h : s.Consistent) (n : Net) :
    (s.remove n).1.Consistent ∧ (s.remove n).1.plain = s.plain.erase n ∧ (s.remove n).2 = s.contains n := by
  rw [IndexedSet.remove, contains]
  cases hn : s.index.find n.key with
  | none =>
    have hall : ∀ m ∈ s.items, m.key ≠ n.key := fun m hm he => by
      have hsome := h.isSome_iff.mpr (mem_map_of_mem hm)
      rw [he, hn] at hsome
      cases hsome
    refine ⟨h, ?_, rfl⟩
    exact congrArg NetSet.mk (filter_eq_self.mpr fun m hm => decide_eq_true (hall m hm)).symm
  | some =>
    have hitems := eraseIdx_eq_filter h.nodup ((h _ _).mp hn)
    exact ⟨NetIndex.Exact.remove h hn, congrArg NetSet.mk hitems, rfl⟩

theorem ofList_spec (ns : List Net) : (ofList ns).Consistent ∧ (ofList ns).plain = NetSet.ofList ns :=
  Consistent.addAll (s := .empty) NetIndex.exact_empty ns

theorem items_ofList {ns : List Net} (hd : (ns.map Net.key).Nodup) : (ofList ns).items = ns := by
  have h : (NetSet.ofList ns).items = ns := by
    rw [NetSet.ofList, items_insertAll hd]
    simp [NetSet.empty, NetSet.contains]
  exact (congrArg NetSet.items (ofList_spec ns).2).trans h

/-- The indexed set and the plain one that the same operations make. -/
inductive Mirrors : IndexedSet → NetSet → Prop where
  | empty : Mirrors .empty .empty
  | add {s : IndexedSet} {c : NetSet} (h : Mirrors s c) (n : Net) : Mirrors (s.add n).1 (c.insert n)
  | addAll {s o : IndexedSet} {c d : NetSet} (h : Mirrors s c) (ho : Mirrors o d) :
      Mirrors (s.addAll o.items) (c.union d)
  | remove {s : IndexedSet} {c : NetSet} (h : Mirrors s c) (n : Net) : Mirrors (s.remove n).1 (c.erase n)

theorem Mirrors.consistent (h : Mirrors s c) : s.Consistent ∧ s.plain = c := by
  induction h with
  | empty => exact ⟨NetIndex.exact_empty, rfl⟩
  | add h n ih =>
    obtain ⟨hs, rfl⟩ := ih
    exact ⟨(hs.add n).1, (hs.add n).2.1⟩
  | addAll h ho ih iho =>
    obtain ⟨hs, rfl⟩ := ih
    obtain ⟨-, rfl⟩ := iho
    exact hs.addAll _
  | remove h n ih =>
    obtain ⟨hs, rfl⟩ := ih
    exact ⟨(hs.remove n).1, (hs.remove n).2.1⟩

end IndexedSet

namespace IndexedTable

variable {α : Type} {t : IndexedTable α} {e : NetTable α}
variable {place : Nat} {n : Net}

structure Consistent (t : IndexedTable α) : Prop where
  index : t.index.Exact t.nets
  length : t.nets.length = t.vals.length

theorem Consistent.keys_plain (h : t.Consistent) : t.plain.entries.map (fun e => e.1.key) = t.nets.map Net.key := by
  have hfst : t.plain.entries.map Prod.fst = t.nets := map_fst_zip h.length.le
  calc t.plain.entries.map (fun e => e.1.key)
    _ = (t.plain.entries.map Prod.fst).map Net.key := by rw [map_map]; rfl
    _ = t.nets.map Net.key := by rw [hfst]

/-- What stands at the place of a key is its entry. -/
theorem Consistent.entry (h : t.Consistent) (hn : t.index.find n.key = some place) :
    ∃ m a, t.plain.entries[place]? = some (m, a) ∧ t.vals[place]? = some a ∧ m.key = n.key := by
  have hkey := (h.index _ _).mp hn
  rw [List.getElem?_map, Option.map_eq_some_iff] at hkey
  obtain ⟨m, hm, hkey⟩ := hkey
  obtain ⟨hlt, -⟩ := List.getElem?_eq_some_iff.mp hm
  have hval := List.getElem?_eq_getElem (h.length ▸ hlt)
  exact ⟨m, _, by rw [plain, List.getElem?_zip_eq_some]; exact ⟨hm, hval⟩, hval, hkey⟩

theorem Consistent.get?_eq (h : t.Consistent) (n : Net) : t.get? n = t.plain.get? n := by
  have hd : t.plain.Distinct := by
    rw [NetTable.Distinct, h.keys_plain]
    exact h.index.nodup
  rw [get?]
  cases hn : t.index.find n.key with
  | none =>
    have hnone : t.plain.get? n = none := by
      rw [Option.eq_none_iff_forall_ne_some]
      intro a ha
      obtain ⟨e, he, hk, -⟩ := hd.get?_eq_some_iff.mp ha
      have hmem : n.key ∈ t.nets.map Net.key := h.keys_plain ▸ hk ▸ mem_map_of_mem he
      rw [← h.index.isSome_iff, hn] at hmem
      cases hmem
    exact hnone.symm
  | some =>
    obtain ⟨m, a, hentry, hval, hkey⟩ := h.entry hn
    exact hval.trans (hd.get?_eq_some_iff.mpr ⟨_, mem_of_getElem? hentry, hkey, rfl⟩).symm

theorem setEntry_of_not_mem (a : α) {es : List (Net × α)} (hn : n.key ∉ es.map fun e => e.1.key) :
    NetTable.setEntry n a es = es ++ [(n, a)] := by
  induction es with
  | nil => rfl
  | cons e es ih =>
    simp only [map_cons, mem_cons, not_or] at hn
    rw [NetTable.setEntry, if_neg (Ne.symm hn.1), ih hn.2, cons_append]

/-- Setting the value of a key that is there sets the value at its place. -/
theorem setEntry_zip (a : α) {ns : List Net} {vs : List α} (hd : (ns.map Net.key).Nodup)
    (hn : (ns.map Net.key)[place]? = some n.key) (hl : ns.length = vs.length) :
    NetTable.setEntry n a (ns.zip vs) = ns.zip (vs.set place a) := by
  induction ns generalizing vs place with
  | nil => simp at hn
  | cons m ns ih =>
    obtain ⟨v, vs, rfl⟩ := exists_cons_of_length_eq_add_one hl.symm
    obtain ⟨hm, hd⟩ := nodup_cons.mp hd
    cases place with
    | zero =>
      have hkey : m.key = n.key := by simpa using hn
      simp [NetTable.setEntry, hkey]
    | succ place =>
      have hn : (ns.map Net.key)[place]? = some n.key := hn
      have hne : m.key ≠ n.key := fun he => hm (he ▸ mem_of_getElem? hn)
      simp [NetTable.setEntry, hne, ih hd hn (Nat.succ.inj hl)]

theorem zip_eraseIdx (ns : List Net) (vs : List α) (place : Nat) :
    (ns.eraseIdx place).zip (vs.eraseIdx place) = (ns.zip vs).eraseIdx place := by
  induction ns generalizing vs place with
  | nil => simp
  | cons m ns ih =>
    cases vs with
    | nil => simp
    | cons =>
      cases place with
      | zero => rfl
      | succ => simp [ih]

theorem Consistent.set (h : t.Consistent) (n : Net) (a : α) :
    (t.set n a).Consistent ∧ (t.set n a).plain = t.plain.set n a := by
  rw [IndexedTable.set]
  cases hn : t.index.find n.key with
  | some =>
    have hentries := setEntry_zip a h.index.nodup ((h.index _ _).mp hn) h.length
    exact ⟨⟨h.index, by simp [h.length]⟩, congrArg NetTable.mk hentries.symm⟩
  | none =>
    have hnew : n.key ∉ t.plain.entries.map fun e => e.1.key := by
      rw [h.keys_plain, ← h.index.isSome_iff, hn]
      exact Bool.false_ne_true
    refine ⟨⟨h.index.note hn, by simp [h.length]⟩, congrArg NetTable.mk ?_⟩
    rw [setEntry_of_not_mem a hnew]
    exact zip_append h.length

theorem Consistent.erase (h : t.Consistent) (n : Net) :
    (t.erase n).Consistent ∧ (t.erase n).plain = t.plain.erase n := by
  rw [IndexedTable.erase]
  cases hn : t.index.find n.key with
  | none =>
    have hall : ∀ e ∈ t.plain.entries, e.1.key ≠ n.key := fun e he hk => by
      have hmem : n.key ∈ t.nets.map Net.key := h.keys_plain ▸ hk ▸ mem_map_of_mem he
      rw [← h.index.isSome_iff, hn] at hmem
      cases hmem
    exact ⟨h, congrArg NetTable.mk (filter_eq_self.mpr fun e he => decide_eq_true (hall e he)).symm⟩
  | some =>
    refine ⟨⟨h.index.remove hn, by simp [length_eraseIdx, h.length]⟩, congrArg NetTable.mk ?_⟩
    have hd := h.index.nodup
    have hkey := (h.index _ _).mp hn
    rw [← h.keys_plain] at hd hkey
    exact (zip_eraseIdx ..).trans (eraseIdx_eq_filter hd hkey)

/-- The indexed table and the plain one that the same operations make. -/
inductive Mirrors : IndexedTable α → NetTable α → Prop where
  | empty : Mirrors .empty .empty
  | set {t : IndexedTable α} {e : NetTable α} (h : Mirrors t e) (n : Net) (a : α) : Mirrors (t.set n a) (e.set n a)
  | erase {t : IndexedTable α} {e : NetTable α} (h : Mirrors t e) (n : Net) : Mirrors (t.erase n) (e.erase n)

theorem Mirrors.consistent (h : Mirrors t e) : t.Consistent ∧ t.plain = e := by
  induction h with
  | empty => exact ⟨⟨NetIndex.exact_empty, rfl⟩, rfl⟩
  | set h n a ih =>
    obtain ⟨ht, rfl⟩ := ih
    exact ht.set n a
  | erase h n ih =>
    obtain ⟨ht, rfl⟩ := ih
    exact ht.erase n

end IndexedTable

variable {α : Type} {s o : IndexedSet} {c d : NetSet} {t : IndexedTable α} {e : NetTable α}

/-- Indexed containers refine plain ones. After any operations the index of a set is exact, its keys are distinct and as
many as its nets, and it holds what the plain set holds, in the same order. A net with a key that is there changes
nothing, a removal keeps the order of the rest, and combined sets list the nets of the left operand in their order, then
in a union the new ones of the right. A table has an exact index, a value for each net, and the entries and answers of
the plain one. -/
theorem indexed_refines (hs : s.Mirrors c) (ho : o.Mirrors d) (ht : t.Mirrors e) :
    (s.index.Exact s.items ∧ (s.items.map Net.key).Nodup ∧ { k | (s.index.find k).isSome }.ncard = s.items.length ∧
      s.items = c.items ∧
      (∀ n, (s.contains n = true ↔ ∃ m ∈ s.items, m.key = n.key) ∧
        (s.add n).1.items = (if s.contains n then s.items else s.items ++ [n]) ∧ (s.add n).2 = !s.contains n ∧
        (s.remove n).1.items = s.items.filter (fun m => m.key ≠ n.key) ∧ (s.remove n).2 = s.contains n) ∧
      (s.union o).items = s.items ++ o.items.filter (fun n => !s.contains n) ∧
      (s.difference o).items = s.items.filter (fun n => !o.contains n) ∧
      (s.intersection o).items = s.items.filter (fun n => o.contains n) ∧
      s.clone.items = s.items ∧
      ∀ r ∈ [s.union o, s.difference o, s.intersection o, s.clone], r.index.Exact r.items) ∧
    t.index.Exact t.nets ∧ (t.nets.map Net.key).Nodup ∧ { k | (t.index.find k).isSome }.ncard = t.nets.length ∧
      t.nets.length = t.vals.length ∧ t.nets.zip t.vals = e.entries ∧ ∀ n, t.get? n = e.get? n := by
  obtain ⟨hsi, rfl⟩ := hs.consistent
  obtain ⟨hoi, rfl⟩ := ho.consistent
  obtain ⟨hti, rfl⟩ := ht.consistent
  have hclone : s.clone.items = s.items := IndexedSet.items_ofList hsi.nodup
  have hsub : ∀ p : Net → Bool, ((s.items.filter p).map Net.key).Nodup := fun p =>
    hsi.nodup.sublist (filter_sublist.map Net.key)
  obtain ⟨hunion, hplain⟩ := (IndexedSet.ofList_spec s.items).1.addAll o.items
  refine ⟨⟨hsi, hsi.nodup, hsi.ncard, rfl, fun n => ⟨?_, ?_, (hsi.add n).2.2, ?_, (hsi.remove n).2.2⟩, ?_,
    IndexedSet.items_ofList (hsub _), IndexedSet.items_ofList (hsub _), hclone, ?_⟩,
    hti.index, hti.index.nodup, hti.index.ncard, hti.length, rfl, hti.get?_eq⟩
  · rw [hsi.contains_eq, contains_iff, mem_iff]
    rfl
  · have hadd := congrArg NetSet.items (hsi.add n).2.1
    rw [NetSet.insert, apply_ite NetSet.items] at hadd
    rw [hsi.contains_eq]
    exact hadd
  · exact congrArg NetSet.items (hsi.remove n).2.1
  · have hsame : (IndexedSet.ofList s.items).plain = s.plain := congrArg NetSet.mk hclone
    calc (s.union o).items
      _ = (s.plain.insertAll o.items).items := by rw [← hsame, ← hplain]; rfl
      _ = s.items ++ o.items.filter fun n => !s.contains n := by
        simp only [hsi.contains_eq]
        exact items_insertAll hoi.nodup
  · intro r hr
    simp only [mem_cons, not_mem_nil, or_false] at hr
    rcases hr with rfl | rfl | rfl | rfl
    · exact hunion
    all_goals exact (IndexedSet.ofList_spec _).1

/-- A reset reference keeps its place and its flag when it is added again, also behind a net that was taken out. -/
theorem indexed_refines_resets : ∃ (s o : IndexedSet) (t : IndexedTable Nat),
    s.items = [.reset "a" false, .reset "b" true] ∧ s.index.find (.reset "b") = some 1 ∧
      (s.union o).items = [.reset "a" false, .reset "b" true, .clock "c"] ∧
      (s.intersection o).items = [.reset "b" true] ∧ t.get? (.reset "b" false) = some 4 := by
  have hs₀ := (IndexedSet.Mirrors.empty.add (.reset "a" false)).add (.clock "a")
  have hs := (hs₀.add (.reset "b" true)).remove (.clock "a")
  have ho := (IndexedSet.Mirrors.empty.add (.reset "b" false)).add (.clock "c")
  have ht₀ := (IndexedTable.Mirrors.empty.set (.clock "a") 1).set (.reset "b" true) 2
  have ht := (ht₀.erase (.clock "a")).set (.reset "b" false) 4
  obtain ⟨⟨hexact, -, -, hitems, -, hunion, -, hinter, -⟩, -, -, -, -, -, hget⟩ := indexed_refines hs ho ht
  refine ⟨_, _, _, hitems.trans (by decide), (hexact _ _).mpr ?_, hunion.trans ?_, hinter.trans ?_, (hget _).trans ?_⟩
  all_goals rfl

end Rtl
