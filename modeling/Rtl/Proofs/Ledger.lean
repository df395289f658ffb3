import Mathlib
import Rtl.Fragment.Conflicts

/-!
# The ledger of holders

Nets and memories are entered with whoever drives or accesses them. An item has one entry, known by its key, and an
entry names each holder once. When no child takes part in a conflict, every item has exactly one holder.
-/
namespace Rtl

open List

section Entries

variable {α κ : Type} {key : α → κ} {es es' : List (Held α)} {c : Holder} {k k' : κ} {x y : Option Nat}

/-- The item with the key is entered with the given holder. -/
def HeldBy (key : α → κ) (es : List (Held α)) (k : κ) (x : Option Nat) : Prop :=
  ∃ e ∈ es, key e.item = k ∧ ∃ h ∈ e.holders, h.child = x

/-- Items are entered once, each with at least one holder and no holder twice. -/
structure EntriesSound (key : α → κ) (es : List (Held α)) : Prop where
  keys : (es.map fun e => key e.item).Nodup
  nonempty : ∀ e ∈ es, e.holders ≠ []
  holders : ∀ e ∈ es, (e.holders.map (·.child)).Nodup

theorem entriesSound_nil : EntriesSound key [] := ⟨by simp, by simp, by simp⟩

/-- Entering a holder for a key: in the entry that has the key, or in a new one at the end. -/
inductive Enters (key : α → κ) (c : Holder) (k : κ) : List (Held α) → List (Held α) → Prop
  | new (a : α) (label : String) (ha : key a = k) : Enters key c k [] [⟨a, label, [c]⟩]
  | here {e e' : Held α} {es : List (Held α)} (he : key e.item = k) (he' : key e'.item = k)
      (hh : e'.holders = (e.addHolder c).holders) : Enters key c k (e :: es) (e' :: es)
  | there {e : Held α} {es es' : List (Held α)} (he : key e.item ≠ k) (h : Enters key c k es es') :
      Enters key c k (e :: es) (e :: es')

theorem exists_addHolder (e : Held α) :
    (∃ h ∈ (e.addHolder c).holders, h.child = x) ↔ (∃ h ∈ e.holders, h.child = x) ∨ c.child = x := by
  unfold Held.addHolder
  split
  · rename_i h
    obtain ⟨h', hh', hc⟩ := any_eq_true.mp h
    rw [decide_eq_true_eq] at hc
    constructor
    · exact Or.inl
    · rintro (hx | hx)
      · exact hx
      · exact ⟨h', hh', hc.trans hx⟩
  · simp only [mem_append, mem_singleton]
    constructor
    · rintro ⟨h, hh | rfl, hx⟩
      · exact Or.inl ⟨h, hh, hx⟩
      · exact Or.inr hx
    · rintro (⟨h, hh, hx⟩ | hx)
      · exact ⟨h, Or.inl hh, hx⟩
      · exact ⟨c, Or.inr rfl, hx⟩

theorem addHolder_ne_nil (e : Held α) : (e.addHolder c).holders ≠ [] := by
  obtain ⟨h, hh, -⟩ := (exists_addHolder e (c := c)).mpr (Or.inr rfl)
  exact ne_nil_of_mem hh

theorem addHolder_nodup {e : Held α} (hn : (e.holders.map (·.child)).Nodup) :
    ((e.addHolder c).holders.map (·.child)).Nodup := by
  unfold Held.addHolder
  split
  · exact hn
  · rename_i h
    rw [map_append, map_singleton, nodup_append]
    refine ⟨hn, by simp, ?_⟩
    intro a ha b hb hab
    rw [mem_singleton] at hb
    obtain ⟨h', hh', rfl⟩ := mem_map.mp ha
    exact h (any_eq_true.mpr ⟨h', hh', decide_eq_true (hab.trans hb)⟩)

theorem Enters.heldBy_iff (h : Enters key c k es es') :
    HeldBy key es' k' x ↔ HeldBy key es k' x ∨ k = k' ∧ c.child = x := by
  unfold HeldBy
  induction h with
  | new a label ha => simp [ha]
  | here he he' hh =>
    simp only [mem_cons, exists_eq_or_imp, he, he', hh, exists_addHolder]
    rw [and_or_left, or_right_comm]
  | there he _ ih =>
    simp only [mem_cons, exists_eq_or_imp]
    rw [ih, or_assoc]

/-- The keys stay as they are, or the new one comes last. -/
theorem Enters.keys (h : Enters key c k es es') :
    es'.map (fun e => key e.item) = es.map (fun e => key e.item) ∨
      k ∉ es.map (fun e => key e.item) ∧ es'.map (fun e => key e.item) = es.map (fun e => key e.item) ++ [k] := by
  induction h with
  | new a label ha => exact Or.inr ⟨by simp, by simp [ha]⟩
  | here he he' => exact Or.inl (by simp [he, he'])
  | there he _ ih =>
    rcases ih with ih | ⟨hk, ih⟩
    · exact Or.inl (by rw [map_cons, map_cons, ih])
    · refine Or.inr ⟨?_, by rw [map_cons, map_cons, ih, cons_append]⟩
      rw [map_cons, mem_cons, not_or]
      exact ⟨fun hk => he hk.symm, hk⟩

theorem Enters.sound (h : Enters key c k es es') (hs : EntriesSound key es) : EntriesSound key es' := by
  have hkeys : (es'.map fun e => key e.item).Nodup := by
    rcases h.keys with hk | ⟨hk, hes⟩
    · rw [hk]
      exact hs.keys
    · rw [hes, nodup_append]
      refine ⟨hs.keys, by simp, ?_⟩
      intro a ha b hb hab
      rw [mem_singleton] at hb
      exact hk (hb ▸ hab ▸ ha)
  have hentries : ∀ e ∈ es', e.holders ≠ [] ∧ (e.holders.map (·.child)).Nodup := by
    have hold : ∀ e ∈ es, e.holders ≠ [] ∧ (e.holders.map (·.child)).Nodup :=
      fun e he => ⟨hs.nonempty e he, hs.holders e he⟩
    clear hs hkeys
    induction h with
    | new => simp
    | @here e e' es he he' hh =>
      obtain ⟨hfirst, hrest⟩ := forall_mem_cons.mp hold
      refine forall_mem_cons.mpr ⟨?_, hrest⟩
      rw [hh]
      exact ⟨addHolder_ne_nil e, addHolder_nodup hfirst.2⟩
    | there he _ ih =>
      obtain ⟨hfirst, hrest⟩ := forall_mem_cons.mp hold
      exact forall_mem_cons.mpr ⟨hfirst, ih hrest⟩
  exact ⟨hkeys, fun e he => (hentries e he).1, fun e he => (hentries e he).2⟩

/-- Entering one item after the other. -/
theorem enters_foldl {β : Type} {enter : List (Held α) → β → List (Held α)} {keyOf : β → κ}
    (henter : ∀ es b, Enters key c (keyOf b) es (enter es b)) (bs : List β) (es : List (Held α)) :
    (EntriesSound key es → EntriesSound key (bs.foldl enter es)) ∧
      ∀ k x, HeldBy key (bs.foldl enter es) k x ↔ HeldBy key es k x ∨ (∃ b ∈ bs, keyOf b = k) ∧ c.child = x := by
  induction bs generalizing es with
  | nil => simp
  | cons b bs ih =>
    obtain ⟨hsound, hheld⟩ := ih (enter es b)
    refine ⟨fun hs => hsound ((henter es b).sound hs), fun k x => ?_⟩
    rw [foldl_cons, hheld, (henter es b).heldBy_iff]
    simp only [mem_cons, exists_eq_or_imp]
    rw [or_and_right, or_assoc]

/-- When no child takes part in a conflict there is none: a second holder would be a child. -/
theorem EntriesSound.no_conflict (hs : EntriesSound key es) (h : Held.involved es = []) :
    ∀ e ∈ es, e.holders.length = 1 := by
  intro e he
  by_contra hlen
  have hconflict : e.isConflict = true := by simpa [Held.isConflict] using hlen
  have hnone : ∀ c ∈ e.holders, c.child = none := by
    intro c hc
    by_contra hsome
    obtain ⟨i, hi⟩ := Option.ne_none_iff_exists'.mp hsome
    have hmem : i ∈ Held.involved es := by
      rw [Held.involved, mem_flatMap]
      exact ⟨e, mem_filter.mpr ⟨he, hconflict⟩, mem_filterMap.mpr ⟨c, hc, hi⟩⟩
    rw [h] at hmem
    cases hmem
  have hmap : e.holders.map (·.child) = List.replicate e.holders.length none := by
    rw [eq_replicate_iff, length_map]
    refine ⟨rfl, ?_⟩
    intro x hx
    obtain ⟨c, hc, rfl⟩ := mem_map.mp hx
    exact hnone c hc
  have hle : e.holders.length ≤ 1 := by
    have hnodup := hs.holders e he
    rw [hmap] at hnodup
    exact nodup_replicate.mp hnodup
  have hpos : e.holders.length ≠ 0 := fun h0 => hs.nonempty e he (length_eq_zero_iff.mp h0)
  omega

/-- Then an item has one holder. -/
theorem EntriesSound.heldBy_unique (hs : EntriesSound key es) (h : Held.involved es = [])
    (hx : HeldBy key es k x) (hy : HeldBy key es k y) : x = y := by
  obtain ⟨e, he, hk, c, hc, rfl⟩ := hx
  obtain ⟨e', he', hk', c', hc', rfl⟩ := hy
  obtain rfl : e = e' := inj_on_of_nodup_map hs.keys he he' (hk.trans hk'.symm)
  obtain ⟨a, ha⟩ := length_eq_one_iff.mp (hs.no_conflict h e he)
  rw [ha, mem_singleton] at hc hc'
  rw [hc, hc']

theorem heldBy_of_involved {i : Nat} (h : i ∈ Held.involved es) : ∃ k, HeldBy key es k (some i) := by
  rw [Held.involved, mem_flatMap] at h
  obtain ⟨e, he, hi⟩ := h
  obtain ⟨c, hc, hci⟩ := mem_filterMap.mp hi
  exact ⟨key e.item, e, (mem_filter.mp he).1, rfl, c, hc, hci⟩

/-- What is entered is what somebody holds. -/
theorem EntriesSound.mem_items_iff (hs : EntriesSound key es) :
    (∃ a ∈ es.map (·.item), key a = k) ↔ ∃ x, HeldBy key es k x := by
  constructor
  · rintro ⟨a, ha, hk⟩
    obtain ⟨e, he, rfl⟩ := mem_map.mp ha
    obtain ⟨c, hc⟩ := exists_mem_of_ne_nil _ (hs.nonempty e he)
    exact ⟨c.child, e, he, hk, c, hc, rfl⟩
  · rintro ⟨x, e, he, hk, -⟩
    exact ⟨e.item, mem_map.mpr ⟨e, he, rfl⟩, hk⟩

end Entries

/-- What two fragments must not have in common: a net by its key, or a memory by its number. -/
inductive Claim where
  | net (key : NetKey)
  | memory (id : Nat)

namespace Ledger

variable {l : Ledger} {c : Holder} {k : Claim} {x : Option Nat}

theorem enters_addNetTo (σ : Arenas) (c : Holder) (n : Net) (es : List (Held Net)) :
    Enters Net.key c n.key es (addNetTo σ c n es) := by
  induction es with
  | nil => exact .new n (n.label σ) rfl
  | cons e es ih =>
    rw [addNetTo]
    split
    · rename_i he
      refine .here he ?_ rfl
      unfold Held.addHolder
      split <;> exact he
    · rename_i he
      exact .there he ih

theorem enters_addMemoryTo (c : Holder) (m : Memory) (es : List (Held Memory)) :
    Enters Memory.id c m.id es (addMemoryTo c m es) := by
  induction es with
  | nil => exact .new m m.name rfl
  | cons e es ih =>
    rw [addMemoryTo]
    split
    · rename_i he
      exact .here he rfl rfl
    · rename_i he
      exact .there he ih

/-- Both registers of the ledger are sound. -/
structure Sound (l : Ledger) : Prop where
  nets : EntriesSound Net.key l.nets
  memories : EntriesSound Memory.id l.memories

theorem sound_empty : empty.Sound := ⟨entriesSound_nil, entriesSound_nil⟩

/-- The claim is entered with the given holder. -/
def Holds (l : Ledger) : Claim → Option Nat → Prop
  | .net k, x => HeldBy Net.key l.nets k x
  | .memory id, x => HeldBy Memory.id l.memories id x

theorem Sound.addNets (h : l.Sound) (σ : Arenas) (c : Holder) (ns : List Net) : (l.addNets σ c ns).Sound :=
  ⟨(enters_foldl (fun es n => enters_addNetTo σ c n es) ns l.nets).1 h.nets, h.memories⟩

theorem Sound.addMemories (h : l.Sound) (c : Holder) (ms : List Memory) : (l.addMemories c ms).Sound :=
  ⟨h.nets, (enters_foldl (fun es m => enters_addMemoryTo c m es) ms l.memories).1 h.memories⟩

@[simp] theorem holds_addNets {σ : Arenas} {ns : List Net} :
    (l.addNets σ c ns).Holds k x ↔ l.Holds k x ∨ (∃ n ∈ ns, k = .net n.key) ∧ x = c.child := by
  cases k with
  | net k =>
    simp only [Claim.net.injEq, eq_comm (a := k), eq_comm (a := x)]
    exact (enters_foldl (fun es n => enters_addNetTo σ c n es) ns l.nets).2 k x
  | memory => simp [Holds, addNets]

@[simp] theorem holds_addMemories {ms : List Memory} :
    (l.addMemories c ms).Holds k x ↔ l.Holds k x ∨ (∃ m ∈ ms, k = .memory m.id) ∧ x = c.child := by
  cases k with
  | net => simp [Holds, addMemories]
  | memory id =>
    simp only [Claim.memory.injEq, eq_comm (a := id), eq_comm (a := x)]
    exact (enters_foldl (fun es m => enters_addMemoryTo c m es) ms l.memories).2 id x

@[simp] theorem not_holds_empty : ¬ empty.Holds k x := by
  cases k <;> rintro ⟨e, he, -⟩ <;> cases he

/-- Without children that take part in conflicts, nets and memories have one holder each. -/
theorem Sound.holds_unique (h : l.Sound) (hi : l.involved = []) {y : Option Nat} (hx : l.Holds k x)
    (hy : l.Holds k y) : x = y := by
  obtain ⟨hnets, hmemories⟩ := append_eq_nil_iff.mp hi
  cases k with
  | net => exact h.nets.heldBy_unique hnets hx hy
  | memory => exact h.memories.heldBy_unique hmemories hx hy

theorem holds_of_involved {i : Nat} (h : i ∈ l.involved) : ∃ k, l.Holds k (some i) := by
  rcases mem_append.mp h with h | h
  · obtain ⟨k, hk⟩ := heldBy_of_involved h
    exact ⟨.net k, hk⟩
  · obtain ⟨id, hid⟩ := heldBy_of_involved h
    exact ⟨.memory id, hid⟩

theorem Sound.mem_items_iff (h : l.Sound) :
    ((∃ n ∈ l.nets.map (·.item), k = .net n.key) ∨ ∃ m ∈ l.memories.map (·.item), k = .memory m.id) ↔
      ∃ x, l.Holds k x := by
  cases k with
  | net k =>
    simp only [Claim.net.injEq, reduceCtorEq, and_false, exists_false, or_false, eq_comm (a := k)]
    exact h.nets.mem_items_iff
  | memory id =>
    simp only [Claim.memory.injEq, reduceCtorEq, and_false, exists_false, false_or, eq_comm (a := id)]
    exact h.memories.mem_items_iff

end Ledger
end Rtl
