import Mathlib
import Rtl.Fragment.LowerDomains
import Rtl.Fragment.Names
import Rtl.Proofs.GroupedNets
import Rtl.Proofs.Merging
import Rtl.Proofs.Usage

/-!
# Names of nets within a fragment

A fragment names what it mentions one net after the other: a net takes its label, or the label with the least number
that makes a name no net before it has. The search for a number ends because there are more numbered labels than names
taken, so nets never share a name, whatever their labels look like.
-/
namespace Rtl

open List

variable (taken : List String) (base : String)

theorem numbered_injective : Function.Injective fun n : Nat => base ++ "$" ++ toString n := by
  intro i j h
  exact Nat.repr_injective (String.append_right_inj _ |>.mp h)

/-- The search tries the numbers in turn and gives up only when it runs out of fuel. -/
theorem freshName_spec (fuel n : Nat) :
    ∃ k, n ≤ k ∧ freshName taken base fuel n = base ++ "$" ++ toString k ∧
      (∀ j, n ≤ j → j < k → base ++ "$" ++ toString j ∈ taken) ∧
      (base ++ "$" ++ toString k ∈ taken → k = n + fuel) := by
  induction fuel generalizing n with
  | zero => exact ⟨n, le_rfl, rfl, fun j hj hlt => absurd hj (not_le.mpr hlt), fun _ => rfl⟩
  | succ fuel ih =>
    rw [freshName]
    by_cases hn : base ++ "$" ++ toString n ∈ taken
    · obtain ⟨k, hk, hname, hbefore, hend⟩ := ih (n + 1)
      refine ⟨k, by omega, ?_, ?_, fun h => ?_⟩
      · rw [if_pos (contains_iff_mem.mpr hn), hname]
      · intro j hj hlt
        rcases hj.eq_or_lt with rfl | hj
        · exact hn
        · exact hbefore j hj hlt
      · have := hend h
        omega
    · refine ⟨n, le_rfl, ?_, fun j hj hlt => absurd hj (not_le.mpr hlt), fun h => absurd h hn⟩
      rw [if_neg (mt contains_iff_mem.mp hn)]

/-- The name is free, and it is the label or, where the label is taken, the label with the least number that is free. -/
def FirstFree (taken : List String) (base name : String) : Prop :=
  name ∉ taken ∧ (name = base ∨ base ∈ taken ∧ ∃ k, 1 ≤ k ∧ name = base ++ "$" ++ toString k ∧
    ∀ j, 1 ≤ j → j < k → base ++ "$" ++ toString j ∈ taken)

theorem chooseName_firstFree : FirstFree taken base (chooseName taken base) := by
  rw [chooseName]
  by_cases hbase : base ∈ taken
  · rw [if_pos (contains_iff_mem.mpr hbase)]
    obtain ⟨k, hk, hname, hbefore, hend⟩ := freshName_spec taken base taken.length 1
    rw [hname]
    refine ⟨fun hin => ?_, .inr ⟨hbase, k, hk, rfl, hbefore⟩⟩
    -- All of one more numbered labels than there are names would be taken.
    have hsubset : (List.range' 1 k).map (fun n => base ++ "$" ++ toString n) ⊆ taken := by
      intro name hmem
      obtain ⟨j, hj, rfl⟩ := mem_map.mp hmem
      obtain ⟨hle, hlt⟩ := mem_range'_1.mp hj
      rcases (show j ≤ k by omega).eq_or_lt with rfl | hlt
      · exact hin
      · exact hbefore j hle hlt
    have hnodup : ((List.range' 1 k).map fun n => base ++ "$" ++ toString n).Nodup :=
      (nodup_range' (h := by omega)).map (numbered_injective base)
    have hlength := (hnodup.subperm hsubset).length_le
    rw [length_map, length_range', hend hin] at hlength
    omega
  · rw [if_neg (mt contains_iff_mem.mp hbase)]
    exact ⟨hbase, .inl rfl⟩

/-- Each net of the list has the first name that is free after the nets in front of it. -/
def NamedInOrder (σ : Arenas) (es : List (Net × String)) : Prop :=
  ∀ ⦃before : List (Net × String)⦄ ⦃n : Net⦄ ⦃name : String⦄, before ++ [(n, name)] <+: es →
    FirstFree (before.map Prod.snd) (n.label σ) name

namespace NamedInOrder

variable {σ : Arenas} {es : List (Net × String)}

theorem concat (h : NamedInOrder σ es) (n : Net) :
    NamedInOrder σ (es ++ [(n, chooseName (es.map Prod.snd) (n.label σ))]) := by
  intro before m name hstart
  rcases prefix_concat_iff.mp hstart with heq | hstart
  · obtain ⟨rfl, hlast⟩ := append_inj' heq rfl
    cases hlast
    exact chooseName_firstFree _ _
  · exact h hstart

theorem nodup_names (h : NamedInOrder σ es) : (es.map Prod.snd).Nodup := by
  induction es using List.reverseRecOn with
  | nil => exact nodup_nil
  | append_singleton es e ih =>
    have hfree : e.2 ∉ es.map Prod.snd := (h (prefix_refl (es ++ [e]))).1
    rw [map_append, nodup_append]
    refine ⟨ih fun before n name hstart => h (hstart.trans (prefix_append es [e])), nodup_singleton _, ?_⟩
    rintro name hname _ hlast rfl
    exact hfree (mem_singleton.mp hlast ▸ hname)

/-- A name leads back to its net. -/
theorem key_eq {t : NetTable String} (h : NamedInOrder σ t.entries) {n m : Net} {name : String}
    (hn : t.get? n = some name) (hm : t.get? m = some name) : n.key = m.key := by
  obtain ⟨e, he, rfl⟩ := Option.map_eq_some_iff.mp hn
  obtain ⟨e', he', hname⟩ := Option.map_eq_some_iff.mp hm
  obtain rfl := inj_on_of_nodup_map h.nodup_names (mem_of_find?_eq_some he') (mem_of_find?_eq_some he)
    hname
  have hkey := find?_some he
  have hkey' := find?_some he'
  exact (of_decide_eq_true hkey).symm.trans (of_decide_eq_true hkey')

end NamedInOrder

theorem NetTable.setEntry_of_forall_ne {α : Type} {n : Net} {a : α} {es : List (Net × α)}
    (h : ∀ e ∈ es, e.1.key ≠ n.key) : setEntry n a es = es ++ [(n, a)] := by
  induction es with
  | nil => rfl
  | cons e es ih =>
    obtain ⟨he, hes⟩ := forall_mem_cons.mp h
    rw [setEntry, if_neg he, ih hes]
    rfl

namespace Body

variable {σ : Arenas} {t t' : NetTable String} {b : Body}
variable {xs : List Statement}

/-- The nets are named in order, and they are these. -/
structure Names (σ : Arenas) (K : Net → Prop) (t : NetTable String) : Prop where
  inOrder : NamedInOrder σ t.entries
  named_iff : ∀ n, (∃ name, t.get? n = some name) ↔ K n

variable {K : Net → Prop}

theorem Names.nameNet (h : Names σ K t) (n : Net) : Names σ (fun m => K m ∨ n.key = m.key) (nameNet σ t n) := by
  rw [Body.nameNet]
  by_cases hn : t.contains n = true
  · rw [if_pos hn]
    refine ⟨h.inOrder, fun m => (h.named_iff m).trans ⟨.inl, fun hm => hm.elim id fun hkey => ?_⟩⟩
    rw [← h.named_iff, ← NetTable.get?_congr hkey]
    exact NetTable.contains_iff.mp hn
  · rw [if_neg hn]
    refine ⟨?_, fun m => ?_⟩
    · have hne : ∀ e ∈ t.entries, e.1.key ≠ n.key := by
        intro e he hkey
        refine hn (NetTable.contains_iff.mpr (NetTable.get?_eq_some_iff_mem.mpr ?_))
        exact NetSet.mem_iff.mpr ⟨e.1, mem_map_of_mem he, hkey⟩
      rw [NetTable.set, NetTable.setEntry_of_forall_ne hne]
      exact h.inOrder.concat n
    · rw [NetTable.get?_set, ← h.named_iff]
      split
      · rename_i hkey
        exact iff_of_true ⟨_, rfl⟩ (.inr hkey)
      · rename_i hkey
        exact (or_iff_left hkey).symm

theorem Names.foldl (h : Names σ K t) (ns : List Net) :
    Names σ (fun m => K m ∨ ∃ n ∈ ns, n.key = m.key) (ns.foldl (Body.nameNet σ) t) := by
  induction ns generalizing t K with
  | nil => exact ⟨h.inOrder, fun m => (h.named_iff m).trans (by simp)⟩
  | cons n ns ih =>
    obtain ⟨horder, hnamed⟩ := ih (h.nameNet n)
    exact ⟨horder, fun m => (hnamed m).trans (by simp [or_assoc])⟩

theorem Names.nameNets (h : Names σ K t) (s : NetSet) : Names σ (fun m => K m ∨ m ∈ s) (nameNets σ t s) := by
  obtain ⟨horder, hnamed⟩ := h.foldl s.items
  exact ⟨horder, fun m => (hnamed m).trans (by rw [NetSet.mem_iff])⟩

theorem Names.nameStatements (h : Names σ K t) (hxs : nameStatements σ t xs = .ok t') :
    Names σ (fun m => K m ∨ ∃ x ∈ xs, (∃ w, x.targets = .ok w ∧ m ∈ w) ∨ m ∈ x.reads) t' := by
  induction xs generalizing t K with
  | nil =>
    obtain rfl := Except.ok.inj hxs
    exact ⟨h.inOrder, fun m => (h.named_iff m).trans (by simp)⟩
  | cons x xs ih =>
    obtain ⟨w, hw, hxs⟩ := except_bind_eq_ok.mp hxs
    obtain ⟨horder, hnamed⟩ := ih ((h.nameNets w).nameNets x.reads) hxs
    refine ⟨horder, fun m => (hnamed m).trans ?_⟩
    simp [Statement.assigned_eq_ok.mp hw, or_assoc]

theorem Names.ports (h : Names σ K t) (ps : List Binding) :
    Names σ (fun m => K m ∨ ∃ p ∈ ps, m ∈ p.value.reads)
      (ps.foldl (fun names p => Body.nameNets σ names p.value.reads) t) := by
  induction ps generalizing t K with
  | nil => exact ⟨h.inOrder, fun m => (h.named_iff m).trans (by simp)⟩
  | cons p ps ih =>
    obtain ⟨horder, hnamed⟩ := ih (h.nameNets p.value.reads)
    exact ⟨horder, fun m => (hnamed m).trans (by simp [or_assoc])⟩

/-- The net is a port or driven, a statement assigns or reads it, or a port of the cell is bound to a value over it. -/
def Mentions (b : Body) (n : Net) : Prop :=
  (∃ dir, b.ports.get? n = some dir) ∨ (∃ domain, b.Drives domain n) ∨
    (∃ x ∈ b.statements, (∃ w, x.targets = .ok w ∧ n ∈ w) ∨ n ∈ x.reads) ∨
    ∃ i, b.cell = some i ∧ ∃ p ∈ i.ports, n ∈ p.value.reads

theorem mem_signals {n : Net} : n ∈ b.signals ↔ (∃ dir, b.ports.get? n = some dir) ∨ ∃ domain, b.Drives domain n := by
  rw [signals, NetSet.mem_insertAll, NetTable.get?_eq_some_iff_mem]
  simp only [drives_iff, mem_map]
  exact or_congr_right ⟨fun ⟨m, ⟨e, he, hm⟩, hkey⟩ => ⟨e.1, e, he, rfl, hm ▸ hkey⟩,
    fun ⟨_, e, he, _, hkey⟩ => ⟨e.2, ⟨e, he, rfl⟩, hkey⟩⟩

theorem names_spec (h : b.names σ = .ok t) : Names σ b.Mentions t := by
  obtain ⟨own, hown, h⟩ := except_bind_eq_ok.mp h
  have hempty : Names σ (fun _ => False) .empty :=
    ⟨fun before n name hstart => by simpa using prefix_nil.mp hstart, by simp⟩
  have hstatements := (hempty.nameNets b.signals).nameStatements hown
  cases hcell : b.cell with
  | none =>
    rw [hcell] at h
    obtain rfl := except_pure_eq_ok.mp h
    refine ⟨hstatements.inOrder, fun n => (hstatements.named_iff n).trans ?_⟩
    simp [Mentions, mem_signals, hcell, or_assoc]
  | some i =>
    rw [hcell] at h
    obtain rfl := except_pure_eq_ok.mp h
    have hports := hstatements.ports i.ports
    refine ⟨hports.inOrder, fun n => (hports.named_iff n).trans ?_⟩
    simp [Mentions, mem_signals, hcell, or_assoc]

theorem nameStatements_ok_iff : (∃ t', nameStatements σ t xs = .ok t') ↔ ∀ x ∈ xs, ∃ t, x.targets = .ok t := by
  induction xs generalizing t with
  | nil => exact iff_of_true ⟨t, rfl⟩ fun _ hx => absurd hx not_mem_nil
  | cons x xs ih =>
    rw [nameStatements, forall_mem_cons]
    refine (exists_ok_bind fun _ => ih).trans ?_
    simp only [Statement.assigned_eq_ok]

theorem names_ok_iff : (∃ t, b.names σ = .ok t) ↔ ∀ x ∈ b.statements, ∃ t, x.targets = .ok t := by
  unfold names
  cases b.cell <;> exact exists_ok_pure.trans nameStatements_ok_iff

end Body

namespace Fragment

variable {σ : Arenas}
variable {position : Nat} {path : String} {f : Fragment} {cs : List (String × Fragment)}
variable {ts : List (String × NetTable String)}

theorem childNames_bodies (ih : ∀ c ∈ cs, ∀ {path ts}, c.2.names σ path = .ok ts →
      List.Forall₂ (fun b t => b.names σ = .ok t.2) c.2.bodies ts) (h : childNames σ path position cs = .ok ts) :
    List.Forall₂ (fun b t => b.names σ = .ok t.2) (bodiesAll cs) ts := by
  induction cs generalizing position ts with
  | nil =>
    obtain rfl := Except.ok.inj h
    exact .nil
  | cons c cs ihcs =>
    obtain ⟨hc, hcs⟩ := forall_mem_cons.mp ih
    obtain ⟨here, hhere, h⟩ := except_bind_eq_ok.mp h
    obtain ⟨others, hothers, rfl⟩ := except_bind_pure_eq_ok.mp h
    exact rel_append (hc hhere) (ihcs hcs hothers)

theorem names_bodies (h : f.names σ path = .ok ts) : List.Forall₂ (fun b t => b.names σ = .ok t.2) f.bodies ts := by
  induction f generalizing path ts with
  | node b cs ih =>
    obtain ⟨own, hown, h⟩ := except_bind_eq_ok.mp h
    obtain ⟨rest, hrest, rfl⟩ := except_bind_pure_eq_ok.mp h
    exact .cons hown (childNames_bodies ih hrest)

theorem childNames_ok_iff
    (ih : ∀ c ∈ cs, ∀ path, (∃ t, c.2.names σ path = .ok t) ↔ ∀ b ∈ c.2.bodies, ∃ t, b.names σ = .ok t) :
    (∃ t, childNames σ path position cs = .ok t) ↔ ∀ c ∈ cs, ∀ b ∈ c.2.bodies, ∃ t, b.names σ = .ok t := by
  induction cs generalizing position with
  | nil => exact iff_of_true ⟨[], rfl⟩ fun _ hc => absurd hc not_mem_nil
  | cons c cs ihcs =>
    obtain ⟨name, f⟩ := c
    obtain ⟨ihc, ihrest⟩ := forall_mem_cons.mp ih
    rw [childNames, forall_mem_cons]
    refine (exists_ok_bind fun own => ?_).trans (and_congr_left fun _ => ihc _)
    exact exists_ok_pure.trans (ihcs ihrest)

theorem names_ok_iff : (∃ t, f.names σ path = .ok t) ↔ ∀ b ∈ f.bodies, ∃ t, b.names σ = .ok t := by
  induction f generalizing path with
  | node b cs ih =>
    rw [names, forall_bodies_node]
    refine exists_ok_bind fun own => exists_ok_pure.trans ?_
    exact childNames_ok_iff fun c hc path => ih c hc

/-- The nets of a tree can be named exactly when what its statements assign to are nets. Then, in every fragment, the
nets with a name are those that it mentions, different nets have different names, and each has the first name that was
free when its turn came. -/
theorem names_distinct_iff (σ : Arenas) (f : Fragment) (path : String) :
    ((∃ ts, f.names σ path = .ok ts) ↔ ∀ b ∈ f.bodies, ∀ x ∈ b.statements, ∃ w, x.targets = .ok w) ∧
      ∀ ts, f.names σ path = .ok ts → List.Forall₂ (fun b t =>
        (∀ n, (∃ name, t.2.get? n = some name) ↔ b.Mentions n) ∧
        (∀ n m name, t.2.get? n = some name → t.2.get? m = some name → n.key = m.key) ∧
        NamedInOrder σ t.2.entries) f.bodies ts := by
  refine ⟨names_ok_iff.trans (forall₂_congr fun b _ => Body.names_ok_iff), fun ts hts => (names_bodies hts).imp ?_⟩
  intro b t ht
  have hnames := Body.names_spec ht
  exact ⟨hnames.named_iff, fun n m name => hnames.inOrder.key_eq, hnames.inOrder⟩

/-- Where the reset of a domain without one is assigned to, lowering leaves a constant on the left side, and the nets
of the lowered fragment cannot be named. -/
theorem not_forall_lowerDomains_names : ¬ ∀ (σ : Arenas) (f g : Fragment), f.lowerDomains σ = .ok g →
    ∃ ts, g.names σ "top" = .ok ts := by
  intro h
  let b : Body := { Body.empty with
    statements := [.assign (.net (.reset "d" true)) .initial]
    domains := [⟨0, 1, "d", ⟨0, 1⟩, none, false, false, false⟩] }
  obtain ⟨ts, hts⟩ := h .empty (.node b []) _ rfl
  cases hts

end Fragment
end Rtl
