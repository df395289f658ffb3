import Mathlib
import Rtl.Fragment.Basic

/-!
# Fragment trees

Induction over a tree in one step, and the fragments of a tree as a list. A fragment of a tree is given with
everything below it, so that what it holds itself and what its children hold can both be read off.
-/
namespace Rtl

open List

variable {i : Nat}

section Related

variable {α β : Type} {R : α → β → Prop} {l : List α} {l' : List β}
variable {a : α} {p : α → Prop} {q : β → Prop} {S : α → α → Prop}

section

variable (h : List.Forall₂ R l l')
include h

theorem forall₂_mem_left (ha : a ∈ l) : ∃ b ∈ l', R a b := by
  induction h with
  | nil => cases ha
  | cons hr _ ih =>
    rcases mem_cons.mp ha with rfl | ha
    · exact ⟨_, by simp, hr⟩
    · obtain ⟨b, hb, hab⟩ := ih ha
      exact ⟨b, by simp [hb], hab⟩

theorem forall₂_mem_right {b : β} (hb : b ∈ l') : ∃ a ∈ l, R a b := by
  have hflip : List.Forall₂ (flip R) l' l := List.Forall₂.flip h
  exact forall₂_mem_left hflip hb

theorem forall₂_mem : List.Forall₂ (fun a b => a ∈ l ∧ R a b) l l' :=
  (forall₂_and_left l l').mpr ⟨fun _ ha => ha, h⟩

theorem forall₂_forall_iff (hpq : ∀ a ∈ l, ∀ b, R a b → (p a ↔ q b)) :
    (∀ a ∈ l, p a) ↔ ∀ b ∈ l', q b := by
  constructor
  · intro hall b hb
    obtain ⟨a, ha, hab⟩ := forall₂_mem_right h hb
    exact (hpq a ha b hab).mp (hall a ha)
  · intro hall a ha
    obtain ⟨b, hb, hab⟩ := forall₂_mem_left h ha
    exact (hpq a ha b hab).mpr (hall b hb)

theorem forall₂_exists_iff (hpq : ∀ a ∈ l, ∀ b, R a b → (p a ↔ q b)) :
    (∃ a ∈ l, p a) ↔ ∃ b ∈ l', q b := by
  rw [← not_iff_not]
  push Not
  exact forall₂_forall_iff h fun a ha b hab => not_congr (hpq a ha b hab)

theorem forall₂_getElem? (i : Nat) : Option.Rel R l[i]? l'[i]? := by
  induction h generalizing i with
  | nil => exact .none
  | cons hr _ ih =>
    cases i with
    | zero => exact .some hr
    | succ i => exact ih i

theorem forall₂_getElem?_left (hi : l[i]? = some a) : ∃ b, l'[i]? = some b ∧ R a b := by
  have hrel := forall₂_getElem? h i
  rw [hi] at hrel
  generalize hb : l'[i]? = x at hrel ⊢
  cases hrel with
  | some hr => exact ⟨_, rfl, hr⟩

end

/-- Relations between three lists, place by place. -/
theorem forall₂_trans {γ : Type*} {S : β → γ → Prop} {T : α → γ → Prop} (htrans : ∀ {a b c}, R a b → S b c → T a c)
    {l'' : List γ} (h : List.Forall₂ R l l') (h' : List.Forall₂ S l' l'') : List.Forall₂ T l l'' := by
  induction h generalizing l'' with
  | nil =>
    cases h'
    exact .nil
  | cons hr _ ih =>
    obtain ⟨c, l, hr', hrest, rfl⟩ := forall₂_cons_left_iff.mp h'
    exact .cons (htrans hr hr') (ih hrest)

theorem forall₂_set (hrefl : ∀ a, S a a) {a' : α} (hi : l[i]? = some a) (h : S a a') :
    List.Forall₂ S l (l.set i a') := by
  induction l generalizing i with
  | nil => cases hi
  | cons b l ih =>
    cases i with
    | zero =>
      cases hi
      exact .cons h (forall₂_same.mpr fun c _ => hrefl c)
    | succ => exact .cons (hrefl b) (ih hi)

/-- What holds of any two members of a list, one before the other, carries over along a relation. -/
theorem pairwise_of_forall₂ {S' : β → β → Prop} (h : List.Forall₂ R l l') (hl : l.Pairwise S)
    (hS : ∀ {a b a' b'}, R a a' → R b b' → S a b → S' a' b') : l'.Pairwise S' := by
  induction h with
  | nil => exact .nil
  | cons hr hrest ih =>
    obtain ⟨hfirst, hl⟩ := pairwise_cons.mp hl
    refine .cons ?_ (ih hl)
    intro b' hb'
    obtain ⟨b, hb, hrb⟩ := forall₂_mem_right hrest hb'
    exact hS hr hrb (hfirst b hb)

end Related

namespace Fragment

variable {b : Body} {cs : List (String × Fragment)} {f g g' : Fragment}
variable {x : Body} {path : List Nat} {P : Fragment → Prop} {c : String × Fragment}

/-- Induction on a tree: what holds of a fragment whenever it holds of its children holds of every tree. -/
@[induction_eliminator]
theorem induct (node : ∀ (b : Body) (cs : List (String × Fragment)), (∀ c ∈ cs, P c.2) → P (.node b cs))
    (f : Fragment) : P f :=
  @Fragment.rec P (fun cs => ∀ c ∈ cs, P c.2) (fun c => P c.2)
    (fun b cs ih => node b cs ih) (fun _ h => nomatch h)
    (fun _ _ hc hcs _ h => (mem_cons.mp h).elim (fun e => e ▸ hc) (hcs _)) (fun _ _ h => h) f

@[simp] theorem body_node (b : Body) (cs : List (String × Fragment)) : (node b cs).body = b := rfl

@[simp] theorem children_node (b : Body) (cs : List (String × Fragment)) : (node b cs).children = cs := rfl

theorem node_eta (f : Fragment) : node f.body f.children = f := by cases f; rfl

theorem bodiesAll_eq (cs : List (String × Fragment)) : bodiesAll cs = cs.flatMap fun c => c.2.bodies := by
  induction cs with
  | nil => rfl
  | cons c cs ih => rw [bodiesAll, ih, flatMap_cons]

theorem bodies_node (b : Body) (cs : List (String × Fragment)) :
    (node b cs).bodies = b :: cs.flatMap fun c => c.2.bodies := by
  rw [bodies, bodiesAll_eq]

theorem mem_bodies_node : x ∈ (node b cs).bodies ↔ x = b ∨ ∃ c ∈ cs, x ∈ c.2.bodies := by
  rw [bodies_node, mem_cons, mem_flatMap]

theorem forall_bodies_node {P : Body → Prop} :
    (∀ x ∈ (node b cs).bodies, P x) ↔ P b ∧ ∀ c ∈ cs, ∀ x ∈ c.2.bodies, P x := by
  rw [bodies_node, forall_mem_cons]
  simp only [mem_flatMap]
  exact and_congr_right fun _ => ⟨fun h c hc x hx => h x ⟨c, hc, hx⟩, fun h x ⟨c, hc, hx⟩ => h c hc x hx⟩

/-- Something holds of a fragment of the tree exactly when it holds of the top one or of one below a child. -/
theorem exists_bodies_node {P : Body → Prop} :
    (∃ x ∈ (node b cs).bodies, P x) ↔ P b ∨ ∃ c ∈ cs, ∃ x ∈ c.2.bodies, P x := by
  constructor
  · rintro ⟨x, hx, hp⟩
    rcases mem_bodies_node.mp hx with rfl | ⟨c, hc, hx⟩
    · exact Or.inl hp
    · exact Or.inr ⟨c, hc, x, hx, hp⟩
  · rintro (hp | ⟨c, hc, x, hx, hp⟩)
    · exact ⟨b, mem_bodies_node.mpr (Or.inl rfl), hp⟩
    · exact ⟨x, mem_bodies_node.mpr (Or.inr ⟨c, hc, hx⟩), hp⟩

theorem body_mem_bodies (f : Fragment) : f.body ∈ f.bodies := by
  cases f
  rw [mem_bodies_node]
  exact Or.inl rfl

theorem bodies_of_child (hc : c ∈ f.children) (hx : x ∈ c.2.bodies) : x ∈ f.bodies := by
  cases f
  exact mem_bodies_node.mpr (Or.inr ⟨c, hc, hx⟩)

theorem countAll_eq (cs : List (String × Fragment)) : countAll cs = (cs.map fun c => c.2.count).sum := by
  induction cs with
  | nil => rfl
  | cons c cs ih => rw [countAll, ih, map_cons, sum_cons]

theorem count_node (b : Body) (cs : List (String × Fragment)) :
    (node b cs).count = 1 + (cs.map fun c => c.2.count).sum := by
  rw [count, countAll_eq]

theorem count_pos (f : Fragment) : 0 < f.count := by
  cases f
  rw [count_node]
  omega

theorem count_eq_length (f : Fragment) : f.count = f.bodies.length := by
  induction f with
  | node b cs ih =>
    rw [count_node, bodies_node, length_cons, length_flatMap, map_congr_left ih, Nat.add_comm]

mutual

/-- All fragments of a tree with what is below each, parents first. -/
def nodes : Fragment → List Fragment
  | .node b children => .node b children :: nodesAll children

def nodesAll : List (String × Fragment) → List Fragment
  | [] => []
  | (_, f) :: rest => nodes f ++ nodesAll rest

end

theorem nodesAll_eq (cs : List (String × Fragment)) : nodesAll cs = cs.flatMap fun c => c.2.nodes := by
  induction cs with
  | nil => rfl
  | cons c cs ih => rw [nodesAll, ih, flatMap_cons]

theorem nodes_node (b : Body) (cs : List (String × Fragment)) :
    (node b cs).nodes = node b cs :: cs.flatMap fun c => c.2.nodes := by
  rw [nodes, nodesAll_eq]

theorem mem_nodes_node : g ∈ (node b cs).nodes ↔ g = node b cs ∨ ∃ c ∈ cs, g ∈ c.2.nodes := by
  rw [nodes_node, mem_cons, mem_flatMap]

theorem self_mem_nodes (f : Fragment) : f ∈ f.nodes := by
  cases f
  rw [mem_nodes_node]
  exact Or.inl rfl

theorem nodes_of_child (hc : c ∈ f.children) (hg : g ∈ c.2.nodes) : g ∈ f.nodes := by
  cases f
  exact mem_nodes_node.mpr (Or.inr ⟨c, hc, hg⟩)

theorem forall_nodes_node : (∀ g ∈ (node b cs).nodes, P g) ↔ P (node b cs) ∧ ∀ c ∈ cs, ∀ g ∈ c.2.nodes, P g := by
  constructor
  · exact fun h => ⟨h _ (self_mem_nodes _), fun c hc g hg => h g (nodes_of_child hc hg)⟩
  · rintro ⟨htop, hcs⟩ g hg
    rcases mem_nodes_node.mp hg with rfl | ⟨c, hc, hg⟩
    · exact htop
    · exact hcs c hc g hg

theorem mem_nodes_trans (hg : g ∈ f.nodes) (hg' : g' ∈ g.nodes) : g' ∈ f.nodes := by
  induction f with
  | node b cs ih =>
    rcases mem_nodes_node.mp hg with rfl | ⟨c, hc, hg⟩
    · exact hg'
    · exact mem_nodes_node.mpr (Or.inr ⟨c, hc, ih c hc hg⟩)

theorem bodies_eq_map_nodes (f : Fragment) : f.bodies = f.nodes.map body := by
  induction f with
  | node b cs ih =>
    rw [bodies_node, nodes_node, map_cons, body_node, map_flatMap]
    exact congrArg (b :: ·) (flatMap_congr ih)

theorem mem_bodies_iff : x ∈ f.bodies ↔ ∃ g ∈ f.nodes, g.body = x := by
  rw [bodies_eq_map_nodes, mem_map]

/-- The fragment at the end of a path, which gives the position of a child at each step. -/
def at? : List Nat → Fragment → Option Fragment
  | [], f => some f
  | i :: path, f => f.children[i]?.bind fun c => at? path c.2

theorem at?_cons : f.at? (i :: path) = some g ↔ ∃ c, f.children[i]? = some c ∧ c.2.at? path = some g := by
  rw [at?, Option.bind_eq_some_iff]

theorem at?_append {rest : List Nat} (h : f.at? path = some g) : f.at? (path ++ rest) = g.at? rest := by
  induction path generalizing f with
  | nil =>
    cases h
    rfl
  | cons i path ih =>
    obtain ⟨c, hc, h⟩ := at?_cons.mp h
    rw [cons_append, at?, hc, Option.bind_some, ih h]

/-- The fragments of a tree are those at the ends of its paths. -/
theorem mem_nodes_iff_at? : g ∈ f.nodes ↔ ∃ path, f.at? path = some g := by
  induction f with
  | node b cs ih =>
    rw [mem_nodes_node]
    constructor
    · rintro (rfl | ⟨c, hc, hg⟩)
      · exact ⟨[], rfl⟩
      · obtain ⟨i, hi⟩ := mem_iff_getElem?.mp hc
        obtain ⟨path, hpath⟩ := (ih c hc).mp hg
        exact ⟨i :: path, at?_cons.mpr ⟨c, hi, hpath⟩⟩
    · rintro ⟨path, hpath⟩
      cases path with
      | nil =>
        cases hpath
        exact Or.inl rfl
      | cons i path =>
        obtain ⟨c, hi, hg⟩ := at?_cons.mp hpath
        have hc := mem_of_getElem? hi
        exact Or.inr ⟨c, hc, (ih c hc).mpr ⟨path, hg⟩⟩

theorem mem_bodies_of_at? (h : f.at? path = some g) : g.body ∈ f.bodies :=
  mem_bodies_iff.mpr ⟨g, mem_nodes_iff_at?.mpr ⟨path, h⟩, rfl⟩

/-- Two trees of the same form whose bodies are related place by place. -/
def Matches (R : Body → Body → Prop) (f f' : Fragment) : Prop :=
  ∀ path, Option.Rel (fun g g' => R g.body g'.body) (f.at? path) (f'.at? path)

section Matches

variable {R R' : Body → Body → Prop} {f f' f'' : Fragment}
variable {path : List Nat}

theorem Matches.refl (hR : ∀ b, R b b) (f : Fragment) : f.Matches R f := by
  intro path
  cases f.at? path with
  | none => exact .none
  | some => exact .some (hR _)

section

variable (h : f.Matches R f')
include h

/-- Relations between three trees, place by place. -/
theorem Matches.comp {R'' : Body → Body → Prop} (h' : f'.Matches R' f'')
    (hR : ∀ {b b' b''}, R b b' → R' b' b'' → R'' b b'') : f.Matches R'' f'' := by
  intro path
  have hpath := h path
  have hpath' := h' path
  revert hpath hpath'
  generalize f.at? path = x
  generalize f'.at? path = y
  generalize f''.at? path = z
  rintro (hr | -) (hr' | -)
  · exact .some (hR hr hr')
  · exact .none

theorem Matches.trans (hR : ∀ {b b' b''}, R b b' → R b' b'' → R b b'') (h' : f'.Matches R f'') :
    f.Matches R f'' := h.comp h' hR

theorem Matches.symm : f'.Matches (fun b' b => R b b') f := by
  intro path
  have hpath := h path
  revert hpath
  generalize f.at? path = x
  generalize f'.at? path = y
  rintro (hr | -)
  · exact .some hr
  · exact .none

theorem Matches.and (h' : f.Matches R' f') : f.Matches (fun b b' => R b b' ∧ R' b b') f' := by
  intro path
  have hpath := h path
  have hpath' := h' path
  revert hpath hpath'
  generalize f.at? path = x
  generalize f'.at? path = y
  rintro (hr | -) hpath'
  · obtain hr' | - := hpath'
    exact .some ⟨hr, hr'⟩
  · exact .none

theorem Matches.imp (hR : ∀ b ∈ f.bodies, ∀ {b'}, R b b' → R' b b') : f.Matches R' f' := by
  intro path
  have hpath := h path
  have hmem : ∀ g, f.at? path = some g → g.body ∈ f.bodies := fun g => mem_bodies_of_at?
  revert hpath hmem
  generalize f.at? path = x
  generalize f'.at? path = y
  rintro (hr | -) hmem
  · exact .some (hR _ (hmem _ rfl) hr)
  · exact .none

theorem Matches.left (hg' : f'.at? path = some g') :
    ∃ g, f.at? path = some g ∧ R g.body g'.body := by
  have hpath := h path
  rw [hg'] at hpath
  revert hpath
  generalize f.at? path = x
  rintro (hr | -)
  exact ⟨_, rfl, hr⟩

theorem Matches.right (hg : f.at? path = some g) :
    ∃ g', f'.at? path = some g' ∧ R g.body g'.body := by
  have hpath := h path
  rw [hg] at hpath
  revert hpath
  generalize f'.at? path = x
  rintro (hr | -)
  exact ⟨_, rfl, hr⟩

theorem Matches.body : R f.body f'.body := by
  have hself : f.at? [] = some f := rfl
  obtain ⟨g', hg', hr⟩ := h.right hself
  cases hg'
  exact hr

end

/-- Fragments that hold related things, and whose children match place by place, match. -/
theorem Matches.node {b' : Body} {cs' : List (String × Fragment)} (hb : R b b')
    (hcs : List.Forall₂ (fun c c' => c.2.Matches R c'.2) cs cs') : (node b cs).Matches R (node b' cs') := by
  intro path
  cases path with
  | nil => exact .some hb
  | cons i path =>
    have hi := forall₂_getElem? hcs i
    rw [at?, at?, children_node, children_node]
    revert hi
    generalize cs[i]? = x
    generalize cs'[i]? = y
    rintro (hc | -)
    · exact hc path
    · exact .none

/-- What holds of every fragment of a tree, and is handed on by the relation, holds of every fragment of the other. -/
theorem Matches.forall_bodies (h : f.Matches R f') {P P' : Body → Prop} (hf : ∀ b ∈ f.bodies, P b)
    (hR : ∀ {b b'}, P b → R b b' → P' b') : ∀ b' ∈ f'.bodies, P' b' := by
  intro b' hb'
  obtain ⟨g', hg', rfl⟩ := mem_bodies_iff.mp hb'
  obtain ⟨path, hpath⟩ := mem_nodes_iff_at?.mp hg'
  obtain ⟨g, hg, hr⟩ := h.left hpath
  exact hR (hf _ (mem_bodies_of_at? hg)) hr

/-- An edge between a fragment and its child has a partner in a matching tree. -/
theorem Matches.edge (h : f.Matches R f') {c' : String × Fragment} (hg' : g' ∈ f'.nodes) (hc' : c' ∈ g'.children) :
    ∃ g ∈ f.nodes, ∃ c ∈ g.children, R g.body g'.body ∧ R c.2.body c'.2.body := by
  obtain ⟨path, hpath⟩ := mem_nodes_iff_at?.mp hg'
  obtain ⟨i, hi⟩ := mem_iff_getElem?.mp hc'
  obtain ⟨g, hg, hr⟩ := h.left hpath
  have hbelow : f'.at? (path ++ [i]) = some c'.2 := by
    rw [at?_append hpath]
    exact at?_cons.mpr ⟨c', hi, rfl⟩
  obtain ⟨x, hx, hrx⟩ := h.left hbelow
  rw [at?_append hg] at hx
  obtain ⟨c, hc, hcx⟩ := at?_cons.mp hx
  cases hcx
  exact ⟨g, mem_nodes_iff_at?.mpr ⟨path, hg⟩, c, mem_of_getElem? hc, hr, hrx⟩

end Matches

/-- The relation holds between every fragment of the tree and each of its children. -/
def OnEdges (P : Body → Body → Prop) (f : Fragment) : Prop :=
  ∀ g ∈ f.nodes, ∀ c ∈ g.children, P g.body c.2.body

theorem onEdges_node {P : Body → Body → Prop} : (node b cs).OnEdges P ↔ ∀ c ∈ cs, P b c.2.body ∧ c.2.OnEdges P := by
  constructor
  · intro h c hc
    exact ⟨h _ (self_mem_nodes _) c hc, fun g hg => h g (mem_nodes_node.mpr (Or.inr ⟨c, hc, hg⟩))⟩
  · intro h g hg
    rcases mem_nodes_node.mp hg with rfl | ⟨c, hc, hg⟩
    · exact fun c hc => (h c hc).1
    · exact (h c hc).2 g hg

end Fragment
end Rtl
