import Mathlib
import Rtl.Proofs.Nets
import Rtl.Statement.Groups

/-!
# Groups as equivalence classes

What a grouping says is which nets have the same root. A lookup moves pointers, but no root; uniting nets gives the
root of the first to every net that had the root of one of the others. So the nets with the same root are a class of
the least equivalence in which nets that were united are related, and listing the groups lists these classes.
-/
namespace Rtl

open List NetSet

variable {n : Net}

/-- A net with this key. -/
def NetKey.net : NetKey → Net
  | .signal id => .signal id
  | .clock d => .clock d
  | .reset d => .reset d false

@[simp] theorem NetKey.key_net (k : NetKey) : k.net.key = k := by
  cases k with
  | signal => rfl
  | clock => rfl
  | reset => rfl

namespace NetTable

variable {α : Type}

theorem get?_eq_some_iff_mem {t : NetTable α} : (∃ a, t.get? n = some a) ↔ n ∈ (⟨t.keys⟩ : NetSet) := by
  rw [mem_iff, ← contains_iff, contains, get?, Option.isSome_map, find?_isSome]
  simp [keys]

theorem map_fst_setEntry (n : Net) (a : α) (es : List (Net × α)) :
    (⟨(setEntry n a es).map Prod.fst⟩ : NetSet) = (⟨es.map Prod.fst⟩ : NetSet).insert n := by
  induction es with
  | nil => rfl
  | cons e es ih =>
    by_cases he : e.1.key = n.key
    · have hn : n ∈ (⟨(e :: es).map Prod.fst⟩ : NetSet) := mem_iff.mpr ⟨e.1, mem_cons_self, he⟩
      rw [insert_of_mem hn, setEntry, if_pos he]
      rfl
    · rw [setEntry, if_neg he, map_cons, map_cons]
      by_cases hn : n ∈ (⟨es.map Prod.fst⟩ : NetSet)
      · obtain ⟨m, hm, hkey⟩ := mem_iff.mp hn
        have hn' : n ∈ (⟨e.1 :: es.map Prod.fst⟩ : NetSet) :=
          mem_iff.mpr ⟨m, mem_cons_of_mem _ hm, hkey⟩
        rw [insert_of_mem hn] at ih
        rw [insert_of_mem hn', NetSet.mk.inj ih]
      · have hn' : n ∉ (⟨e.1 :: es.map Prod.fst⟩ : NetSet) := by
          intro h
          obtain ⟨m, hm, hkey⟩ := mem_iff.mp h
          cases mem_cons.mp hm with
          | inl hhead => exact he (hhead ▸ hkey)
          | inr htail => exact hn (mem_iff.mpr ⟨m, htail, hkey⟩)
        rw [insert_of_not_mem hn] at ih
        rw [insert_of_not_mem hn', NetSet.mk.inj ih]
        rfl

end NetTable

/-- Of two functions that agree on related elements, merging one value into another relates one more pair. -/
theorem eqvGen_merge {α β : Type} [DecidableEq β] {R : α → α → Prop} {f : α → β}
    (hf : ∀ a b, f a = f b ↔ Relation.EqvGen R a b) (x y a b : α) :
    ((if f a = f y then f x else f a) = if f b = f y then f x else f b) ↔
      Relation.EqvGen (fun c d => R c d ∨ (c = x ∧ d = y)) a b := by
  have hmono {c d : α} (h : f c = f d) : Relation.EqvGen (fun c d => R c d ∨ (c = x ∧ d = y)) c d :=
    Relation.EqvGen.mono (fun _ _ h => Or.inl h) c d ((hf c d).mp h)
  have hedge : Relation.EqvGen (fun c d => R c d ∨ (c = x ∧ d = y)) x y := .rel x y (.inr ⟨rfl, rfl⟩)
  constructor
  · intro h
    by_cases ha : f a = f y
    · by_cases hb : f b = f y
      · exact hmono (ha.trans hb.symm)
      · rw [if_pos ha, if_neg hb] at h
        exact ((hmono ha).trans _ _ _ hedge.symm).trans _ _ _ (hmono h)
    · by_cases hb : f b = f y
      · rw [if_neg ha, if_pos hb] at h
        exact ((hmono h).trans _ _ _ hedge).trans _ _ _ (hmono hb.symm)
      · rw [if_neg ha, if_neg hb] at h
        exact hmono h
  · intro h
    induction h with
    | rel c d h =>
      cases h with
      | inl h => rw [(hf c d).mpr (.rel c d h)]
      | inr h =>
        obtain ⟨rfl, rfl⟩ := h
        rw [if_pos rfl, ite_self]
    | refl => rfl
    | symm c d _ ih => exact ih.symm
    | trans c d e _ _ ih ih' => exact ih.trans ih'

namespace Statement.Grouping

variable {g : Grouping} {n m p root : Net}
variable {k : NetKey}
variable {out : List (NetKey × NetSet)}

section Lookups

theorem find_of_new (h : g.parents.get? n = none) :
    (g.find n).root = n ∧ (g.find n).after = g.point n n (.inl rfl) := by
  rw [find]
  split
  · exact ⟨rfl, rfl⟩
  · rename_i p hp
    rw [h] at hp
    cases hp

theorem find_of_self (h : g.parents.get? n = some p) (hkey : p.key = n.key) :
    (g.find n).root = n ∧ (g.find n).after = g := by
  rw [find]
  split
  · rename_i hnone
    rw [h] at hnone
    cases hnone
  · rename_i q hq
    rw [h] at hq
    cases hq
    rw [dif_pos hkey]
    exact ⟨rfl, rfl⟩

theorem find_of_above (h : g.parents.get? n = some p) (hkey : p.key ≠ n.key) :
    (g.find n).root = (g.find p).root ∧
      (g.find n).after = (g.find p).after.point n (g.find p).root (.inr (g.find p).isRoot) := by
  rw [find]
  split
  · rename_i hnone
    rw [h] at hnone
    cases hnone
  · rename_i q hq
    rw [h] at hq
    cases hq
    rw [dif_neg hkey]
    exact ⟨rfl, rfl⟩

end Lookups

/-- The key of the root of a net. -/
def rep (g : Grouping) (n : Net) : NetKey := (g.find n).root.key

section Roots

theorem rep_of_new (h : g.parents.get? n = none) : g.rep n = n.key := by rw [rep, (find_of_new h).1]

theorem rep_of_isRoot (h : IsRoot g.parents n) : g.rep n = n.key := by
  obtain ⟨p, hp, hkey⟩ := h
  rw [rep, (find_of_self hp hkey).1]

theorem rep_of_get? (h : g.parents.get? n = some p) : g.rep n = g.rep p := by
  by_cases hkey : p.key = n.key
  · have hp : g.parents.get? p = some p := by rw [NetTable.get?_congr hkey, h]
    rw [rep_of_isRoot ⟨p, h, hkey⟩, rep_of_isRoot ⟨p, hp, rfl⟩, hkey]
  · rw [rep, (find_of_above h hkey).1, rep]

theorem rep_congr (h : n.key = m.key) : g.rep n = g.rep m := by
  have hget : g.parents.get? m = g.parents.get? n := (NetTable.get?_congr h).symm
  cases hn : g.parents.get? n with
  | none => rw [rep_of_new hn, rep_of_new (hget.trans hn), h]
  | some => rw [rep_of_get? hn, rep_of_get? (hget.trans hn)]

/-- Roots are known by three rules: a new net and a net that points to itself have themselves, and any other has the
root of the net it points to. -/
theorem rep_unique {f : Net → NetKey} (hnew : ∀ n, g.parents.get? n = none → f n = n.key)
    (hself : ∀ n, IsRoot g.parents n → f n = n.key) (hget : ∀ n p, g.parents.get? n = some p → f n = f p) (n : Net) :
    g.rep n = f n := by
  induction n using g.acyclic.induction with
  | _ n ih
  cases hn : g.parents.get? n with
  | none => rw [rep_of_new hn, hnew n hn]
  | some p =>
    by_cases hkey : p.key = n.key
    · rw [rep_of_isRoot ⟨p, hn, hkey⟩, hself n ⟨p, hn, hkey⟩]
    · rw [rep_of_get? hn, ih p ⟨hn, hkey⟩, hget n p hn]

/-- Pointing a net to a root gives this root to all nets that had the root of the net, if the net was its own root or had
this root. -/
theorem rep_point {h : root.key = n.key ∨ IsRoot g.parents root} (hn : g.rep n = root.key ∨ g.rep n = n.key) (m : Net) :
    (g.point n root h).rep m = if g.rep m = g.rep n then root.key else g.rep m := by
  have hroot : g.rep root = root.key := by
    cases h with
    | inr hroot => exact rep_of_isRoot hroot
    | inl hkey =>
      rw [rep_congr hkey]
      exact hn.elim id fun hn => hn.trans hkey.symm
  have hstays {m : Net} (hne : n.key ≠ m.key) (hm : g.rep m = m.key) :
      (if g.rep m = g.rep n then root.key else g.rep m) = m.key := by
    by_cases hsame : g.rep m = g.rep n
    · rw [if_pos hsame]
      cases hn with
      | inl hn => rw [← hn, ← hsame, hm]
      | inr hn => exact absurd (hn.symm.trans (hsame.symm.trans hm)) hne
    · rw [if_neg hsame, hm]
  refine rep_unique (f := fun m => if g.rep m = g.rep n then root.key else g.rep m) ?_ ?_ ?_ m
  · intro m hm
    rw [point, NetTable.get?_set] at hm
    by_cases hkey : n.key = m.key
    · rw [if_pos hkey] at hm
      cases hm
    · rw [if_neg hkey] at hm
      exact hstays hkey (rep_of_new hm)
  · intro m ⟨p, hp, hpkey⟩
    rw [point, NetTable.get?_set] at hp
    by_cases hkey : n.key = m.key
    · rw [if_pos hkey] at hp
      cases hp
      exact (if_pos (rep_congr hkey.symm)).trans hpkey
    · rw [if_neg hkey] at hp
      exact hstays hkey (rep_of_isRoot ⟨p, hp, hpkey⟩)
  · intro m p hp
    rw [point, NetTable.get?_set] at hp
    by_cases hkey : n.key = m.key
    · rw [if_pos hkey] at hp
      cases hp
      rw [if_pos (rep_congr hkey.symm), hroot, ite_self]
    · rw [if_neg hkey] at hp
      rw [rep_of_get? hp]

/-- A lookup changes no root. -/
theorem rep_find (n m : Net) : (g.find n).after.rep m = g.rep m := by
  have hsame {g' : Grouping} {n r : Net} {h : r.key = n.key ∨ IsRoot g'.parents r} (hr : g'.rep n = r.key) (m : Net) :
      (g'.point n r h).rep m = g'.rep m := by
    rw [rep_point (.inl hr), ← hr]
    exact ite_eq_right_iff.mpr Eq.symm
  induction n using g.acyclic.induction generalizing m with
  | _ n ih
  cases hn : g.parents.get? n with
  | none => rw [(find_of_new hn).2, hsame (rep_of_new hn)]
  | some p =>
    by_cases hkey : p.key = n.key
    · rw [(find_of_self hn hkey).2]
    · have hr : (g.find p).after.rep n = (g.find p).root.key := by rw [ih p ⟨hn, hkey⟩, rep_of_get? hn, rep]
      rw [(find_of_above hn hkey).2, hsame hr, ih p ⟨hn, hkey⟩]

end Roots

/-- The nets that were looked up, in order of first appearance. -/
def nets (g : Grouping) : NetSet := ⟨g.parents.keys⟩

/-- Nets only point to nets that are there, and two nets have the same root if they are related through `R`. -/
structure Classifies (g : Grouping) (R : NetKey → NetKey → Prop) : Prop where
  closed : ∀ n p, g.parents.get? n = some p → p ∈ g.nets
  rep_eq_iff : ∀ n m, g.rep n = g.rep m ↔ Relation.EqvGen R n.key m.key

section Nets

theorem nets_point {h : root.key = n.key ∨ IsRoot g.parents root} : (g.point n root h).nets = g.nets.insert n :=
  NetTable.map_fst_setEntry n root g.parents.entries

theorem mem_nets_of_isRoot (h : IsRoot g.parents n) : n ∈ g.nets := by
  obtain ⟨p, hp, -⟩ := h
  exact NetTable.get?_eq_some_iff_mem.mp ⟨p, hp⟩

theorem closed_point (hclosed : ∀ m p, g.parents.get? m = some p → p ∈ g.nets)
    (h : root.key = n.key ∨ IsRoot g.parents root) (hp : (g.point n root h).parents.get? m = some p) :
    p ∈ (g.point n root h).nets := by
  rw [nets_point, mem_insert]
  rw [point, NetTable.get?_set] at hp
  by_cases hkey : n.key = m.key
  · rw [if_pos hkey] at hp
    cases hp
    cases h with
    | inl hroot => exact .inr hroot.symm
    | inr hroot => exact .inl (mem_nets_of_isRoot hroot)
  · rw [if_neg hkey] at hp
    exact .inl (hclosed m p hp)

/-- A lookup adds the net that is looked up and no other. -/
theorem nets_find (hclosed : ∀ m p, g.parents.get? m = some p → p ∈ g.nets) (n : Net) :
    (g.find n).after.nets = g.nets.insert n ∧
      ∀ m p, (g.find n).after.parents.get? m = some p → p ∈ (g.find n).after.nets := by
  induction n using g.acyclic.induction with
  | _ n ih
  cases hn : g.parents.get? n with
  | none =>
    rw [(find_of_new hn).2]
    exact ⟨nets_point, fun m p => closed_point hclosed (.inl rfl)⟩
  | some p =>
    have hmem : n ∈ g.nets := NetTable.get?_eq_some_iff_mem.mp ⟨p, hn⟩
    by_cases hkey : p.key = n.key
    · rw [(find_of_self hn hkey).2, insert_of_mem hmem]
      exact ⟨rfl, hclosed⟩
    · obtain ⟨hnets, hclosed'⟩ := ih p ⟨hn, hkey⟩
      rw [insert_of_mem (hclosed n p hn)] at hnets
      rw [(find_of_above hn hkey).2]
      refine ⟨?_, fun m p => closed_point hclosed' _⟩
      rw [nets_point, hnets]

end Nets

theorem classifies_empty : empty.Classifies fun _ _ => False := by
  have hnew (n : Net) : empty.parents.get? n = none := rfl
  constructor
  · intro n p hp
    cases hp
  · intro n m
    rw [rep_of_new (hnew n), rep_of_new (hnew m)]
    constructor
    · intro h
      rw [h]
      exact .refl _
    · have hle : Relation.EqvGen (fun _ _ : NetKey => False) ≤ Eq := Relation.EqvGen.eqvGen_le fun _ _ h => h.elim
      exact hle _ _

namespace Classifies

variable {R R' : NetKey → NetKey → Prop}

variable (h : g.Classifies R)
include h

theorem find (n : Net) : (g.find n).after.Classifies R where
  closed := (nets_find h.closed n).2
  rep_eq_iff a b := by
    rw [rep_find, rep_find]
    exact h.rep_eq_iff a b

theorem congr (hle : R ≤ Relation.EqvGen R') (hge : R' ≤ Relation.EqvGen R) :
    g.Classifies R' := by
  refine ⟨h.closed, fun a b => (h.rep_eq_iff a b).trans ⟨?_, ?_⟩⟩
  · exact Relation.EqvGen.eqvGen_le hle _ _
  · exact Relation.EqvGen.eqvGen_le hge _ _

/-- Giving the root of `x` to the nets with the root of `y` relates `x` and `y`. -/
theorem merge {g' : Grouping} (hclosed : ∀ n p, g'.parents.get? n = some p → p ∈ g'.nets)
    (x y : Net) (hrep : ∀ m, g'.rep m = if g.rep m = g.rep y then g.rep x else g.rep m) :
    g'.Classifies fun c d => R c d ∨ (c = x.key ∧ d = y.key) := by
  have hnet (n : Net) : g.rep n = g.rep n.key.net := rep_congr (NetKey.key_net _).symm
  have hkernel (k l : NetKey) : g.rep k.net = g.rep l.net ↔ Relation.EqvGen R k l := by
    rw [h.rep_eq_iff, NetKey.key_net, NetKey.key_net]
  refine ⟨hclosed, fun a b => ?_⟩
  rw [hrep, hrep, hnet a, hnet b, hnet x, hnet y]
  exact eqvGen_merge hkernel x.key y.key a.key b.key

theorem join (hroot : IsRoot g.parents root) {x : Net} (hx : g.rep x = root.key) (ns : List Net) :
    (g.join root hroot ns).Classifies (fun c d => R c d ∨ (c = x.key ∧ ∃ n ∈ ns, d = n.key)) ∧
      (g.join root hroot ns).nets = g.nets.insertAll ns := by
  induction ns generalizing g R with
  | nil => exact ⟨by simpa [Grouping.join] using h, rfl⟩
  | cons n ns ih =>
    have hfound := h.find n
    have hnets : (g.find n).after.nets = g.nets.insert n := (nets_find h.closed n).1
    have hxroot : (g.find n).after.rep x = root.key := by rw [rep_find, hx]
    have hnroot : (g.find n).after.rep n = (g.find n).root.key := rep_find n n
    have hrest {g' : Grouping} (hroot' : IsRoot g'.parents root) (hx' : g'.rep x = root.key)
        (h' : g'.Classifies fun c d => R c d ∨ (c = x.key ∧ d = n.key)) (hnets' : g'.nets = g.nets.insert n) :
        (g'.join root hroot' ns).Classifies (fun c d => R c d ∨ (c = x.key ∧ ∃ m ∈ n :: ns, d = m.key)) ∧
          (g'.join root hroot' ns).nets = g.nets.insertAll (n :: ns) := by
      obtain ⟨hclass, hall⟩ := ih h' hroot' hx'
      refine ⟨?_, by rw [hall, hnets']; rfl⟩
      simpa only [mem_cons, exists_eq_or_imp, and_or_left, or_assoc] using hclass
    rw [Grouping.join]
    by_cases hkey : (g.find n).root.key = root.key
    · rw [if_pos hkey]
      refine hrest _ hxroot (hfound.merge hfound.closed x n fun m => ?_) hnets
      rw [hxroot, hnroot, hkey]
      exact (ite_eq_right_iff.mpr Eq.symm).symm
    · rw [if_neg hkey]
      have hkept := (g.find n).keeps root hroot
      have hself : (g.find n).after.rep (g.find n).root = (g.find n).root.key := rep_of_isRoot (g.find n).isRoot
      have hrep (m : Net) : ((g.find n).after.point (g.find n).root root (.inr hkept)).rep m =
          if (g.find n).after.rep m = (g.find n).after.rep n then (g.find n).after.rep x
          else (g.find n).after.rep m := by
        rw [rep_point (.inr hself), hself, hnroot, hxroot]
      refine hrest _ ?_ (hfound.merge (fun m p => closed_point hfound.closed _) x n hrep) ?_
      · rw [hrep, hxroot, ite_self]
      · rw [nets_point, hnets]
        rw [← hnets]
        exact insert_of_mem (mem_nets_of_isRoot (g.find n).isRoot)

/-- Uniting nets relates all of them. -/
theorem unify (ns : List Net) :
    (g.unify ns).Classifies (fun c d => R c d ∨ ((∃ n ∈ ns, c = n.key) ∧ ∃ n ∈ ns, d = n.key)) ∧
      (g.unify ns).nets = g.nets.insertAll ns := by
  cases ns with
  | nil => exact ⟨by simpa [Grouping.unify] using h, rfl⟩
  | cons n ns =>
    obtain ⟨hclass, hnets⟩ := (h.find n).join (g.find n).isRoot (rep_find n n) ns
    refine ⟨hclass.congr ?_ ?_, ?_⟩
    · intro c d hcd
      refine .rel c d (hcd.imp_right fun ⟨hc, m, hm, hd⟩ => ?_)
      exact ⟨⟨n, mem_cons_self, hc⟩, m, mem_cons_of_mem n hm, hd⟩
    · -- All the others were related to the first, hence to each other.
      have hfirst {m : Net} (hm : m ∈ n :: ns) :
          Relation.EqvGen (fun c d => R c d ∨ (c = n.key ∧ ∃ m ∈ ns, d = m.key)) n.key m.key := by
        cases mem_cons.mp hm with
        | inl hhead =>
          rw [hhead]
          exact .refl _
        | inr htail => exact .rel _ _ (.inr ⟨rfl, m, htail, rfl⟩)
      intro c d hcd
      cases hcd with
      | inl hcd => exact .rel c d (.inl hcd)
      | inr hcd =>
        obtain ⟨⟨a, ha, rfl⟩, b, hb, rfl⟩ := hcd
        exact (hfirst ha).symm.trans _ _ _ (hfirst hb)
    · rw [Grouping.unify, hnets, (nets_find h.closed n).1]
      rfl

/-- Uniting list after list of nets relates the nets of each list. -/
theorem foldl_unify (nss : List (List Net)) :
    (nss.foldl Grouping.unify g).Classifies
        (fun c d => R c d ∨ ∃ ns ∈ nss, (∃ n ∈ ns, c = n.key) ∧ ∃ n ∈ ns, d = n.key) ∧
      (nss.foldl Grouping.unify g).nets = g.nets.insertAll nss.flatten := by
  induction nss generalizing g R with
  | nil => exact ⟨by simpa using h, rfl⟩
  | cons ns nss ih =>
    obtain ⟨hclass, hnets⟩ := h.unify ns
    obtain ⟨hclass', hnets'⟩ := ih hclass
    refine ⟨?_, ?_⟩
    · simpa only [foldl_cons, mem_cons, exists_eq_or_imp, or_assoc] using hclass'
    · rw [foldl_cons, hnets', hnets, flatten_cons, insertAll_append]

end Classifies

/-- Lists of nets sorted by `f`: one list for every value, with the nets of that value, listed by their first nets. -/
structure Sorted (f : Net → NetKey) (ns : List Net) (out : List (NetKey × NetSet)) : Prop where
  members : ∀ e ∈ out, e.2.items = ns.filter fun n => f n = e.1
  nodup : (out.map Prod.fst).Nodup
  mem_iff : ∀ k, k ∈ out.map Prod.fst ↔ ∃ n ∈ ns, f n = k
  firsts : (out.filterMap fun e => e.2.items.head?).Sublist ns

theorem sorted_nil (f : Net → NetKey) : Sorted f [] [] := by
  constructor
  · intro e he
    cases he
  · exact nodup_nil
  · intro k
    simp
  · exact List.Sublist.refl []

theorem addMember_of_not_mem (h : k ∉ out.map Prod.fst) (n : Net) : addMember k n out = out ++ [(k, ⟨[n]⟩)] := by
  induction out with
  | nil => rfl
  | cons e out ih =>
    obtain ⟨hne, hout⟩ := not_or.mp (mem_cons.not.mp h)
    rw [addMember, if_neg (Ne.symm hne), ih hout]
    rfl

theorem addMember_of_mem (hnodup : (out.map Prod.fst).Nodup) (h : k ∈ out.map Prod.fst) (n : Net) :
    addMember k n out = out.map fun e => if e.1 = k then (e.1, e.2.insert n) else e := by
  induction out with
  | nil => cases h
  | cons e out ih =>
    obtain ⟨hnew, hnodup⟩ := nodup_cons.mp hnodup
    rw [addMember, map_cons]
    by_cases hkey : e.1 = k
    · have hrest : out.map (fun e => if e.1 = k then (e.1, e.2.insert n) else e) = out.map id := by
        refine map_congr_left fun e' he' => if_neg fun hkey' => hnew ?_
        rw [hkey, ← hkey']
        exact mem_map_of_mem he'
      rw [if_pos hkey, if_pos hkey, hrest, map_id]
    · rw [if_neg hkey, if_neg hkey, ih hnodup ((mem_cons.mp h).resolve_left (Ne.symm hkey))]

namespace Sorted

variable {f : Net → NetKey} {ns : List Net} {out : List (NetKey × NetSet)}

theorem filter_of_ne (hk : f n ≠ k) : (ns ++ [n]).filter (fun m => f m = k) = ns.filter fun m => f m = k := by
  simp [filter_append, hk]

theorem filter_self : (ns ++ [n]).filter (fun m => f m = f n) = ns.filter (fun m => f m = f n) ++ [n] := by
  simp [filter_append]

theorem add_of_mem (h : Sorted f ns out) (hn : n ∉ (⟨ns⟩ : NetSet)) (hmem : f n ∈ out.map Prod.fst) :
    Sorted f (ns ++ [n]) (out.map fun e => if e.1 = f n then (e.1, e.2.insert n) else e) := by
  have hfst (e : NetKey × NetSet) : (if e.1 = f n then (e.1, e.2.insert n) else e).1 = e.1 := by
    by_cases hkey : e.1 = f n
    · rw [if_pos hkey]
    · rw [if_neg hkey]
  have hfsts : (out.map fun e => if e.1 = f n then (e.1, e.2.insert n) else e).map Prod.fst = out.map Prod.fst := by
    rw [map_map]
    exact map_congr_left fun e _ => hfst e
  have hinsert {e : NetKey × NetSet} (he : e ∈ out) : (e.2.insert n).items = e.2.items ++ [n] := by
    have hnot : n ∉ e.2 := by
      intro hin
      obtain ⟨m, hm, hkey⟩ := NetSet.mem_iff.mp hin
      rw [h.members e he] at hm
      exact hn (NetSet.mem_iff.mpr ⟨m, mem_of_mem_filter hm, hkey⟩)
    rw [NetSet.insert_of_not_mem hnot]
  constructor
  · intro e' he'
    obtain ⟨e, he, rfl⟩ := mem_map.mp he'
    rw [hfst]
    by_cases hkey : e.1 = f n
    · rw [if_pos hkey, hinsert he, h.members e he, hkey, filter_self]
    · rw [if_neg hkey, h.members e he, filter_of_ne (Ne.symm hkey)]
  · rw [hfsts]
    exact h.nodup
  · intro k
    rw [hfsts, h.mem_iff]
    constructor
    · intro ⟨m, hm, hk⟩
      exact ⟨m, mem_append_left _ hm, hk⟩
    · intro ⟨m, hm, hk⟩
      cases mem_append.mp hm with
      | inl hm => exact ⟨m, hm, hk⟩
      | inr hm =>
        rw [mem_singleton.mp hm] at hk
        rw [← hk]
        exact (h.mem_iff (f n)).mp hmem
  · -- A group that is there has a first net already.
    have hhead : ∀ e ∈ out, (if e.1 = f n then (e.1, e.2.insert n) else e).2.items.head? = e.2.items.head? := by
      intro e he
      by_cases hkey : e.1 = f n
      · have hne : e.2.items ≠ [] := by
          obtain ⟨m, hm, hk⟩ := (h.mem_iff e.1).mp (mem_map_of_mem he)
          rw [h.members e he]
          exact ne_nil_of_mem (mem_filter.mpr ⟨hm, decide_eq_true hk⟩)
        rw [if_pos hkey, hinsert he, head?_append_of_ne_nil _ hne]
      · rw [if_neg hkey]
    have hsame : (out.map fun e => if e.1 = f n then (e.1, e.2.insert n) else e).filterMap (fun e => e.2.items.head?) =
        out.filterMap fun e => e.2.items.head? := by
      rw [filterMap_map]
      exact filterMap_congr hhead
    rw [hsame]
    exact h.firsts.trans (sublist_append_left ns [n])

theorem add_of_not_mem (h : Sorted f ns out) (hmem : f n ∉ out.map Prod.fst) :
    Sorted f (ns ++ [n]) (out ++ [(f n, ⟨[n]⟩)]) := by
  constructor
  · intro e he
    cases mem_append.mp he with
    | inl he =>
      have hne : f n ≠ e.1 := fun hkey => hmem (hkey ▸ mem_map_of_mem he)
      rw [filter_of_ne hne, h.members e he]
    | inr he =>
      rw [mem_singleton.mp he]
      have hnone : ns.filter (fun m => f m = f n) = [] := by
        refine filter_eq_nil_iff.mpr fun m hm hk => hmem ?_
        exact (h.mem_iff (f n)).mpr ⟨m, hm, of_decide_eq_true hk⟩
      rw [filter_self, hnone, nil_append]
  · rw [map_append]
    exact nodup_append_comm.mp (nodup_cons.mpr ⟨hmem, h.nodup⟩)
  · intro k
    simp only [map_append, mem_append, h.mem_iff, map_cons, map_nil, mem_singleton, or_and_right,
      exists_or, exists_eq_left]
    rw [eq_comm (a := k)]
  · rw [filterMap_append]
    exact h.firsts.append (List.Sublist.refl [n])

theorem add (h : Sorted f ns out) (hn : n ∉ (⟨ns⟩ : NetSet)) : Sorted f (ns ++ [n]) (addMember (f n) n out) := by
  by_cases hmem : f n ∈ out.map Prod.fst
  · rw [addMember_of_mem h.nodup hmem]
    exact h.add_of_mem hn hmem
  · rw [addMember_of_not_mem hmem]
    exact h.add_of_not_mem hmem

/-- Looking up one net after the other sorts them by their roots. -/
theorem collect (h : Sorted g.rep ns out) {ms : List Net} (hnodup : ((ns ++ ms).map Net.key).Nodup) :
    Sorted g.rep (ns ++ ms) (g.collect out ms).2 := by
  obtain ⟨f, hf⟩ : ∃ f, f = g.rep := ⟨_, rfl⟩
  rw [← hf] at h ⊢
  induction ms generalizing g ns out with
  | nil =>
    rw [append_nil]
    exact h
  | cons n ms ih =>
    have hn : n ∉ (⟨ns⟩ : NetSet) := by
      intro hin
      obtain ⟨m, hm, hkey⟩ := NetSet.mem_iff.mp hin
      rw [map_append, nodup_append] at hnodup
      exact hnodup.2.2 _ (mem_map_of_mem hm) _ mem_cons_self hkey
    have hafter : f = (g.find n).after.rep := by
      rw [hf]
      exact funext fun m => (rep_find n m).symm
    have hadd := h.add hn
    rw [hf] at hadd
    rw [append_cons] at hnodup ⊢
    exact ih hnodup (hf ▸ hadd) hafter

end Sorted

/-- The sets are the classes that an equivalence makes of the nets of `all`. Each lists its nets in the order of `all`,
and the sets are in the order of their first nets. -/
structure Classes (E : NetKey → NetKey → Prop) (all : NetSet) (sets : List NetSet) : Prop where
  cover : ∀ n, n ∈ all ↔ ∃ s ∈ sets, n ∈ s
  related : ∀ s ∈ sets, ∀ n ∈ s, ∀ m, m ∈ s ↔ m ∈ all ∧ E n.key m.key
  disjoint : sets.Pairwise fun s t => ∀ n, n ∈ s → n ∉ t
  nonempty : ∀ s ∈ sets, s.items ≠ []
  inOrder : ∀ s ∈ sets, s.items.Sublist all.items
  firsts : (sets.filterMap fun s => s.items.head?).Sublist all.items

theorem Classifies.groups {R : NetKey → NetKey → Prop} (h : g.Classifies R) (hnodup : (g.nets.items.map Net.key).Nodup) :
    Classes (Relation.EqvGen R) g.nets g.groups.2 := by
  have hsorted : Sorted g.rep g.nets.items (g.collect [] g.parents.keys).2 := (sorted_nil g.rep).collect hnodup
  rw [show g.groups.2 = (g.collect [] g.parents.keys).2.map Prod.snd from rfl]
  obtain ⟨out, hout⟩ : ∃ out, out = (g.collect [] g.parents.keys).2 := ⟨_, rfl⟩
  rw [← hout] at hsorted ⊢
  have hmem {e : NetKey × NetSet} (he : e ∈ out) (n : Net) : n ∈ e.2 ↔ n ∈ g.nets ∧ g.rep n = e.1 := by
    simp only [mem_iff, hsorted.members e he, mem_filter, decide_eq_true_eq]
    constructor
    · intro ⟨m, ⟨hm, hrep⟩, hkey⟩
      exact ⟨⟨m, hm, hkey⟩, (rep_congr hkey).symm.trans hrep⟩
    · intro ⟨⟨m, hm, hkey⟩, hrep⟩
      exact ⟨m, ⟨hm, (rep_congr hkey).trans hrep⟩, hkey⟩
  constructor
  · intro n
    constructor
    · intro hn
      obtain ⟨m, hm, hkey⟩ := mem_iff.mp hn
      obtain ⟨e, he, hrep⟩ := mem_map.mp ((hsorted.mem_iff (g.rep m)).mpr ⟨m, hm, rfl⟩)
      exact ⟨e.2, mem_map_of_mem he, (hmem he n).mpr ⟨hn, (rep_congr hkey).symm.trans hrep.symm⟩⟩
    · intro ⟨s, hs, hn⟩
      obtain ⟨e, he, rfl⟩ := mem_map.mp hs
      exact ((hmem he n).mp hn).1
  · rw [forall_mem_map]
    intro e he n hn m
    rw [hmem he, ← h.rep_eq_iff, ((hmem he n).mp hn).2, eq_comm (a := e.1)]
  · rw [pairwise_map]
    refine (pairwise_map.mp hsorted.nodup).imp_of_mem fun {e e'} he he' hne n hn hn' => hne ?_
    rw [← ((hmem he n).mp hn).2, ((hmem he' n).mp hn').2]
  · rw [forall_mem_map]
    intro e he
    obtain ⟨m, hm, hrep⟩ := (hsorted.mem_iff e.1).mp (mem_map_of_mem he)
    rw [hsorted.members e he]
    exact ne_nil_of_mem (mem_filter.mpr ⟨hm, decide_eq_true hrep⟩)
  · rw [forall_mem_map]
    intro e he
    rw [hsorted.members e he]
    exact filter_sublist
  · rw [filterMap_map]
    exact hsorted.firsts

end Statement.Grouping
end Rtl
