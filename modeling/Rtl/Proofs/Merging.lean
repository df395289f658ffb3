import Mathlib
import Rtl.Fragment.Conflicts
import Rtl.Proofs.Nets
import Rtl.Proofs.Tree

/-!
# Merging fragments into their parents

A fragment that is merged hands its drivers and its statements to its parent and leaves the tree. Seen as lists of
bodies, resolving a tree is a sequence of such takeovers and of changes of order, and what is conserved along the
sequence is conserved by the resolution.
-/
namespace Rtl

open List

variable {l1 l2 : List Body} {cs : List (String × Fragment)}

namespace Body

variable {b : Body} {n : Net} {d : String}
variable {sub : Body} {domain : String} {e : String × Net} {es : List (String × Net)}

/-- The driver table of the fragment has the net in the domain. -/
def Drives (b : Body) (domain : String) (n : Net) : Prop := ∃ e ∈ b.drivers, e.1 = domain ∧ n ∈ e.2

theorem drives_iff : b.Drives domain n ↔ ∃ e ∈ b.driverPairs, e.1 = domain ∧ e.2.key = n.key := by
  unfold Drives driverPairs
  simp only [mem_flatMap, mem_map]
  constructor
  · rintro ⟨e, he, hd, hn⟩
    obtain ⟨m, hm, hk⟩ := NetSet.mem_iff.mp hn
    exact ⟨(e.1, m), ⟨e, he, m, hm, rfl⟩, hd, hk⟩
  · rintro ⟨p, ⟨e, he, m, hm, rfl⟩, hd, hk⟩
    exact ⟨e, he, hd, NetSet.mem_iff.mpr ⟨m, hm, hk⟩⟩

theorem exists_insertDriver {ns : List Net} (es : List (String × NetSet)) :
    (∃ e ∈ insertDriver domain ns es, e.1 = d ∧ n ∈ e.2) ↔
      (∃ e ∈ es, e.1 = d ∧ n ∈ e.2) ∨ domain = d ∧ ∃ m ∈ ns, m.key = n.key := by
  induction es with
  | nil => simp [insertDriver]
  | cons e es ih =>
    rw [insertDriver]
    split
    · rename_i he
      simp only [mem_cons, exists_eq_or_imp, NetSet.mem_insertAll, he, and_or_left, or_assoc]
      exact or_congr_right or_comm
    · simp only [mem_cons, exists_eq_or_imp]
      rw [ih, or_assoc]

theorem addDriver_drives {m : Net} : (b.addDriver domain m).Drives d n ↔ b.Drives d n ∨ domain = d ∧ m.key = n.key := by
  unfold Drives addDriver addDrivers
  rw [exists_insertDriver]
  simp

theorem addDriverPairs_drives (es : List (String × Net)) :
    (es.foldl (fun b e => b.addDriver e.1 e.2) b).Drives d n ↔
      b.Drives d n ∨ ∃ e ∈ es, e.1 = d ∧ e.2.key = n.key := by
  induction es generalizing b with
  | nil => simp
  | cons e es ih =>
    rw [foldl_cons, ih, addDriver_drives]
    simp only [mem_cons, exists_eq_or_imp, or_assoc]

theorem mem_driverPairs : e ∈ b.driverPairs ↔ ∃ ds ∈ b.drivers, ds.1 = e.1 ∧ e.2 ∈ ds.2.items := by
  unfold driverPairs
  rw [mem_flatMap]
  constructor
  · rintro ⟨ds, hds, he⟩
    obtain ⟨n, hn, rfl⟩ := mem_map.mp he
    exact ⟨ds, hds, rfl, hn⟩
  · rintro ⟨ds, hds, hd, hn⟩
    exact ⟨ds, hds, mem_map.mpr ⟨e.2, hn, by rw [hd]⟩⟩

theorem mem_insert_items {s : NetSet} {m : Net} (h : m ∈ (s.insert n).items) : m ∈ s.items ∨ m = n := by
  unfold NetSet.insert at h
  split at h
  · exact Or.inl h
  · exact (mem_append.mp h).imp_right mem_singleton.mp

theorem mem_driverPairs_addDriver (h : e ∈ (b.addDriver d n).driverPairs) :
    e ∈ b.driverPairs ∨ e = (d, n) := by
  rw [mem_driverPairs] at h ⊢
  obtain ⟨ds, hds, hd, hn⟩ := h
  change ds ∈ insertDriver d [n] b.drivers at hds
  generalize b.drivers = all at hds ⊢
  induction all with
  | nil =>
    obtain rfl := mem_singleton.mp hds
    change e.2 ∈ (NetSet.empty.insert n).items at hn
    rcases mem_insert_items hn with hn | hn
    · cases hn
    · exact Or.inr (Prod.ext hd.symm hn)
  | cons x all ih =>
    obtain ⟨d', s⟩ := x
    rw [insertDriver] at hds
    split at hds
    · rename_i hdd
      rcases mem_cons.mp hds with rfl | hds
      · rcases mem_insert_items hn with hn | hn
        · exact Or.inl ⟨_, mem_cons_self, hd, hn⟩
        · exact Or.inr (Prod.ext (hd.symm.trans hdd) hn)
      · exact Or.inl ⟨ds, mem_cons_of_mem _ hds, hd, hn⟩
    · rcases mem_cons.mp hds with rfl | hds
      · exact Or.inl ⟨_, mem_cons_self, hd, hn⟩
      · rcases ih hds with ⟨ds', hds', h'⟩ | h'
        · exact Or.inl ⟨ds', mem_cons_of_mem _ hds', h'⟩
        · exact Or.inr h'

theorem mem_driverPairs_foldl {p : String × Net}
    (h : p ∈ (es.foldl (fun b e => b.addDriver e.1 e.2) b).driverPairs) : p ∈ b.driverPairs ∨ p ∈ es := by
  induction es generalizing b with
  | nil => exact Or.inl h
  | cons e es ih =>
    rcases ih h with h | h
    · rcases mem_driverPairs_addDriver h with h | rfl
      · exact Or.inl h
      · exact Or.inr mem_cons_self
    · exact Or.inr (mem_cons_of_mem _ h)

theorem mem_driverDomains_addDriver : d ∈ (b.addDriver domain n).driverDomains ↔ d ∈ b.driverDomains ∨ domain = d := by
  change d ∈ (insertDriver domain [n] b.drivers).map Prod.fst ↔ d ∈ b.drivers.map Prod.fst ∨ domain = d
  induction b.drivers with
  | nil => simp [insertDriver, eq_comm]
  | cons e es ih =>
    rw [insertDriver]
    split
    · rename_i he
      simp only [map_cons, mem_cons, he, eq_comm]
      tauto
    · simp only [map_cons, mem_cons, ih, or_assoc]

theorem mem_driverDomains_foldl :
    d ∈ (es.foldl (fun b e => b.addDriver e.1 e.2) b).driverDomains ↔ d ∈ b.driverDomains ∨ ∃ e ∈ es, e.1 = d := by
  induction es generalizing b with
  | nil => simp
  | cons e es ih =>
    rw [foldl_cons, ih, mem_driverDomains_addDriver]
    simp only [mem_cons, exists_eq_or_imp, or_assoc]

theorem foldl_addPort (es : List (Net × Direction)) (b : Body) :
    es.foldl (fun b e => b.addPort e.2 e.1) b = { b with ports := es.foldl (fun t e => t.set e.1 e.2) b.ports } := by
  induction es generalizing b with
  | nil => rfl
  | cons e es ih => rw [foldl_cons, ih]; rfl

theorem foldl_addDriver (es : List (String × Net)) (b : Body) :
    es.foldl (fun b e => b.addDriver e.1 e.2) b =
      { b with drivers := es.foldl (fun ds e => insertDriver e.1 [e.2] ds) b.drivers } := by
  induction es generalizing b with
  | nil => rfl
  | cons e es ih => rw [foldl_cons, ih]; rfl

theorem merge_eq (b sub : Body) : b.merge sub = { b with
    ports := sub.ports.entries.foldl (fun t e => t.set e.1 e.2) b.ports
    drivers := sub.driverPairs.foldl (fun ds e => insertDriver e.1 [e.2] ds) b.drivers
    statements := b.statements ++ sub.statements } := by
  simp only [merge, foldl_addPort, foldl_addDriver, addStatements]

@[simp] theorem merge_statements (b sub : Body) : (b.merge sub).statements = b.statements ++ sub.statements := by
  rw [merge_eq]

@[simp] theorem merge_domains (b sub : Body) : (b.merge sub).domains = b.domains := by rw [merge_eq]

@[simp] theorem merge_cell (b sub : Body) : (b.merge sub).cell = b.cell := by rw [merge_eq]

theorem merge_ports (h : sub.ports = .empty) : (b.merge sub).ports = b.ports := by
  rw [merge_eq, h]
  rfl

theorem merge_drives : (b.merge sub).Drives d n ↔ b.Drives d n ∨ sub.Drives d n := by
  have hdrivers : (b.merge sub).drivers = (sub.driverPairs.foldl (fun b e => b.addDriver e.1 e.2) b).drivers := by
    rw [merge_eq, foldl_addDriver]
  rw [sub.drives_iff, ← addDriverPairs_drives]
  unfold Drives
  rw [hdrivers]

theorem merge_driverPairs (h : e ∈ (b.merge sub).driverPairs) :
    e ∈ b.driverPairs ∨ e ∈ sub.driverPairs := by
  refine mem_driverPairs_foldl ?_
  rw [foldl_addDriver]
  rw [merge_eq] at h
  exact h

/-- Of the domains that a fragment lists for its drivers only those with drivers are taken over. -/
theorem mem_driverDomains_merge : d ∈ (b.merge sub).driverDomains ↔ d ∈ b.driverDomains ∨ ∃ n, sub.Drives d n := by
  have hmerge : (b.merge sub).driverDomains =
      (sub.driverPairs.foldl (fun b e => b.addDriver e.1 e.2) b).driverDomains := by
    rw [merge_eq, foldl_addDriver]
    rfl
  rw [hmerge, mem_driverDomains_foldl]
  refine or_congr_right ?_
  constructor
  · rintro ⟨e, he, rfl⟩
    exact ⟨e.2, drives_iff.mpr ⟨e, he, rfl, rfl⟩⟩
  · rintro ⟨n, hn⟩
    obtain ⟨e, he, hd, -⟩ := drives_iff.mp hn
    exact ⟨e, he, hd⟩

/-- The body is the host's after it took over some others. -/
structure Gathers (host : Body) (taken : List Body) (b : Body) : Prop where
  domains : b.domains = host.domains
  cell : b.cell = host.cell
  statements : b.statements = host.statements ++ taken.flatMap Body.statements
  pairs : ∀ e ∈ b.driverPairs, e ∈ host.driverPairs ∨ ∃ x ∈ taken, e ∈ x.driverPairs
  drives : ∀ d n, b.Drives d n ↔ host.Drives d n ∨ ∃ x ∈ taken, x.Drives d n
  used : ∀ d, d ∈ b.driverDomains ↔ d ∈ host.driverDomains ∨ ∃ x ∈ taken, ∃ n, x.Drives d n

theorem Gathers.self (b : Body) : b.Gathers [] b := by
  constructor <;> simp

theorem Gathers.merge {host host' : Body} {taken taken' : List Body} (h : host.Gathers taken b)
    (h' : host'.Gathers taken' sub) : host.Gathers (taken ++ host' :: taken') (b.merge sub) where
  domains := (b.merge_domains sub).trans h.domains
  cell := (b.merge_cell sub).trans h.cell
  statements := by simp [h.statements, h'.statements]
  pairs := by
    intro e he
    rcases merge_driverPairs he with he | he
    · rcases h.pairs e he with he | ⟨x, hx, he⟩
      · exact Or.inl he
      · exact Or.inr ⟨x, by simp [hx], he⟩
    · rcases h'.pairs e he with he | ⟨x, hx, he⟩
      · exact Or.inr ⟨host', by simp, he⟩
      · exact Or.inr ⟨x, by simp [hx], he⟩
  drives := by
    intro d n
    rw [merge_drives, h.drives, h'.drives]
    simp only [mem_append, mem_cons, or_and_right, exists_or, exists_eq_left, or_assoc]
  used := by
    intro d
    rw [mem_driverDomains_merge, h.used]
    simp only [h'.drives, mem_append, mem_cons, or_and_right, exists_or, exists_eq_left, or_assoc]
    refine or_congr_right (or_congr_right (or_congr_right ?_))
    exact ⟨fun ⟨n, x, hx, hn⟩ => ⟨x, hx, n, hn⟩, fun ⟨x, hx, n, hn⟩ => ⟨n, x, hx, hn⟩⟩

/-- A relation between bodies that looks at their tables of domains, and at whether the upper one is a cell, and passes
down through several levels. -/
structure Tabular (R : Body → Body → Prop) : Prop where
  congr : ∀ {b b' x x'}, b.domains = b'.domains → b.cell = b'.cell → x.domains = x'.domains → R b x → R b' x'
  trans : ∀ {b x y}, R b x → R x y → R b y

theorem tabular_any : Tabular fun _ _ => True := ⟨fun _ _ _ _ => trivial, fun _ _ => trivial⟩

end Body

/-- One step between lists of bodies: a change of order, or a takeover that `R` admits. -/
inductive Absorbs (R : Body → Body → Prop) : List Body → List Body → Prop
  | reorder {l l' : List Body} (h : l.Perm l') : Absorbs R l l'
  | merge (b sub : Body) (l : List Body) (h : R b sub) : Absorbs R (b :: sub :: l) (b.merge sub :: l)

/-- The second list comes from the first by changes of order and admitted takeovers. -/
def Gathered (R : Body → Body → Prop) : List Body → List Body → Prop := Relation.ReflTransGen (Absorbs R)

namespace Gathered

variable {R : Body → Body → Prop}
variable {l l' : List Body}

theorem refl (l : List Body) : Gathered R l l := Relation.ReflTransGen.refl

theorem trans {l3 : List Body} (h : Gathered R l1 l2) (h' : Gathered R l2 l3) : Gathered R l1 l3 :=
  Relation.ReflTransGen.trans h h'

theorem of_perm (h : l.Perm l') : Gathered R l l' := .single (.reorder h)

theorem append_right (h : Gathered R l l') (m : List Body) : Gathered R (l ++ m) (l' ++ m) := by
  induction h with
  | refl => exact .refl _
  | tail _ hs ih =>
    refine ih.trans (.single ?_)
    cases hs with
    | reorder hp => exact .reorder (hp.append_right m)
    | merge b sub l hr => exact .merge b sub (l ++ m) hr

theorem append_left (m : List Body) (h : Gathered R l l') : Gathered R (m ++ l) (m ++ l') :=
  ((of_perm perm_append_comm).trans (h.append_right m)).trans (of_perm perm_append_comm)

theorem append {l1' l2' : List Body} (h1 : Gathered R l1 l1') (h2 : Gathered R l2 l2') :
    Gathered R (l1 ++ l2) (l1' ++ l2') := (h1.append_right l2).trans (append_left l1' h2)

theorem flatMap {cs' : List (String × Fragment)}
    (h : List.Forall₂ (fun c c' => Gathered R c.2.bodies c'.2.bodies) cs cs') :
    Gathered R (cs.flatMap fun c => c.2.bodies) (cs'.flatMap fun c => c.2.bodies) := by
  induction h with
  | nil => exact .refl _
  | cons hc _ ih => exact hc.append ih

/-- Several takeovers by one body, as long as one does not keep it from the next. -/
theorem mergeAll (hkeep : ∀ {b sub s}, R b s → R (b.merge sub) s) (b : Body) (subs l : List Body)
    (h : ∀ s ∈ subs, R b s) : Gathered R (b :: (subs ++ l)) (subs.foldl Body.merge b :: l) := by
  induction subs generalizing b with
  | nil => exact .refl _
  | cons s subs ih =>
    obtain ⟨hs, hsubs⟩ := forall_mem_cons.mp h
    exact trans (.single (.merge b s (subs ++ l) hs)) (ih (b.merge s) fun x hx => hkeep (hsubs x hx))

variable (h : Gathered R l l')
include h

/-- What holds of all bodies and passes from two bodies to their merger holds of all that was gathered. -/
theorem forall_mem {P : Body → Prop} (hmerge : ∀ b sub, R b sub → P b → P sub → P (b.merge sub))
    (hl : ∀ b ∈ l, P b) : ∀ b ∈ l', P b := by
  induction h with
  | refl => exact hl
  | tail _ hs ih =>
    cases hs with
    | reorder hp => exact fun b hb => ih b (hp.mem_iff.mpr hb)
    | merge b sub l hr =>
      obtain ⟨hb, ih⟩ := forall_mem_cons.mp ih
      obtain ⟨hsub, hl⟩ := forall_mem_cons.mp ih
      exact forall_mem_cons.mpr ⟨hmerge b sub hr hb hsub, hl⟩

/-- Each body is that of a host, and every former body is a host or was taken over by one, exactly once. The host
stands in the relation to all that it took over. -/
theorem groups (hR : Body.Tabular R) :
    ∃ groups : List (Body × List Body), (groups.flatMap fun p => p.1 :: p.2).Perm l ∧
      List.Forall₂ (fun p b => p.1.Gathers p.2 b) groups l' ∧ ∀ p ∈ groups, ∀ x ∈ p.2, R p.1 x := by
  induction h with
  | refl =>
    refine ⟨l.map fun b => (b, []), ?_, ?_, ?_⟩
    · rw [flatMap_map, flatMap_singleton']
    · rw [forall₂_map_left_iff, forall₂_same]
      exact fun b _ => .self b
    · intro p hp x hx
      obtain ⟨b, -, rfl⟩ := mem_map.mp hp
      cases hx
  | tail _ hs ih =>
    obtain ⟨groups, hperm, hgathers, hrel⟩ := ih
    cases hs with
    | reorder hl =>
      obtain ⟨groups', hgathers', hperm'⟩ := perm_comp_forall₂ hl.symm (List.Forall₂.flip hgathers)
      exact ⟨groups', (hperm'.flatMap_right _).trans hperm, List.Forall₂.flip hgathers',
        fun p hp => hrel p (hperm'.mem_iff.mp hp)⟩
    | merge b sub l hr =>
      obtain ⟨p, gs, hb, hgs, rfl⟩ := forall₂_cons_right_iff.mp hgathers
      obtain ⟨q, rest, hsub, hrest, rfl⟩ := forall₂_cons_right_iff.mp hgs
      have hhosts : R p.1 q.1 := hR.congr hb.domains hb.cell hsub.domains hr
      refine ⟨(p.1, p.2 ++ q.1 :: q.2) :: rest, ?_, .cons (hb.merge hsub) hrest, ?_⟩
      · simpa [append_assoc] using hperm
      · obtain ⟨hp, hrel⟩ := forall_mem_cons.mp hrel
        obtain ⟨hq, hrel⟩ := forall_mem_cons.mp hrel
        refine forall_mem_cons.mpr ⟨?_, hrel⟩
        intro x hx
        rcases mem_append.mp hx with hx | hx
        · exact hp x hx
        · rcases mem_cons.mp hx with rfl | hx
          · exact hhosts
          · exact hR.trans hhosts (hq x hx)

theorem mono {S : Body → Body → Prop} (hS : ∀ b sub, R b sub → S b sub) : Gathered S l l' := by
  refine Relation.ReflTransGen.mono ?_ _ _ h
  rintro _ _ (hp | ⟨b, sub, l, hr⟩)
  · exact .reorder hp
  · exact .merge b sub l (hS b sub hr)

/-- Each body's statements are those of some of the former bodies one after the other, and every former body is
taken exactly once. -/
theorem statements_grouped :
    ∃ groups : List (List Body), groups.flatten.Perm l ∧
      List.Forall₂ (fun g b => b.statements = g.flatMap Body.statements) groups l' := by
  obtain ⟨groups, hperm, hgathers, -⟩ := (h.mono fun _ _ _ => trivial).groups Body.tabular_any
  refine ⟨groups.map fun p => p.1 :: p.2, flatMap_def ▸ hperm, ?_⟩
  rw [forall₂_map_left_iff]
  exact hgathers.imp fun _ _ h => h.statements

theorem length_le : l'.length ≤ l.length := by
  induction h with
  | refl => exact le_rfl
  | tail _ hs ih =>
    refine le_trans ?_ ih
    cases hs with
    | reorder hp => exact hp.length_eq.ge
    | merge => simp

theorem statements_perm : (l'.flatMap Body.statements).Perm (l.flatMap Body.statements) := by
  induction h with
  | refl => exact List.Perm.refl _
  | tail _ hs ih =>
    refine List.Perm.trans ?_ ih
    cases hs with
    | reorder hp => exact (hp.flatMap_right _).symm
    | merge => simp only [flatMap_cons, Body.merge_statements, append_assoc, List.Perm.refl]

theorem drives_iff {d : String} {n : Net} : (∃ b ∈ l', b.Drives d n) ↔ ∃ b ∈ l, b.Drives d n := by
  induction h with
  | refl => exact Iff.rfl
  | tail _ hs ih =>
    rw [← ih]
    cases hs with
    | reorder hp => simp only [hp.mem_iff]
    | merge =>
      simp only [mem_cons, exists_eq_or_imp, Body.merge_drives, or_assoc]

end Gathered

namespace Fragment

variable {positions : List Nat}

theorem without_eq (cs : List (String × Fragment)) (p : Nat) :
    without positions p cs = ((cs.zipIdx p).filter fun x => !positions.contains x.2).map Prod.fst := by
  induction cs generalizing p with
  | nil => rfl
  | cons c cs ih =>
    rw [without, zipIdx_cons, filter_cons, ih]
    by_cases h : positions.contains p = true
    · rw [if_pos h, if_neg (by simpa using h)]
    · rw [if_neg h, if_pos (by simpa using h), map_cons]

theorem chosen_perm (hp : positions.Nodup) (cs : List (String × Fragment)) :
    (positions.filterMap fun i => cs[i]?.map fun c => (c, i)).Perm
      (cs.zipIdx.filter fun x => positions.contains x.2) := by
  have hzip : cs.zipIdx.Nodup := by
    apply List.Nodup.of_map Prod.snd
    rw [zipIdx_map_snd]
    exact nodup_range'
  have hchosen : (positions.filterMap fun i => cs[i]?.map fun c => (c, i)).Nodup := by
    refine hp.filterMap ?_
    intro i j x hi hj
    obtain ⟨c, -, hc⟩ := Option.map_eq_some_iff.mp hi
    obtain ⟨c', -, hc'⟩ := Option.map_eq_some_iff.mp hj
    rw [← hc, Prod.mk.injEq] at hc'
    exact hc'.2.symm
  rw [perm_ext_iff_of_nodup hchosen (hzip.filter _)]
  rintro ⟨c, i⟩
  simp only [mem_filterMap, Option.map_eq_some_iff, mem_filter, mem_zipIdx_iff_getElem?,
    contains_iff_mem, Prod.mk.injEq]
  constructor
  · rintro ⟨j, hj, c', hc, rfl, rfl⟩
    exact ⟨hc, hj⟩
  · rintro ⟨hc, hi⟩
    exact ⟨i, hi, c, hc, rfl, rfl⟩

theorem byLabel_perm (cs : List (String × Fragment)) (positions : List Nat) :
    (byLabel cs positions).Perm (positions.filterMap fun i => cs[i]?.map Prod.snd) := by
  unfold byLabel
  refine ((mergeSort_perm _ _).map Prod.snd).trans (List.Perm.of_eq ?_)
  rw [map_filterMap]
  congr 1
  funext i
  rw [Option.map_map]
  rfl

theorem mem_byLabel {f : Fragment} : f ∈ byLabel cs positions ↔ ∃ i ∈ positions, ∃ c, cs[i]? = some c ∧ c.2 = f := by
  rw [(byLabel_perm cs positions).mem_iff]
  simp only [mem_filterMap, Option.map_eq_some_iff]

/-- The children that are merged and those that stay are all the children. -/
theorem byLabel_append_without_perm (hp : positions.Nodup) (cs : List (String × Fragment)) :
    (byLabel cs positions ++ (without positions 0 cs).map Prod.snd).Perm (cs.map Prod.snd) := by
  have hchosen : (byLabel cs positions).Perm
      (((cs.zipIdx.filter fun x => positions.contains x.2).map Prod.fst).map Prod.snd) := by
    refine (byLabel_perm cs positions).trans (List.Perm.trans (List.Perm.of_eq ?_)
      (((chosen_perm hp cs).map Prod.fst).map Prod.snd))
    rw [map_filterMap, map_filterMap]
    congr 1
    funext i
    rw [Option.map_map, Option.map_map]
    rfl
  rw [without_eq]
  refine (hchosen.append_right _).trans ?_
  rw [← map_append, ← map_append]
  refine (((filter_append_perm _ _).map Prod.fst).map Prod.snd).trans (List.Perm.of_eq ?_)
  rw [zipIdx_map_fst]

/-- The bodies before a merger: those that are taken over, and all others. -/
theorem bodies_perm_of_positions (hp : positions.Nodup) (b : Body) (cs : List (String × Fragment)) :
    (node b cs).bodies.Perm (b :: ((byLabel cs positions).map body ++
      (without positions 0 cs ++ (byLabel cs positions).flatMap children).flatMap fun c => c.2.bodies)) := by
  have hsplit : ∀ f : Fragment, f.bodies = f.body :: f.children.flatMap fun c => c.2.bodies := by
    intro f
    cases f
    exact bodies_node _ _
  have hmerged : ((byLabel cs positions).flatMap bodies).Perm
      ((byLabel cs positions).map body ++ ((byLabel cs positions).flatMap children).flatMap fun c => c.2.bodies) := by
    rw [flatMap_congr fun f _ => hsplit f, flatMap_assoc]
    exact (map_append_flatMap_perm _ _ _).symm
  have hall : (cs.flatMap fun c => c.2.bodies).Perm ((byLabel cs positions).flatMap bodies ++
      (without positions 0 cs).flatMap fun c => c.2.bodies) := by
    have h := (byLabel_append_without_perm hp cs).flatMap_right bodies
    rw [flatMap_append, flatMap_map, flatMap_map] at h
    exact h.symm
  rw [bodies_node, flatMap_append]
  refine List.Perm.cons b (hall.trans ((hmerged.append_right _).trans ?_))
  rw [append_assoc]
  exact perm_append_comm.append_left _

theorem mergeChildren_bodies (b : Body) (cs : List (String × Fragment)) (positions : List Nat) :
    (mergeChildren b cs positions).bodies = ((byLabel cs positions).map body).foldl Body.merge b ::
      (without positions 0 cs ++ (byLabel cs positions).flatMap children).flatMap fun c => c.2.bodies := by
  rw [mergeChildren, bodies_node, foldl_map]

/-- The top of a merged tree keeps everything but ports, drivers and statements. -/
theorem mergeChildren_body (b : Body) (cs : List (String × Fragment)) (positions : List Nat) :
    (mergeChildren b cs positions).body.domains = b.domains ∧ (mergeChildren b cs positions).body.cell = b.cell := by
  have hfold : ∀ (fs : List Fragment) (b : Body), (fs.foldl (fun b f => b.merge f.body) b).domains = b.domains ∧
      (fs.foldl (fun b f => b.merge f.body) b).cell = b.cell := by
    intro fs
    induction fs with
    | nil => exact fun b => ⟨rfl, rfl⟩
    | cons f fs ih =>
      intro b
      obtain ⟨hd, hc⟩ := ih (b.merge f.body)
      exact ⟨hd.trans (b.merge_domains _), hc.trans (b.merge_cell _)⟩
  exact hfold _ b

/-- The children of a merged tree were children or grandchildren before. -/
theorem mem_mergeChildren_children {b : Body} {c : String × Fragment} (hc : c ∈ (mergeChildren b cs positions).children)
    : c ∈ cs ∨ ∃ c0 ∈ cs, c ∈ c0.2.children := by
  rcases mem_append.mp hc with hc | hc
  · rw [without_eq] at hc
    obtain ⟨x, hx, rfl⟩ := mem_map.mp hc
    exact Or.inl (mem_of_getElem? (mem_zipIdx_iff_getElem?.mp (mem_filter.mp hx).1))
  · obtain ⟨f, hf, hc⟩ := mem_flatMap.mp hc
    obtain ⟨i, -, c0, hi, rfl⟩ := mem_byLabel.mp hf
    exact Or.inr ⟨c0, mem_of_getElem? hi, hc⟩

/-- Merging children gathers the bodies, provided that the parent may take each of them over. -/
theorem mergeChildren_gathered {R : Body → Body → Prop} (hkeep : ∀ {b sub s}, R b s → R (b.merge sub) s)
    (hp : positions.Nodup) (b : Body) (cs : List (String × Fragment))
    (h : ∀ i ∈ positions, ∀ c, cs[i]? = some c → R b c.2.body) :
    Gathered R (node b cs).bodies (mergeChildren b cs positions).bodies := by
  rw [mergeChildren_bodies]
  refine (Gathered.of_perm (bodies_perm_of_positions hp b cs)).trans (Gathered.mergeAll hkeep _ _ _ ?_)
  intro s hs
  obtain ⟨f, hf, rfl⟩ := mem_map.mp hs
  obtain ⟨i, hi, c, hci, rfl⟩ := mem_byLabel.mp hf
  exact h i hi c hci

/-- Every merged child leaves the tree. -/
theorem mergeChildren_count (hp : positions.Nodup) (b : Body) (cs : List (String × Fragment)) :
    (mergeChildren b cs positions).count + (byLabel cs positions).length = (node b cs).count := by
  rw [count_eq_length, count_eq_length, (bodies_perm_of_positions hp b cs).length_eq, mergeChildren_bodies]
  simp only [length_cons, length_append, length_map]
  omega

end Fragment
end Rtl
