import Mathlib
import Rtl.Proofs.Ledger
import Rtl.Proofs.Outcome
import Rtl.Proofs.Tree

/-!
# Going through the children of a fragment

The survey resolves the children one after the other and enters what each drives and accesses under its position. A
cell is left as it is; its memory counts as accessed by the fragment that holds it.
-/
namespace Rtl

open List
namespace Fragment

variable {resolve : List String → Fragment → Except Failure Resolution} {σ : Arenas} {b : Body} {path : List String}
variable {i p : Nat} {s s' : Survey} {cs : List (String × Fragment)}

/-- The resolution lists the claim. -/
def Resolution.Lists (r : Resolution) (k : Claim) : Prop :=
  (∃ n ∈ r.nets, k = .net n.key) ∨ ∃ m ∈ r.memories, k = .memory m.id

/-- The resolution lists what a fragment above knows as the claim. -/
def Resolution.Brings (r : Resolution) (b : Body) (k : Claim) : Prop :=
  (∃ n ∈ r.nets, k = .net (b.resolveNet n).key) ∨ ∃ m ∈ r.memories, k = .memory m.id

/-- What a child comes to: what takes its place, who holds what on its account, and the conflicts met inside. -/
structure Entry where
  child : String × Fragment
  claims : Claim → Option Nat → Prop
  conflicts : List ConflictError

/-- What becomes of the child at position `i`. -/
inductive Entered (resolve : List String → Fragment → Except Failure Resolution) (b : Body) (i : Nat) :
    String × Fragment → Entry → Prop
  | cell {c : String × Fragment} {inst : Instance} (hc : c.2.body.cell = some inst) :
      Entered resolve b i c ⟨c, fun k x => (∃ m ∈ inst.memory?.toList, k = .memory m.id) ∧ x = none, []⟩
  | resolved {c : String × Fragment} {path : List String} {r : Resolution} (hc : c.2.body.cell = none)
      (hr : resolve path c.2 = .ok r) :
      Entered resolve b i c ⟨(c.1, r.fragment), fun k x => r.Brings b k ∧ x = some i, r.conflicts⟩

/-- One survey goes on to the other by some entries. -/
structure Survey.Takes (s : Survey) (es : List Entry) (s' : Survey) : Prop where
  sound : s.ledger.Sound → s'.ledger.Sound
  children : s'.children = s.children ++ es.map Entry.child
  conflicts : s'.conflicts = s.conflicts ++ es.flatMap Entry.conflicts
  holds : ∀ k x, s'.ledger.Holds k x ↔ s.ledger.Holds k x ∨ ∃ e ∈ es, e.claims k x

theorem surveyChild_takes {name : String} {f : Fragment} (h : surveyChild resolve σ b path s i name f = .ok s') :
    ∃ e, Entered resolve b i (name, f) e ∧ s.Takes [e] s' := by
  unfold surveyChild at h
  cases hc : f.body.cell with
  | some =>
    rw [hc, Except.ok.injEq] at h
    subst h
    exact ⟨_, .cell hc, fun hs => hs.addMemories _ _, rfl, by simp, fun k x => by simp⟩
  | none =>
    rw [hc] at h
    obtain ⟨r, hr, h⟩ := except_bind_eq_ok.mp h
    rw [except_pure_eq_ok] at h
    subst h
    refine ⟨_, .resolved hc hr, fun hs => (hs.addNets σ _ _).addMemories _ _, rfl, by simp, fun k x => ?_⟩
    simp [Resolution.Brings, or_and_right, or_assoc]

/-- The survey takes one entry for each child. -/
theorem surveyChildren_takes (h : surveyChildren resolve σ b path s p cs = .ok s') :
    ∃ es, List.Forall₂ (fun x e => Entered resolve b x.2 x.1 e) (cs.zipIdx p) es ∧ s.Takes es s' := by
  induction cs generalizing s p with
  | nil =>
    rw [surveyChildren, Except.ok.injEq] at h
    subst h
    exact ⟨[], .nil, id, by simp, by simp, by simp⟩
  | cons c cs ih =>
    rw [surveyChildren] at h
    obtain ⟨t, ht, h⟩ := except_bind_eq_ok.mp h
    obtain ⟨e, he, hfirst⟩ := surveyChild_takes ht
    obtain ⟨es, hes, hrest⟩ := ih h
    refine ⟨e :: es, .cons he hes, fun hs => hrest.sound (hfirst.sound hs), ?_, ?_, fun k x => ?_⟩
    · rw [hrest.children, hfirst.children, append_assoc]
      rfl
    · rw [hrest.conflicts, hfirst.conflicts, append_assoc, ← flatMap_append]
      rfl
    · rw [hrest.holds, hfirst.holds]
      simp [or_assoc]

/-- The survey fails as one of the children that are no cells does. -/
theorem surveyChildren_error {e : Failure} (h : surveyChildren resolve σ b path s p cs = .error e) :
    ∃ c ∈ cs, c.2.body.cell = none ∧ ∃ path, resolve path c.2 = .error e := by
  induction cs generalizing s p with
  | nil => cases h
  | cons c cs ih =>
    rw [surveyChildren] at h
    rcases except_bind_eq_error.mp h with h | ⟨t, -, h⟩
    · unfold surveyChild at h
      cases hc : c.2.body.cell with
      | some =>
        rw [hc] at h
        cases h
      | none =>
        rw [hc] at h
        rcases except_bind_eq_error.mp h with h | ⟨r, -, h⟩
        · exact ⟨c, mem_cons_self, hc, _, h⟩
        · cases h
    · obtain ⟨c', hc', hrest⟩ := ih h
      exact ⟨c', mem_cons_of_mem _ hc', hrest⟩

/-- The survey before any child: only what the fragment itself drives is entered. -/
def Survey.start (σ : Arenas) (b : Body) (path : List String) : Survey :=
  ⟨Ledger.empty.addNets σ ⟨none, ".".intercalate path⟩ (b.driverPairs.map fun e => b.resolveNet e.2), [], []⟩

/-- What the survey of all children of a fragment establishes. -/
structure Surveyed (resolve : List String → Fragment → Except Failure Resolution) (b : Body)
    (cs : List (String × Fragment)) (es : List Entry) (s : Survey) : Prop where
  sound : s.ledger.Sound
  entered : List.Forall₂ (fun x e => Entered resolve b x.2 x.1 e) cs.zipIdx es
  children : s.children = es.map Entry.child
  conflicts : s.conflicts = es.flatMap Entry.conflicts
  holds : ∀ k x, s.ledger.Holds k x ↔
    (∃ e ∈ b.driverPairs, k = .net (b.resolveNet e.2).key) ∧ x = none ∨ ∃ e ∈ es, e.claims k x

theorem surveyed (h : surveyChildren resolve σ b path (.start σ b path) 0 cs = .ok s) :
    ∃ es, Surveyed resolve b cs es s := by
  obtain ⟨es, hes, htakes⟩ := surveyChildren_takes h
  refine ⟨es, htakes.sound (Ledger.sound_empty.addNets σ _ _), hes, htakes.children, htakes.conflicts, fun k x => ?_⟩
  rw [htakes.holds]
  simp [Survey.start]

namespace Surveyed

variable {es : List Entry} (h : Surveyed resolve b cs es s)
include h

theorem own {e : String × Net} (he : e ∈ b.driverPairs) : s.ledger.Holds (.net (b.resolveNet e.2).key) none :=
  (h.holds _ _).mpr (Or.inl ⟨⟨e, he, rfl⟩, rfl⟩)

/-- The child at a position after the survey comes from the one that was there. -/
theorem child {c' : String × Fragment} (hc : s.children[i]? = some c') :
    ∃ c e, cs[i]? = some c ∧ Entered resolve b i c e ∧ e.child = c' ∧ ∀ k x, e.claims k x → s.ledger.Holds k x := by
  rw [h.children, getElem?_map, Option.map_eq_some_iff] at hc
  obtain ⟨e, he, rfl⟩ := hc
  obtain ⟨⟨c, j⟩, hx, hentered⟩ := forall₂_getElem?_left (List.Forall₂.flip h.entered) he
  rw [getElem?_zipIdx, Option.map_eq_some_iff] at hx
  obtain ⟨c, hc, hx⟩ := hx
  cases hx
  rw [Nat.zero_add] at hentered
  exact ⟨c, e, hc, hentered, rfl, fun k x hk => (h.holds k x).mpr (Or.inr ⟨e, mem_of_getElem? he, hk⟩)⟩

theorem involves {k : Claim} (hk : s.ledger.Holds k (some i)) : ∃ c, cs[i]? = some c ∧ c.2.body.cell = none := by
  rcases (h.holds k _).mp hk with ⟨-, hi⟩ | ⟨e, he, hk⟩
  · cases hi
  · obtain ⟨⟨c, j⟩, hx, hentered⟩ := forall₂_mem_right h.entered he
    cases hentered with
    | cell => cases hk.2
    | resolved hc =>
      cases hk.2
      exact ⟨c, mem_zipIdx_iff_getElem?.mp hx, hc⟩

/-- What relates a cell to itself and any other fragment to what it is resolved to relates the children before and
after the survey. -/
theorem forall₂ {q : String × Fragment → String × Fragment → Prop} (hcell : ∀ c ∈ cs, c.2.body.cell.isSome → q c c)
    (hres : ∀ c ∈ cs, c.2.body.cell = none → ∀ path r, resolve path c.2 = .ok r → q c (c.1, r.fragment)) :
    List.Forall₂ q cs s.children := by
  have hmap : cs = cs.zipIdx.map Prod.fst := (zipIdx_map_fst 0 cs).symm
  rw [h.children, hmap, forall₂_map_left_iff, forall₂_map_right_iff]
  refine (forall₂_mem h.entered).imp ?_
  rintro ⟨c, i⟩ e ⟨hx, he⟩
  have hmem := mem_of_getElem? (mem_zipIdx_iff_getElem?.mp hx)
  cases he with
  | cell hc => exact hcell _ hmem (by rw [hc]; rfl)
  | resolved hc hr => exact hres _ hmem hc _ _ hr

end Surveyed
end Fragment
end Rtl
