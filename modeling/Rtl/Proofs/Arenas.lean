import Mathlib
import Rtl.Domain
import Rtl.Proofs.Outcome

/-!
# Arenas that grow

Issuing signals, numbering domains and renaming signals change the arenas, but every signal that was issued before
keeps its shape. Clock domains are sound when their clock and reset are issued single bits.
-/
namespace Rtl

namespace Arenas

variable {σ : Arenas} {a : Nat}
variable {σ' : Arenas} {id : SignalId} {spec : SignalSpec}

/-- An arena has a record of the signal. -/
def Issued (σ : Arenas) (s : SignalId) : Prop := (σ.get? s).isSome

/-- Every signal of the first arenas is one of the second, with the same shape. -/
structure Extends (σ σ' : Arenas) : Prop where
  size : σ'.list.size = σ.list.size
  issued : ∀ s, σ.Issued s → σ'.Issued s
  shape : ∀ s, σ.Issued s → σ'.shape s = σ.shape s

theorem Extends.refl (σ : Arenas) : σ.Extends σ := ⟨rfl, fun _ => id, fun _ _ => rfl⟩

theorem Extends.trans {σ1 σ2 σ3 : Arenas} (h : σ1.Extends σ2) (h' : σ2.Extends σ3) : σ1.Extends σ3 where
  size := h'.size.trans h.size
  issued s hs := h'.issued s (h.issued s hs)
  shape s hs := (h'.shape s (h.issued s hs)).trans (h.shape s hs)

/-- Arenas with the same number of members whose records differ in nothing but what is no shape. -/
theorem extends_of_get? (hsize : σ'.list.size = σ.list.size)
    (h : ∀ s r, σ.get? s = some r → ∃ r', σ'.get? s = some r' ∧ r'.shape = r.shape) : σ.Extends σ' := by
  refine ⟨hsize, ?_, ?_⟩
  · intro s hs
    obtain ⟨r, hr⟩ := Option.isSome_iff_exists.mp hs
    obtain ⟨r', hr', -⟩ := h s r hr
    exact Option.isSome_iff_exists.mpr ⟨r', hr'⟩
  · intro s hs
    obtain ⟨r, hr⟩ := Option.isSome_iff_exists.mp hs
    obtain ⟨r', hr', hshape⟩ := h s r hr
    unfold shape get
    rw [hr, hr']
    exact hshape

theorem size_modifyArena (σ : Arenas) (a : Nat) (f : Arena → Arena) :
    (σ.modifyArena a f).list.size = σ.list.size := Array.size_modify

theorem arena_modifyArena (σ : Arenas) (a a' : Nat) (f : Arena → Arena) (h : a' < σ.list.size) :
    (σ.modifyArena a f).arena a' = if a = a' then f (σ.arena a') else σ.arena a' := by
  unfold arena modifyArena
  simp only [Array.getD_eq_getD_getElem?, Array.getElem?_modify]
  rw [Array.getElem?_eq_getElem h]
  split <;> rfl

theorem arena_of_size_le (h : σ.list.size ≤ a) : σ.arena a = Arena.empty := by
  unfold arena
  rw [Array.getD_eq_getD_getElem?, Array.getElem?_eq_none h]
  rfl

theorem lt_size_of_issued {s : SignalId} (h : σ.Issued s) : s.arena < σ.list.size := by
  by_contra hge
  unfold Issued get? at h
  rw [arena_of_size_le (Nat.le_of_not_lt hge)] at h
  split at h
  · cases h
  · simp [Arena.empty] at h

/-- A change of one arena that keeps the records it had. -/
theorem extends_modifyArena {f : Arena → Arena} (h : ∀ (x : Arena) (i : Nat) (r : Signal), x.signals[i]? = some r →
      ∃ r', (f x).signals[i]? = some r' ∧ r'.shape = r.shape) : σ.Extends (σ.modifyArena a f) := by
  refine extends_of_get? (σ.size_modifyArena a f) ?_
  intro s r hr
  have hlt := lt_size_of_issued (Option.isSome_iff_exists.mpr ⟨r, hr⟩)
  unfold get? at hr ⊢
  split at hr
  · cases hr
  · rename_i hn
    rw [if_neg hn, arena_modifyArena σ a s.arena f hlt]
    split
    · exact h _ _ r hr
    · exact ⟨r, hr, rfl⟩

theorem extends_push (σ : Arenas) (a : Nat) (r : Signal) : σ.Extends (σ.push a r).1 := by
  refine extends_modifyArena ?_
  intro x i r' hr'
  have hlt := (Array.getElem?_eq_some_iff.mp hr').1
  refine ⟨r', ?_, rfl⟩
  rw [Array.getElem?_push, if_neg (by omega)]
  exact hr'

theorem get?_push_new (h : a < σ.list.size) (r : Signal) : (σ.push a r).1.get? (σ.push a r).2 = some r := by
  unfold push get?
  rw [if_neg (Nat.succ_ne_zero _), arena_modifyArena σ a a _ h, if_pos rfl]
  simp [size]

theorem extends_nextDomain (σ : Arenas) (a : Nat) : σ.Extends (σ.nextDomain a).1 :=
  extends_modifyArena fun _ _ r hr => ⟨r, hr, rfl⟩

theorem extends_modify (σ : Arenas) (s : SignalId) {f : Signal → Signal} (hf : ∀ r, (f r).shape = r.shape) :
    σ.Extends (σ.modify s f) := by
  unfold modify
  split
  · exact .refl σ
  · refine extends_modifyArena ?_
    intro x i r hr
    rw [Array.getElem?_modify, hr]
    split
    · exact ⟨f r, rfl, hf r⟩
    · exact ⟨r, rfl, rfl⟩

/-- An issued signal has a new record with what was asked for, the reset value wrapped into the shape. -/
theorem issue_inv (h : σ.issue a spec = .ok (σ', id)) :
    ∃ r, σ.push a r = (σ', id) ∧ 0 ≤ spec.shape.width ∧ r.shape = spec.shape ∧
      r.reset = spec.shape.normalize spec.reset ∧ r.resetless = spec.resetless := by
  unfold issue at h
  cases hr : spec.record with
  | error =>
    rw [hr] at h
    cases h
  | ok r =>
    rw [hr] at h
    refine ⟨r, Except.ok.inj h, ?_⟩
    unfold SignalSpec.record at hr
    split at hr
    · cases hr
    · rename_i hwidth
      split at hr
      · cases hr
      · cases hr
        exact ⟨Int.not_lt.mp hwidth, rfl, rfl, rfl⟩

theorem issue_spec (h : σ.issue a spec = .ok (σ', id)) (ha : a < σ.list.size) :
    σ.Extends σ' ∧ σ'.Issued id ∧ σ'.shape id = spec.shape := by
  obtain ⟨r, hpush, -, hshape, -⟩ := issue_inv h
  have hext := σ.extends_push a r
  have hget := get?_push_new ha r
  rw [hpush] at hext hget
  refine ⟨hext, Option.isSome_iff_exists.mpr ⟨r, hget⟩, ?_⟩
  unfold shape get
  rw [hget]
  exact hshape

end Arenas

namespace ClockDomain

variable {σ σ' : Arenas} {cd : ClockDomain}
variable {a : Nat} {name : String}

/-- The signal is an issued single bit. -/
def IsBit (σ : Arenas) (s : SignalId) : Prop := σ.Issued s ∧ σ.shape s = .unsigned 1

/-- The clock and the reset of the domain are single bits. -/
def Sound (σ : Arenas) (cd : ClockDomain) : Prop := IsBit σ cd.clk ∧ ∀ rst, cd.rst = some rst → IsBit σ rst

theorem IsBit.mono {s : SignalId} (h : IsBit σ s) (hx : σ.Extends σ') : IsBit σ' s :=
  ⟨hx.issued s h.1, (hx.shape s h.1).trans h.2⟩

theorem Sound.mono (h : cd.Sound σ) (hx : σ.Extends σ') : cd.Sound σ' :=
  ⟨h.1.mono hx, fun rst hr => (h.2 rst hr).mono hx⟩

theorem create_sound {opts : DomainOptions} (h : create σ a name opts = .ok (σ', cd)) (ha : a < σ.list.size) :
    σ.Extends σ' ∧ cd.Sound σ' := by
  unfold create at h
  split at h
  · cases h
  · split at h
    · cases h
    · obtain ⟨⟨σ1, clk⟩, hclk, h⟩ := except_bind_eq_ok.mp h
      have hnext := σ.extends_nextDomain a
      obtain ⟨hext1, hissued, hshape⟩ := Arenas.issue_spec hclk (ha.trans_eq hnext.size.symm)
      have hbit : IsBit σ1 clk := ⟨hissued, hshape⟩
      dsimp only at h
      split at h
      · rw [except_pure_eq_ok, Prod.mk.injEq] at h
        obtain ⟨rfl, rfl⟩ := h
        exact ⟨hnext.trans hext1, hbit, fun rst hr => nomatch hr⟩
      · obtain ⟨⟨σ2, rst⟩, hrst, h⟩ := except_bind_eq_ok.mp h
        rw [except_pure_eq_ok, Prod.mk.injEq] at h
        obtain ⟨rfl, rfl⟩ := h
        obtain ⟨hext2, hissued2, hshape2⟩ := Arenas.issue_spec hrst
          (ha.trans_eq (hext1.size.trans hnext.size).symm)
        refine ⟨(hnext.trans hext1).trans hext2, hbit.mono hext2, ?_⟩
        intro r hr
        cases hr
        exact ⟨hissued2, hshape2⟩

theorem renamed_sound {cd' : ClockDomain} (h : cd.renamed σ a name = .ok (σ', cd')) :
    σ.Extends σ' ∧ (cd.Sound σ → cd'.Sound σ') := by
  unfold renamed at h
  split at h
  · cases h
  · rw [Except.ok.injEq, Prod.mk.injEq] at h
    obtain ⟨rfl, rfl⟩ := h
    have hclk := (σ.extends_nextDomain a).trans
      (Arenas.extends_modify _ cd.clk (f := fun s => { s with name := clkName name }) fun _ => rfl)
    cases hr : cd.rst with
    | none => exact ⟨hclk, fun hs => ⟨hs.1.mono hclk, fun rst hrst => (hs.2 rst (hr.trans hrst)).mono hclk⟩⟩
    | some rst =>
      have hboth := hclk.trans
        (Arenas.extends_modify _ rst (f := fun s => { s with name := rstName name }) fun _ => rfl)
      exact ⟨hboth, fun hs => ⟨hs.1.mono hboth, fun rst hrst => (hs.2 rst (hr.trans hrst)).mono hboth⟩⟩

end ClockDomain
end Rtl
