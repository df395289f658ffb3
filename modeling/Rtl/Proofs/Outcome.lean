import Mathlib
import Rtl.Fragment.Traversal

/-!
# What a successful computation did

Computations with failures, with or without a state, are read through the results they give: `Gives x s a s'` says
that `x`, started in `s`, returns `a` and leaves `s'`. A composed computation gives a result exactly when its parts
do, so proofs about passes go from a result back to its parts.
-/
namespace Rtl

variable {α β ε : Type} {a : α} {b : β} {x : Except ε α} {f : α → Except ε β}

theorem except_bind_eq_ok : (x >>= f) = .ok b ↔ ∃ a, x = .ok a ∧ f a = .ok b := by
  cases x with
  | error => simp [bind, Except.bind]
  | ok => simp [bind, Except.bind]

theorem except_bind_eq_error {e : ε} : (x >>= f) = .error e ↔ x = .error e ∨ ∃ a, x = .ok a ∧ f a = .error e := by
  cases x with
  | error => simp [bind, Except.bind]
  | ok => simp [bind, Except.bind]

theorem except_pure_eq_ok {b : α} : (pure a : Except ε α) = .ok b ↔ a = b := by
  simp [pure, Except.pure]

theorem except_bind_pure_eq_ok {f : α → β} : (x >>= fun a => pure (f a)) = .ok b ↔ ∃ a, x = .ok a ∧ f a = b := by
  simp only [except_bind_eq_ok, except_pure_eq_ok]

/-- A composed computation gives something if its first part does and, whatever that gives, its rest does. -/
theorem exists_ok_bind {p : Prop} (h : ∀ a, (∃ b, f a = .ok b) ↔ p) :
    (∃ b, (x >>= f) = .ok b) ↔ (∃ a, x = .ok a) ∧ p := by
  simp only [except_bind_eq_ok]
  constructor
  · rintro ⟨b, a, ha, hb⟩
    exact ⟨⟨a, ha⟩, (h a).mp ⟨b, hb⟩⟩
  · rintro ⟨⟨a, ha⟩, hp⟩
    obtain ⟨b, hb⟩ := (h a).mpr hp
    exact ⟨b, a, ha, hb⟩

theorem exists_ok_pure {f : α → β} : (∃ b, (x >>= fun a => pure (f a)) = .ok b) ↔ ∃ a, x = .ok a :=
  (exists_ok_bind fun a => iff_of_true ⟨f a, rfl⟩ trivial).trans (and_iff_left trivial)

theorem except_mapError_eq_ok {ε' : Type} {f : ε → ε'} : x.mapError f = .ok a ↔ x = .ok a := by
  cases x <;> simp [Except.mapError]

theorem except_raise_eq_ok {x : Except DesignError α} : (Value.raise x : Except Failure α) = .ok a ↔ x = .ok a := by
  cases x with
  | ok => exact except_pure_eq_ok.trans (by rw [Except.ok.injEq])
  | error =>
    constructor
    · intro h
      cases h
    · intro h
      cases h

/-- Monads whose computations succeed by returning a result and leaving a state. -/
class Outcome (m : Type → Type) [Monad m] [MonadExceptOf Failure m] (S : outParam Type) where
  Gives : {α : Type} → m α → S → α → S → Prop
  gives_pure : ∀ {α : Type} {a b : α} {s s' : S}, Gives (pure a : m α) s b s' ↔ a = b ∧ s = s'
  gives_bind : ∀ {α β : Type} {x : m α} {f : α → m β} {s s' : S} {b : β},
    Gives (x >>= f) s b s' ↔ ∃ a t, Gives x s a t ∧ Gives (f a) t b s'
  not_gives_throw : ∀ {α : Type} {e : Failure} {s s' : S} {a : α}, ¬ Gives (throw e : m α) s a s'

export Outcome (Gives gives_pure gives_bind not_gives_throw)

instance : Outcome (Except Failure) Unit where
  Gives x _ a _ := x = .ok a
  gives_pure := by
    intro α a b s s'
    rw [except_pure_eq_ok]
    exact ⟨fun h => ⟨h, rfl⟩, And.left⟩
  gives_bind := by
    intro α β x f s s' b
    rw [except_bind_eq_ok]
    exact ⟨fun ⟨a, h⟩ => ⟨a, (), h⟩, fun ⟨a, _, h⟩ => ⟨a, h⟩⟩
  not_gives_throw := by
    intro α e s s' a h
    cases h

instance {S : Type} : Outcome (Run S) S where
  Gives x s a s' := x.run.run s = (.ok a, s')
  gives_pure := by
    intro α a b s s'
    change ((.ok a : Except Failure α), s) = (.ok b, s') ↔ _
    rw [Prod.mk.injEq, Except.ok.injEq]
  gives_bind := by
    intro α β x f s s' b
    change ExceptT.bindCont f (x s).1 (x s).2 = _ ↔ ∃ a t, x s = (.ok a, t) ∧ f a t = (.ok b, s')
    cases hx : x s with
    | mk r t =>
      cases r with
      | ok a =>
        constructor
        · exact fun h => ⟨a, t, rfl, h⟩
        · rintro ⟨a', t', h, h'⟩
          cases h
          exact h'
      | error =>
        constructor
        · intro h
          cases h
        · rintro ⟨a', t', h, -⟩
          cases h
  not_gives_throw := by
    intro α e s s' a h
    change ((.error e : Except Failure α), s) = (.ok a, s') at h
    cases h

theorem gives_except {x : Except Failure α} {s s' : Unit} : Gives x s a s' ↔ x = .ok a := Iff.rfl

theorem gives_of_ok {x : Except Failure α} (h : x = .ok a) : Gives x () a () := h

theorem ok_of_gives {x : Except Failure α} (h : Gives x () a ()) : x = .ok a := h

theorem gives_run {S : Type} {x : Run S α} {s s' : S} : Gives x s a s' ↔ x.run.run s = (.ok a, s') := Iff.rfl

section Generic

variable {m : Type → Type} [Monad m] [MonadExceptOf Failure m] {S : Type} [Outcome m S] {α : Type} {s s' : S}
variable {a : α} {x : m α} {β : Type} {b : β}

theorem gives_raise {x : Except DesignError α} : Gives (Value.raise x : m α) s a s' ↔ x = .ok a ∧ s = s' := by
  cases x with
  | ok => rw [Value.raise, gives_pure, Except.ok.injEq]
  | error =>
    constructor
    · exact fun h => absurd h not_gives_throw
    · rintro ⟨h, -⟩
      cases h

theorem gives_raise_bind {x : Except DesignError α} {f : α → m β} :
    Gives (Value.raise x >>= f) s b s' ↔ ∃ a, x = .ok a ∧ Gives (f a) s b s' := by
  rw [gives_bind]
  constructor
  · rintro ⟨a, t, hraise, hf⟩
    obtain ⟨hx, rfl⟩ := gives_raise.mp hraise
    exact ⟨a, hx, hf⟩
  · rintro ⟨a, hx, hf⟩
    exact ⟨a, s, gives_raise.mpr ⟨hx, rfl⟩, hf⟩

theorem gives_bind_pure {f : α → β} : Gives (x >>= fun a => pure (f a)) s b s' ↔ ∃ a, Gives x s a s' ∧ f a = b := by
  rw [gives_bind]
  constructor
  · rintro ⟨a, t, hx, hf⟩
    obtain ⟨rfl, rfl⟩ := gives_pure.mp hf
    exact ⟨a, hx, rfl⟩
  · rintro ⟨a, hx, rfl⟩
    exact ⟨a, s', hx, gives_pure.mpr ⟨rfl, rfl⟩⟩

theorem gives_none {o : Option α} (h : Gives (pure none : m (Option α)) s o s') : o = none ∧ s = s' := by
  obtain ⟨rfl, rfl⟩ := gives_pure.mp h
  exact ⟨rfl, rfl⟩

theorem gives_ite {p : Prop} [Decidable p] {y : m α} :
    Gives (if p then x else y) s a s' ↔ p ∧ Gives x s a s' ∨ ¬ p ∧ Gives y s a s' := by
  by_cases h : p <;> simp [h]

end Generic

section Stateful

variable {S α : Type} {s s' : S}
variable {a : α} {u : PUnit} {f : S → S}

theorem gives_ofExcept {x : Except Failure α} :
    Gives (MonadExcept.ofExcept x : Run S α) s a s' ↔ x = .ok a ∧ s = s' := by
  cases x with
  | ok b =>
    change Gives (pure b : Run S α) s a s' ↔ _
    rw [gives_pure, Except.ok.injEq]
  | error =>
    constructor
    · exact fun h => absurd h not_gives_throw
    · rintro ⟨h, -⟩
      cases h

theorem gives_get {a : S} : Gives (get : Run S S) s a s' ↔ s = a ∧ s = s' := by
  change ((.ok s : Except Failure S), s) = (.ok a, s') ↔ _
  rw [Prod.mk.injEq, Except.ok.injEq]

theorem eq_ok_of_toOption {x : Except Failure α × S} (h : x.1.toOption = some a) : x = (.ok a, x.2) := by
  obtain ⟨r, s⟩ := x
  cases r with
  | error => cases h
  | ok =>
    cases h
    rfl

theorem gives_read {f : S → α} : Gives (do return f (← get) : Run S α) s a s' ↔ f s = a ∧ s = s' := by
  rw [gives_bind]
  constructor
  · rintro ⟨b, t, hget, hpure⟩
    obtain ⟨rfl, rfl⟩ := gives_get.mp hget
    exact gives_pure.mp hpure
  · rintro ⟨rfl, rfl⟩
    exact ⟨s, s, gives_get.mpr ⟨rfl, rfl⟩, gives_pure.mpr ⟨rfl, rfl⟩⟩

theorem gives_set {t : S} : Gives (set t : Run S PUnit) s u s' ↔ t = s' := by
  change ((.ok PUnit.unit : Except Failure PUnit), t) = (.ok u, s') ↔ _
  simp

theorem gives_modify : Gives (modify f : Run S PUnit) s u s' ↔ f s = s' := by
  change ((.ok PUnit.unit : Except Failure PUnit), f s) = (.ok u, s') ↔ _
  simp

theorem gives_get_bind {f : S → Run S α} : Gives (get >>= f) s a s' ↔ Gives (f s) s a s' := Iff.rfl

theorem gives_modify_bind {g : S → S} {f : PUnit → Run S α} :
    Gives (modify g >>= f) s a s' ↔ Gives (f ⟨⟩) (g s) a s' := Iff.rfl

theorem gives_modifyGet {f : S → α × S} : Gives (modifyGet f : Run S α) s a s' ↔ f s = (a, s') := by
  change ((.ok (f s).1 : Except Failure α), (f s).2) = (.ok a, s') ↔ _
  rw [Prod.mk.injEq, Except.ok.injEq, Prod.ext_iff]

/-- A handler that never succeeds leaves only the successes of what it guards. -/
theorem gives_tryCatch {x : Run S α} {h : Failure → Run S α} (hfail : ∀ e t b t', ¬ Gives (h e) t b t') :
    Gives (tryCatch x h) s a s' ↔ Gives x s a s' := by
  rw [gives_run, gives_run, ExceptT.run_tryCatch, StateT.run_bind]
  cases hx : x.run.run s with
  | mk r t =>
    cases r with
    | ok => rfl
    | error e =>
      constructor
      · exact fun hg => absurd hg (hfail e t a s')
      · intro hg
        cases hg

end Stateful
end Rtl
