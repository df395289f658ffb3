import Mathlib
import Rtl.Prepare
import Rtl.Proofs.Composition
import Rtl.Proofs.Endings
import Rtl.Proofs.Gathering
import Rtl.Proofs.SampleChains

/-!
# Passes that do not crash

A computation is tame when whatever it fails with is reported: a design error or a plain one. Sequences of tame
computations are tame, so a traversal is tame when it is at the leaves, and a pass when its traversals are. The passes
that a preparation guards are tame on every tree whose samples are of values that can be sampled.
-/
namespace Rtl

/-- Monads whose computations may fail. -/
class Failing (m : Type → Type) [Monad m] [MonadExceptOf Failure m] (S : outParam Type) [Outcome m S] where
  Fails : {α : Type} → m α → S → Failure → Prop
  not_fails_pure : ∀ {α : Type} {a : α} {s : S} {e : Failure}, ¬ Fails (pure a : m α) s e
  fails_bind : ∀ {α β : Type} {x : m α} {f : α → m β} {s : S} {e : Failure},
    Fails (x >>= f) s e → Fails x s e ∨ ∃ a t, Gives x s a t ∧ Fails (f a) t e
  fails_throw : ∀ {α : Type} {e e' : Failure} {s : S}, Fails (throw e : m α) s e' → e = e'

instance : Failing (Except Failure) Unit where
  Fails x _ e := x = .error e
  not_fails_pure := by
    intro α a s e h
    cases h
  fails_bind := by
    intro α β x f s e h
    exact (except_bind_eq_error.mp h).imp_right fun ⟨a, ha, h⟩ => ⟨a, (), ha, h⟩
  fails_throw := by
    intro α e e' s h
    cases h
    rfl

instance {S : Type} : Failing (Run S) S where
  Fails x s e := ∃ t, x.run.run s = (.error e, t)
  not_fails_pure := by
    rintro α a s e ⟨t, h⟩
    cases h
  fails_bind := by
    rintro α β x f s e ⟨t, h⟩
    exact (fails_bind h).imp (fun hx => ⟨t, hx⟩) fun ⟨a, u, hg, hf⟩ => ⟨a, u, hg, t, hf⟩
  fails_throw := by
    rintro α e e' s ⟨t, h⟩
    cases h
    rfl

section Tame

variable {m : Type → Type} [Monad m] [MonadExceptOf Failure m] {S : Type} [Outcome m S] [Failing m S] {α β : Type}
variable {x : m α} {f : α → m β}

/-- Whatever the computation fails with is reported. -/
def Tame (x : m α) : Prop := ∀ ⦃s : S⦄ ⦃e : Failure⦄, Failing.Fails x s e → e.isCrash = false

theorem tame_throw {e : Failure} (he : e.isCrash = false) : Tame (throw e : m α) := by
  intro s e' h
  rw [← Failing.fails_throw h]
  exact he

theorem Tame.composes : Composes (m := m) fun _ => Tame where
  pure a := fun _ _ h => absurd h Failing.not_fails_pure
  raise {α} x := by
    cases x with
    | ok => exact fun _ _ h => absurd h Failing.not_fails_pure
    | error => exact tame_throw rfl
  andThen hx hf := by
    intro s e h
    rcases Failing.fails_bind h with h | ⟨a, t, hg, h⟩
    · exact hx h
    · exact hf hg h

theorem tame_pure (a : α) : Tame (pure a : m α) := Tame.composes.pure a

theorem tame_raise (x : Except DesignError α) : Tame (Value.raise x : m α) := Tame.composes.raise x

theorem Tame.andThen (hx : Tame x) (hf : ∀ {a s t}, Gives x s a t → Tame (f a)) : Tame (x >>= f) :=
  Tame.composes.andThen hx hf

theorem Tame.bind (hx : Tame x) (hf : ∀ a, Tame (f a)) : Tame (x >>= f) := Tame.composes.bind hx hf

theorem Tame.map {f : α → β} (hx : Tame x) : Tame (x >>= fun a => pure (f a)) := Tame.composes.map hx

end Tame

theorem tame_mapError {α : Type} (x : Except DesignError α) : Tame (x.mapError Failure.design) := by
  cases x with
  | ok a => exact tame_pure a
  | error => exact tame_throw rfl

section Stateful

variable {S α : Type}

theorem tame_get : Tame (get : Run S S) := by
  rintro s e ⟨t, h⟩
  cases h

theorem tame_modify (f : S → S) : Tame (modify f : Run S PUnit) := by
  rintro s e ⟨t, h⟩
  cases h

theorem tame_set (t : S) : Tame (set t : Run S PUnit) := by
  rintro s e ⟨t, h⟩
  cases h

theorem tame_ofExcept {x : Except Failure α} (hx : Tame x) : Tame (MonadExcept.ofExcept x : Run S α) := by
  cases x with
  | ok a => exact tame_pure a
  | error => exact tame_throw (hx (s := ()) rfl)

end Stateful

section Traversal

variable {m : Type → Type} [Monad m] [MonadExceptOf Failure m] {S : Type} [Outcome m S] [Failing m S]

namespace Body

variable {r : Traversal m} {P : Pass m} {p : Value → Prop}
variable {b : Body}

theorem traverseDomains_tame (hdomain : ∀ cd, Tame (P.domain cd)) {cds : List ClockDomain} :
    Tame (traverseDomains P b cds) := by
  induction cds generalizing b with
  | nil => exact tame_pure b
  | cons cd cds ih => exact (hdomain cd).bind fun cd' => (tame_raise _).bind fun _ => ih

theorem traverseDrivers_tame (h : r.Keeps (fun _ => Tame) p) {ds : List (String × Net)} :
    Tame (traverseDrivers P r b ds) := by
  induction ds generalizing b with
  | nil => exact tame_pure b
  | cons e ds ih =>
    obtain ⟨d, n⟩ := e
    rw [traverseDrivers]
    refine (Tame.map (h.net n)).bind fun v => ?_
    split
    · exact ih
    · exact ih

theorem traverse_tame (h : r.Keeps (fun _ => Tame) p) (hdomain : ∀ cd, Tame (P.domain cd))
    (hb : ∀ v ∈ b.values, ∀ u ∈ v.leaves, p u) : Tame (b.traverse P r) := by
  obtain ⟨hstatements, hcell⟩ := List.forall_mem_append.mp hb
  refine (traverseDomains_tame hdomain).bind fun _ => Tame.bind (h.statements hstatements) fun _ => ?_
  exact (traverseDrivers_tame h).bind fun _ => Tame.map (h.cell hcell)

end Body

namespace Fragment

variable {P : Pass m} {p : Value → Prop}

theorem traverseAll_tame {cs : List (String × Fragment)} (ih : ∀ c ∈ cs, Tame (c.2.traverse P)) :
    Tame (traverseAll P cs) := by
  induction cs with
  | nil => exact tame_pure []
  | cons c cs ihcs =>
    obtain ⟨name, f⟩ := c
    obtain ⟨ihc, ihrest⟩ := List.forall_mem_cons.mp ih
    rw [traverseAll]
    exact ihc.bind fun _ => (ihcs ihrest).map

/-- A pass that goes through fragments with tame traversals is tame. -/
theorem traverse_tame (hvalues : ∀ b, Tame (P.values b)) (hr : ∀ {b r s t}, Gives (P.values b) s r t → r.Keeps (fun _ => Tame) p)
    (hdomain : ∀ cd, Tame (P.domain cd)) (hfinish : ∀ b f, Tame (P.finish b f)) {f : Fragment}
    (hf : ∀ b ∈ f.bodies, ∀ v ∈ b.values, ∀ u ∈ v.leaves, p u) : Tame (f.traverse P) := by
  induction f with
  | node b cs ih =>
    obtain ⟨hb, hcs⟩ := forall_bodies_node.mp hf
    rw [traverse]
    refine (traverseAll_tame fun c hc => ih c hc (hcs c hc)).bind fun _ => ?_
    refine (hvalues b).andThen fun hg => ?_
    exact (Body.traverse_tame (hr hg) hdomain hb).bind fun _ => hfinish _ _

end Fragment
end Traversal

namespace Delays

/-- Samples of values that can be sampled are lowered or refused. -/
theorem traversal_tame (a : Nat) : (traversal a).Keeps (fun _ => Tame) Samplable := by
  refine Keeps.traversal (p := fun v => v.isSampled = true) { Tame.composes with
    get := tame_get, note := fun _ => tame_modify _, issue := ?_, spec := ?_, sampled := id } ?_
  · exact fun spec => tame_get.bind fun _ => (tame_raise _).bind fun _ => (tame_modify _).map
  · refine fun {v} hv σ clocks domain => tame_ofExcept (Tame.map ?_)
    cases v with
    | const | initial => exact tame_pure _
    | net n => cases n <;> exact tame_pure _
    | _ => cases hv
  · intro v clocks domain hv
    refine ⟨hv, ?_⟩
    cases v with
    | const | net | initial => exact List.forall_mem_singleton.mpr trivial
    | _ => cases hv

end Delays

namespace Renamer

theorem rename_tame (r : Renamer) (cd : ClockDomain) : Tame (r.rename cd) := by
  unfold rename
  split
  · exact tame_pure cd
  · refine tame_get.bind fun s => ?_
    split
    · exact tame_pure _
    · exact (tame_raise _).bind fun _ => (tame_set _).map

theorem run_tame (r : Renamer) (f : Fragment) : Tame (r.run f) := by
  have htraverse : Tame (f.traverse r.pass) := by
    refine Fragment.traverse_tame (p := fun _ => True) (fun b => tame_pure _) ?_ r.rename_tame (fun b f => tame_pure f)
      fun _ _ _ _ _ _ => trivial
    intro b r' s t hg
    obtain ⟨rfl, -⟩ := gives_pure.mp hg
    exact traversal_keeps Tame.composes tame_get r.mapping
  refine tame_get.bind fun σ => (tame_set _).bind fun _ => tame_ofExcept fun s e he => ?_
  exact htraverse ⟨_, Prod.ext he rfl⟩

end Renamer

namespace Fragment

variable {a : Nat}
variable {cs : List (String × Fragment)} {f : Fragment} {σ : Arenas}
variable {path : List String} {defs : List Definer}

theorem separateDomain_tame {domain : String} : Tame (separateDomain a domain defs cs) := by
  induction defs generalizing cs with
  | nil => exact tame_pure cs
  | cons d defs ih =>
    refine (tame_raise _).bind fun r => ?_
    split
    · exact ih
    · exact (r.run_tame _).bind fun f => ih

theorem separateDomains_tame {domains : List String} : Tame (separateDomains a path defs domains cs) := by
  induction domains generalizing cs with
  | nil => exact tame_pure cs
  | cons domain domains ih =>
    exact Tame.composes.ite ih ((tame_raise _).bind fun _ => separateDomain_tame.bind fun _ => ih)

theorem liftChildren_tame {position : Nat} (ih : ∀ c ∈ cs, ∀ path, Tame (c.2.liftDomains a path)) :
    Tame (liftChildren a path position cs) := by
  induction cs generalizing position with
  | nil => exact tame_pure []
  | cons c cs ihcs =>
    obtain ⟨name, f⟩ := c
    obtain ⟨ihc, ihrest⟩ := List.forall_mem_cons.mp ih
    rw [liftChildren]
    exact (ihc _).bind fun _ => (ihcs ihrest).map

theorem liftDomains_tame : Tame (f.liftDomains a path) := by
  induction f generalizing path with
  | node b cs ih =>
    rw [liftDomains]
    refine (liftChildren_tame fun c hc path => ih c hc).bind fun _ => separateDomains_tame.bind fun _ => ?_
    exact (tame_raise _).map

theorem ensureDomain_tame (f : Fragment) : Tame (f.ensureDomain a) := by
  cases f with
  | node b =>
    unfold ensureDomain
    dsimp only
    cases b.domain? syncDomain with
    | some => exact tame_pure _
    | none => exact tame_get.bind fun _ => (tame_raise _).bind fun _ => (tame_set _).bind fun _ => (tame_raise _).map

theorem propagateDomains_tame (ensureSync : Bool) (f : Fragment) : Tame (f.propagateDomains a ensureSync) :=
  liftDomains_tame.bind fun f =>
    Tame.composes.ite ((ensureDomain_tame f).bind fun _ => tame_raise _) ((tame_pure f).bind fun _ => tame_raise _)

/-- Samples are lowered or refused. -/
theorem lowerSamples_tame (hf : ∀ b ∈ f.bodies, ∀ v ∈ b.values, ∀ u ∈ v.leaves, Delays.Samplable u) :
    Tame (f.lowerSamples σ a).1 := by
  have htraverse : Tame (f.traverse (Delays.pass a)) := by
    refine traverse_tame (fun b => (tame_modify _).map) ?_ (fun cd => tame_pure cd) (fun b f => tame_get.map) hf
    intro b r s t hg
    obtain ⟨u, s1, -, hg⟩ := gives_bind.mp hg
    obtain ⟨rfl, -⟩ := gives_pure.mp hg
    exact Delays.traversal_tame a
  exact fun _ e he => htraverse ⟨_, Prod.ext he rfl⟩

/-- References are lowered or refused. -/
theorem lowerDomains_tame (σ : Arenas) (f : Fragment) : Tame (f.lowerDomains σ) := by
  refine traverse_tame (p := fun _ => True) (fun b => tame_pure _) ?_ (fun cd => tame_pure cd) ?_ fun _ _ _ _ _ _ => trivial
  · intro b r s t hg
    obtain rfl := except_pure_eq_ok.mp hg
    exact
      { Tame.composes with
        arenas := tame_pure σ
        statement := fun _ => tame_pure none
        const := fun _ _ => tame_pure none
        net := fun n => tame_mapError (b.lowerNet σ n)
        initial := tame_pure none
        sample := fun _ => ⟨fun _ _ => trivial, fun hv => hv.map⟩ }
  · intro b f
    unfold domainLowering
    dsimp only
    split
    · exact tame_throw rfl
    · exact tame_pure f

theorem resolveConflicts_tame (σ : Arenas) (mode : ConflictMode) (f : Fragment) :
    Tame (f.resolveConflicts σ mode) := by
  intro s e h
  obtain ⟨-, c, rfl⟩ := resolveWith_error le_rfl h
  rfl

end Fragment
end Rtl
