import Mathlib
import Rtl.Proofs.ControlLowering

/-!
# How a computation ends

A builder call may fail at any point, and what it did until then stays done. `Ends x s I` says that `x`, started in
`s`, ends in a state that satisfies `I`, whether it succeeds or fails, and `Moves R x` that it always moves the state
along `R`. Most building steps leave the state machines alone and keep issued signals issued; many leave the open
constructs alone too.
-/
namespace Rtl

variable {σ : Arenas}

section Endings

variable {S β γ : Type} {s : S} {I : S → Prop} {R : S → S → Prop}
variable {t : S} {a : β} {e : Failure} {J : S → Prop} {r : Except Failure β}
variable {x : Run S β} {f : β → Run S γ} {h : Failure → Run S β}

/-- Whether it succeeds or fails, the computation ends in a state that satisfies `I`. -/
def Ends (x : Run S β) (s : S) (I : S → Prop) : Prop := I (x.run.run s).2

theorem ends_of_eq (hx : x.run.run s = (r, t)) (h : I t) : Ends x s I := by
  unfold Ends
  rw [hx]
  exact h

theorem Ends.result (h : Ends x s I) (hx : x.run.run s = (r, t)) : I t := by
  unfold Ends at h
  rwa [hx] at h

theorem Ends.gives (h : Ends x s I) (hg : Gives x s a t) : I t :=
  h.result (gives_run.mp hg)

theorem Ends.imp (h : Ends x s I) (himp : ∀ t, I t → J t) : Ends x s J := himp _ h

theorem ends_pure (a : β) (h : I s) : Ends (pure a) s I := h

theorem ends_throw (e : Failure) (h : I s) : Ends (throw e : Run S β) s I := h

theorem ends_raise (x : Except DesignError β) (h : I s) : Ends (Value.raise x) s I := by
  cases x with
  | ok => exact h
  | error => exact h

theorem ends_ofExcept (x : Except Failure β) (h : I s) : Ends (MonadExcept.ofExcept x) s I := by
  cases x with
  | ok => exact h
  | error => exact h

theorem ends_read (f : S → β) (h : I s) : Ends (do return f (← get)) s I := h

theorem ends_modify {f : S → S} (h : I (f s)) : Ends (modify f) s I := h

theorem run_bind_of_gives (hg : Gives x s a t) :
    (x >>= f).run.run s = (f a).run.run t := by
  change ExceptT.bindCont f (x s).1 (x s).2 = _
  rw [show x s = (.ok a, t) from hg]
  rfl

theorem run_bind_of_error (hx : x.run.run s = (.error e, t)) :
    (x >>= f).run.run s = (.error e, t) := by
  change ExceptT.bindCont f (x s).1 (x s).2 = _
  rw [show x s = (.error e, t) from hx]
  rfl

theorem ends_bind_of_gives (hg : Gives x s a t) (h : Ends (f a) t I) :
    Ends (x >>= f) s I := by
  unfold Ends
  rw [run_bind_of_gives hg]
  exact h

theorem ends_bind_of_error (hx : x.run.run s = (.error e, t)) (h : I t) :
    Ends (x >>= f) s I := by
  unfold Ends
  rw [run_bind_of_error hx]
  exact h

/-- Where the first part fails the whole has ended; otherwise the rest goes on from its result. -/
theorem ends_bind (hx : Ends x s I) (hf : ∀ a t, Gives x s a t → Ends (f a) t I) :
    Ends (x >>= f) s I := by
  unfold Ends at hx
  cases h : x.run.run s with
  | mk r t =>
    rw [h] at hx
    cases r with
    | ok a => exact ends_bind_of_gives h (hf a t h)
    | error => exact ends_bind_of_error h hx

theorem fails_bind (h : (x >>= f).run.run s = (.error e, t)) :
    x.run.run s = (.error e, t) ∨ ∃ a u, Gives x s a u ∧ (f a).run.run u = (.error e, t) := by
  change ExceptT.bindCont f (x s).1 (x s).2 = _ at h
  cases hx : x.run.run s with
  | mk r u =>
    rw [show x s = (r, u) from hx] at h
    cases r with
    | ok a => exact .inr ⟨a, u, hx, h⟩
    | error =>
      cases h
      exact .inl rfl

theorem run_tryCatch_of_gives (hg : Gives x s a t) :
    (tryCatch x h).run.run s = (.ok a, t) := by
  rw [ExceptT.run_tryCatch, StateT.run_bind, gives_run.mp hg]
  rfl

theorem run_tryCatch_of_error (hx : x.run.run s = (.error e, t)) :
    (tryCatch x h).run.run s = (h e).run.run t := by
  rw [ExceptT.run_tryCatch, StateT.run_bind, hx]
  rfl

theorem ends_tryCatch (hx : Ends x s J) (hok : ∀ t, J t → I t)
    (hh : ∀ e t, J t → Ends (h e) t I) : Ends (tryCatch x h) s I := by
  unfold Ends at hx ⊢
  cases hrun : x.run.run s with
  | mk r t =>
    rw [hrun] at hx
    cases r with
    | ok =>
      rw [run_tryCatch_of_gives hrun]
      exact hok t hx
    | error e =>
      rw [run_tryCatch_of_error hrun]
      exact hh e t hx

/-- Whatever its outcome, the computation moves the state along `R`. -/
def Moves (R : S → S → Prop) (x : Run S β) : Prop := ∀ s, Ends x s (R s)

variable (R) in
/-- Relations that hold of doing nothing and of one thing after another. -/
structure IsPath : Prop where
  refl : ∀ s, R s s
  trans : ∀ {s t u}, R s t → R t u → R s u

theorem Moves.gives (h : Moves R x) (hg : Gives x s a t) : R s t := (h s).gives hg

theorem Moves.ends (h : Moves R x) (hx : x.run.run s = (r, t)) : R s t :=
  (h s).result hx

theorem Moves.imp {R' : S → S → Prop} (h : Moves R x) (himp : ∀ s t, R s t → R' s t) : Moves R' x :=
  fun s => himp s _ (h s)

theorem Moves.ite {p : Prop} [Decidable p] {x y : Run S β} (hx : Moves R x) (hy : Moves R y) :
    Moves R (if p then x else y) := by
  split
  · exact hx
  · exact hy

namespace IsPath

variable (hR : IsPath R)
include hR

theorem pure (a : β) : Moves R (Pure.pure a : Run S β) := fun s => ends_pure a (hR.refl s)

theorem throw (e : Failure) : Moves R (MonadExcept.throw e : Run S β) := fun s => ends_throw e (hR.refl s)

theorem raise (x : Except DesignError β) : Moves R (Value.raise x : Run S β) := fun s => ends_raise x (hR.refl s)

theorem ofExcept (x : Except Failure β) : Moves R (MonadExcept.ofExcept x : Run S β) :=
  fun s => ends_ofExcept x (hR.refl s)

theorem read (f : S → β) : Moves R (do return f (← get) : Run S β) := fun s => ends_read f (hR.refl s)

theorem bind (hx : Moves R x) (hf : ∀ a, Moves R (f a)) : Moves R (x >>= f) :=
  fun s => ends_bind (hx s) fun a t hg => hR.trans (hx.gives hg) (hf a t)

theorem tryCatch (hx : Moves R x) (hh : ∀ e, Moves R (h e)) :
    Moves R (MonadExcept.tryCatch x h) :=
  fun s => ends_tryCatch (hx s) (fun _ => id) fun e t hst => hR.trans hst (hh e t)

end IsPath

/-- If the computation succeeds, `P` holds of its result and the state it ends in; if it fails, `I` holds of the state. -/
def Yields (x : Run S β) (s : S) (P : β → S → Prop) (I : S → Prop) : Prop :=
  (∀ a t, Gives x s a t → P a t) ∧ ∀ e t, x.run.run s = (.error e, t) → I t

variable {P : β → S → Prop} {Q : γ → S → Prop}

theorem yields_of_gives (hg : Gives x s a t) (h : P a t) : Yields x s P I := by
  refine ⟨fun b u hb => ?_, fun e u he => ?_⟩
  · cases (gives_run.mp hg).symm.trans hb
    exact h
  · cases (gives_run.mp hg).symm.trans he

theorem yields_of_error (hx : x.run.run s = (.error e, t)) (h : I t) : Yields x s P I := by
  refine ⟨fun b u hb => ?_, fun e' u he => ?_⟩
  · cases hx.symm.trans hb
  · cases hx.symm.trans he
    exact h

theorem yields_throw (e : Failure) (h : I s) : Yields (throw e) s P I := yields_of_error rfl h

theorem yields_throw_bind (h : I s) : Yields (throw e >>= f) s Q I :=
  yields_of_error rfl h

theorem yields_modify {f : S → S} {P : PUnit → S → Prop} (h : P ⟨⟩ (f s)) : Yields (modify f) s P I :=
  yields_of_gives (gives_modify.mpr rfl) h

theorem yields_modify_bind {f : S → S} {g : PUnit → Run S γ} (h : Yields (g ⟨⟩) (f s) Q I) :
    Yields (modify f >>= g) s Q I := h

theorem yields_get_bind {f : S → Run S γ} (h : Yields (f s) s Q I) : Yields (get >>= f) s Q I := h

theorem Yields.bind (hx : Yields x s P I) (hf : ∀ a t, P a t → Yields (f a) t Q I) :
    Yields (x >>= f) s Q I := by
  refine ⟨fun b u hg => ?_, fun e u h => ?_⟩
  · obtain ⟨a, t, hga, hg⟩ := gives_bind.mp hg
    exact (hf a t (hx.1 a t hga)).1 b u hg
  · rcases fails_bind h with h | ⟨a, t, hga, h⟩
    · exact hx.2 e u h
    · exact (hf a t (hx.1 a t hga)).2 e u h

theorem yields_raise_bind {x : Except DesignError β} (hf : ∀ a, x = .ok a → Yields (f a) s Q I)
    (h : I s) : Yields (Value.raise x >>= f) s Q I := by
  cases x with
  | ok a => exact hf a rfl
  | error => exact yields_throw_bind h

theorem Yields.imp {P' : β → S → Prop} (hx : Yields x s P I) (hP : ∀ a t, P a t → P' a t)
    (hI : ∀ t, I t → J t) : Yields x s P' J :=
  ⟨fun a t hg => hP a t (hx.1 a t hg), fun e t h => hI t (hx.2 e t h)⟩

theorem Ends.yields (h : Ends x s I) : Yields x s (fun _ => I) I :=
  ⟨fun _ _ hg => h.gives hg, fun _ _ hx => h.result hx⟩

theorem Yields.ends (hx : Yields x s P I) (h : ∀ a t, P a t → I t) : Ends x s I := by
  cases hrun : x.run.run s with
  | mk r t =>
    cases r with
    | ok a => exact ends_of_eq hrun (h a t (hx.1 a t hrun))
    | error e => exact ends_of_eq hrun (hx.2 e t hrun)

theorem Yields.ends_bind (hx : Yields x s P I) (hf : ∀ a t, P a t → Ends (f a) t I) :
    Ends (x >>= f) s I := by
  cases hrun : x.run.run s with
  | mk r t =>
    cases r with
    | ok a => exact ends_bind_of_gives hrun (hf a t (hx.1 a t hrun))
    | error e => exact ends_bind_of_error hrun (hx.2 e t hrun)

theorem Moves.yields_bind (hx : Moves R x)
    (hf : ∀ a t, Gives x s a t → R s t → Yields (f a) t Q I) (hI : ∀ t, R s t → I t) : Yields (x >>= f) s Q I :=
  Yields.bind (P := fun a t => Gives x s a t ∧ R s t) ⟨fun _ _ hg => ⟨hg, hx.gives hg⟩, fun _ t h => hI t (hx.ends h)⟩
    fun a t h => hf a t h.1 h.2

end Endings

namespace Arenas

theorem size_modify (σ : Arenas) (s : SignalId) (f : Signal → Signal) : (σ.modify s f).list.size = σ.list.size := by
  unfold modify
  split
  · rfl
  · exact σ.size_modifyArena _ _

/-- The record of a signal after that of a signal was changed. -/
theorem get?_modify (σ : Arenas) (s s' : SignalId) (f : Signal → Signal) :
    (σ.modify s f).get? s' = (σ.get? s').map fun r => if s = s' then f r else r := by
  unfold modify
  split
  · rename_i hzero
    by_cases hs : s = s'
    · have hnone : σ.get? s' = none := if_pos (hs ▸ hzero)
      rw [hnone]
      rfl
    · simp only [if_neg hs, Option.map_id']
  · rename_i hpos
    unfold get?
    split
    · rfl
    · rename_i hpos'
      by_cases hlt : s'.arena < σ.list.size
      · rw [arena_modifyArena σ _ _ _ hlt]
        by_cases ha : s.arena = s'.arena
        · have hiff : s.number - 1 = s'.number - 1 ↔ s = s' := by
            obtain ⟨a, n⟩ := s
            obtain ⟨a', n'⟩ := s'
            simp only [SignalId.mk.injEq]
            dsimp only at ha hpos hpos'
            omega
          rw [if_pos ha, Array.getElem?_modify]
          simp only [hiff]
          split
          · rfl
          · rw [Option.map_id']
        · have hne : s ≠ s' := fun h => ha (congrArg SignalId.arena h)
          simp only [if_neg ha, if_neg hne, Option.map_id']
      · have hle := Nat.le_of_not_lt hlt
        rw [arena_of_size_le hle, arena_of_size_le ((σ.size_modifyArena _ _).trans_le hle)]
        rfl

theorem Issued.modify {s' : SignalId} (h : σ.Issued s') (s : SignalId) (f : Signal → Signal) :
    (σ.modify s f).Issued s' := by
  unfold Issued at h ⊢
  rw [get?_modify, Option.isSome_map]
  exact h

theorem issue_extends {σ' : Arenas} {a : Nat} {spec : SignalSpec} {id : SignalId} (h : σ.issue a spec = .ok (σ', id)) :
    σ.Extends σ' := by
  obtain ⟨r, hpush, -⟩ := issue_inv h
  have hext := σ.extends_push a r
  rwa [hpush] at hext

end Arenas

namespace Builder

variable {α β : Type} {s t : State α}
variable {a : β} {n position : Nat} {u : Unit} {frame : Frame} {σ' : Arenas} {construct : String} {wanted : Context}
variable {c : Control} {x : Build α β} {I : State α → Prop} {f : Builder α → Builder α}

theorem gives_block {b : Builder α} : Gives (Build.block : Build α (Builder α)) s b t ↔ s.block = b ∧ s = t :=
  gives_read

theorem gives_arenas : Gives (Build.arenas : Build α Arenas) s σ' t ↔ s.arenas = σ' ∧ s = t :=
  gives_read

theorem gives_block_bind {f : Builder α → Build α β} :
    Gives (Build.block >>= f) s a t ↔ Gives (f s.block) s a t := Iff.rfl

theorem gives_arenas_bind {f : Arenas → Build α β} :
    Gives (Build.arenas >>= f) s a t ↔ Gives (f s.arenas) s a t := Iff.rfl

theorem requireContext_inv (hg : Gives (requireContext construct wanted) s u t) : s.block.context = wanted ∧ s = t := by
  replace hg := gives_block_bind.mp hg
  rcases gives_ite.mp hg with ⟨hcontext, hg⟩ | ⟨-, hg⟩
  · exact ⟨hcontext, (gives_pure.mp hg).2⟩
  · rcases gives_ite.mp hg with ⟨-, hg⟩ | ⟨-, hg⟩
    · exact absurd hg not_gives_throw
    · exact absurd hg not_gives_throw

theorem required_inv {f : Unit → Build α β} (hg : Gives (requireContext construct wanted >>= f) s a t) :
    s.block.context = wanted ∧ Gives (f ()) s a t := by
  obtain ⟨u, s1, hrequire, hg⟩ := gives_bind.mp hg
  obtain ⟨hcontext, rfl⟩ := requireContext_inv hrequire
  exact ⟨hcontext, hg⟩

theorem top_inv (hg : Gives top? s (some (position, c)) t) :
    s = t ∧ ∃ base, s.block.stack = base ++ [c] ∧ position = base.length := by
  replace hg := gives_block_bind.mp hg
  obtain ⟨htop, rfl⟩ := gives_pure.mp hg
  obtain ⟨c', hlast, heq⟩ := Option.map_eq_some_iff.mp htop
  cases heq
  refine ⟨rfl, s.block.stack.dropLast, ?_, List.length_dropLast.symm⟩
  exact (List.dropLast_append_getLast? c hlast).symm

section Openings

variable {P : β → State α → Prop} {I : State α → Prop}

theorem yields_block_bind {f : Builder α → Build α β} (h : Yields (f s.block) s P I) : Yields (Build.block >>= f) s P I := h

theorem yields_arenas_bind {f : Arenas → Build α β} (h : Yields (f s.arenas) s P I) : Yields (Build.arenas >>= f) s P I := h

theorem requireContext_eq (construct : String) (wanted : Context) :
    Moves Eq (requireContext construct wanted : Build α Unit) := by
  have heq : IsPath (Eq : State α → State α → Prop) := ⟨fun _ => rfl, fun h h' => h.trans h'⟩
  exact heq.bind (heq.read _) fun _ => (heq.pure ()).ite ((heq.throw _).ite (heq.throw _))

theorem yields_required {construct : String} {wanted : Context} {f : Unit → Build α β}
    (h : s.block.context = wanted → Yields (f ()) s P I) (hI : I s) :
    Yields (requireContext construct wanted >>= f) s P I := by
  refine (requireContext_eq construct wanted).yields_bind (fun u t hg _ => ?_) fun t ht => ht ▸ hI
  obtain ⟨hcontext, rfl⟩ := requireContext_inv hg
  exact h hcontext

theorem yields_top_bind {f : Option (Nat × Control) → Build α β} (h : ∀ o, Gives top? s o s → Yields (f o) s P I) :
    Yields (top? >>= f) s P I := h _ rfl

theorem yields_begin {P : Frame → State α → Prop} {f : List Statement → Frame}
    (h : P (f s.block.statements) { s with block := { s.block with statements := [] } }) :
    Yields (do return f (← beginBody)) s P I :=
  yields_of_gives (a := f s.block.statements) (t := { s with block := { s.block with statements := [] } }) rfl h

end Openings

theorem rescue_inv (hg : Gives (tryCatch x fun e => do
    abandon frame
    throw e) s a t) : Gives x s a t := by
  refine (gives_tryCatch fun e s1 b s2 hfail => ?_).mp hg
  obtain ⟨u, s3, -, hthrow⟩ := gives_bind.mp hfail
  exact not_gives_throw hthrow

/-- What leaving a construct makes of a builder. -/
def left : Frame → Builder α → Builder α
  | .branch _ _ outer, b => { b with statements := outer, depth := b.depth - 1 }
  | .otherwise _ outer, b => { b with statements := outer }
  | .switch, b | .machine _ _, b => { b with depth := b.depth - 1, context := .plain }
  | .arm _ _ _ outer, b => { b with statements := outer, context := .switch }
  | .state _ _ outer, b => { b with statements := outer, context := .machine }

theorem run_abandon (frame : Frame) (s : State α) :
    (abandon frame).run.run s = (.ok (), { s with block := left frame s.block }) := by
  cases frame <;> rfl

theorem run_rescue {e : Failure} {s1 s2 : State α} (hx : x.run.run s1 = (.error e, s2)) :
    (tryCatch x fun e => do
      abandon frame
      throw e).run.run s1 = (.error e, { s2 with block := left frame s2.block }) := by
  rw [run_tryCatch_of_error hx, run_bind_of_gives (run_abandon frame s2)]
  rfl

theorem yields_rescue (frame : Frame) {P : β → State α → Prop}
    (h : Yields x s P fun t => I { t with block := left frame t.block }) :
    Yields (tryCatch x fun e => do
      abandon frame
      throw e) s P I := by
  refine ⟨fun a t hg => h.1 a t (rescue_inv hg), fun e t hfail => ?_⟩
  cases hx : x.run.run s with
  | mk r u =>
    cases r with
    | ok => cases (run_tryCatch_of_gives hx).symm.trans hfail
    | error =>
      cases (run_rescue hx).symm.trans hfail
      exact h.2 e u hx

theorem inside_inv {opened : Build α Frame} {body : Build α Unit} (hg : Gives (inside opened body) s u t) :
    ∃ frame s1 s2, Gives opened s frame s1 ∧ Gives body s1 () s2 ∧ Gives (close frame) s2 u t := by
  obtain ⟨frame, s1, hopen, hg⟩ := gives_bind.mp hg
  obtain ⟨u1, s2, hbody, hg⟩ := gives_bind.mp hg
  exact ⟨frame, s1, s2, hopen, rescue_inv hbody, hg⟩

theorem gives_condition_cast {cond : Operand} {v : Value} (hg : Gives (condition cond) s v t) : cond.cast = .ok v := by
  obtain ⟨v', s1, hcast, hg⟩ := gives_bind.mp hg
  replace hg := gives_arenas_bind.mp hg
  rcases gives_ite.mp hg with ⟨-, hg⟩ | ⟨-, hg⟩
  · obtain ⟨u, -, rfl⟩ := gives_bind_pure.mp hg
    exact (gives_raise.mp hcast).1
  · obtain ⟨rfl, -⟩ := gives_pure.mp hg
    exact (gives_raise.mp hcast).1

/-- The builder stays with its arena, and issued signals stay issued. -/
structure Rooted (s t : State α) : Prop where
  arena : t.block.arena = s.block.arena
  size : t.arenas.list.size = s.arenas.list.size
  issued : ∀ id, s.arenas.Issued id → t.arenas.Issued id

/-- State machines are left alone. -/
structure Calm (s t : State α) : Prop extends Rooted s t where
  machines : t.machines = s.machines

/-- The block and the state machines are left alone. -/
structure Still (s t : State α) : Prop extends Calm s t where
  block : t.block = s.block

/-- Nothing has changed but the reports. -/
def Reports (s t : State α) : Prop := ∃ r, t = { s with reporter := r }

/-- State machines and open constructs are left alone. -/
structure Idle (s t : State α) : Prop extends Calm s t where
  context : t.block.context = s.block.context
  stack : t.block.stack = s.block.stack
  depth : t.block.depth = s.block.depth

theorem Rooted.isPath : IsPath (Rooted (α := α)) where
  refl _ := ⟨rfl, rfl, fun _ => id⟩
  trans h h' := ⟨h'.arena.trans h.arena, h'.size.trans h.size, fun id hid => h'.issued id (h.issued id hid)⟩

theorem Calm.isPath : IsPath (Calm (α := α)) where
  refl _ := ⟨Rooted.isPath.refl _, rfl⟩
  trans h h' := ⟨Rooted.isPath.trans h.toRooted h'.toRooted, h'.machines.trans h.machines⟩

theorem Idle.isPath : IsPath (Idle (α := α)) where
  refl _ := ⟨Calm.isPath.refl _, rfl, rfl, rfl⟩
  trans h h' := ⟨Calm.isPath.trans h.toCalm h'.toCalm, h'.context.trans h.context, h'.stack.trans h.stack,
    h'.depth.trans h.depth⟩

theorem Still.isPath : IsPath (Still (α := α)) where
  refl _ := ⟨Calm.isPath.refl _, rfl⟩
  trans h h' := ⟨Calm.isPath.trans h.toCalm h'.toCalm, h'.block.trans h.block⟩

theorem Still.idle (h : Still s t) : Idle s t :=
  ⟨h.toCalm, congrArg Builder.context h.block, congrArg Builder.stack h.block, congrArg Builder.depth h.block⟩

theorem Reports.isPath : IsPath (Reports (α := α)) where
  refl s := ⟨s.reporter, rfl⟩
  trans := by
    rintro s t u ⟨r, rfl⟩ ⟨r', rfl⟩
    exact ⟨r', rfl⟩

theorem Reports.still (h : Reports s t) : Still s t := by
  obtain ⟨r, rfl⟩ := h
  exact ⟨⟨⟨rfl, rfl, fun _ => id⟩, rfl⟩, rfl⟩

theorem still_of_reports (h : Moves Reports x) : Moves Still x := h.imp fun _ _ => Reports.still

theorem idle_of_still (h : Moves Still x) : Moves Idle x := h.imp fun _ _ => Still.idle

theorem calm_of_idle (h : Moves Idle x) : Moves Calm x := h.imp fun _ _ => Idle.toCalm

theorem rooted_of_calm (h : Moves Calm x) : Moves Rooted x := h.imp fun _ _ => Calm.toRooted

theorem modifyBlock_calm (h : ∀ b, (f b).arena = b.arena) : Moves Calm (Build.modifyBlock f) :=
  fun s => ends_modify ⟨⟨h s.block, rfl, fun _ => id⟩, rfl⟩

theorem setArenas_still (hsize : σ.list.size = s.arenas.list.size) (hissued : ∀ id, s.arenas.Issued id → σ.Issued id) :
    Ends (Build.setArenas σ) s (Still s) :=
  ends_modify ⟨⟨⟨rfl, hsize, hissued⟩, rfl⟩, rfl⟩

theorem requireContext_reports (construct : String) (wanted : Context) :
    Moves Reports (requireContext construct wanted : Build α Unit) :=
  (requireContext_eq construct wanted).imp fun s _ h => h ▸ Reports.isPath.refl s

theorem warn_reports (message : String) : Moves Reports (Build.warn message : Build α Unit) := by
  intro s
  refine ends_modify ?_
  split
  · exact ⟨_, rfl⟩
  · exact Reports.isPath.refl s

theorem condition_reports (cond : Operand) : Moves Reports (condition cond : Build α Value) := by
  refine Reports.isPath.bind (Reports.isPath.raise _) fun v => Reports.isPath.bind (Reports.isPath.read _) fun σ => ?_
  exact (Reports.isPath.bind (warn_reports _) fun _ => Reports.isPath.pure v).ite (Reports.isPath.pure v)

theorem top_reports : Moves Reports (top? : Build α (Option (Nat × Control))) :=
  Reports.isPath.bind (Reports.isPath.read _) fun _ => Reports.isPath.pure _

theorem issue_still (spec : SignalSpec) : Moves Still (Build.issue spec : Build α SignalId) := by
  intro s
  refine ends_bind_of_gives (gives_arenas.mpr ⟨rfl, rfl⟩) (ends_bind_of_gives (gives_block.mpr ⟨rfl, rfl⟩) ?_)
  refine ends_bind (ends_raise _ (Still.isPath.refl s)) fun (σ, id) s3 hissue => ?_
  obtain ⟨hnew, rfl⟩ := gives_raise.mp hissue
  have hext := Arenas.issue_extends hnew
  exact ends_bind (setArenas_still hext.size hext.issued) fun u t ht =>
    ends_pure id ((setArenas_still hext.size hext.issued).gives ht)

/-- Sizing a state register changes records only. -/
theorem sizeRegister_rooted {m : Machine} {number : Nat} {defined : List String}
    (h : m.sizeRegister σ number defined = .ok σ') : σ'.list.size = σ.list.size ∧ ∀ id, σ.Issued id → σ'.Issued id := by
  obtain ⟨σ1, hreshape, rfl⟩ := except_bind_pure_eq_ok.mp h
  unfold Arenas.reshape at hreshape
  split at hreshape
  · cases hreshape
  · obtain rfl := Except.ok.inj hreshape
    refine ⟨(Arenas.size_modify _ _ _).trans (Arenas.size_modify _ _ _), fun id hid => ?_⟩
    exact (hid.modify _ _).modify _ _

/-- Lowering a control may size a state register. -/
theorem lower_still (c : Control) : Moves Still (lower c : Build α (List Statement)) := by
  cases c with
  | machine number states =>
    intro s
    change Ends (lowerMachine number states) s (Still s)
    unfold lowerMachine
    split
    · exact ends_pure _ (Still.isPath.refl s)
    refine ends_bind_of_gives (gives_read.mpr ⟨rfl, rfl⟩) (ends_bind_of_gives (gives_arenas.mpr ⟨rfl, rfl⟩) ?_)
    refine ends_bind (ends_raise _ (Still.isPath.refl s)) fun σ s1 hsize => ?_
    obtain ⟨hsized, rfl⟩ := gives_raise.mp hsize
    obtain ⟨hσ, hissued⟩ := sizeRegister_rooted hsized
    have hset : Ends (Build.setArenas σ) s (Still s) := setArenas_still hσ hissued
    refine ends_bind hset fun u s1 hs1 => Still.isPath.trans (hset.gives hs1) ?_
    exact Still.isPath.bind (Still.isPath.ofExcept _)
      (fun _ => Still.isPath.bind (Still.isPath.raise _) fun _ => Still.isPath.pure _) s1
  | _ =>
    exact Still.isPath.bind (Still.isPath.read _) fun _ => Still.isPath.bind (Still.isPath.raise _) fun _ =>
      Still.isPath.pure _

theorem armPatterns_reports (width : Int) (patterns : List Operand) :
    Moves Reports (armPatterns width patterns : Build α (List String)) := by
  induction patterns with
  | nil => exact Reports.isPath.pure []
  | cons p rest ih =>
    refine Reports.isPath.bind (Reports.isPath.ofExcept _) fun kept => ?_
    cases kept with
    | some => exact Reports.isPath.bind ih fun _ => Reports.isPath.pure _
    | none =>
      cases p with
      | int => exact Reports.isPath.bind (warn_reports _) fun _ => ih
      | _ => exact ih

/-- Nothing has changed but the driving table. -/
def Redriven (s t : State α) : Prop := ∃ table, t = { s with block := { s.block with driving := table } }

theorem Redriven.isPath : IsPath (Redriven (α := α)) where
  refl s := ⟨s.block.driving, rfl⟩
  trans := by
    rintro s t u ⟨table, rfl⟩ ⟨table', rfl⟩
    exact ⟨table', rfl⟩

theorem Redriven.idle (h : Redriven s t) : Idle s t := by
  obtain ⟨table, rfl⟩ := h
  exact ⟨⟨⟨rfl, rfl, fun _ => id⟩, rfl⟩, rfl, rfl, rfl⟩

theorem drive_redriven (domain : String) (nets : List Net) : Moves Redriven (drive domain nets : Build α Unit) := by
  induction nets with
  | nil => exact Redriven.isPath.pure ()
  | cons n rest ih =>
    refine Redriven.isPath.bind (Redriven.isPath.read _) fun b => ?_
    split
    · exact Redriven.isPath.bind (fun s => ends_modify ⟨_, rfl⟩) fun _ => ih
    · exact (Redriven.isPath.bind (Redriven.isPath.read _) fun _ => Redriven.isPath.throw _).ite ih

/-- An assignment or property is placed, its targets are noted, and it is added to the body. -/
theorem yields_addStatement {domain : String} {x : Statement} {P : Unit → State α → Prop} (hI : I s)
    (h : ∀ filled nets, x.isAction = true → placed s.arenas domain x = .ok filled → x.assigned s.arenas = .ok nets →
      Yields (drive domain nets.items) s
        (fun _ t => P () { t with block := { t.block with statements := t.block.statements ++ filled } }) I) :
    Yields (addStatement domain x) s P I := by
  have hadd (hx : x.isAction = true) : Yields (do
      let σ ← Build.arenas
      let filled ← MonadExcept.ofExcept (placed σ domain x)
      drive domain (← Value.raise (x.assigned σ)).items
      append filled : Build α Unit) s P I := by
    refine yields_arenas_bind ((Moves.yields_bind (R := Eq) (fun _ => ends_ofExcept _ rfl)) (fun filled t hg ht => ?_)
      fun t ht => ht ▸ hI)
    obtain rfl := ht
    refine yields_raise_bind (fun nets hnets => ?_) hI
    exact (h filled nets hx (gives_ofExcept.mp hg).1 hnets).bind fun _ t ht => yields_modify ht
  cases x with
  | switch => exact yields_throw _ hI
  | assign => exact hadd rfl
  | property => exact hadd rfl

theorem addStatement_idle (domain : String) (x : Statement) : Moves Idle (addStatement domain x : Build α Unit) := by
  intro s
  refine Yields.ends (P := fun _ => Idle s) (yields_addStatement (Idle.isPath.refl s) fun filled nets _ _ _ => ?_)
    fun _ _ => id
  have hdrive : Ends (drive domain nets.items) s (Idle s) := (drive_redriven domain nets.items s).idle
  exact hdrive.yields.imp (fun _ t ht => ⟨⟨⟨ht.arena, ht.size, ht.issued⟩, ht.machines⟩, ht.context, ht.stack, ht.depth⟩) fun _ => id

theorem addEach_idle (domain : String) (stmts : List Statement) : Moves Idle (addEach domain stmts : Build α Unit) := by
  induction stmts with
  | nil => exact Idle.isPath.pure ()
  | cons x rest ih => exact Idle.isPath.bind (addStatement_idle domain x) fun _ => ih

/-- Nothing has changed but the submodules and the domains of the block. -/
def Enrolled (s t : State α) : Prop := ∃ named anonymous domains,
  t = { s with block := { s.block with named := named, anonymous := anonymous, domains := domains } }

theorem Enrolled.isPath : IsPath (Enrolled (α := α)) where
  refl s := ⟨_, _, _, rfl⟩
  trans := by
    rintro s t u ⟨_, _, _, rfl⟩ ⟨_, _, _, rfl⟩
    exact ⟨_, _, _, rfl⟩

theorem Enrolled.idle (h : Enrolled s t) : Idle s t := by
  obtain ⟨_, _, _, rfl⟩ := h
  exact ⟨⟨⟨rfl, rfl, fun _ => id⟩, rfl⟩, rfl, rfl, rfl⟩

theorem addSubmodule_enrolled (name : String) (sub : Option α) : Moves Enrolled (addSubmodule name sub : Build α Unit) := by
  cases sub with
  | none => exact Enrolled.isPath.throw _
  | some =>
    refine Moves.ite (fun s => ends_modify ⟨_, _, _, rfl⟩) (Enrolled.isPath.bind (Enrolled.isPath.read _) fun _ => ?_)
    exact Moves.ite (Enrolled.isPath.throw _) fun s => ends_modify ⟨_, _, _, rfl⟩

theorem addDomains_enrolled (domains : List ClockDomain) : Moves Enrolled (addDomains domains : Build α Unit) := by
  induction domains with
  | nil => exact Enrolled.isPath.pure ()
  | cons cd rest ih =>
    refine Enrolled.isPath.bind (Enrolled.isPath.read _) fun _ => ?_
    split
    · exact Enrolled.isPath.throw _
    · exact Enrolled.isPath.bind (fun s => ends_modify ⟨_, _, _, rfl⟩) fun _ => ih

/-- The machine that a control stands for. -/
def machineOf? : Control → Option Nat
  | .machine number _ => some number
  | _ => none

/-- A machine is among the open constructs. -/
def Holds (number : Nat) (stack : List Control) : Prop := ∃ c ∈ stack, machineOf? c = some number

theorem holds_concat {base : List Control} : Holds n (base ++ [c]) ↔ Holds n base ∨ machineOf? c = some n := by
  simp only [Holds, List.mem_append, List.mem_singleton, or_and_right, exists_or, exists_eq_left]

theorem Holds.of_modify {stack : List Control} {f : Control → Control} (hf : ∀ c, machineOf? (f c) = machineOf? c)
    (h : Holds n (stack.modify position f)) : Holds n stack := by
  obtain ⟨c, hc, hn⟩ := h
  obtain ⟨i, hi⟩ := List.mem_iff_getElem?.mp hc
  rw [List.getElem?_modify] at hi
  obtain ⟨c', hc', rfl⟩ := Option.map_eq_some_iff.mp hi
  refine ⟨c', List.mem_of_getElem? hc', ?_⟩
  split at hn
  · rwa [hf] at hn
  · exact hn

/-- What steps that leave the block alone move along, and changes of it that bring in no machine and assign nothing. -/
class Tolerates (R : State α → State α → Prop) : Prop extends IsPath R where
  still : ∀ {β : Type} {x : Build α β}, Moves Still x → Moves R x
  modify : ∀ {f : Builder α → Builder α}, (∀ b, (f b).arena = b.arena ∧ (f b).driving = b.driving) →
    (∀ b n, Holds n (f b).stack → Holds n b.stack) → Moves R (Build.modifyBlock f)

instance : Tolerates (Calm (α := α)) where
  toIsPath := Calm.isPath
  still h := calm_of_idle (idle_of_still h)
  modify h _ := modifyBlock_calm fun b => (h b).1

instance : Tolerates (Rooted (α := α)) where
  toIsPath := Rooted.isPath
  still h := rooted_of_calm (calm_of_idle (idle_of_still h))
  modify h _ := rooted_of_calm (modifyBlock_calm fun b => (h b).1)

end Builder

end Rtl
