import Mathlib
import Rtl.Proofs.KeyTexts

/-!
# Keys of samples

Lowered samples are looked up by their keys, which are texts. The key of a sample of a constant or a signal gives away
the sample. Two samples of references with one key need not be the same, since a domain may have any name, but the
values they sample have the same shape.
-/
namespace Rtl.Value

variable {n n' : Int} {v v' : Value} {us vs : List Char} {d d' : String}

theorem endsNumeral_comma (rest : List Char) : EndsNumeral (',' :: rest) := endsNumeral_cons (by decide) rest

theorem eq_of_const_key {s : Shape} (h : (const n s).key.toList ++ ',' :: us = v.key.toList ++ ',' :: vs) :
    v = const n s ∧ us = vs := by
  have hgenus := genus_eq_of_key h
  cases v with
  | const =>
    obtain ⟨hconst, hrest⟩ := const_key_inj (endsNumeral_comma _) (endsNumeral_comma _) h
    exact ⟨hconst.symm, (List.cons.inj hrest).2⟩
  | _ => cases hgenus

/-- A signal's key gives away the signal. -/
theorem eq_of_signal_key {id : SignalId} (h : (net (.signal id)).key.toList ++ ',' :: us = v.key.toList ++ ',' :: vs) :
    v = net (.signal id) ∧ us = vs := by
  have hgenus := genus_eq_of_key h
  cases v with
  | net m =>
    cases m with
    | signal =>
      obtain ⟨rfl, hrest⟩ := signal_key_inj (endsNumeral_comma _) (endsNumeral_comma _) h
      exact ⟨rfl, (List.cons.inj hrest).2⟩
    | clock | reset => exact absurd (rank_eq_of_key h) (by simp [Net.key, NetKey.rank])
  | _ => cases hgenus

/-- The first-cycle flag is the only value whose key starts with its letter. -/
theorem eq_of_initial_key (h : Value.initial.key.toList ++ ',' :: us = v.key.toList ++ ',' :: vs) : v = .initial := by
  have hgenus := genus_eq_of_key h
  cases v with
  | initial => rfl
  | _ => cases hgenus

/-- A constant or a signal. -/
def IsSteady : Value → Prop
  | .const _ _ => True
  | .net (.signal _) => True
  | _ => False

theorem sample_key_append (h : (sample v n d).key = (sample v' n' d').key) :
    v.key.toList ++ ',' :: ((toString n).toList ++ ',' :: (d.toList ++ [')'])) =
      v'.key.toList ++ ',' :: ((toString n').toList ++ ',' :: (d'.toList ++ [')'])) := by
  have hkeys := congrArg String.toList h
  rw [toList_key, toList_key] at hkeys
  simpa only [keyText, List.cons.injEq, true_and] using hkeys

theorem clocks_of_sample_key (h : (sample v n d).key = (sample v n' d).key) : n = n' := by
  have hrest := List.append_cancel_left (sample_key_append h)
  exact (intText_append_inj (endsNumeral_comma _) (endsNumeral_comma _) (List.cons.inj hrest).2).1

/-- The key of a sample of a constant or a signal gives away the sample. -/
theorem IsSteady.eq_of_sample_key (hv : v.IsSteady) (h : (sample v n d).key = (sample v' n' d').key) :
    v' = v ∧ n' = n ∧ d' = d := by
  have hkey := sample_key_append h
  have hvalue : v' = v ∧ (toString n).toList ++ ',' :: (d.toList ++ [')']) =
      (toString n').toList ++ ',' :: (d'.toList ++ [')']) := by
    cases v with
    | const => exact eq_of_const_key hkey
    | net m =>
      cases m with
      | signal => exact eq_of_signal_key hkey
      | clock | reset => exact hv.elim
    | _ => exact hv.elim
  obtain ⟨hn, hrest⟩ := intText_append_inj (endsNumeral_comma _) (endsNumeral_comma _) hvalue.2
  refine ⟨hvalue.1, hn.symm, String.toList_inj.mp ?_⟩
  exact (List.append_cancel_right (List.cons.inj hrest).2).symm

/-- Samples with one key are of values with one shape. -/
theorem shape_eq_of_sample_key (hv : v.isSampled = true) (hv' : v'.isSampled = true)
    (h : (sample v n d).key = (sample v' n' d').key) (σ : Arenas) : v.shape σ = v'.shape σ := by
  by_cases hsteady : v.IsSteady
  · rw [(hsteady.eq_of_sample_key h).1]
  · by_cases hsteady' : v'.IsSteady
    · rw [(hsteady'.eq_of_sample_key h.symm).1]
    · -- What is left are references and the flag, all single bits.
      have hbit : ∀ {w : Value}, w.isSampled = true → ¬ w.IsSteady → w.shape σ = .unsigned 1 := by
        intro w hw hnot
        cases w with
        | const => exact absurd trivial hnot
        | net m =>
          cases m with
          | signal => exact absurd trivial hnot
          | clock | reset => rfl
        | initial => rfl
        | _ => cases hw
      rw [hbit hv hsteady, hbit hv' hsteady']

end Rtl.Value
