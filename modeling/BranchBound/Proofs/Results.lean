import BranchBound.Error
import Mathlib.Data.List.Induction

/-!
# Results of many steps

What is known of steps that can fail, when many of them follow one another. What each step keeps
holds after the last one (`foldlM_induction`, `invariant_of_foldlM`). Steps that never fail reach an
end (`exists_foldlM_of_forall`), and if what they do is known without failures, so is the end
(`foldlM_eq_ok`, `mapM_eq_ok`). Two folds whose steps answer each other end as they began
(`exists_foldlM_of_rel`).
-/

namespace BranchBound

variable {ε σ τ β γ : Type} {f : σ → β → Except ε σ} {l : List β} {s s' : σ}

/-- What holds of no steps and the first state, and is kept by one step more, holds of all steps and
the last state. -/
theorem foldlM_induction {P : List β → σ → Prop}
    (hstep : ∀ {done : List β} {s s' : σ} {x : β}, f s x = .ok s' → P done s → P (done ++ [x]) s')
    (h : l.foldlM f s = .ok s') (hs : P [] s) : P l s' := by
  induction l using List.reverseRecOn generalizing s' with
  | nil =>
    rw [List.foldlM_nil] at h
    rwa [← Except.ok.inj h]
  | append_singleton done x ih =>
    rw [List.foldlM_append, bind_eq_ok] at h
    obtain ⟨last, hdone, hlast⟩ := h
    rw [List.foldlM_cons, bind_eq_ok] at hlast
    obtain ⟨end', hx, hend⟩ := hlast
    rw [← Except.ok.inj hend]
    exact hstep hx (ih hdone)

/-- What every step keeps holds after the last one. -/
theorem invariant_of_foldlM {P : σ → Prop}
    (hstep : ∀ {s s' : σ} {x : β}, f s x = .ok s' → P s → P s') (h : l.foldlM f s = .ok s')
    (hs : P s) : P s' :=
  foldlM_induction (P := fun _ s => P s) hstep h hs

/-- A fold goes through if each of its steps does from every state of a kind, and keeps the kind. -/
theorem exists_foldlM_of_forall {P : σ → Prop}
    (hstep : ∀ s, P s → ∀ x ∈ l, ∃ s', f s x = .ok s' ∧ P s') (hs : P s) :
    ∃ s', l.foldlM f s = .ok s' ∧ P s' := by
  induction l generalizing s with
  | nil => exact ⟨s, rfl, hs⟩
  | cons x rest ih =>
    obtain ⟨next, hnext, hP⟩ := hstep s hs x List.mem_cons_self
    rw [List.foldlM_cons, hnext]
    exact ih (fun t ht y hy => hstep t ht y (List.mem_cons_of_mem x hy)) hP

/-- Steps that all succeed, from states of one kind to states of that kind, give the state after all
of them. -/
theorem foldlM_eq_ok {P : σ → Prop} {g : σ → β → σ}
    (hstep : ∀ s, P s → ∀ x ∈ l, f s x = .ok (g s x) ∧ P (g s x)) (hs : P s) :
    l.foldlM f s = .ok (l.foldl g s) ∧ P (l.foldl g s) := by
  induction l generalizing s with
  | nil => exact ⟨rfl, hs⟩
  | cons x rest ih =>
    obtain ⟨hx, hnext⟩ := hstep s hs x List.mem_cons_self
    rw [List.foldlM_cons, hx, List.foldl_cons]
    exact ih (fun t ht y hy => hstep t ht y (List.mem_cons_of_mem x hy)) hnext

/-- Steps that all succeed give all their results. -/
theorem mapM_eq_ok {f : β → Except ε γ} {g : β → γ} (h : ∀ x ∈ l, f x = .ok (g x)) :
    l.mapM f = .ok (l.map g) := by
  induction l with
  | nil => rfl
  | cons x rest ih =>
    rw [List.mapM_cons, h x List.mem_cons_self, ih fun y hy => h y (List.mem_cons_of_mem x hy)]
    rfl

/-- A fold goes through if each of its steps goes with one that does, and what the two results of a
step have in common is common to the last ones. -/
theorem exists_foldlM_of_rel {g : τ → γ → Except ε τ} {k : β → γ} {R : σ → τ → Prop}
    (hstep : ∀ {s s' : σ} {t : τ} {x : β}, R s t → f s x = .ok s' →
      ∃ t', g t (k x) = .ok t' ∧ R s' t')
    {t : τ} (hst : R s t) (h : l.foldlM f s = .ok s') :
    ∃ t', (l.map k).foldlM g t = .ok t' ∧ R s' t' := by
  induction l generalizing s t with
  | nil =>
    rw [← Except.ok.inj h]
    exact ⟨t, rfl, hst⟩
  | cons x rest ih =>
    rw [List.foldlM_cons, bind_eq_ok] at h
    obtain ⟨next, hnext, h⟩ := h
    obtain ⟨next', hnext', hR⟩ := hstep hst hnext
    rw [List.map_cons, List.foldlM_cons, hnext']
    exact ih hR h

end BranchBound
