/-
# Runs of a labelled transition system

A system is a relation `step s l t`: from state `s` one atomic step, observed
as the label `l`, leads to `t`.  A run is a sequence of steps, and its trace is
the list of their labels, oldest first.  Whatever interleaves (threads, handlers
of connections, clients) is in the labels, so a statement about every run is a
statement about every interleaving.

The rules below are the only inductions over runs in this development: an
invariant may speak of the trace (`Run.invariant`), and may rest on an assumption
about each step (`Run.invariant_of`).
-/

import Mathlib.Data.List.Induction

namespace Jackalope
namespace Foundation

variable {σ ℓ : Type*} {step : σ → ℓ → σ → Prop}

/-- From `s` the steps labelled by the trace, in order, lead to the last state. -/
inductive Run (step : σ → ℓ → σ → Prop) (s : σ) : List ℓ → σ → Prop
  | refl : Run step s [] s
  | snoc {tr t l u} : Run step s tr t → step t l u → Run step s (tr ++ [l]) u

/-- One step is a run. -/
theorem Run.single {s t : σ} {l : ℓ} (h : step s l t) : Run step s [l] t :=
  Run.snoc Run.refl h

/-- Runs compose, and so do their traces. -/
theorem Run.trans {s t u : σ} {tr tr' : List ℓ} (h : Run step s tr t) (h' : Run step t tr' u) :
    Run step s (tr ++ tr') u := by
  induction h' with
  | refl => simpa using h
  | snoc _ hstep ih =>
      rw [← List.append_assoc]
      exact Run.snoc ih hstep

/-- A run is empty, or its first step is followed by a run. -/
theorem Run.cons {s t u : σ} {l : ℓ} {tr : List ℓ} (h : step s l t) (h' : Run step t tr u) :
    Run step s (l :: tr) u :=
  (Run.single h).trans h'

/-- A run goes through the state between two parts of its trace: what leads to it has the
first part, what follows from it the second.  -/
theorem Run.split {s t : σ} {tr₁ tr₂ : List ℓ} (h : Run step s (tr₁ ++ tr₂) t) :
    ∃ u, Run step s tr₁ u ∧ Run step u tr₂ t := by
  induction tr₂ using List.reverseRecOn generalizing t with
  | nil => exact ⟨t, by simpa using h, Run.refl⟩
  | append_singleton tr₂ l ih =>
      rw [← List.append_assoc] at h
      generalize htr : tr₁ ++ tr₂ ++ [l] = tr at h
      cases h with
      | refl => simp at htr
      | snoc hrun hstep =>
          obtain ⟨rfl, hl⟩ := List.append_inj' htr rfl
          cases hl
          obtain ⟨u, h₁, h₂⟩ := ih hrun
          exact ⟨u, h₁, h₂.snoc hstep⟩

/-- A run goes through each of its steps: the state before it, the step itself, and the
state after it, from which the run goes on.  -/
theorem Run.split_cons {s t : σ} {tr₁ tr₂ : List ℓ} {l : ℓ} (h : Run step s (tr₁ ++ l :: tr₂) t) :
    ∃ u v, Run step s tr₁ u ∧ step u l v ∧ Run step v tr₂ t := by
  rw [← List.singleton_append, ← List.append_assoc] at h
  obtain ⟨v, hv, h₂⟩ := h.split
  generalize htr : tr₁ ++ [l] = tr at hv
  cases hv with
  | refl => simp at htr
  | snoc hrun hstep =>
      obtain ⟨rfl, hl⟩ := List.append_inj' htr rfl
      cases hl
      exact ⟨_, v, hrun, hstep, h₂⟩

/-- **An invariant of runs.**  A property of the trace and the state that holds
of the empty run and that every step preserves holds of every run. -/
theorem Run.invariant {s t : σ} {tr : List ℓ} (I : List ℓ → σ → Prop) (h : Run step s tr t)
    (h0 : I [] s) (hstep : ∀ tr t l u, I tr t → step t l u → I (tr ++ [l]) u) : I tr t := by
  induction h with
  | refl => exact h0
  | snoc _ hst ih => exact hstep _ _ _ _ ih hst

/-- **An invariant under an assumption.**  As `Run.invariant`, where the steps of
the run are known to satisfy `A`. -/
theorem Run.invariant_of {s t : σ} {tr : List ℓ} (A : ℓ → Prop) (I : List ℓ → σ → Prop)
    (h : Run step s tr t) (hA : ∀ l ∈ tr, A l) (h0 : I [] s)
    (hstep : ∀ tr t l u, I tr t → A l → step t l u → I (tr ++ [l]) u) : I tr t := by
  induction h with
  | refl => exact h0
  | snoc _ hst ih =>
      refine hstep _ _ _ _ (ih fun l hl => hA l ?_) (hA _ ?_) hst
      · exact List.mem_append_left _ hl
      · exact List.mem_append_right _ (List.mem_singleton_self _)

/-- Runs of a system that allows more steps. -/
theorem Run.mono {step' : σ → ℓ → σ → Prop} {s t : σ} {tr : List ℓ} (h : Run step s tr t)
    (hstep : ∀ s l t, step s l t → step' s l t) : Run step' s tr t := by
  induction h with
  | refl => exact Run.refl
  | snoc _ hst ih => exact ih.snoc (hstep _ _ _ hst)

/-- **Runs of a part.**  If every step of a system is, under `f`, a step of a part of it or
leaves the part alone, then its runs are runs of the part. -/
theorem Run.project {σ' ℓ' : Type*} {step' : σ' → ℓ' → σ' → Prop} {s t : σ} {tr : List ℓ}
    (h : Run step s tr t) (f : σ → σ') (g : ℓ → Option ℓ')
    (hstep : ∀ s l t, step s l t → (∃ l', g l = some l' ∧ step' (f s) l' (f t)) ∨
      (g l = none ∧ f t = f s)) : Run step' (f s) (tr.filterMap g) (f t) := by
  induction h with
  | refl => exact Run.refl
  | snoc _ hst ih =>
      rw [List.filterMap_append]
      rcases hstep _ _ _ hst with ⟨l', hl, hst'⟩ | ⟨hl, heq⟩
      · rw [List.filterMap_cons_some hl]
        exact ih.snoc hst'
      · rw [List.filterMap_cons_none hl, heq, List.filterMap_nil, List.append_nil]
        exact ih

/-- A label of a trace in two parts is in one of the parts. -/
theorem trace_split {x y a b : List ℓ} {l : ℓ} (h : x ++ y = a ++ l :: b) :
    (∃ c, y = c ++ l :: b ∧ a = x ++ c) ∨ ∃ c, x = a ++ l :: c ∧ b = c ++ y := by
  rcases List.append_eq_append_iff.1 h with ⟨c, rfl, hy⟩ | ⟨c, hx, hc⟩
  · exact Or.inl ⟨c, hy, rfl⟩
  · rcases c with _ | ⟨z, c⟩
    · exact Or.inl ⟨[], hc.symm, by simpa using hx.symm⟩
    · obtain ⟨rfl, hb⟩ := List.cons.inj hc
      exact Or.inr ⟨c, hx, hb⟩

/-- A label of a trace that is one step longer is the last, or was there before. -/
theorem trace_split_snoc {tr a b : List ℓ} {l l' : ℓ} : tr ++ [l] = a ++ l' :: b ↔
    (a = tr ∧ l' = l ∧ b = []) ∨ ∃ b', b = b' ++ [l] ∧ tr = a ++ l' :: b' := by
  constructor
  · intro h
    rcases trace_split h with ⟨c, hl, rfl⟩ | ⟨b', htr, hb⟩
    · rcases c with _ | ⟨z, c⟩
      · obtain ⟨rfl, rfl⟩ := List.cons.inj hl
        exact Or.inl ⟨List.append_nil tr, rfl, rfl⟩
      · simp at hl
    · exact Or.inr ⟨b', hb, htr⟩
  · rintro (⟨rfl, rfl, rfl⟩ | ⟨b', rfl, rfl⟩)
    · rfl
    · simp

/-- Two labels of a trace, one behind the other: so are they in a longer trace, and there
the second may also be the last. -/
theorem trace_split_two_snoc {tr a b c : List ℓ} {l l₁ l₂ : ℓ} :
    tr ++ [l] = a ++ l₁ :: (b ++ l₂ :: c) ↔
      (tr = a ++ l₁ :: b ∧ l₂ = l ∧ c = []) ∨ ∃ c', c = c' ++ [l] ∧ tr = a ++ l₁ :: (b ++ l₂ :: c') := by
  have hassoc : ∀ c, a ++ l₁ :: (b ++ l₂ :: c) = (a ++ l₁ :: b) ++ l₂ :: c := by simp
  simp only [hassoc, trace_split_snoc]
  rw [eq_comm (a := tr)]

end Foundation
end Jackalope
