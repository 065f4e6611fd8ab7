/-
# Numbered files

Files whose names are numbers, handed out in order: the next file gets the number
`next`, and nobody writes a file below it again.  Whoever was given a file owns it.
`Owned` says that every owner's file has the owner's content, and that no two owners
have one file.  It does not matter what an owner is, so ownership may be passed on,
and a number may be given back as long as nobody owns a file from there on.
-/

import Mathlib.Data.Nat.Notation
import Mathlib.Logic.Function.Basic

namespace Jackalope
namespace Foundation

variable {ι κ α : Type*}

/-- **Owned files**: below `next`, with the content that they are owned with, and
one owner each. -/
structure Owned (owns : ι → ℕ → α → Prop) (next : ℕ) (files : ℕ → Option α) : Prop where
  written : ∀ o n x, owns o n x → n < next ∧ files n = some x
  alone : ∀ o o' n x x', owns o n x → owns o' n x' → o = o'

/-- Owners may go, and may pass their files on: every owner afterwards has what some owner
had, and what two of them have was different before.  -/
theorem Owned.pass {owns : ι → ℕ → α → Prop} {owns' : κ → ℕ → α → Prop} {next : ℕ}
    {files : ℕ → Option α} (h : Owned owns next files) (f : ι → κ)
    (hpass : ∀ o n x, owns' o n x → ∃ o₀, owns o₀ n x ∧ f o₀ = o) : Owned owns' next files := by
  constructor
  · intro o n x ho
    obtain ⟨o₀, ho₀, -⟩ := hpass o n x ho
    exact h.written o₀ n x ho₀
  · intro o o' n x x' ho ho'
    obtain ⟨o₀, ho₀, rfl⟩ := hpass o n x ho
    obtain ⟨o₀', ho₀', rfl⟩ := hpass o' n x' ho'
    rw [h.alone o₀ o₀' n x x' ho₀ ho₀']

/-- Owners may go. -/
theorem Owned.mono {owns owns' : ι → ℕ → α → Prop} {next : ℕ} {files : ℕ → Option α}
    (h : Owned owns next files) (hsub : ∀ o n x, owns' o n x → owns o n x) :
    Owned owns' next files :=
  h.pass id fun o n x ho => ⟨o, hsub o n x ho, rfl⟩

/-- The files below `next` stay as they are, whatever happens above. -/
theorem Owned.frame {owns : ι → ℕ → α → Prop} {next next' : ℕ} {files files' : ℕ → Option α}
    (h : Owned owns next files) (hnext : next ≤ next') (hfiles : ∀ n < next, files' n = files n) :
    Owned owns next' files' := by
  refine ⟨fun o n x ho => ?_, h.alone⟩
  obtain ⟨hlt, hfile⟩ := h.written o n x ho
  exact ⟨Nat.lt_of_lt_of_le hlt hnext, (hfiles n hlt).trans hfile⟩

/-- Writing the next file. -/
theorem Owned.frame_update {owns : ι → ℕ → α → Prop} {next n : ℕ} {files : ℕ → Option α}
    (h : Owned owns next files) (hn : next ≤ n) (content : Option α) :
    Owned owns next (Function.update files n content) :=
  h.frame (Nat.le_refl _) fun _ hm => Function.update_of_ne (Nat.ne_of_lt (Nat.lt_of_lt_of_le hm hn)) _ _

/-- **A new owner gets the next file.** The number that is given out is the next one, its
file has the owner's content, and the files of the owners before stay as they are, since
their numbers are smaller.  -/
theorem Owned.fresh {owns owns' : ι → ℕ → α → Prop} {next : ℕ} {files : ℕ → Option α}
    (h : Owned owns next files) (owner : ι) (content : α)
    (hfresh : ∀ o n x, owns' o n x → owns o n x ∨ (o = owner ∧ n = next ∧ x = content)) :
    Owned owns' (next + 1) (Function.update files next (some content)) := by
  have hold := (h.frame_update (Nat.le_refl _) (some content)).frame (Nat.le_succ next) fun _ _ => rfl
  constructor
  · intro o n x ho
    rcases hfresh o n x ho with ho | ⟨rfl, rfl, rfl⟩
    · exact hold.written o n x ho
    · exact ⟨Nat.lt_succ_self n, Function.update_self _ _ _⟩
  · intro o o' n x x' ho ho'
    rcases hfresh o n x ho with ho | ⟨rfl, rfl, rfl⟩ <;> rcases hfresh o' _ x' ho' with ho' | ⟨rfl, hn, rfl⟩
    · exact h.alone o o' n x x' ho ho'
    · exact absurd (h.written o n x ho).1 (hn ▸ Nat.lt_irrefl _)
    · exact absurd (h.written o' _ x' ho').1 (Nat.lt_irrefl _)
    · rfl

end Foundation
end Jackalope
