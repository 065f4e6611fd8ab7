/-
# Rings and medians

A ring has `n` slots, which are written one after the other and then again from the first
one on.  It holds the last `n` values that were written to it, in another order
(`Window.Holds.perm`); what does not depend on the order can be computed from the slots.
The median is such a thing (`IsMedian`), and sorting finds it.
-/

import Mathlib.Data.List.Rotate

namespace Jackalope
namespace Foundation

variable {α : Type*}

/-! ### The ring -/

namespace Window

variable {n : ℕ} {slots history : List α}

/-- **Value `k` is in slot `k % n`**, unless `n` values came after it. -/
structure Holds (n : ℕ) (slots history : List α) : Prop where
  length : slots.length = n
  slot : ∀ k < history.length, history.length ≤ k + n → slots[k % n]? = history[k]?

/-- The last `n` values. -/
def last (n : ℕ) (history : List α) : List α := history.drop (history.length - n)

/-- One more value goes to the slot of its number modulo the size: the value it takes the
place of is the one that has just left the window, and the other slots keep the values of
their numbers.  -/
theorem Holds.push (h : Holds n slots history) (hn : 0 < n) (x : α) :
    Holds n (slots.set (history.length % n) x) (history ++ [x]) where
  length := by rw [List.length_set, h.length]
  slot k hk hlast := by
    rw [List.length_append, List.length_singleton] at hk hlast
    have hmod := Nat.mod_lt history.length hn
    by_cases hnew : k = history.length
    · subst hnew
      rw [List.getElem?_set_self (by rw [h.length]; exact hmod), List.getElem?_concat_length]
    -- the slot that is written is that of a value `n` before
    · have hne : history.length % n ≠ k % n := by
        intro heq
        have hdvd : n ∣ history.length - k :=
          Nat.dvd_of_mod_eq_zero (Nat.sub_mod_eq_zero_of_mod_eq heq)
        have := Nat.le_of_dvd (by omega) hdvd
        omega
      rw [List.getElem?_set_ne hne, h.slot k (by omega) (by omega),
        List.getElem?_append_left (by omega)]

/-- **A ring that is full holds the last values.** Its slots are the last `n` values of the
history in a rotated order, so any function that does not look at the order sees the
history's end.  -/
theorem Holds.perm (h : Holds n slots history) (hfull : n ≤ history.length) :
    slots.Perm (last n history) := by
  have hrotate : slots.rotate history.length = last n history := by
    refine List.ext_getElem? fun i => ?_
    have hlength : (last n history).length = n := by
      rw [last, List.length_drop]
      omega
    by_cases hi : i < n
    · rw [List.getElem?_rotate (by rw [h.length]; exact hi), last, List.getElem?_drop, h.length,
        ← h.slot _ (by omega) (by omega), ← Nat.add_mod_right (history.length - n + i),
        show history.length - n + i + n = i + history.length by omega]
    · rw [List.getElem?_eq_none (by rw [List.length_rotate, h.length]; omega),
        List.getElem?_eq_none (by omega)]
  rw [← hrotate]
  exact (List.rotate_perm _ _).symm

end Window

/-! ### Medians -/

variable [LE α] [DecidableLE α]

/-- **At least half of the list is not above it, and at least half is not below.** -/
structure IsMedian (x : α) (l : List α) : Prop where
  mem : x ∈ l
  notAbove : l.length < 2 * l.countP (· ≤ x)
  notBelow : l.length < 2 * l.countP (x ≤ ·)

/-- The order does not matter: what a median is says only how many values there are on
either side.  -/
theorem IsMedian.perm {x : α} {l l' : List α} (h : IsMedian x l) (hperm : l.Perm l') :
    IsMedian x l' where
  mem := hperm.mem_iff.1 h.mem
  notAbove := by
    rw [← hperm.length_eq, ← hperm.countP_eq]
    exact h.notAbove
  notBelow := by
    rw [← hperm.length_eq, ← hperm.countP_eq]
    exact h.notBelow

variable [Std.IsLinearPreorder α]

/-- In a sorted list of odd length, what is in the middle is the median: at most half of the
values are below it and at most half are above.  -/
theorem isMedian_of_sorted {s : List α} (hsorted : s.Pairwise (· ≤ ·)) (hodd : s.length % 2 = 1)
    (hi : s.length / 2 < s.length) : IsMedian s[s.length / 2] s := by
  rw [List.pairwise_iff_getElem] at hsorted
  have hle : ∀ i j, (h : i < s.length) → (h' : j < s.length) → i ≤ j → s[i] ≤ s[j] := by
    intro i j h h' hij
    by_cases heq : i = j
    · subst heq
      exact Std.IsPreorder.le_refl _
    · exact hsorted i j h h' (by omega)
  refine ⟨List.getElem_mem hi, ?_, ?_⟩
  · have hfront : (s.take (s.length / 2 + 1)).countP (· ≤ s[s.length / 2]) =
        (s.take (s.length / 2 + 1)).length := by
      refine List.countP_eq_length.2 fun a ha => decide_eq_true ?_
      obtain ⟨j, hj, rfl⟩ := List.mem_take_iff_getElem.1 ha
      exact hle j _ (by omega) hi (by omega)
    have hsub := (List.take_sublist (s.length / 2 + 1) s).countP_le (p := (· ≤ s[s.length / 2]))
    rw [hfront, List.length_take] at hsub
    omega
  · have hback : (s.drop (s.length / 2)).countP (s[s.length / 2] ≤ ·) =
        (s.drop (s.length / 2)).length := by
      refine List.countP_eq_length.2 fun a ha => decide_eq_true ?_
      obtain ⟨j, hj, rfl⟩ := List.mem_drop_iff_getElem.1 ha
      exact hle _ _ hi (by omega) (by omega)
    have hsub := (List.drop_sublist (s.length / 2) s).countP_le (p := (s[s.length / 2] ≤ ·))
    rw [hback, List.length_drop] at hsub
    omega

/-- **Sorting finds the median** of a list of odd length, in whatever order its values come:
the sorted list has the same values, and a median depends on nothing else.  -/
theorem isMedian_mergeSort {l : List α} {x : α} (hodd : l.length % 2 = 1)
    (hx : (l.mergeSort (· ≤ ·))[l.length / 2]? = some x) : IsMedian x l := by
  have hperm : (l.mergeSort (· ≤ ·)).Perm l := List.mergeSort_perm l _
  have hsorted : (l.mergeSort (· ≤ ·)).Pairwise (· ≤ ·) := by
    refine (List.pairwise_mergeSort ?_ ?_ l).imp fun h => of_decide_eq_true h
    · intro a b c hab hbc
      exact decide_eq_true
        (Std.IsPreorder.le_trans _ _ _ (of_decide_eq_true hab) (of_decide_eq_true hbc))
    · intro a b
      rw [Bool.or_eq_true, decide_eq_true_iff, decide_eq_true_iff]
      exact Std.IsLinearPreorder.le_total a b
  rw [← hperm.length_eq] at hodd hx
  obtain ⟨hi, rfl⟩ := List.getElem?_eq_some_iff.1 hx
  exact (isMedian_of_sorted hsorted hodd hi).perm hperm

end Foundation
end Jackalope
