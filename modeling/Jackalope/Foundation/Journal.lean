/-
# An append-only log read in increments

A journal is a list of items that only grows, a clock that ticks once for every
accepted batch, and an index from clock values to positions: a mark `(t, i)` says
that the batch accepted at time `t` starts at item `i`.  Batches may be empty;
those tick the clock and leave no mark.

A reader that remembers a clock value `t` has seen `upTo t`, and what it still
lacks starts at `firstNewer t`.  The two facts that make incremental reading
exact are `upTo_append` (what was seen up to a past time never changes) and
`upTo_append_newer` (what was seen, then what is newer, is everything).
-/

import Mathlib.Data.List.Basic
import Mathlib.Algebra.Order.Group.Nat

namespace Jackalope
namespace Foundation

variable {α : Type*}

/-- The position recorded by the first mark stamped after `t`, or `last`. -/
def firstNewer (marks : List (ℕ × ℕ)) (t last : ℕ) : ℕ :=
  ((marks.find? fun m => decide (t < m.1)).map Prod.snd).getD last

/-- Without marks everything is older, and the answer is the end.  -/
theorem firstNewer_nil (t last : ℕ) : firstNewer [] t last = last := rfl

/-- If no mark is newer, nothing behind the marks is, and the answer is the end.  -/
theorem firstNewer_of_forall_le {marks : List (ℕ × ℕ)} {t : ℕ} (last : ℕ)
    (h : ∀ m ∈ marks, m.1 ≤ t) : firstNewer marks t last = last := by
  have : marks.find? (fun m => decide (t < m.1)) = none := by
    rw [List.find?_eq_none]
    intro m hm
    have := h m hm
    simp only [decide_eq_true_eq]
    omega
  rw [firstNewer, this]
  rfl

/-- The first mark that is newer gives the answer: what it stands at is the first item of
its batch.  -/
theorem firstNewer_cons_of_lt {m : ℕ × ℕ} {t : ℕ} (marks : List (ℕ × ℕ)) (last : ℕ)
    (h : t < m.1) : firstNewer (m :: marks) t last = m.2 := by
  simp [firstNewer, h]

/-- A mark that is not newer is passed.  -/
theorem firstNewer_cons_of_le {m : ℕ × ℕ} {t : ℕ} (marks : List (ℕ × ℕ)) (last : ℕ)
    (h : m.1 ≤ t) : firstNewer (m :: marks) t last = firstNewer marks t last := by
  have : ¬ t < m.1 := by omega
  simp [firstNewer, this]

/-- The position is one recorded by a mark, or `last`: the first mark that is newer gives
its own, and if there is none everything is as old.  -/
theorem firstNewer_cases (marks : List (ℕ × ℕ)) (t last : ℕ) :
    (∃ m ∈ marks, t < m.1 ∧ firstNewer marks t last = m.2) ∨
      ((∀ m ∈ marks, m.1 ≤ t) ∧ firstNewer marks t last = last) := by
  rcases h : marks.find? (fun m => decide (t < m.1)) with _ | m
  · rw [List.find?_eq_none] at h
    have hle : ∀ m ∈ marks, m.1 ≤ t := fun m hm => by simpa using h m hm
    exact Or.inr ⟨hle, firstNewer_of_forall_le last hle⟩
  · have hm : t < m.1 := by simpa using List.find?_some h
    exact Or.inl ⟨m, List.mem_of_find?_eq_some h, hm, by rw [firstNewer, h]; rfl⟩

/-- Marks appended to a list that already has a newer one are not consulted. -/
theorem firstNewer_append (marks extra : List (ℕ × ℕ)) (t last : ℕ) :
    firstNewer (marks ++ extra) t last = firstNewer marks t (firstNewer extra t last) := by
  induction marks with
  | nil => rfl
  | cons m marks ih =>
      rcases Nat.lt_or_ge t m.1 with h | h
      · rw [List.cons_append, firstNewer_cons_of_lt _ _ h, firstNewer_cons_of_lt _ _ h]
      · rw [List.cons_append, firstNewer_cons_of_le _ _ h, firstNewer_cons_of_le _ _ h, ih]

/-- An append-only log with its clock and its index.  The marks increase in both
components, are stamped with past times and point at items; the first batch
starts at item `0`, and there is no item without a mark. -/
structure Journal (α : Type*) where
  items : List α
  marks : List (ℕ × ℕ)
  clock : ℕ
  increasing : marks.Pairwise fun a b => a.1 < b.1 ∧ a.2 < b.2
  stamp_pos : ∀ m ∈ marks, 0 < m.1
  stamp_le : ∀ m ∈ marks, m.1 ≤ clock
  index_lt : ∀ m ∈ marks, m.2 < items.length
  first_index : ∀ m, marks.head? = some m → m.2 = 0
  marked : marks = [] → items = []

namespace Journal

/-- The journal that nothing was written to. -/
def empty : Journal α where
  items := []
  marks := []
  clock := 0
  increasing := List.Pairwise.nil
  stamp_pos := by simp
  stamp_le := by simp
  index_lt := by simp
  first_index := by simp
  marked := fun _ => rfl

/-- The mark of a batch accepted at time `t` behind `n` items; an empty batch
leaves none. -/
def batchMark (t n : ℕ) (batch : List α) : List (ℕ × ℕ) :=
  if batch.isEmpty then [] else [(t, n)]

/-- A batch gets a mark, with the time and the number of its first item, unless it is empty.
-/
theorem mem_batchMark {t n : ℕ} {batch : List α} {m : ℕ × ℕ} :
    m ∈ batchMark t n batch ↔ batch ≠ [] ∧ m = (t, n) := by
  cases batch <;> simp [batchMark]

/-- Accept a batch: tick, mark its start unless it is empty, append it. -/
def append (j : Journal α) (batch : List α) : Journal α where
  items := j.items ++ batch
  marks := j.marks ++ batchMark (j.clock + 1) j.items.length batch
  clock := j.clock + 1
  increasing := by
    rw [List.pairwise_append]
    refine ⟨j.increasing, ?_, fun a ha b hb => ?_⟩
    · unfold batchMark
      split <;> simp
    · obtain ⟨-, rfl⟩ := mem_batchMark.1 hb
      exact ⟨Nat.lt_succ_of_le (j.stamp_le a ha), j.index_lt a ha⟩
  stamp_pos := by
    intro m hm
    rcases List.mem_append.1 hm with hm | hm
    · exact j.stamp_pos m hm
    · obtain ⟨-, rfl⟩ := mem_batchMark.1 hm
      exact Nat.succ_pos _
  stamp_le := by
    intro m hm
    rcases List.mem_append.1 hm with hm | hm
    · exact Nat.le_succ_of_le (j.stamp_le m hm)
    · obtain ⟨-, rfl⟩ := mem_batchMark.1 hm
      exact le_rfl
  index_lt := by
    intro m hm
    rw [List.length_append]
    rcases List.mem_append.1 hm with hm | hm
    · exact Nat.lt_add_right _ (j.index_lt m hm)
    · obtain ⟨hne, rfl⟩ := mem_batchMark.1 hm
      have := List.length_pos_iff.2 hne
      omega
  first_index := by
    intro m hm
    rcases h : j.marks with _ | ⟨m', ms⟩
    · have hnil := j.marked h
      rw [h, List.nil_append] at hm
      obtain ⟨-, rfl⟩ := mem_batchMark.1 (List.mem_of_mem_head? hm)
      rw [hnil, List.length_nil]
    · rw [h] at hm
      exact j.first_index m (by rw [h]; exact hm)
  marked := by
    intro h
    obtain ⟨h₁, h₂⟩ := List.append_eq_nil_iff.1 h
    have : batch = [] := by
      by_contra hne
      exact absurd h₂ (List.ne_nil_of_mem (mem_batchMark.2 ⟨hne, rfl⟩))
    rw [j.marked h₁, this]
    rfl

/-- What a reader that synchronized at time `t` has seen. -/
def upTo (j : Journal α) (t : ℕ) : List α :=
  j.items.take (firstNewer j.marks t j.items.length)

/-- What was accepted after time `t`. -/
def newer (j : Journal α) (t : ℕ) : List α :=
  j.items.drop (firstNewer j.marks t j.items.length)

/-- Time `0` precedes every batch. -/
theorem firstNewer_zero (j : Journal α) : firstNewer j.marks 0 j.items.length = 0 := by
  rcases h : j.marks with _ | ⟨m, ms⟩
  · rw [firstNewer_nil, j.marked h]
    rfl
  · have hpos : 0 < m.1 := j.stamp_pos m (by rw [h]; exact List.mem_cons_self)
    rw [firstNewer_cons_of_lt _ _ hpos]
    exact j.first_index m (by rw [h]; rfl)

/-- A reader that never synchronized has seen nothing. -/
theorem upTo_zero (j : Journal α) : j.upTo 0 = [] := by
  rw [upTo, firstNewer_zero, List.take_zero]

/-- A reader that is up to date has seen everything. -/
theorem upTo_clock (j : Journal α) : j.upTo j.clock = j.items := by
  rw [upTo, firstNewer_of_forall_le _ j.stamp_le, List.take_length]

/-- **What was seen, then what is newer, is everything.** -/
theorem upTo_append_newer (j : Journal α) (t : ℕ) : j.upTo t ++ j.newer t = j.items :=
  List.take_append_drop _ _

/-- Nothing is newer than a time that has not come yet. -/
theorem newer_of_clock_le (j : Journal α) {t : ℕ} (h : j.clock ≤ t) : j.newer t = [] := by
  rw [newer, firstNewer_of_forall_le _ fun m hm => (j.stamp_le m hm).trans h, List.drop_length]

/-- **The past does not change.**  Accepting a batch leaves what was seen up to a
time already reached as it was. -/
theorem upTo_append (j : Journal α) (batch : List α) {t : ℕ} (h : t ≤ j.clock) :
    (j.append batch).upTo t = j.upTo t := by
  simp only [upTo, append, firstNewer_append]
  rcases firstNewer_cases j.marks t j.items.length with ⟨m, hm, ht, hi⟩ | ⟨hle, hi⟩
  · -- a newer mark was there already: the same position, inside the old items
    have hsame : ∀ last, firstNewer j.marks t last = m.2 := by
      intro last
      obtain ⟨a, b, hab⟩ := List.append_of_mem hm
      rw [← hi, hab, firstNewer_append, firstNewer_append, firstNewer_cons_of_lt _ _ ht,
        firstNewer_cons_of_lt _ _ ht]
    rw [hsame, hi, List.take_append_of_le_length (j.index_lt m hm).le]
  · -- the reader was up to date: the new mark, if any, points just behind the old items
    rw [hi, firstNewer_of_forall_le _ hle, List.take_length]
    rcases batch with _ | ⟨x, xs⟩
    · simp [batchMark, firstNewer_nil]
    · have : firstNewer (batchMark (j.clock + 1) j.items.length (x :: xs)) t
          (j.items ++ x :: xs).length = j.items.length :=
        firstNewer_cons_of_lt _ _ (Nat.lt_succ_of_le h)
      rw [this, List.take_left]

end Journal

end Foundation
end Jackalope
