/-
# Lists of intervals

A list of intervals `[lo r, hi r]` over any linear order.  Two points are joined when
one interval of the list has both, and linked when a chain of joined points leads from
the one to the other: intervals that meet in a point link what they have, intervals
that only stand next to each other do not.

Merging two intervals that meet leaves what is linked as it was (`linked_merge`), and a
list whose intervals stand apart is determined by it (`eq_of_linked_iff`).  So whatever
a list is merged to, in whatever order, the result is the same as soon as nothing in it
meets any more.
-/

import Mathlib.Data.List.Pairwise
import Mathlib.Order.Lattice
import Mathlib.Order.MinMax
import Mathlib.Logic.Relation

namespace Jackalope
namespace Foundation

section Intervals

variable {ι α : Type*} [LinearOrder α] (lo hi : ι → α)

/-- One interval of the list has both points. -/
def Joined (l : List ι) (a b : α) : Prop := ∃ r ∈ l, lo r ≤ a ∧ a ≤ b ∧ b ≤ hi r

/-- A chain of joined points leads from the one to the other. -/
def Linked (l : List ι) : α → α → Prop := Relation.TransGen (Joined lo hi l)

/-- Every interval ends before those behind it begin, and none is the wrong way round. -/
structure Separated (l : List ι) : Prop where
  le : ∀ r ∈ l, lo r ≤ hi r
  apart : l.Pairwise fun r r' => hi r < lo r'

variable {lo hi}

/-- Two points are joined by the first interval, or by one of the others.  -/
theorem joined_cons {r : ι} {l : List ι} {a b : α} :
    Joined lo hi (r :: l) a b ↔ (lo r ≤ a ∧ a ≤ b ∧ b ≤ hi r) ∨ Joined lo hi l a b := by
  simp only [Joined, List.mem_cons, or_and_right, exists_or, exists_eq_left]

/-- Two points in one interval are linked by it.  -/
theorem Joined.linked {l : List ι} {a b : α} (h : Joined lo hi l a b) : Linked lo hi l a b :=
  Relation.TransGen.single h

/-- Links that are made of links. -/
theorem Linked.of_joined {l l' : List ι} (h : ∀ a b, Joined lo hi l a b → Linked lo hi l' a b)
    {a b : α} (hab : Linked lo hi l a b) : Linked lo hi l' a b := by
  induction hab with
  | single hab => exact h _ _ hab
  | tail _ hbc ih => exact ih.trans (h _ _ hbc)

/-- More intervals link more points.  -/
theorem Linked.mono {l l' : List ι} (h : ∀ r ∈ l, r ∈ l') {a b : α} (hab : Linked lo hi l a b) :
    Linked lo hi l' a b :=
  hab.of_joined fun _ _ ⟨r, hr, hle⟩ => Joined.linked ⟨r, h r hr, hle⟩

/-- What is linked does not depend on the order of the list. -/
theorem linked_perm {l l' : List ι} (h : l.Perm l') {a b : α} :
    Linked lo hi l a b ↔ Linked lo hi l' a b :=
  ⟨Linked.mono fun _ => h.mem_iff.1, Linked.mono fun _ => h.mem_iff.2⟩

/-- An interval in front of two lists that link the same: the longer lists link the same as
well, since a chain uses the interval in front or one of the list.  -/
theorem linked_cons_congr {r : ι} {l l' : List ι}
    (h : ∀ a b, Linked lo hi l a b ↔ Linked lo hi l' a b) {a b : α} :
    Linked lo hi (r :: l) a b ↔ Linked lo hi (r :: l') a b := by
  have hone : ∀ {l l' : List ι}, (∀ a b, Linked lo hi l a b → Linked lo hi l' a b) →
      ∀ a b, Joined lo hi (r :: l) a b → Linked lo hi (r :: l') a b := by
    intro l l' h a b hab
    rcases joined_cons.1 hab with hr | hl
    · exact Joined.linked (joined_cons.2 (Or.inl hr))
    · exact (h a b hl.linked).mono fun _ => List.mem_cons_of_mem r
  exact ⟨Linked.of_joined (hone fun a b => (h a b).1), Linked.of_joined (hone fun a b => (h a b).2)⟩

/-- **Merging**: an interval that begins inside the one before it can be put into it.  The
two link the same places as the merged interval, which reaches to the greater of their ends.
-/
theorem linked_merge {r c m : ι} {l : List ι} (hrc : lo r ≤ lo c) (hmeet : lo c ≤ hi r)
    (hlo : lo m = lo r) (hhi : hi m = max (hi r) (hi c)) {a b : α} :
    Linked lo hi (m :: l) a b ↔ Linked lo hi (r :: c :: l) a b := by
  refine ⟨Linked.of_joined fun a b hab => ?_, Linked.of_joined fun a b hab => ?_⟩
  · rcases joined_cons.1 hab with ⟨hma, hle, hbm⟩ | hl
    · rw [hlo] at hma
      rcases le_max_iff.1 (hbm.trans_eq hhi) with hbr | hbc
      · exact Joined.linked ⟨r, List.mem_cons_self, hma, hle, hbr⟩
      have hc : c ∈ r :: c :: l := List.mem_cons_of_mem r List.mem_cons_self
      rcases le_total (lo c) a with hca | hac
      · exact Joined.linked ⟨c, hc, hca, hle, hbc⟩
      rcases le_total (lo c) b with hcb | hbc'
      -- the chain goes over the point where the two meet
      · have hfirst : Joined lo hi (r :: c :: l) a (lo c) := ⟨r, List.mem_cons_self, hma, hac, hmeet⟩
        have hsecond : Joined lo hi (r :: c :: l) (lo c) b := ⟨c, hc, le_rfl, hcb, hbc⟩
        exact hfirst.linked.tail hsecond
      · exact Joined.linked ⟨r, List.mem_cons_self, hma, hle, hbc'.trans hmeet⟩
    · exact hl.linked.mono fun _ h => List.mem_cons_of_mem _ (List.mem_cons_of_mem _ h)
  · rcases joined_cons.1 hab with ⟨hra, hle, hbr⟩ | hab
    · exact Joined.linked ⟨m, List.mem_cons_self, hlo.trans_le hra, hle,
        (hbr.trans (le_max_left _ _)).trans_eq hhi.symm⟩
    rcases joined_cons.1 hab with ⟨hca, hle, hbc⟩ | hl
    · exact Joined.linked ⟨m, List.mem_cons_self, hlo.trans_le (hrc.trans hca), hle,
        (hbc.trans (le_max_right _ _)).trans_eq hhi.symm⟩
    · exact hl.linked.mono fun _ => List.mem_cons_of_mem m

namespace Separated

variable {r r' : ι} {l l' : List ι}

/-- No intervals are separated.  -/
theorem nil : Separated lo hi ([] : List ι) where
  le := fun _ h => absurd h List.not_mem_nil
  apart := List.Pairwise.nil

/-- Intervals stay separated when the first one is left out.  -/
theorem tail (h : Separated lo hi (r :: l)) : Separated lo hi l where
  le := fun s hs => h.le s (List.mem_cons_of_mem _ hs)
  apart := (List.pairwise_cons.1 h.apart).2

/-- The first interval ends at its beginning or behind it.  -/
theorem head_le (h : Separated lo hi (r :: l)) : lo r ≤ hi r := h.le r List.mem_cons_self

/-- The first interval ends before each of the others begins.  -/
theorem head_lt (h : Separated lo hi (r :: l)) {s : ι} (hs : s ∈ l) : hi r < lo s :=
  (List.pairwise_cons.1 h.apart).1 s hs

/-- In a list whose intervals stand apart, a chain stays inside one interval: two intervals
that share a place are one.  -/
theorem joined_trans (h : Separated lo hi l) {a b c : α} (hab : Joined lo hi l a b)
    (hbc : Joined lo hi l b c) : Joined lo hi l a c := by
  induction l with
  | nil => exact absurd hab.choose_spec.1 List.not_mem_nil
  | cons r l ih =>
      rcases joined_cons.1 hab with ⟨hra, hle, hbr⟩ | ⟨s, hs, hsa, hle, hbs⟩
      · rcases joined_cons.1 hbc with ⟨-, hle', hcr⟩ | ⟨s, hs, hsb, -, -⟩
        · exact joined_cons.2 (Or.inl ⟨hra, hle.trans hle', hcr⟩)
        · exact absurd (hsb.trans hbr) (not_le.2 (h.head_lt hs))
      · rcases joined_cons.1 hbc with ⟨-, hle', hcr⟩ | hbc
        · have := hsa.trans (hle.trans (hle'.trans hcr))
          exact absurd this (not_le.2 (h.head_lt hs))
        · exact joined_cons.2 (Or.inr (ih h.tail ⟨s, hs, hsa, hle, hbs⟩ hbc))

/-- **Between separated intervals there are gaps**, so a chain of intervals that share
points has one link, and points are linked exactly if they are in the same interval.  -/
theorem linked_iff (h : Separated lo hi l) {a b : α} :
    Linked lo hi l a b ↔ Joined lo hi l a b := by
  refine ⟨fun hab => ?_, Joined.linked⟩
  induction hab with
  | single hab => exact hab
  | tail _ hbc ih => exact h.joined_trans ih hbc

/-- What the intervals behind the first join is what is joined behind its end. -/
theorem joined_tail (h : Separated lo hi (r :: l)) {a b : α} :
    Joined lo hi l a b ↔ Joined lo hi (r :: l) a b ∧ hi r < a := by
  constructor
  · rintro ⟨s, hs, hsa, hle⟩
    exact ⟨⟨s, List.mem_cons_of_mem _ hs, hsa, hle⟩, (h.head_lt hs).trans_le hsa⟩
  · rintro ⟨hab, hlt⟩
    rcases joined_cons.1 hab with ⟨-, hle, hbr⟩ | hl
    · exact absurd (hle.trans hbr) (not_le.2 hlt)
    · exact hl

/-- The first interval begins where a list that joins as much begins, or behind. -/
theorem head_lo_le (h : Separated lo hi (r :: l)) (h' : Separated lo hi (r' :: l'))
    (hsub : ∀ a b, Joined lo hi (r :: l) a b → Joined lo hi (r' :: l') a b) : lo r' ≤ lo r := by
  have hself : Joined lo hi (r :: l) (lo r) (lo r) := ⟨r, List.mem_cons_self, le_rfl, le_rfl, h.head_le⟩
  rcases joined_cons.1 (hsub _ _ hself) with ⟨hle, -, -⟩ | ⟨s, hs, hle, -, -⟩
  · exact hle
  · exact h'.head_le.trans ((h'.head_lt hs).le.trans hle)

/-- Where two lists begin alike, the first interval of the one that joins more reaches
as far. -/
theorem head_hi_le (h : Separated lo hi (r :: l)) (h' : Separated lo hi (r' :: l'))
    (hlo : lo r = lo r')
    (hsub : ∀ a b, Joined lo hi (r :: l) a b → Joined lo hi (r' :: l') a b) : hi r ≤ hi r' := by
  have hself : Joined lo hi (r :: l) (lo r) (hi r) := ⟨r, List.mem_cons_self, le_rfl, h.head_le, le_rfl⟩
  rcases joined_cons.1 (hsub _ _ hself) with ⟨-, -, hle⟩ | ⟨s, hs, hle, -, -⟩
  · exact hle
  · exact absurd (hle.trans_eq hlo) (not_le.2 (h'.head_le.trans_lt (h'.head_lt hs)))

/-- **A list whose intervals stand apart is determined by what it links.** Two such lists
that link the same places have the same intervals in the same order: the first interval of
each must begin at the least place that is linked to another, and end where the chain ends.
-/
theorem eq_of_linked_iff (hext : ∀ r r', lo r = lo r' → hi r = hi r' → r = r')
    (h : Separated lo hi l) (h' : Separated lo hi l')
    (hsame : ∀ a b, Linked lo hi l a b ↔ Linked lo hi l' a b) : l = l' := by
  have hjoined : ∀ a b, Joined lo hi l a b ↔ Joined lo hi l' a b := by
    intro a b
    rw [← h.linked_iff, ← h'.linked_iff, hsame]
  clear hsame
  induction l generalizing l' with
  | nil =>
      rcases l' with _ | ⟨r', l'⟩
      · rfl
      · obtain ⟨s, hs, -⟩ := (hjoined (lo r') (lo r')).2 ⟨r', List.mem_cons_self, le_rfl, le_rfl, h'.head_le⟩
        exact absurd hs List.not_mem_nil
  | cons r l ih =>
      rcases l' with _ | ⟨r', l'⟩
      · obtain ⟨s, hs, -⟩ := (hjoined (lo r) (lo r)).1 ⟨r, List.mem_cons_self, le_rfl, le_rfl, h.head_le⟩
        exact absurd hs List.not_mem_nil
      have hsub := fun a b => (hjoined a b).1
      have hsub' := fun a b => (hjoined a b).2
      have hlo : lo r = lo r' := le_antisymm (h'.head_lo_le h hsub') (h.head_lo_le h' hsub)
      have hhi : hi r = hi r' :=
        le_antisymm (h.head_hi_le h' hlo hsub) (h'.head_hi_le h hlo.symm hsub')
      obtain rfl := hext r r' hlo hhi
      have htail : ∀ a b, Joined lo hi l a b ↔ Joined lo hi l' a b := by
        intro a b
        rw [h.joined_tail, h'.joined_tail, hjoined]
      rw [ih h.tail h'.tail htail]

end Separated

end Intervals

end Foundation
end Jackalope
