/-
# A binary heap of things whose keys live elsewhere

A priority queue in an array, as `std::push_heap` and `std::pop_heap` keep it: the
children of position `i` are at `2 * i + 1` and `2 * i + 2`, and no element is
greater than its parent.  The elements are compared through `key`, which is an
argument of every operation, so the elements may be pointers and the keys part of
a state that changes between operations.

What is proved is what a caller may rely on.  An operation keeps the contents up
to order (`push_perm`, `pop_perm`) whatever the keys are; it keeps the heap
ordered (`push_ordered`, `pop_ordered`), and the top is a greatest element
(`le_top`), as long as the keys of the elements inside did not change
(`Ordered.congr`).
-/

import Mathlib.Order.WithBot
import Mathlib.Data.List.Perm.Basic

namespace Jackalope
namespace Foundation
namespace Heap

variable {α κ : Type*} [LinearOrder κ] (key : α → κ)

/-- The position above `i`. -/
def parent (i : ℕ) : ℕ := (i - 1) / 2

/-- The key of the element at position `i`; there is none behind the end. -/
def keyAt (a : Array α) (i : ℕ) : WithBot κ :=
  match a[i]? with
  | some x => (key x : WithBot κ)
  | none => ⊥

/-- Move the element at `i` up while it is greater than its parent. -/
def siftUp : ℕ → Array α → ℕ → Array α
  | 0, a, _ => a
  | fuel + 1, a, i =>
      if 0 < i ∧ keyAt key a (parent i) < keyAt key a i then
        siftUp fuel (a.swapIfInBounds i (parent i)) (parent i)
      else a

/-- The greater child of position `i`. -/
def greaterChild (a : Array α) (i : ℕ) : ℕ :=
  if keyAt key a (2 * i + 1) < keyAt key a (2 * i + 2) then 2 * i + 2 else 2 * i + 1

/-- Move the element at `i` down while a child is greater. -/
def siftDown : ℕ → Array α → ℕ → Array α
  | 0, a, _ => a
  | fuel + 1, a, i =>
      if keyAt key a i < keyAt key a (greaterChild key a i) then
        siftDown fuel (a.swapIfInBounds i (greaterChild key a i)) (greaterChild key a i)
      else a

/-- `push`. -/
def push (a : Array α) (x : α) : Array α := siftUp key (a.size + 1) (a.push x) a.size

/-- `pop`: the last element takes the place of the first. -/
def pop (a : Array α) : Array α :=
  siftDown key a.size (a.swapIfInBounds 0 (a.size - 1)).pop 0

/-! ### Contents -/

/-- Swapping two elements, position by position: each of the two positions has the other's
element, and every other position its own.  -/
theorem getElem?_swap {a : Array α} {i j : ℕ} (hi : i < a.size) (hj : j < a.size) (m : ℕ) :
    (a.swapIfInBounds i j)[m]? = if m = i then a[j]? else if m = j then a[i]? else a[m]? := by
  by_cases hm : m < a.size
  · have hm' : m < (a.swapIfInBounds i j).size := by rwa [Array.size_swapIfInBounds]
    rw [Array.getElem?_eq_getElem hm', Array.getElem_swapIfInBounds, Array.getElem?_eq_getElem hi,
      Array.getElem?_eq_getElem hj, Array.getElem?_eq_getElem hm]
    simp only [hi, hj, and_true]
    split_ifs <;> rfl
  · rw [Array.getElem?_eq_none (by rw [Array.size_swapIfInBounds]; omega), if_neg (by omega),
      if_neg (by omega), Array.getElem?_eq_none (by omega)]

/-- Exchanging two elements keeps the elements.  -/
theorem swap_perm (a : Array α) (i j : ℕ) : (a.swapIfInBounds i j).Perm a := by
  unfold Array.swapIfInBounds
  split
  · split
    · exact Array.swap_perm _ _
    · exact Array.Perm.refl a
  · exact Array.Perm.refl a

/-- Moving an element up keeps the elements: it is a sequence of exchanges.  -/
theorem siftUp_perm (fuel : ℕ) (a : Array α) (i : ℕ) : (siftUp key fuel a i).Perm a := by
  induction fuel generalizing a i with
  | zero => exact Array.Perm.refl a
  | succ fuel ih =>
      rw [siftUp]
      split
      · exact (ih _ _).trans (swap_perm _ _ _)
      · exact Array.Perm.refl a

/-- Moving an element down keeps the elements: it is a sequence of exchanges, too.  -/
theorem siftDown_perm (fuel : ℕ) (a : Array α) (i : ℕ) : (siftDown key fuel a i).Perm a := by
  induction fuel generalizing a i with
  | zero => exact Array.Perm.refl a
  | succ fuel ih =>
      rw [siftDown]
      split
      · exact (ih _ _).trans (swap_perm _ _ _)
      · exact Array.Perm.refl a

/-- Pushing adds the element. -/
theorem push_perm (a : Array α) (x : α) : (push key a x).toList.Perm (x :: a.toList) := by
  have h := (siftUp_perm key (a.size + 1) (a.push x) a.size).toList
  rw [Array.toList_push] at h
  exact h.trans (List.perm_append_singleton x a.toList)

/-- Popping removes the top and nothing else: what was in the array is the top and what is
left, in some order.  The array has a top whenever it is not empty.  -/
theorem pop_perm {a : Array α} {x : α} (h : a[0]? = some x) :
    a.toList.Perm (x :: (pop key a).toList) := by
  obtain ⟨h0, hx⟩ := Array.getElem?_eq_some_iff.1 h
  have hswap := (swap_perm a 0 (a.size - 1)).toList
  have hdown := (siftDown_perm key a.size (a.swapIfInBounds 0 (a.size - 1)).pop 0).toList
  have hlast : (a.swapIfInBounds 0 (a.size - 1)).toList =
      (a.swapIfInBounds 0 (a.size - 1)).pop.toList ++ [x] := by
    have hback : (a.swapIfInBounds 0 (a.size - 1)).toList.getLast? = some x := by
      rw [List.getLast?_eq_getElem?, Array.length_toList, Array.size_swapIfInBounds,
        Array.getElem?_toList, getElem?_swap h0 (by omega), if_pos rfl]
      split
      · rename_i hz
        rw [hz]
        exact h
      · exact h
    rw [Array.toList_pop]
    exact (List.dropLast_append_getLast? x hback).symm
  rw [hlast] at hswap
  have h₁ := hswap.symm.trans (List.perm_append_singleton x _)
  exact h₁.trans (hdown.symm.cons x)

/-! ### Order -/

variable {key}

/-- A parent stands before its children, so moving up ends.  -/
theorem parent_lt {i : ℕ} (h : 0 < i) : parent i < i := by
  unfold parent
  omega

/-- The children of a place, from its number.  -/
theorem parent_eq_iff {i j : ℕ} (h : 0 < i) : parent i = j ↔ i = 2 * j + 1 ∨ i = 2 * j + 2 := by
  unfold parent
  omega

/-- Where there is a key above some other, there is an element: places behind the end have
the least key.  -/
theorem lt_size_of_lt_keyAt {a : Array α} {i : ℕ} {b : WithBot κ} (h : b < keyAt key a i) :
    i < a.size := by
  by_contra hge
  rw [keyAt, Array.getElem?_eq_none (by omega)] at h
  exact absurd h not_lt_bot

omit [LinearOrder κ] in
/-- Behind the end there is no key.  -/
theorem keyAt_of_size_le {a : Array α} {i : ℕ} (h : a.size ≤ i) : keyAt key a i = ⊥ := by
  rw [keyAt, Array.getElem?_eq_none h]

omit [LinearOrder κ] in
/-- Swapping two elements swaps their keys. -/
theorem keyAt_swap (key : α → κ) {a : Array α} {i j : ℕ} (hi : i < a.size) (hj : j < a.size) (m : ℕ) :
    keyAt key (a.swapIfInBounds i j) m =
      if m = i then keyAt key a j else if m = j then keyAt key a i else keyAt key a m := by
  unfold keyAt
  rw [getElem?_swap hi hj]
  split_ifs <;> rfl

/-- No element is greater than its parent. -/
def Ordered (key : α → κ) (a : Array α) : Prop :=
  ∀ i, 0 < i → keyAt key a i ≤ keyAt key a (parent i)

/-- Ordered, but for an element at `hole` that may be too great for its place. -/
structure OrderedUp (key : α → κ) (a : Array α) (hole : ℕ) : Prop where
  except : ∀ i, 0 < i → i ≠ hole → keyAt key a i ≤ keyAt key a (parent i)
  around : ∀ i, 0 < i → parent i = hole → 0 < hole → keyAt key a i ≤ keyAt key a (parent hole)

/-- Ordered, but for an element at `hole` that may be too small for its place. -/
structure OrderedDown (key : α → κ) (a : Array α) (hole : ℕ) : Prop where
  except : ∀ i, 0 < i → parent i ≠ hole → keyAt key a i ≤ keyAt key a (parent i)
  around : ∀ i, 0 < i → parent i = hole → 0 < hole → keyAt key a i ≤ keyAt key a (parent hole)

/-- One step up.  If the heap is in order but for the element at `h`, and that element is
greater than its parent, then after the two are exchanged the heap is in order but for the
parent's place.  -/
theorem OrderedUp.step {a : Array α} {h : ℕ} (ho : OrderedUp key a h) (h0 : 0 < h)
    (hlt : keyAt key a (parent h) < keyAt key a h) :
    OrderedUp key (a.swapIfInBounds h (parent h)) (parent h) := by
  have hp := parent_lt h0
  have hsize := lt_size_of_lt_keyAt hlt
  have hkey := keyAt_swap key hsize (hp.trans hsize)
  refine ⟨fun i hi hne => ?_, fun i hi hpar hp0 => ?_⟩
  · have hpi := parent_lt hi
    rw [hkey, hkey]
    by_cases hih : i = h
    · -- the old parent is below the element now
      subst hih
      rw [if_pos rfl, if_neg (by omega), if_pos rfl]
      exact hlt.le
    · rw [if_neg hih, if_neg hne]
      by_cases hph : parent i = h
      · rw [if_pos hph]
        exact ho.around i hi hph h0
      · rw [if_neg hph]
        have := ho.except i hi hih
        split
        · rename_i heq
          rw [heq] at this
          exact this.trans hlt.le
        · exact this
  · have hpi := parent_lt hi
    have hpp := parent_lt hp0
    have habove := ho.except (parent h) hp0 (by omega)
    rw [hkey, hkey, if_neg (show parent (parent h) ≠ h by omega),
      if_neg (show parent (parent h) ≠ parent h by omega)]
    by_cases hih : i = h
    · rw [if_pos hih]
      exact habove
    · rw [if_neg hih, if_neg (by omega)]
      have := ho.except i hi hih
      rw [hpar] at this
      exact this.trans habove

/-- **Moving an element up** puts it in order, if all places but its own are in order with
their parents, and the fuel is enough to get to the root.  -/
theorem OrderedUp.siftUp {fuel : ℕ} {a : Array α} {h : ℕ} (ho : OrderedUp key a h)
    (hf : h < fuel) : Ordered key (siftUp key fuel a h) := by
  induction fuel generalizing a h with
  | zero => omega
  | succ fuel ih =>
      rw [Heap.siftUp]
      split
      · rename_i hc
        have := parent_lt hc.1
        exact ih (ho.step hc.1 hc.2) (by omega)
      · rename_i hc
        intro i hi
        by_cases hih : i = h
        · subst hih
          exact not_lt.1 fun hlt => hc ⟨hi, hlt⟩
        · exact ho.except i hi hih

/-- **Pushing keeps the heap ordered.** The new element is put at the end, where only its
parent can be smaller, and is moved up until its parent is not.  -/
theorem push_ordered {a : Array α} (h : Ordered key a) (x : α) : Ordered key (push key a x) := by
  have hold : ∀ i < a.size, keyAt key (a.push x) i = keyAt key a i := by
    intro i hi
    unfold keyAt
    rw [Array.getElem?_push_lt hi, Array.getElem?_eq_getElem hi]
  have hbehind : ∀ i, a.size < i → keyAt key (a.push x) i = ⊥ := by
    intro i hi
    exact keyAt_of_size_le (by rw [Array.size_push]; omega)
  have hup : OrderedUp key (a.push x) a.size := by
    refine ⟨fun i hi hne => ?_, fun i hi hpar _ => ?_⟩
    · have hpi := parent_lt hi
      rcases Nat.lt_or_ge i a.size with hlt | hge
      · rw [hold i hlt, hold _ (hpi.trans hlt)]
        exact h i hi
      · rw [hbehind i (by omega)]
        exact bot_le
    · have hpi := parent_lt hi
      rw [hbehind i (by omega)]
      exact bot_le
  exact hup.siftUp (Nat.lt_succ_self _)

/-- The greater child is a child, and no child is greater.  Where there is one child only,
or none, the key of a missing element is the least one and the child that is there is taken.
-/
theorem greaterChild_spec (key : α → κ) (a : Array α) (h : ℕ) :
    0 < greaterChild key a h ∧ parent (greaterChild key a h) = h ∧
      ∀ i, 0 < i → parent i = h → keyAt key a i ≤ keyAt key a (greaterChild key a h) := by
  unfold greaterChild
  split
  · rename_i hlt
    refine ⟨by omega, by unfold parent; omega, fun i hi hp => ?_⟩
    rcases (parent_eq_iff hi).1 hp with rfl | rfl
    · exact hlt.le
    · exact le_rfl
  · rename_i hlt
    refine ⟨by omega, by unfold parent; omega, fun i hi hp => ?_⟩
    rcases (parent_eq_iff hi).1 hp with rfl | rfl
    · exact le_rfl
    · exact not_lt.1 hlt

/-- One step down.  If the heap is in order but for the element at `h`, and its greater
child is greater than it, then after the two are exchanged the heap is in order but for the
child's place.  -/
theorem OrderedDown.step {a : Array α} {h : ℕ} (ho : OrderedDown key a h)
    (hlt : keyAt key a h < keyAt key a (greaterChild key a h)) :
    OrderedDown key (a.swapIfInBounds h (greaterChild key a h)) (greaterChild key a h) := by
  obtain ⟨hc0, hpc, hmax⟩ := greaterChild_spec key a h
  set c := greaterChild key a h
  have hhc : h < c := by
    have := parent_lt hc0
    omega
  have hsize := lt_size_of_lt_keyAt hlt
  have hkey := keyAt_swap key (hhc.trans hsize) hsize
  refine ⟨fun i hi hne => ?_, fun i hi hpar _ => ?_⟩
  · have hpi := parent_lt hi
    rw [hkey, hkey]
    by_cases hph : parent i = h
    · rw [hph, if_pos rfl, if_neg (by omega)]
      split
      · exact hlt.le
      · exact hmax i hi hph
    · have hic : i ≠ c := fun hic => hph (by rw [hic, hpc])
      rw [if_neg hph, if_neg hne, if_neg hic]
      split
      · rename_i hih
        subst hih
        exact ho.around c hc0 hpc hi
      · exact ho.except i hi hph
  · have hpi := parent_lt hi
    have hkeep := ho.except i hi (by omega)
    rw [hkey, hkey, hpc, if_neg (by omega), if_neg (by omega), if_pos rfl]
    rwa [hpar] at hkeep

/-- **Moving an element down** puts it in order, if all places but its own are in order with
their children, and the fuel is enough to get to a leaf.  -/
theorem OrderedDown.siftDown {fuel : ℕ} {a : Array α} {h : ℕ} (ho : OrderedDown key a h)
    (hf : a.size ≤ fuel + h) : Ordered key (siftDown key fuel a h) := by
  induction fuel generalizing a h with
  | zero =>
      intro i hi
      by_cases hp : parent i = h
      · have := parent_lt hi
        rw [Heap.siftDown, keyAt_of_size_le (by omega)]
        exact bot_le
      · exact ho.except i hi hp
  | succ fuel ih =>
      obtain ⟨hc0, hpc, hmax⟩ := greaterChild_spec key a h
      rw [Heap.siftDown]
      split
      · rename_i hlt
        have := parent_lt hc0
        refine ih (ho.step hlt) ?_
        rw [Array.size_swapIfInBounds]
        omega
      · rename_i hlt
        intro i hi
        by_cases hp : parent i = h
        · rw [hp]
          exact (hmax i hi hp).trans (not_lt.1 hlt)
        · exact ho.except i hi hp

/-- **Popping keeps the heap ordered.** The last element is put in the place of the top,
where only its children can be greater, and is moved down until they are not.  -/
theorem pop_ordered {a : Array α} (h : Ordered key a) : Ordered key (pop key a) := by
  set b := (a.swapIfInBounds 0 (a.size - 1)).pop with hb
  have hsize : b.size = a.size - 1 := by
    rw [hb, Array.size_pop, Array.size_swapIfInBounds]
  -- apart from the top everything is where it was
  have hold : ∀ i, 0 < i → i < a.size - 1 → keyAt key b i = keyAt key a i := by
    intro i hi hlt
    have hpop : keyAt key b i = keyAt key (a.swapIfInBounds 0 (a.size - 1)) i := by
      unfold keyAt
      rw [hb, Array.getElem?_pop, if_pos (by rw [Array.size_swapIfInBounds]; exact hlt)]
    rw [hpop, keyAt_swap key (by omega) (by omega), if_neg (by omega), if_neg (by omega)]
  have hdown : OrderedDown key b 0 := by
    refine ⟨fun i hi hne => ?_, fun i _ _ h0 => absurd h0 (lt_irrefl 0)⟩
    have hpi := parent_lt hi
    rcases Nat.lt_or_ge i (a.size - 1) with hlt | hge
    · rw [hold i hi hlt, hold _ (by omega) (by omega)]
      exact h i hi
    · rw [keyAt_of_size_le (by omega)]
      exact bot_le
  exact hdown.siftDown (by omega)

/-- **The top is a greatest element.** -/
theorem le_top {a : Array α} (h : Ordered key a) (i : ℕ) : keyAt key a i ≤ keyAt key a 0 := by
  induction i using Nat.strong_induction_on with
  | _ i ih =>
      rcases Nat.eq_zero_or_pos i with rfl | hi
      · exact le_rfl
      · exact (h i hi).trans (ih _ (parent_lt hi))

/-- As `le_top`, for elements. -/
theorem key_le_top {a : Array α} (h : Ordered key a) {x y : α} (hx : x ∈ a) (hy : a[0]? = some y) :
    key x ≤ key y := by
  obtain ⟨i, hi⟩ := Array.mem_iff_getElem?.1 hx
  have := le_top h i
  rw [keyAt, keyAt, hi, hy] at this
  exact WithBot.coe_le_coe.1 this

/-- **Only the keys of the elements inside matter**: a heap stays in order when the keys of
elements change that are not in it.  -/
theorem Ordered.congr {key' : α → κ} {a : Array α} (h : Ordered key a)
    (hk : ∀ x ∈ a, key' x = key x) : Ordered key' a := by
  have heq : ∀ i, keyAt key' a i = keyAt key a i := by
    intro i
    unfold keyAt
    rcases hi : a[i]? with _ | x
    · rfl
    · simp only [hk x (Array.mem_iff_getElem?.2 ⟨i, hi⟩)]
  intro i hi
  rw [heq, heq]
  exact h i hi

end Heap
end Foundation
end Jackalope
