/-
# Sequences that are computed in place

A sequence in which `x (n + N)` is given by `x (n + M)`, `x n` and `x (n + 1)` can be
computed a block at a time in an array of `N` words: word `k` of the next block takes the
place of word `k` of this one, and what it needs is either still there or already
replaced, whichever it needs (`inPlace_refills`).  So the blocks, one after the other, are
the sequence (`recurrent_blocks`), and `N` words of it determine the rest
(`Recurrent.eq_of_window`).

The second part is about words of bits.  `x ^ (x >> s)` and `x ^ ((x << s) & m)` lose
nothing, as the bits come out one after the other from the end that is not shifted in.
-/

import Mathlib.Data.Nat.Init
import Mathlib.Logic.Function.Iterate
import Mathlib.Order.Basic

namespace Jackalope
namespace Foundation

/-! ### Recurrences -/

variable {α : Type*} {f : α → α → α → α} {N M : ℕ}

/-- The sequence satisfies the recurrence. -/
def Recurrent (f : α → α → α → α) (N M : ℕ) (x : ℕ → α) : Prop :=
  ∀ n, x (n + N) = f (x (n + M)) (x n) (x (n + 1))

/-- What comes after `N` equal words is equal: every further word is computed from the `N`
words before it, in the one sequence as in the other.  -/
theorem Recurrent.eq_of_window {x y : ℕ → α} {m n : ℕ} (hx : Recurrent f N M x)
    (hy : Recurrent f N M y) (hM : M < N) (hN : 1 < N) (h : ∀ i < N, x (n + i) = y (m + i)) (i : ℕ) :
    x (n + i) = y (m + i) := by
  induction i using Nat.strongRecOn with
  | ind i ih =>
      by_cases hi : i < N
      · exact h i hi
      · obtain ⟨j, rfl⟩ := Nat.exists_eq_add_of_le' (Nat.le_of_not_lt hi)
        have h₁ := ih (j + M) (by omega)
        have h₂ := ih j (by omega)
        have h₃ := ih (j + 1) (by omega)
        rw [← Nat.add_assoc, ← Nat.add_assoc, hx, hy]
        rw [← Nat.add_assoc, ← Nat.add_assoc] at h₁ h₃
        rw [h₁, h₂, h₃]

/-- `w'` is the block after `w`; an index beyond the block is one of the next. -/
def Refills (f : α → α → α → α) (N M : ℕ) (w w' : ℕ → α) : Prop :=
  ∀ k < N, w' k = f (if k + M < N then w (k + M) else w' (k + M - N)) (w k)
    (if k + 1 < N then w (k + 1) else w' (k + 1 - N))

/-- One word is replaced. -/
def refillAt (f : α → α → α → α) (N M : ℕ) (w : ℕ → α) (k : ℕ) : ℕ → α :=
  Function.update w k (f (w ((k + M) % N)) (w k) (w ((k + 1) % N)))

/-- **One word after the other in place** makes the next block.  A word that is written over
is not read again but by the words behind it, which want the new value there, so the loop
over one array computes the next `N` words of the recurrence.  -/
theorem inPlace_refills (hM : M < N) (hM' : 0 < M) (hN : 1 < N) (w : ℕ → α) :
    Refills f N M w ((List.range N).foldl (refillAt f N M) w) := by
  -- the words that were replaced are right, and the others are as they were
  have hinv : ∀ n ≤ N, let v := (List.range n).foldl (refillAt f N M) w
      (∀ k < n, v k = f (if k + M < N then w (k + M) else v (k + M - N)) (w k)
        (if k + 1 < N then w (k + 1) else v (k + 1 - N))) ∧ ∀ k, n ≤ k → v k = w k := by
    intro n hn
    induction n with
    | zero => exact ⟨fun k hk => absurd hk (Nat.not_lt_zero k), fun _ _ => rfl⟩
    | succ n ih =>
        obtain ⟨hdone, hleft⟩ := ih (by omega)
        rw [List.range_succ, List.foldl_append, List.foldl_cons, List.foldl_nil]
        generalize (List.range n).foldl (refillAt f N M) w = v at hdone hleft
        have hother : ∀ k, k ≠ n → refillAt f N M v n k = v k := fun k hk =>
          Function.update_of_ne hk _ _
        refine ⟨fun k hk => ?_, fun k hk => ?_⟩
        · by_cases hkn : k = n
          · subst hkn
            have hself : refillAt f N M v k k = f (v ((k + M) % N)) (v k) (v ((k + 1) % N)) :=
              Function.update_self _ _ _
            have hfar : v ((k + M) % N) =
                if k + M < N then w (k + M) else refillAt f N M v k (k + M - N) := by
              split
              · rw [Nat.mod_eq_of_lt (by assumption), hleft _ (by omega)]
              · rw [hother _ (by omega), Nat.mod_eq_sub_mod (by omega), Nat.mod_eq_of_lt (by omega)]
            have hnext : v ((k + 1) % N) =
                if k + 1 < N then w (k + 1) else refillAt f N M v k (k + 1 - N) := by
              split
              · rw [Nat.mod_eq_of_lt (by assumption), hleft _ (by omega)]
              · rw [hother _ (by omega), Nat.mod_eq_sub_mod (by omega), Nat.mod_eq_of_lt (by omega)]
            rw [hself, hfar, hnext, hleft k (Nat.le_refl k)]
          · have hk' : k + 1 < N := by omega
            rw [hother k hkn, hdone k (by omega), if_pos hk', if_pos hk']
            split
            · rfl
            · rw [hother _ (by omega)]
        · rw [hother k (by omega), hleft k (by omega)]
  exact (hinv N (Nat.le_refl N)).1

/-- **The blocks are the sequence**, if each state of the generator holds a block and the
next state holds the next. -/
theorem recurrent_blocks {σ : Type*} {next : σ → σ} {block : σ → ℕ → α}
    (h : ∀ s, Refills f N M (block s) (block (next s))) (hM : M < N) (hN : 1 < N) (s : σ) :
    Recurrent f N M fun n => block (next^[n / N] s) (n % N) := by
  intro n
  -- a word of this block, or one of the next
  have hahead : ∀ i < N, block (next^[(n + i) / N] s) ((n + i) % N) =
      if n % N + i < N then block (next^[n / N] s) (n % N + i)
      else block (next (next^[n / N] s)) (n % N + i - N) := by
    intro i hi
    have hn := Nat.mod_add_div n N
    have hlt := Nat.mod_lt n (show 0 < N by omega)
    split
    · obtain ⟨hdiv, hmod⟩ : (n + i) / N = n / N ∧ (n + i) % N = n % N + i :=
        (Nat.div_mod_unique (by omega)).2 ⟨by omega, by assumption⟩
      rw [hdiv, hmod]
    · obtain ⟨hdiv, hmod⟩ : (n + i) / N = n / N + 1 ∧ (n + i) % N = n % N + i - N := by
        refine (Nat.div_mod_unique (by omega)).2 ⟨?_, by omega⟩
        rw [Nat.mul_add, Nat.mul_one]
        omega
      rw [hdiv, hmod, Function.iterate_succ_apply']
  have hself : block (next^[(n + N) / N] s) ((n + N) % N) = block (next (next^[n / N] s)) (n % N) := by
    rw [Nat.add_div_right n (by omega), Nat.add_mod_right, Function.iterate_succ_apply']
  dsimp only
  rw [hself, hahead M hM, hahead 1 hN]
  exact h _ _ (Nat.mod_lt n (by omega))

/-! ### Shifted words -/

variable {w : ℕ}

/-- **A word and its right shift** lose nothing: the upper bits are those of the word, and
each gives one further down. -/
theorem xor_ushiftRight_injective {s : ℕ} (hs : 0 < s) :
    Function.Injective fun x : BitVec w => x ^^^ (x >>> s) := by
  intro x y hxy
  have hbit : ∀ i, (x.getLsbD i ^^ x.getLsbD (s + i)) = (y.getLsbD i ^^ y.getLsbD (s + i)) := by
    intro i
    have := congrArg (fun z : BitVec w => z.getLsbD i) hxy
    simpa only [BitVec.getLsbD_xor, BitVec.getLsbD_ushiftRight] using this
  -- downwards, by the number of bits above
  have hall : ∀ n i, w ≤ i + n → x.getLsbD i = y.getLsbD i := by
    intro n
    induction n with
    | zero => exact fun i hi => by rw [BitVec.getLsbD_of_ge x i hi, BitVec.getLsbD_of_ge y i hi]
    | succ n ih =>
        intro i hi
        have habove := ih (s + i) (by omega)
        have h := hbit i
        rw [habove] at h
        exact Bool.xor_left_inj.1 h
  exact BitVec.eq_of_getLsbD_eq fun i hi => hall w i (by omega)

/-- **A word and a part of its left shift** lose nothing, from the lower bits on: the lowest
bits are kept as they are, and each higher bit is found again from a lower one that is
already known.  -/
theorem xor_shiftLeft_and_injective {s : ℕ} (hs : 0 < s) (m : BitVec w) :
    Function.Injective fun x : BitVec w => x ^^^ (x <<< s &&& m) := by
  intro x y hxy
  have hall : ∀ i, x.getLsbD i = y.getLsbD i := by
    intro i
    induction i using Nat.strongRecOn with
    | ind i ih =>
        have hbelow : (x <<< s).getLsbD i = (y <<< s).getLsbD i := by
          rw [BitVec.getLsbD_shiftLeft, BitVec.getLsbD_shiftLeft]
          by_cases hi : i < s
          · simp [hi]
          · rw [ih (i - s) (by omega)]
        have h := congrArg (fun z : BitVec w => z.getLsbD i) hxy
        simp only [BitVec.getLsbD_xor, BitVec.getLsbD_and, hbelow] at h
        exact Bool.xor_left_inj.1 h
  exact BitVec.eq_of_getLsbD_eq fun i _ => hall i

end Foundation
end Jackalope
