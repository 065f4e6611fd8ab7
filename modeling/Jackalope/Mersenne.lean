/-
# The random numbers

`MTPRNG` (`third_party/Mersenne`) is the PRNG of every fuzzing thread
(`Fuzzer::CreatePRNG`).  It keeps 624 words and replaces all of them at once, in place,
when they are used up; each number is a word with its bits mixed.

So its numbers are those of one recurrence over words, mixed one by one
(`output_eq`): where a block begins cannot be seen.  The step of the recurrence can be
undone, so the words never become all zero if they are not in the beginning, and seeding
makes sure of that ("MSB is 1; assuring non-zero initial array").  `rand_stream` puts
this together for every seed.
-/

import Jackalope.Foundation.Recurrence
import Jackalope.Prng

namespace Jackalope
namespace Mersenne

open Foundation

/-! ### The generator -/

/-- `N` and `M`, the period parameters. -/
def N : ℕ := 624

def M : ℕ := 397

/-- `MATRIX_A`, `UPPER_MASK` and `LOWER_MASK`. -/
def matrixA : UInt32 := 0x9908b0df

def upperMask : UInt32 := 0x80000000

def lowerMask : UInt32 := 0x7fffffff

/-- `mt`. -/
abbrev Words := Vector UInt32 N

/-- `mt[k]`. -/
def Words.word (mt : Words) (k : ℕ) : UInt32 := mt.toArray.getD k 0

/-- `MTPRNG`. -/
structure MTPRNG where
  mt : Words
  mti : ℕ

/-- `mag01[x]`, for 0 and 1. -/
def mag01 (x : UInt32) : UInt32 := if x = 0 then 0 else matrixA

/-- The word that comes of `y`, before it is combined. -/
def twist (y : UInt32) : UInt32 := y >>> 1 ^^^ mag01 (y &&& 1)

/-- `mt[kk] = mt[far] ^ (y >> 1) ^ mag01[y & 0x1U]`, with `y` from `mt[kk]` and
`mt[next]`. -/
def replace (mt : Words) (kk next far : ℕ) : Words :=
  mt.set! kk (mt.word far ^^^ twist (mt.word kk &&& upperMask ||| mt.word next &&& lowerMask))

/-- "generate N words at one time". -/
def generate (mt : Words) : Words :=
  let mt := (List.range (N - M)).foldl (fun mt kk => replace mt kk (kk + 1) (kk + M)) mt
  let mt := (List.range' (N - M) (M - 1)).foldl
    (fun mt kk => replace mt kk (kk + 1) (kk - (N - M))) mt
  replace mt (N - 1) 0 (M - 1)

/-- Tempering. -/
def temper (y : UInt32) : UInt32 :=
  let y := y ^^^ (y >>> 11)
  let y := y ^^^ (y <<< 7 &&& 0x9d2c5680)
  let y := y ^^^ (y <<< 15 &&& 0xefc60000)
  y ^^^ (y >>> 18)

/-- A round of `Seed(uint32_t)`. -/
def seedWord (mt : Words) (i : ℕ) : Words :=
  mt.set! i ((1812433253 : UInt32) * (mt.word (i - 1) ^^^ (mt.word (i - 1) >>> 30)) + UInt32.ofNat i)

/-- `Seed(uint32_t)`: the words that were there do not matter. -/
def seed (seed : UInt32) : MTPRNG where
  mt := (List.range' 1 (N - 1)).foldl seedWord ((Vector.replicate N 0).set! 0 seed)
  mti := N

/-- The words of `Seed(uint32_t *, size_t)`, with `i` and `j`. -/
structure Seeding where
  mt : Words
  i : ℕ
  j : ℕ

/-- `i++`, with `if (i>=N) { mt[0] = mt[N-1]; i=1; }`. -/
def Seeding.next (mt : Words) (i : ℕ) : Words × ℕ :=
  if N ≤ i + 1 then (mt.set! 0 (mt.word (N - 1)), 1) else (mt, i + 1)

/-- A round of the first loop. -/
def Seeding.mix (seedArr : List UInt32) (s : Seeding) : Seeding :=
  let previous := s.mt.word (s.i - 1)
  let mt := s.mt.set! s.i ((s.mt.word s.i ^^^ ((previous ^^^ (previous >>> 30)) * 1664525)) +
    seedArr.getD s.j 0 + UInt32.ofNat s.j)
  let (mt, i) := Seeding.next mt s.i
  ⟨mt, i, if seedArr.length ≤ s.j + 1 then 0 else s.j + 1⟩

/-- A round of the second. -/
def Seeding.remix (s : Seeding) : Seeding :=
  let previous := s.mt.word (s.i - 1)
  let mt := s.mt.set! s.i ((s.mt.word s.i ^^^ ((previous ^^^ (previous >>> 30)) * 1566083941)) -
    UInt32.ofNat s.i)
  let (mt, i) := Seeding.next mt s.i
  ⟨mt, i, s.j⟩

/-- `Seed(uint32_t *, size_t)`, for an array that is not empty. -/
def seedArray (seedArr : List UInt32) : MTPRNG :=
  let s : Seeding := ⟨(seed 19650218).mt, 1, 0⟩
  let s := (Seeding.mix seedArr)^[max N seedArr.length] s
  let s := Seeding.remix^[N - 1] s
  ⟨s.mt.set! 0 0x80000000, N⟩

/-- `MTPRNG::Rand()`. -/
def rand (p : MTPRNG) : UInt32 × MTPRNG :=
  let p :=
    if N ≤ p.mti then
      let p := if p.mti = N + 1 then seed 5489 else p
      ⟨generate p.mt, 0⟩
    else p
  (temper (p.mt.word p.mti), { p with mti := p.mti + 1 })

/-- The generator after `n` calls. -/
def after (p : MTPRNG) (n : ℕ) : MTPRNG := (fun p => (rand p).2)^[n] p

/-- What call `n` returns. -/
def output (p : MTPRNG) (n : ℕ) : UInt32 := (rand (after p n)).1

/-! ### Words -/

/-- An assignment changes one word.  -/
@[simp] theorem word_set (mt : Words) {i : ℕ} (hi : i < N) (x : UInt32) (k : ℕ) :
    Words.word (mt.set! i x) k = if k = i then x else mt.word k := by
  have hsize : i < mt.toArray.size := by rwa [mt.size_toArray]
  rw [Words.word, Words.word, Vector.toArray_set!, Array.getD_eq_getD_getElem?,
    Array.getD_eq_getD_getElem?, Array.set!_eq_setIfInBounds, Array.getElem?_setIfInBounds]
  by_cases hk : k = i
  · rw [if_pos hk.symm, if_pos hsize, if_pos hk, Option.getD_some]
  · rw [if_neg (Ne.symm hk), if_neg hk]

/-- What the recurrence makes of the word `M` further on, the first and the second. -/
def combine (far current next : UInt32) : UInt32 :=
  far ^^^ twist (current &&& upperMask ||| next &&& lowerMask)

/-- Replacing a word in place takes one step of the recurrence, from the words that are in
the array at that time.  -/
theorem word_replace (mt : Words) {kk : ℕ} (hkk : kk < N) (next far : ℕ) :
    (replace mt kk next far).word =
      Function.update mt.word kk (combine (mt.word far) (mt.word kk) (mt.word next)) := by
  funext k
  rw [replace, word_set mt hkk, Function.update_apply]
  rfl

/-- The step at `kk`, with the indices taken modulo `N`. -/
def replaceAt (mt : Words) (kk : ℕ) : Words := replace mt kk ((kk + 1) % N) ((kk + M) % N)

/-- **The three loops are one.** `Generate` goes over the words in three parts only to save
the reduction of the indices; each part replaces a word by the same combination, so the
whole replaces all words from the first on.  -/
theorem generate_eq (mt : Words) : generate mt = (List.range N).foldl replaceAt mt := by
  have hN : N = 624 := rfl
  have hM : M = 397 := rfl
  have hrange : List.range N = List.range (N - M) ++ (List.range' (N - M) (M - 1) ++ [N - 1]) := by
    have hfirst : List.range' 0 (N - M) ++ List.range' (N - M) M = List.range' 0 N := by
      have happend := @List.range'_append_1 0 (N - M) M
      rwa [Nat.zero_add, show N - M + M = N by omega] at happend
    have hlast : List.range' (N - M) M = List.range' (N - M) (M - 1) ++ [N - 1] := by
      rw [show N - 1 = N - M + (M - 1) by omega, ← List.range'_1_concat]
      rfl
    rw [List.range_eq_range', List.range_eq_range', ← hfirst, hlast]
  have hfirst : (List.range (N - M)).foldl (fun mt kk => replace mt kk (kk + 1) (kk + M)) mt =
      (List.range (N - M)).foldl replaceAt mt := by
    refine List.foldl_ext _ _ _ fun mt kk hkk => ?_
    have hlt := List.mem_range.1 hkk
    rw [replaceAt, Nat.mod_eq_of_lt (show kk + 1 < N by omega),
      Nat.mod_eq_of_lt (show kk + M < N by omega)]
  have hsecond : ∀ mt, (List.range' (N - M) (M - 1)).foldl
      (fun mt kk => replace mt kk (kk + 1) (kk - (N - M))) mt =
      (List.range' (N - M) (M - 1)).foldl replaceAt mt := by
    intro mt
    refine List.foldl_ext _ _ _ fun mt kk hkk => ?_
    obtain ⟨hge, hlt⟩ := List.mem_range'_1.1 hkk
    rw [replaceAt, Nat.mod_eq_of_lt (show kk + 1 < N by omega),
      Nat.mod_eq_sub_mod (show N ≤ kk + M by omega), Nat.mod_eq_of_lt (show kk + M - N < N by omega),
      show kk + M - N = kk - (N - M) by omega]
  have hthird : ∀ mt, replace mt (N - 1) 0 (M - 1) = replaceAt mt (N - 1) := by
    intro mt
    have hlast : (N - 1 + 1) % N = 0 ∧ (N - 1 + M) % N = M - 1 := by decide
    rw [replaceAt, hlast.1, hlast.2]
  rw [generate, hfirst, hsecond, hthird, hrange, List.foldl_append, List.foldl_append,
    List.foldl_cons, List.foldl_nil]

/-- **A block comes in place of the one before**: `Generate` leaves the next `N` words of
the recurrence in the array.  -/
theorem refills_generate (mt : Words) : Refills combine N M mt.word (generate mt).word := by
  have hword : ∀ l : List ℕ, (∀ k ∈ l, k < N) → ∀ mt : Words,
      (l.foldl replaceAt mt).word = l.foldl (refillAt combine N M) mt.word := by
    intro l
    induction l with
    | nil => exact fun _ _ => rfl
    | cons k l ih =>
        intro hl mt
        rw [List.foldl_cons, List.foldl_cons, ih (fun j hj => hl j (List.mem_cons_of_mem _ hj)),
          replaceAt, word_replace mt (hl k List.mem_cons_self)]
        rfl
  rw [generate_eq, hword _ fun k hk => List.mem_range.1 hk]
  exact inPlace_refills (by decide) (by decide) (by decide) mt.word

/-- The words of all blocks. -/
def stream (mt : Words) (n : ℕ) : UInt32 := Words.word (generate^[n / N] mt) (n % N)

/-- **The words of all blocks, one block behind the other, are one sequence of the
recurrence.** The places that a block reads have been replaced already where the recurrence
asks for a word of the same block, and not yet where it asks for one of the block before.
-/
theorem recurrent_stream (mt : Words) : Recurrent combine N M (stream mt) :=
  recurrent_blocks refills_generate (by decide) (by decide) mt

/-- The block after `b` others. -/
theorem stream_block (mt : Words) (b : ℕ) {k : ℕ} (hk : k < N) :
    stream mt (b * N + k) = Words.word (generate^[b] mt) k := by
  obtain ⟨hdiv, hmod⟩ : (b * N + k) / N = b ∧ (b * N + k) % N = k :=
    (Nat.div_mod_unique (by decide)).2 ⟨by rw [Nat.mul_comm, Nat.add_comm], hk⟩
  rw [stream, hdiv, hmod]

/-- The first block. -/
theorem stream_first (mt : Words) {k : ℕ} (hk : k < N) : stream mt k = mt.word k := by
  have hblock := stream_block mt 0 hk
  rwa [Nat.zero_mul, Nat.zero_add] at hblock

/-- A call takes the next word of the block, or the first of the next block, tempers it, and
moves the position on by one.  Counted over all blocks, the position is the number of words
taken.  -/
theorem rand_eq {mt : Words} {b : ℕ} {p : MTPRNG} (hmt : p.mt = generate^[b] mt) (hle : p.mti ≤ N) :
    ∃ b', (rand p).1 = temper (stream mt (b * N + p.mti)) ∧
      (rand p).2.mt = generate^[b'] mt ∧ (rand p).2.mti ≤ N ∧
      b' * N + (rand p).2.mti = b * N + p.mti + 1 := by
  obtain ⟨_, mti⟩ := p
  obtain rfl : _ = generate^[b] mt := hmt
  replace hle : mti ≤ N := hle
  have hpos : 0 < N := by decide
  by_cases hend : mti = N
  · subst hend
    have hrand : rand ⟨generate^[b] mt, N⟩ =
        (temper ((generate (generate^[b] mt)).word 0), ⟨generate (generate^[b] mt), 1⟩) := rfl
    have hnext : b * N + N = (b + 1) * N + 0 := by rw [Nat.succ_mul, Nat.add_zero]
    rw [hrand, ← Function.iterate_succ_apply' generate, ← stream_block mt (b + 1) hpos, ← hnext]
    exact ⟨b + 1, rfl, rfl, hpos, by rw [Nat.succ_mul]⟩
  · have hlt : mti < N := by omega
    have hrand : rand ⟨generate^[b] mt, mti⟩ =
        (temper ((generate^[b] mt).word mti), ⟨generate^[b] mt, mti + 1⟩) := by
      rw [rand, if_neg (show ¬ N ≤ mti by omega)]
    rw [hrand, ← stream_block mt b hlt]
    exact ⟨b, rfl, rfl, Nat.succ_le_of_lt hlt, (Nat.add_assoc _ _ _).symm⟩

/-- **Where a block begins cannot be seen**: the numbers are the words of the recurrence
behind the first block, tempered. -/
theorem output_eq {p : MTPRNG} (hp : p.mti = N) (n : ℕ) :
    output p n = temper (stream p.mt (N + n)) := by
  have hafter : ∃ b, (after p n).mt = generate^[b] p.mt ∧ (after p n).mti ≤ N ∧
      b * N + (after p n).mti = N + n := by
    induction n with
    | zero => exact ⟨0, rfl, hp.le, by rw [Nat.zero_mul, Nat.zero_add]; exact hp⟩
    | succ n ih =>
        obtain ⟨b, hmt, hle, hsum⟩ := ih
        obtain ⟨b', -, hmt', hle', hsum'⟩ := rand_eq hmt hle
        have hsucc : after p (n + 1) = (rand (after p n)).2 := Function.iterate_succ_apply' _ _ _
        rw [hsucc]
        exact ⟨b', hmt', hle', by omega⟩
  obtain ⟨b, hmt, hle, hsum⟩ := hafter
  obtain ⟨-, hout, -⟩ := rand_eq hmt hle
  rw [output, hout, hsum]

/-! ### The words never become zero -/

/-- Only zero is twisted to zero, since `MATRIX_A` has its highest bit set and a shifted
word has not.  -/
theorem twist_eq_zero {y : UInt32} (h : twist y = 0) : y = 0 := by
  have hlow : (y &&& 1).toNat = y.toNat % 2 := by
    rw [UInt32.toNat_and]
    exact Nat.and_one_is_mod _
  have hhigh : (y >>> 1).toNat = y.toNat / 2 := by
    rw [UInt32.toNat_shiftRight]
    exact Nat.shiftRight_eq_div_pow _ 1
  have hlt := y.toNat_lt
  rw [twist, UInt32.xor_eq_zero_iff, mag01] at h
  split at h
  · rename_i heven
    rw [heven] at hlow
    rw [h] at hhigh
    exact UInt32.toNat_inj.1 (show y.toNat = 0 by simp at hlow hhigh; omega)
  · -- the upper bit of the matrix is set, and that of a shifted word is not
    rw [h] at hhigh
    have hmatrix : matrixA.toNat = 2567483615 := rfl
    omega

/-- The bits that the recurrence goes on from are not all zero. -/
def Alive (x : ℕ → UInt32) (n : ℕ) : Prop :=
  x n &&& upperMask ≠ 0 ∨ ∃ i, 0 < i ∧ i < N ∧ x (n + i) ≠ 0

/-- **The step can be undone**, so what comes after bits that are not all zero is not
either.  A block is determined by the block after it up to the bits that the recurrence does
not use.  -/
theorem Alive.succ {x : ℕ → UInt32} (hx : Recurrent combine N M x) {n : ℕ} (h : Alive x n) :
    Alive x (n + 1) := by
  by_contra hdead
  obtain ⟨hupper, hzero⟩ := not_or.1 hdead
  have hupper : x (n + 1) &&& upperMask = 0 := not_ne_iff.1 hupper
  have hzero : ∀ i, 0 < i → i < N → x (n + 1 + i) = 0 := by
    intro i hi hlt
    by_contra hne
    exact hzero ⟨i, hi, hlt, hne⟩
  have hstep := hx n
  have hlast : x (n + N) = 0 := hzero (N - 1) (by decide) (by decide)
  have hfar : x (n + M) = 0 := hzero (M - 1) (by decide) (by decide)
  rw [hlast, hfar, combine, UInt32.zero_xor] at hstep
  obtain ⟨hfirst, hlower⟩ := UInt32.or_eq_zero_iff.1 (twist_eq_zero hstep.symm)
  have hnext : x (n + 1) = 0 := by
    have hsplit : ∀ y : UInt32, y &&& upperMask ||| y &&& lowerMask = y := by
      intro y
      have hmasks : upperMask.toBitVec ||| lowerMask.toBitVec = BitVec.allOnes 32 := by decide
      rw [← UInt32.toBitVec_inj, UInt32.toBitVec_or, UInt32.toBitVec_and, UInt32.toBitVec_and,
        ← BitVec.and_or_distrib_left, hmasks, BitVec.and_allOnes]
    rw [← hsplit (x (n + 1)), hupper, hlower]
    rfl
  -- so nothing was left in the state before
  rcases h with h | ⟨i, hi, hlt, hne⟩
  · exact h hfirst
  · refine hne ?_
    by_cases hone : i = 1
    · rw [hone, hnext]
    · rw [show n + i = n + 1 + (i - 1) by omega]
      exact hzero (i - 1) (by omega) (by omega)

/-- **A sequence that is alive stays alive**: the step can be undone, so words that were not
all zero do not become all zero later.  -/
theorem Alive.all {x : ℕ → UInt32} (hx : Recurrent combine N M x) (h : Alive x 0) (n : ℕ) :
    Alive x n := by
  induction n with
  | zero => exact h
  | succ n ih => exact ih.succ hx

/-! ### Tempering -/

/-- **Tempering loses nothing**: each of its four lines can be undone, from the bits that it
leaves as they are to those that it changes with them.  So numbers are equal only if the
words are, and a number is zero only if its word is.  -/
theorem temper_injective : Function.Injective temper := by
  have hright : ∀ s : UInt32, 0 < (s.toBitVec % 32).toNat →
      Function.Injective fun y : UInt32 => y ^^^ (y >>> s) := by
    intro s hs x y h
    have h := congrArg UInt32.toBitVec h
    simp only [UInt32.toBitVec_xor, UInt32.toBitVec_shiftRight] at h
    exact UInt32.toBitVec_inj.1 (xor_ushiftRight_injective hs h)
  have hleft : ∀ s m : UInt32, 0 < (s.toBitVec % 32).toNat →
      Function.Injective fun y : UInt32 => y ^^^ (y <<< s &&& m) := by
    intro s m hs x y h
    have h := congrArg UInt32.toBitVec h
    simp only [UInt32.toBitVec_xor, UInt32.toBitVec_and, UInt32.toBitVec_shiftLeft] at h
    exact UInt32.toBitVec_inj.1 (xor_shiftLeft_and_injective hs m.toBitVec h)
  exact (((hright 18 (by decide)).comp (hleft 15 0xefc60000 (by decide))).comp
    (hleft 7 0x9d2c5680 (by decide))).comp (hright 11 (by decide))

/-! ### Seeds -/

/-- The words that `Seed(uint32_t)` makes, each from the one before, with the number of the
word added, in arithmetic modulo `2 ^ 32`. -/
theorem word_seed (s : UInt32) {k : ℕ} (hk : 0 < k) (hlt : k < N) : (seed s).mt.word k =
    (1812433253 : UInt32) * ((seed s).mt.word (k - 1) ^^^ ((seed s).mt.word (k - 1) >>> 30)) +
      UInt32.ofNat k := by
  have hinv : ∀ n, 1 + n ≤ N → ∀ mt : Words, ∀ k, 0 < k → k ≤ n →
      Words.word ((List.range' 1 n).foldl seedWord mt) k = (1812433253 : UInt32) *
        (Words.word ((List.range' 1 n).foldl seedWord mt) (k - 1) ^^^
          (Words.word ((List.range' 1 n).foldl seedWord mt) (k - 1) >>> 30)) + UInt32.ofNat k := by
    intro n
    induction n with
    | zero => exact fun _ _ k hk hle => absurd hk (by omega)
    | succ n ih =>
        intro hn mt k hk hle
        have hset : ∀ j, j ≠ 1 + n →
            Words.word (seedWord ((List.range' 1 n).foldl seedWord mt) (1 + n)) j =
              Words.word ((List.range' 1 n).foldl seedWord mt) j := by
          intro j hj
          rw [seedWord, word_set _ (by omega), if_neg hj]
        rw [List.range'_1_concat, List.foldl_append, List.foldl_cons, List.foldl_nil,
          hset (k - 1) (by omega)]
        by_cases hkn : k = 1 + n
        · subst hkn
          rw [seedWord, word_set _ (by omega), if_pos rfl]
        · rw [hset k hkn, ih (by omega) mt k hk (by omega)]
  simp only [seed]
  exact hinv (N - 1) (by decide) _ k hk (by omega)

/-- A seed, as the constructors of `MTPRNG` take it. -/
inductive Seeded : MTPRNG → Prop
  | word (s : UInt32) : Seeded (seed s)
  | array {seedArr : List UInt32} : seedArr ≠ [] → Seeded (seedArray seedArr)

/-- A seeded generator has used up its words, so the first call makes new ones.  -/
theorem Seeded.mti_eq {p : MTPRNG} (hp : Seeded p) : p.mti = N := by
  cases hp <;> rfl

/-- **Seeding does not leave all words zero**: the source forces the highest bit of the
first word, or the words made of the seed are not all zero by themselves.  -/
theorem Seeded.alive {p : MTPRNG} (hp : Seeded p) : Alive (stream p.mt) 0 := by
  cases hp with
  | word s =>
      by_cases hone : (seed s).mt.word 1 = 0
      · refine Or.inr ⟨2, by decide, by decide, ?_⟩
        rw [Nat.zero_add, stream_first _ (by decide), word_seed s (by decide) (by decide), hone]
        decide
      · refine Or.inr ⟨1, by decide, by decide, ?_⟩
        rwa [Nat.zero_add, stream_first _ (by decide)]
  | array =>
      left
      have hmsb : ∀ mt : Words, stream (mt.set! 0 0x80000000) 0 = 0x80000000 := fun mt =>
        (stream_first _ (by decide)).trans ((word_set mt (by decide) _ 0).trans (if_pos rfl))
      simp only [seedArray]
      rw [hmsb]
      decide

/-! ### The numbers of a seeded generator -/

/-- The list of the numbers that the next `n` calls return. -/
def draws (p : MTPRNG) (n : ℕ) : List UInt32 := (List.range n).map (output p)

/-- A computation that draws gets the number that `Rand` returns. -/
theorem rand_draws (p : MTPRNG) (n : ℕ) :
    Jackalope.rand (draws p (n + 1)) = .ok ((rand p).1, draws (rand p).2 n) := by
  have hdraws : draws p (n + 1) = (rand p).1 :: draws (rand p).2 n := by
    rw [draws, List.range_succ_eq_map, List.map_cons, List.map_map]
    rfl
  rw [hdraws]
  rfl

/-- **The stream of a seeded generator**: its numbers are those of the recurrence that
begins with the words of the seed; of any 624 numbers in a row one is not zero; and 624
numbers in a row determine all later ones, whatever the seeds and however many numbers
were drawn before. -/
theorem rand_stream {p : MTPRNG} (hp : Seeded p) :
    (∃ x : ℕ → UInt32, Recurrent combine N M x ∧ (∀ k < N, x k = p.mt.word k) ∧
      ∀ n, output p n = temper (x (N + n))) ∧
    (∀ n, ∃ i < N, output p (n + i) ≠ 0) ∧
    ∀ q, Seeded q → ∀ m n, (∀ i < N, output p (m + i) = output q (n + i)) →
      ∀ i, output p (m + i) = output q (n + i) := by
  refine ⟨⟨stream p.mt, recurrent_stream p.mt, fun k hk => stream_first p.mt hk,
    output_eq hp.mti_eq⟩, fun n => ?_, ?_⟩
  · have hne : ∀ i, stream p.mt (N + n + i) ≠ 0 → output p (n + i) ≠ 0 := by
      intro i hi hzero
      rw [output_eq hp.mti_eq, ← Nat.add_assoc] at hzero
      exact hi (temper_injective hzero)
    rcases hp.alive.all (recurrent_stream p.mt) (N + n) with hupper | ⟨i, -, hlt, hi⟩
    · refine ⟨0, by decide, hne 0 fun hzero => hupper ?_⟩
      rw [Nat.add_zero] at hzero
      rw [hzero, UInt32.zero_and]
    · exact ⟨i, hlt, hne i hi⟩
  · intro q hq m n hwindow i
    have heq : ∀ i < N, stream p.mt (N + m + i) = stream q.mt (N + n + i) := by
      intro i hi
      have h := hwindow i hi
      rw [output_eq hp.mti_eq, output_eq hq.mti_eq, ← Nat.add_assoc, ← Nat.add_assoc] at h
      exact temper_injective h
    rw [output_eq hp.mti_eq, output_eq hq.mti_eq, ← Nat.add_assoc, ← Nat.add_assoc,
      (recurrent_stream p.mt).eq_of_window (recurrent_stream q.mt) (by decide) (by decide) heq i]

/-- Four words, as the default constructor takes them from `SecureRandom`. -/
def fourWords : List UInt32 := [0x123, 0x234, 0x345, 0x456]

/-- **A generator seeded with four words**, next to one that is seeded with the number that
`Rand` falls back to.  Its outputs are the tempered words of a sequence that begins with its
own words, they do not stay zero, and where a whole block of them is one of the other
generator, so is all that comes after.  -/
theorem rand_stream_fourWords :
    (∃ x : ℕ → UInt32, Recurrent combine N M x ∧
      (∀ k < N, x k = (seedArray fourWords).mt.word k) ∧
      ∀ n, output (seedArray fourWords) n = temper (x (N + n))) ∧
    (∀ n, ∃ i < N, output (seedArray fourWords) (n + i) ≠ 0) ∧
    ∀ m n, (∀ i < N, output (seedArray fourWords) (m + i) = output (seed 5489) (n + i)) →
      ∀ i, output (seedArray fourWords) (m + i) = output (seed 5489) (n + i) := by
  obtain ⟨hrecurrence, hnonzero, hdetermined⟩ := rand_stream (.array (List.cons_ne_nil _ _))
  exact ⟨hrecurrence, hnonzero, hdetermined _ (.word 5489)⟩

end Mersenne
end Jackalope
