/-
# Draws from a PRNG

`prng.h`.  A PRNG is the list of the numbers that `Rand` will return, so a
statement about every list is one about every PRNG stream; a computation that
wants more draws than the list has stops with `noDraws`.

`RandReal` is `Rand() * (1.0 / 4294967295.0)` and is only compared with constants.
The product grows with the draw, so each comparison is a bound on the draw; the
bounds below are those of IEEE double arithmetic (the constants 0.2, 0.4 and 0.8
meet a draw exactly, and rounding decides there).
-/

import Jackalope.Foundation.Consumer
import Jackalope.Coverage

namespace Jackalope

open Foundation Foundation.Consumer

/-- Why a computation stops. -/
inductive Stop
  /-- The draws that were given are used up. -/
  | noDraws
  /-- The C++ behaviour is undefined: a pointer that is not set, an index or a
  division out of range. -/
  | undefined
  /-- `FATAL`. -/
  | fatal
  deriving DecidableEq

/-- A computation that draws from a PRNG. -/
abbrev Draws (α : Type) := Consumer UInt32 Stop α

/-- `PRNG::Rand()`. -/
def rand : Draws UInt32 := next .noDraws

/-- `RandReal() > 0.75` for the draw `r`. -/
def over75 (r : UInt32) : Bool := decide (3221225472 ≤ r.toNat)

/-- `RandReal() > 0.5` for the draw `r`. -/
def over50 (r : UInt32) : Bool := decide (2147483648 ≤ r.toNat)

/-- `RandReal() < 0.1` for the draw `r`. -/
def below10 (r : UInt32) : Bool := decide (r.toNat < 429496730)

/-- `RandReal() < 0.2` for the draw `r`. -/
def below20 (r : UInt32) : Bool := decide (r.toNat < 858993459)

/-- `RandReal() < 0.3` for the draw `r`. -/
def below30 (r : UInt32) : Bool := decide (r.toNat < 1288490189)

/-- `RandReal() < 0.4` for the draw `r`. -/
def below40 (r : UInt32) : Bool := decide (r.toNat < 1717986918)

/-- `RandReal() < 0.5` for the draw `r`. -/
def below50 (r : UInt32) : Bool := decide (r.toNat < 2147483648)

/-- `RandReal() < 0.8` for the draw `r`. -/
def below80 (r : UInt32) : Bool := decide (r.toNat < 3435973836)

/-- `Rand() % n` with `n` a `size_t`; a remainder by zero is undefined. -/
def randMod (n : ℕ) : Draws ℕ := do
  if n = 0 then fail .undefined
  else
    let r ← rand
    pure (r.toNat % n)

/-- `PRNG::Rand(int min, int max)`.  The sum is one of 32-bit numbers, and the result is
an `int`; a bound that does not fit an `int` is undefined. -/
def randBetween (min max : ℤ) : Draws ℤ :=
  if min = max then pure min
  else if max - min + 1 ≥ 2 ^ 31 then fail .undefined
  else do
    let r ← randMod ((max - min + 1) % 2 ^ 32).toNat
    pure (Int.bmod (r + min) (2 ^ 32))

/-- The draw that ends every loop that goes on with probability 0.75 or 0.5. -/
def lastDraw : UInt32 := 4294967295

/-- `Rand` takes a draw.  -/
theorem consumes_rand : Consumes rand := consumes_next Stop.noDraws

/-- `Rand` may return any number.  -/
theorem mayReturn_rand (r : UInt32) : MayReturn rand r := MayReturn.next Stop.noDraws r

/-- `Rand` looks at one draw only.  -/
theorem isLocal_rand : IsLocal rand := IsLocal.next Stop.noDraws

/-- `Rand` finishes on the last draw.  -/
theorem finishes_rand : Finishes lastDraw rand := Finishes.next lastDraw Stop.noDraws

/-- `Rand` returns something, unless the draws have come to their end.  -/
theorem spec_rand : Spec rand (fun _ => True) (· = .noDraws) :=
  Spec.next (fun _ => trivial) rfl

/-- A remainder by a positive number is below it. -/
theorem spec_randMod {n : ℕ} (h : 0 < n) : Spec (randMod n) (· < n) (· = .noDraws) := by
  rw [randMod, if_neg h.ne']
  exact spec_rand.bind fun r _ => Spec.pure (Nat.mod_lt _ h)

/-- A number between bounds that an `int` can hold, with one to spare for their distance.
The bounds are not negative and in order, or `max - min + 1` would not be what is drawn
below.  -/
theorem spec_randBetween {min max : ℤ} (h0 : 0 ≤ min) (h : min ≤ max) (hlt : max - min + 1 < 2 ^ 31)
    (hmax : max < 2 ^ 31) :
    Spec (randBetween min max) (fun v => min ≤ v ∧ v ≤ max) (· = .noDraws) := by
  rw [randBetween]
  split
  · rename_i heq
    exact Spec.pure ⟨le_rfl, heq.le⟩
  rw [if_neg (by omega)]
  have hmod : (max - min + 1) % 2 ^ 32 = max - min + 1 := Int.emod_eq_of_lt (by omega) (by omega)
  rw [hmod]
  refine (spec_randMod (by omega)).bind fun r hr => Spec.pure ?_
  have hr' : (r : ℤ) < max - min + 1 := by omega
  rw [Int.bmod_eq_of_le (by omega) (by omega)]
  omega

/-- `Rand() % n` takes a draw; with `n` zero it gives no result.  -/
theorem consumes_randMod (n : ℕ) : Consumes (randMod n) := by
  rw [randMod]
  split
  · exact consumes_fail _
  · exact consumes_rand.bind fun _ => shrinks_pure _

/-- `Rand() % n` puts no draw back.  -/
theorem shrinks_randMod (n : ℕ) : Shrinks (randMod n) := (consumes_randMod n).shrinks

/-- `Rand() % n` looks at one draw only.  -/
theorem isLocal_randMod (n : ℕ) : IsLocal (randMod n) := by
  rw [randMod]
  split
  · exact IsLocal.fail _
  · exact isLocal_rand.bind fun _ => IsLocal.pure _

/-- `Rand() % n` finishes on the last draw, if `n` is not zero.  -/
theorem finishes_randMod {n : ℕ} (h : 0 < n) : Finishes lastDraw (randMod n) := by
  rw [randMod, if_neg h.ne']
  exact finishes_rand.bind fun _ => Finishes.pure _ _

end Jackalope
