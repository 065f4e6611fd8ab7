/-
# Little-endian integers

`toLE k n` is what writing the `k` low bytes of `n` from memory gives on a
little-endian machine, `ofLE` what reading them back gives.
-/

import Jackalope.Foundation.Consumer

namespace Jackalope
namespace Foundation

/-- The `k` low bytes of `n`, least significant first. -/
def toLE : ℕ → ℕ → List UInt8
  | 0, _ => []
  | k + 1, n => UInt8.ofNat n :: toLE k (n / 256)

/-- The number whose bytes these are, least significant first. -/
def ofLE : List UInt8 → ℕ
  | [] => 0
  | b :: bs => b.toNat + 256 * ofLE bs

/-- A number is written with as many bytes as its field has, whatever its size.  -/
@[simp] theorem length_toLE (k n : ℕ) : (toLE k n).length = k := by
  induction k generalizing n with
  | zero => rfl
  | succ k ih => rw [toLE, List.length_cons, ih]

/-- Reading back what was written gives the number modulo its width. -/
theorem ofLE_toLE (k n : ℕ) : ofLE (toLE k n) = n % 256 ^ k := by
  induction k generalizing n with
  | zero => simp [toLE, ofLE, Nat.mod_one]
  | succ k ih =>
      have hb : (UInt8.ofNat n).toNat = n % 256 := by simp
      rw [toLE, ofLE, ih, hb, Nat.pow_succ', Nat.mod_mul]

/-- **A number that fits its field is read back from its bytes**; one that does not is read
back without the bits that the field has no room for.  -/
theorem ofLE_toLE_of_lt {k n : ℕ} (h : n < 256 ^ k) : ofLE (toLE k n) = n := by
  rw [ofLE_toLE, Nat.mod_eq_of_lt h]

/-- Writing keeps the low bytes only, so a number that is too large is written as what is
left of it modulo the power of 256. -/
theorem toLE_mod (k n : ℕ) : toLE k (n % 256 ^ k) = toLE k n := by
  induction k generalizing n with
  | zero => rfl
  | succ k ih =>
      have hdiv : n % 256 ^ (k + 1) / 256 = n / 256 % 256 ^ k := by
        rw [Nat.pow_succ', Nat.mod_mul_right_div_self]
      have hlow : UInt8.ofNat (n % 256 ^ (k + 1)) = UInt8.ofNat n := by
        rw [← UInt8.toNat_inj, UInt8.toNat_ofNat', UInt8.toNat_ofNat', Nat.pow_succ']
        exact Nat.mod_mul_right_mod _ _ _
      rw [toLE, toLE, hdiv, hlow, ih]

/-- What is read from so many bytes is below the bound for them.  -/
theorem ofLE_lt (bs : List UInt8) : ofLE bs < 256 ^ bs.length := by
  induction bs with
  | nil => simp [ofLE]
  | cons b bs ih =>
      have hb := b.toNat_lt
      rw [ofLE, List.length_cons, Nat.pow_succ']
      omega

/-- Writing what was read gives the same bytes, if as many are written as were read.  -/
theorem toLE_ofLE (bs : List UInt8) : toLE bs.length (ofLE bs) = bs := by
  induction bs with
  | nil => rfl
  | cons b bs ih =>
      have hb := b.toNat_lt
      rw [List.length_cons, toLE, ofLE, show (b.toNat + 256 * ofLE bs) / 256 = ofLE bs by omega, ih]
      congr 1
      rw [← UInt8.toNat_inj, UInt8.toNat_ofNat']
      omega

namespace Consumer

variable {ε : Type}

/-- Read a `k`-byte integer. -/
def readLE (e : ε) (k : ℕ) : Consumer UInt8 ε ℕ := do
  let bs ← takeN e k
  pure (ofLE bs)

/-- A number that fits is read back exactly. -/
theorem decodes_readLE (e : ε) {k n : ℕ} (h : n < 256 ^ k) :
    Decodes (readLE e k) (toLE k n) n := by
  have := (Decodes.takeN e (length_toLE k n)).bind_pure ofLE
  rwa [ofLE_toLE_of_lt h] at this

/-- Reading a field that is not empty takes something, so a loop over fields ends.  -/
theorem consumes_readLE (e : ε) {k : ℕ} (hk : 0 < k) : Consumes (readLE e k) :=
  (consumes_takeN e hk).bind fun _ => shrinks_pure _

/-- What was read was there. -/
theorem readLE_eq_ok {e : ε} {k n : ℕ} {l l' : List UInt8} (h : readLE e k l = .ok (n, l')) :
    l = toLE k n ++ l' ∧ n < 256 ^ k := by
  obtain ⟨bs, l₁, h₁, h₂⟩ := bind_eq_ok h
  cases h₂
  obtain ⟨rfl, rfl⟩ := takeN_eq_ok h₁
  exact ⟨by rw [toLE_ofLE], ofLE_lt bs⟩

/-- What is read is below the width. -/
theorem readLE_lt {e : ε} {k n : ℕ} {l l' : List UInt8} (h : readLE e k l = .ok (n, l')) :
    n < 256 ^ k :=
  (readLE_eq_ok h).2

end Consumer

end Foundation
end Jackalope
