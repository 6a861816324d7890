import Mathlib.Data.Int.Init
import Mathlib.Algebra.Order.Group.Nat
import Mathlib.Algebra.Ring.Int.Defs
import Mathlib.Algebra.Ring.Nat

/-!
# Sixty-four bit words

Unsigned words are naturals below `2 ^ 64` and signed ones integers from `-2 ^ 63` to
`2 ^ 63 - 1`. Sums and differences wrap, and a conversion between the two keeps the value
modulo `2 ^ 64`. Each operation is exact on the range where its mathematical result fits.
-/

namespace Aesd.Foundation

def addU64 (left right : ℕ) : ℕ := (left + right) % 2 ^ 64

def subU64 (left right : ℕ) : ℕ := (left + (2 ^ 64 - right)) % 2 ^ 64

def toU64 (value : ℤ) : ℕ := (value % 2 ^ 64).toNat

def toI64 (value : ℤ) : ℤ := (value + 2 ^ 63) % 2 ^ 64 - 2 ^ 63

theorem addU64_eq {left right : ℕ} (h : left + right < 2 ^ 64) :
    addU64 left right = left + right := Nat.mod_eq_of_lt h

theorem subU64_eq {left right : ℕ} (hle : right ≤ left) (hlt : left < 2 ^ 64) :
    subU64 left right = left - right := by
  unfold subU64
  omega

theorem toU64_natCast {value : ℕ} (h : value < 2 ^ 64) : toU64 value = value := by
  unfold toU64
  omega

theorem toU64_eq {value : ℤ} (hnonneg : 0 ≤ value) (hlt : value < 2 ^ 64) :
    toU64 value = value.toNat := by
  unfold toU64
  rw [Int.emod_eq_of_lt hnonneg hlt]

theorem toI64_eq {value : ℤ} (hge : -2 ^ 63 ≤ value) (hlt : value < 2 ^ 63) :
    toI64 value = value := by
  unfold toI64
  omega

/-- A sum that wraps becomes negative, so a range test on the wrapped sum is one on the sum. -/
theorem toI64_mem_iff {value bound : ℤ} (hge : -2 ^ 63 ≤ value) (hlt : value < 2 ^ 64)
    (hbound : bound < 2 ^ 63) :
    (0 ≤ toI64 value ∧ toI64 value ≤ bound) ↔ (0 ≤ value ∧ value ≤ bound) := by
  by_cases hfits : value < 2 ^ 63
  · rw [toI64_eq hge hfits]
  · have hwrapped : toI64 value = value - 2 ^ 64 := by
      unfold toI64
      omega
    omega

end Aesd.Foundation
