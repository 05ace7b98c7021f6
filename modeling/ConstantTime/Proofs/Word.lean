/-
# Words as a group

Numbers of accesses are words of 64 bits, added modulo 2^64.  With the instance
below the sums of Mathlib are sums of words.  A sum or product that stays in the
range of a word is that of the integers (`toInt_add_of_lt`, `toInt_mul_of_lt`).
-/

import Mathlib.Algebra.Group.Int.Defs
import Mathlib.Algebra.Group.Nat.Defs

namespace ConstantTime

instance addCommGroupWord : AddCommGroup Int64 where
  add_assoc := Int64.add_assoc
  zero_add := Int64.zero_add
  add_zero := Int64.add_zero
  nsmul := nsmulRec
  zsmul := zsmulRec
  neg_add_cancel := Int64.add_left_neg
  add_comm := Int64.add_comm
  sub_eq_add_neg a b := by grind

variable {a b : Int64}

theorem toInt_add_of_lt (ha : 0 ≤ a.toInt) (hb : 0 ≤ b.toInt) (h : a.toInt + b.toInt < 2 ^ 63) :
    (a + b).toInt = a.toInt + b.toInt := by
  rw [Int64.toInt_add]
  exact Int.bmod_eq_of_le (by omega) (by omega)

theorem toInt_mul_of_lt (ha : 0 ≤ a.toInt) (hb : 0 ≤ b.toInt) (h : a.toInt * b.toInt < 2 ^ 63) :
    (a * b).toInt = a.toInt * b.toInt := by
  rw [Int64.toInt_mul]
  have := Int.mul_nonneg ha hb
  exact Int.bmod_eq_of_le (by omega) (by omega)

/-- A limit times a number, as the limits of the analyses are scaled. -/
theorem toInt_mul_ofNat {n : Nat} (ha : 1 ≤ a.toInt) (h : a.toInt * n < 2 ^ 63) :
    (a * Int64.ofNat n).toInt = a.toInt * n := by
  have hn : (n : Int) ≤ a.toInt * n := by
    calc (n : Int) = 1 * n := (Int.one_mul _).symm
      _ ≤ a.toInt * n := Int.mul_le_mul_of_nonneg_right ha (Int.natCast_nonneg n)
  have hword : (Int64.ofNat n).toInt = n := Int64.toInt_ofNat_of_lt (by omega)
  rw [toInt_mul_of_lt (by omega) (by omega) (by rw [hword]; exact h), hword]

theorem not_mul_ofNat_lt_zero {n : Nat} (ha : 1 ≤ a.toInt) (h : a.toInt * n < 2 ^ 63) :
    ¬ a * Int64.ofNat n < 0 := by
  rw [Int64.lt_iff_toInt_lt, Int64.toInt_zero, toInt_mul_ofNat ha h, Int.not_lt]
  exact Int.mul_nonneg (by omega) (Int.natCast_nonneg n)

/-- A limit times a number leaves as many steps as a smaller limit times the number. -/
theorem mul_le_toNat_mul_ofNat {k n : Nat} (hk : 1 ≤ k) (ha : (k : Int) ≤ a.toInt)
    (h : a.toInt * n < 2 ^ 63) : k * n ≤ (a * Int64.ofNat n).toInt.toNat := by
  have hmul : ((k * n : Nat) : Int) ≤ a.toInt * n := by
    rw [Int.natCast_mul]
    exact Int.mul_le_mul_of_nonneg_right ha (Int.natCast_nonneg n)
  rw [toInt_mul_ofNat (by omega) h]
  omega

theorem toInt_sub_one (h : 1 ≤ a.toInt) : (a - 1).toInt = a.toInt - 1 := by
  have hlt := Int64.toInt_lt a
  rw [Int64.toInt_sub, show (1 : Int64).toInt = 1 from rfl]
  exact Int.bmod_eq_of_le (by omega) (by omega)

theorem toInt_max (a b : Int64) : (max a b).toInt = max a.toInt b.toInt := by
  have hmax : max a b = if a ≤ b then b else a := rfl
  rw [hmax]
  split
  · next h => rw [Int.max_eq_right (Int64.le_iff_toInt_le.1 h)]
  · next h => rw [Int.max_eq_left (Int.le_of_not_le fun h' => h (Int64.le_iff_toInt_le.2 h'))]

end ConstantTime
