/-
  Fuse7z.Lib.Word

  Machine words read as integers.

  A conversion between word types keeps the value it stands for as long as the
  value is in the range of both.  These are the cases the C integer
  conversions of a 64-bit target come down to.
-/
import Mathlib.Algebra.Group.Nat.Defs
import Mathlib.Data.List.Basic

namespace Lib

/-- A 64-bit word below `2^63` is the same number when read as signed. -/
theorem toInt_toInt64 {x : UInt64} (h : x.toNat < 2 ^ 63) : x.toInt64.toInt = x.toNat := by
  have hnat : x.toBitVec.toNat = x.toNat := rfl
  show x.toBitVec.toInt = x.toNat
  rw [BitVec.toInt_eq_toNat_of_lt (by omega), hnat]

/-- A 32-bit word below `2^31` is the same number when read as signed. -/
theorem toInt_toInt32 {x : UInt32} (h : x.toNat < 2 ^ 31) : x.toInt32.toInt = x.toNat := by
  have hnat : x.toBitVec.toNat = x.toNat := rfl
  show x.toBitVec.toInt = x.toNat
  rw [BitVec.toInt_eq_toNat_of_lt (by omega), hnat]

/-- The low half of a 64-bit word that fits in it. -/
theorem toNat_toUInt32 {x : UInt64} (h : x.toNat < 2 ^ 32) : x.toUInt32.toNat = x.toNat := by
  rw [UInt64.toNat_toUInt32]
  exact Nat.mod_eq_of_lt h

/-- A signed word that is not negative, read as unsigned. -/
theorem toNat_toUInt64_of_toInt {x : Int64} {n : Nat} (h : x.toInt = n) :
    x.toUInt64.toNat = n := by
  have hnonneg : 0 ≤ x := by
    rw [Int64.le_iff_toInt_le, h]
    exact Int.natCast_nonneg n
  rw [Int64.toNat_toUInt64_of_le hnonneg]
  show x.toInt.toNat = n
  rw [h, Int.toNat_natCast]

/-- A 32-bit word read as signed is not negative when it is below `2^31`. -/
theorem toInt32_nonneg_iff (x : UInt32) : 0 ≤ x.toInt32 ↔ x.toNat < 2 ^ 31 := by
  have hnat : x.toBitVec.toNat = x.toNat := rfl
  have hlt : x.toNat < 2 ^ 32 := x.toNat_lt
  have hint : x.toInt32.toInt = if 2 * x.toNat < 2 ^ 32 then (x.toNat : Int)
      else (x.toNat : Int) - (2 ^ 32 : Nat) := BitVec.toInt_eq_toNat_cond x.toBitVec
  rw [Int32.le_iff_toInt_le, hint]
  show 0 ≤ _ ↔ _
  split_ifs with hhalf
  · omega
  · omega

/-- A 32-bit word, read as signed and widened to an unsigned one of 64 bits:
    from `2^31` on the upper half is filled with ones. -/
theorem toNat_signExtend (x : UInt32) :
    x.toInt32.toInt64.toUInt64.toNat
      = if x.toNat < 2 ^ 31 then x.toNat else x.toNat + (2 ^ 64 - 2 ^ 32) := by
  have hext : x.toInt32.toInt64.toUInt64.toNat = (x.toBitVec.signExtend 64).toNat := rfl
  have hnat : x.toBitVec.toNat = x.toNat := rfl
  have hlt : x.toNat < 2 ^ 32 := x.toNat_lt
  have hwide : (x.toBitVec.setWidth 64).toNat = x.toNat := by
    rw [BitVec.toNat_setWidth, hnat]
    omega
  rw [hext, BitVec.toNat_signExtend, BitVec.msb_eq_decide, hwide, hnat]
  by_cases hsign : x.toNat < 2 ^ 31
  · have hmsb : ¬ 2 ^ (32 - 1) ≤ x.toNat := by omega
    rw [if_pos hsign, decide_eq_false hmsb]
    rfl
  · have hmsb : 2 ^ (32 - 1) ≤ x.toNat := by omega
    rw [if_neg hsign, decide_eq_true hmsb]
    rfl

/-- A small number kept in a signed 32-bit word and used as an index. -/
theorem toNat_index {n : Nat} (h : n < 2 ^ 31) : (Int32.ofNat n).toInt64.toUInt64.toNat = n := by
  have hnat : (UInt32.ofNat n).toNat = n := UInt32.toNat_ofNat_of_lt' (Nat.lt_trans h (by decide))
  have hext := toNat_signExtend (UInt32.ofNat n)
  rw [UInt32.toInt32_ofNat', hnat, if_pos h] at hext
  exact hext

/-- The next word is another one. -/
theorem add_one_ne (x : UInt64) : x + 1 ≠ x := by simp

/-- Unsigned subtraction goes around below zero. -/
theorem toNat_sub_wrap (x y : UInt64) :
    (x - y).toNat = if y.toNat ≤ x.toNat then x.toNat - y.toNat
      else x.toNat + 2 ^ 64 - y.toNat := by
  have hx : x.toNat < 2 ^ 64 := x.toNat_lt
  have hy : y.toNat < 2 ^ 64 := y.toNat_lt
  rw [UInt64.toNat_sub]
  split_ifs with hle
  · omega
  · omega

end Lib
