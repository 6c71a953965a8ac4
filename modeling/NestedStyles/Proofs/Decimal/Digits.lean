import Mathlib
import NestedStyles.Cache.Record
/-!
# Decimal digits read back

Whole numbers are written by `Nat.toDigits 10`, as they are and with zeros in front, and read by
`natOfDigits`.

* `natOfDigits_toDigits`, `natOfDigits_zeros`: digits read back, and zeros in front do not count;
* `takeUnits_toDigits`: a number below 2 ^ 64 is read without a digit left over;
  `eq_of_takeUnits`: if none is left over, it is the number that is read;
* `head?_toDigits`: the first digit is a zero only if it is the only one;
* `padded_injective`: different numbers are padded to different digits.
-/
namespace NestedStyles.Decimal

theorem natOfDigits_eq_ofDigitChars (cs : List Char) :
    natOfDigits cs = Nat.ofDigitChars 10 cs 0 := by
  unfold natOfDigits Nat.ofDigitChars
  simp only [Nat.mul_comm]

theorem natOfDigits_toDigits (n : Nat) : natOfDigits (Nat.toDigits 10 n) = n := by
  rw [natOfDigits_eq_ofDigitChars, Nat.ofDigitChars_ten_toDigits]

theorem natOfDigits_zeros (k : Nat) (cs : List Char) :
    natOfDigits (List.replicate k '0' ++ cs) = natOfDigits cs := by
  rw [natOfDigits_eq_ofDigitChars, natOfDigits_eq_ofDigitChars, Nat.ofDigitChars_append,
    Nat.ofDigitChars_replicate_zero, Nat.mul_zero]

theorem isDigit_of_mem_toDigits {n : Nat} {c : Char} (h : c ∈ Nat.toDigits 10 n) :
    c.isDigit = true :=
  Nat.isDigit_of_mem_toDigits (by decide) (by decide) h

theorem all_isDigit_toDigits (n : Nat) : (Nat.toDigits 10 n).all Char.isDigit = true :=
  List.all_eq_true.2 fun _ => isDigit_of_mem_toDigits

/-- The first digit is a zero only if the number is zero. -/
theorem head?_toDigits (n : Nat) (h : (Nat.toDigits 10 n).head? = some '0') : n = 0 := by
  induction n using Nat.strongRecOn with
  | ind n ih =>
    rw [Nat.toDigits_eq_if (by decide)] at h
    split at h
    · simpa using h
    · rw [List.head?_append, List.head?_eq_some_head Nat.toDigits_ne_nil, Option.some_or,
        ← List.head?_eq_some_head] at h
      have := ih (n / 10) (by omega) h
      omega

/-- Digits are taken one by one as long as the number stays below 2 ^ 64, which it does at every
digit if it does at the last one. -/
theorem takeUnits_of_lt (cs : List Char) : ∀ units, Nat.ofDigitChars 10 cs units < UInt64.size →
    takeUnits units cs = (Nat.ofDigitChars 10 cs units, []) := by
  induction cs with
  | nil => intro units _; rfl
  | cons c cs ih =>
    intro units h
    rw [Nat.ofDigitChars_cons, Nat.mul_comm] at h ⊢
    have hle : units * 10 + (c.toNat - '0'.toNat) < UInt64.size := by
      rw [Nat.ofDigitChars_eq_ofDigitChars_zero] at h
      have hpos : 0 < 10 ^ cs.length := Nat.pow_pos (by decide)
      have := Nat.le_mul_of_pos_left (units * 10 + (c.toNat - '0'.toNat)) hpos
      omega
    rw [takeUnits, if_pos hle, ih _ h]

theorem takeUnits_toDigits {n : Nat} (h : n < UInt64.size) :
    takeUnits 0 (Nat.toDigits 10 n) = (n, []) := by
  rw [takeUnits_of_lt _ 0 (by rwa [Nat.ofDigitChars_ten_toDigits]), Nat.ofDigitChars_ten_toDigits]

theorem eq_of_takeUnits {cs : List Char} {units total : Nat}
    (h : takeUnits units cs = (total, [])) : total = Nat.ofDigitChars 10 cs units := by
  induction cs generalizing units with
  | nil =>
    cases h
    rfl
  | cons c cs ih =>
    rw [takeUnits] at h
    split at h
    · rw [Nat.ofDigitChars_cons, Nat.mul_comm]
      exact ih h
    · cases h

end NestedStyles.Decimal

namespace NestedStyles.Cache

open Decimal (natOfDigits natOfDigits_toDigits natOfDigits_zeros)

theorem toList_decimal (n : Nat) : (decimal n).toList = Nat.toDigits 10 n := String.toList_ofList

theorem natOfDigits_padded (n : Nat) : natOfDigits (padded n).toList = n := by
  rw [padded, String.toList_ofList, natOfDigits_zeros, natOfDigits_toDigits]

theorem padded_injective {m n : Nat} (h : padded m = padded n) : m = n := by
  rw [← natOfDigits_padded m, h, natOfDigits_padded]

end NestedStyles.Cache
