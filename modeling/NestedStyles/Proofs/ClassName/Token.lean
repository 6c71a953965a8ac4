import Mathlib
import NestedStyles.ClassName.Token
/-!
# Tokens are read back

The index of a token can be read off its digits, the least significant one first, so different
indices have different tokens. The digits of a number are as few as there can be: the last one is `0`
for zero only. So a text that looks like a token is the token of the number that it spells, unless it
is made of zeros in excess.

* `indexOf_digits36`, `token_injective`: the index is read back;
* `digits36_indexOf`: digits without a `0` at the end are those of the number that they spell;
* `Spells` says what the digits of a number look like; `token_eq_iff`: these are the tokens, but for
  zeros in excess (`token_ne_zeros`).
-/
namespace NestedStyles.ClassName

/-! ## Digits -/

/-- Whether `c` is a digit, `0` to `9` or `a` to `z`. -/
def isDigit36 (c : Char) : Bool := c.isDigit || c.isLower

/-- The value of a digit. -/
def valueOf (c : Char) : Nat := if c.toNat < 58 then c.toNat - 48 else c.toNat - 87

theorem isDigit36_digit36 {n : Nat} (h : n < 36) : isDigit36 (digit36 n) = true := by
  have hall : ∀ i : Fin 36, isDigit36 (digit36 i.val) = true := by decide +kernel
  exact hall ⟨n, h⟩

theorem valueOf_digit36 {n : Nat} (h : n < 36) : valueOf (digit36 n) = n := by
  have hall : ∀ i : Fin 36, valueOf (digit36 i.val) = i.val := by decide +kernel
  exact hall ⟨n, h⟩

/-- Every digit is the one for its value. -/
theorem digit36_valueOf {c : Char} (h : isDigit36 c = true) :
    valueOf c < 36 ∧ digit36 (valueOf c) = c := by
  have hrange : 48 ≤ c.toNat ∧ c.toNat ≤ 57 ∨ 97 ≤ c.toNat ∧ c.toNat ≤ 122 := by
    simpa [isDigit36, Char.isDigit, Char.isLower, UInt32.le_iff_toNat_le] using h
  have hzero : '0'.toNat = 48 := rfl
  have ha : 'a'.toNat = 97 := rfl
  rcases hrange with hdigit | hletter
  · have hvalue : valueOf c = c.toNat - 48 := if_pos (by omega)
    have hcode : 48 + (c.toNat - 48) = c.toNat := by omega
    refine ⟨by omega, ?_⟩
    rw [hvalue, digit36, if_pos (by omega), hzero, hcode, Char.ofNat_toNat]
  · have hvalue : valueOf c = c.toNat - 87 := if_neg (by omega)
    have hcode : 97 + (c.toNat - 87 - 10) = c.toNat := by omega
    refine ⟨by omega, ?_⟩
    rw [hvalue, digit36, if_neg (by omega), ha, hcode, Char.ofNat_toNat]

/-! ## Numbers -/

/-- The number that digits spell, the least significant one first. -/
def indexOf (digits : List Char) : Nat := digits.foldr (fun c n => valueOf c + 36 * n) 0

theorem indexOf_cons (c : Char) (cs : List Char) :
    indexOf (c :: cs) = valueOf c + 36 * indexOf cs := rfl

theorem indexOf_digits36 (n : Nat) : indexOf (digits36 n) = n := by
  induction n using digits36.induct with
  | case1 n h =>
    rw [digits36, if_pos h]
    exact valueOf_digit36 h
  | case2 n h ih =>
    have hmod := valueOf_digit36 (Nat.mod_lt n (by omega : 0 < 36))
    rw [digits36, if_neg h, indexOf_cons, hmod, ih]
    omega

theorem digits36_ne_nil (n : Nat) : digits36 n ≠ [] := by
  rw [digits36]
  split <;> exact List.cons_ne_nil _ _

theorem isDigit36_of_mem_digits36 (n : Nat) : ∀ c ∈ digits36 n, isDigit36 c = true := by
  induction n using digits36.induct with
  | case1 n h =>
    rw [digits36, if_pos h, List.forall_mem_singleton]
    exact isDigit36_digit36 h
  | case2 n h ih =>
    rw [digits36, if_neg h, List.forall_mem_cons]
    exact ⟨isDigit36_digit36 (Nat.mod_lt n (by decide)), ih⟩

/-- Only the digits of zero have a `0` at the end. -/
theorem eq_zero_of_getLast?_digits36 {n : Nat} (hlast : (digits36 n).getLast? = some '0') :
    n = 0 := by
  induction n using digits36.induct with
  | case1 n h =>
    rw [digits36, if_pos h] at hlast
    have hdigit : digit36 n = '0' := Option.some.inj hlast
    rw [← valueOf_digit36 h, hdigit]
    rfl
  | case2 n h ih =>
    obtain ⟨c, cs, hcs⟩ := List.exists_cons_of_ne_nil (digits36_ne_nil (n / 36))
    rw [digits36, if_neg h, hcs, List.getLast?_cons_cons, ← hcs] at hlast
    have hquotient := ih hlast
    omega

theorem digits36_ne_replicate (n k : Nat) : digits36 n ≠ List.replicate (k + 2) '0' := by
  intro h
  have hlast : (digits36 n).getLast? = some '0' := by
    rw [h, List.getLast?_replicate, if_neg (by omega)]
  have hlength : (digits36 0).length = 1 := by
    rw [digits36, if_pos (by decide)]
    rfl
  rw [eq_zero_of_getLast?_digits36 hlast] at h
  rw [h, List.length_replicate] at hlength
  omega

section Digits

variable {digits : List Char}

/-- Only zeros spell zero. -/
theorem eq_replicate_of_indexOf (hdigits : ∀ c ∈ digits, isDigit36 c = true)
    (h : indexOf digits = 0) : digits = List.replicate digits.length '0' := by
  refine List.eq_replicate_iff.2 ⟨rfl, ?_⟩
  induction digits with
  | nil => exact fun c hc => absurd hc List.not_mem_nil
  | cons c cs ih =>
    rw [List.forall_mem_cons] at hdigits ⊢
    rw [indexOf_cons] at h
    have hc : valueOf c = 0 := by omega
    refine ⟨?_, ih hdigits.2 (by omega)⟩
    rw [← (digit36_valueOf hdigits.1).2, hc]
    rfl

theorem indexOf_pos (hdigits : ∀ c ∈ digits, isDigit36 c = true) (hne : digits ≠ [])
    (hlast : digits.getLast? ≠ some '0') : 0 < indexOf digits := by
  refine Nat.pos_of_ne_zero fun hzero => hlast ?_
  have hlength : digits.length ≠ 0 := fun h => hne (List.length_eq_zero_iff.1 h)
  rw [eq_replicate_of_indexOf hdigits hzero, List.getLast?_replicate, if_neg hlength]

/-- Digits without a `0` at the end are those of the number that they spell. -/
theorem digits36_indexOf (hdigits : ∀ c ∈ digits, isDigit36 c = true) (hne : digits ≠ [])
    (hlast : digits.getLast? ≠ some '0') : digits36 (indexOf digits) = digits := by
  induction digits with
  | nil => exact absurd rfl hne
  | cons c cs ih =>
    obtain ⟨hvalue, hdigit⟩ := digit36_valueOf (hdigits c List.mem_cons_self)
    cases cs with
    | nil =>
      have hone : indexOf [c] = valueOf c := rfl
      rw [hone, digits36, if_pos hvalue, hdigit]
    | cons d ds =>
      have hrest : ∀ c ∈ d :: ds, isDigit36 c = true := fun c hc =>
        hdigits c (List.mem_cons_of_mem _ hc)
      rw [List.getLast?_cons_cons] at hlast
      -- the digits behind the first one spell a positive number, so that the recursion goes on
      have hpos := indexOf_pos hrest (List.cons_ne_nil d ds) hlast
      have hmod : (valueOf c + 36 * indexOf (d :: ds)) % 36 = valueOf c := by omega
      have hdiv : (valueOf c + 36 * indexOf (d :: ds)) / 36 = indexOf (d :: ds) := by omega
      rw [indexOf_cons, digits36, if_neg (by omega), hmod, hdiv, hdigit,
        ih hrest (List.cons_ne_nil d ds) hlast]

end Digits

/-! ## Tokens -/

/-- The characters are digits, at least one, that spell `n` from the least significant one on, and the
last of them is `0` only if `n` is zero. -/
structure Spells (digits : List Char) (n : Nat) : Prop where
  ne_nil : digits ≠ []
  isDigit : ∀ c ∈ digits, isDigit36 c = true
  value : indexOf digits = n
  last : digits.getLast? = some '0' → n = 0

theorem spells_digits36 (n : Nat) : Spells (digits36 n) n where
  ne_nil := digits36_ne_nil n
  isDigit := isDigit36_of_mem_digits36 n
  value := indexOf_digits36 n
  last := eq_zero_of_getLast?_digits36

/-- What spells a number are its digits, or several zeros. -/
theorem Spells.eq_digits36 {digits : List Char} {n : Nat} (h : Spells digits n)
    (hzeros : ∀ k, digits ≠ List.replicate (k + 2) '0') : digits = digits36 n := by
  by_cases hlast : digits.getLast? = some '0'
  · obtain rfl := h.last hlast
    have hall := eq_replicate_of_indexOf h.isDigit h.value
    match hlength : digits.length with
    | 0 => exact absurd (List.length_eq_zero_iff.1 hlength) h.ne_nil
    | 1 =>
      rw [hall, hlength, digits36, if_pos (by decide)]
      rfl
    | k + 2 => exact absurd (hall.trans (by rw [hlength])) (hzeros k)
  · rw [← h.value, digits36_indexOf h.isDigit h.ne_nil hlast]

theorem token_injective {m n : Nat} (h : token m = token n) : m = n := by
  have hdigits : digits36 m = digits36 n := (List.cons.inj (String.ofList_injective h)).2
  rw [← indexOf_digits36 m, hdigits, indexOf_digits36]

/-- A text is the token of a number if and only if it is `_` and digits that spell the number, and not
`_` and several zeros; different numbers have different tokens. -/
theorem token_eq_iff :
    (∀ s n, s = token n ↔ ∃ digits, s = .ofList ('_' :: digits) ∧ Spells digits n
      ∧ ∀ k, digits ≠ List.replicate (k + 2) '0')
    ∧ ∀ m n, token m = token n ↔ m = n := by
  refine ⟨fun s n => ⟨?_, ?_⟩, fun m n => ⟨token_injective, congrArg token⟩⟩
  · rintro rfl
    exact ⟨digits36 n, rfl, spells_digits36 n, digits36_ne_replicate n⟩
  · rintro ⟨digits, rfl, hspells, hzeros⟩
    rw [hspells.eq_digits36 hzeros]
    rfl

/-- Two zeros spell zero, but they are not its digits. -/
theorem token_ne_zeros : Spells ['0', '0'] 0 ∧ String.ofList ('_' :: ['0', '0']) ≠ token 0 := by
  have hzeros : ∀ c ∈ ['0', '0'], isDigit36 c = true := by simp [isDigit36]
  refine ⟨⟨by decide, hzeros, by decide, fun _ => rfl⟩, fun h => ?_⟩
  have hdigits : ['0', '0'] = digits36 0 := (List.cons.inj (String.ofList_injective h)).2
  exact digits36_ne_replicate 0 0 hdigits.symm

end NestedStyles.ClassName
