import NestedStyles.Proofs.Decimal.Digits
import NestedStyles.Proofs.Json.Quoted
/-!
# Tokens of a text

A text is cut into tokens wherever the reader of single tokens stops; blanks before a token are
passed over.

* `Spells` relates a text to its tokens, and `tokens?_of_spells` says that these are read;
* `Spells.quoted`, `Spells.digits`: a string literal and the digits of a number are one token each;
* `digitsValue?_of_lt`, `eq_of_digitsValue?`: a number below 2 ^ 64 is read as itself, and none as
  another one.
-/
namespace NestedStyles.Json

/-- A text and its tokens, of which the last ends the text. -/
inductive Spells : List Char → List Token → Prop
  | nil : Spells [] []
  | blank {c : Char} {cs : List Char} {ts : List Token} (hc : isSpace c = true) (h : Spells cs ts) :
      Spells (c :: cs) ts
  | cons {c : Char} {cs rest : List Char} {t : Token} {ts : List Token} (hc : isSpace c = false)
      (ht : readToken? (c :: cs) = some (t, rest)) (hl : rest.length ≤ cs.length)
      (h : Spells rest ts) : Spells (c :: cs) (t :: ts)

theorem tokensUpTo?_of_spells {cs : List Char} {ts : List Token} (h : Spells cs ts) :
    ∀ fuel, cs.length < fuel → tokensUpTo? fuel cs = some ts := by
  induction h with
  | nil =>
    intro fuel hf
    cases fuel with
    | zero => omega
    | succ fuel => rfl
  | @blank c cs ts hc _ ih =>
    intro fuel hf
    cases fuel with
    | zero => omega
    | succ fuel =>
      rw [List.length_cons] at hf
      have hd : (c :: cs).dropWhile isSpace = cs.dropWhile isSpace := by
        rw [List.dropWhile_cons, hc]
        rfl
      rw [tokensUpTo?, hd]
      exact ih (fuel + 1) (by omega)
  | @cons c cs rest t ts hc ht hl _ ih =>
    intro fuel hf
    cases fuel with
    | zero => omega
    | succ fuel =>
      rw [List.length_cons] at hf
      have hd : (c :: cs).dropWhile isSpace = c :: cs := by rw [List.dropWhile_cons, hc]; rfl
      rw [tokensUpTo?, hd]
      simp only [ht, ih fuel (by omega), Option.bind_eq_bind, Option.bind_some, Option.pure_def]

theorem tokens?_of_spells {cs : List Char} {ts : List Token} (h : Spells cs ts) :
    tokens? cs = some ts := tokensUpTo?_of_spells h _ (Nat.lt_succ_self _)

theorem Spells.quoted {cs rest : List Char} {ts : List Token} (h : Spells rest ts) :
    Spells (quotedChars cs ++ rest) (.string (some (.ofList cs)) :: ts) := by
  have hl : rest.length ≤ (cs.flatMap escape ++ ['"'] ++ rest).length := by
    rw [List.length_append]
    exact Nat.le_add_left _ _
  exact .cons (by decide) (readToken?_quoted cs rest) hl h

theorem readToken?_digit {c : Char} (hc : c.isDigit = true) (cs : List Char) :
    readToken? (c :: cs) = (readNumber? (c :: cs)).map fun p => (.number p.1, p.2) := by
  rw [readToken?]
  -- no digit starts one of the other tokens
  all_goals
    intro rest h
    cases h
    cases hc

/-- The value that the digits of a number have. -/
def digitsValue? (n : Nat) : Option Number := number? false (Nat.toDigits 10 n) [] none

theorem digitsValue?_of_lt {n : Nat} (hn : n < UInt64.size) : digitsValue? n = some (.int n) := by
  rw [digitsValue?, number?, Decimal.takeUnits_toDigits hn]
  simp

/-- Digits that are cut off leave a number that is not whole. -/
theorem eq_of_digitsValue? {n : Nat} {m : Int} (h : digitsValue? n = some (.int m)) : m = n := by
  rw [digitsValue?, number?] at h
  cases hunits : Decimal.takeUnits 0 (Nat.toDigits 10 n) with
  | mk units left =>
    rw [hunits] at h
    cases left with
    | nil =>
      have hn := Decimal.eq_of_takeUnits hunits
      rw [Nat.ofDigitChars_ten_toDigits] at hn
      simpa [hn, eq_comm] using h
    | cons c cs => simp at h

/-- The digits of a number are one token, up to the brace after them. -/
theorem readNumber?_toDigits (n : Nat) (rest : List Char) :
    readNumber? (Nat.toDigits 10 n ++ '\x7d' :: rest)
      = some (digitsValue? n, '\x7d' :: rest) := by
  have hdigits : ∀ c ∈ Nat.toDigits 10 n, c.isDigit = true :=
    fun c => Decimal.isDigit_of_mem_toDigits
  have htake : (Nat.toDigits 10 n ++ '\x7d' :: rest).takeWhile Char.isDigit
      = Nat.toDigits 10 n := by
    rw [List.takeWhile_append_of_pos hdigits]
    exact List.append_nil _
  have hdrop : (Nat.toDigits 10 n ++ '\x7d' :: rest).dropWhile Char.isDigit = '\x7d' :: rest :=
    List.dropWhile_append_of_pos hdigits
  have hzero : ¬ (Nat.toDigits 10 n = [] ∨
      ((Nat.toDigits 10 n).head? = some '0' ∧ 1 < (Nat.toDigits 10 n).length)) := by
    rintro (h | ⟨h, hl⟩)
    · exact Nat.toDigits_ne_nil h
    · rw [Decimal.head?_toDigits n h] at hl
      exact absurd hl (by decide)
  have hsign : ∀ r, Nat.toDigits 10 n ++ '\x7d' :: rest ≠ '-' :: r := by
    intro r h
    cases hd : Nat.toDigits 10 n with
    | nil => exact Nat.toDigits_ne_nil hd
    | cons c cs =>
      rw [hd] at h
      cases h
      exact absurd (hdigits '-' (by rw [hd]; exact List.mem_cons_self)) (by decide)
  have hread : readExponent? ('\x7d' :: rest) = some (none, '\x7d' :: rest) := rfl
  unfold readNumber?
  split
  rename_i negative rest' heq
  split at heq
  · exact absurd ‹_› (hsign _)
  · cases heq
    simp only [htake, hdrop, if_neg hzero]
    have hdecimals : readDecimals? ('\x7d' :: rest) = some ([], '\x7d' :: rest) := rfl
    simp only [hdecimals, hread, Option.bind_eq_bind, Option.bind_some, Option.pure_def]
    rfl

theorem Spells.digits (n : Nat) {rest : List Char} {ts : List Token}
    (h : Spells ('\x7d' :: rest) ts) :
    Spells (Nat.toDigits 10 n ++ '\x7d' :: rest) (.number (digitsValue? n) :: ts) := by
  have hread := readNumber?_toDigits n rest
  have hdigits : ∀ c ∈ Nat.toDigits 10 n, c.isDigit = true :=
    fun c => Decimal.isDigit_of_mem_toDigits
  cases hd : Nat.toDigits 10 n with
  | nil => exact absurd hd Nat.toDigits_ne_nil
  | cons c cs =>
    rw [hd] at hread hdigits
    have hc := hdigits c List.mem_cons_self
    have hspace : isSpace c = false := by
      cases hs : isSpace c with
      | false => rfl
      | true =>
        simp only [isSpace, Bool.or_eq_true, decide_eq_true_eq] at hs
        rcases hs with ((rfl | rfl) | rfl) | rfl <;> cases hc
    have htoken : readToken? (c :: (cs ++ '\x7d' :: rest))
        = some (.number (digitsValue? n), '\x7d' :: rest) := by
      rw [readToken?_digit hc, ← List.cons_append, hread]
      rfl
    exact .cons hspace htoken (by simp) h

end NestedStyles.Json
