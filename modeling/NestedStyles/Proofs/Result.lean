import Mathlib.Logic.Basic
/-!
# Steps that may fail

What a chain of steps has done when it succeeds, and which of them has failed when it fails.

* `bind_eq_ok`, `bind_eq_error` for two steps, `map_eq_ok`, `map_eq_error` for one;
* `mapM_cons_eq_ok`, `mapM_cons_eq_error` for a step that is done with each element of a list;
* `foldlM_keeps` for steps that lead from one state to the next.
-/
namespace NestedStyles

section Steps

variable {ε α β : Type} {x : Except ε α} {fault : ε}

theorem bind_eq_ok {f : α → Except ε β} {b : β} :
    x >>= f = .ok b ↔ ∃ a, x = .ok a ∧ f a = .ok b := by
  cases x with
  | error fault => exact ⟨nofun, fun ⟨a, ha, _⟩ => nomatch ha⟩
  | ok a =>
    refine ⟨fun h => ⟨a, rfl, h⟩, ?_⟩
    rintro ⟨a', ha, h⟩
    cases ha
    exact h

theorem bind_eq_error {f : α → Except ε β} :
    x >>= f = .error fault ↔ x = .error fault ∨ ∃ a, x = .ok a ∧ f a = .error fault := by
  cases x with
  | error fault' =>
    refine ⟨fun h => .inl (by cases h; rfl), ?_⟩
    rintro (h | ⟨a, ha, -⟩)
    · cases h
      rfl
    · cases ha
  | ok a =>
    refine ⟨fun h => .inr ⟨a, rfl, h⟩, ?_⟩
    rintro (ha | ⟨a', ha, h⟩)
    · cases ha
    · cases ha
      exact h

theorem map_eq_ok {f : α → β} {b : β} : x.map f = .ok b ↔ ∃ a, x = .ok a ∧ f a = b := by
  cases x with
  | error fault => exact ⟨nofun, fun ⟨a, ha, _⟩ => nomatch ha⟩
  | ok a =>
    refine ⟨fun h => ⟨a, rfl, Except.ok.inj h⟩, ?_⟩
    rintro ⟨a', ha, rfl⟩
    cases ha
    rfl

theorem map_eq_error {f : α → β} : x.map f = .error fault ↔ x = .error fault := by
  cases x with
  | error fault' => exact ⟨fun h => by cases h; rfl, fun h => by cases h; rfl⟩
  | ok a => exact ⟨nofun, nofun⟩

end Steps

section Lists

variable {ε α β : Type} {f : α → Except ε β} {x : α} {xs : List α}

theorem mapM_cons_eq_ok {ys : List β} : (x :: xs).mapM f = .ok ys ↔
    ∃ y rest, f x = .ok y ∧ xs.mapM f = .ok rest ∧ ys = y :: rest := by
  rw [List.mapM_cons, bind_eq_ok]
  constructor
  · rintro ⟨y, hy, h⟩
    obtain ⟨rest, hrest, hys⟩ := bind_eq_ok.1 h
    cases hys
    exact ⟨y, rest, hy, hrest, rfl⟩
  · rintro ⟨y, rest, hy, hrest, rfl⟩
    exact ⟨y, hy, bind_eq_ok.2 ⟨rest, hrest, rfl⟩⟩

theorem mapM_cons_eq_error {fault : ε} : (x :: xs).mapM f = .error fault ↔
    f x = .error fault ∨ ∃ y, f x = .ok y ∧ xs.mapM f = .error fault := by
  have hrest : ∀ y, (do return y :: (← xs.mapM f)) = (.error fault : Except ε (List β))
      ↔ xs.mapM f = .error fault := by
    intro y
    refine bind_eq_error.trans ⟨?_, .inl⟩
    rintro (h | ⟨rest, -, hpure⟩)
    · exact h
    · cases hpure
  rw [List.mapM_cons, bind_eq_error]
  exact or_congr_right (exists_congr fun y => and_congr_right fun _ => hrest y)

/-- What all steps of a fold keep is kept by the fold. -/
theorem foldlM_keeps {P : α → Prop} {step : α → β → Except ε α}
    (hstep : ∀ a b a', P a → step a b = .ok a' → P a') (bs : List β) {a a' : α} (ha : P a)
    (h : bs.foldlM step a = .ok a') : P a' := by
  induction bs generalizing a with
  | nil =>
    cases h
    exact ha
  | cons b bs ih =>
    rw [List.foldlM_cons] at h
    obtain ⟨next, hb, h⟩ := bind_eq_ok.1 h
    exact ih (hstep a b next ha hb) h

end Lists

end NestedStyles
