import NestedStyles.Proofs.Style.Grammar
/-!
# Fragments and the grammar of their parts

A fragment is meant to be a run of `:name`, `::name`, `:name(arguments)` and `[attribute]` parts. It
is never read part by part: only its brackets are matched, and only after an attribute must another
part start. So everything of this grammar is accepted, but more is.

* `Documented` is the grammar, and `Defect` what it does not have: a colon without a name, three
  colons in a row, arguments of a `::name`, and a text that goes on after arguments;
* `Balanced.closer_unique`: a bracket is closed in one place, so the outermost level of a text is
  well defined (`HasDefect`);
* `documented_iff`: a text is documented if and only if it is accepted as a fragment and has no
  defect at its outermost level.
-/
namespace NestedStyles

open Text (isBlank)

/-! ## Where a bracket is closed -/

namespace IsPair

variable {opener closer opener' closer' c : Char}

theorem isBracket_opener (h : IsPair opener closer) : isBracket opener = true := by
  cases h <;> rfl

theorem isBracket_closer (h : IsPair opener closer) : isBracket closer = true := by
  cases h <;> rfl

theorem ne_opener (h : IsPair opener closer) (hc : isBracket c = false) : c ≠ opener := by
  rintro rfl
  rw [h.isBracket_opener] at hc
  cases hc

theorem ne_closer (h : IsPair opener closer) (hc : isBracket c = false) : c ≠ closer := by
  rintro rfl
  rw [h.isBracket_closer] at hc
  cases hc

theorem opener_ne_closer (h : IsPair opener closer) (h' : IsPair opener' closer') :
    opener ≠ closer' := by
  cases h <;> cases h' <;> decide

end IsPair

namespace Balanced

/-- The first closing bracket behind a balanced text that is none of its own is found in one place
only. -/
theorem closer_unique {a b x y : List Char} {opener closer opener' closer' : Char}
    (ha : Balanced a) (hb : Balanced b) (hpair : IsPair opener closer)
    (hpair' : IsPair opener' closer') (h : a ++ closer :: x = b ++ closer' :: y) :
    a = b ∧ closer = closer' ∧ x = y := by
  induction ha generalizing b x opener closer opener' closer' y with
  | nil =>
    cases hb with
    | nil => simpa using h
    | plain hc hcs => exact absurd (List.cons.inj h).1.symm (hpair.ne_closer hc)
    | pair hopens => exact absurd (List.cons.inj h).1.symm (hopens.opener_ne_closer hpair)
  | plain hc hcs ih =>
    cases hb with
    | nil => exact absurd (List.cons.inj h).1 (hpair'.ne_closer hc)
    | plain hc' hcs' =>
      obtain ⟨rfl, hrest⟩ := List.cons.inj h
      obtain ⟨rfl, rfl, rfl⟩ := ih hcs' hpair hpair' hrest
      exact ⟨rfl, rfl, rfl⟩
    | pair hopens => exact absurd (List.cons.inj h).1 (hopens.ne_opener hc)
  | pair hopens hinner hcs ih ih' =>
    cases hb with
    | nil => exact absurd (List.cons.inj h).1 (hopens.opener_ne_closer hpair')
    | plain hc => exact absurd (List.cons.inj h).1.symm (hopens.ne_opener hc)
    | pair hopens' hinner' hcs' =>
      simp only [List.cons_append, List.append_assoc, List.cons.injEq] at h
      obtain ⟨rfl, hrest⟩ := h
      obtain ⟨rfl, rfl, hbehind⟩ := ih hinner' hopens hopens' hrest
      obtain ⟨rfl, rfl, rfl⟩ := ih' hcs' hpair hpair' hbehind
      exact ⟨rfl, rfl, rfl⟩

theorem append {a b : List Char} (ha : Balanced a) (hb : Balanced b) : Balanced (a ++ b) := by
  induction ha with
  | nil => exact hb
  | plain hc hcs ih => exact .plain hc ih
  | pair hpair hinner hcs ih ih' =>
    rw [List.append_assoc, List.cons_append]
    exact .pair hpair hinner ih'

theorem of_plain {cs : List Char} (h : ∀ c ∈ cs, isBracket c = false) : Balanced cs := by
  induction cs with
  | nil => exact .nil
  | cons c cs ih =>
    rw [List.forall_mem_cons] at h
    exact .plain h.1 (ih h.2)

/-- A balanced text before a character that is no bracket is empty, or starts with it. -/
theorem cons_plain_inv {before tail cs : List Char} {c : Char} (hc : isBracket c = false)
    (hbefore : Balanced before) (h : before ++ tail = c :: cs) :
    (before = [] ∧ tail = c :: cs)
      ∨ ∃ before', before = c :: before' ∧ Balanced before' ∧ cs = before' ++ tail := by
  cases hbefore with
  | nil => exact Or.inl ⟨rfl, h⟩
  | plain hc' hcs =>
    obtain ⟨rfl, rfl⟩ := List.cons.inj h
    exact Or.inr ⟨_, rfl, hcs, rfl⟩
  | pair hpair => exact absurd (List.cons.inj h).1.symm (hpair.ne_opener hc)

/-- A balanced text before a text in brackets is empty, or starts with it as a whole. -/
theorem cons_pair_inv {before tail inner cs : List Char} {opener closer : Char}
    (hpair : IsPair opener closer) (hinner : Balanced inner) (hbefore : Balanced before)
    (h : before ++ tail = opener :: inner ++ closer :: cs) :
    (before = [] ∧ tail = opener :: inner ++ closer :: cs)
      ∨ ∃ before', before = opener :: inner ++ closer :: before' ∧ Balanced before'
          ∧ cs = before' ++ tail := by
  cases hbefore with
  | nil => exact Or.inl ⟨rfl, h⟩
  | plain hc => exact absurd (List.cons.inj h).1 (hpair.ne_opener hc)
  | pair hpair' hinner' hcs' =>
    simp only [List.cons_append, List.append_assoc, List.cons.injEq] at h
    obtain ⟨rfl, hrest⟩ := h
    obtain ⟨rfl, rfl, rfl⟩ := closer_unique hinner' hinner hpair' hpair hrest
    exact Or.inr ⟨_, rfl, hcs', rfl⟩

end Balanced

/-! ## The grammar -/

namespace Fragment

/-- The characters of a name: no colons, no brackets, no blanks. -/
def isNameChar (c : Char) : Bool := c != ':' && !isBracket c && !isBlank c

/-- What may stand behind the colons of a part. -/
structure IsPartName (cs : List Char) : Prop where
  ne_nil : cs ≠ []
  chars : ∀ c ∈ cs, isNameChar c = true

/-- The parts of a fragment, as they are documented. -/
inductive DocumentedPart : List Char → Prop
  /-- `:name`. -/
  | pseudo {name : List Char} (hname : IsPartName name) : DocumentedPart (':' :: name)
  /-- `::name`. -/
  | element {name : List Char} (hname : IsPartName name) : DocumentedPart (':' :: ':' :: name)
  /-- `:name(arguments)`. -/
  | function {name args : List Char} (hname : IsPartName name) (hargs : Balanced args) :
    DocumentedPart (':' :: (name ++ '(' :: (args ++ [')'])))
  /-- `[attribute]`. -/
  | attr {attr : List Char} (hattr : Balanced attr) : DocumentedPart ('[' :: (attr ++ [']']))

/-- A run of one or more documented parts. -/
def Documented (cs : List Char) : Prop :=
  ∃ parts ≠ [], (∀ part ∈ parts, DocumentedPart part) ∧ cs = parts.flatten

/-- What is accepted in a fragment although no run of documented parts goes on like this. -/
inductive Defect : List Char → Prop
  /-- A colon at the end, or before a bracket. -/
  | nameless {rest : List Char} (hrest : ∀ c ∈ rest.head?, isBracket c = true) :
    Defect (':' :: rest)
  /-- A third colon. -/
  | tripled {rest : List Char} : Defect (':' :: ':' :: ':' :: rest)
  /-- Arguments of an element. -/
  | elementArguments {name rest : List Char} (hname : IsPartName name) :
    Defect (':' :: ':' :: (name ++ '(' :: rest))
  /-- Arguments and no start of a part behind them. -/
  | trailing {args rest : List Char} {c : Char} (hargs : Balanced args)
    (hc : startsFragment c = false) : Defect ('(' :: (args ++ ')' :: c :: rest))

/-- Somewhere outside of all brackets there is a defect. -/
def HasDefect (cs : List Char) : Prop :=
  ∃ before tail, Balanced before ∧ cs = before ++ tail ∧ Defect tail

variable {cs name rest part : List Char} {c : Char}

/-! ### Names -/

theorem isNameChar_iff :
    isNameChar c = true ↔ c ≠ ':' ∧ isBracket c = false ∧ isBlank c = false := by
  simp [isNameChar, and_assoc]

/-- A run of parts goes on with a name, which may be empty, and then a part or arguments. -/
theorem exists_name_of_isParts (h : IsParts cs) : ∃ name rest, cs = name ++ rest
    ∧ (∀ c ∈ name, isNameChar c = true) ∧ IsParts rest
    ∧ ((rest = [] ∨ StartsPart rest)
      ∨ ∃ args more, rest = '(' :: args ++ ')' :: more ∧ Balanced args ∧ IsParts more) := by
  induction h with
  | nil => exact ⟨[], [], rfl, by simp, .nil, Or.inl (Or.inl rfl)⟩
  | @plain c cs hc hblank hcs ih =>
    by_cases hcolon : c = ':'
    · subst hcolon
      exact ⟨[], _, rfl, by simp, .plain hc hblank hcs, Or.inl (Or.inr ⟨cs, Or.inl rfl⟩)⟩
    · obtain ⟨name, rest, rfl, hname, hrest, hnext⟩ := ih
      refine ⟨c :: name, rest, rfl, ?_, hrest, hnext⟩
      rw [List.forall_mem_cons]
      exact ⟨isNameChar_iff.2 ⟨hcolon, hc, hblank⟩, hname⟩
  | @round args cs hargs hcs =>
    exact ⟨[], _, rfl, by simp, .round hargs hcs, Or.inr ⟨args, cs, rfl, hargs, hcs⟩⟩
  | @square attr cs hattr hcs hnext =>
    exact ⟨[], _, rfl, by simp, .square hattr hcs hnext, Or.inl (Or.inr ⟨_, Or.inr rfl⟩)⟩

/-! ### Defects at the outermost level -/

theorem not_hasDefect_nil : ¬HasDefect [] := by
  rintro ⟨before, tail, -, h, hdefect⟩
  obtain ⟨-, rfl⟩ := List.append_eq_nil_iff.1 h.symm
  cases hdefect

theorem HasDefect.append {a : List Char} (ha : Balanced a) (h : HasDefect cs) :
    HasDefect (a ++ cs) := by
  obtain ⟨before, tail, hbefore, rfl, hdefect⟩ := h
  exact ⟨a ++ before, tail, ha.append hbefore, (List.append_assoc ..).symm, hdefect⟩

theorem Defect.hasDefect (h : Defect cs) : HasDefect cs := ⟨[], cs, .nil, rfl, h⟩

theorem hasDefect_plain_iff (hc : isBracket c = false) :
    HasDefect (c :: cs) ↔ Defect (c :: cs) ∨ HasDefect cs := by
  constructor
  · rintro ⟨before, tail, hbefore, h, hdefect⟩
    obtain ⟨-, rfl⟩ | ⟨before', -, hbefore', rfl⟩ := Balanced.cons_plain_inv hc hbefore h.symm
    · exact Or.inl hdefect
    · exact Or.inr ⟨before', tail, hbefore', rfl, hdefect⟩
  · rintro (h | h)
    · exact h.hasDefect
    · exact h.append (a := [c]) (.plain hc .nil)

theorem hasDefect_pair_iff {inner : List Char} {opener closer : Char} (hpair : IsPair opener closer)
    (hinner : Balanced inner) : HasDefect (opener :: inner ++ closer :: cs)
      ↔ Defect (opener :: inner ++ closer :: cs) ∨ HasDefect cs := by
  constructor
  · rintro ⟨before, tail, hbefore, h, hdefect⟩
    obtain ⟨-, rfl⟩ | ⟨before', -, hbefore', rfl⟩ := Balanced.cons_pair_inv hpair hinner hbefore h.symm
    · exact Or.inl hdefect
    · exact Or.inr ⟨before', tail, hbefore', rfl, hdefect⟩
  · rintro (h | h)
    · exact h.hasDefect
    · simpa using h.append (.pair hpair hinner .nil)

/-! ### Documented fragments have no defects -/

theorem IsPartName.balanced (h : IsPartName name) : Balanced name :=
  .of_plain fun c hc => (isNameChar_iff.1 (h.chars c hc)).2.1

theorem DocumentedPart.balanced (h : DocumentedPart part) : Balanced part := by
  cases h with
  | pseudo hname => exact .plain rfl hname.balanced
  | element hname => exact .plain rfl (.plain rfl hname.balanced)
  | function hname hargs => exact .plain rfl (hname.balanced.append (.pair .round hargs .nil))
  | attr hattr => exact .pair .square hattr .nil

theorem DocumentedPart.startsPart (h : DocumentedPart part) (rest : List Char) :
    StartsPart (part ++ rest) := by
  cases h <;> simp [StartsPart]

theorem startsPart_flatten {parts : List (List Char)} (h : ∀ part ∈ parts, DocumentedPart part) :
    parts.flatten = [] ∨ StartsPart parts.flatten := by
  cases parts with
  | nil => exact Or.inl rfl
  | cons part parts => exact Or.inr ((h part List.mem_cons_self).startsPart _)

/-- A defect starts with a colon or with arguments. -/
theorem not_defect_nameChar (hc : isNameChar c = true) : ¬Defect (c :: cs) := by
  intro h
  cases h <;> cases hc

theorem HasDefect.of_name_append (hname : ∀ c ∈ name, isNameChar c = true)
    (h : HasDefect (name ++ cs)) : HasDefect cs := by
  induction name with
  | nil => exact h
  | cons c name ih =>
    rw [List.forall_mem_cons] at hname
    rw [List.cons_append, hasDefect_plain_iff (isNameChar_iff.1 hname.1).2.1] at h
    exact ih hname.2 (h.resolve_left (not_defect_nameChar hname.1))

/-- A colon before a name is no defect. -/
theorem not_defect_colon_name (hname : IsPartName name) : ¬Defect (':' :: (name ++ rest)) := by
  obtain ⟨hne, hchars⟩ := hname
  obtain ⟨c, name, rfl⟩ := List.exists_cons_of_ne_nil hne
  obtain ⟨hcolon, hbracket, -⟩ := isNameChar_iff.1 (hchars c List.mem_cons_self)
  rw [List.cons_append]
  generalize name ++ rest = cs
  intro h
  cases h with
  | nameless hrest => simp [hbracket] at hrest
  | tripled => exact hcolon rfl
  | elementArguments => exact hcolon rfl

theorem dropWhile_name_append (hname : ∀ c ∈ name, isNameChar c = true)
    (hrest : ∀ c ∈ rest.head?, isNameChar c = false) :
    (name ++ rest).dropWhile isNameChar = rest := by
  rw [List.dropWhile_append_of_pos hname]
  cases rest with
  | nil => rfl
  | cons c rest => exact List.dropWhile_cons_of_neg (by simpa using hrest c rfl)

/-- Two colons before a name are no defect, if it is not followed by arguments. -/
theorem not_defect_colons_name (hname : IsPartName name) (hrest : rest = [] ∨ StartsPart rest) :
    ¬Defect (':' :: ':' :: (name ++ rest)) := by
  intro h
  generalize hcs : name ++ rest = cs at h
  cases h with
  | nameless hhead => cases hhead ':' rfl
  | tripled =>
    obtain ⟨c, name, rfl⟩ := List.exists_cons_of_ne_nil hname.ne_nil
    obtain ⟨rfl, -⟩ := List.cons.inj hcs
    cases hname.chars ':' List.mem_cons_self
  | @elementArguments name' rest' hname' =>
    have hdrop : rest = '(' :: rest' := by
      have hends : ∀ c ∈ rest.head?, isNameChar c = false := by
        rcases hrest with rfl | ⟨more, rfl | rfl⟩ <;> simp [isNameChar, isBracket]
      rw [← dropWhile_name_append hname.chars hends, hcs, dropWhile_name_append hname'.chars]
      rintro c ⟨⟩
      rfl
    subst hdrop
    simp [StartsPart] at hrest

theorem not_defect_arguments {args : List Char} (hargs : Balanced args)
    (hrest : rest = [] ∨ StartsPart rest) : ¬Defect ('(' :: (args ++ ')' :: rest)) := by
  intro h
  generalize hcs : args ++ ')' :: rest = cs at h
  cases h with
  | @trailing args' rest' c hargs' hc =>
    obtain ⟨-, -, rfl⟩ := hargs.closer_unique hargs' .round .round hcs
    rw [startsPart_iff] at hrest
    simp [hc] at hrest

/-- The defects of a fragment are those behind its first part, if that one is documented. -/
theorem HasDefect.of_part_append (hpart : DocumentedPart part)
    (hrest : rest = [] ∨ StartsPart rest) (h : HasDefect (part ++ rest)) : HasDefect rest := by
  cases hpart with
  | pseudo hname =>
    rw [List.cons_append, hasDefect_plain_iff rfl] at h
    exact .of_name_append hname.chars (h.resolve_left (not_defect_colon_name hname))
  | element hname =>
    rw [List.cons_append, List.cons_append, hasDefect_plain_iff rfl] at h
    have hafter := h.resolve_left (not_defect_colons_name hname hrest)
    rw [hasDefect_plain_iff rfl] at hafter
    exact .of_name_append hname.chars (hafter.resolve_left (not_defect_colon_name hname))
  | @function name args hname hargs =>
    have hcs : ':' :: (name ++ '(' :: (args ++ [')'])) ++ rest
        = ':' :: (name ++ ('(' :: args ++ ')' :: rest)) := by simp
    rw [hcs, hasDefect_plain_iff rfl] at h
    have hafter := HasDefect.of_name_append hname.chars
      (h.resolve_left (not_defect_colon_name hname))
    rw [hasDefect_pair_iff .round hargs] at hafter
    exact hafter.resolve_left (not_defect_arguments hargs hrest)
  | @attr attr hattr =>
    have hcs : '[' :: (attr ++ [']']) ++ rest = '[' :: attr ++ ']' :: rest := by simp
    rw [hcs, hasDefect_pair_iff .square hattr] at h
    exact h.resolve_left nofun

theorem Documented.not_hasDefect (h : Documented cs) : ¬HasDefect cs := by
  obtain ⟨parts, -, hparts, rfl⟩ := h
  induction parts with
  | nil => exact not_hasDefect_nil
  | cons part parts ih =>
    rw [List.forall_mem_cons] at hparts
    intro hdefect
    exact ih hparts.2 (hdefect.of_part_append hparts.1 (startsPart_flatten hparts.2))

theorem IsPartName.isParts_append (h : IsPartName name) (hrest : IsParts rest) :
    IsParts (name ++ rest) := by
  obtain ⟨-, hchars⟩ := h
  induction name with
  | nil => exact hrest
  | cons c name ih =>
    rw [List.forall_mem_cons] at hchars
    obtain ⟨-, hbracket, hblank⟩ := isNameChar_iff.1 hchars.1
    exact .plain hbracket hblank (ih hchars.2)

/-- A documented part may stand before any parts. -/
theorem DocumentedPart.isParts_append (hpart : DocumentedPart part) (h : IsParts rest)
    (hrest : rest = [] ∨ StartsPart rest) : IsParts (part ++ rest) := by
  cases hpart with
  | pseudo hname => exact .plain rfl rfl (hname.isParts_append h)
  | element hname => exact .plain rfl rfl (.plain rfl rfl (hname.isParts_append h))
  | function hname hargs =>
    simpa using IsParts.plain rfl rfl (hname.isParts_append (.round hargs h))
  | attr hattr => simpa using IsParts.square hattr h hrest

/-- Documented fragments are accepted. -/
theorem Documented.accepted (h : Documented cs) : StartsPart cs ∧ IsParts cs := by
  obtain ⟨parts, hne, hparts, rfl⟩ := h
  constructor
  · obtain ⟨part, parts, rfl⟩ := List.exists_cons_of_ne_nil hne
    exact (hparts part List.mem_cons_self).startsPart _
  · clear hne
    induction parts with
    | nil => exact .nil
    | cons part parts ih =>
      rw [List.forall_mem_cons] at hparts
      exact hparts.1.isParts_append (ih hparts.2) (startsPart_flatten hparts.2)

/-! ### Fragments without defects are documented -/

/-- A colon is followed by another one or by a name. -/
theorem exists_name_of_colon (h : IsParts cs) (hno : ¬HasDefect (':' :: cs))
    (hcolon : cs.head? ≠ some ':') : ∃ name rest, cs = name ++ rest ∧ IsPartName name
      ∧ ((IsParts rest ∧ (rest = [] ∨ StartsPart rest))
        ∨ ∃ args more, rest = '(' :: args ++ ')' :: more ∧ Balanced args ∧ IsParts more) := by
  obtain ⟨name, rest, rfl, hname, hrest, hnext⟩ := exists_name_of_isParts h
  refine ⟨name, rest, rfl, ⟨?_, hname⟩, hnext.imp_left fun hstart => ⟨hrest, hstart⟩⟩
  rintro rfl
  refine hno (Defect.nameless ?_).hasDefect
  rcases hnext with (rfl | ⟨more, rfl | rfl⟩) | ⟨args, more, rfl, -, -⟩
  · simp
  · exact absurd rfl hcolon
  · simp [isBracket]
  · simp [isBracket]

/-- Without a defect the first part is documented. -/
theorem exists_first_part (h : IsParts cs) (hstart : StartsPart cs) (hno : ¬HasDefect cs) :
    ∃ part rest, cs = part ++ rest ∧ DocumentedPart part
      ∧ IsParts rest ∧ (rest = [] ∨ StartsPart rest) := by
  obtain ⟨after, rfl | rfl⟩ := hstart
  · cases h with
    | plain _ _ hafter =>
      by_cases hcolon : after.head? = some ':'
      · obtain ⟨more, rfl⟩ : ∃ more, after = ':' :: more := List.head?_eq_some_iff.1 hcolon
        cases hafter with
        | plain _ _ hmore =>
          have hno' : ¬HasDefect (':' :: more) :=
            fun hdefect => hno (hdefect.append (a := [':']) (.plain rfl .nil))
          have hthird : more.head? ≠ some ':' := by
            intro hhead
            obtain ⟨last, rfl⟩ := List.head?_eq_some_iff.1 hhead
            exact hno Defect.tripled.hasDefect
          obtain ⟨name, rest, rfl, hname, hnext | ⟨args, last, rfl, -, -⟩⟩ :=
            exists_name_of_colon hmore hno' hthird
          · exact ⟨_, rest, rfl, .element hname, hnext⟩
          · exact absurd (Defect.elementArguments hname).hasDefect hno
      · obtain ⟨name, rest, rfl, hname, hnext | ⟨args, last, rfl, hargs, hlast⟩⟩ :=
          exists_name_of_colon hafter hno hcolon
        · exact ⟨_, rest, rfl, .pseudo hname, hnext⟩
        · refine ⟨_, last, by simp, .function hname hargs, hlast, ?_⟩
          cases last with
          | nil => exact Or.inl rfl
          | cons c last =>
            refine Or.inr (startsPart_iff.2 ?_)
            by_contra hc
            have hdefect : HasDefect ('(' :: (args ++ ')' :: c :: last)) :=
              (Defect.trailing hargs (by simpa using hc)).hasDefect
            exact hno (hdefect.append (a := ':' :: name) (.plain rfl hname.balanced))
  · generalize hcs : '[' :: after = cs at h
    cases h with
    | nil => cases hcs
    | plain hc =>
      obtain ⟨rfl, -⟩ := List.cons.inj hcs
      cases hc
    | round => cases hcs
    | @square attr rest hattr hrest hnext => exact ⟨_, rest, by simp, .attr hattr, hrest, hnext⟩

theorem exists_documented_parts (h : IsParts cs) (hstart : cs = [] ∨ StartsPart cs)
    (hno : ¬HasDefect cs) :
    ∃ parts : List (List Char), (∀ part ∈ parts, DocumentedPart part) ∧ cs = parts.flatten := by
  induction hn : cs.length using Nat.strongRecOn generalizing cs with
  | ind n ih =>
    obtain rfl | hstart := hstart
    · exact ⟨[], by simp, rfl⟩
    · obtain ⟨part, rest, rfl, hpart, hrest, hnext⟩ := exists_first_part h hstart hno
      have hshort : rest.length < n := by
        cases hpart <;> simp [← hn] <;> omega
      obtain ⟨parts, hparts, rfl⟩ :=
        ih _ hshort hrest hnext (fun hdefect => hno (hdefect.append hpart.balanced)) rfl
      exact ⟨part :: parts, List.forall_mem_cons.2 ⟨hpart, hparts⟩, rfl⟩

/-- The documented fragments are the accepted ones without a defect. -/
theorem documented_iff : Documented cs ↔ (StartsPart cs ∧ IsParts cs) ∧ ¬HasDefect cs := by
  constructor
  · exact fun h => ⟨h.accepted, h.not_hasDefect⟩
  · rintro ⟨⟨hstart, hparts⟩, hno⟩
    obtain ⟨parts, hdocumented, rfl⟩ := exists_documented_parts hparts (Or.inr hstart) hno
    refine ⟨parts, ?_, hdocumented, rfl⟩
    rintro rfl
    simp [StartsPart] at hstart

end Fragment

/-! ## Fragments of keys -/

/-- The fragment of a selector, a style or a global selector. -/
def Key.fragment? : Key → Option String
  | .mediaQuery _ => none
  | .fragment text => some text
  | .style _ text => some text
  | .global _ text => some text

theorem Key.Reads.fragmentText {key fragment : String} {k : Key} (h : Key.Reads key k)
    (hfragment : k.fragment? = some fragment) (hne : fragment ≠ "") : Key.FragmentText fragment := by
  cases h with
  | mediaQuery => cases hfragment
  | fragment htext => cases hfragment; exact htext
  | style _ _ _ htext => cases hfragment; exact htext.resolve_left hne
  | standalone htext => cases hfragment; exact htext.resolve_left hne
  | literal => cases hfragment; exact absurd rfl hne
  | global _ _ _ _ htext => cases hfragment; exact htext.resolve_left hne

/-- Documented fragments are keys. -/
theorem classify_of_documented {text : String} (h : Fragment.Documented text.toList) :
    classify text = .ok (.fragment text) :=
  ((classify_iff_reads text).1 _).2 (.fragment h.accepted)

/-- A fragment of a key that is accepted is in the documented grammar if and only if it has none of
the defects at its outermost level. -/
theorem fragment_documented_iff {key fragment : String} {k : Key} (hkey : classify key = .ok k)
    (hfragment : k.fragment? = some fragment) (hne : fragment ≠ "") :
    Fragment.Documented fragment.toList ↔ ¬Fragment.HasDefect fragment.toList := by
  have haccepted := (((classify_iff_reads key).1 k).1 hkey).fragmentText hfragment hne
  rw [Fragment.documented_iff]
  exact and_iff_right haccepted

/-- Two documented parts: no defect is found in them. -/
theorem fragment_documented_iff_notHover :
    classify "a:not(.b):hover" = .ok (.style "a" ":not(.b):hover")
      ∧ ¬Fragment.HasDefect ":not(.b):hover".toList := by
  have hkey : classify "a:not(.b):hover" = .ok (.style "a" ":not(.b):hover") := by decide
  have hnot : Fragment.IsPartName ['n', 'o', 't'] :=
    ⟨List.cons_ne_nil _ _, List.all_eq_true.1 rfl⟩
  have hhover : Fragment.IsPartName ['h', 'o', 'v', 'e', 'r'] :=
    ⟨List.cons_ne_nil _ _, List.all_eq_true.1 rfl⟩
  have hargs : Balanced ['.', 'b'] := .plain rfl (.plain rfl .nil)
  have hdocumented : Fragment.Documented ":not(.b):hover".toList := by
    refine ⟨[[':', 'n', 'o', 't', '(', '.', 'b', ')'], [':', 'h', 'o', 'v', 'e', 'r']],
      List.cons_ne_nil _ _, ?_, rfl⟩
    exact List.forall_mem_cons.2 ⟨.function hnot hargs, List.forall_mem_singleton.2 (.pseudo hhover)⟩
  exact ⟨hkey, (fragment_documented_iff hkey rfl (by decide)).1 hdocumented⟩

/-- A text behind arguments is accepted, but is in no documented part. -/
theorem fragment_not_documented : ¬∀ (key fragment : String) (k : Key), classify key = .ok k →
    k.fragment? = some fragment → fragment ≠ "" → Fragment.Documented fragment.toList := by
  intro h
  have hdocumented := h "foo:not(.a)b" ":not(.a)b" (.style "foo" ":not(.a)b") (by decide) rfl
    (by decide)
  have hbefore : Balanced [':', 'n', 'o', 't'] := .of_plain (by simp [isBracket])
  have hargs : Balanced ['.', 'a'] := .plain rfl (.plain rfl .nil)
  have hdefect : Fragment.Defect ['(', '.', 'a', ')', 'b'] := .trailing hargs rfl
  exact hdocumented.not_hasDefect (hdefect.hasDefect.append hbefore)

end NestedStyles
