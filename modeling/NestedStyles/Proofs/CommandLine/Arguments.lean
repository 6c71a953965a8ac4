import NestedStyles.CommandLine.Arguments
import NestedStyles.Proofs.Result
/-!
# Flags and inputs

Flags and inputs stand in any order, and an input changes nothing but the list of inputs. So the
flags of a run can be given without its inputs, or with a single one of them.

* `flagArguments` are the arguments that are flags or values of flags;
* `parseFrom_flagArguments`: read before other inputs, they ask for the same;
* `parse_single`: with one of the inputs, that is what is asked for of this input alone;
* `parse_eq_help_iff`: when help is asked for.
-/
namespace NestedStyles.CommandLine.Arguments

/-- Whether the value of a flag is the next argument. -/
def takesNext (argument : String) : Bool :=
  match flags.lookup (splitFlag argument).1, (splitFlag argument).2 with
  | some (.setting _), none => true
  | _, _ => false

/-- The arguments that are flags or values of flags; the first one is a value if it is to be. -/
def flagArgumentsFrom : Bool → List String → List String
  | _, [] => []
  | true, v :: rest => v :: flagArgumentsFrom false rest
  | false, "--" :: _ => []
  | false, argument :: rest =>
    if looksLikeFlag argument then argument :: flagArgumentsFrom (takesNext argument) rest
    else flagArgumentsFrom false rest

/-- The arguments that are flags or values of flags. -/
def flagArguments (args : List String) : List String := flagArgumentsFrom false args

def withInputs (a : Arguments) (inputs : List String) : Arguments := { a with inputs }

variable {a b : Arguments} {name v : String} {argument : String} {args rest : List String}

/-! ## One argument -/

theorem turnOn_withInputs {s : Switch} (h : a.turnOn name s = .ok b) :
    b.inputs = a.inputs ∧ ∀ js, (a.withInputs js).turnOn name s = .ok (b.withInputs js) := by
  unfold turnOn at h ⊢
  cases s
  all_goals
    simp only at h ⊢
    split at h
    · cases h
    · rename_i hoff
      cases h
      exact ⟨rfl, fun js => if_neg hoff⟩

theorem set_withInputs {s : Setting} (h : a.set name s v = .ok b) :
    b.inputs = a.inputs ∧ ∀ js, (a.withInputs js).set name s v = .ok (b.withInputs js) := by
  unfold set at h
  split at h
  · cases h
  rename_i hfree
  split at h
  · cases h
  rename_i hpath
  cases h
  refine ⟨by cases s <;> rfl, fun js => ?_⟩
  unfold set
  cases s <;> exact (if_neg hfree).trans (if_neg hpath)

section Flag

variable (hdash : argument ≠ "--") (hflag : looksLikeFlag argument = true)
include hdash hflag

theorem parseFrom_switch {s : Switch} (hsplit : splitFlag argument = (name, none))
    (hlookup : flags.lookup name = some (.switch s)) (hon : a.turnOn name s = .ok b)
    (rest : List String) : parseFrom a (argument :: rest) = parseFrom b rest := by
  rw [parseFrom]
  · simp only [hflag, hsplit, hlookup, hon, if_true]
  · exact hdash

theorem parseFrom_attached {s : Setting} (hsplit : splitFlag argument = (name, some v))
    (hlookup : flags.lookup name = some (.setting s)) (hset : a.set name s v = .ok b)
    (rest : List String) : parseFrom a (argument :: rest) = parseFrom b rest := by
  rw [parseFrom]
  · simp only [hflag, hsplit, hlookup, hset, if_true]
  · exact hdash

theorem parseFrom_separate {s : Setting} (hsplit : splitFlag argument = (name, none))
    (hlookup : flags.lookup name = some (.setting s)) (hvalue : ¬looksLikeFlag v = true)
    (hset : a.set name s v = .ok b) (rest : List String) :
    parseFrom a (argument :: v :: rest) = parseFrom b rest := by
  rw [parseFrom]
  · simp only [hflag, hsplit, hlookup, hset, hvalue, if_true, if_false, Bool.false_eq_true]
  · exact hdash

theorem flagArguments_alone (hnext : takesNext argument = false) (rest : List String) :
    flagArguments (argument :: rest) = argument :: flagArguments rest := by
  unfold flagArguments
  rw [flagArgumentsFrom]
  · rw [if_pos hflag, hnext]
  · exact hdash

theorem flagArguments_separate (hnext : takesNext argument = true) (rest : List String) :
    flagArguments (argument :: v :: rest) = argument :: v :: flagArguments rest := by
  unfold flagArguments
  rw [flagArgumentsFrom]
  · rw [if_pos hflag, hnext, flagArgumentsFrom]
  · exact hdash

end Flag

theorem parseFrom_input (hdash : argument ≠ "--") (hflag : ¬looksLikeFlag argument = true)
    (hadd : a.addInput argument = .ok b) (rest : List String) :
    parseFrom a (argument :: rest) = parseFrom b rest := by
  rw [parseFrom]
  · simp only [hflag, hadd, if_false, Bool.false_eq_true]
  · exact hdash

theorem flagArguments_input (hdash : argument ≠ "--") (hflag : ¬looksLikeFlag argument = true)
    (rest : List String) : flagArguments (argument :: rest) = flagArguments rest := by
  unfold flagArguments
  rw [flagArgumentsFrom]
  · rw [if_neg hflag]
  · exact hdash

theorem eq_of_addInput (h : a.addInput argument = .ok b) :
    argument ≠ "" ∧ b = a.withInputs (a.inputs ++ [argument]) := by
  unfold addInput at h
  split at h <;> cases h
  exact ⟨‹_›, rfl⟩

theorem addInput_withInputs (h : argument ≠ "") (js : List String) :
    (a.withInputs js).addInput argument = .ok (a.withInputs (js ++ [argument])) := if_neg h

theorem mem_or_ne_empty {js : List String} {i : String} (hpath : argument ≠ "")
    (h : i ∈ js ++ [argument] ∨ i ≠ "") : i ∈ js ∨ i ≠ "" := by
  rcases h with hi | hi
  · rcases List.mem_append.1 hi with hi | hi
    · exact Or.inl hi
    · cases List.mem_singleton.1 hi
      exact Or.inr hpath
  · exact Or.inr hi

/-! ## All arguments -/

theorem withInputs_of_foldlM_addInput (h : args.foldlM addInput a = .ok b) (js : List String) :
    b.withInputs js = a.withInputs js ∧ ∀ i ∈ b.inputs, i ∈ a.inputs ∨ i ≠ "" := by
  induction args generalizing a with
  | nil =>
    cases h
    exact ⟨rfl, fun i => Or.inl⟩
  | cons argument args ih =>
    rw [List.foldlM_cons] at h
    obtain ⟨a', hadd, h⟩ := bind_eq_ok.1 h
    obtain ⟨hpath, rfl⟩ := eq_of_addInput hadd
    obtain ⟨hsame, hinputs⟩ := ih h
    exact ⟨hsame, fun i hi => mem_or_ne_empty hpath (hinputs i hi)⟩

/-- The flags of a list of arguments, read before other inputs, ask for the same; and the inputs
that the list adds are no empty paths. -/
theorem parseFrom_flagArguments (h : parseFrom a args = .ok b) :
    (∀ js more, parseFrom (a.withInputs js) (flagArguments args ++ "--" :: more)
      = more.foldlM addInput (b.withInputs js)) ∧ ∀ i ∈ b.inputs, i ∈ a.inputs ∨ i ≠ "" := by
  fun_induction parseFrom a args with
  | case1 a =>
    cases h
    exact ⟨fun js more => rfl, fun i => Or.inl⟩
  | case2 a rest =>
    refine ⟨fun js more => ?_, (withInputs_of_foldlM_addInput h []).2⟩
    rw [(withInputs_of_foldlM_addInput h js).1]
    rfl
  | case7 a argument hdash hflag name s rest hlookup a' hon hsplit ih =>
    obtain ⟨hsame, hon⟩ := turnOn_withInputs hon
    have hnext : takesNext argument = false := by simp only [takesNext, hsplit, hlookup]
    refine ⟨fun js more => ?_, hsame ▸ (ih h).2⟩
    rw [flagArguments_alone hdash hflag hnext, List.cons_append,
      parseFrom_switch hdash hflag hsplit hlookup (hon js), (ih h).1]
  | case9 a argument hdash hflag name s v rest hlookup a' hset hsplit ih =>
    obtain ⟨hsame, hset⟩ := set_withInputs hset
    have hnext : takesNext argument = false := by simp only [takesNext, hsplit, hlookup]
    refine ⟨fun js more => ?_, hsame ▸ (ih h).2⟩
    rw [flagArguments_alone hdash hflag hnext, List.cons_append,
      parseFrom_attached hdash hflag hsplit hlookup (hset js), (ih h).1]
  | case13 a argument hdash hflag name s v rest hlookup hvalue a' hset hsplit ih =>
    obtain ⟨hsame, hset⟩ := set_withInputs hset
    have hnext : takesNext argument = true := by simp only [takesNext, hsplit, hlookup]
    refine ⟨fun js more => ?_, hsame ▸ (ih h).2⟩
    rw [flagArguments_separate hdash hflag hnext, List.cons_append, List.cons_append,
      parseFrom_separate hdash hflag hsplit hlookup hvalue (hset js), (ih h).1]
  | case15 a argument rest hdash hflag a' hadd ih =>
    obtain ⟨hpath, rfl⟩ := eq_of_addInput hadd
    refine ⟨fun js more => ?_, fun i hi => mem_or_ne_empty hpath ((ih h).2 i hi)⟩
    rw [flagArguments_input hdash hflag]
    exact (ih h).1 js more
  | _ => cases h

theorem parse_eq_ok (h : parse args = .ok a) : parseFrom {} args = .ok a ∧ a.inputs ≠ [] := by
  unfold parse at h
  obtain ⟨b, hfrom, h⟩ := bind_eq_ok.1 h
  split at h
  · cases h
  · rename_i hinputs
    cases h
    exact ⟨hfrom, fun he => hinputs (List.isEmpty_iff.2 he)⟩

/-- The flags with a single one of the inputs ask for the same of this input. -/
theorem parse_single (h : parse args = .ok a) {input : String} (hi : input ∈ a.inputs) :
    parse (flagArguments args ++ ["--", input]) = .ok (a.withInputs [input]) := by
  obtain ⟨hfrom, -⟩ := parse_eq_ok h
  obtain ⟨hflags, hinputs⟩ := parseFrom_flagArguments hfrom
  have hpath : input ≠ "" := (hinputs input hi).resolve_left List.not_mem_nil
  have hsingle : parseFrom {} (flagArguments args ++ ["--", input])
      = .ok (a.withInputs [input]) := by
    refine (hflags [] [input]).trans ?_
    rw [List.foldlM_cons, addInput_withInputs hpath]
    rfl
  unfold parse
  rw [hsingle]
  rfl

example : flagArguments ["a.json", "-c", "x.json", "--minify", "b.json", "--", "--root"]
    = ["-c", "x.json", "--minify"] := by
  decide +kernel

/-! ## Help -/

/-- An argument that asks for help: the long flag, or the short one with anything after it. -/
def AsksHelp (argument : String) : Prop :=
  argument = "--help" ∨ ∃ more, argument.toList = '-' :: 'h' :: more

/-- A flag for help stands before the end of the flags, and what stands before it is in order. -/
def HelpIn (a : Arguments) (args : List String) : Prop :=
  ∃ before flag after, args = before ++ flag :: after ∧ "--" ∉ before ∧ AsksHelp flag ∧
    ∃ b, parseFrom a before = .ok b

theorem HelpIn.head (h : AsksHelp argument) : HelpIn a (argument :: rest) :=
  ⟨[], argument, rest, rfl, List.not_mem_nil, h, a, rfl⟩

theorem HelpIn.append (taken : List String)
    (hread : ∀ rest, parseFrom a (taken ++ rest) = parseFrom b rest) (hend : "--" ∉ taken)
    (h : HelpIn b rest) : HelpIn a (taken ++ rest) := by
  obtain ⟨before, flag, after, rfl, hbefore, hflag, c, hc⟩ := h
  refine ⟨taken ++ before, flag, after, (List.append_assoc ..).symm, ?_, hflag, c, ?_⟩
  · exact fun h => (List.mem_append.1 h).elim hend hbefore
  · rw [hread, hc]

theorem HelpIn.cons (hread : ∀ rest, parseFrom a (argument :: rest) = parseFrom b rest)
    (hdash : argument ≠ "--") (h : HelpIn b rest) : HelpIn a (argument :: rest) :=
  .append [argument] hread (fun h => hdash (List.mem_singleton.1 h).symm) h

theorem eq_of_splitFlag (h : splitFlag argument = (name, none)) : argument = name := by
  unfold splitFlag at h
  split at h
  · rename_i rest hargument
    split at h
    · cases h
    · rename_i hrest
      cases h
      rw [← List.takeWhile_append_dropWhile (l := rest), hrest, List.append_nil] at hargument
      exact String.toList_inj.1 (hargument.trans String.toList_ofList.symm)
  · rename_i letter rest _ hargument
    split at h <;> cases h
    exact String.toList_inj.1 (hargument.trans String.toList_ofList.symm)
  · cases h
    rfl

/-- A flag of one letter with something after the letter. -/
theorem toList_of_splitFlag {c : Char} (hc : c ≠ '-')
    (h : splitFlag argument = (.ofList ['-', c], some v)) :
    ∃ more, argument.toList = '-' :: c :: more := by
  have hname : (splitFlag argument).1.toList = ['-', c] := by rw [h, String.toList_ofList]
  unfold splitFlag at hname
  split at hname
  · split at hname <;> simp [hc.symm] at hname
  · rename_i letter rest _ hargument
    refine ⟨rest, ?_⟩
    split at hname <;> simp_all
  · rename_i _ hletter
    exact absurd hname (hletter c [])

theorem mem_flags_of_lookup {flag : Flag} (h : flags.lookup name = some flag) :
    (name, flag) ∈ flags := by
  obtain ⟨before, after, hflags, -⟩ := List.lookup_eq_some_iff.1 h
  exact hflags ▸ List.mem_append_right before List.mem_cons_self

theorem asksHelp_of_lookup (h : flags.lookup name = some .help) {attached : Option String}
    (hsplit : splitFlag argument = (name, attached)) (hattached : attached = none ∨ name = "-h") :
    AsksHelp argument := by
  have hname : name = "--help" ∨ name = "-h" := by simpa [flags] using mem_flags_of_lookup h
  cases attached with
  | none =>
    cases eq_of_splitFlag hsplit
    rcases hname with rfl | rfl
    · exact Or.inl rfl
    · exact Or.inr ⟨[], rfl⟩
  | some v =>
    cases hattached.resolve_left (Option.some_ne_none v)
    exact Or.inr (toList_of_splitFlag (by decide) hsplit)

theorem splitFlag_help {more : List Char} (h : argument.toList = '-' :: 'h' :: more) :
    (splitFlag argument).1 = "-h" := by
  unfold splitFlag
  split
  · rename_i hargument
    simp [h] at hargument
  · rename_i letter rest _ hargument
    obtain ⟨rfl, rfl⟩ : 'h' = letter ∧ more = rest := by simpa [h] using hargument
    split <;> rfl
  · rename_i _ hletter
    exact absurd h (hletter 'h' more)

theorem parseFrom_help (h : AsksHelp argument) (rest : List String) :
    parseFrom a (argument :: rest) = .error .help := by
  rcases h with rfl | ⟨more, h⟩
  · rfl
  have hflag : looksLikeFlag argument = true := by
    refine Bool.and_eq_true_iff.2 ⟨by simp only [h, List.head?_cons, decide_true], ?_⟩
    refine decide_eq_true fun hyphen => ?_
    rw [hyphen] at h
    cases h
  have hlookup : flags.lookup "-h" = some .help := by decide
  rw [parseFrom]
  · simp only [hflag, splitFlag_help h, hlookup, if_true]
    split <;> simp_all
  · rintro rfl
    cases h

/-- Arguments that stop before an end of the flags leave what follows them to be read. -/
theorem parseFrom_append (h : parseFrom a args = .ok b) (hend : "--" ∉ args) (rest : List String) :
    parseFrom a (args ++ rest) = parseFrom b rest := by
  fun_induction parseFrom a args with
  | case1 a =>
    cases h
    rfl
  | case2 a rest => exact absurd List.mem_cons_self hend
  | case7 a argument hdash hflag name s args hlookup a' hon hsplit ih =>
    rw [List.cons_append, parseFrom_switch hdash hflag hsplit hlookup hon]
    exact ih h (List.not_mem_of_not_mem_cons hend)
  | case9 a argument hdash hflag name s v args hlookup a' hset hsplit ih =>
    rw [List.cons_append, parseFrom_attached hdash hflag hsplit hlookup hset]
    exact ih h (List.not_mem_of_not_mem_cons hend)
  | case13 a argument hdash hflag name s v args hlookup hvalue a' hset hsplit ih =>
    rw [List.cons_append, List.cons_append,
      parseFrom_separate hdash hflag hsplit hlookup hvalue hset]
    exact ih h (List.not_mem_of_not_mem_cons (List.not_mem_of_not_mem_cons hend))
  | case15 a argument args hdash hflag a' hadd ih =>
    rw [List.cons_append, parseFrom_input hdash hflag hadd]
    exact ih h (List.not_mem_of_not_mem_cons hend)
  | _ => cases h

theorem turnOn_ne_help {s : Switch} : a.turnOn name s ≠ .error .help := by
  intro h
  unfold turnOn at h
  cases s
  all_goals
    simp only at h
    split at h <;> cases h

theorem set_ne_help {s : Setting} : a.set name s v ≠ .error .help := by
  intro h
  unfold set at h
  split at h
  · cases h
  · split at h <;> cases h

theorem addInput_ne_help : a.addInput argument ≠ .error .help := by
  unfold addInput
  split <;> simp

theorem foldlM_addInput_ne_help : args.foldlM addInput a ≠ .error .help := by
  induction args generalizing a with
  | nil => exact nofun
  | cons argument args ih =>
    rw [List.foldlM_cons]
    intro h
    rcases bind_eq_error.1 h with h | ⟨a', -, h⟩
    · exact addInput_ne_help h
    · exact ih h

theorem helpIn_of_parseFrom (h : parseFrom a args = .error .help) : HelpIn a args := by
  -- no error but that of a flag for help asks for help
  fun_induction parseFrom a args with
  | case1 a => cases h
  | case2 a rest => exact absurd h foldlM_addInput_ne_help
  | case4 a argument rest hdash hflag name v hlookup hsplit =>
    split at h
    · rename_i hshort
      exact .head (asksHelp_of_lookup hlookup hsplit (Or.inr hshort))
    · cases h
  | case5 a argument rest hdash hflag name hlookup hsplit =>
    exact .head (asksHelp_of_lookup hlookup hsplit (Or.inl rfl))
  | case7 a argument hdash hflag name s rest hlookup a' hon hsplit ih =>
    exact .cons (parseFrom_switch hdash hflag hsplit hlookup hon) hdash (ih h)
  | case9 a argument hdash hflag name s v rest hlookup a' hset hsplit ih =>
    exact .cons (parseFrom_attached hdash hflag hsplit hlookup hset) hdash (ih h)
  | case13 a argument hdash hflag name s v rest hlookup hvalue a' hset hsplit ih =>
    refine .append [argument, v]
      (parseFrom_separate hdash hflag hsplit hlookup hvalue hset) ?_ (ih h)
    rintro (_ | ⟨_, _ | ⟨_, h⟩⟩)
    · exact hdash rfl
    · exact hvalue rfl
    · cases h
  | case15 a argument rest hdash hflag a' hadd ih =>
    exact .cons (parseFrom_input hdash hflag hadd) hdash (ih h)
  | case8 a argument hdash hflag name s rest hlookup e hon hsplit =>
    cases h
    exact absurd hon turnOn_ne_help
  | case10 a argument hdash hflag name s v rest hlookup e hset hsplit =>
    cases h
    exact absurd hset set_ne_help
  | case14 a argument hdash hflag name s v rest hlookup hvalue e hset hsplit =>
    cases h
    exact absurd hset set_ne_help
  | case16 a argument rest hdash hflag e hadd =>
    cases h
    exact absurd hadd addInput_ne_help
  | _ => cases h

/-- Help is what a list of arguments asks for if a flag for it stands after arguments that are in
order. Nothing else asks for it. -/
theorem parse_eq_help_iff : parse args = .error .help ↔ HelpIn {} args := by
  constructor
  · intro h
    rcases bind_eq_error.1 h with h | ⟨a, -, h⟩
    · exact helpIn_of_parseFrom h
    · split at h <;> cases h
  · rintro ⟨before, flag, after, rfl, hend, hflag, a, ha⟩
    refine bind_eq_error.2 (Or.inl ?_)
    rw [parseFrom_append ha hend, parseFrom_help hflag]

example : parse ["a.json", "--minify", "-hurry", "--minify"] = .error .help := rfl

end NestedStyles.CommandLine.Arguments
