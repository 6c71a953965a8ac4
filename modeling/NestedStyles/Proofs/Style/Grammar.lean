import NestedStyles.Proofs.Style.Key
import NestedStyles.Style.Normalize
/-!
# The language of keys

A key is read in one pass: a fragment is judged by the brackets that are open and by whether an
attribute has just ended. What this accepts can be said without a pass over the characters.

* `Balanced` texts are those in which round and square brackets match, and `IsParts` the runs of
  characters that are no brackets and no blanks, of balanced texts in round brackets, and of
  balanced texts in square brackets, after which another part starts or nothing comes;
* `exists_of_scan_due`: what is due is found behind a balanced text, and `scan_balanced`: only
  there; `isValid_iff`: a fragment is valid if and only if it is such a run;
* `Key.Reads` is the language of keys, with what each of them stands for;
* `classify_iff_reads`: a key is classified as what it stands for in this language, and is refused
  if it is none of it.
-/
namespace NestedStyles

open Text (isBlank)

/-! ## Brackets -/

/-- The pairs of brackets. -/
inductive IsPair : Char → Char → Prop
  | round : IsPair '(' ')'
  | square : IsPair '[' ']'

/-- The characters that open or close a pair. -/
def isBracket (c : Char) : Bool := c = '(' || c = ')' || c = '[' || c = ']'

/-- A text in which every bracket matches another one. -/
inductive Balanced : List Char → Prop
  | nil : Balanced []
  | plain {c : Char} {cs : List Char} (hc : isBracket c = false) (hcs : Balanced cs) :
    Balanced (c :: cs)
  | pair {opener closer : Char} {inner cs : List Char} (hpair : IsPair opener closer)
    (hinner : Balanced inner) (hcs : Balanced cs) : Balanced (opener :: inner ++ closer :: cs)

/-- A part of a fragment starts here. -/
def StartsPart (cs : List Char) : Prop := ∃ rest, cs = ':' :: rest ∨ cs = '[' :: rest

/-- A run of characters that are neither brackets nor blanks, of texts in round brackets, and of
texts in square brackets, after which another part starts or nothing comes. -/
inductive IsParts : List Char → Prop
  | nil : IsParts []
  | plain {c : Char} {cs : List Char} (hc : isBracket c = false) (hblank : isBlank c = false)
    (hcs : IsParts cs) : IsParts (c :: cs)
  | round {inner cs : List Char} (hinner : Balanced inner) (hcs : IsParts cs) :
    IsParts ('(' :: inner ++ ')' :: cs)
  | square {inner cs : List Char} (hinner : Balanced inner) (hcs : IsParts cs)
    (hnext : cs = [] ∨ StartsPart cs) : IsParts ('[' :: inner ++ ']' :: cs)

theorem bracket_cases (c : Char) :
    (∃ closer, IsPair c closer) ∨ (∃ opener, IsPair opener c) ∨ isBracket c = false := by
  by_cases h1 : c = '('
  · exact Or.inl ⟨')', h1 ▸ .round⟩
  by_cases h2 : c = '['
  · exact Or.inl ⟨']', h2 ▸ .square⟩
  by_cases h3 : c = ')'
  · exact Or.inr (Or.inl ⟨'(', h3 ▸ .round⟩)
  by_cases h4 : c = ']'
  · exact Or.inr (Or.inl ⟨'[', h4 ▸ .square⟩)
  · simp [isBracket, h1, h2, h3, h4]

theorem startsPart_iff {cs : List Char} : StartsPart cs ↔ cs.head?.any startsFragment = true := by
  cases cs with
  | nil => simp [StartsPart]
  | cons c cs => simp [StartsPart, startsFragment, exists_or]

/-! ## Steps of the scan -/

namespace Fragment

variable {opener closer c : Char} {due cs : List Char} {afterAttribute : Bool}

/-- Whether a character may follow: after an attribute at the outermost level only a start of
another part may. -/
def mayFollow (due : List Char) (afterAttribute : Bool) (c : Char) : Bool :=
  !(afterAttribute && due.isEmpty && !startsFragment c)

theorem scan_opener (h : IsPair opener closer) : scan due afterAttribute (opener :: cs)
    = (mayFollow due afterAttribute opener && scan (closer :: due) false cs) := by
  rw [scan_cons]
  cases h <;> cases due <;> simp [mayFollow]

theorem scan_closer (h : IsPair opener closer) : scan (c :: due) afterAttribute (closer :: cs)
    = (decide (c = closer) && scan due (closer = ']' && due.isEmpty) cs) := by
  rw [scan_cons]
  cases h <;> simp

theorem scan_closer_nil (h : IsPair opener closer) :
    scan [] afterAttribute (closer :: cs) = false := by
  rw [scan_cons]
  cases h <;> simp

theorem scan_plain (h : isBracket c = false) : scan due afterAttribute (c :: cs)
    = (mayFollow due afterAttribute c && !(isBlank c && due.isEmpty) && scan due false cs) := by
  simp only [isBracket, Bool.or_eq_false_iff, decide_eq_false_iff_not] at h
  rw [scan_cons]
  cases due <;> simp [mayFollow, h, Bool.and_assoc]

/-! ## What a scan accepts -/

/-- A closing bracket that is due is found behind a balanced text, and the scan goes on after it. -/
theorem exists_of_scan_due {closer : Char} {due cs : List Char} {afterAttribute : Bool}
    (h : scan (closer :: due) afterAttribute cs = true) : ∃ inner rest,
      cs = inner ++ closer :: rest ∧ Balanced inner
        ∧ scan due (closer = ']' && due.isEmpty) rest = true := by
  induction hn : cs.length using Nat.strongRecOn generalizing closer due afterAttribute cs with
  | ind n ih =>
    cases cs with
    | nil => cases h
    | cons c cs =>
      have hcs : cs.length < n := by simp [← hn]
      rcases bracket_cases c with ⟨inside, hpair⟩ | ⟨opener, hpair⟩ | hplain
      · -- the text in the brackets that open here, and then the text up to the closer
        rw [scan_opener hpair, Bool.and_eq_true] at h
        obtain ⟨first, more, rfl, hfirst, hmore⟩ := ih _ hcs h.2 rfl
        have hlen : more.length < n := by
          simp only [List.length_append, List.length_cons] at hcs
          omega
        obtain ⟨second, rest, rfl, hsecond, hrest⟩ := ih _ hlen hmore rfl
        exact ⟨c :: first ++ inside :: second, rest, by simp, .pair hpair hfirst hsecond, hrest⟩
      · rw [scan_closer hpair, Bool.and_eq_true, decide_eq_true_eq] at h
        obtain ⟨rfl, hrest⟩ := h
        exact ⟨[], cs, rfl, .nil, hrest⟩
      · rw [scan_plain hplain, Bool.and_eq_true] at h
        obtain ⟨inner, rest, rfl, hinner, hrest⟩ := ih _ hcs h.2 rfl
        exact ⟨c :: inner, rest, rfl, .plain hplain hinner, hrest⟩

theorem mayFollow_of_due (closer : Char) (due : List Char) (afterAttribute : Bool) (c : Char) :
    mayFollow (closer :: due) afterAttribute c = true := by
  simp [mayFollow]

/-- A balanced text is scanned up to the closing bracket that is due. -/
theorem scan_balanced {inner : List Char} (h : Balanced inner) {opener closer : Char}
    (hpair : IsPair opener closer) (due : List Char) (afterAttribute : Bool) (rest : List Char) :
    scan (closer :: due) afterAttribute (inner ++ closer :: rest)
      = scan due (closer = ']' && due.isEmpty) rest := by
  induction h generalizing opener closer due afterAttribute rest with
  | nil => rw [List.nil_append, scan_closer hpair, decide_eq_true rfl, Bool.true_and]
  | plain hc hcs ih =>
    rw [List.cons_append, scan_plain hc, mayFollow_of_due, ih hpair]
    simp
  | pair hinside hinner hcs ih ih' =>
    rw [List.cons_append, List.cons_append, List.append_assoc, List.cons_append,
      scan_opener hinside, mayFollow_of_due, ih hinside, ih' hpair, Bool.true_and]

/-- A text in brackets is scanned as a whole. -/
theorem scan_pair {opener closer : Char} (hpair : IsPair opener closer) {inner : List Char}
    (h : Balanced inner) (afterAttribute : Bool) (rest : List Char) :
    scan [] afterAttribute (opener :: inner ++ closer :: rest)
      = (mayFollow [] afterAttribute opener && scan [] (closer = ']') rest) := by
  rw [List.cons_append, scan_opener hpair, scan_balanced h hpair, List.isEmpty_nil, Bool.and_true]

theorem mayFollow_nil_iff {afterAttribute : Bool} {c : Char} {cs : List Char} :
    mayFollow [] afterAttribute c = true
      ↔ (afterAttribute = true → c :: cs = [] ∨ StartsPart (c :: cs)) := by
  cases afterAttribute <;> simp [mayFollow, startsPart_iff]

/-- The scan accepts runs of parts, and after an attribute only those that start with a part. -/
theorem scan_nil_iff {afterAttribute : Bool} {cs : List Char} : scan [] afterAttribute cs = true
    ↔ IsParts cs ∧ (afterAttribute = true → cs = [] ∨ StartsPart cs) := by
  constructor
  · intro h
    induction hn : cs.length using Nat.strongRecOn generalizing afterAttribute cs with
    | ind n ih =>
      cases cs with
      | nil => exact ⟨.nil, fun _ => Or.inl rfl⟩
      | cons c cs =>
        have hcs : cs.length < n := by simp [← hn]
        rcases bracket_cases c with ⟨closer, hpair⟩ | ⟨opener, hpair⟩ | hplain
        · rw [scan_opener hpair, Bool.and_eq_true, mayFollow_nil_iff] at h
          refine ⟨?_, h.1⟩
          obtain ⟨inner, rest, rfl, hinner, hrest⟩ := exists_of_scan_due h.2
          have hlen : rest.length < n := by
            simp only [List.length_append, List.length_cons] at hcs
            omega
          obtain ⟨hparts, hnext⟩ := ih _ hlen hrest rfl
          cases hpair with
          | round => exact .round hinner hparts
          | square => exact .square hinner hparts (hnext rfl)
        · rw [scan_closer_nil hpair] at h
          cases h
        · rw [scan_plain hplain, Bool.and_eq_true, Bool.and_eq_true, mayFollow_nil_iff] at h
          obtain ⟨⟨hmay, hblank⟩, hrest⟩ := h
          exact ⟨.plain hplain (by simpa using hblank) (ih _ hcs hrest rfl).1, hmay⟩
  · rintro ⟨hparts, hstart⟩
    induction hparts generalizing afterAttribute with
    | nil => rfl
    | plain hc hblank hcs ih =>
      rw [scan_plain hc, hblank, mayFollow_nil_iff.2 hstart, @ih false nofun]
      rfl
    | round hinner hcs ih =>
      rw [scan_pair .round hinner, mayFollow_nil_iff.2 hstart, Bool.true_and]
      exact ih nofun
    | square hinner hcs hnext ih =>
      rw [scan_pair .square hinner, mayFollow_nil_iff.2 hstart, Bool.true_and]
      exact ih fun _ => hnext

theorem isValid_iff {cs : List Char} : isValid cs = true ↔ IsParts cs := by
  rw [isValid, scan_nil_iff]
  simp

end Fragment

/-! ## Keys -/

/-- A name ends where the first part of a fragment starts. -/
theorem splitFragment_append {base rest : List Char} (hbase : ∀ c ∈ base, c ≠ ':' ∧ c ≠ '[')
    (hrest : rest = [] ∨ StartsPart rest) : splitFragment (base ++ rest) = (base, rest) := by
  have hkeep : ∀ c ∈ base, (!startsFragment c) = true := by
    intro c hc
    simpa [startsFragment] using hbase c hc
  rw [splitFragment_eq, List.takeWhile_append_of_pos hkeep, List.dropWhile_append_of_pos hkeep]
  rcases hrest with rfl | ⟨more, rfl | rfl⟩ <;> simp [startsFragment]

namespace Key

/-- The text starts a part of a fragment, and is a run of parts. -/
def FragmentText (text : String) : Prop := StartsPart text.toList ∧ IsParts text.toList

/-- What may stand behind a name: nothing, or a fragment. -/
def Tail (text : String) : Prop := text = "" ∨ FragmentText text

/-- Behind a `$` and blanks stands neither nothing nor a fragment. -/
def HasOwnText (text : String) : Prop :=
  Text.trimStart text ≠ "" ∧ ¬StartsPart (Text.trimStart text).toList

/-- The language of keys, and what they stand for. -/
inductive Reads : String → Key → Prop
  /-- `@` and a text that is not blank. -/
  | mediaQuery {query : String} (hquery : ∃ c ∈ query.toList, isBlank c = false) :
    Reads ("@" ++ query) (.mediaQuery query)
  /-- A fragment and nothing before it. -/
  | fragment {text : String} (htext : FragmentText text) : Reads text (.fragment text)
  /-- A name without blanks, and perhaps a fragment. -/
  | style {base text : String} (hne : base ≠ "")
    (hfirst : ∀ c ∈ base.toList.head?, c ≠ '@' ∧ c ≠ '$')
    (hbase : ∀ c ∈ base.toList, isBlank c = false ∧ c ≠ ':' ∧ c ≠ '[') (htext : Tail text) :
    Reads (base ++ text) (.style base text)
  /-- `$`, perhaps blanks, and perhaps a fragment. -/
  | standalone {text : String} (htext : Tail (Text.trimStart text)) :
    Reads ("$" ++ text) (.global "$" (Text.trimStart text))
  /-- `$` and any other text with a blank in it. -/
  | literal {text : String} (hown : HasOwnText text)
    (hblank : ∃ c ∈ text.toList, isBlank c = true) : Reads ("$" ++ text) (.global ("$" ++ text) "")
  /-- `$` and any other text without blanks: a name, and perhaps a fragment. -/
  | global {text base fragment : String} (hown : HasOwnText text)
    (hblank : ∀ c ∈ text.toList, isBlank c = false) (hsplit : "$" ++ text = base ++ fragment)
    (hbase : ∀ c ∈ base.toList, c ≠ ':' ∧ c ≠ '[') (htext : Tail fragment) :
    Reads ("$" ++ text) (.global base fragment)

variable {key base text : String} {k : Key}

theorem isFragment_iff_fragmentText : IsFragment text ↔ FragmentText text := by
  rw [isFragment_iff, ← startsPart_iff, Fragment.isValid_iff]
  rfl

theorem Tail.isValid (h : Tail text) : Fragment.isValid text.toList = true := by
  rcases h with rfl | h
  · rfl
  · exact Fragment.isValid_iff.2 h.2

theorem Tail.start (h : Tail text) : text.toList = [] ∨ StartsPart text.toList := by
  rcases h with rfl | h
  · exact Or.inl rfl
  · exact Or.inr h.1

theorem Tail.splitFragment (h : Tail text) (hbase : ∀ c ∈ base.toList, c ≠ ':' ∧ c ≠ '[') :
    splitFragment (base ++ text).toList = (base.toList, text.toList) := by
  rw [String.toList_append, splitFragment_append hbase h.start]

/-- What is split off a key is nothing or a fragment, if it is valid. -/
theorem tail_split {cs : List Char} (h : Fragment.isValid (splitFragment cs).2 = true) :
    Tail (.ofList (splitFragment cs).2) :=
  (isFragment_split h).imp_right isFragment_iff_fragmentText.1

theorem toList_trimStart (text : String) :
    (Text.trimStart text).toList = Text.dropBlanks text.toList := String.toList_ofList

/-- Whether a text of its own stands behind the `$` is what the classification of a global selector
asks first. -/
theorem hasOwnText_iff : HasOwnText text ↔ ¬((Text.dropBlanks text.toList).isEmpty
    || (Text.dropBlanks text.toList).head?.any startsFragment) = true := by
  rw [HasOwnText, startsPart_iff, toList_trimStart, ← toList_trimStart]
  simp

theorem tail_trimStart_iff (h : ¬HasOwnText text) : Tail (Text.trimStart text)
    ↔ Fragment.isValid (Text.dropBlanks text.toList) = true := by
  rw [HasOwnText, not_and_or, not_not, not_not] at h
  rw [← toList_trimStart]
  refine ⟨Tail.isValid, fun hvalid => h.imp_right fun hstart => ⟨hstart, ?_⟩⟩
  exact Fragment.isValid_iff.1 hvalid

section Global

variable (key)

theorem classifyGlobal?_of_not_own (h : ¬HasOwnText text) : classifyGlobal? key text.toList
    = if Fragment.isValid (Text.dropBlanks text.toList) then
        some (.global "$" (Text.trimStart text)) else none := by
  rw [hasOwnText_iff, not_not] at h
  exact if_pos h

theorem classifyGlobal?_of_blank (h : HasOwnText text)
    (hblank : ∃ c ∈ text.toList, isBlank c = true) :
    classifyGlobal? key text.toList = some (.global key "") := by
  rw [hasOwnText_iff] at h
  exact (if_neg h).trans (if_pos (List.any_eq_true.2 hblank))

theorem classifyGlobal?_of_not_blank (h : HasOwnText text)
    (hblank : ∀ c ∈ text.toList, isBlank c = false) : classifyGlobal? key text.toList
      = if Fragment.isValid (splitFragment key.toList).2 then
          some (.global (.ofList (splitFragment key.toList).1)
            (.ofList (splitFragment key.toList).2)) else none := by
  rw [hasOwnText_iff] at h
  have hany : ¬text.toList.any isBlank = true := by simpa using hblank
  exact (if_neg h).trans (if_neg hany)

end Global

theorem classify?_at_append (query : String) : classify? ("@" ++ query)
    = if query.toList.all isBlank then none else some (.mediaQuery query) := by
  have hkey : ("@" ++ query).toList = '@' :: query.toList := String.toList_append
  rw [classify?_at hkey, String.ofList_toList]

theorem classify?_dollar_append (text : String) :
    classify? ("$" ++ text) = classifyGlobal? ("$" ++ text) text.toList :=
  classify?_dollar String.toList_append

/-- A key of the language is classified. -/
theorem classify?_of_reads (h : Reads key k) : classify? key = some k := by
  cases h with
  | @mediaQuery query hquery =>
    obtain ⟨c, hc, hblank⟩ := hquery
    have hnot : query.toList.all isBlank = false := List.all_eq_false.2 ⟨c, hc, by simp [hblank]⟩
    rw [classify?_at_append, hnot]
    rfl
  | fragment htext => exact isFragment_iff_fragmentText.2 htext
  | @style base text hne hfirst hbase htext =>
    have hlist : base.toList ≠ [] := by simpa using hne
    have hplain : IsPlain (base ++ text).toList := by
      intro c hc
      rw [String.toList_append, List.head?_append_of_ne_nil _ hlist] at hc
      have hmem := hbase c (List.mem_of_mem_head? hc)
      exact ⟨(hfirst c hc).1, (hfirst c hc).2, by simp [startsFragment, hmem.2]⟩
    have hblank : base.toList.any isBlank = false :=
      List.any_eq_false.2 fun c hc => by simp [(hbase c hc).1]
    have hempty : base.toList.isEmpty = false := by simpa using hlist
    rw [classify?_plain hplain, classifyStyle?, htext.splitFragment fun c hc => (hbase c hc).2]
    simp [hblank, hempty, htext.isValid]
  | @standalone text htext =>
    have hown : ¬HasOwnText text := fun h => htext.elim h.1 fun htext => h.2 htext.1
    rw [classify?_dollar_append, classifyGlobal?_of_not_own _ hown,
      if_pos ((tail_trimStart_iff hown).1 htext)]
  | literal hown hblank => rw [classify?_dollar_append, classifyGlobal?_of_blank _ hown hblank]
  | global hown hblank hsplit hbase htext =>
    rw [classify?_dollar_append, classifyGlobal?_of_not_blank _ hown hblank, hsplit,
      htext.splitFragment hbase, if_pos htext.isValid, String.ofList_toList, String.ofList_toList]

theorem ofList_splitFragment (key : String) :
    .ofList (splitFragment key.toList).1 ++ .ofList (splitFragment key.toList).2 = key := by
  rw [splitFragment_eq, ← String.ofList_append, List.takeWhile_append_dropWhile,
    String.ofList_toList]

theorem ne_start_of_mem_base {cs : List Char} {c : Char}
    (h : c ∈ (String.ofList (splitFragment cs).1).toList) : c ≠ ':' ∧ c ≠ '[' := by
  rw [String.toList_ofList] at h
  simpa [startsFragment] using not_startsFragment_of_mem h

/-- A global selector that is classified is in the language. -/
theorem reads_of_classifyGlobal? {text : String}
    (h : classifyGlobal? ("$" ++ text) text.toList = some k) : Reads ("$" ++ text) k := by
  by_cases hown : HasOwnText text
  · by_cases hblank : ∃ c ∈ text.toList, isBlank c = true
    · rw [classifyGlobal?_of_blank _ hown hblank] at h
      cases h
      exact .literal hown hblank
    · have hno : ∀ c ∈ text.toList, isBlank c = false := by simpa using hblank
      rw [classifyGlobal?_of_not_blank _ hown hno] at h
      split at h
      · next hvalid =>
        cases h
        exact .global hown hno (ofList_splitFragment _).symm (fun _ => ne_start_of_mem_base)
          (tail_split hvalid)
      · cases h
  · rw [classifyGlobal?_of_not_own _ hown] at h
    split at h
    · next hvalid =>
      cases h
      exact .standalone ((tail_trimStart_iff hown).2 hvalid)
    · cases h

/-- A key that is classified is in the language. -/
theorem reads_of_classify? (h : classify? key = some k) : Reads key k := by
  rcases kinds key with ⟨cs, hcs⟩ | ⟨cs, hcs⟩ | hstart | hplain
  · obtain ⟨query, rfl⟩ : ∃ query, key = "@" ++ query :=
      ⟨.ofList cs, by simp [← String.toList_inj, hcs]⟩
    rw [classify?_at_append] at h
    split at h
    · cases h
    · next hquery =>
      cases h
      exact .mediaQuery (by simpa using hquery)
  · obtain ⟨text, rfl⟩ : ∃ text, key = "$" ++ text :=
      ⟨.ofList cs, by simp [← String.toList_inj, hcs]⟩
    rw [classify?_dollar_append] at h
    exact reads_of_classifyGlobal? h
  · rw [classify?_start hstart] at h
    split at h
    · next hvalid =>
      cases h
      exact .fragment ⟨startsPart_iff.2 hstart, Fragment.isValid_iff.1 hvalid⟩
    · cases h
  · rw [classify?_plain hplain] at h
    obtain ⟨hne, hblank, hvalid, rfl⟩ := classifyStyle?_eq_some h
    have hfirst : ∀ c ∈ (String.ofList (splitFragment key.toList).1).toList.head?,
        c ≠ '@' ∧ c ≠ '$' := by
      rw [String.toList_ofList, head?_base hne]
      exact fun c hc => ⟨(hplain c hc).1, (hplain c hc).2.1⟩
    have hbase : ∀ c ∈ (String.ofList (splitFragment key.toList).1).toList,
        isBlank c = false ∧ c ≠ ':' ∧ c ≠ '[' := by
      refine fun c hc => ⟨?_, ne_start_of_mem_base hc⟩
      rw [String.toList_ofList] at hc
      simpa using List.any_eq_false.1 hblank c hc
    have hreads := Reads.style (by simpa using hne) hfirst hbase (tail_split hvalid)
    rwa [ofList_splitFragment] at hreads

end Key

/-- A key is classified as what it stands for in the language of keys, and refused if it is not in
the language. -/
theorem classify_iff_reads (key : String) : (∀ k, classify key = .ok k ↔ Key.Reads key k)
    ∧ (classify key = .error (.invalidStyleName key) ↔ ∀ k, ¬Key.Reads key k) := by
  have hiff : ∀ k, Key.classify? key = some k ↔ Key.Reads key k :=
    fun k => ⟨Key.reads_of_classify?, Key.classify?_of_reads⟩
  unfold classify
  cases hkey : Key.classify? key with
  | none =>
    have hno : ∀ k, ¬Key.Reads key k := fun k hk => by cases hkey.symm.trans ((hiff k).2 hk)
    exact ⟨fun k => ⟨nofun, fun hk => absurd hk (hno k)⟩, fun _ => hno, fun _ => rfl⟩
  | some found =>
    have hfound : Key.Reads key found := (hiff found).1 hkey
    refine ⟨fun k => ?_, nofun, fun hno => absurd hfound (hno found)⟩
    rw [← hiff, hkey]
    rw [Except.ok.injEq, Option.some.injEq]

/-- Behind an attribute another part must start. -/
example : Key.classify? "a:is([x]b)[y]:hover" = some (.style "a" ":is([x]b)[y]:hover")
    ∧ Key.classify? "a[y]b" = none := by decide

end NestedStyles
