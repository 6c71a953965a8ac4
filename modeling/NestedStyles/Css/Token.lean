import NestedStyles.Css.Name
/-!
# Tokens of CSS

The lexical grammar of CSS. A token is a piece of the text and what kind of piece it is. Two kinds
of text make no token and spoil all of it: a string that a line ends, and an unquoted address with a
character that cannot stand in one. Strings, addresses and comments may be open at the end.

* `numberLength`, `stringLength?`, `addressLength?` and `commentLength` measure the longer tokens,
  `kindAt?` the one at the front of a text;
* `tokens?` cuts a text into tokens; `text_of_tokens?` says that nothing of it is lost.
-/
namespace NestedStyles.Css

/-! ## Lengths -/

def digitsLength (cs : List Char) : Nat := (cs.takeWhile Char.isDigit).length

def signLength : List Char → Nat
  | c :: _ => if c = '+' || c = '-' then 1 else 0
  | [] => 0

/-- The length of a point and the digits after it. -/
def decimalsLength : List Char → Nat
  | '.' :: cs => if digitsLength cs = 0 then 0 else 1 + digitsLength cs
  | _ => 0

def exponentLength : List Char → Nat
  | c :: cs =>
    let digits := digitsLength (cs.drop (signLength cs))
    if (c = 'e' || c = 'E') && digits ≠ 0 then 1 + signLength cs + digits else 0
  | [] => 0

def startsNumber (cs : List Char) : Bool :=
  let cs := cs.drop (signLength cs)
  digitsLength cs ≠ 0 || decimalsLength cs ≠ 0

/-- The length of a sign and digits at the front. -/
def wholeLength (cs : List Char) : Nat := signLength cs + digitsLength (cs.drop (signLength cs))

/-- The length of the number at the front, without a unit. -/
def numberLength (cs : List Char) : Nat :=
  let whole := wholeLength cs
  let withDecimals := whole + decimalsLength (cs.drop whole)
  withDecimals + exponentLength (cs.drop withDecimals)

/-- The length of the rest of a string, its closing quote included. A string ends with the text at
the latest, and must not be ended by a line unless a backslash stands before. -/
def stringLength? (quote : Char) : List Char → Option Nat
  | [] => some 0
  | '\\' :: cs =>
    let escaped := if startsNewline cs then oneSpaceLength cs else escapeLength cs
    (stringLength? quote (cs.drop escaped)).map (1 + escaped + ·)
  | c :: cs =>
    if c = quote then some 1
    else if isNewline c then none
    else (stringLength? quote cs).map (1 + ·)
termination_by cs => cs.length
decreasing_by all_goals (simp only [List.length_cons, List.length_drop]; omega)

/-- Whether `c` cannot stand in an unquoted address. -/
def isOddInAddress (c : Char) : Bool :=
  c = '"' || c = '\'' || c = '(' || c = '\x7f' || ('\x00' < c && c < ' ')

/-- The length of the rest of an unquoted address, its closing parenthesis included. White space may
stand before that, but not between other characters. -/
def addressLength? : List Char → Option Nat
  | [] => some 0
  | '\\' :: cs =>
    if startsNewline cs then none
    else (addressLength? (cs.drop (escapeLength cs))).map (1 + escapeLength cs + ·)
  | c :: cs =>
    if c = ')' then some 1
    else if isSpace c then
      match cs.drop (spaceLength cs) with
      | [] => some (1 + spaceLength cs)
      | next :: _ => if next = ')' then some (2 + spaceLength cs) else none
    else if isOddInAddress c then none
    else (addressLength? cs).map (1 + ·)
termination_by cs => cs.length
decreasing_by all_goals (simp only [List.length_cons, List.length_drop]; omega)

def commentLength : List Char → Nat
  | [] => 0
  | '*' :: '/' :: _ => 2
  | _ :: cs => 1 + commentLength cs

/-! ## Kinds -/

inductive Bracket where
  | round
  | square
  | curly
  deriving DecidableEq, Repr

inductive TokenKind where
  | space
  | comment
  | ident (name : String)
  /-- A name and the parenthesis that opens its arguments. -/
  | function (name : String)
  | atKeyword (name : String)
  /-- A hash; only one that reads as a name is an id. -/
  | hash (isId : Bool)
  /-- A number without a unit. -/
  | number (isWhole : Bool)
  /-- A number with a unit, or a percentage. -/
  | quantity
  | string
  | address
  | opening (bracket : Bracket)
  | closing (bracket : Bracket)
  | colon
  | semicolon
  | comma
  /-- One of the marks that once hid styles in pages: `<!--` and `-->`. -/
  | pageMark
  /-- A sign and an equals sign, as attributes are compared. -/
  | comparison
  | sign (char : Char)
  deriving DecidableEq, Repr

/-- A piece of a text, with its kind. -/
structure Token where
  kind : TokenKind
  text : List Char
  deriving Repr

/-- The number at the front, and its length with the unit. -/
def numberAt (cs : List Char) : TokenKind × Nat :=
  let n := numberLength cs
  let rest := cs.drop n
  if rest.head? = some '%' then (.quantity, n + 1)
  else if startsName rest then (.quantity, n + nameLength rest)
  else (.number (n = wholeLength cs), n)

/-- The name, function or address at the front. What `url` stands before is an address unless it is
quoted. -/
def nameAt? (cs : List Char) : Option (TokenKind × Nat) :=
  let n := nameLength cs
  let name := String.ofList (decodeName (cs.take n))
  match cs.drop n with
  | '(' :: rest =>
    let inner := rest.drop (spaceLength rest)
    if name.toLower = "url" && !(inner.head?.any fun c => c = '"' || c = '\'') then
      (addressLength? inner).map fun k => (.address, n + 1 + spaceLength rest + k)
    else some (.function name, n + 1)
  | _ => some (.ident name, n)

/-- What a hash is, judged by what follows it. -/
def hashAt (cs : List Char) : TokenKind × Nat :=
  if startsName cs then (.hash true, 1 + nameLength cs)
  else if cs.head?.any fun c => c.isDigit || c = '-' then (.hash false, 1 + nameLength cs)
  else (.sign '#', 1)

/-- What an at sign is, judged by what follows it. -/
def atSignAt (cs : List Char) : TokenKind × Nat :=
  if startsName cs then
    (.atKeyword (.ofList (decodeName (cs.take (nameLength cs)))), 1 + nameLength cs)
  else (.sign '@', 1)

/-- A token of one or a few fixed characters, or a comment. -/
def signAt : Char → List Char → TokenKind × Nat
  | '/', '*' :: cs => (.comment, 2 + commentLength cs)
  | '<', '!' :: '-' :: '-' :: _ => (.pageMark, 4)
  | '-', '-' :: '>' :: _ => (.pageMark, 3)
  | '(', _ => (.opening .round, 1)
  | '[', _ => (.opening .square, 1)
  | '\x7b', _ => (.opening .curly, 1)
  | ')', _ => (.closing .round, 1)
  | ']', _ => (.closing .square, 1)
  | '\x7d', _ => (.closing .curly, 1)
  | ':', _ => (.colon, 1)
  | ';', _ => (.semicolon, 1)
  | ',', _ => (.comma, 1)
  | c, '=' :: _ => if "$*^|~".contains c then (.comparison, 2) else (.sign c, 1)
  | c, _ => (.sign c, 1)

/-- The kind of the token that starts with `c`, and its length. -/
def kindAt? (c : Char) (cs : List Char) : Option (TokenKind × Nat) :=
  if isSpace c then some (.space, 1 + spaceLength cs)
  else if c = '"' || c = '\'' then (stringLength? c cs).map fun n => (.string, 1 + n)
  else if c = '#' then some (hashAt cs)
  else if c = '@' then some (atSignAt cs)
  else if startsNumber (c :: cs) then some (numberAt (c :: cs))
  else if startsName (c :: cs) && (signAt c cs).1 ≠ .pageMark then nameAt? (c :: cs)
  else some (signAt c cs)

/-! ## Texts -/

/-- The tokens of a text; each takes its first character at least. -/
def tokens? : List Char → Option (List Token)
  | [] => some []
  | c :: cs => do
    let (kind, n) ← kindAt? c cs
    let rest ← tokens? (cs.drop (n - 1))
    return ⟨kind, c :: cs.take (n - 1)⟩ :: rest
termination_by cs => cs.length
decreasing_by simp only [List.length_cons, List.length_drop]; omega

/-- The tokens of a text, one after the other, are the text. -/
theorem text_of_tokens? {cs : List Char} {ts : List Token} (h : tokens? cs = some ts) :
    ts.flatMap Token.text = cs := by
  fun_induction tokens? cs generalizing ts with
  | case1 => simp_all
  | case2 c cs ih =>
    simp only [Option.bind_eq_bind, Option.bind_eq_some_iff, Option.pure_def,
      Option.some.injEq] at h
    obtain ⟨⟨kind, n⟩, _, rest, hrest, rfl⟩ := h
    simp [ih n hrest]

end NestedStyles.Css
