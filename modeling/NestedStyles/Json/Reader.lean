import NestedStyles.Json.Outline
import NestedStyles.Json.Token
/-!
# Reading JSON

The reader is a machine that takes one token at a time. Its state is the stack of open containers,
innermost first, and what it wants next. What it has read at the end is an outline, which is then
turned into a value.

* `State.step` is the machine; a state from which no outline can come is `none`;
* `outline?` reads a text by the grammar alone, `parse?` reads its value within the usual limit of
  depth, `parseSettled?` that value without repeated members;
* `parseOnly?` reads a record of which only some fields matter: others are skipped by the grammar.
-/
namespace NestedStyles.Json

/-- An open container: the items that an array holds so far, or the members of an object and the
name of the member whose value comes next. -/
inductive Frame where
  | array (items : List Outline)
  | object (members : List (Option String × Outline)) (key : Option String)

/-- What the machine wants next. -/
inductive Want where
  | value
  /-- The first item of an array, or its end. -/
  | firstItem
  /-- The first name in an object, or its end. -/
  | firstKey
  /-- A name in an object that holds these members. -/
  | key (members : List (Option String × Outline))
  /-- The colon after this name. -/
  | colon (members : List (Option String × Outline)) (key : Option String)
  /-- What may follow this complete outline in its container, or nothing at the outermost level. -/
  | next (outline : Outline)

structure State where
  frames : List Frame
  want : Want

namespace State

def start : State := ⟨[], .value⟩

/-- Takes the first token of a value. -/
def beginValue (frames : List Frame) : Token → Option State
  | .null => some ⟨frames, .next .null⟩
  | .bool b => some ⟨frames, .next (.bool b)⟩
  | .number n => some ⟨frames, .next (.number n)⟩
  | .string s => some ⟨frames, .next (.string s)⟩
  | .openBracket => some ⟨.array [] :: frames, .firstItem⟩
  | .openBrace => some ⟨frames, .firstKey⟩
  | _ => none

/-- Takes the token after a complete outline. -/
def afterValue (v : Outline) : List Frame → Token → Option State
  | .array items :: frames, .comma => some ⟨.array (items ++ [v]) :: frames, .value⟩
  | .array items :: frames, .closeBracket => some ⟨frames, .next (.array (items ++ [v]))⟩
  | .object ms k :: frames, .comma => some ⟨frames, .key (ms ++ [(k, v)])⟩
  | .object ms k :: frames, .closeBrace => some ⟨frames, .next (.object (ms ++ [(k, v)]))⟩
  | _, _ => none

def step (s : State) (t : Token) : Option State :=
  match s.want, t with
  | .value, t => beginValue s.frames t
  | .firstItem, .closeBracket => some ⟨s.frames.drop 1, .next (.array [])⟩
  | .firstItem, t => beginValue s.frames t
  | .firstKey, .closeBrace => some ⟨s.frames, .next (.object [])⟩
  | .firstKey, .string k => some ⟨s.frames, .colon [] k⟩
  | .key ms, .string k => some ⟨s.frames, .colon ms k⟩
  | .colon ms k, .colon => some ⟨.object ms k :: s.frames, .value⟩
  | .next v, t => afterValue v s.frames t
  | _, _ => none

/-- The outline that has been read, if nothing is left open. -/
def result? (s : State) : Option Outline :=
  match s.frames, s.want with
  | [], .next v => some v
  | _, _ => none

end State

def outlineOfTokens? (ts : List Token) : Option Outline := do
  (← ts.foldlM State.step State.start).result?

def outline? (s : String) : Option Outline := do outlineOfTokens? (← tokens? s.toList)

/-- The value of a text with at most `limit` containers nested into each other. -/
def read? (limit : Nat) (s : String) : Option Value := do (← outline? s).value? limit

def depthLimit : Nat := 127

/-- The value of a text, repeated members included. -/
def parse? (s : String) : Option Value := read? depthLimit s

/-- The value of a text, in which a repeated member keeps its first place and takes its last
value. -/
def parseSettled? (s : String) : Option Value := (parse? s).map Value.settled

/-- The value of a text without the members that have other names than these. -/
def parseOnly? (names : List String) (s : String) : Option Value := do
  (← (← outline? s).only? names).value? depthLimit

end NestedStyles.Json
