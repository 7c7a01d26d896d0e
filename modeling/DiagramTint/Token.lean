import DiagramTint.Text.Bytes
import DiagramTint.Text.Blank

/-!
# Tokens of a diagram source

A source is cut into tokens from left to right, blanks between them dropped. Which token starts at
a character is decided by `lexeme`; it answers with a class and a number of further characters, so
that no character can be lost or read twice.
-/

namespace DiagramTint

/-- The classes of tokens. -/
inductive TokenKind where
  /-- From `//` or `#` up to the end of the line. -/
  | lineComment
  | identifier
  /-- The word `alias`. -/
  | aliasKeyword
  /-- A quoted string, and whether its closing quote stands on the same line. -/
  | string (terminated : Bool)
  /-- One of `->`, `-->`, `<-`, `<--`. -/
  | arrow
  | equals
  | colon
  | semicolon
  /-- A character at which nothing else starts. -/
  | unknown
deriving DecidableEq, Inhabited

/-- A token and the bytes it covers. -/
structure Token where
  kind : TokenKind
  span : Span
deriving DecidableEq, Inhabited

namespace Token

/-- The ASCII letters and the underscore. -/
def startsWord (c : Char) : Bool :=
  c.isAlpha || c == '_'

/-- The ASCII letters and digits and the underscore. -/
def continuesWord (c : Char) : Bool :=
  c.isAlphanum || c == '_'

/-- How many characters after an opening quote belong to the string, and whether the last of them
is its closing quote. A backslash takes the special meaning from a quote or backslash after it; the
string never reaches past its line. -/
def stringBody (escaped : Bool) : List Char → Nat × Bool
  | [] => (0, false)
  | c :: cs =>
    if c = '\n' then (0, false)
    else if c = '"' && !escaped then (1, true)
    else
      let (n, terminated) := stringBody (c = '\\' && !escaped) cs
      (n + 1, terminated)

/-- The number of characters after `c` that complete an arrow. -/
def arrowTail (c : Char) (cs : List Char) : Option Nat :=
  match c, cs with
  | '-', '-' :: '>' :: _ => some 2
  | '<', '-' :: '-' :: _ => some 2
  | '-', '>' :: _ => some 1
  | '<', '-' :: _ => some 1
  | _, _ => none

/-- The class of the token that starts at the non-blank character `c`, and how many of the
characters `cs` after it belong to it. -/
def lexeme (c : Char) (cs : List Char) : TokenKind × Nat :=
  if c = '#' || (c = '/' && cs.head? = some '/') then
    (.lineComment, (cs.takeWhile (· != '\n')).length)
  else if startsWord c then
    let tail := cs.takeWhile continuesWord
    (if c :: tail = ['a', 'l', 'i', 'a', 's'] then .aliasKeyword else .identifier, tail.length)
  else if c = '"' then
    let (n, terminated) := stringBody false cs
    (.string terminated, n)
  else
    match arrowTail c cs with
    | some n => (.arrow, n)
    | none =>
      if c = '=' then (.equals, 0)
      else if c = ':' then (.colon, 0)
      else if c = ';' then (.semicolon, 0)
      else (.unknown, 0)

/-- The tokens of a text whose first character stands at byte `pos`. -/
def scan (pos : Nat) : List Char → List Token
  | [] => []
  | c :: cs =>
    if Text.isBlank c then scan (pos + c.utf8Size) cs
    else
      let (kind, n) := lexeme c cs
      let stop := pos + Text.byteLength (c :: cs.take n)
      ⟨kind, pos, stop⟩ :: scan stop (cs.drop n)
termination_by cs => cs.length
decreasing_by
  · simp
  · simp only [List.length_drop, List.length_cons]
    omega

end Token

/-- The tokens of a source, in order. -/
def tokenize (source : List Char) : List Token :=
  Token.scan 0 source

end DiagramTint
