import DiagramTint.Yaml.Scalar.Core

/-!
# Writing scalars

A text is written plain if it reads back as itself, else in single quotes, and in double quotes with
escapes where it holds something that neither can. A text of several lines is written as a literal
block where its blanks allow that.
-/

namespace DiagramTint.Yaml.Scalar

/-- The characters that are written as themselves. -/
def isPrintable (c : Char) : Bool :=
  let n := c.toNat
  n == 0x0A || (0x20 ≤ n && n ≤ 0x7E) ||
    (0xA0 ≤ n && n != 0xFEFF && n != 0xFFFE && n != 0xFFFF)

/-- Whether some two neighbours satisfy `p` and `q`. -/
def anyPair (p q : Char → Bool) : List Char → Bool
  | a :: b :: cs => (p a && q b) || anyPair p q (b :: cs)
  | _ => false

/-- Whether a text starts with a space or a line break. -/
def startsBlank (cs : List Char) : Bool :=
  cs.head?.any fun c => c == ' ' || isBreak c

/-- Whether a text ends with a space or a line break. -/
def endsBlank (cs : List Char) : Bool :=
  cs.getLast?.any fun c => c == ' ' || isBreak c

/-- Whether a colon before a gap or a `#` after a gap stands inside a text; `afterGap` says that a
gap comes before it. -/
def hasInnerIndicator (afterGap : Bool) : List Char → Bool
  | [] => false
  | c :: cs =>
    (c == ':' && atGap cs) || (c == '#' && afterGap) ||
      hasInnerIndicator (isWhite c || isBreak c) cs

/-- Whether a text starts in a way that no plain scalar may. -/
def startsWithIndicator : List Char → Bool
  | '-' :: '-' :: '-' :: _ => true
  | '.' :: '.' :: '.' :: _ => true
  | c :: cs =>
    "#,[]\x7b\x7d&*!|>'\"%@`".toList.contains c || ((c == '?' || c == ':' || c == '-') && atGap cs)
  | [] => false

/-- Whether a line before the last ends with a space. -/
def spaceBeforeBreak (cs : List Char) : Bool :=
  anyPair (· == ' ') isBreak cs

/-- Whether a line after the first starts with a space. -/
def spaceAfterBreak (cs : List Char) : Bool :=
  anyPair isBreak (· == ' ') cs

/-- Whether a text holds a character that only an escape can stand for. -/
def needsEscape (cs : List Char) : Bool :=
  cs.any fun c => !isPrintable c

/-- Whether a text can be written plain. -/
def allowsPlain (cs : List Char) : Bool :=
  !(startsBlank cs || endsBlank cs || cs.any isBreak || needsEscape cs ||
    startsWithIndicator cs || hasInnerIndicator false (cs.drop 1))

/-- Whether a text can be written in single quotes. -/
def allowsSingle (cs : List Char) : Bool :=
  !(spaceBeforeBreak cs || spaceAfterBreak cs || needsEscape cs)

/-- Whether a text can be written as a literal block. -/
def allowsLiteral (cs : List Char) : Bool :=
  !(cs.getLast? == some ' ' || spaceBeforeBreak cs || needsEscape cs)

/-- How a text is written. -/
inductive Written where
  | plain
  | single
  | double
  | literal
deriving DecidableEq

/-- The way a text is written. -/
def written (cs : List Char) : Written :=
  if cs.contains '\n' then (if allowsLiteral cs then .literal else .double)
  else if !hasOtherMeaning cs && allowsPlain cs then .plain
  else if allowsSingle cs then .single
  else .double

/-- The spaces in front of the lines of a scalar that goes over several. -/
def continuation : List Char :=
  [' ', ' ', ' ', ' ']

/-- The body of a single-quoted scalar: quotes are doubled and each line after the first is
indented. `fresh` says that a line break comes before. -/
def singleBody (fresh : Bool) : List Char → List Char
  | [] => if fresh then continuation else []
  | c :: cs =>
    if isBreak c then c :: singleBody true cs
    else
      (if fresh then continuation else []) ++
        (if c = '\x27' then ['\x27', '\x27'] else [c]) ++ singleBody false cs

/-- The hexadecimal digits of a number in upper case, `width` of them. -/
def hexDigits : Nat → Nat → List Char
  | 0, _ => []
  | width + 1, n => hexDigits width (n / 16) ++ [(Nat.digitChar (n % 16)).toUpper]

/-- The letter of an escape that stands for one fixed character. -/
def escapeLetter? : Char → Option Char
  | '\x00' => some '0'
  | '\x07' => some 'a'
  | '\x08' => some 'b'
  | '\t' => some 't'
  | '\n' => some 'n'
  | '\x0b' => some 'v'
  | '\x0c' => some 'f'
  | '\r' => some 'r'
  | '\x1b' => some 'e'
  | '"' => some '"'
  | '\\' => some '\\'
  | '\u0085' => some 'N'
  | '\u2028' => some 'L'
  | '\u2029' => some 'P'
  | _ => none

/-- How a character stands in a double-quoted scalar. -/
def doubleChar (c : Char) : List Char :=
  match escapeLetter? c with
  | some letter => ['\\', letter]
  | none =>
    if isPrintable c then [c]
    else if c.toNat ≤ 0xFF then '\\' :: 'x' :: hexDigits 2 c.toNat
    else if c.toNat ≤ 0xFFFF then '\\' :: 'u' :: hexDigits 4 c.toNat
    else '\\' :: 'U' :: hexDigits 8 c.toNat

/-- The header of a literal block: how far it is indented, if it starts with a blank, and what
becomes of the line breaks at its end. -/
def literalHeader (cs : List Char) : List Char :=
  let ends :=
    match cs.reverse with
    | [] => ['-']
    | [c] => if isBreak c then ['+'] else ['-']
    | c :: d :: _ => if !isBreak c then ['-'] else if isBreak d then ['+'] else []
  (if startsBlank cs then ['2'] else []) ++ ends

/-- The lines of a literal block; an empty line is not indented. -/
def literalBody (fresh : Bool) : List Char → List Char
  | [] => []
  | c :: cs =>
    if isBreak c then c :: literalBody true cs
    else (if fresh then continuation else []) ++ c :: literalBody false cs

/-- A text as a scalar, up to the end of its last line. -/
def write (cs : List Char) : List Char :=
  match written cs with
  | .plain => cs ++ ['\n']
  | .single => '\x27' :: singleBody false cs ++ ['\x27', '\n']
  | .double => '"' :: cs.flatMap doubleChar ++ ['"', '\n']
  | .literal =>
    '|' :: literalHeader cs ++ '\n' :: literalBody true cs ++
      (if cs.getLast?.any isBreak then [] else ['\n'])

end DiagramTint.Yaml.Scalar
