import DiagramTint.Yaml.Token.Lexeme

/-!
# From text to tokens

The layout of a text: block collections open where a key or an entry is indented further than what
surrounds it, and close where the indentation goes back. Whether something is a key is known only at
the colon after it, which must stand on the same line; the place of the key is remembered, and its
token is put there once the colon is found.
-/

namespace DiagramTint.Yaml

/-- A place of a text: how many line breaks and bytes stand before it, and its column. -/
structure Position where
  line : Nat := 0
  column : Nat := 0
  index : Nat := 0

/-- The place after one more character. -/
def Position.next (p : Position) (c : Char) : Position :=
  if isBreak c then ⟨p.line + 1, 0, p.index + c.utf8Size⟩
  else ⟨p.line, p.column + 1, p.index + c.utf8Size⟩

/-- The place at which `after` is left of the text `before` that starts at `p`. -/
def Position.past (p : Position) (before after : List Char) : Position :=
  (before.take (before.length - after.length)).foldl Position.next p

/-- Something that may turn out to be a key: where it starts, how many tokens come before it, and
whether nothing but a key can stand there. -/
structure Candidate where
  position : Position
  slot : Nat
  required : Bool

/-- Whether a candidate is past: its colon would have to stand on the same line, at most 1024
bytes on. -/
def Candidate.isStale (k : Candidate) (p : Position) : Bool :=
  k.position.line < p.line || k.position.index + 1024 < p.index

/-- The state of a scan. -/
structure Scan where
  rest : List Char
  position : Position := {}
  /-- The tokens so far, the latest first, and how many they are. -/
  tokens : List Token := []
  count : Nat := 0
  /-- The columns of the open block collections, the innermost first. -/
  indents : List Nat := []
  /-- The candidate of the innermost collection. -/
  candidate : Option Candidate := none
  /-- The candidates around the open flow collections, the innermost first. -/
  outerCandidates : List (Option Candidate) := []
  /-- Whether a key may start at the next lexeme. -/
  keyAllowed : Bool := true

namespace Scan

/-- Whether the scan is inside a flow collection. -/
def inFlow (s : Scan) : Bool :=
  !s.outerCandidates.isEmpty

/-- One more than the column of the innermost block collection, 0 if there is none. -/
def outer (s : Scan) : Nat :=
  (s.indents.head?.map (· + 1)).getD 0

/-- Adds a token. -/
def emit (s : Scan) (t : Token) : Scan :=
  { s with tokens := t :: s.tokens, count := s.count + 1 }

/-- Puts a token behind the first `slot` tokens. -/
def emitAt (s : Scan) (slot : Nat) (t : Token) : Scan :=
  let later := s.count - slot
  { s with tokens := s.tokens.take later ++ t :: s.tokens.drop later, count := s.count + 1 }

/-- Gives a candidate up; one that had to be a key is a fault. -/
def giveUp : Option Candidate → Except Error Unit
  | some k => if k.required then .error .missingColon else .ok ()
  | none => .ok ()

/-- Gives up the candidate of the innermost collection. -/
def dropCandidate (s : Scan) : Except Error Scan :=
  match giveUp s.candidate with
  | .error e => .error e
  | .ok () => .ok { s with candidate := none }

/-- Gives up a candidate that is past. -/
def refresh (p : Position) (k : Option Candidate) : Except Error (Option Candidate) :=
  if (k.map (·.isStale p)).getD false then
    match giveUp k with
    | .error e => .error e
    | .ok () => .ok none
  else .ok k

/-- Gives up all candidates that are past. -/
def dropStale (s : Scan) : Except Error Scan :=
  match refresh s.position s.candidate, s.outerCandidates.mapM (refresh s.position) with
  | .ok k, .ok ks => .ok { s with candidate := k, outerCandidates := ks }
  | .error e, _ => .error e
  | _, .error e => .error e

/-- Remembers that a key may start here, where one is allowed. -/
def noteCandidate (s : Scan) : Except Error Scan :=
  if s.keyAllowed then
    match s.dropCandidate with
    | .error e => .error e
    | .ok s =>
      let required := !s.inFlow && s.indents.head? == some s.position.column
      .ok { s with candidate := some ⟨s.position, s.count, required⟩ }
  else .ok s

/-- The indentations that are left when all further to the right than `keep` allows are closed,
and the tokens that close them. -/
def closing (keep : Nat → Bool) : List Nat → List Token × List Nat
  | [] => ([], [])
  | i :: is =>
    if keep i then ([], i :: is)
    else
      let (ends, left) := closing keep is
      (.blockEnd :: ends, left)

/-- Closes the block collections whose column `keep` does not allow. Inside a flow collection the
indentation has no meaning. -/
def unindent (s : Scan) (keep : Nat → Bool) : Scan :=
  if s.inFlow then s
  else
    let (ends, left) := closing keep s.indents
    { s with tokens := ends ++ s.tokens, count := s.count + ends.length, indents := left }

/-- Opens a block collection at a column further to the right than the innermost one; its start
token goes behind the first `slot` tokens. -/
def indent (s : Scan) (column slot : Nat) (t : Token) : Scan :=
  if s.inFlow || column < s.outer then s
  else { s.emitAt slot t with indents := column :: s.indents }

/-- Puts a dash or a question mark into structure: it opens a block collection where needed. -/
def blockIndicator (s : Scan) (start t : Token) (keyAllowed : Bool) : Except Error Scan :=
  if !s.inFlow && !s.keyAllowed then .error .indicatorNotAllowed
  else
    match (s.indent s.position.column s.count start).dropCandidate with
    | .error e => .error e
    | .ok s => .ok ({ s with keyAllowed := keyAllowed }.emit t)

/-- Puts a colon into structure: it makes a key of the candidate, or follows a question mark. -/
def colon (s : Scan) : Except Error Scan :=
  match s.candidate with
  | some k =>
    let s := (s.emitAt k.slot .key).indent k.position.column k.slot .blockMappingStart
    .ok ({ s with candidate := none, keyAllowed := false }.emit .value)
  | none =>
    if !s.inFlow && !s.keyAllowed then .error .indicatorNotAllowed
    else
      let s := s.indent s.position.column s.count .blockMappingStart
      .ok ({ s with keyAllowed := !s.inFlow }.emit .value)

/-- Puts the lexeme at the current place into structure. -/
def place (s : Scan) : Lexeme → Except Error Scan
  | .directive t | .documentMark t =>
    match (s.unindent fun _ => false).dropCandidate with
    | .error e => .error e
    | .ok s => .ok ({ s with keyAllowed := false }.emit t)
  | .flowOpen t =>
    match s.noteCandidate with
    | .error e => .error e
    | .ok s =>
      .ok ({ s with
        outerCandidates := s.candidate :: s.outerCandidates
        candidate := none
        keyAllowed := true }.emit t)
  | .flowClose t =>
    match s.dropCandidate with
    | .error e => .error e
    | .ok s =>
      .ok ({ s with
        candidate := (s.outerCandidates.head?).getD s.candidate
        outerCandidates := s.outerCandidates.tail
        keyAllowed := false }.emit t)
  | .comma =>
    match s.dropCandidate with
    | .error e => .error e
    | .ok s => .ok ({ s with keyAllowed := true }.emit .flowEntry)
  | .dash => s.blockIndicator .blockSequenceStart .blockEntry true
  | .question => s.blockIndicator .blockMappingStart .key (!s.inFlow)
  | .colon => s.colon
  | .item t =>
    match s.noteCandidate with
    | .error e => .error e
    | .ok s => .ok ({ s with keyAllowed := false }.emit t)
  | .plain text broken =>
    match s.noteCandidate with
    | .error e => .error e
    | .ok s => .ok ({ s with keyAllowed := broken }.emit (.scalar .plain text))
  | .block text =>
    match s.dropCandidate with
    | .error e => .error e
    | .ok s => .ok ({ s with keyAllowed := true }.emit (.scalar .quoted text))

/-- The part of a line in which blanks are skipped. -/
inductive Stretch where
  /-- Before its first character. -/
  | start
  | blanks
  | comment
deriving DecidableEq

/-- Skips blanks, line breaks, comments, and a byte order mark at the start of a line. A tab is no
blank where a key may start. Outside flow collections a key may start on a new line. -/
def skipBlanks (flow : Bool) (stretch : Stretch) (keyAllowed : Bool) : List Char → List Char × Bool
  | [] => ([], keyAllowed)
  | c :: cs =>
    if isBreak c then skipBlanks flow .start (keyAllowed || !flow) cs
    else if stretch = .comment || c == '#' then skipBlanks flow .comment keyAllowed cs
    else if c == ' ' || (c == '\t' && (flow || !keyAllowed)) ||
        (c == byteOrderMark && stretch = .start) then
      skipBlanks flow .blanks keyAllowed cs
    else (c :: cs, keyAllowed)

theorem skipBlanks_length (flow : Bool) (stretch : Stretch) (keyAllowed : Bool) (cs : List Char) :
    (skipBlanks flow stretch keyAllowed cs).1.length ≤ cs.length := by
  fun_induction skipBlanks flow stretch keyAllowed cs <;> simp_all <;> omega

/-- Goes on to the next lexeme. -/
def advance (s : Scan) : Except Error Scan :=
  let stretch := if s.position.column = 0 then .start else .blanks
  let (rest, keyAllowed) := skipBlanks s.inFlow stretch s.keyAllowed s.rest
  let moved :=
    { s with rest := rest, keyAllowed := keyAllowed, position := s.position.past s.rest rest }
  match moved.dropStale with
  | .error e => .error e
  | .ok s => .ok (s.unindent fun i => i ≤ s.position.column)

/-- Closes everything at the end of the text. -/
def finish (s : Scan) : Except Error (List Token) :=
  match (s.unindent fun _ => false).dropCandidate with
  | .error e => .error e
  | .ok s => .ok s.tokens.reverse

theorem rest_dropStale {s t : Scan} (h : s.dropStale = .ok t) : t.rest = s.rest := by
  unfold dropStale at h
  split at h <;> cases h
  rfl

theorem rest_unindent (s : Scan) (keep : Nat → Bool) : (s.unindent keep).rest = s.rest := by
  unfold unindent
  split <;> rfl

theorem rest_advance {s t : Scan} (h : s.advance = .ok t) : t.rest.length ≤ s.rest.length := by
  simp only [advance] at h
  split at h
  · cases h
  · rename_i hd
    cases h
    rw [rest_unindent, rest_dropStale hd]
    exact skipBlanks_length ..

/-- The tokens of all that is left of a text. -/
def run (s : Scan) : Except Error (List Token) :=
  match _ : s.advance with
  | .error e => .error e
  | .ok t =>
    match _ : t.rest with
    | [] => t.finish
    | c :: cs =>
      match _ : Lexeme.read ⟨t.inFlow, t.position.column, t.outer⟩ c cs with
      | .error e => .error e
      | .ok (lexeme, rest) =>
        match t.place lexeme with
        | .error e => .error e
        | .ok next => run { next with rest := rest, position := t.position.past (c :: cs) rest }
termination_by s.rest.length
decreasing_by
  have h₁ := rest_advance ‹_›
  have h₂ := Lexeme.read_length ‹_›
  rw [‹t.rest = c :: cs›] at h₁
  simp at h₁ ⊢
  omega

end Scan

/-- The tokens of a YAML text. -/
def tokenize (cs : List Char) : Except Error (List Token) :=
  if cs.all isAllowed then Scan.run { rest := cs } else .error .controlCharacter

end DiagramTint.Yaml
