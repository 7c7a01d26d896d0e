/-!
# Characters and line breaks of YAML

The character classes that YAML text is read and written by. A line break is read as a line feed,
the line and paragraph separators apart, which stand for themselves.
-/

namespace DiagramTint.Yaml

/-- A space or a tab. -/
def isWhite (c : Char) : Bool :=
  c == ' ' || c == '\t'

/-- A character that ends a line. -/
def isBreak (c : Char) : Bool :=
  c == '\n' || c == '\r' || c == '\u0085' || c == '\u2028' || c == '\u2029'

/-- The character that may stand in front of a line without being part of it. -/
def byteOrderMark : Char := '\ufeff'

/-- The characters a YAML text may consist of. -/
def isAllowed (c : Char) : Bool :=
  let n := c.toNat
  n == 0x09 || n == 0x0A || n == 0x0D || (0x20 ≤ n && n ≤ 0x7E) || n == 0x85 ||
    (0xA0 ≤ n && n ≤ 0xD7FF) || (0xE000 ≤ n && n ≤ 0xFFFD) || 0x10000 ≤ n

/-- The characters of anchors, directive names and tag handles. -/
def isNameChar (c : Char) : Bool :=
  c.isAlphanum || c == '_' || c == '-'

/-- Whether a text ends here or goes on with a space, a tab or a line break. -/
def atGap : List Char → Bool
  | [] => true
  | c :: _ => isWhite c || isBreak c

/-- Whether `---` or `...` stands here as a mark of its own. -/
def atDocumentMark : List Char → Bool
  | '-' :: '-' :: '-' :: cs => atGap cs
  | '.' :: '.' :: '.' :: cs => atGap cs
  | _ => false

/-- Reads one line break: the text it stands for and what follows it. -/
def takeBreak : List Char → Option (List Char × List Char)
  | [] => none
  | '\r' :: '\n' :: cs => some (['\n'], cs)
  | c :: cs =>
    if c = '\u2028' || c = '\u2029' then some ([c], cs)
    else if isBreak c then some (['\n'], cs)
    else none

theorem takeBreak_length {cs b rest : List Char} (h : takeBreak cs = some (b, rest)) :
    rest.length < cs.length := by
  unfold takeBreak at h
  split at h
  · simp at h
  · simp only [Option.some.injEq, Prod.mk.injEq] at h
    simp only [← h.2, List.length_cons]
    omega
  · split at h
    · simp only [Option.some.injEq, Prod.mk.injEq] at h
      simp [← h.2]
    · split at h
      · simp only [Option.some.injEq, Prod.mk.injEq] at h
        simp [← h.2]
      · simp at h

/-- The blanks between two parts of a scalar: spaces and tabs on one line, or a first line break
and those that follow it. -/
inductive Gap where
  | blanks (text : List Char)
  | breaks (first more : List Char)

namespace Gap

/-- No blanks at all. -/
def none : Gap := .blanks []

def isNone : Gap → Bool
  | .blanks text => text.isEmpty
  | .breaks _ _ => false

def isBroken : Gap → Bool
  | .blanks _ => false
  | .breaks _ _ => true

/-- A space or tab at the start of a line does not count. -/
def addWhite (c : Char) : Gap → Gap
  | .blanks text => .blanks (text ++ [c])
  | .breaks first more => .breaks first more

/-- Spaces and tabs before a line break do not count. -/
def addBreak (b : List Char) : Gap → Gap
  | .blanks _ => .breaks b []
  | .breaks first more => .breaks first (more ++ b)

/-- What a gap stands for: one line feed is folded to a space, and of several the first is
dropped. -/
def text : Gap → List Char
  | .blanks text => text
  | .breaks first more =>
    if first = ['\n'] then (if more = [] then [' '] else more) else first ++ more

end Gap

end DiagramTint.Yaml
