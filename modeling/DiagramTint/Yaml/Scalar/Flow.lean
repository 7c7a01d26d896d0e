import DiagramTint.Yaml.Break
import DiagramTint.Yaml.Error

/-!
# Plain and quoted scalars

Reading the scalars that may stand inside a line. Each reader gives the text of the scalar and what
follows it; the blanks inside a scalar are kept on one line and folded over several.
-/

namespace DiagramTint.Yaml.Scalar

/-- The value of a hexadecimal digit. -/
def hexValue? (c : Char) : Option Nat :=
  if '0' ≤ c ∧ c ≤ '9' then some (c.toNat - '0'.toNat)
  else if 'a' ≤ c ∧ c ≤ 'f' then some (c.toNat - 'a'.toNat + 10)
  else if 'A' ≤ c ∧ c ≤ 'F' then some (c.toNat - 'A'.toNat + 10)
  else none

/-- The number written with `n` hexadecimal digits, and what follows them. -/
def hexNumber : Nat → Nat → List Char → Option (Nat × List Char)
  | 0, value, cs => some (value, cs)
  | _ + 1, _, [] => none
  | n + 1, value, c :: cs => (hexValue? c).bind fun d => hexNumber n (value * 16 + d) cs

/-- The character whose code is written with `n` hexadecimal digits. -/
def hexChar (n : Nat) (cs : List Char) : Except Error (Char × List Char) :=
  match hexNumber n 0 cs with
  | none => .error .unknownEscape
  | some (value, rest) =>
    if (0xD800 ≤ value ∧ value ≤ 0xDFFF) ∨ 0x10FFFF < value then .error .invalidCodePoint
    else .ok (Char.ofNat value, rest)

/-- The escapes of a double-quoted scalar that stand for one fixed character. -/
def simpleEscape? : Char → Option Char
  | '0' => some '\x00'
  | 'a' => some '\x07'
  | 'b' => some '\x08'
  | 't' => some '\t'
  | '\t' => some '\t'
  | 'n' => some '\n'
  | 'v' => some '\x0b'
  | 'f' => some '\x0c'
  | 'r' => some '\r'
  | 'e' => some '\x1b'
  | ' ' => some ' '
  | '"' => some '"'
  | '/' => some '/'
  | '\\' => some '\\'
  | 'N' => some '\u0085'
  | '_' => some '\u00a0'
  | 'L' => some '\u2028'
  | 'P' => some '\u2029'
  | _ => none

/-- Reads what follows the backslash of an escape. -/
def escape : List Char → Except Error (Char × List Char)
  | [] => .error .unknownEscape
  | c :: cs =>
    match simpleEscape? c with
    | some x => .ok (x, cs)
    | none =>
      if c = 'x' then hexChar 2 cs
      else if c = 'u' then hexChar 4 cs
      else if c = 'U' then hexChar 8 cs
      else .error .unknownEscape

theorem hexNumber_length {n value : Nat} {cs rest : List Char} {v : Nat}
    (h : hexNumber n value cs = some (v, rest)) : rest.length ≤ cs.length := by
  induction n generalizing value cs with
  | zero => simp only [hexNumber, Option.some.injEq, Prod.mk.injEq] at h; simp [h.2]
  | succ n ih =>
    cases cs with
    | nil => simp [hexNumber] at h
    | cons c cs =>
      simp only [hexNumber, Option.bind_eq_some_iff] at h
      obtain ⟨d, -, h⟩ := h
      have := ih h
      simp
      omega

theorem hexChar_length {n : Nat} {cs rest : List Char} {x : Char}
    (h : hexChar n cs = .ok (x, rest)) : rest.length ≤ cs.length := by
  unfold hexChar at h
  split at h
  · simp at h
  · rename_i hn
    split at h
    · simp at h
    · simp only [Except.ok.injEq, Prod.mk.injEq] at h
      have := hexNumber_length hn
      simpa [h.2] using this

theorem escape_length {cs rest : List Char} {x : Char} (h : escape cs = .ok (x, rest)) :
    rest.length < cs.length := by
  unfold escape at h
  split at h
  · simp at h
  · split at h
    · simp only [Except.ok.injEq, Prod.mk.injEq] at h
      simp [h.2]
    · simp only [List.length_cons]
      split at h
      · have := hexChar_length h; omega
      · split at h
        · have := hexChar_length h; omega
        · split at h
          · have := hexChar_length h; omega
          · simp at h

/-- Puts text, or its octets, in front of what was read. -/
def prepend {α : Type} (text : List α) :
    Except Error (List α × List Char) → Except Error (List α × List Char)
  | .ok (scalar, rest) => .ok (text ++ scalar, rest)
  | .error e => .error e

/-- Reads a quoted scalar after its opening quote. `fresh` says that no character of the line has
been read, and `gap` holds the blanks before the next character. -/
def quoted (double fresh : Bool) (gap : Gap) : List Char → Except Error (List Char × List Char)
  | [] => .error .unclosedQuote
  | c :: cs =>
    if isWhite c then quoted double false (gap.addWhite c) cs
    else
      match _ : takeBreak (c :: cs) with
      | some (b, rest) => quoted double true (gap.addBreak b) rest
      | none =>
        if fresh && atDocumentMark (c :: cs) then .error .documentMarkInQuotes
        else if double then
          if c = '"' then .ok (gap.text, cs)
          else if c = '\\' then
            match _ : takeBreak cs with
            | some (_, rest) => prepend gap.text (quoted double true (.breaks [] []) rest)
            | none =>
              match _ : escape cs with
              | .error e => .error e
              | .ok (x, rest) => prepend (gap.text ++ [x]) (quoted double false .none rest)
          else prepend (gap.text ++ [c]) (quoted double false .none cs)
        else if c = '\x27' then
          if cs.head? = some '\x27' then
            prepend (gap.text ++ ['\x27']) (quoted double false .none (cs.drop 1))
          else .ok (gap.text, cs)
        else prepend (gap.text ++ [c]) (quoted double false .none cs)
termination_by cs => cs.length
decreasing_by
  · simp
  · exact takeBreak_length ‹_›
  · have := takeBreak_length ‹takeBreak cs = some _›
    simp only [List.length_cons]
    omega
  · have := escape_length ‹escape cs = _›
    simp only [List.length_cons]
    omega
  · simp
  · simp only [List.length_cons, List.length_drop]
    omega
  · simp

/-- A plain scalar that was read: its text, what follows it, and whether it ended at the start of
a later line. -/
structure Plain where
  text : List Char
  rest : List Char
  broken : Bool

/-- Puts text in front of a plain scalar that was read. -/
def Plain.prepend (text : List Char) : Except Error Plain → Except Error Plain
  | .ok p => .ok { p with text := text ++ p.text }
  | .error e => .error e

/-- The characters that structure a flow collection. -/
def isFlowIndicator (c : Char) : Bool :=
  c == ',' || c == '[' || c == ']' || c == '\x7b' || c == '\x7d'

/-- Whether a character after a colon makes the colon a fault inside a flow collection. -/
def forbidsColon : List Char → Bool
  | [] => false
  | c :: _ => isFlowIndicator c || c == '?'

/-- Whether a plain scalar ends before the text `c :: cs`, which follows the blanks `gap` and
starts at column `col`. -/
def plainStops (flow : Bool) (indent col : Nat) (gap : Gap) (c : Char) (cs : List Char) : Bool :=
  (!gap.isNone && (c == '#' || (col == 0 && atDocumentMark (c :: cs)))) ||
    (gap.isBroken && !flow && col < indent)

/-- Whether a character ends a plain scalar as an indicator. -/
def plainIndicator (flow : Bool) (c : Char) (cs : List Char) : Bool :=
  (c == ':' && atGap cs) || (flow && isFlowIndicator c)

/-- Reads a plain scalar after its first character. `col` is the column of the next character,
`gap` holds the blanks before it, and a later line must be indented by `indent` columns, inside a
flow collection apart. -/
def plain (flow : Bool) (indent col : Nat) (gap : Gap) : List Char → Except Error Plain
  | [] => .ok ⟨[], [], gap.isBroken⟩
  | c :: cs =>
    if isWhite c then
      if c == '\t' && gap.isBroken && col < indent then .error .tabIndentation
      else plain flow indent (col + 1) (gap.addWhite c) cs
    else
      match _ : takeBreak (c :: cs) with
      | some (b, rest) => plain flow indent 0 (gap.addBreak b) rest
      | none =>
        if plainStops flow indent col gap c cs then .ok ⟨[], c :: cs, gap.isBroken⟩
        else if flow && c == ':' && forbidsColon cs then .error .unexpectedColon
        else if plainIndicator flow c cs then .ok ⟨[], c :: cs, gap.isBroken⟩
        else Plain.prepend (gap.text ++ [c]) (plain flow indent (col + 1) .none cs)
termination_by cs => cs.length
decreasing_by
  · simp
  · exact takeBreak_length ‹_›
  · simp

theorem Plain.prepend_eq_ok {text : List Char} {r : Except Error Plain} {p : Plain}
    (h : Plain.prepend text r = .ok p) : ∃ q, r = .ok q ∧ p.rest = q.rest := by
  cases r with
  | error e => simp [Plain.prepend] at h
  | ok q => exact ⟨q, rfl, by cases h; rfl⟩

theorem prepend_eq_ok {α : Type} {text scalar : List α} {rest : List Char}
    {r : Except Error (List α × List Char)} (h : prepend text r = .ok (scalar, rest)) :
    ∃ u, r = .ok (u, rest) := by
  cases r with
  | error e => simp [prepend] at h
  | ok q => exact ⟨q.1, by cases h; rfl⟩

theorem plain_length {flow : Bool} {indent col : Nat} {gap : Gap} {cs : List Char} {p : Plain}
    (h : plain flow indent col gap cs = .ok p) : p.rest.length ≤ cs.length := by
  fun_induction plain flow indent col gap cs generalizing p with
  | case1 => cases h; simp
  | case2 => cases h
  | case3 _ _ _ _ _ _ ih => have := ih h; simp; omega
  | case4 _ _ _ _ _ _ _ hb ih => have := ih h; have := takeBreak_length hb; omega
  | case5 => cases h; simp
  | case6 => cases h
  | case7 => cases h; simp
  | case8 _ _ _ _ _ _ _ _ _ ih =>
    obtain ⟨q, hq, hr⟩ := Plain.prepend_eq_ok h
    have := ih hq
    simp only [hr, List.length_cons]
    omega

theorem quoted_length {double fresh : Bool} {gap : Gap} {cs text rest : List Char}
    (h : quoted double fresh gap cs = .ok (text, rest)) : rest.length < cs.length := by
  fun_induction quoted double fresh gap cs generalizing text with
  | case1 => cases h
  | case2 _ _ _ _ _ ih => have := ih h; simp; omega
  | case3 _ _ _ _ _ _ _ hb ih => have := ih h; have := takeBreak_length hb; omega
  | case4 => cases h
  | case5 => cases h; simp
  | case6 =>
    rename_i ih
    obtain ⟨_, hu⟩ := prepend_eq_ok h
    have := ih hu
    have := takeBreak_length ‹takeBreak _ = some _›
    simp
    omega
  | case7 => cases h
  | case8 =>
    rename_i ih
    obtain ⟨_, hu⟩ := prepend_eq_ok h
    have := ih hu
    have := escape_length ‹escape _ = .ok _›
    simp
    omega
  | case9 =>
    rename_i ih
    obtain ⟨_, hu⟩ := prepend_eq_ok h
    have := ih hu
    simp
    omega
  | case10 =>
    rename_i ih
    obtain ⟨_, hu⟩ := prepend_eq_ok h
    have := ih hu
    simp only [List.length_drop] at this
    simp only [List.length_cons]
    omega
  | case11 => cases h; simp
  | case12 =>
    rename_i ih
    obtain ⟨_, hu⟩ := prepend_eq_ok h
    have := ih hu
    simp
    omega

end DiagramTint.Yaml.Scalar
