import DiagramTint.Yaml.Token

/-!
# Reading lexemes

Which lexeme stands at a character, decided by the character, what follows it and where it stands.
-/

namespace DiagramTint.Yaml.Lexeme

/-- What the surroundings say about a place: whether it lies in a flow collection, its column, and
one more than the column of the block collection around it, 0 if there is none. -/
structure Place where
  flow : Bool
  column : Nat
  outer : Nat

/-- The value of a version directive. -/
def version? (cs : List Char) : Option (Token × List Char) :=
  match number? cs with
  | some (major, '.' :: rest) =>
    (number? rest).map fun (minor, after) => (.version major minor, after)
  | _ => none

/-- The handle of a tag directive: `!`, `!!` or `!name!`. -/
def handle? (cs : List Char) : Option (List Char × List Char) :=
  match cs with
  | '!' :: rest =>
    let name := rest.takeWhile isNameChar
    match rest.dropWhile isNameChar with
    | '!' :: after => some ('!' :: name ++ ['!'], after)
    | after => if name.isEmpty then some (['!'], after) else none
  | _ => none

/-- The value of a tag directive: a handle and, after blanks, the text it stands for. -/
def tagHandle? (cs : List Char) : Option (Token × List Char) :=
  match handle? cs with
  | none => none
  | some (handle, rest) =>
    if (rest.head?.map isWhite).getD false then
      match tagText true (rest.dropWhile isWhite) with
      | .error _ => none
      | .ok (text, after) =>
        if text.isEmpty || !atGap after then none
        else some (.tagHandle (String.ofList handle) (beforeZero text), after)
    else none

/-- Reads a directive after its `%`, to the end of its line. -/
def readDirective (cs : List Char) : Except Error (Token × List Char) :=
  let name := cs.takeWhile isNameChar
  let rest := cs.dropWhile isNameChar
  let value :=
    if !atGap rest then none
    else if name = "YAML".toList then version? (rest.dropWhile isWhite)
    else if name = "TAG".toList then tagHandle? (rest.dropWhile isWhite)
    else none
  match value with
  | none => .error .invalidDirective
  | some (token, after) =>
    match Scalar.lineEnd after with
    | none => .error .invalidDirective
    | some next => .ok (token, next)

/-- The characters that no plain scalar starts with. -/
def isIndicator (c : Char) : Bool :=
  "-?:,[]\x7b\x7d#&*!|>'\"%@`".toList.contains c

/-- Whether a plain scalar starts at `c`. -/
def startsPlain (flow : Bool) (c : Char) (cs : List Char) : Bool :=
  !(isWhite c || isBreak c || isIndicator c) || (c == '-' && !(cs.head?.map isWhite).getD false) ||
    (!flow && (c == '?' || c == ':') && !atGap cs)

/-- Reads the plain scalar that starts at `c`. -/
def readPlain (p : Place) (c : Char) (cs : List Char) : Except Error (Lexeme × List Char) :=
  if startsPlain p.flow c cs then
    match Scalar.plain p.flow p.outer (p.column + 1) .none cs with
    | .error e => .error e
    | .ok r => .ok (.plain (c :: r.text) r.broken, r.rest)
  else .error .unexpectedCharacter

/-- Makes a lexeme of what was read. -/
def wrap {α : Type} (f : α → Lexeme) : Except Error (α × List Char) →
    Except Error (Lexeme × List Char)
  | .error e => .error e
  | .ok (x, rest) => .ok (f x, rest)

/-- The lexeme of a character that is an indicator by itself. -/
def mark? (p : Place) (c : Char) (cs : List Char) : Option Lexeme :=
  match c with
  | '[' => some (.flowOpen .flowSequenceStart)
  | '\x7b' => some (.flowOpen .flowMappingStart)
  | ']' => some (.flowClose .flowSequenceEnd)
  | '\x7d' => some (.flowClose .flowMappingEnd)
  | ',' => some .comma
  | '-' => if atGap cs then some .dash else none
  | '?' => if p.flow || atGap cs then some .question else none
  | ':' => if p.flow || atGap cs then some .colon else none
  | _ => none

/-- Reads a name, a tag or a scalar. -/
def readItem (p : Place) (c : Char) (cs : List Char) : Except Error (Lexeme × List Char) :=
  if c = '*' then wrap (fun n => .item (.alias n)) (name cs)
  else if c = '&' then wrap (fun n => .item (.anchor n)) (name cs)
  else if c = '!' then wrap .item (tag p.flow cs)
  else if (c = '|' || c = '>') && !p.flow then wrap .block (Scalar.block (c = '>') p.outer cs)
  else if c = '\x27' || c = '"' then
    wrap (fun text => .item (.scalar .quoted text)) (Scalar.quoted (c = '"') false .none cs)
  else readPlain p c cs

/-- The lexeme at the character `c`, which is no blank, and what follows it. -/
def read (p : Place) (c : Char) (cs : List Char) : Except Error (Lexeme × List Char) :=
  if p.column = 0 && c = '%' then wrap .directive (readDirective cs)
  else if p.column = 0 && atDocumentMark (c :: cs) then
    .ok (.documentMark (if c = '-' then .documentStart else .documentEnd), cs.drop 2)
  else
    match mark? p c cs with
    | some l => .ok (l, cs)
    | none => readItem p c cs

theorem wrap_eq_ok {α : Type} {f : α → Lexeme} {r : Except Error (α × List Char)} {l : Lexeme}
    {rest : List Char} (h : wrap f r = .ok (l, rest)) : ∃ x, r = .ok (x, rest) := by
  cases r with
  | error e => cases h
  | ok q => exact ⟨q.1, by cases h; rfl⟩

theorem name_length {cs rest : List Char} {n : String} (h : name cs = .ok (n, rest)) :
    rest.length ≤ cs.length := by
  have : (cs.dropWhile isNameChar).length ≤ cs.length := (List.dropWhile_suffix _).length_le
  simp only [name] at h
  split at h
  · cases h
  · cases h; exact this

theorem number?_length {cs rest : List Char} {n : Nat} (h : number? cs = some (n, rest)) :
    rest.length ≤ cs.length := by
  have : (cs.dropWhile Char.isDigit).length ≤ cs.length := (List.dropWhile_suffix _).length_le
  simp only [number?] at h
  split at h
  · cases h
  · cases h; exact this

theorem version?_length {cs rest : List Char} {t : Token} (h : version? cs = some (t, rest)) :
    rest.length ≤ cs.length := by
  unfold version? at h
  split at h
  · rename_i hm
    have := number?_length hm
    rw [Option.map_eq_some_iff] at h
    obtain ⟨⟨minor, after⟩, hn, h⟩ := h
    have := number?_length hn
    simp only [Prod.mk.injEq] at h
    simp [← h.2] at *
    omega
  · cases h

theorem handle?_length {cs handle rest : List Char} (h : handle? cs = some (handle, rest)) :
    rest.length ≤ cs.length := by
  unfold handle? at h
  split at h
  · rename_i tail
    have : (tail.dropWhile isNameChar).length ≤ tail.length := (List.dropWhile_suffix _).length_le
    simp only at h
    split at h
    · rename_i heq
      cases h
      rw [heq] at this
      simp at this ⊢
      omega
    · split at h
      · cases h
        simp
        omega
      · cases h
  · cases h

theorem tagHandle?_length {cs rest : List Char} {t : Token} (h : tagHandle? cs = some (t, rest)) :
    rest.length ≤ cs.length := by
  unfold tagHandle? at h
  split at h
  · cases h
  · rename_i tail hh
    have := handle?_length hh
    have : (tail.dropWhile isWhite).length ≤ tail.length := (List.dropWhile_suffix _).length_le
    split at h
    · split at h
      · cases h
      · rename_i ht
        have := tagText_length ht
        split at h
        · cases h
        · cases h
          omega
    · cases h

theorem readDirective_length {cs rest : List Char} {t : Token}
    (h : readDirective cs = .ok (t, rest)) : rest.length ≤ cs.length := by
  have h₁ : (cs.dropWhile isNameChar).length ≤ cs.length := (List.dropWhile_suffix _).length_le
  have h₂ : ((cs.dropWhile isNameChar).dropWhile isWhite).length
      ≤ (cs.dropWhile isNameChar).length := (List.dropWhile_suffix _).length_le
  simp only [readDirective] at h
  split at h
  · cases h
  · rename_i hv
    split at h
    · cases h
    · rename_i hl
      have := Scalar.lineEnd_length hl
      cases h
      split at hv
      · cases hv
      · split at hv
        · have := version?_length hv
          omega
        · split at hv
          · have := tagHandle?_length hv
            omega
          · cases hv

theorem readPlain_length {p : Place} {c : Char} {cs rest : List Char} {l : Lexeme}
    (h : readPlain p c cs = .ok (l, rest)) : rest.length ≤ cs.length := by
  unfold readPlain at h
  split at h
  · split at h
    · cases h
    · rename_i hp
      have := Scalar.plain_length hp
      cases h
      exact this
  · cases h

theorem readItem_length {p : Place} {c : Char} {cs rest : List Char} {l : Lexeme}
    (h : readItem p c cs = .ok (l, rest)) : rest.length ≤ cs.length := by
  unfold readItem at h
  split at h
  · obtain ⟨_, h⟩ := wrap_eq_ok h
    exact name_length h
  split at h
  · obtain ⟨_, h⟩ := wrap_eq_ok h
    exact name_length h
  split at h
  · obtain ⟨_, h⟩ := wrap_eq_ok h
    exact tag_length h
  split at h
  · obtain ⟨_, h⟩ := wrap_eq_ok h
    exact Scalar.block_length h
  split at h
  · obtain ⟨_, h⟩ := wrap_eq_ok h
    exact Nat.le_of_lt (Scalar.quoted_length h)
  · exact readPlain_length h

theorem read_length {p : Place} {c : Char} {cs rest : List Char} {l : Lexeme}
    (h : read p c cs = .ok (l, rest)) : rest.length ≤ cs.length := by
  unfold read at h
  split at h
  · obtain ⟨_, h⟩ := wrap_eq_ok h
    exact readDirective_length h
  split at h
  · cases h
    simp
  split at h
  · cases h
    simp
  · exact readItem_length h

end DiagramTint.Yaml.Lexeme
