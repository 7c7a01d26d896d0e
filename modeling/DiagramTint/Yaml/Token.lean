import DiagramTint.Yaml.Scalar.Block

/-!
# Lexemes and tokens of YAML

A lexeme is what stands at a place of the text: an indicator, a scalar, a name. Tokens are lexemes
put into structure: block collections get a start and an end from their indentation, and keys are
marked as such. Tags are octets, because an escape in a tag stands for an octet and nothing makes
the octets of a tag the UTF-8 form of a text.
-/

namespace DiagramTint.Yaml

/-- How a scalar is written, as far as its meaning depends on it. -/
inductive Style where
  | plain
  | quoted
deriving DecidableEq, Inhabited

inductive Token where
  | version (major minor : Nat)
  | tagHandle (handle : String) (expansion : List UInt8)
  | documentStart
  | documentEnd
  | blockSequenceStart
  | blockMappingStart
  | blockEnd
  | flowSequenceStart
  | flowSequenceEnd
  | flowMappingStart
  | flowMappingEnd
  | blockEntry
  | flowEntry
  | key
  | value
  | alias (name : String)
  | anchor (name : String)
  | tag (handle : String) (suffix : List UInt8)
  | scalar (style : Style) (text : List Char)
deriving DecidableEq

/-- What stands at a place of the text. -/
inductive Lexeme where
  /-- A directive, which is complete as a token. -/
  | directive (token : Token)
  /-- A document mark, which is complete as a token. -/
  | documentMark (token : Token)
  | flowOpen (token : Token)
  | flowClose (token : Token)
  | comma
  | dash
  | question
  | colon
  /-- A name, a tag or a quoted scalar. -/
  | item (token : Token)
  /-- A plain scalar, and whether it ended at the start of a later line. -/
  | plain (text : List Char) (broken : Bool)
  | block (text : List Char)

namespace Lexeme

/-- The decimal number at the start of a text, of one to nine digits. -/
def number? (cs : List Char) : Option (Nat × List Char) :=
  let digits := cs.takeWhile Char.isDigit
  if digits.isEmpty || 9 < digits.length then none
  else
    let value := digits.foldl (fun n d => 10 * n + (d.toNat - '0'.toNat)) 0
    some (value, cs.dropWhile Char.isDigit)

/-- Whether the name of an anchor or alias may end here. -/
def nameEnds : List Char → Bool
  | [] => true
  | c :: _ => isWhite c || isBreak c || "?:,]\x7d%@`".toList.contains c

/-- The name of an anchor or alias and what follows it. -/
def name (cs : List Char) : Except Error (String × List Char) :=
  let text := cs.takeWhile isNameChar
  let rest := cs.dropWhile isNameChar
  if text.isEmpty || !nameEnds rest then .error .invalidName else .ok (String.ofList text, rest)

/-- The characters of a tag other than `%`; `verbatim` admits some flow indicators too. -/
def isTagChar (verbatim : Bool) (c : Char) : Bool :=
  isNameChar c || ";/?:@&=+$.!~*'()".toList.contains c || (verbatim && ",[]".toList.contains c)

/-- One octet written as `%` and two hexadecimal digits. -/
def octet? : List Char → Option (Nat × List Char)
  | '%' :: cs => Scalar.hexNumber 2 0 cs
  | _ => none

/-- Reads the `n` octets that continue a character. -/
def octets? : Nat → List Char → Option (List UInt8 × List Char)
  | 0, cs => some ([], cs)
  | n + 1, cs =>
    match octet? cs with
    | none => none
    | some (o, rest) =>
      if o / 64 = 2 then (octets? n rest).map fun (os, after) => (UInt8.ofNat o :: os, after)
      else none

/-- How many octets continue a character that starts with this one. -/
def continuing? (o : Nat) : Option Nat :=
  if o < 0x80 then some 0
  else if o / 32 = 6 then some 1
  else if o / 16 = 14 then some 2
  else if o / 8 = 30 then some 3
  else none

/-- The octets of one escaped character. They are grouped as in UTF-8, and whether they stand for
a code point does not matter. -/
def escapedChar? (cs : List Char) : Option (List UInt8 × List Char) :=
  match octet? cs with
  | none => none
  | some (o, rest) =>
    match continuing? o with
    | none => none
    | some n => (octets? n rest).map fun (os, after) => (UInt8.ofNat o :: os, after)

theorem octet?_length {cs rest : List Char} {o : Nat} (h : octet? cs = some (o, rest)) :
    rest.length < cs.length := by
  unfold octet? at h
  split at h
  · have := Scalar.hexNumber_length h
    simp
    omega
  · cases h

theorem octets?_length {n : Nat} {cs rest : List Char} {os : List UInt8}
    (h : octets? n cs = some (os, rest)) : rest.length ≤ cs.length := by
  induction n generalizing cs rest os with
  | zero => cases h; simp
  | succ n ih =>
    unfold octets? at h
    split at h
    · cases h
    · rename_i ho
      have := octet?_length ho
      split at h
      · rw [Option.map_eq_some_iff] at h
        obtain ⟨⟨_, after⟩, hs, h⟩ := h
        have := ih hs
        simp only [Prod.mk.injEq] at h
        rw [← h.2]
        omega
      · cases h

theorem escapedChar?_length {cs rest : List Char} {os : List UInt8}
    (h : escapedChar? cs = some (os, rest)) : rest.length < cs.length := by
  unfold escapedChar? at h
  split at h
  · cases h
  · rename_i ho
    have := octet?_length ho
    split at h
    · cases h
    · rw [Option.map_eq_some_iff] at h
      obtain ⟨⟨_, after⟩, hs, h⟩ := h
      have := octets?_length hs
      simp only [Prod.mk.injEq] at h
      rw [← h.2]
      omega

/-- The octets of a tag, as far as it goes, and what follows it. -/
def tagText (verbatim : Bool) : List Char → Except Error (List UInt8 × List Char)
  | [] => .ok ([], [])
  | c :: cs =>
    if c = '%' then
      match _ : escapedChar? (c :: cs) with
      | none => .error .invalidTag
      | some (os, rest) => Scalar.prepend os (tagText verbatim rest)
    else if isTagChar verbatim c then Scalar.prepend [c.toUInt8] (tagText verbatim cs)
    else .ok ([], c :: cs)
termination_by cs => cs.length
decreasing_by
  · exact escapedChar?_length ‹_›
  · simp

theorem tagText_length {verbatim : Bool} {cs rest : List Char} {text : List UInt8}
    (h : tagText verbatim cs = .ok (text, rest)) : rest.length ≤ cs.length := by
  fun_induction tagText verbatim cs generalizing text with
  | case1 => cases h; simp
  | case2 => cases h
  | case3 =>
    rename_i hx ih
    obtain ⟨_, hu⟩ := Scalar.prepend_eq_ok h
    have := ih hu
    have := escapedChar?_length hx
    omega
  | case4 =>
    rename_i ih
    obtain ⟨_, hu⟩ := Scalar.prepend_eq_ok h
    have := ih hu
    simp
    omega
  | case5 => cases h; simp

/-- A tag reaches as far as its first zero octet. -/
def beforeZero (text : List UInt8) : List UInt8 :=
  text.takeWhile (· ≠ 0)

/-- Whether a tag may end here: at a gap, or at a comma inside a flow collection. -/
def tagEnds (flow : Bool) (cs : List Char) : Bool :=
  atGap cs || (flow && cs.head? = some ',')

/-- Reads a tag after its `!`: `!<text>`, or a handle, which is `!`, `!!` or `!name!`, and a
suffix. A `!` alone has the empty handle and the suffix `!`. -/
def tag (flow : Bool) (cs : List Char) : Except Error (Token × List Char) :=
  let read : Except Error (Token × List Char) :=
    match cs with
    | '<' :: rest =>
      match tagText true rest with
      | .error e => .error e
      | .ok (text, after) =>
        match after with
        | '>' :: after => if text.isEmpty then .error .invalidTag
                          else .ok (.tag "" (beforeZero text), after)
        | _ => .error .invalidTag
    | _ =>
      let handle := cs.takeWhile isNameChar
      match cs.dropWhile isNameChar with
      | '!' :: rest =>
        match tagText false rest with
        | .error e => .error e
        | .ok (text, after) =>
          if text.isEmpty then .error .invalidTag
          else .ok (.tag (String.ofList ('!' :: handle ++ ['!'])) (beforeZero text), after)
      | rest =>
        match tagText false rest with
        | .error e => .error e
        | .ok (text, after) =>
          let suffix := beforeZero (handle.map Char.toUInt8 ++ text)
          if suffix.isEmpty then .ok (.tag "" ['!'.toUInt8], after)
          else .ok (.tag "!" suffix, after)
  match read with
  | .error e => .error e
  | .ok (token, after) =>
    if tagEnds flow after then .ok (token, after) else .error .invalidTag

theorem tag_length {flow : Bool} {cs rest : List Char} {token : Token}
    (h : tag flow cs = .ok (token, rest)) : rest.length ≤ cs.length := by
  have hd : (cs.dropWhile isNameChar).length ≤ cs.length := (List.dropWhile_suffix _).length_le
  simp only [tag] at h
  split at h
  · cases h
  · rename_i hr
    split at h
    · cases h
      split at hr
      · split at hr
        · cases hr
        · rename_i ht
          have := tagText_length ht
          split at hr
          · split at hr
            · cases hr
            · cases hr
              simp at this ⊢
              omega
          · cases hr
      · split at hr
        · rename_i heq
          rw [heq] at hd
          split at hr
          · cases hr
          · rename_i ht
            have := tagText_length ht
            split at hr
            · cases hr
            · cases hr
              simp at hd
              omega
        · rename_i heq
          split at hr
          · cases hr
          · rename_i ht
            have := tagText_length ht
            split at hr <;> cases hr <;> omega
    · cases h

end Lexeme

end DiagramTint.Yaml
