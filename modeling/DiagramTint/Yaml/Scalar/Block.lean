import DiagramTint.Yaml.Scalar.Flow

/-!
# Block scalars

Reading literal and folded scalars: a header line, then the lines that are indented further than
what surrounds them.
-/

namespace DiagramTint.Yaml.Scalar

/-- What becomes of the line breaks at the end of a block scalar: none, one or all are kept. -/
inductive Chomping where
  | strip
  | clip
  | keep
deriving DecidableEq

/-- The chomping that an indicator stands for. -/
def chomping? : Char → Option Chomping
  | '+' => some .keep
  | '-' => some .strip
  | _ => none

/-- The indentation that a digit other than `0` asks for. -/
def increment? (c : Char) : Option Nat :=
  if '1' ≤ c ∧ c ≤ '9' then some (c.toNat - '0'.toNat) else none

/-- The indicators in the header of a block scalar and what follows them. Without an indentation
indicator the increment is 0. -/
structure BlockHeader where
  chomping : Chomping
  increment : Nat
  rest : List Char

/-- Reads the chomping and the indentation indicators of a header, in either order. -/
def blockHeader (cs : List Char) : BlockHeader :=
  match cs with
  | [] => ⟨.clip, 0, []⟩
  | c :: rest =>
    match chomping? c with
    | some chomping =>
      match rest with
      | [] => ⟨chomping, 0, []⟩
      | d :: rest' =>
        match increment? d with
        | some n => ⟨chomping, n, rest'⟩
        | none => ⟨chomping, 0, rest⟩
    | none =>
      match increment? c with
      | none => ⟨.clip, 0, cs⟩
      | some n =>
        match rest with
        | [] => ⟨.clip, n, []⟩
        | d :: rest' =>
          match chomping? d with
          | some chomping => ⟨chomping, n, rest'⟩
          | none => ⟨.clip, n, rest⟩

/-- Skips blanks, a comment and the line break that end a line; anything else is a fault. -/
def lineEnd (cs : List Char) : Option (List Char) :=
  let rest := cs.dropWhile isWhite
  let rest := if rest.head? = some '#' then rest.dropWhile fun c => !isBreak c else rest
  match takeBreak rest with
  | some (_, after) => some after
  | none => if rest.isEmpty then some [] else none

/-- Skips empty lines and the spaces in front of the next line that is not empty, which must be
indented by `indent` columns to count as content. Gives the skipped breaks, the column that was
reached and what follows. -/
def blockBreaks (indent col : Nat) : List Char → Except Error (List Char × Nat × List Char)
  | [] => .ok ([], col, [])
  | c :: cs =>
    if c = ' ' ∧ col < indent then blockBreaks indent (col + 1) cs
    else if c = '\t' ∧ col < indent then .error .tabIndentation
    else
      match _ : takeBreak (c :: cs) with
      | none => .ok ([], col, c :: cs)
      | some (b, rest) =>
        match blockBreaks indent 0 rest with
        | .error e => .error e
        | .ok (breaks, col, after) => .ok (b ++ breaks, col, after)
termination_by cs => cs.length
decreasing_by
  · simp
  · exact takeBreak_length ‹_›

/-- As `blockBreaks`, where the indentation is not known yet: skips all spaces, and gives as well
the widest indentation seen, which is at least `widest`. -/
def leadingBreaks (widest col : Nat) : List Char → Except Error (List Char × Nat × Nat × List Char)
  | [] => .ok ([], max widest col, col, [])
  | c :: cs =>
    if c = ' ' then leadingBreaks widest (col + 1) cs
    else if c = '\t' then .error .tabIndentation
    else
      match _ : takeBreak (c :: cs) with
      | none => .ok ([], max widest col, col, c :: cs)
      | some (b, rest) =>
        match leadingBreaks (max widest col) 0 rest with
        | .error e => .error e
        | .ok (breaks, found, col, after) => .ok (b ++ breaks, found, col, after)
termination_by cs => cs.length
decreasing_by
  · simp
  · exact takeBreak_length ‹_›

theorem blockBreaks_length {indent col col' : Nat} {cs breaks rest : List Char}
    (h : blockBreaks indent col cs = .ok (breaks, col', rest)) : rest.length ≤ cs.length := by
  fun_induction blockBreaks indent col cs generalizing breaks col' with
  | case1 => cases h; simp
  | case2 _ _ _ _ ih => have := ih h; simp; omega
  | case3 => cases h
  | case4 => cases h; simp
  | case5 => cases h
  | case6 =>
    rename_i heq ih
    cases h
    have := ih heq
    have := takeBreak_length ‹takeBreak _ = some _›
    omega

/-- A line, the break that ends it and what follows. -/
structure BlockLine where
  text : List Char
  lead : List Char
  rest : List Char

/-- The first line of a text. -/
def takeLine (cs : List Char) : BlockLine :=
  match takeBreak (cs.dropWhile fun c => !isBreak c) with
  | some (b, after) => ⟨cs.takeWhile (fun c => !isBreak c), b, after⟩
  | none => ⟨cs.takeWhile (fun c => !isBreak c), [], []⟩

theorem takeLine_length (c : Char) (cs : List Char) :
    (takeLine (c :: cs)).rest.length < (c :: cs).length := by
  unfold takeLine
  split
  · rename_i b after h
    have h₁ := takeBreak_length h
    have h₂ : ((c :: cs).dropWhile fun c => !isBreak c).length ≤ (c :: cs).length :=
      (List.dropWhile_suffix _).length_le
    simp only
    omega
  · simp

/-- The text between two lines of content: of a break and the empty lines after it, a folded scalar
keeps only the empty lines, or a space where there are none, unless one of the two lines starts with
a blank. -/
def blockGlue (folded blankBefore blankAfter : Bool) (lead breaks : List Char) : List Char :=
  if folded && lead.head? = some '\n' && !blankBefore && !blankAfter then
    if breaks.isEmpty then [' '] else breaks
  else lead ++ breaks

/-- What a block scalar keeps of the break `lead` after its last line and of the empty lines after
that. -/
def Chomping.apply (c : Chomping) (lead breaks : List Char) : List Char :=
  match c with
  | .strip => []
  | .clip => lead
  | .keep => lead ++ breaks

/-- Reads the lines of a block scalar. `lead` is the break after the line before, `breaks` stands
for the empty lines after it, `blank` says whether that line starts with a blank, and `col` is the
column that the indentation of the next line reaches. -/
def blockLines (folded : Bool) (chomping : Chomping) (indent : Nat) (blank : Bool)
    (lead breaks : List Char) (col : Nat) : List Char → Except Error (List Char × List Char)
  | [] => .ok (chomping.apply lead breaks, [])
  | c :: cs =>
    if col = indent then
      match _ : blockBreaks indent 0 (takeLine (c :: cs)).rest with
      | .error e => .error e
      | .ok (next, col', rest) =>
        prepend (blockGlue folded blank (isWhite c) lead breaks ++ (takeLine (c :: cs)).text)
          (blockLines folded chomping indent (isWhite c) (takeLine (c :: cs)).lead next col' rest)
    else .ok (chomping.apply lead breaks, c :: cs)
termination_by cs => cs.length
decreasing_by
  have := blockBreaks_length ‹_›
  have := takeLine_length c cs
  omega

/-- Reads a block scalar after its first indicator. `outer` is one more than the column that the
surrounding collection is indented to, 0 if there is none. -/
def block (folded : Bool) (outer : Nat) (cs : List Char) :
    Except Error (List Char × List Char) :=
  let header := blockHeader cs
  match lineEnd header.rest with
  | none => .error .invalidBlockHeader
  | some body =>
    if header.increment = 0 then
      match leadingBreaks 0 0 body with
      | .error e => .error e
      | .ok (breaks, widest, col, rest) =>
        blockLines folded header.chomping (max (max widest outer) 1) false [] breaks col rest
    else
      let indent := outer - 1 + header.increment
      match blockBreaks indent 0 body with
      | .error e => .error e
      | .ok (breaks, col, rest) =>
        blockLines folded header.chomping indent false [] breaks col rest

theorem blockHeader_length (cs : List Char) : (blockHeader cs).rest.length ≤ cs.length := by
  unfold blockHeader
  repeat' split
  all_goals simp
  all_goals omega

theorem lineEnd_length {cs rest : List Char} (h : lineEnd cs = some rest) :
    rest.length ≤ cs.length := by
  have h₁ : (cs.dropWhile isWhite).length ≤ cs.length := (List.dropWhile_suffix _).length_le
  have h₂ : ((cs.dropWhile isWhite).dropWhile fun c => !isBreak c).length
      ≤ (cs.dropWhile isWhite).length := (List.dropWhile_suffix _).length_le
  simp only [lineEnd] at h
  split at h
  · rename_i hb
    have := takeBreak_length hb
    cases h
    split at this <;> omega
  · split at h
    all_goals split at h
    all_goals simp_all

theorem leadingBreaks_length {widest found col col' : Nat} {cs breaks rest : List Char}
    (h : leadingBreaks widest col cs = .ok (breaks, found, col', rest)) :
    rest.length ≤ cs.length := by
  fun_induction leadingBreaks widest col cs generalizing breaks found col' with
  | case1 => cases h; simp
  | case2 _ _ _ ih => have := ih h; simp; omega
  | case3 => cases h
  | case4 => cases h; simp
  | case5 => cases h
  | case6 =>
    rename_i heq ih
    cases h
    have := ih heq
    have := takeBreak_length ‹takeBreak _ = some _›
    omega

theorem blockLines_length {folded blank : Bool} {chomping : Chomping} {indent col : Nat}
    {lead breaks cs text rest : List Char}
    (h : blockLines folded chomping indent blank lead breaks col cs = .ok (text, rest)) :
    rest.length ≤ cs.length := by
  fun_induction blockLines folded chomping indent blank lead breaks col cs generalizing text with
  | case1 => cases h; simp
  | case2 => cases h
  | case3 blank lead breaks c cs next col' rest' hb ih =>
    obtain ⟨_, hu⟩ := prepend_eq_ok h
    have := ih hu
    have := blockBreaks_length hb
    have := takeLine_length c cs
    omega
  | case4 => cases h; simp

theorem block_length {folded : Bool} {outer : Nat} {cs text rest : List Char}
    (h : block folded outer cs = .ok (text, rest)) : rest.length ≤ cs.length := by
  have := blockHeader_length cs
  simp only [block] at h
  split at h
  · cases h
  · rename_i hl
    have := lineEnd_length hl
    split at h
    · split at h
      · cases h
      · rename_i hb
        have := leadingBreaks_length hb
        have := blockLines_length h
        omega
    · split at h
      · cases h
      · rename_i hb
        have := blockBreaks_length hb
        have := blockLines_length h
        omega

end DiagramTint.Yaml.Scalar
