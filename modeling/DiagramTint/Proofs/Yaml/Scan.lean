import DiagramTint.Proofs.Yaml.Lexeme
import DiagramTint.Yaml.Token.Scan

/-!
# Scanning block mappings and sequences

How a scan goes over the parts of a written mapping or sequence: blanks, names before colons, dashes
and texts.  Between two such parts nothing may turn out to be a key, so that the state of the scan
is a place, the open collections and the tokens so far.
-/

namespace DiagramTint.Yaml

/-! ## Places -/

/-- The place after more text. -/
def Position.after (p : Position) (cs : List Char) : Position :=
  cs.foldl Position.next p

theorem Position.past_append (p : Position) (cs rest : List Char) :
    p.past (cs ++ rest) rest = p.after cs := by
  simp [past, after]

theorem Position.after_append (p : Position) (cs ds : List Char) :
    p.after (cs ++ ds) = (p.after cs).after ds :=
  List.foldl_append

/-- Text without line breaks stays on its line. -/
theorem Position.after_of_not_isBreak {cs : List Char} (h : ∀ c ∈ cs, isBreak c = false)
    (p : Position) :
    (p.after cs).line = p.line ∧ (p.after cs).column = p.column + cs.length := by
  induction cs generalizing p with
  | nil => exact ⟨rfl, rfl⟩
  | cons c cs ih =>
      have hnext : p.next c = ⟨p.line, p.column + 1, p.index + c.utf8Size⟩ := by
        rw [next, if_neg (by simp [h c List.mem_cons_self])]
      obtain ⟨hline, hcolumn⟩ := ih (fun d hd => h d (List.mem_cons_of_mem c hd)) (p.next c)
      rw [hnext] at hline hcolumn
      refine ⟨?_, ?_⟩
      · rw [after, List.foldl_cons, ← after, hnext, hline]
      · rw [after, List.foldl_cons, ← after, hnext, hcolumn, List.length_cons]
        exact Nat.succ_add_eq_add_succ p.column cs.length

/-- The column after a line break and `k` spaces. -/
theorem Position.column_after_break (p : Position) (cs : List Char) {b : Char}
    (hb : isBreak b = true) (k : Nat) :
    (p.after (cs ++ b :: List.replicate k ' ')).column = k := by
  have hspaces : ∀ c ∈ List.replicate k ' ', isBreak c = false := by
    intro c hc
    rw [List.eq_of_mem_replicate hc]
    decide
  rw [after_append, after, List.foldl_cons, ← after, (after_of_not_isBreak hspaces _).2, next,
    if_pos hb, List.length_replicate, Nat.zero_add]

/-- A name is as long as it has letters. -/
theorem Lexeme.IsName.index_after {name : List Char} (h : IsName name) (p : Position) :
    (p.after name).index = p.index + name.length := by
  have hsize : letters.all (fun c => c.utf8Size == 1) = true := by decide
  have hall : ∀ c ∈ letters, c.utf8Size = 1 := by simpa using hsize
  have hletters := h.mem_letters
  clear h
  induction name generalizing p with
  | nil => rfl
  | cons c name ih =>
      have hnext : (p.next c).index = p.index + 1 := by
        rw [← hall c (hletters c List.mem_cons_self), Position.next]
        split <;> rfl
      have hrest := ih (p.next c) fun d hd => hletters d (List.mem_cons_of_mem c hd)
      rw [Position.after, List.foldl_cons, ← Position.after, hrest, hnext, List.length_cons]
      omega

namespace Scan

/-! ## One step -/

theorem run_eq (s : Scan) :
    s.run =
      match s.advance with
      | .error e => .error e
      | .ok t =>
        match t.rest with
        | [] => t.finish
        | c :: cs =>
          match Lexeme.read ⟨t.inFlow, t.position.column, t.outer⟩ c cs with
          | .error e => .error e
          | .ok (lexeme, rest) =>
            match t.place lexeme with
            | .error e => .error e
            | .ok next => run { next with rest := rest, position := t.position.past (c :: cs) rest }
    := by
  rw [run]
  split
  · rename_i hadvance
    rw [hadvance]
  · rename_i t hadvance
    simp only [hadvance]
    split
    · rename_i hrest
      rw [hrest]
    · rename_i hrest
      simp only [hrest]
      split
      · rename_i hread
        rw [hread]
      · rename_i lexeme rest hread
        cases hplace : t.place lexeme <;> simp only [hread, hplace]

/-- What a scan does is decided by the next lexeme. -/
theorem run_congr {s t : Scan} (h : s.advance = t.advance) : s.run = t.run := by
  rw [run_eq, run_eq t, h]

/-! ## Between lexemes -/

/-- A scan outside flow collections in which nothing may turn out to be a key. -/
def quiet (p : Position) (indents : List Nat) (tokens : List Token) (keyAllowed : Bool)
    (rest : List Char) : Scan :=
  { rest := rest, position := p, tokens := tokens, count := tokens.length, indents := indents,
    keyAllowed := keyAllowed }

theorem skipBlanks_solid {flow : Bool} {stretch : Stretch} (hstretch : stretch ≠ .comment)
    (keyAllowed : Bool) {rest : List Char} (hrest : Solid rest) :
    skipBlanks flow stretch keyAllowed rest = (rest, keyAllowed) := by
  cases rest with
  | nil => rfl
  | cons c cs =>
      obtain ⟨hwhite, hbreak, hcomment, hbom⟩ := solid_cons.mp hrest
      have hspace : c ≠ ' ' ∧ c ≠ '\t' := by
        rw [← Bool.not_eq_true, isWhite_iff, not_or] at hwhite
        exact hwhite
      rw [skipBlanks, if_neg (by simp [hbreak]), if_neg (by simp [hstretch, hcomment]),
        if_neg (by simp [hspace, hbom])]

theorem skipBlanks_spaces {stretch : Stretch} (hstretch : stretch ≠ .comment) (keyAllowed : Bool)
    {rest : List Char} (hrest : Solid rest) (n : Nat) :
    skipBlanks false stretch keyAllowed (List.replicate n ' ' ++ rest) = (rest, keyAllowed) := by
  induction n generalizing stretch with
  | zero => exact skipBlanks_solid hstretch keyAllowed hrest
  | succ n ih =>
      rw [List.replicate_succ, List.cons_append, skipBlanks, if_neg (by decide),
        if_neg (by simp [hstretch]), if_pos (by simp)]
      exact ih (by decide)

theorem skipBlanks_lineGap {stretch : Stretch} (keyAllowed : Bool) {rest : List Char}
    (hrest : Solid rest) (n : Nat) :
    skipBlanks false stretch keyAllowed (lineGap n ++ rest) = (rest, true) := by
  rw [lineGap, List.cons_append, skipBlanks, if_pos (by decide),
    skipBlanks_spaces (by decide) _ hrest]
  simp

/-- The blanks that a scan skips on its way to the next lexeme, and whether a key may start after
them. -/
inductive Skipped (keyAllowed : Bool) : List Char → Bool → Prop where
  | spaces (n : Nat) : Skipped keyAllowed (List.replicate n ' ') keyAllowed
  | line (n : Nat) : Skipped keyAllowed (lineGap n) true

theorem Skipped.skipBlanks_eq {keyAllowed keyAllowed' : Bool} {gap : List Char}
    (h : Skipped keyAllowed gap keyAllowed') {stretch : Stretch} (hstretch : stretch ≠ .comment)
    {rest : List Char} (hrest : Solid rest) :
    skipBlanks false stretch keyAllowed (gap ++ rest) = (rest, keyAllowed') := by
  cases h with
  | spaces n => exact skipBlanks_spaces hstretch keyAllowed hrest n
  | line n => exact skipBlanks_lineGap keyAllowed hrest n

theorem advance_eq {s t : Scan} {keyAllowed : Bool} {gap rest : List Char}
    (hgap : s.rest = gap ++ rest)
    (hskip : ∀ st : Stretch, st ≠ .comment →
      skipBlanks s.inFlow st s.keyAllowed s.rest = (rest, keyAllowed))
    (hstale : dropStale { s with
      rest := rest, keyAllowed := keyAllowed, position := s.position.after gap } = .ok t) :
    s.advance = .ok (t.unindent fun i => i ≤ t.position.column) := by
  have hpast : s.position.past s.rest rest = s.position.after gap := by
    rw [hgap, Position.past_append]
  simp only [advance]
  rw [hskip _ (by split <;> decide)]
  simp only [hpast, hstale]

theorem advance_quiet (p : Position) (indents : List Nat) (tokens : List Token)
    {keyAllowed keyAllowed' : Bool} {gap rest : List Char}
    (hgap : Skipped keyAllowed gap keyAllowed') (hrest : Solid rest) :
    (quiet p indents tokens keyAllowed (gap ++ rest)).advance =
      .ok ((quiet (p.after gap) indents tokens keyAllowed' rest).unindent fun i =>
        i ≤ (p.after gap).column) := by
  exact advance_eq rfl (fun st hst => hgap.skipBlanks_eq hst hrest) rfl

/-- Going over blanks. -/
theorem run_gap (p : Position) (indents : List Nat) (tokens : List Token)
    {keyAllowed keyAllowed' : Bool} {gap rest : List Char}
    (hgap : Skipped keyAllowed gap keyAllowed') (hrest : Solid rest) :
    (quiet p indents tokens keyAllowed (gap ++ rest)).run =
      (quiet (p.after gap) indents tokens keyAllowed' rest).run := by
  apply run_congr
  rw [advance_quiet p indents tokens hgap hrest]
  exact (advance_quiet (p.after gap) indents tokens (.spaces 0) hrest).symm

/-- The place is not left of the innermost open collection. -/
def Fits (p : Position) (indents : List Nat) : Prop :=
  ∀ i ∈ indents.head?, i ≤ p.column

theorem fits_zero (p : Position) : Fits p [0] := by
  intro i hi
  cases hi
  exact Nat.zero_le p.column

theorem Fits.closing_eq {p : Position} {indents : List Nat} (h : Fits p indents) :
    closing (fun i => i ≤ p.column) indents = ([], indents) := by
  cases indents with
  | nil => rfl
  | cons i is => simp [closing, h i rfl]

theorem unindent_quiet {keep : Nat → Bool} {indents left : List Nat} {ends : List Token}
    (hclosing : closing keep indents = (ends, left)) (p : Position) (tokens : List Token)
    (keyAllowed : Bool) (rest : List Char) :
    (quiet p indents tokens keyAllowed rest).unindent keep =
      quiet p left (ends ++ tokens) keyAllowed rest := by
  rw [unindent, if_neg (by simp [quiet, inFlow])]
  simp [quiet, hclosing, Nat.add_comm]

theorem advance_solid {p : Position} {indents left : List Nat} {ends : List Token}
    (hclosing : closing (fun i => i ≤ p.column) indents = (ends, left)) (tokens : List Token)
    (keyAllowed : Bool) {rest : List Char} (hrest : Solid rest) :
    (quiet p indents tokens keyAllowed rest).advance =
      .ok (quiet p left (ends ++ tokens) keyAllowed rest) := by
  rw [← unindent_quiet hclosing]
  exact advance_quiet p indents tokens (.spaces 0) hrest

/-- A lexeme to the left of the innermost collection closes it. -/
theorem Fits.run_close {p : Position} {indents : List Nat} (h : Fits p indents) {i : Nat}
    (hi : p.column < i) (tokens : List Token) (keyAllowed : Bool) {rest : List Char}
    (hrest : Solid rest) :
    (quiet p (i :: indents) tokens keyAllowed rest).run =
      (quiet p indents (.blockEnd :: tokens) keyAllowed rest).run := by
  have hclosing : closing (fun j => j ≤ p.column) (i :: indents) = ([.blockEnd], indents) := by
    rw [closing, if_neg (by simpa using hi), h.closing_eq]
  apply run_congr
  rw [advance_solid hclosing _ _ hrest, advance_solid h.closing_eq _ _ hrest]
  rfl

/-! ## Lexemes -/

theorem run_step {s t next : Scan} {c : Char} {cs rest : List Char} {l : Lexeme}
    (hadvance : s.advance = .ok t) (hcs : t.rest = c :: cs)
    (hread : Lexeme.read ⟨t.inFlow, t.position.column, t.outer⟩ c cs = .ok (l, rest))
    (hplace : t.place l = .ok next) :
    s.run = run { next with rest := rest, position := t.position.past (c :: cs) rest } := by
  rw [run_eq, hadvance]
  simp only [hcs, hread, hplace]

theorem run_step_quiet {s t : Scan} {c : Char} {cs read rest tail : List Char} {l : Lexeme}
    {p : Position} {indents : List Nat} {tokens : List Token} {keyAllowed : Bool}
    (hadvance : s.advance = .ok t) (hcs : t.rest = c :: cs) (hread' : c :: cs = read ++ rest)
    (hread : Lexeme.read ⟨t.inFlow, t.position.column, t.outer⟩ c cs = .ok (l, rest))
    (hplace : t.place l = .ok (quiet p indents tokens keyAllowed tail)) :
    s.run = (quiet (t.position.after read) indents tokens keyAllowed rest).run := by
  rw [run_step hadvance hcs hread hplace, hread', Position.past_append]
  rfl

/-- One more than the column of the innermost of some collections, 0 if there is none. -/
def outerOf (indents : List Nat) : Nat :=
  (indents.head?.map (· + 1)).getD 0

/-- No collection opens at a column that belongs to one. -/
theorem indent_quiet (p : Position) {indents : List Nat} (tokens : List Token) (keyAllowed : Bool)
    (rest : List Char) {column : Nat} (slot : Nat) (t : Token) (h : column < outerOf indents) :
    (quiet p indents tokens keyAllowed rest).indent column slot t =
      quiet p indents tokens keyAllowed rest := by
  have houter : (quiet p indents tokens keyAllowed rest).outer = outerOf indents := rfl
  rw [indent, if_pos (by simp [houter, h])]

/-- A dash of a sequence that is already open. -/
theorem Fits.run_dash {p : Position} {indents : List Nat} (h : Fits p indents)
    (hopen : p.column < outerOf indents) (tokens : List Token) {rest : List Char}
    (hrest : atGap rest = true) :
    (quiet p indents tokens true ('-' :: rest)).run =
      (quiet (p.after ['-']) indents (.blockEntry :: tokens) true rest).run := by
  have hsolid : Solid ('-' :: rest) := solid_cons.mpr (by decide)
  have hread : Lexeme.read ⟨false, p.column, outerOf indents⟩ '-' rest = .ok (.dash, rest) :=
    Lexeme.read_indicator hrest (.inr ⟨rfl, rfl⟩) _ _
  have hplace : (quiet p indents tokens true ('-' :: rest)).place .dash =
      .ok (quiet p indents (.blockEntry :: tokens) true ('-' :: rest)) := by
    rw [place, blockIndicator, if_neg (by simp [quiet]), indent_quiet]
    · rfl
    · exact hopen
  exact run_step_quiet (advance_solid h.closing_eq _ _ hsolid) rfl rfl hread hplace

/-- The state in front of the colon of a key. -/
def waiting (p q : Position) (indents : List Nat) (tokens : List Token) (name rest : List Char) :
    Scan :=
  { quiet q indents (.scalar .plain name :: tokens) false rest with
    candidate := some ⟨p, tokens.length, indents.head? == some p.column⟩ }

theorem unindent_eq_self {s : Scan} {keep : Nat → Bool}
    (hclosing : closing keep s.indents = ([], s.indents)) : s.unindent keep = s := by
  rw [unindent]
  split
  · rfl
  · simp [hclosing]

section Waiting

variable {p q : Position} {indents : List Nat} (h : Fits q indents) (hline : p.line = q.line)
  (hindex : q.index ≤ p.index + 1024) (tokens : List Token) (name : List Char) {rest : List Char}
include h hline hindex

theorem advance_waiting (hrest : Solid rest) :
    (waiting p q indents tokens name rest).advance =
      .ok (waiting p q indents tokens name rest) := by
  have hstale : dropStale (waiting p q indents tokens name rest) =
      .ok (waiting p q indents tokens name rest) := by
    have hpast : Candidate.isStale ⟨p, tokens.length, indents.head? == some p.column⟩ q =
        false := by
      simp [Candidate.isStale, hline, hindex]
    simp [dropStale, refresh, waiting, quiet, hpast]
    rfl
  have hadvance : (waiting p q indents tokens name rest).advance =
      .ok ((waiting p q indents tokens name rest).unindent fun i => i ≤ q.column) :=
    advance_eq (List.nil_append rest).symm (fun st hst => skipBlanks_solid hst false hrest) hstale
  rw [hadvance, unindent_eq_self h.closing_eq]

/-- A colon makes it one, and opens a mapping where none is open. -/
theorem run_colon (hrest : atGap rest = true) :
    (waiting p q indents tokens name (':' :: rest)).run =
      (quiet (q.after [':']) (if p.column < outerOf indents then indents else p.column :: indents)
        (.value :: .scalar .plain name :: .key ::
          if p.column < outerOf indents then tokens else .blockMappingStart :: tokens)
        false rest).run := by
  have hsolid : Solid (':' :: rest) := solid_cons.mpr (by decide)
  have hread : Lexeme.read ⟨false, q.column, outerOf indents⟩ ':' rest = .ok (.colon, rest) :=
    Lexeme.read_indicator hrest (.inl ⟨rfl, rfl⟩) _ _
  have hplace : (waiting p q indents tokens name (':' :: rest)).place .colon =
      .ok (quiet q (if p.column < outerOf indents then indents else p.column :: indents)
        (.value :: .scalar .plain name :: .key ::
          if p.column < outerOf indents then tokens else .blockMappingStart :: tokens)
        false (':' :: rest)) := by
    have hcount : tokens.length + 1 + 1 - tokens.length = 2 := by omega
    by_cases hopen : p.column < outerOf indents
    · have hopen' : p.column < (Option.map (· + 1) indents.head?).getD 0 := hopen
      simp [place, colon, waiting, quiet, emitAt, emit, indent, inFlow, outer, hopen, hopen']
    · have hopen' : ¬ p.column < (Option.map (· + 1) indents.head?).getD 0 := hopen
      simp [place, colon, waiting, quiet, emitAt, emit, indent, inFlow, outer, hopen, hopen',
        hcount]
  exact run_step_quiet (advance_waiting h hline hindex tokens name hsolid) rfl rfl hread hplace

end Waiting

/-- A name is remembered as what may be a key. -/
theorem Fits.run_name {p : Position} {indents : List Nat} (h : Fits p indents)
    (tokens : List Token) {name rest : List Char} (hname : Lexeme.IsName name)
    (hrest : atGap rest = true) :
    (quiet p indents tokens true (name ++ ':' :: rest)).run =
      (waiting p (p.after name) indents tokens name (':' :: rest)).run := by
  obtain ⟨c, cs, rfl⟩ := List.exists_cons_of_ne_nil hname.ne_nil
  have hsolid : Solid (c :: (cs ++ ':' :: rest)) := hname.solid
  have hread := Lexeme.read_name hname hrest p.column (outerOf indents)
  have hplace : (quiet p indents tokens true (c :: (cs ++ ':' :: rest))).place
      (.plain (c :: cs) false) =
        .ok (waiting p p indents tokens (c :: cs) (c :: (cs ++ ':' :: rest))) := rfl
  rw [List.cons_append, run_step (advance_solid h.closing_eq _ _ hsolid) rfl hread hplace]
  show run (waiting p (p.past ((c :: cs) ++ ':' :: rest) (':' :: rest)) indents tokens (c :: cs)
    (':' :: rest)) = _
  rw [Position.past_append]

/-- A key. -/
theorem Fits.run_key {p : Position} {indents : List Nat} (h : Fits p indents)
    (tokens : List Token) {name rest : List Char} (hname : Lexeme.IsName name)
    (hrest : atGap rest = true) :
    (quiet p indents tokens true (name ++ ':' :: rest)).run =
      (quiet (p.after (name ++ [':']))
        (if p.column < outerOf indents then indents else p.column :: indents)
        (.value :: .scalar .plain name :: .key ::
          if p.column < outerOf indents then tokens else .blockMappingStart :: tokens)
        false rest).run := by
  obtain ⟨hline, hcolumn⟩ := Position.after_of_not_isBreak hname.not_isBreak p
  have hindex : (p.after name).index ≤ p.index + 1024 := by
    have hlength := hname.length_le
    rw [hname.index_after]
    omega
  have hfits : Fits (p.after name) indents := by
    intro i hi
    have hle := h i hi
    omega
  rw [h.run_name tokens hname hrest, run_colon hfits hline.symm hindex tokens name hrest,
    Position.after_append]

/-- A text that cannot be a key. What is left is the next line, at which a key may start, or the
blanks in front of it. -/
theorem place_ofText (p : Position) (indents : List Nat) (tokens : List Token)
    (cs tail : List Char) (k : Nat) (rest : List Char) :
    ∃ keyAllowed,
      (quiet p indents tokens false tail).place (Lexeme.ofText cs) =
          .ok (quiet p indents (.scalar (Scalar.style cs) cs :: tokens) keyAllowed tail) ∧
        (Lexeme.afterText cs k rest = rest ∧ keyAllowed = true ∨
          Lexeme.afterText cs k rest = lineGap k ++ rest) := by
  unfold Lexeme.ofText Lexeme.afterText Scalar.style
  cases Scalar.written cs with
  | plain => exact ⟨true, rfl, .inl ⟨rfl, rfl⟩⟩
  | single => exact ⟨false, rfl, .inr rfl⟩
  | double => exact ⟨false, rfl, .inr rfl⟩
  | literal => exact ⟨true, rfl, .inl ⟨rfl, rfl⟩⟩

/-- A text, up to the next line, which is not indented further than by two columns. -/
theorem Fits.run_text {p : Position} {indents : List Nat} (h : Fits p (2 :: indents))
    (tokens : List Token) (cs : List Char) {k : Nat} (hk : k < 3) {rest : List Char}
    (hrest : Solid rest) :
    ∃ q : Position, q.column = k ∧
      (quiet p (2 :: indents) tokens false
          (Scalar.write cs ++ (List.replicate k ' ' ++ rest))).run =
        (quiet q (2 :: indents) (.scalar (Scalar.style cs) cs :: tokens) true rest).run := by
  have hcolumn : 0 < p.column := Nat.lt_of_lt_of_le (by decide) (h 2 rfl)
  obtain ⟨c, tail, hwrite, hsolid, hread⟩ := Lexeme.read_write hrest hcolumn cs hk
  obtain ⟨keyAllowed, hplace, hafter⟩ := place_ofText p (2 :: indents) tokens cs (c :: tail) k rest
  rw [hwrite, run_step (advance_solid h.closing_eq _ _ hsolid) rfl hread hplace]
  -- plain scalars and blocks have read up to the next line; behind a quote it is still to be reached
  rcases hafter with ⟨hafter, hallowed⟩ | hafter
  · refine ⟨p.past (c :: tail) rest, ?_, ?_⟩
    · obtain ⟨body, b, hend, hb⟩ := Scalar.exists_write_eq cs
      rw [← hwrite, ← List.append_assoc, Position.past_append, hend, List.append_assoc]
      exact Position.column_after_break p body hb k
    · rw [hafter, hallowed]
      rfl
  · refine ⟨(p.past (c :: tail) (lineGap k ++ rest)).after (lineGap k), ?_, ?_⟩
    · exact Position.column_after_break _ [] (by decide) k
    · rw [hafter]
      exact run_gap _ _ _ (.line k) hrest

/-- The tokens of a field of a mapping. -/
def fieldTokens (name cs : List Char) : List Token :=
  [.key, .scalar .plain name, .value, .scalar (Scalar.style cs) cs]

/-- A field of a mapping that stands two columns to the right, up to the next line. -/
theorem Fits.run_field {p : Position} {indents left : List Nat} (h : Fits p indents)
    (hleft : (if p.column < outerOf indents then indents else p.column :: indents) = 2 :: left)
    (tokens : List Token) {name : List Char} (hname : Lexeme.IsName name) (cs : List Char) {k : Nat}
    (hk : k < 3) {rest : List Char} (hrest : Solid rest) :
    ∃ q : Position, q.column = k ∧
      (quiet p indents tokens true
          (name ++ ':' :: ' ' :: (Scalar.write cs ++ (List.replicate k ' ' ++ rest)))).run =
        (quiet q (2 :: left)
          ((fieldTokens name cs).reverse ++
            if p.column < outerOf indents then tokens else .blockMappingStart :: tokens)
          true rest).run := by
  have hbreak : ∀ c ∈ name ++ [':'] ++ [' '], isBreak c = false := by
    have hmark : isBreak ':' = false ∧ isBreak ' ' = false := by decide
    intro c hc
    rcases List.mem_append.mp hc with hc | hc
    · rcases List.mem_append.mp hc with hc | hc
      · exact hname.not_isBreak c hc
      · exact List.mem_singleton.mp hc ▸ hmark.1
    · exact List.mem_singleton.mp hc ▸ hmark.2
  have hfits : Fits ((p.after (name ++ [':'])).after [' ']) (2 :: left) := by
    intro i hi
    cases hi
    rw [← Position.after_append, (Position.after_of_not_isBreak hbreak p).2, List.length_append,
      List.length_append, List.length_singleton, List.length_singleton]
    omega
  have hgap := run_gap (p.after (name ++ [':'])) (2 :: left)
    (.value :: .scalar .plain name :: .key ::
      if p.column < outerOf indents then tokens else .blockMappingStart :: tokens)
    (.spaces 1 : Skipped false _ _) (Lexeme.solid_write hrest cs hk)
  obtain ⟨q, hq, htext⟩ := hfits.run_text _ cs hk hrest
  refine ⟨q, hq, ?_⟩
  rw [h.run_key tokens hname rfl, hleft]
  exact hgap.trans htext

/-- The first field of a mapping opens it. -/
theorem run_firstField {p : Position} (hp : p.column = 2) {indents : List Nat}
    (hindents : outerOf indents ≤ 2) (tokens : List Token) {name : List Char}
    (hname : Lexeme.IsName name) (cs : List Char) {k : Nat} (hk : k < 3) {rest : List Char}
    (hrest : Solid rest) :
    ∃ q : Position, q.column = k ∧
      (quiet p indents tokens true
          (name ++ ':' :: ' ' :: (Scalar.write cs ++ (List.replicate k ' ' ++ rest)))).run =
        (quiet q (2 :: indents) ((fieldTokens name cs).reverse ++ .blockMappingStart :: tokens)
          true rest).run := by
  have hfits : Fits p indents := by
    intro i hi
    rw [outerOf, hi] at hindents
    exact hp ▸ Nat.le_of_succ_le hindents
  have hnew : ¬ p.column < outerOf indents := by omega
  obtain ⟨q, hq, hrun⟩ := hfits.run_field (by rw [if_neg hnew, hp]) tokens hname cs hk hrest
  rw [if_neg hnew] at hrun
  exact ⟨q, hq, hrun⟩

theorem run_nextField {p : Position} (hp : p.column = 2) (indents : List Nat)
    (tokens : List Token) {name : List Char} (hname : Lexeme.IsName name) (cs : List Char) {k : Nat}
    (hk : k < 3) {rest : List Char} (hrest : Solid rest) :
    ∃ q : Position, q.column = k ∧
      (quiet p (2 :: indents) tokens true
          (name ++ ':' :: ' ' :: (Scalar.write cs ++ (List.replicate k ' ' ++ rest)))).run =
        (quiet q (2 :: indents) ((fieldTokens name cs).reverse ++ tokens) true rest).run := by
  have hfits : Fits p (2 :: indents) := by
    intro i hi
    cases hi
    exact Nat.le_of_eq hp.symm
  have hopen : p.column < outerOf (2 :: indents) := by
    rw [hp]
    exact Nat.lt_succ_self 2
  obtain ⟨q, hq, hrun⟩ := hfits.run_field (if_pos hopen) tokens hname cs hk hrest
  rw [if_pos hopen] at hrun
  exact ⟨q, hq, hrun⟩

/-- The state behind an opening bracket. -/
def bracketed (p : Position) (indents : List Nat) (tokens : List Token) (rest : List Char) : Scan :=
  { quiet p indents (.flowSequenceStart :: tokens) true rest with outerCandidates := [none] }

theorem advance_bracketed (p : Position) (indents : List Nat) (tokens : List Token)
    {rest : List Char} (hrest : Solid rest) :
    (bracketed p indents tokens rest).advance = .ok (bracketed p indents tokens rest) := by
  have hadvance : (bracketed p indents tokens rest).advance =
      .ok ((bracketed p indents tokens rest).unindent fun i => i ≤ p.column) :=
    advance_eq (List.nil_append rest).symm (fun st hst => skipBlanks_solid hst true hrest) rfl
  rw [hadvance]
  rfl

/-- An empty pair of brackets. -/
theorem Fits.run_brackets {p : Position} {indents : List Nat} (h : Fits p indents)
    (tokens : List Token) (rest : List Char) :
    (quiet p indents tokens false ('[' :: ']' :: rest)).run =
      (quiet (p.after ['[', ']']) indents (.flowSequenceEnd :: .flowSequenceStart :: tokens) false
        rest).run := by
  have hsolid : Solid ('[' :: ']' :: rest) := solid_cons.mpr (by decide)
  have hopen : Lexeme.read ⟨false, p.column, outerOf indents⟩ '[' (']' :: rest) =
      .ok (.flowOpen .flowSequenceStart, ']' :: rest) := by
    simp [Lexeme.read, Lexeme.mark?, atDocumentMark]
  have hclose : ∀ column outer, Lexeme.read ⟨true, column, outer⟩ ']' rest =
      .ok (.flowClose .flowSequenceEnd, rest) := by
    simp [Lexeme.read, Lexeme.mark?, atDocumentMark]
  have hplace : (quiet p indents tokens false ('[' :: ']' :: rest)).place
      (.flowOpen .flowSequenceStart) = .ok (bracketed p indents tokens ('[' :: ']' :: rest)) := rfl
  have hclosed : Solid (']' :: rest) := solid_cons.mpr (by decide)
  calc
    (quiet p indents tokens false ('[' :: ']' :: rest)).run =
        (bracketed (p.past ('[' :: ']' :: rest) (']' :: rest)) indents tokens (']' :: rest)).run :=
      run_step (advance_solid h.closing_eq _ _ hsolid) rfl hopen hplace
    _ = (bracketed (p.after ['[']) indents tokens (']' :: rest)).run := by
      rw [← List.singleton_append, Position.past_append]
    _ = _ := run_step_quiet (advance_bracketed _ _ _ hclosed) rfl rfl (hclose _ _) rfl

/-- The end of a text closes what is open. -/
theorem Fits.run_nil {p : Position} {i : Nat} (h : Fits p [i]) (tokens : List Token)
    (keyAllowed : Bool) :
    (quiet p [i] tokens keyAllowed []).run = .ok (.blockEnd :: tokens).reverse := by
  rw [run_eq, advance_solid h.closing_eq _ _ solid_nil]
  rfl

end Scan

end DiagramTint.Yaml
