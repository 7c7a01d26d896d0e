import DiagramTint.Proofs.Yaml.Break
import DiagramTint.Yaml.Scalar.Block

/-!
# Literal blocks read back

A text of several lines is written with each line indented and with a header that says what becomes
of the line breaks at its end.  Reading the block line by line gives back the text: the line breaks
in front of a line are gathered, and put in front of it once the line is known to be there.
-/

namespace DiagramTint.Yaml.Scalar

/-! ## The header -/

/-- What becomes of the line breaks at the end of a block that holds a text. -/
def ending (cs : List Char) : Chomping :=
  match cs.reverse with
  | [] => .strip
  | [c] => if isBreak c then .keep else .strip
  | c :: d :: _ => if !isBreak c then .strip else if isBreak d then .keep else .clip

/-- How a header asks for it. -/
def Chomping.indicator : Chomping → List Char
  | .strip => ['-']
  | .clip => []
  | .keep => ['+']

theorem literalHeader_eq (cs : List Char) :
    literalHeader cs = (if startsBlank cs then ['2'] else []) ++ (ending cs).indicator := by
  simp only [literalHeader, ending]
  cases cs.reverse with
  | nil => rfl
  | cons c more =>
      cases more with
      | nil => cases hc : isBreak c <;> simp [hc, Chomping.indicator]
      | cons d more =>
          cases hc : isBreak c <;> cases hd : isBreak d <;> simp [hc, hd, Chomping.indicator]

theorem isAllowed_of_mem_literalHeader {cs : List Char} {d : Char} (h : d ∈ literalHeader cs) :
    isAllowed d = true := by
  have hall : ∀ (blank : Bool) (e : Chomping),
      ((if blank then ['2'] else []) ++ e.indicator).all isAllowed = true := by
    intro blank e
    cases blank <;> cases e <;> decide
  rw [literalHeader_eq] at h
  exact List.all_eq_true.mp (hall _ _) d h

theorem blockHeader_literal (e : Chomping) (blank : Bool) (rest : List Char) :
    blockHeader ((if blank then ['2'] else []) ++ e.indicator ++ '\n' :: rest) =
      ⟨e, if blank then 2 else 0, '\n' :: rest⟩ := by
  cases e <;> cases blank <;> rfl

theorem lineEnd_newline (rest : List Char) : lineEnd ('\n' :: rest) = some rest := rfl

theorem ending_concat (cs : List Char) {c : Char} (h : isBreak c = false) :
    ending (cs ++ [c]) = .strip := by
  unfold ending
  rw [List.reverse_append, List.reverse_singleton, List.singleton_append]
  cases cs.reverse <;> simp [h]

theorem ending_concat_break (cs : List Char) (a : Char) {b : Char} (h : isBreak b = true) :
    ending (cs ++ [a, b]) = if isBreak a then .keep else .clip := by
  simp [ending, h]

/-- Only what follows a character that is no line break matters to the ending. -/
theorem ending_append (xs cs : List Char) {c : Char} (h : isBreak c = false) :
    ending (xs ++ c :: cs) = ending (c :: cs) := by
  rcases List.eq_nil_or_concat cs with rfl | ⟨ys, b, rfl⟩
  · exact (ending_concat xs h).trans (ending_concat [] h).symm
  · obtain ⟨zs, a, hlast⟩ : ∃ zs a, c :: ys = zs ++ [a] :=
      ⟨_, _, (List.dropLast_concat_getLast (List.cons_ne_nil c ys)).symm⟩
    have hcs : c :: ys.concat b = zs ++ [a, b] := by
      rw [List.concat_eq_append, ← List.cons_append, hlast, List.append_assoc,
        List.singleton_append]
    rw [hcs, ← List.append_assoc]
    cases hb : isBreak b with
    | true => rw [ending_concat_break _ a hb, ending_concat_break _ a hb]
    | false =>
        have hsplit : ∀ us : List Char, us ++ [a, b] = (us ++ [a]) ++ [b] := by simp
        rw [hsplit, hsplit, ending_concat _ hb, ending_concat _ hb]

/-! ## Blanks in front of lines -/

/-- The width of the indentation of a literal block. -/
def width : Nat := 4

theorem continuation_eq : continuation = List.replicate width ' ' := rfl

theorem blockBreaks_spaces (n : Nat) {indent col : Nat} (h : col + n ≤ indent) (cs : List Char) :
    blockBreaks indent col (List.replicate n ' ' ++ cs) = blockBreaks indent (col + n) cs := by
  induction n generalizing col with
  | zero => rfl
  | succ n ih =>
      rw [List.replicate_succ, List.cons_append, blockBreaks, if_pos ⟨rfl, by omega⟩,
        ih (by omega)]
      congr 1
      omega

theorem blockBreaks_other {indent col : Nat} {c : Char} {cs : List Char}
    (hblank : col < indent → isWhite c = false) (hbreak : isBreak c = false) :
    blockBreaks indent col (c :: cs) = .ok ([], col, c :: cs) := by
  have hspace : ¬ (c = ' ' ∧ col < indent) := by
    rintro ⟨rfl, hlt⟩
    cases hblank hlt
  have htab : ¬ (c = '\t' ∧ col < indent) := by
    rintro ⟨rfl, hlt⟩
    cases hblank hlt
  rw [blockBreaks, if_neg hspace, if_neg htab]
  split
  · rfl
  · rename_i h
    rw [takeBreak_of_not_isBreak hbreak] at h
    cases h

theorem blockBreaks_break {indent col : Nat} {c : Char} {cs breaks after : List Char} {col' : Nat}
    (hprintable : isPrintable c = true) (hbreak : isBreak c = true)
    (h : blockBreaks indent 0 cs = .ok (breaks, col', after)) :
    blockBreaks indent col (c :: cs) = .ok (c :: breaks, col', after) := by
  have htake := takeBreak_of_isPrintable hprintable hbreak cs
  have hwhite := not_isWhite_of_isBreak hbreak
  have hspace : ¬ (c = ' ' ∧ col < indent) := by
    rintro ⟨rfl, -⟩
    cases hwhite
  have htab : ¬ (c = '\t' ∧ col < indent) := by
    rintro ⟨rfl, -⟩
    cases hwhite
  rw [blockBreaks, if_neg hspace, if_neg htab]
  split
  · rename_i hnone
    rw [htake] at hnone
    cases hnone
  · rename_i hsome
    rw [htake] at hsome
    cases hsome
    rw [h]
    rfl

theorem blockBreaks_breaks {indent : Nat} {bs cs breaks after : List Char} {col' : Nat}
    (hprintable : ∀ b ∈ bs, isPrintable b = true) (hbreak : ∀ b ∈ bs, isBreak b = true)
    (h : blockBreaks indent 0 cs = .ok (breaks, col', after)) :
    blockBreaks indent 0 (bs ++ cs) = .ok (bs ++ breaks, col', after) := by
  induction bs with
  | nil => exact h
  | cons b bs ih =>
      have hrest := ih (fun d hd => hprintable d (List.mem_cons_of_mem b hd))
        fun d hd => hbreak d (List.mem_cons_of_mem b hd)
      exact blockBreaks_break (hprintable b List.mem_cons_self) (hbreak b List.mem_cons_self) hrest

/-- The blanks in front of what follows a block. -/
theorem blockBreaks_tail {k : Nat} {rest : List Char} (hk : k < width) (hrest : Solid rest) :
    blockBreaks width 0 (List.replicate k ' ' ++ rest) = .ok ([], k, rest) := by
  rw [blockBreaks_spaces k (by omega), Nat.zero_add]
  cases rest with
  | nil => rw [blockBreaks]
  | cons c cs =>
      obtain ⟨hwhite, hbreak, -, -⟩ := solid_cons.mp hrest
      exact blockBreaks_other (fun _ => hwhite) hbreak

/-- The blanks in front of a line of a block. -/
theorem blockBreaks_continuation {c : Char} (hbreak : isBreak c = false) (cs : List Char) :
    blockBreaks width 0 (continuation ++ c :: cs) = .ok ([], width, c :: cs) := by
  rw [continuation_eq, blockBreaks_spaces width (by omega), Nat.zero_add]
  exact blockBreaks_other (fun h => absurd h (Nat.lt_irrefl width)) hbreak

theorem leadingBreaks_continuation {c : Char} (hwhite : isWhite c = false)
    (hbreak : isBreak c = false) (cs : List Char) :
    leadingBreaks 0 0 (continuation ++ c :: cs) = .ok ([], width, width, c :: cs) := by
  have hspace : c ≠ ' ' := by
    rintro rfl
    cases hwhite
  have htab : c ≠ '\t' := by
    rintro rfl
    cases hwhite
  simp only [continuation, List.cons_append, List.nil_append]
  rw [leadingBreaks, if_pos rfl, leadingBreaks, if_pos rfl, leadingBreaks, if_pos rfl,
    leadingBreaks, if_pos rfl, leadingBreaks, if_neg hspace, if_neg htab]
  split
  · rfl
  · rename_i h
    rw [takeBreak_of_not_isBreak hbreak] at h
    cases h

/-! ## Lines -/

/-- The text of a line that is not empty. -/
def IsLine (l : List Char) : Prop :=
  l ≠ [] ∧ ∀ c ∈ l, isBreak c = false

/-- One or more line breaks. -/
def AreBreaks (bs : List Char) : Prop :=
  bs ≠ [] ∧ ∀ b ∈ bs, isBreak b = true

theorem takeLine_append {l : List Char} (hl : ∀ c ∈ l, isBreak c = false) {b : Char}
    (hprintable : isPrintable b = true) (hbreak : isBreak b = true) (cs : List Char) :
    takeLine (l ++ b :: cs) = ⟨l, [b], cs⟩ := by
  have hkeep : ∀ c ∈ l, (!isBreak c) = true := fun c hc => by simp [hl c hc]
  unfold takeLine
  rw [List.dropWhile_append_of_pos hkeep, List.takeWhile_append_of_pos hkeep,
    List.dropWhile_cons_of_neg (by simp [hbreak]), List.takeWhile_cons_of_neg (by simp [hbreak]),
    takeBreak_of_isPrintable hprintable hbreak, List.append_nil]

theorem blockLines_end {chomping : Chomping} {indent col : Nat} (blank : Bool)
    (lead breaks cs : List Char) (h : col ≠ indent) :
    blockLines false chomping indent blank lead breaks col cs =
      .ok (chomping.apply lead breaks, cs) := by
  cases cs with
  | nil => rw [blockLines]
  | cons c cs => rw [blockLines, if_neg h]

/-- A line and the breaks behind it: the first break ends the line, the others are empty lines. -/
theorem blockLines_line {l bs cs after : List Char} {col : Nat} (hl : IsLine l)
    (hbs : AreBreaks bs) (hprintable : ∀ b ∈ bs, isPrintable b = true)
    (hnext : blockBreaks width 0 cs = .ok ([], col, after)) (chomping : Chomping) (blank : Bool)
    (lead breaks : List Char) :
    ∃ b more blank', bs = b :: more ∧
      blockLines false chomping width blank lead breaks width (l ++ (bs ++ cs)) =
        prepend (lead ++ breaks ++ l)
          (blockLines false chomping width blank' [b] more col after) := by
  obtain ⟨c, l, rfl⟩ := List.exists_cons_of_ne_nil hl.1
  obtain ⟨b, more, rfl⟩ := List.exists_cons_of_ne_nil hbs.1
  have hline := takeLine_append hl.2 (hprintable b List.mem_cons_self)
    (hbs.2 b List.mem_cons_self) (more ++ cs)
  have hmore := blockBreaks_breaks (fun d hd => hprintable d (List.mem_cons_of_mem b hd))
    (fun d hd => hbs.2 d (List.mem_cons_of_mem b hd)) hnext
  refine ⟨b, more, isWhite c, rfl, ?_⟩
  rw [List.cons_append] at hline
  rw [List.cons_append, List.cons_append, blockLines, if_pos rfl, hline]
  split
  · rename_i h
    rw [hmore] at h
    cases h
  · rename_i h
    rw [hmore] at h
    cases h
    rw [List.append_nil]
    rfl

/-! ## Texts as lines -/

/-- A text that starts with a line: the line alone, or with line breaks behind it, or with line
breaks and more such lines behind it. -/
inductive Lined : List Char → Prop where
  | last {l : List Char} (hl : IsLine l) : Lined l
  | ended {l bs : List Char} (hl : IsLine l) (hbs : AreBreaks bs) : Lined (l ++ bs)
  | followed {l bs cs : List Char} (hl : IsLine l) (hbs : AreBreaks bs) (h : Lined cs) :
      Lined (l ++ (bs ++ cs))

theorem IsLine.cons {c : Char} {l : List Char} (hc : isBreak c = false) (hl : IsLine l) :
    IsLine (c :: l) :=
  ⟨List.cons_ne_nil c l, by simpa [hc] using hl.2⟩

/-- A text is line breaks and, possibly, lines. -/
theorem breaks_or_lined (cs : List Char) :
    ∃ bs cs', cs = bs ++ cs' ∧ (∀ b ∈ bs, isBreak b = true) ∧ (cs' = [] ∨ Lined cs') := by
  induction cs with
  | nil => exact ⟨[], [], rfl, by simp, .inl rfl⟩
  | cons c cs ih =>
      obtain ⟨bs, cs', rfl, hbs, hcs'⟩ := ih
      cases hc : isBreak c with
      | true =>
          refine ⟨c :: bs, cs', rfl, ?_, hcs'⟩
          simpa [hc] using hbs
      | false =>
          refine ⟨[], _, rfl, by simp, .inr ?_⟩
          have hone : IsLine [c] := ⟨List.cons_ne_nil c [], by simpa using hc⟩
          cases bs with
          | cons b bs =>
              have hbreaks : AreBreaks (b :: bs) := ⟨List.cons_ne_nil b bs, hbs⟩
              rcases hcs' with rfl | hcs'
              · rw [List.append_nil]
                exact Lined.ended hone hbreaks
              · exact Lined.followed hone hbreaks hcs'
          | nil =>
              -- the character joins the line that the rest starts with
              rcases hcs' with rfl | hcs'
              · exact Lined.last hone
              · cases hcs' with
                | last hl => exact Lined.last (hl.cons hc)
                | ended hl hbs => exact Lined.ended (hl.cons hc) hbs
                | followed hl hbs h => exact Lined.followed (hl.cons hc) hbs h

theorem Lined.exists_cons {cs : List Char} (h : Lined cs) :
    ∃ c cs', cs = c :: cs' ∧ isBreak c = false := by
  have hline : ∀ {l} (tail), IsLine l → ∃ c cs', l ++ tail = c :: cs' ∧ isBreak c = false := by
    intro l tail hl
    obtain ⟨c, l, rfl⟩ := List.exists_cons_of_ne_nil hl.1
    exact ⟨c, l ++ tail, rfl, hl.2 c List.mem_cons_self⟩
  cases h with
  | last hl => simpa using hline [] hl
  | ended hl hbs => exact hline _ hl
  | followed hl hbs h => exact hline _ hl

/-! ## Writing lines -/

/-- The end of a literal block: its last line is ended by a line feed unless the text ends with a
line break itself. -/
def literalEnd (cs : List Char) : List Char :=
  if cs.getLast?.any isBreak then [] else ['\n']

theorem literalEnd_concat (cs : List Char) (c : Char) :
    literalEnd (cs ++ [c]) = if isBreak c then [] else ['\n'] := by
  rw [literalEnd, List.getLast?_concat, Option.any_some]

theorem literalBody_line {l : List Char} (hl : IsLine l) (cs : List Char) :
    literalBody false (l ++ cs) = l ++ literalBody false cs := by
  have hbreak := hl.2
  clear hl
  induction l with
  | nil => rfl
  | cons c l ih =>
      rw [List.cons_append, literalBody, if_neg (by simp [hbreak c List.mem_cons_self]),
        ih fun d hd => hbreak d (List.mem_cons_of_mem c hd)]
      rfl

theorem literalBody_breaks {bs : List Char} (hbs : AreBreaks bs) (fresh : Bool) (cs : List Char) :
    literalBody fresh (bs ++ cs) = bs ++ literalBody true cs := by
  obtain ⟨b, bs, rfl⟩ := List.exists_cons_of_ne_nil hbs.1
  induction bs generalizing fresh b with
  | nil =>
      rw [List.singleton_append, literalBody, if_pos (hbs.2 b List.mem_cons_self),
        List.singleton_append]
  | cons d bs ih =>
      have hrest : AreBreaks (d :: bs) :=
        ⟨List.cons_ne_nil d bs, fun e he => hbs.2 e (List.mem_cons_of_mem b he)⟩
      rw [List.cons_append, literalBody, if_pos (hbs.2 b List.mem_cons_self), ih true d hrest]
      rfl

theorem mem_literalBody {cs : List Char} {fresh : Bool} {d : Char} (h : d ∈ literalBody fresh cs) :
    d = ' ' ∨ d ∈ cs := by
  induction cs generalizing fresh with
  | nil => cases h
  | cons c cs ih =>
      rw [literalBody] at h
      split at h
      · rcases List.mem_cons.mp h with rfl | h
        · exact .inr List.mem_cons_self
        · exact (ih h).imp_right (List.mem_cons_of_mem c)
      · rw [List.mem_append, List.mem_cons] at h
        rcases h with h | rfl | h
        · exact .inl (eq_space_of_mem_indentation h)
        · exact .inr List.mem_cons_self
        · exact (ih h).imp_right (List.mem_cons_of_mem c)

theorem literalBody_concat_break {b : Char} (hb : isBreak b = true) (fresh : Bool)
    (cs : List Char) : ∃ lines, literalBody fresh (cs ++ [b]) = lines ++ [b] := by
  induction cs generalizing fresh with
  | nil => exact ⟨[], by simp [literalBody, hb]⟩
  | cons c cs ih =>
      rw [List.cons_append, literalBody]
      split
      · obtain ⟨lines, hlines⟩ := ih true
        exact ⟨c :: lines, by rw [hlines, List.cons_append]⟩
      · obtain ⟨lines, hlines⟩ := ih false
        exact ⟨(if fresh then continuation else []) ++ c :: lines, by rw [hlines]; simp⟩

/-- A literal block ends with a line break. -/
theorem exists_literalBody_eq (cs : List Char) :
    ∃ lines b, literalBody true cs ++ literalEnd cs = lines ++ [b] ∧ isBreak b = true := by
  rcases List.eq_nil_or_concat cs with rfl | ⟨ds, d, rfl⟩
  · exact ⟨[], '\n', rfl, by decide⟩
  · rw [List.concat_eq_append, literalEnd_concat]
    cases hd : isBreak d with
    | true =>
        obtain ⟨lines, hlines⟩ := literalBody_concat_break hd true ds
        exact ⟨lines, d, by rw [hlines]; simp, hd⟩
    | false => exact ⟨_, '\n', rfl, by decide⟩

theorem Lined.literalBody_eq {cs : List Char} (h : Lined cs) :
    literalBody true cs = continuation ++ literalBody false cs := by
  obtain ⟨c, cs, rfl, hc⟩ := h.exists_cons
  simp [literalBody, hc]

/-- The blanks in front of a line of a block. -/
theorem Lined.blockBreaks_eq {cs : List Char} (h : Lined cs) (after : List Char) :
    blockBreaks width 0 (continuation ++ (literalBody false cs ++ after)) =
      .ok ([], width, literalBody false cs ++ after) := by
  obtain ⟨c, cs, rfl, hc⟩ := h.exists_cons
  rw [literalBody, if_neg (by simp [hc])]
  exact blockBreaks_continuation hc _

/-- A text that does not start with a blank starts with a line. -/
theorem lined_of_not_startsBlank {bs cs : List Char} (hbs : ∀ b ∈ bs, isBreak b = true)
    (hcs : cs = [] ∨ Lined cs) (hne : bs ++ cs ≠ []) (h : startsBlank (bs ++ cs) = false) :
    bs = [] ∧ Lined cs := by
  cases bs with
  | nil => exact ⟨rfl, hcs.resolve_left hne⟩
  | cons b bs => simp [startsBlank, hbs b List.mem_cons_self] at h

/-- Where the first line does not start with a blank, its indentation is that of the block. -/
theorem Lined.leadingBreaks_eq {cs : List Char} (h : Lined cs)
    (hprintable : ∀ d ∈ cs, isPrintable d = true) (hblank : startsBlank cs = false)
    (after : List Char) :
    leadingBreaks 0 0 (literalBody true cs ++ after) =
      .ok ([], width, width, literalBody false cs ++ after) := by
  rw [h.literalBody_eq, List.append_assoc]
  obtain ⟨c, cs, rfl, hc⟩ := h.exists_cons
  have hwhite : isWhite c = false := by
    rw [← Bool.not_eq_true]
    intro hw
    simp [startsBlank, eq_space_of_isWhite (hprintable c List.mem_cons_self) hw] at hblank
  rw [literalBody, if_neg (by simp [hc])]
  exact leadingBreaks_continuation hwhite hc _

/-- What becomes of the end of a text is decided by its last lines. -/
theorem Lined.append_eq {cs : List Char} (h : Lined cs) (xs : List Char) :
    ending (xs ++ cs) = ending cs ∧ literalEnd (xs ++ cs) = literalEnd cs := by
  obtain ⟨c, cs, rfl, hc⟩ := h.exists_cons
  refine ⟨ending_append xs cs hc, ?_⟩
  rw [literalEnd, literalEnd, List.getLast?_append, List.getLast?_cons, Option.some_or]

theorem IsLine.exists_concat {l : List Char} (hl : IsLine l) :
    ∃ zs z, l = zs ++ [z] ∧ isBreak z = false :=
  ⟨_, _, (List.dropLast_concat_getLast hl.1).symm, hl.2 _ (List.getLast_mem hl.1)⟩

theorem IsLine.end_eq {l : List Char} (hl : IsLine l) :
    ending l = .strip ∧ literalEnd l = ['\n'] := by
  obtain ⟨zs, z, rfl, hz⟩ := hl.exists_concat
  rw [ending_concat zs hz, literalEnd_concat, hz]
  exact ⟨rfl, rfl⟩

/-- Line breaks behind a line are kept as they are. -/
theorem IsLine.breaks_end_eq {l bs : List Char} {b : Char} (hl : IsLine l)
    (hbs : AreBreaks (b :: bs)) :
    (ending (l ++ b :: bs)).apply [b] bs = b :: bs ∧ literalEnd (l ++ b :: bs) = [] := by
  obtain ⟨zs, z, rfl, hz⟩ := hl.exists_concat
  have hb : isBreak b = true := hbs.2 b List.mem_cons_self
  rcases List.eq_nil_or_concat bs with rfl | ⟨ys, y, rfl⟩
  · rw [literalEnd_concat, hb, List.append_assoc, List.singleton_append,
      ending_concat_break zs z hb, hz]
    exact ⟨rfl, rfl⟩
  · obtain ⟨us, u, hus⟩ : ∃ us u, b :: ys = us ++ [u] :=
      ⟨_, _, (List.dropLast_concat_getLast (List.cons_ne_nil b ys)).symm⟩
    have hconcat : b :: ys.concat y = us ++ [u, y] := by
      calc
        b :: ys.concat y = (b :: ys) ++ [y] := by simp
        _ = us ++ [u, y] := by rw [hus, List.append_assoc, List.singleton_append]
    rw [hconcat] at hbs ⊢
    have hu : isBreak u = true := hbs.2 u (by simp)
    have hy : isBreak y = true := hbs.2 y (by simp)
    refine ⟨?_, ?_⟩
    · rw [← List.append_assoc, ending_concat_break _ u hy, hu, if_pos rfl, Chomping.apply,
        List.singleton_append, hconcat]
    · have hlast : zs ++ [z] ++ (us ++ [u, y]) = (zs ++ [z] ++ us ++ [u]) ++ [y] := by simp
      rw [hlast, literalEnd_concat, hy, if_pos rfl]

/-- A text of line breaks keeps them all. -/
theorem AreBreaks.end_eq {bs : List Char} (hbs : AreBreaks bs) :
    ending bs = .keep ∧ literalEnd bs = [] := by
  obtain ⟨us, u, rfl⟩ : ∃ us u, bs = us ++ [u] :=
    ⟨_, _, (List.dropLast_concat_getLast hbs.1).symm⟩
  have hu : isBreak u = true := hbs.2 u (by simp)
  rw [literalEnd_concat, hu, if_pos rfl]
  refine ⟨?_, rfl⟩
  rcases List.eq_nil_or_concat us with rfl | ⟨ys, y, rfl⟩
  · simp [ending, hu]
  · have hy : isBreak y = true := hbs.2 y (by simp)
    rw [List.concat_eq_append, List.append_assoc, List.singleton_append,
      ending_concat_break ys y hu, hy, if_pos rfl]

/-! ## Reading lines -/

section Tail

variable {k : Nat} {rest : List Char} (hk : k < width) (hrest : Solid rest)
include hk hrest

/-- Reading a literal block from the start of a line of it. -/
theorem Lined.blockLines_eq {cs : List Char} (h : Lined cs)
    (hprintable : ∀ d ∈ cs, isPrintable d = true) (blank : Bool) (lead breaks : List Char) :
    blockLines false (ending cs) width blank lead breaks width
        (literalBody false cs ++ (literalEnd cs ++ (List.replicate k ' ' ++ rest))) =
      .ok (lead ++ breaks ++ cs, rest) := by
  have hkw : k ≠ width := Nat.ne_of_lt hk
  have htail := blockBreaks_tail hk hrest
  induction h generalizing blank lead breaks with
  | @last l hl =>
      obtain ⟨hending, hend⟩ := hl.end_eq
      have hbody := literalBody_line hl []
      rw [List.append_nil, literalBody, List.append_nil] at hbody
      have hbs : AreBreaks ['\n'] := ⟨List.cons_ne_nil _ _, List.all_eq_true.mp (by decide)⟩
      have hnewline : ∀ b ∈ ['\n'], isPrintable b = true := List.all_eq_true.mp (by decide)
      obtain ⟨b, more, blank', hcons, hread⟩ :=
        blockLines_line hl hbs hnewline htail .strip blank lead breaks
      rw [hending, hend, hbody, hread, blockLines_end _ _ _ _ hkw, prepend, Chomping.apply,
        List.append_nil]
  | @ended l bs hl hbs =>
      have hbody : literalBody false (l ++ bs) = l ++ bs := by
        have hbreaks := literalBody_breaks hbs false []
        rw [List.append_nil, literalBody, List.append_nil] at hbreaks
        rw [literalBody_line hl, hbreaks]
      obtain ⟨b, more, blank', hcons, hread⟩ :=
        blockLines_line hl hbs (fun d hd => hprintable d (List.mem_append_right l hd)) htail
          (ending (l ++ bs)) blank lead breaks
      obtain ⟨happly, hend⟩ := hl.breaks_end_eq (hcons ▸ hbs)
      rw [← hcons] at happly hend
      rw [hend, hbody, List.nil_append, List.append_assoc, hread, blockLines_end _ _ _ _ hkw,
        happly, prepend, List.append_assoc]
  | @followed l bs cs hl hbs h ih =>
      obtain ⟨hending, hend⟩ := h.append_eq (l ++ bs)
      rw [List.append_assoc] at hending hend
      have hbody : literalBody false (l ++ (bs ++ cs)) =
          l ++ (bs ++ (continuation ++ literalBody false cs)) := by
        rw [literalBody_line hl, literalBody_breaks hbs, h.literalBody_eq]
      have hnext := h.blockBreaks_eq (literalEnd cs ++ (List.replicate k ' ' ++ rest))
      obtain ⟨b, more, blank', hcons, hread⟩ :=
        blockLines_line hl hbs (fun e he => hprintable e (by simp [he])) hnext
          (ending cs) blank lead breaks
      rw [hending, hend, hbody]
      simp only [List.append_assoc] at hread ⊢
      rw [hread, ih (fun e he => hprintable e (by simp [he])), prepend, hcons]
      simp

/-- Reading a literal block behind the line breaks that it starts with. -/
theorem blockLines_literal {bs cs : List Char} (hbs : ∀ b ∈ bs, isBreak b = true)
    (hcs : cs = [] ∨ Lined cs) (hne : bs ++ cs ≠ [])
    (hprintable : ∀ d ∈ bs ++ cs, isPrintable d = true) :
    ∃ col after,
      blockBreaks width 0 (literalBody true (bs ++ cs) ++
          (literalEnd (bs ++ cs) ++ (List.replicate k ' ' ++ rest))) = .ok (bs, col, after) ∧
        blockLines false (ending (bs ++ cs)) width false [] bs col after =
          .ok (bs ++ cs, rest) := by
  have hprint : ∀ d ∈ bs, isPrintable d = true :=
    fun d hd => hprintable d (List.mem_append_left cs hd)
  have hbody : literalBody true (bs ++ cs) = bs ++ literalBody true cs := by
    cases bs with
    | nil => rfl
    | cons b bs => exact literalBody_breaks ⟨List.cons_ne_nil b bs, hbs⟩ true cs
  rcases hcs with rfl | hlined
  · rw [List.append_nil] at hne hbody ⊢
    have hbreaks : AreBreaks bs := ⟨hne, hbs⟩
    refine ⟨k, rest, ?_, ?_⟩
    · rw [hbody, hbreaks.end_eq.2, literalBody, List.append_nil, List.nil_append]
      simpa using blockBreaks_breaks hprint hbs (blockBreaks_tail hk hrest)
    · rw [blockLines_end _ _ _ _ (Nat.ne_of_lt hk), hbreaks.end_eq.1, Chomping.apply,
        List.nil_append]
  · obtain ⟨hending, hend⟩ := hlined.append_eq bs
    refine ⟨width, literalBody false cs ++ (literalEnd cs ++ (List.replicate k ' ' ++ rest)),
      ?_, ?_⟩
    · have hline := hlined.blockBreaks_eq (literalEnd cs ++ (List.replicate k ' ' ++ rest))
      rw [hbody, hend, hlined.literalBody_eq, List.append_assoc, List.append_assoc]
      simpa using blockBreaks_breaks hprint hbs hline
    · rw [hending]
      exact hlined.blockLines_eq hk hrest
        (fun d hd => hprintable d (List.mem_append_right bs hd)) false [] bs

/-- A literal block inside a collection that is indented by two columns reads back. -/
theorem block_literal {cs : List Char} (hne : cs ≠ [])
    (hprintable : ∀ d ∈ cs, isPrintable d = true) :
    block false 3 (literalHeader cs ++ '\n' :: (literalBody true cs ++
        (literalEnd cs ++ (List.replicate k ' ' ++ rest)))) = .ok (cs, rest) := by
  obtain ⟨bs, ds, rfl, hbs, hds⟩ := breaks_or_lined cs
  obtain ⟨col, after, hbreaks, hlines⟩ := blockLines_literal hk hrest hbs hds hne hprintable
  rw [block, literalHeader_eq, blockHeader_literal]
  simp only [lineEnd_newline]
  cases hblank : startsBlank (bs ++ ds) with
  | true =>
      have hwidth : 3 - 1 + (if true = true then 2 else 0) = width := rfl
      rw [if_neg (by decide), hwidth, hbreaks]
      exact hlines
  | false =>
      obtain ⟨rfl, hlined⟩ := lined_of_not_startsBlank hbs hds hne hblank
      have hlead := hlined.leadingBreaks_eq hprintable hblank
        (literalEnd ds ++ (List.replicate k ' ' ++ rest))
      rw [if_pos (by decide), List.nil_append, hlead]
      exact hlined.blockLines_eq hk hrest hprintable false [] []

end Tail

end DiagramTint.Yaml.Scalar
