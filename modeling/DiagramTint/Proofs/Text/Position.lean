import DiagramTint.Text.Lines
import Mathlib.Data.List.Basic
import Mathlib.Data.List.TakeWhile

/-!
# Positions of characters

A character of a text stands on the row that counts the line feeds before it, at the column that
counts the characters since the last of these.  `CharAt` says this on the text itself; the rows of
`lines` and the functions `rowOf` and `Line.column` are then described through it.
-/

namespace DiagramTint.Text

/-- How many characters follow the last line feed of `pre`. -/
def columnAfter (pre : List Char) : Nat :=
  (pre.reverse.takeWhile (· ≠ '\n')).length

/-- Whether a character in front of `post` ends its line: a line feed does, and so does a carriage
return with nothing after it on the line. -/
def EndsLine (c : Char) (post : List Char) : Prop :=
  c = '\n' ∨ c = '\r' ∧ (post = [] ∨ post.head? = some '\n')

/-- Position `(row, col)` is a character of the text, line ends excluded, and the last byte of that
character has offset `last`. -/
def CharAt (source : List Char) (row col last : Nat) : Prop :=
  ∃ pre c post, source = pre ++ c :: post ∧ ¬ EndsLine c post ∧ row = pre.count '\n' ∧
    col = columnAfter pre ∧ last + 1 = byteLength pre + c.utf8Size

/-- The character at column `col` of a row, whose last byte has offset `last`. -/
def Line.HasChar (line : Line) (col last : Nat) : Prop :=
  col < line.chars.length ∧ last + 1 = line.start + byteLength (line.chars.take (col + 1))

theorem CharAt.lt_byteLength {source : List Char} {row col last : Nat}
    (h : CharAt source row col last) : last < byteLength source := by
  obtain ⟨pre, c, post, rfl, -, -, -, hlast⟩ := h
  simp only [byteLength_append, byteLength_cons]
  omega

/-! ## Cutting a text at its line feeds -/

theorem columnAfter_of_not_mem {pre : List Char} (h : '\n' ∉ pre) :
    columnAfter pre = pre.length := by
  have hall : ∀ c ∈ pre.reverse, decide (c ≠ '\n') = true := by
    intro c hc
    have hmem : c ∈ pre := List.mem_reverse.mp hc
    simp only [decide_eq_true_eq]
    rintro rfl
    exact h hmem
  rw [columnAfter, List.takeWhile_eq_self_iff.mpr hall, List.length_reverse]

theorem columnAfter_append_newline (line pre : List Char) :
    columnAfter (line ++ '\n' :: pre) = columnAfter pre := by
  have hstop : ∀ xs : List Char, (xs ++ '\n' :: line.reverse).takeWhile (· ≠ '\n') =
      xs.takeWhile (· ≠ '\n') := by
    intro xs
    induction xs with
    | nil => simp
    | cons c cs ih => simp only [List.cons_append, List.takeWhile_cons, ih]
  simp only [columnAfter, List.reverse_append, List.reverse_cons, List.append_assoc,
    List.singleton_append]
  rw [hstop]

theorem splitWhere_of_not_mem {line : List Char} (h : '\n' ∉ line) :
    splitWhere (· == '\n') line = [line] := by
  induction line with
  | nil => rfl
  | cons c cs ih =>
      have hc : c ≠ '\n' := by
        rintro rfl
        exact h List.mem_cons_self
      have hcs : '\n' ∉ cs := fun hmem => h (List.mem_cons_of_mem c hmem)
      simp [splitWhere, hc, ih hcs]

theorem splitWhere_append_newline {line : List Char} (rest : List Char) (h : '\n' ∉ line) :
    splitWhere (· == '\n') (line ++ '\n' :: rest) = line :: splitWhere (· == '\n') rest := by
  induction line with
  | nil => simp [splitWhere]
  | cons c cs ih =>
      have hc : c ≠ '\n' := by
        rintro rfl
        exact h List.mem_cons_self
      have hcs : '\n' ∉ cs := fun hmem => h (List.mem_cons_of_mem c hmem)
      simp [splitWhere, hc, ih hcs]

/-- A text is one line without line feed, or such a line, a line feed and a further text. -/
@[elab_as_elim]
theorem lineInduction {motive : List Char → Prop}
    (last : ∀ line, '\n' ∉ line → motive line)
    (cut : ∀ line rest, '\n' ∉ line → motive rest → motive (line ++ '\n' :: rest))
    (source : List Char) : motive source := by
  induction hn : source.length using Nat.strong_induction_on generalizing source with
  | _ n ih =>
      by_cases h : '\n' ∈ source
      · obtain ⟨line, rest, rfl, hline⟩ := List.eq_append_cons_of_mem h
        refine cut line rest hline (ih rest.length ?_ rest rfl)
        simp only [List.length_append, List.length_cons] at hn
        omega
      · exact last source h

/-! ## Characters of one line -/

theorem take_dropReturn {line : List Char} {col : Nat} (h : col < (dropReturn line).length) :
    (dropReturn line).take (col + 1) = line.take (col + 1) := by
  unfold dropReturn at h ⊢
  split
  · rename_i hlast
    rw [if_pos hlast, List.length_dropLast] at h
    rw [List.dropLast_eq_take, List.take_take, Nat.min_eq_left h]
  · rfl

theorem dropReturn_isPrefix (line : List Char) : dropReturn line <+: line := by
  unfold dropReturn
  split
  · exact List.dropLast_prefix line
  · exact List.prefix_rfl

theorem length_le_byteLength (cs : List Char) : cs.length ≤ byteLength cs := by
  induction cs with
  | nil => exact Nat.le_refl 0
  | cons c cs ih =>
      have hpos := c.utf8Size_pos
      simp only [List.length_cons, byteLength_cons]
      omega

theorem byteLength_take_succ_pos {cs : List Char} {col : Nat} (h : col < cs.length) :
    0 < byteLength (cs.take (col + 1)) := by
  have hlen := length_le_byteLength (cs.take (col + 1))
  rw [List.length_take_of_le h] at hlen
  omega

theorem byteLength_le_of_prefix {xs ys : List Char} (h : xs <+: ys) :
    byteLength xs ≤ byteLength ys := by
  obtain ⟨zs, rfl⟩ := h
  simp

/-- The characters of a line that a position can name are those that do not end it. -/
theorem length_lt_dropReturn_iff (pre post : List Char) (c : Char) :
    pre.length < (dropReturn (pre ++ c :: post)).length ↔ ¬ (c = '\r' ∧ post = []) := by
  cases post with
  | nil =>
      by_cases hc : c = '\r'
      · simp [dropReturn, hc]
      · simp [dropReturn, hc]
  | cons d post =>
      unfold dropReturn
      split
      · simp
      · simp

theorem charAt_of_not_mem {cs : List Char} {row col last : Nat} (h : '\n' ∉ cs) :
    CharAt cs row col last ↔
      row = 0 ∧ col < (dropReturn cs).length ∧ last + 1 = byteLength (cs.take (col + 1)) := by
  constructor
  · rintro ⟨pre, c, post, rfl, hends, hrow, hcol, hlast⟩
    have hpre : '\n' ∉ pre := fun hmem => h (List.mem_append_left _ hmem)
    rw [columnAfter_of_not_mem hpre] at hcol
    subst hcol
    refine ⟨?_, ?_, ?_⟩
    · rw [hrow, List.count_eq_zero_of_not_mem hpre]
    · rw [length_lt_dropReturn_iff]
      rintro ⟨hc, hpost⟩
      exact hends (Or.inr ⟨hc, Or.inl hpost⟩)
    · rw [hlast, List.take_append, List.take_of_length_le (Nat.le_succ _)]
      simp
  · rintro ⟨rfl, hcol, hlast⟩
    have hlen : col < cs.length := Nat.lt_of_lt_of_le hcol (dropReturn_isPrefix cs).length_le
    have hsplit : cs = cs.take col ++ cs[col] :: cs.drop (col + 1) := by
      rw [← List.drop_eq_getElem_cons hlen, List.take_append_drop]
    have hpre : '\n' ∉ cs.take col := fun hmem => h (List.mem_of_mem_take hmem)
    have hsize : (cs.take col).length = col := List.length_take_of_le (Nat.le_of_lt hlen)
    refine ⟨cs.take col, cs[col], cs.drop (col + 1), hsplit, ?_, ?_, ?_, ?_⟩
    · rintro (hc | ⟨hc, hpost⟩)
      · exact h (hc ▸ List.getElem_mem hlen)
      · have hpost' : cs.drop (col + 1) = [] := by
          rcases hpost with hnil | hhead
          · exact hnil
          · exact absurd (List.mem_of_mem_drop (List.mem_of_mem_head? hhead)) h
        have hlt := (length_lt_dropReturn_iff (cs.take col) (cs.drop (col + 1)) cs[col]).mp
        rw [← hsplit, hsize] at hlt
        exact hlt hcol ⟨hc, hpost'⟩
    · rw [List.count_eq_zero_of_not_mem hpre]
    · rw [columnAfter_of_not_mem hpre, hsize]
    · rw [hlast, List.take_succ_eq_append_getElem hlen, byteLength_append]
      simp

theorem not_charAt_succ {line : List Char} {row col last : Nat} (h : '\n' ∉ line) :
    ¬ CharAt line (row + 1) col last := by
  rw [charAt_of_not_mem h]
  rintro ⟨hrow, -⟩
  exact Nat.succ_ne_zero row hrow

theorem CharAt.append_newline {line rest : List Char} {row col last : Nat}
    (h : CharAt line row col last) : CharAt (line ++ '\n' :: rest) row col last := by
  obtain ⟨pre, c, post, rfl, hends, hrow, hcol, hlast⟩ := h
  refine ⟨pre, c, post ++ '\n' :: rest, by simp, ?_, hrow, hcol, hlast⟩
  rintro (hc | ⟨hc, hpost⟩)
  · exact hends (Or.inl hc)
  · cases post with
    | nil => exact hends (Or.inr ⟨hc, Or.inl rfl⟩)
    | cons d post => exact hends (Or.inr ⟨hc, Or.inr (by simpa using hpost)⟩)

theorem CharAt.below_newline {line rest : List Char} {row col last : Nat}
    (hrest : CharAt rest row col last) :
    CharAt (line ++ '\n' :: rest) (row + line.count '\n' + 1) col
      (byteLength line + 1 + last) := by
  obtain ⟨pre, c, post, rfl, hends, rfl, rfl, hlast⟩ := hrest
  refine ⟨line ++ '\n' :: pre, c, post, by simp, hends, ?_, ?_, ?_⟩
  · rw [List.count_append, List.count_cons_self]
    omega
  · rw [columnAfter_append_newline]
  · have hfeed : '\n'.utf8Size = 1 := rfl
    simp only [byteLength_append, byteLength_cons]
    omega

/-- The character in front of `post` stands on the first line or behind its line feed. -/
theorem cases_of_append_newline {line rest pre post : List Char} {c : Char}
    (hsource : line ++ '\n' :: rest = pre ++ c :: post) (hends : ¬ EndsLine c post) :
    (∃ mid, pre = line ++ '\n' :: mid ∧ rest = mid ++ c :: post) ∨
      ∃ mid, line = pre ++ c :: mid ∧ post = mid ++ '\n' :: rest := by
  rcases List.append_eq_append_iff.mp hsource with ⟨mid, hpre, hrest⟩ | ⟨mid, hline, hrest⟩
  · cases mid with
    | nil =>
        simp only [List.nil_append, List.cons.injEq] at hrest
        exact absurd (Or.inl hrest.1.symm) hends
    | cons d mid =>
        simp only [List.cons_append, List.cons.injEq] at hrest
        obtain ⟨rfl, hrest⟩ := hrest
        exact Or.inl ⟨mid, hpre, hrest⟩
  · cases mid with
    | nil =>
        simp only [List.nil_append, List.cons.injEq] at hrest
        exact absurd (Or.inl hrest.1) hends
    | cons d mid =>
        simp only [List.cons_append, List.cons.injEq] at hrest
        obtain ⟨rfl, hrest⟩ := hrest
        exact Or.inr ⟨mid, hline, hrest⟩

theorem charAt_append_newline {line rest : List Char} {row col last : Nat} :
    CharAt (line ++ '\n' :: rest) row col last ↔
      CharAt line row col last ∨
        ∃ row' last', row = row' + line.count '\n' + 1 ∧ last = byteLength line + 1 + last' ∧
          CharAt rest row' col last' := by
  constructor
  · rintro ⟨pre, c, post, hsource, hends, hrow, hcol, hlast⟩
    have hpos := c.utf8Size_pos
    rcases cases_of_append_newline hsource hends with ⟨mid, rfl, hrest⟩ | ⟨mid, hline, hpost⟩
    · refine Or.inr ⟨mid.count '\n', byteLength mid + c.utf8Size - 1, ?_, ?_, ?_⟩
      · rw [hrow, List.count_append, List.count_cons_self]
        omega
      · simp only [byteLength_append, byteLength_cons] at hlast
        have hfeed : '\n'.utf8Size = 1 := rfl
        omega
      · refine ⟨mid, c, post, hrest, hends, rfl, ?_, by omega⟩
        rw [hcol, columnAfter_append_newline]
    · refine Or.inl ⟨pre, c, mid, hline, ?_, hrow, hcol, hlast⟩
      rintro (hc | ⟨hc, rfl | hhead⟩)
      · exact hends (Or.inl hc)
      · exact hends (Or.inr ⟨hc, Or.inr (by simp [hpost])⟩)
      · exact hends (Or.inr ⟨hc, Or.inr (by simp [hpost, hhead])⟩)
  · intro hchar
    rcases hchar with hline | ⟨row', last', rfl, rfl, hrest⟩
    · exact hline.append_newline
    · exact hrest.below_newline

theorem CharAt.row_le {source : List Char} {row col last : Nat} (h : CharAt source row col last) :
    row ≤ source.count '\n' := by
  obtain ⟨pre, c, post, rfl, -, rfl, -, -⟩ := h
  rw [List.count_append]
  omega

/-- The characters of a text and of a text behind its last line feed. -/
theorem charAt_append {a b : List Char} {row col last : Nat} (h : a.getLast? = some '\n') :
    CharAt (a ++ b) row col last ↔
      CharAt a row col last ∨
        ∃ row' last', row = row' + a.count '\n' ∧ last = byteLength a + last' ∧
          CharAt b row' col last' := by
  obtain ⟨line, rfl⟩ := List.getLast?_eq_some_iff.mp h
  have hnone : ∀ row last, ¬ CharAt [] row col last := by
    rintro row last ⟨pre, c, post, hsource, -⟩
    simp at hsource
  have hfeed : '\n'.utf8Size = 1 := rfl
  rw [List.append_assoc, List.singleton_append, charAt_append_newline, charAt_append_newline]
  simp [hnone, hfeed, Nat.add_assoc]

theorem CharAt.row_lt {source : List Char} {row col last : Nat} (h : CharAt source row col last)
    (hend : source.getLast? = some '\n') : row < source.count '\n' := by
  obtain ⟨line, rfl⟩ := List.getLast?_eq_some_iff.mp hend
  rcases charAt_append_newline.mp h with hline | ⟨row', last', -, -, pre, c, post, hsource, -⟩
  · have hle := hline.row_le
    rw [List.count_append, List.count_singleton_self]
    omega
  · simp at hsource

/-! ## The rows of a text -/

theorem linesFrom_append_newline {line rest : List Char} (start : Nat) (h : '\n' ∉ line) :
    linesFrom start (splitWhere (· == '\n') (line ++ '\n' :: rest)) =
      ⟨start, dropReturn line⟩ ::
        linesFrom (start + byteLength line + 1) (splitWhere (· == '\n') rest) := by
  rw [splitWhere_append_newline rest h, linesFrom]

theorem hasChar_iff_charAt {line : List Char} {start col last : Nat} (h : '\n' ∉ line) :
    Line.HasChar ⟨start, dropReturn line⟩ col last ↔
      ∃ k, last = start + k ∧ CharAt line 0 col k := by
  constructor
  · rintro ⟨hcol, hlast⟩
    have hlen : col < line.length := Nat.lt_of_lt_of_le hcol (dropReturn_isPrefix line).length_le
    have hpos := byteLength_take_succ_pos hlen
    simp only [take_dropReturn hcol] at hlast
    exact ⟨last - start, by omega, (charAt_of_not_mem h).mpr ⟨rfl, hcol, by omega⟩⟩
  · rintro ⟨k, rfl, hchar⟩
    obtain ⟨-, hcol, hlast⟩ := (charAt_of_not_mem h).mp hchar
    refine ⟨hcol, ?_⟩
    simp only [take_dropReturn hcol, ← hlast]
    omega

theorem hasChar_linesFrom_iff (source : List Char) (start row col last : Nat) :
    (∃ line, (linesFrom start (splitWhere (· == '\n') source))[row]? = some line ∧
      line.HasChar col last) ↔ ∃ k, last = start + k ∧ CharAt source row col k := by
  induction source using lineInduction generalizing start row with
  | last line h =>
      rw [splitWhere_of_not_mem h]
      cases row with
      | zero => simp only [linesFrom, List.getElem?_cons_zero, Option.some.injEq, exists_eq_left',
          hasChar_iff_charAt h]
      | succ row => simp [linesFrom, not_charAt_succ h]
  | cut line rest h ih =>
      rw [linesFrom_append_newline start h]
      cases row with
      | zero =>
          simp only [List.getElem?_cons_zero, Option.some.injEq, exists_eq_left',
            hasChar_iff_charAt h, charAt_append_newline]
          simp
      | succ row =>
          have hcount := List.count_eq_zero_of_not_mem h
          rw [List.getElem?_cons_succ, ih]
          constructor
          · rintro ⟨k, rfl, hrest⟩
            refine ⟨byteLength line + 1 + k, by omega, ?_⟩
            exact charAt_append_newline.mpr (Or.inr ⟨row, k, by omega, rfl, hrest⟩)
          · rintro ⟨k, rfl, hchar⟩
            rcases charAt_append_newline.mp hchar with hline | ⟨row', k', hrow, rfl, hrest⟩
            · exact absurd hline (not_charAt_succ h)
            · obtain rfl : row = row' := by omega
              exact ⟨k', by omega, hrest⟩

/-- The rows of `lines` hold exactly the characters of the text, each at its place. -/
theorem charAt_iff_lines {source : List Char} {row col last : Nat} :
    CharAt source row col last ↔
      ∃ line, (lines source)[row]? = some line ∧ line.HasChar col last := by
  rw [lines, hasChar_linesFrom_iff]
  simp

theorem le_start_of_mem_linesFrom {rows : List (List Char)} {start : Nat} {line : Line}
    (h : line ∈ linesFrom start rows) : start ≤ line.start := by
  induction rows generalizing start with
  | nil => simp [linesFrom] at h
  | cons row rows ih =>
      rcases List.mem_cons.mp h with rfl | hrest
      · exact Nat.le_refl _
      · have hle := ih hrest
        omega

theorem pairwise_linesFrom (rows : List (List Char)) (start : Nat) :
    (linesFrom start rows).Pairwise fun a b => a.start + byteLength a.chars < b.start := by
  induction rows generalizing start with
  | nil => exact List.Pairwise.nil
  | cons row rows ih =>
      refine List.Pairwise.cons ?_ (ih _)
      intro line hline
      have hle := le_start_of_mem_linesFrom hline
      have hdrop := byteLength_le_of_prefix (dropReturn_isPrefix row)
      simp only
      omega

theorem pairwise_lines (source : List Char) :
    (lines source).Pairwise fun a b => a.start + byteLength a.chars < b.start :=
  pairwise_linesFrom _ 0

theorem head?_lines (source : List Char) : ∃ chars, (lines source).head? = some ⟨0, chars⟩ := by
  cases hrows : splitWhere (· == '\n') source with
  | nil => exact absurd hrows (splitWhere_ne_nil _ _)
  | cons row rows => exact ⟨dropReturn row, by rw [lines, hrows, linesFrom, List.head?_cons]⟩

/-! ## The row and the column of a byte -/

/-- In ascending rows, those that start at or before a byte come first. -/
theorem lt_length_filter_iff {rows : List Line} {row byte : Nat} {line : Line}
    (h : rows.Pairwise fun a b => a.start ≤ b.start) (hrow : rows[row]? = some line) :
    row < (rows.filter fun line => line.start ≤ byte).length ↔ line.start ≤ byte := by
  induction rows generalizing row with
  | nil => simp at hrow
  | cons first rows ih =>
      obtain ⟨hfirst, hrest⟩ := List.pairwise_cons.mp h
      by_cases hle : first.start ≤ byte
      · rw [List.filter_cons_of_pos (by simpa using hle), List.length_cons]
        cases row with
        | zero =>
            simp only [List.getElem?_cons_zero, Option.some.injEq] at hrow
            subst hrow
            simp [hle]
        | succ row => rw [Nat.add_lt_add_iff_right, ih hrest (by simpa using hrow)]
      · have hnone : rows.filter (fun line => line.start ≤ byte) = [] := by
          rw [List.filter_eq_nil_iff]
          intro other hother
          have hge := hfirst other hother
          simp only [decide_eq_true_eq]
          omega
        rw [List.filter_cons_of_neg (by simpa using hle), hnone]
        have hline : first.start ≤ line.start := by
          rcases List.mem_cons.mp (List.mem_of_getElem? hrow) with rfl | hmem
          · exact Nat.le_refl _
          · exact hfirst line hmem
        simp only [List.length_nil, Nat.not_lt_zero, false_iff]
        omega

theorem rowOf_lt_length (source : List Char) (byte : Nat) :
    rowOf (lines source) byte < (lines source).length := by
  obtain ⟨chars, hhead⟩ := head?_lines source
  have hpos : 0 < (lines source).length := by
    cases hlines : lines source with
    | nil => simp [hlines] at hhead
    | cons line rows => simp
  have hle := List.length_filter_le (fun line : Line => line.start ≤ byte) (lines source)
  unfold rowOf
  omega

/-- A byte stands on row `row` or below exactly if that row starts at or before it. -/
theorem le_rowOf_iff {source : List Char} {row : Nat} {line : Line}
    (h : (lines source)[row]? = some line) (byte : Nat) :
    row ≤ rowOf (lines source) byte ↔ line.start ≤ byte := by
  have hsorted : (lines source).Pairwise fun a b => a.start ≤ b.start :=
    (pairwise_lines source).imp fun hab => by omega
  have hpos : 0 < ((lines source).filter fun line => line.start ≤ byte).length := by
    obtain ⟨chars, hhead⟩ := head?_lines source
    rw [List.head?_eq_getElem?] at hhead
    exact (lt_length_filter_iff hsorted hhead).mpr (Nat.zero_le byte)
  rw [← lt_length_filter_iff hsorted h]
  unfold rowOf
  omega

theorem charsWithin_le_length (n : Nat) (cs : List Char) : charsWithin n cs ≤ cs.length := by
  induction cs generalizing n with
  | nil => exact Nat.le_refl 0
  | cons c cs ih =>
      have hle := ih (n - c.utf8Size)
      simp only [charsWithin, List.length_cons]
      split <;> omega

theorem lt_charsWithin_iff {n col : Nat} {cs : List Char} (h : col < cs.length) :
    col < charsWithin n cs ↔ byteLength (cs.take (col + 1)) ≤ n := by
  induction cs generalizing n col with
  | nil => simp at h
  | cons c cs ih =>
      rw [List.take_succ_cons, byteLength_cons, charsWithin]
      split
      · rename_i hfits
        cases col with
        | zero => simp [hfits]
        | succ col =>
            rw [Nat.add_lt_add_iff_right, ih (by simpa using h)]
            omega
      · omega

theorem Line.column_le_length (line : Line) (byte : Nat) : line.column byte ≤ line.chars.length :=
  charsWithin_le_length _ _

/-- A character is left of the column of a byte exactly if it ends before that byte. -/
theorem Line.HasChar.lt_column_iff {line : Line} {col last : Nat} (h : line.HasChar col last)
    (byte : Nat) : col < line.column byte ↔ last < byte := by
  obtain ⟨hcol, hlast⟩ := h
  have hpos := byteLength_take_succ_pos hcol
  rw [Line.column, lt_charsWithin_iff hcol]
  omega

theorem Line.HasChar.start_le {line : Line} {col last : Nat} (h : line.HasChar col last) :
    line.start ≤ last := by
  obtain ⟨hcol, hlast⟩ := h
  have hpos := byteLength_take_succ_pos hcol
  omega

theorem Line.HasChar.lt_start_of_lt {source : List Char} {row later col last : Nat}
    {line next : Line} (h : line.HasChar col last) (hline : (lines source)[row]? = some line)
    (hnext : (lines source)[later]? = some next) (hlt : row < later) : last < next.start := by
  obtain ⟨hcol, hlast⟩ := h
  have hle := byteLength_le_of_prefix (List.take_prefix (col + 1) line.chars)
  have hsep : line.start + byteLength line.chars < next.start := by
    obtain ⟨hrow, rfl⟩ := List.getElem?_eq_some_iff.mp hline
    obtain ⟨hlater, rfl⟩ := List.getElem?_eq_some_iff.mp hnext
    exact List.pairwise_iff_getElem.mp (pairwise_lines source) row later hrow hlater hlt
  omega

/-- A byte that stands below a row comes after every character of that row. -/
theorem Line.HasChar.lt_of_lt_rowOf {source : List Char} {row col last byte : Nat} {line : Line}
    (h : line.HasChar col last) (hline : (lines source)[row]? = some line)
    (hbyte : row < rowOf (lines source) byte) : last < byte := by
  have hlt := rowOf_lt_length source byte
  have hnext : (lines source)[row + 1]? = some (lines source)[row + 1] :=
    List.getElem?_eq_getElem (by omega)
  have hstart := h.lt_start_of_lt hline hnext (Nat.lt_succ_self row)
  exact Nat.lt_of_lt_of_le hstart ((le_rowOf_iff hnext byte).mp hbyte)

end DiagramTint.Text
