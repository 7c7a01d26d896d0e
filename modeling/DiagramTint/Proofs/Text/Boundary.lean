import DiagramTint.Proofs.Text.Offsets
import DiagramTint.Proofs.Token.Layout

/-!
# Bytes between characters

A byte offset that cuts no character is determined by its row and its column, as long as a character
follows it on the row.  A row and a column name one character at most.
-/

namespace DiagramTint.Text

variable {source : List Char} {a b : Nat} {line : Line}

/-- The row on which the text `pre` ends holds the last line of `pre`, if anything follows it. -/
theorem byteLength_eq_start_add {pre post : List Char}
    (hline : (lines (pre ++ post))[pre.count '\n']? = some line)
    (hlt : line.column (byteLength pre) < line.chars.length) :
    byteLength pre =
      line.start + byteLength (line.chars.take (line.column (byteLength pre))) := by
  obtain ⟨found, mid, hfound, hmid, hstart, hchars⟩ := exists_linesFrom 0 pre post
  obtain rfl : found = line := Option.some.inj (hfound.symm.trans hline)
  have hoffset : byteLength pre - found.start = byteLength mid := by omega
  rw [Line.column, hoffset, hchars] at hlt ⊢
  by_cases htail : post.takeWhile (· ≠ '\n') = []
  · -- At the end of its row the column is the length of the row.
    rw [htail, List.append_nil] at hlt
    have hle := byteLength_le_of_prefix (dropReturn_isPrefix mid)
    rw [charsWithin_of_le hle] at hlt
    omega
  · rw [dropReturn_append mid htail, charsWithin_append, List.take_left]
    omega

theorem IsBoundary.eq_start_add (h : IsBoundary source a)
    (hline : (lines source)[rowOf (lines source) a]? = some line)
    (hlt : line.column a < line.chars.length) :
    a = line.start + byteLength (line.chars.take (line.column a)) := by
  obtain ⟨pre, ⟨post, rfl⟩, rfl⟩ := h
  rw [rowOf_byteLength] at hline
  exact byteLength_eq_start_add hline hlt

theorem IsBoundary.eq_of_column_eq (ha : IsBoundary source a) (hb : IsBoundary source b)
    (hrow : rowOf (lines source) a = rowOf (lines source) b)
    (hline : (lines source)[rowOf (lines source) a]? = some line)
    (hcolumn : line.column a = line.column b) (hlt : line.column a < line.chars.length) :
    a = b := by
  have hfirst := ha.eq_start_add hline hlt
  rw [hrow] at hline
  rw [hcolumn] at hlt hfirst
  have hsecond := hb.eq_start_add hline hlt
  omega

/-- A byte between characters that comes before the end of a character comes before its start. -/
theorem IsBoundary.le_of_lt {pre post : List Char} {c : Char}
    (h : IsBoundary (pre ++ c :: post) a) (hlt : a < byteLength pre + c.utf8Size) :
    a ≤ byteLength pre := by
  obtain ⟨front, hfront, rfl⟩ := h
  have hchar : pre ++ [c] <+: pre ++ c :: post := ⟨post, by simp⟩
  rcases List.prefix_or_prefix_of_prefix hfront hchar with hle | hle
  · rcases List.prefix_concat_iff.mp hle with rfl | hle
    · simp at hlt
    · exact byteLength_le_of_prefix hle
  · have hge := byteLength_le_of_prefix hle
    simp only [byteLength_append, byteLength_cons, byteLength_nil] at hge
    omega

/-! ## Rows and columns of characters -/

theorem columnAfter_append (pre : List Char) {mid : List Char} (h : '\n' ∉ mid) :
    columnAfter (pre ++ mid) = columnAfter pre + mid.length := by
  have hmid : '\n' ∉ mid.reverse := by rwa [List.mem_reverse]
  rw [columnAfter, columnAfter, List.reverse_append, takeWhile_append_of_not_mem _ hmid,
    List.length_append, List.length_reverse, Nat.add_comm]

/-- Two positions in a text, one of them behind the other, differ in their row or their column. -/
theorem eq_of_position_eq {front back : List Char} (hpart : front <+: back)
    (hrow : back.count '\n' = front.count '\n') (hcol : columnAfter back = columnAfter front) :
    front = back := by
  obtain ⟨mid, rfl⟩ := hpart
  rw [List.count_append] at hrow
  have hmid : '\n' ∉ mid := List.count_eq_zero.mp (by omega)
  rw [columnAfter_append front hmid] at hcol
  have hnil : mid = [] := List.eq_nil_of_length_eq_zero (by omega)
  rw [hnil, List.append_nil]

/-- The character in front of which the text `pre` stands is the only one at its position. -/
theorem CharAt.last_eq {pre post : List Char} {c : Char} {last : Nat}
    (h : CharAt (pre ++ c :: post) (pre.count '\n') (columnAfter pre) last) :
    last + 1 = byteLength pre + c.utf8Size := by
  obtain ⟨front, d, back, hsource, -, hrow, hcol, hlast⟩ := h
  have hfront : front <+: pre ++ c :: post := ⟨d :: back, hsource.symm⟩
  have hpre : pre <+: pre ++ c :: post := ⟨c :: post, rfl⟩
  have hsame : pre = front := by
    rcases List.prefix_or_prefix_of_prefix hpre hfront with hle | hle
    · exact eq_of_position_eq hle hrow.symm hcol.symm
    · exact (eq_of_position_eq hle hrow hcol).symm
  subst hsame
  have htail : c = d ∧ post = back := by simpa using hsource
  rw [htail.1, hlast]

theorem length_lines (source : List Char) : (lines source).length = source.count '\n' + 1 := by
  have hlength : ∀ start, (linesFrom start (splitWhere (· == '\n') source)).length =
      source.count '\n' + 1 := by
    induction source using lineInduction with
    | last line h =>
        intro start
        rw [splitWhere_of_not_mem h, List.count_eq_zero_of_not_mem h]
        rfl
    | cut line rest h ih =>
        intro start
        rw [linesFrom_append_newline start h, List.length_cons, ih, List.count_append,
          List.count_eq_zero_of_not_mem h, List.count_cons_self, Nat.zero_add]
  exact hlength 0

end DiagramTint.Text
