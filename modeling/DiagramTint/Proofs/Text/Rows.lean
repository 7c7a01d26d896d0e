import DiagramTint.Proofs.Text.Boundary

/-!
# The rows of a text

A text is what stands above a row, the row as it was written, and what follows it.  The rows that a
byte offset can fall on and the rows that are shown to a reader are two views of the same rows: they
have the same characters in all columns that a byte offset can have.
-/

namespace DiagramTint.Text

/-- A text cut at row `row`: `raw` is the row with its carriage return, if it has one, but without
its line feed. -/
structure CutAt (source : List Char) (row : Nat) (pre raw post : List Char) : Prop where
  whole : source = pre ++ (raw ++ post)
  clean : '\n' ∉ raw
  above : columnAfter pre = 0
  below : post = [] ∨ ∃ rest, post = '\n' :: rest
  number : pre.count '\n' = row

theorem exists_cutAt {source raw : List Char} {row : Nat}
    (h : (splitWhere (· == '\n') source)[row]? = some raw) :
    ∃ pre post, CutAt source row pre raw post := by
  induction source using lineInduction generalizing row with
  | last line hline =>
      rw [splitWhere_of_not_mem hline, List.getElem?_singleton] at h
      split at h
      · rename_i hrow
        rw [Option.some.injEq] at h
        subst h
        exact ⟨[], [], by simp, hline, rfl, Or.inl rfl, hrow.symm⟩
      · cases h
  | cut line rest hline ih =>
      rw [splitWhere_append_newline rest hline] at h
      cases row with
      | zero =>
          rw [List.getElem?_cons_zero, Option.some.injEq] at h
          subst h
          exact ⟨[], '\n' :: rest, rfl, hline, rfl, Or.inr ⟨rest, rfl⟩, rfl⟩
      | succ row =>
          rw [List.getElem?_cons_succ] at h
          obtain ⟨pre, post, hcut⟩ := ih h
          refine ⟨line ++ '\n' :: pre, post, ?_, hcut.clean, ?_, hcut.below, ?_⟩
          · rw [hcut.whole, List.append_assoc, List.cons_append]
          · rw [columnAfter_append_newline, hcut.above]
          · rw [List.count_append, List.count_cons_self, List.count_eq_zero_of_not_mem hline,
              hcut.number, Nat.zero_add]

theorem getElem?_linesFrom (start row : Nat) (rows : List (List Char)) :
    ((linesFrom start rows)[row]?).map Line.chars = rows[row]?.map dropReturn := by
  induction rows generalizing start row with
  | nil => rfl
  | cons raw rows ih =>
      cases row with
      | zero => rfl
      | succ row => rw [linesFrom, List.getElem?_cons_succ, List.getElem?_cons_succ, ih]

/-- Every row that a byte offset can fall on is one at which the text was cut. -/
theorem exists_raw {source : List Char} {row : Nat} {line : Line}
    (h : (lines source)[row]? = some line) :
    ∃ raw, (splitWhere (· == '\n') source)[row]? = some raw ∧ line.chars = dropReturn raw := by
  have hrow := getElem?_linesFrom 0 row (splitWhere (· == '\n') source)
  rw [← lines, h, Option.map_some, eq_comm, Option.map_eq_some_iff] at hrow
  obtain ⟨raw, hraw, hchars⟩ := hrow
  exact ⟨raw, hraw, hchars.symm⟩

theorem exists_row {source : List Char} {row : Nat} (h : row ≤ source.count '\n') :
    ∃ raw, (splitWhere (· == '\n') source)[row]? = some raw := by
  have hlength := length_lines source
  obtain ⟨raw, hraw, -⟩ :=
    exists_raw (List.getElem?_eq_getElem (l := lines source) (i := row) (by omega))
  exact ⟨raw, hraw⟩

/-- What follows a line feed, or the whole text, starts a row. -/
theorem getElem?_lines_count {pre : List Char} (h : columnAfter pre = 0) (post : List Char) :
    (lines (pre ++ post))[pre.count '\n']? =
      some ⟨byteLength pre, dropReturn (post.takeWhile (· ≠ '\n'))⟩ := by
  obtain ⟨⟨start, chars⟩, mid, hline, hmid, hstart, hchars⟩ := exists_linesFrom 0 pre post
  have hnil : mid = [] := List.eq_nil_of_length_eq_zero (hmid.trans h)
  rw [hnil, List.nil_append] at hchars
  rw [hnil, byteLength_nil, Nat.add_zero, Nat.zero_add] at hstart
  rw [lines, hline, ← hstart, ← hchars]

namespace CutAt

variable {source pre raw post : List Char} {row : Nat}

theorem getElem?_lines (h : CutAt source row pre raw post) :
    (lines source)[row]? = some ⟨byteLength pre, dropReturn raw⟩ := by
  have hraw : (raw ++ post).takeWhile (· ≠ '\n') = raw := by
    rw [takeWhile_append_of_not_mem post h.clean]
    rcases h.below with rfl | ⟨rest, rfl⟩ <;> simp
  rw [h.whole, ← h.number, getElem?_lines_count h.above, hraw]

/-- Where the next row starts, if there is one. -/
theorem getElem?_next (h : CutAt source row pre raw post) :
    (lines source)[row + 1]?.map Line.start =
      if post = [] then none else some (byteLength pre + byteLength raw + 1) := by
  have hraw := List.count_eq_zero_of_not_mem h.clean
  rcases h.below with rfl | ⟨rest, rfl⟩
  · have hlength : (lines source).length = row + 1 := by
      rw [length_lines, h.whole, List.append_nil, List.count_append, h.number, hraw, Nat.add_zero]
    rw [List.getElem?_eq_none (Nat.le_of_eq hlength), if_pos rfl, Option.map_none]
  · have hwhole : source = (pre ++ raw) ++ '\n' :: [] ++ rest := by
      rw [h.whole]
      simp
    have hcount : ((pre ++ raw) ++ '\n' :: []).count '\n' = row + 1 := by
      simp [h.number, hraw]
    have hcolumn : columnAfter ((pre ++ raw) ++ '\n' :: []) = 0 :=
      columnAfter_append_newline (pre ++ raw) []
    have hline := getElem?_lines_count hcolumn rest
    rw [hcount, ← hwhole] at hline
    have hfeed : '\n'.utf8Size = 1 := rfl
    simp [hline, hfeed, Nat.add_assoc]

end CutAt

/-- The text can be cut at every row that a byte offset can fall on. -/
theorem exists_cutAt_of_line {source : List Char} {row : Nat} {line : Line}
    (h : (lines source)[row]? = some line) :
    ∃ pre raw post, CutAt source row pre raw post ∧ line = ⟨byteLength pre, dropReturn raw⟩ := by
  obtain ⟨raw, hraw, -⟩ := exists_raw h
  obtain ⟨pre, post, hcut⟩ := exists_cutAt hraw
  refine ⟨pre, raw, post, hcut, ?_⟩
  apply Option.some.inj
  rw [← h, hcut.getElem?_lines]

/-- Lines that are each ended by a line feed are found again, with nothing behind the last of
them. -/
theorem splitWhere_flatMap {rows : List (List Char)} (h : ∀ row ∈ rows, '\n' ∉ row) :
    splitWhere (· == '\n') (rows.flatMap (· ++ ['\n'])) = rows ++ [[]] := by
  induction rows with
  | nil => rfl
  | cons row rows ih =>
      rw [List.forall_mem_cons] at h
      rw [List.flatMap_cons, List.append_assoc, List.singleton_append,
        splitWhere_append_newline _ h.1, ih h.2, List.cons_append]

/-! ## Rows as they are shown -/

/-- What is shown of the rows: the last one as it is, unless it is empty, and the others without a
carriage return. -/
theorem exists_printedLines (source : List Char) :
    ∃ front last, splitWhere (· == '\n') source = front ++ [last] ∧
      printedLines source = front.map dropReturn ++ if last = [] then [] else [last] := by
  rcases List.eq_nil_or_concat' (splitWhere (· == '\n') source) with hnil | ⟨front, last, hrows⟩
  · exact absurd hnil (splitWhere_ne_nil _ _)
  · refine ⟨front, last, hrows, ?_⟩
    simp [printedLines, hrows]

/-- A row with a character that a byte offset can name is shown, and from its first column to the
last of these it is shown as it is. -/
theorem exists_printed {source raw : List Char} {row : Nat}
    (h : (splitWhere (· == '\n') source)[row]? = some raw) (hne : dropReturn raw ≠ []) :
    ∃ printed, (printedLines source)[row]? = some printed ∧ dropReturn raw <+: printed ∧
      printed <+: raw := by
  obtain ⟨front, last, hrows, hprinted⟩ := exists_printedLines source
  rw [hrows] at h
  rw [hprinted]
  by_cases hrow : row < front.length
  · rw [List.getElem?_append_left hrow] at h
    refine ⟨dropReturn raw, ?_, List.prefix_rfl, dropReturn_isPrefix raw⟩
    rw [List.getElem?_append_left (by rwa [List.length_map]), List.getElem?_map, h,
      Option.map_some]
  · rw [List.getElem?_append_right (Nat.le_of_not_lt hrow), List.getElem?_singleton] at h
    have hlast : row - front.length = 0 := by
      by_contra hpos
      rw [if_neg hpos] at h
      cases h
    rw [if_pos hlast, Option.some.injEq] at h
    subst h
    have hsome : last ≠ [] := by
      rintro rfl
      exact hne rfl
    refine ⟨last, ?_, dropReturn_isPrefix last, List.prefix_rfl⟩
    rw [List.getElem?_append_right (by rw [List.length_map]; omega), List.length_map, hlast,
      if_neg hsome, List.getElem?_cons_zero]

/-- Both views of the rows have the same character in every column that a byte offset can have. -/
theorem printed_of_lines {source : List Char} {row col : Nat} {line : Line}
    (h : (lines source)[row]? = some line) (hcol : col < line.chars.length) :
    ∃ printed, (printedLines source)[row]? = some printed ∧ printed[col]? = line.chars[col]? := by
  obtain ⟨raw, hraw, hchars⟩ := exists_raw h
  rw [hchars] at hcol ⊢
  obtain ⟨printed, hprinted, ⟨tail, rfl⟩, -⟩ :=
    exists_printed hraw (List.ne_nil_of_length_pos (by omega))
  exact ⟨_, hprinted, List.getElem?_append_left hcol⟩

/-! ## The columns of a row -/

theorem length_columns {line : List Char} {stop : Nat} (h : stop ≤ line.length) (first : Nat) :
    (columns line first stop).length = stop - first := by
  rw [columns, List.length_drop, List.length_take_of_le h]

theorem mem_of_mem_columns {line : List Char} {first stop : Nat} {c : Char}
    (h : c ∈ columns line first stop) : c ∈ line :=
  List.mem_of_mem_take (List.mem_of_mem_drop h)

/-- What lies behind the last column makes no difference. -/
theorem columns_of_prefix {xs ys : List Char} {stop : Nat} (h : xs <+: ys) (hle : stop ≤ xs.length)
    (first : Nat) : columns ys first stop = columns xs first stop := by
  obtain ⟨zs, rfl⟩ := h
  rw [columns, columns, List.take_append_of_le_length hle]

theorem take_append_columns {first stop : Nat} (h : first ≤ stop) (line : List Char) :
    line.take first ++ columns line first stop = line.take stop := by
  have hsplit := List.take_append_drop first (line.take stop)
  rwa [List.take_take, Nat.min_eq_left h] at hsplit

/-- The columns of a row are a part of the text, on that row and from the first of these columns
on. -/
theorem CutAt.exists_columns {source pre raw post : List Char} {row first stop : Nat}
    (h : CutAt source row pre raw post) (hle : first ≤ stop) (hstop : stop ≤ raw.length) :
    ∃ front back, source = front ++ (columns raw first stop ++ back) ∧ front.count '\n' = row ∧
      columnAfter front = first := by
  have htake : '\n' ∉ raw.take first := fun hmem => h.clean (List.mem_of_mem_take hmem)
  refine ⟨pre ++ raw.take first, raw.drop stop ++ post, ?_, ?_, ?_⟩
  · calc source = pre ++ (raw.take stop ++ raw.drop stop ++ post) := by
          rw [List.take_append_drop, h.whole]
      _ = pre ++ (raw.take first ++ columns raw first stop ++ raw.drop stop ++ post) := by
          rw [take_append_columns hle]
      _ = pre ++ raw.take first ++ (columns raw first stop ++ (raw.drop stop ++ post)) := by
          simp only [List.append_assoc]
  · rw [List.count_append, h.number, List.count_eq_zero_of_not_mem htake, Nat.add_zero]
  · rw [columnAfter_append pre htake, h.above, Nat.zero_add,
      List.length_take_of_le (Nat.le_trans hle hstop)]

end DiagramTint.Text
