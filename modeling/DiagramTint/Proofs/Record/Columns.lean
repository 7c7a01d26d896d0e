import DiagramTint.Proofs.Highlights.Safety

/-!
# The text of a record

The columns of a highlight are found on the rows that a byte offset can fall on, and its text is cut
from the rows that are shown to a reader.  For the highlights of a painted tree the two fit: the text
of a record is the part of the source that its line and columns name, with nothing missing.
-/

namespace DiagramTint

namespace Record

/-! ## Records of any highlights -/

theorem ofHighlight?_eq {h : Highlight} (hle : h.first ≤ h.stop) (lines : List (List Char))
    (row : Nat) : ofHighlight? lines row h = some (ofHighlight lines row h) := by
  rw [ofHighlight?, ofHighlight]
  cases lines[row]? with
  | none => simp [Text.columns]
  | some line =>
      simp only [Text.columns?_eq hle, Option.bind_eq_bind, Option.bind_some, Option.pure_def,
        Option.getD_some]

/-- Every text of a record can be cut if no highlight is reversed. -/
theorem ofHighlights?_eq {h : Highlights} (hle : ∀ item ∈ h.flatten, item.2.first ≤ item.2.stop)
    (source : List Char) : ofHighlights? source h = some (ofHighlights source h) :=
  mapM_eq_some fun item hitem => ofHighlight?_eq (hle item hitem) _ _

/-! ## Records of a painted tree -/

section Painting

variable {language : String} {table : RuleTable} {source : List Char} {tree : Tree String}

theorem exists_raw_of_mem_flatten {item : Nat × Highlight}
    (h : item ∈ (paint language table source tree).flatten) :
    ∃ raw, (Text.splitWhere (· == '\n') source)[item.1]? = some raw ∧
      item.2.first < item.2.stop ∧ item.2.stop ≤ (Text.dropReturn raw).length := by
  obtain ⟨entry, hentry, hrow, hitem⟩ := Highlights.mem_flatten.mp h
  obtain ⟨hle, hline, -⟩ := mem_lines_paint hentry
  rw [hrow] at hle hline
  obtain ⟨raw, hraw⟩ := Text.exists_row hle
  rw [hline] at hitem
  exact ⟨raw, hraw, columns_of_mem_line hraw hitem⟩

/-- The text of a highlight is cut from the row as it was written. -/
theorem text_ofHighlight {raw : List Char} {row : Nat} {h : Highlight}
    (hraw : (Text.splitWhere (· == '\n') source)[row]? = some raw) (hlt : h.first < h.stop)
    (hstop : h.stop ≤ (Text.dropReturn raw).length) :
    (ofHighlight (Text.printedLines source) row h).text = Text.columns raw h.first h.stop := by
  obtain ⟨printed, hprinted, hfront, hback⟩ :=
    Text.exists_printed hraw (List.ne_nil_of_length_pos (by omega))
  have hle : h.stop ≤ printed.length := Nat.le_trans hstop hfront.length_le
  rw [ofHighlight, hprinted, Option.getD_some, Text.columns_of_prefix hback hle]

end Painting

/-- Each record of a painted tree has as many characters as columns, and these are the characters
of the source on its line from its first column on, none of them a line feed.  The rows of the
painting and the rows shown to a reader agree on every column that can carry a highlight. -/
theorem ofHighlights_paint_text (language : String) (table : RuleTable) (source : List Char)
    (tree : Tree String) :
    ofHighlights? source (paint language table source tree) =
        some (ofHighlights source (paint language table source tree)) ∧
      (∀ r ∈ ofHighlights source (paint language table source tree),
        1 ≤ r.start ∧ r.start ≤ r.stop ∧ r.text.length = r.stop - r.start + 1 ∧ '\n' ∉ r.text ∧
          ∃ pre post, source = pre ++ (r.text ++ post) ∧ r.line = pre.count '\n' + 1 ∧
            r.start = Text.columnAfter pre + 1) ∧
      ∀ (row col : Nat) (line : Text.Line), (Text.lines source)[row]? = some line →
        col < line.chars.length → ∃ printed, (Text.printedLines source)[row]? = some printed ∧
          printed[col]? = line.chars[col]? := by
  refine ⟨ofHighlights?_eq ?_ source, ?_, fun _ _ _ hline hcol => Text.printed_of_lines hline hcol⟩
  · intro item hitem
    obtain ⟨raw, -, hlt, -⟩ := exists_raw_of_mem_flatten hitem
    exact Nat.le_of_lt hlt
  · intro r hr
    obtain ⟨item, hitem, rfl⟩ := List.mem_map.mp hr
    obtain ⟨raw, hraw, hlt, hstop⟩ := exists_raw_of_mem_flatten hitem
    obtain ⟨pre, post, hcut⟩ := Text.exists_cutAt hraw
    have hle : item.2.stop ≤ raw.length :=
      Nat.le_trans hstop (Text.dropReturn_isPrefix raw).length_le
    obtain ⟨front, back, hsource, hcount, hcolumn⟩ := hcut.exists_columns (Nat.le_of_lt hlt) hle
    rw [text_ofHighlight hraw hlt hstop]
    refine ⟨Nat.le_add_left 1 _, hlt, ?_, ?_, front, back, hsource, ?_, ?_⟩
    · rw [Text.length_columns hle]
      simp only [ofHighlight]
      omega
    · exact fun hmem => hcut.clean (Text.mem_of_mem_columns hmem)
    · rw [hcount]
      rfl
    · rw [hcolumn]
      rfl

theorem ofHighlights_paint_tangledTree :
    ⟨2, 1, 2, .string, ['b', '→']⟩ ∈
        ofHighlights tangledText (paint "test" tangledTable tangledText tangledTree) ∧
      ∃ pre post, tangledText = pre ++ (['b', '→'] ++ post) ∧ 2 = pre.count '\n' + 1 ∧
        1 = Text.columnAfter pre + 1 := by
  have hitem : (1, ⟨0, 2, .string⟩) ∈
      (paint "test" tangledTable tangledText tangledTree).flatten := by
    have hline : ⟨0, 2, .string⟩ ∈
        (paint "test" tangledTable tangledText tangledTree).line 1 := by
      rw [mem_line_paint]
      decide +kernel
    exact Highlights.mem_flatten.mpr ⟨_, mem_lines_of_mem_line hline, rfl, hline⟩
  have hmem : ⟨2, 1, 2, .string, ['b', '→']⟩ ∈
      ofHighlights tangledText (paint "test" tangledTable tangledText tangledTree) :=
    List.mem_map.mpr ⟨_, hitem, by decide⟩
  obtain ⟨-, hrecords, -⟩ :=
    ofHighlights_paint_text "test" tangledTable tangledText tangledTree
  obtain ⟨-, -, -, -, hplace⟩ := hrecords _ hmem
  exact ⟨hmem, hplace⟩

end Record

end DiagramTint
