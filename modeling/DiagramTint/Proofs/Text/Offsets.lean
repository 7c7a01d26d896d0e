import DiagramTint.Proofs.Text.Position

/-!
# From bytes to rows and columns

The byte behind the text `pre` stands on the row that counts the line feeds of `pre`, and rows and
columns grow with the byte.  A text within a line covers as many columns as it has characters, less
a carriage return that ends the line.
-/

namespace DiagramTint.Text

/-- The characters of a text in front of `post` that a column can name, if the text has no line
feed: all but a carriage return at the end of the line. -/
def visible (text post : List Char) : List Char :=
  if post = [] ∨ post.head? = some '\n' then dropReturn text else text

theorem visible_nil (post : List Char) : visible [] post = [] := by
  unfold visible
  split <;> rfl

theorem visible_ne_nil {c : Char} (h : c ≠ '\r') (text post : List Char) :
    visible (c :: text) post ≠ [] := by
  have hdrop : dropReturn (c :: text) ≠ [] := by
    cases text with
    | nil => simp [dropReturn, h]
    | cons d text =>
        unfold dropReturn
        split
        · simp
        · simp
  unfold visible
  split
  · exact hdrop
  · exact List.cons_ne_nil c text

/-! ## Rows -/

theorem takeWhile_append_of_not_mem {pre : List Char} (post : List Char) (h : '\n' ∉ pre) :
    (pre ++ post).takeWhile (· ≠ '\n') = pre ++ post.takeWhile (· ≠ '\n') := by
  apply List.takeWhile_append_of_pos
  intro c hc
  simp only [decide_eq_true_eq]
  rintro rfl
  exact h hc

theorem splitWhere_eq_cons (cs : List Char) :
    ∃ rows, splitWhere (· == '\n') cs = cs.takeWhile (· ≠ '\n') :: rows := by
  induction cs using lineInduction with
  | last line h =>
      have hwhole := takeWhile_append_of_not_mem [] h
      simp only [List.append_nil, List.takeWhile_nil] at hwhole
      exact ⟨[], by rw [splitWhere_of_not_mem h, hwhole]⟩
  | cut line rest h _ =>
      refine ⟨splitWhere (· == '\n') rest, ?_⟩
      rw [splitWhere_append_newline rest h, takeWhile_append_of_not_mem _ h]
      simp

theorem length_filter_linesFrom (start : Nat) (pre post : List Char) :
    ((linesFrom start (splitWhere (· == '\n') (pre ++ post))).filter fun line =>
      line.start ≤ start + byteLength pre).length = pre.count '\n' + 1 := by
  induction pre using lineInduction generalizing start with
  | last pre h =>
      obtain ⟨rows, hrows⟩ := splitWhere_eq_cons (pre ++ post)
      rw [takeWhile_append_of_not_mem post h] at hrows
      have hnone : (linesFrom (start + byteLength (pre ++ post.takeWhile (· ≠ '\n')) + 1)
          rows).filter (fun line => line.start ≤ start + byteLength pre) = [] := by
        rw [List.filter_eq_nil_iff]
        intro line hline
        have hle := le_start_of_mem_linesFrom hline
        rw [byteLength_append] at hle
        simp only [decide_eq_true_eq]
        omega
      rw [hrows, linesFrom, List.filter_cons_of_pos (by simp), hnone,
        List.count_eq_zero_of_not_mem h]
      rfl
  | cut line pre h ih =>
      have hstart : start + byteLength (line ++ '\n' :: pre) =
          start + byteLength line + 1 + byteLength pre := by
        have hfeed : '\n'.utf8Size = 1 := rfl
        simp only [byteLength_append, byteLength_cons]
        omega
      rw [List.append_assoc, List.cons_append, linesFrom_append_newline start h, hstart,
        List.filter_cons_of_pos (by simp only [decide_eq_true_eq]; omega), List.length_cons, ih,
        List.count_append, List.count_eq_zero_of_not_mem h, List.count_cons_self, Nat.zero_add]

/-- The row of a byte counts the line feeds before it. -/
theorem rowOf_byteLength (pre post : List Char) :
    rowOf (lines (pre ++ post)) (byteLength pre) = pre.count '\n' := by
  have hlength := length_filter_linesFrom 0 pre post
  rw [Nat.zero_add] at hlength
  rw [rowOf, lines, hlength, Nat.add_sub_cancel]

theorem rowOf_mono {rows : List Line} {a b : Nat} (h : a ≤ b) : rowOf rows a ≤ rowOf rows b := by
  have hsub : ((rows.filter fun line => line.start ≤ a).length ≤
      (rows.filter fun line => line.start ≤ b).length) := by
    simp only [← List.countP_eq_length_filter]
    apply List.countP_mono_left
    intro line _ hle
    simp only [decide_eq_true_eq] at hle ⊢
    omega
  unfold rowOf
  omega

/-- The row of the byte behind `pre` holds the last line of `pre` and what follows it up to the next
line feed. -/
theorem exists_linesFrom (start : Nat) (pre post : List Char) :
    ∃ line mid, (linesFrom start (splitWhere (· == '\n') (pre ++ post)))[pre.count '\n']? =
        some line ∧ mid.length = columnAfter pre ∧
      line.start + byteLength mid = start + byteLength pre ∧
      line.chars = dropReturn (mid ++ post.takeWhile (· ≠ '\n')) := by
  induction pre using lineInduction generalizing start with
  | last pre h =>
      obtain ⟨rows, hrows⟩ := splitWhere_eq_cons (pre ++ post)
      rw [takeWhile_append_of_not_mem post h] at hrows
      refine ⟨⟨start, dropReturn (pre ++ post.takeWhile (· ≠ '\n'))⟩, pre, ?_, ?_, rfl, rfl⟩
      · rw [hrows, linesFrom, List.count_eq_zero_of_not_mem h, List.getElem?_cons_zero]
      · rw [columnAfter_of_not_mem h]
  | cut line pre h ih =>
      obtain ⟨found, mid, hfound, hmid, hstart, hchars⟩ := ih (start + byteLength line + 1)
      refine ⟨found, mid, ?_, ?_, ?_, hchars⟩
      · rw [List.append_assoc, List.cons_append, linesFrom_append_newline start h,
          List.count_append, List.count_eq_zero_of_not_mem h, List.count_cons_self, Nat.zero_add,
          List.getElem?_cons_succ, hfound]
      · rw [columnAfter_append_newline, hmid]
      · have hfeed : '\n'.utf8Size = 1 := rfl
        simp only [byteLength_append, byteLength_cons]
        omega

/-! ## Columns -/

theorem charsWithin_append (xs ys : List Char) :
    charsWithin (byteLength xs) (xs ++ ys) = xs.length := by
  induction xs with
  | nil =>
      cases ys with
      | nil => rfl
      | cons c cs =>
          have hpos := c.utf8Size_pos
          simp only [byteLength_nil, List.nil_append, charsWithin, List.length_nil]
          rw [if_neg (by omega)]
  | cons c xs ih =>
      rw [List.cons_append, byteLength_cons, charsWithin, if_pos (by omega), Nat.add_sub_cancel_left,
        ih, List.length_cons]

theorem charsWithin_of_le {n : Nat} {cs : List Char} (h : byteLength cs ≤ n) :
    charsWithin n cs = cs.length := by
  induction cs generalizing n with
  | nil => rfl
  | cons c cs ih =>
      rw [byteLength_cons] at h
      rw [charsWithin, if_pos (by omega), ih (by omega), List.length_cons]

theorem charsWithin_mono {a b : Nat} (h : a ≤ b) (cs : List Char) :
    charsWithin a cs ≤ charsWithin b cs := by
  induction cs generalizing a b with
  | nil => exact Nat.le_refl 0
  | cons c cs ih =>
      have hle := ih (Nat.sub_le_sub_right h c.utf8Size)
      simp only [charsWithin]
      split
      · rw [if_pos (by omega)]
        omega
      · omega

theorem Line.column_mono {a b : Nat} (h : a ≤ b) (line : Line) : line.column a ≤ line.column b :=
  charsWithin_mono (Nat.sub_le_sub_right h line.start) line.chars

theorem dropReturn_append (xs : List Char) {ys : List Char} (h : ys ≠ []) :
    dropReturn (xs ++ ys) = xs ++ dropReturn ys := by
  unfold dropReturn
  rw [List.getLast?_append_of_ne_nil _ h, List.dropLast_append_of_ne_nil h]
  split <;> rfl

theorem eq_nil_or_head?_of_takeWhile {cs : List Char} (h : cs.takeWhile (· ≠ '\n') = []) :
    cs = [] ∨ cs.head? = some '\n' := by
  cases cs with
  | nil => exact Or.inl rfl
  | cons c cs =>
      right
      by_contra hc
      have hc' : c ≠ '\n' := by simpa using hc
      simp [hc'] at h

/-- The columns of a text within a line. -/
theorem exists_columns {text : List Char} (htext : '\n' ∉ text) (hne : text ≠ [])
    (pre post : List Char) :
    ∃ line, (lines (pre ++ (text ++ post)))[pre.count '\n']? = some line ∧
      line.column (byteLength pre) = columnAfter pre ∧
      line.column (byteLength (pre ++ text)) = columnAfter pre + (visible text post).length := by
  obtain ⟨line, mid, hline, hmid, hstart, hchars⟩ := exists_linesFrom 0 pre (text ++ post)
  rw [takeWhile_append_of_not_mem post htext] at hchars
  have hfirst : byteLength pre - line.start = byteLength mid := by omega
  have hstop : byteLength (pre ++ text) - line.start = byteLength (mid ++ text) := by
    rw [byteLength_append, byteLength_append]
    omega
  refine ⟨line, hline, ?_, ?_⟩
  · rw [Line.column, hchars, dropReturn_append mid (by simp [hne]), hfirst, charsWithin_append, hmid]
  · rw [Line.column, hchars, hstop, ← hmid, ← List.length_append]
    cases htail : post.takeWhile (· ≠ '\n') with
    | nil =>
        rw [visible, if_pos (eq_nil_or_head?_of_takeWhile htail), List.append_nil,
          dropReturn_append mid hne]
        apply charsWithin_of_le
        have hle := byteLength_le_of_prefix (dropReturn_isPrefix text)
        rw [byteLength_append, byteLength_append]
        omega
    | cons c cs =>
        have hends : ¬ (post = [] ∨ post.head? = some '\n') := by
          rintro (rfl | hhead)
          · simp at htail
          · cases post with
            | nil => simp at hhead
            | cons d ds =>
                rw [List.head?_cons, Option.some.injEq] at hhead
                simp [hhead] at htail
        rw [visible, if_neg hends, ← List.append_assoc, dropReturn_append _ (List.cons_ne_nil c cs)]
        exact charsWithin_append _ _

end DiagramTint.Text
