import DiagramTint.Proofs.Text.Index
import Mathlib.Data.Nat.Count
import Mathlib.Data.Prod.Lex

/-!
# Positions by counting

The row of a byte offset is the number of line feeds among the bytes before it, and its column is the
number of characters of that row that end at or before it.  Neither count mentions where rows start,
how a row is searched for or how an offset inside a character is moved.
-/

namespace DiagramTint.Text

/-- The bytes of a text in UTF-8. -/
def bytes (cs : List Char) : List UInt8 :=
  cs.flatMap String.utf8EncodeChar

/-- The row and the column of a byte offset. -/
def position (source : List Char) (byte : Nat) : Nat × Nat :=
  let row := rowOf (lines source) byte
  (row, ((lines source)[row]?.getD default).column byte)

/-- The row and the column of a byte offset, as an index finds them. -/
def Index.position? (x : Index) (byte : Nat) : Option (Nat × Nat) := do
  let row ← x.rowOf? byte
  let col ← x.column? row byte
  return (row, col)

/-! ## Line feeds among bytes -/

/-- A character of one byte is that byte, and the bytes of any other are at least 128. -/
theorem toNat_of_mem_utf8EncodeChar {c : Char} {b : UInt8} (h : b ∈ String.utf8EncodeChar c) :
    b.toNat = c.toNat ∨ 128 ≤ b.toNat := by
  have hval : c.val.toNat = c.toNat := rfl
  unfold String.utf8EncodeChar at h
  rw [hval] at h
  simp only at h
  split_ifs at h
  · rw [List.mem_singleton] at h
    rw [h, UInt8.toNat_ofNat']
    omega
  all_goals
    right
    simp only [List.mem_cons, List.not_mem_nil, or_false] at h
    rcases h with rfl | rfl | rfl | rfl
    all_goals
      rw [UInt8.toNat_ofNat']
      omega

theorem lineFeed_not_mem_utf8EncodeChar {c : Char} (h : c ≠ '\n') :
    '\n'.toUInt8 ∉ String.utf8EncodeChar c := by
  intro hmem
  have hfeed : '\n'.toUInt8.toNat = '\n'.toNat := rfl
  have hten : '\n'.toNat = 10 := rfl
  have hcode := toNat_of_mem_utf8EncodeChar hmem
  apply h
  apply Char.toNat_inj.mp
  omega

theorem lt_of_mem_startsAfter {offset start : Nat} {cs : List Char}
    (h : start ∈ startsAfter offset cs) : offset < start := by
  induction cs generalizing offset with
  | nil => cases h
  | cons c cs ih =>
      have hpos := c.utf8Size_pos
      rw [startsAfter] at h
      split at h
      · rcases List.mem_cons.mp h with rfl | hrest
        · omega
        · have hlt := ih hrest
          omega
      · have hlt := ih h
        omega

/-- The rows that start within the next `n` bytes are as many as the line feeds among these. -/
theorem countP_startsAfter (offset n : Nat) (cs : List Char) :
    (startsAfter offset cs).countP (· ≤ offset + n) =
      ((bytes cs).take n).count '\n'.toUInt8 := by
  induction cs generalizing offset n with
  | nil => simp [startsAfter, bytes]
  | cons c cs ih =>
      have hsize := String.length_utf8EncodeChar c
      -- Behind the first character, whether or not it ends within the `n` bytes.
      have hrest : (startsAfter (offset + c.utf8Size) cs).countP (· ≤ offset + n) =
          ((bytes cs).take (n - c.utf8Size)).count '\n'.toUInt8 := by
        rw [← ih (offset + c.utf8Size)]
        apply List.countP_congr
        intro start hstart
        have hlt := lt_of_mem_startsAfter hstart
        simp only [decide_eq_true_eq]
        omega
      have hbytes : (bytes (c :: cs)).take n =
          (String.utf8EncodeChar c).take n ++ (bytes cs).take (n - c.utf8Size) := by
        rw [← hsize, ← List.take_append]
        rfl
      rw [startsAfter, hbytes, List.count_append, ← hrest]
      split
      · rename_i hc
        subst hc
        have hfeed : '\n'.utf8Size = 1 := rfl
        have hbyte : String.utf8EncodeChar '\n' = ['\n'.toUInt8] := rfl
        rw [List.countP_cons, Nat.add_comm, Nat.add_right_cancel_iff, hfeed, hbyte]
        cases n with
        | zero => simp
        | succ n => simp
      · rename_i hc
        have hnone : '\n'.toUInt8 ∉ (String.utf8EncodeChar c).take n :=
          fun hmem => lineFeed_not_mem_utf8EncodeChar hc (List.mem_of_mem_take hmem)
        rw [List.count_eq_zero_of_not_mem hnone, Nat.zero_add]

/-- The row of a byte is the number of line feeds before it. -/
theorem rowOf_eq_count (source : List Char) (byte : Nat) :
    rowOf (lines source) byte = ((bytes source).take byte).count '\n'.toUInt8 := by
  have hstarts := map_start_linesFrom 0 source
  have hcount := countP_startsAfter 0 byte source
  rw [Nat.zero_add] at hcount
  calc rowOf (lines source) byte
      = ((lines source).map Line.start).countP (· ≤ byte) - 1 := by
        rw [rowOf, List.countP_map, List.countP_eq_length_filter]
        rfl
    _ = (startsAfter 0 source).countP (· ≤ byte) := by
        rw [lines, hstarts, List.countP_cons_of_pos (by simp), Nat.add_sub_cancel]
    _ = ((bytes source).take byte).count '\n'.toUInt8 := hcount

/-! ## Characters of a row -/

theorem charsWithin_eq_count (n : Nat) (cs : List Char) :
    charsWithin n cs = Nat.count (fun i => byteLength (cs.take (i + 1)) ≤ n) cs.length := by
  have hle := charsWithin_le_length n cs
  have hcounted : (Finset.range cs.length).filter (fun i => byteLength (cs.take (i + 1)) ≤ n) =
      Finset.range (charsWithin n cs) := by
    ext i
    simp only [Finset.mem_filter, Finset.mem_range]
    constructor
    · rintro ⟨hi, hends⟩
      exact (lt_charsWithin_iff hi).mpr hends
    · intro hi
      have hlen : i < cs.length := by omega
      exact ⟨hlen, (lt_charsWithin_iff hlen).mp hi⟩
  rw [Nat.count_eq_card_filter_range, hcounted, Finset.card_range]

/-- The column of a byte is the number of characters of the row that end at or before it. -/
theorem Line.column_eq_count {line : Line} {byte : Nat} (h : line.start ≤ byte) :
    line.column byte = Nat.count
      (fun i => line.start + byteLength (line.chars.take (i + 1)) ≤ byte) line.chars.length := by
  rw [Line.column, charsWithin_eq_count]
  congr 1
  ext i
  omega

/-- The character in front of which the text `pre` ends is found at its row and column, unless it
ends its line. -/
theorem exists_line_of_char (pre : List Char) {post : List Char} {c : Char}
    (h : ¬ EndsLine c post) :
    ∃ line, (lines (pre ++ c :: post))[pre.count '\n']? = some line ∧
      line.chars[line.column (byteLength pre)]? = some c := by
  obtain ⟨line, mid, hline, -, hstart, hchars⟩ := exists_linesFrom 0 pre (c :: post)
  have hc : c ≠ '\n' := fun hc => h (Or.inl hc)
  have htake : (c :: post).takeWhile (· ≠ '\n') = c :: post.takeWhile (· ≠ '\n') :=
    List.takeWhile_cons_of_pos (by simpa using hc)
  have hoffset : byteLength pre - line.start = byteLength mid := by omega
  refine ⟨line, hline, ?_⟩
  rw [htake] at hchars
  have hcol : line.column (byteLength pre) = mid.length := by
    rw [Line.column, hoffset, hchars, dropReturn_append mid (List.cons_ne_nil c _),
      charsWithin_append]
  have hkept : mid.length < line.chars.length := by
    rw [hchars, length_lt_dropReturn_iff]
    rintro ⟨hreturn, hnil⟩
    exact h (Or.inr ⟨hreturn, eq_nil_or_head?_of_takeWhile hnil⟩)
  obtain ⟨cut, hcut⟩ := dropReturn_isPrefix (mid ++ c :: post.takeWhile (· ≠ '\n'))
  rw [← hchars] at hcut
  rw [hcol, ← List.getElem?_append_left hkept, hcut]
  simp

/-! ## The position of a byte -/

theorem exists_line (source : List Char) (byte : Nat) :
    ∃ line, (lines source)[rowOf (lines source) byte]? = some line ∧ line.start ≤ byte ∧
      position source byte = (rowOf (lines source) byte, line.column byte) := by
  have hline := List.getElem?_eq_getElem (rowOf_lt_length source byte)
  refine ⟨_, hline, (le_rowOf_iff hline byte).mp (Nat.le_refl _), ?_⟩
  rw [position, hline, Option.getD_some]

theorem Index.position?_eq (source : List Char) (byte : Nat) :
    (ofText source).position? byte = some (position source byte) := by
  obtain ⟨line, hline, hstart, hposition⟩ := exists_line source byte
  simp only [position?, rowOf?_eq, column?_eq hline hstart, hposition, Option.bind_eq_bind,
    Option.bind_some, Option.pure_def]

/-- Rows grow with the byte, and columns do as long as the row is the same. -/
theorem position_mono {source : List Char} {a b : Nat} (h : a ≤ b) :
    toLex (position source a) ≤ toLex (position source b) := by
  have hrow : rowOf (lines source) a ≤ rowOf (lines source) b := rowOf_mono h
  rw [Prod.Lex.toLex_le_toLex]
  rcases Nat.lt_or_eq_of_le hrow with hlt | heq
  · exact Or.inl hlt
  · right
    refine ⟨heq, ?_⟩
    unfold position
    simp only [heq]
    exact Line.column_mono h _

/-- The index of a text finds a row and a column for every byte offset, also inside a character or a
line end and past the text.  The row counts the line feeds before the offset; the column counts the
characters of the row, without its line end, that end at or before it.  A later offset is on a later
row or, on the same row, in no earlier column, and a character that does not end its line is the one
at the position of its first byte. -/
theorem position_counts (source : List Char) (byte : Nat) :
    (Index.ofText source).position? byte = some (position source byte) ∧
    (position source byte).1 = ((bytes source).take byte).count '\n'.toUInt8 ∧
    (∃ pre raw post, CutAt source (position source byte).1 pre raw post ∧
      (Index.ofText source).line? (position source byte).1 = some (dropReturn raw) ∧
      (position source byte).2 = Nat.count
        (fun i => byteLength (pre ++ (dropReturn raw).take (i + 1)) ≤ byte)
        (dropReturn raw).length ∧
      ∀ front c back, source = front ++ c :: back → byteLength front = byte →
        ¬ EndsLine c back → (dropReturn raw)[(position source byte).2]? = some c) ∧
    ∀ later, byte ≤ later → toLex (position source byte) ≤ toLex (position source later) := by
  refine ⟨Index.position?_eq source byte, ?_, ?_, fun later => position_mono⟩
  · exact rowOf_eq_count source byte
  · obtain ⟨line, hline, hstart, hposition⟩ := exists_line source byte
    obtain ⟨pre, raw, post, hcut, rfl⟩ := exists_cutAt_of_line hline
    rw [hposition]
    refine ⟨pre, raw, post, hcut, Index.line?_eq hline, ?_, ?_⟩
    · simp only [Line.column_eq_count hstart, byteLength_append]
    · intro front c back hsource hbyte hends
      subst hsource hbyte
      obtain ⟨found, hfound, hchar⟩ := exists_line_of_char front hends
      rw [rowOf_byteLength, hfound, Option.some.injEq] at hline
      rw [hline] at hchar
      exact hchar

/-- Two rows that end in a carriage return, the second one at the end of the text. -/
def returnedText : List Char := ['é', '\r', '\n', 'a', '→', '\r']

theorem position_counts_returnedText :
    position returnedText 5 = (1, 1) ∧ ¬ EndsLine '→' ['\r'] ∧
      (∃ chars, (Index.ofText returnedText).line? 1 = some chars ∧ chars[1]? = some '→') ∧
      toLex (position returnedText 5) ≤ toLex (position returnedText 7) := by
  have hposition : position returnedText 5 = (1, 1) := by decide
  have hends : ¬ EndsLine '→' ['\r'] := by simp [EndsLine]
  obtain ⟨-, -, ⟨pre, raw, post, -, hline, -, hchar⟩, hmono⟩ := position_counts returnedText 5
  have hfound := hchar ['é', '\r', '\n', 'a'] '→' ['\r'] rfl rfl hends
  rw [hposition] at hline hfound
  exact ⟨hposition, hends, ⟨_, hline, hfound⟩, hmono 7 (by decide)⟩

end DiagramTint.Text
