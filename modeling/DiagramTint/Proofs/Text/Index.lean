import DiagramTint.Proofs.Text.Rows
import DiagramTint.Proofs.Token.Cutting
import DiagramTint.Text.Index

/-!
# What a line index answers

The index of a text answers every question about a byte offset that does not come before the row it
is asked for: the row is that of `rowOf`, the characters are those of `lines`, and the column is that
of `Line.column`.  A line can be cut at any two columns in order.
-/

namespace DiagramTint.Text

theorem minus?_of_le {a b : Nat} (h : b ≤ a) : minus? a b = some (a - b) :=
  if_pos h

/-! ## Where rows start -/

theorem startsAfter_append {line : List Char} (offset : Nat) (rest : List Char) (h : '\n' ∉ line) :
    startsAfter offset (line ++ rest) = startsAfter (offset + byteLength line) rest := by
  induction line generalizing offset with
  | nil => rfl
  | cons c cs ih =>
      have hc : c ≠ '\n' := by
        rintro rfl
        exact h List.mem_cons_self
      have hcs : '\n' ∉ cs := fun hmem => h (List.mem_cons_of_mem c hmem)
      rw [List.cons_append, startsAfter, if_neg hc, ih _ hcs, byteLength_cons, Nat.add_assoc]

theorem map_start_linesFrom (offset : Nat) (source : List Char) :
    (linesFrom offset (splitWhere (· == '\n') source)).map Line.start =
      offset :: startsAfter offset source := by
  induction source using lineInduction generalizing offset with
  | last line h =>
      have hnone := startsAfter_append offset [] h
      rw [List.append_nil, startsAfter] at hnone
      rw [splitWhere_of_not_mem h, hnone]
      rfl
  | cut line rest h ih =>
      have hfeed : '\n'.utf8Size = 1 := rfl
      rw [linesFrom_append_newline offset h, List.map_cons, ih, startsAfter_append offset _ h,
        startsAfter, if_pos rfl, hfeed]

theorem Index.starts_ofText (source : List Char) :
    (Index.ofText source).starts = (lines source).map Line.start :=
  (map_start_linesFrom 0 source).symm

/-! ## The row of a byte -/

/-- The numbers up to `x` in an ascending list are those before its place and `x` itself, if it is
there. -/
theorem length_filter_le {xs : List Nat} (x : Nat) (h : xs.Pairwise fun a b => a < b) :
    (xs.filter fun a => a ≤ x).length =
      (xs.takeWhile fun a => a < x).length +
        if xs[(xs.takeWhile fun a => a < x).length]? = some x then 1 else 0 := by
  induction xs with
  | nil => rfl
  | cons a xs ih =>
      obtain ⟨hfirst, hrest⟩ := List.pairwise_cons.mp h
      by_cases hlt : a < x
      · rw [List.filter_cons_of_pos (by simpa using Nat.le_of_lt hlt),
          List.takeWhile_cons_of_pos (by simpa using hlt), List.length_cons, List.length_cons,
          List.getElem?_cons_succ, ih hrest]
        omega
      · -- Everything behind is greater than `a`, hence than `x`.
        have hnone : xs.filter (fun b => b ≤ x) = [] := by
          rw [List.filter_eq_nil_iff]
          intro b hb
          have hlt := hfirst b hb
          simp only [decide_eq_true_eq]
          omega
        rw [List.takeWhile_cons_of_neg (by simpa using hlt), List.length_nil,
          List.getElem?_cons_zero, List.filter_cons, hnone]
        by_cases hax : a = x
        · simp [hax]
        · have hle : ¬ a ≤ x := by omega
          simp [hax, hle]

theorem Index.rowOf?_eq (source : List Char) (byte : Nat) :
    (ofText source).rowOf? byte = some (rowOf (lines source) byte) := by
  have hsorted : ((lines source).map Line.start).Pairwise fun a b => a < b :=
    List.pairwise_map.mpr ((pairwise_lines source).imp fun hab => by omega)
  have hlength := length_filter_le byte hsorted
  have hcount : (((lines source).map Line.start).filter fun a => a ≤ byte).length =
      rowOf (lines source) byte + 1 := by
    obtain ⟨chars, hhead⟩ := head?_lines source
    have hmem : 0 ∈ ((lines source).map Line.start).filter fun a => a ≤ byte := by
      rw [List.mem_filter, List.mem_map]
      exact ⟨⟨_, List.mem_of_mem_head? hhead, rfl⟩, by simp⟩
    have hpos := List.length_pos_of_mem hmem
    rw [List.filter_map, List.length_map] at hpos ⊢
    exact (Nat.sub_add_cancel hpos).symm
  rw [hcount] at hlength
  rw [rowOf?, starts_ofText, search]
  split at hlength
  · rename_i hfound
    rw [if_pos hfound]
    simp only [Option.some.injEq]
    omega
  · rename_i hfound
    rw [if_neg hfound]
    simp only
    rw [minus?_of_le (by omega), Option.some.injEq]
    omega

/-! ## The characters of a row -/

section Row

variable {source : List Char} {row : Nat} {line : Line}

theorem Index.getElem?_starts (h : (lines source)[row]? = some line) :
    (ofText source).starts[row]? = some line.start := by
  rw [starts_ofText, List.getElem?_map, h, Option.map_some]

theorem CutAt.stop?_eq {pre raw post : List Char} (h : CutAt source row pre raw post) :
    (Index.ofText source).stop? row = some (byteLength pre + byteLength raw) := by
  have hnext := h.getElem?_next
  rw [← List.getElem?_map, ← Index.starts_ofText] at hnext
  rw [Index.stop?, hnext]
  rcases h.below with rfl | ⟨rest, rfl⟩
  · simp [Index.ofText, h.whole]
  · simp [minus?]

theorem Index.line?_eq (h : (lines source)[row]? = some line) :
    (ofText source).line? row = some line.chars := by
  obtain ⟨pre, raw, post, hcut, rfl⟩ := exists_cutAt_of_line h
  have hslice := slice?_append pre raw post
  rw [← hcut.whole] at hslice
  have hsource : (ofText source).source = source := rfl
  simp only [line?, getElem?_starts h, hcut.stop?_eq, hsource, hslice, Option.bind_eq_bind,
    Option.bind_some, Option.pure_def]

end Row

/-! ## The column of a byte -/

/-- One more byte makes a difference only if a character ends there. -/
theorem charsWithin_succ {n : Nat} {cs : List Char} (h : (takeBytes (n + 1) cs).isSome = false) :
    charsWithin (n + 1) cs = charsWithin n cs := by
  induction cs generalizing n with
  | nil => rfl
  | cons c cs ih =>
      have hpos := c.utf8Size_pos
      rw [takeBytes] at h
      by_cases hfits : c.utf8Size ≤ n
      · have hrest : n + 1 - c.utf8Size = n - c.utf8Size + 1 := by omega
        rw [if_pos (by omega), Option.isSome_map, hrest] at h
        rw [charsWithin, charsWithin, if_pos (by omega), if_pos hfits, hrest, ih h]
      · have hsize : ¬ c.utf8Size ≤ n + 1 := by
          intro hle
          have hzero : n + 1 - c.utf8Size = 0 := by omega
          rw [if_pos hle, hzero, takeBytes] at h
          cases h
        rw [charsWithin, charsWithin, if_neg hsize, if_neg hfits]

theorem charsWithin_of_takeBytes {n : Nat} {cs front : List Char}
    (h : takeBytes n cs = some front) :
    byteLength (cs.take (charsWithin n cs)) = n := by
  induction cs generalizing n front with
  | nil =>
      cases n with
      | zero => rfl
      | succ n => simp [takeBytes] at h
  | cons c cs ih =>
      have hpos := c.utf8Size_pos
      cases n with
      | zero =>
          rw [charsWithin, if_neg (by omega)]
          rfl
      | succ n =>
          rw [takeBytes] at h
          split at h
          · rename_i hfits
            obtain ⟨rest, hrest, -⟩ := Option.map_eq_some_iff.mp h
            rw [charsWithin, if_pos hfits, List.take_succ_cons, byteLength_cons, ih hrest]
            omega
          · cases h

theorem snap_eq (n : Nat) (cs : List Char) :
    snap cs n = byteLength (cs.take (charsWithin n cs)) := by
  induction n with
  | zero => exact (charsWithin_of_takeBytes (by cases cs <;> rfl)).symm
  | succ n ih =>
      rw [snap]
      cases hends : (takeBytes (n + 1) cs).isSome with
      | true =>
          obtain ⟨front, hfront⟩ := Option.isSome_iff_exists.mp hends
          rw [if_pos rfl, charsWithin_of_takeBytes hfront]
      | false => rw [if_neg (by simp), ih, charsWithin_succ hends]

theorem charsWithin_min (n : Nat) (cs : List Char) :
    charsWithin (min n (byteLength cs)) cs = charsWithin n cs := by
  by_cases hle : n ≤ byteLength cs
  · rw [Nat.min_eq_left hle]
  · rw [Nat.min_eq_right (by omega), charsWithin_of_le (Nat.le_refl _), charsWithin_of_le (by omega)]

theorem columnOf?_eq (line : List Char) (byte : Nat) :
    columnOf? line byte = some (charsWithin byte line) := by
  have hslice := slice?_append [] (line.take (charsWithin byte line))
    (line.drop (charsWithin byte line))
  rw [List.nil_append, List.take_append_drop, byteLength_nil, Nat.zero_add] at hslice
  rw [columnOf?, snap_eq, charsWithin_min, hslice, Option.map_some,
    List.length_take_of_le (charsWithin_le_length _ _)]

theorem Index.column?_eq {source : List Char} {row byte : Nat} {line : Line}
    (h : (lines source)[row]? = some line) (hle : line.start ≤ byte) :
    (ofText source).column? row byte = some (line.column byte) := by
  simp only [column?, line?_eq h, getElem?_starts h, minus?_of_le hle, Option.bind_eq_bind,
    Option.bind_some, columnOf?_eq, Line.column]

/-! ## The columns of a line -/

theorem columns?_eq {first stop : Nat} (h : first ≤ stop) (line : List Char) :
    columns? line first stop = some (columns line first stop) := by
  have htake := take_append_columns h line
  have hslice := slice?_append (line.take first) (columns line first stop) (line.drop stop)
  rw [← List.append_assoc, htake, List.take_append_drop, ← byteLength_append, htake] at hslice
  exact hslice

end DiagramTint.Text
