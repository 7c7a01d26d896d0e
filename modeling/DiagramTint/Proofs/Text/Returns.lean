import DiagramTint.Proofs.Text.Boundary

/-!
# Carriage returns before line feeds

A text whose lines end with a line feed and the same text with a carriage return before each of them
have the same characters at the same positions.  Only the byte offsets differ.
-/

namespace DiagramTint.Text

/-- A text with a carriage return put in front of every line feed. -/
def withReturns (cs : List Char) : List Char :=
  cs.flatMap fun c => if c = '\n' then ['\r', '\n'] else [c]

@[simp]
theorem withReturns_nil : withReturns [] = [] := rfl

@[simp]
theorem withReturns_newline (cs : List Char) :
    withReturns ('\n' :: cs) = '\r' :: '\n' :: withReturns cs := rfl

theorem withReturns_cons {c : Char} (h : c ≠ '\n') (cs : List Char) :
    withReturns (c :: cs) = c :: withReturns cs := by
  simp [withReturns, h]

theorem withReturns_append (xs ys : List Char) :
    withReturns (xs ++ ys) = withReturns xs ++ withReturns ys :=
  List.flatMap_append

theorem withReturns_of_not_mem {cs : List Char} (h : '\n' ∉ cs) : withReturns cs = cs := by
  induction cs with
  | nil => rfl
  | cons c cs ih =>
      rw [List.mem_cons, not_or] at h
      rw [withReturns_cons (Ne.symm h.1), ih h.2]

theorem count_withReturns (cs : List Char) : (withReturns cs).count '\n' = cs.count '\n' := by
  induction cs with
  | nil => rfl
  | cons c cs ih =>
      by_cases hc : c = '\n'
      · subst hc
        simp [ih]
      · rw [withReturns_cons hc, List.count_cons_of_ne hc, List.count_cons_of_ne hc, ih]

theorem columnAfter_withReturns (cs : List Char) :
    columnAfter (withReturns cs) = columnAfter cs := by
  induction cs using lineInduction with
  | last line h => rw [withReturns_of_not_mem h]
  | cut line rest h ih =>
      have hcut : withReturns (line ++ '\n' :: rest) =
          (line ++ ['\r']) ++ '\n' :: withReturns rest := by
        rw [withReturns_append, withReturns_of_not_mem h, withReturns_newline]
        simp
      rw [hcut, columnAfter_append_newline, columnAfter_append_newline, ih]

/-- A character that does not end its line comes from the text without the carriage returns. -/
theorem exists_of_withReturns_eq {source pre post : List Char} {c : Char}
    (h : withReturns source = pre ++ c :: post) (hends : ¬ EndsLine c post) :
    ∃ front back, source = front ++ c :: back ∧ pre = withReturns front := by
  induction source generalizing pre with
  | nil => simp at h
  | cons d source ih =>
      by_cases hd : d = '\n'
      · subst hd
        rw [withReturns_newline] at h
        -- The carriage return stands before a line feed, so `c` comes behind both.
        rcases pre with _ | ⟨x, _ | ⟨y, pre⟩⟩
        · simp only [List.nil_append, List.cons.injEq] at h
          obtain ⟨rfl, rfl⟩ := h
          exact absurd (Or.inr ⟨rfl, Or.inr rfl⟩) hends
        · simp only [List.cons_append, List.nil_append, List.cons.injEq] at h
          obtain ⟨-, rfl, -⟩ := h
          exact absurd (Or.inl rfl) hends
        · simp only [List.cons_append, List.cons.injEq] at h
          obtain ⟨rfl, rfl, h⟩ := h
          obtain ⟨front, back, rfl, rfl⟩ := ih h
          exact ⟨'\n' :: front, back, rfl, rfl⟩
      · rw [withReturns_cons hd] at h
        cases pre with
        | nil =>
            simp only [List.nil_append, List.cons.injEq] at h
            obtain ⟨rfl, -⟩ := h
            exact ⟨[], source, rfl, rfl⟩
        | cons x pre =>
            simp only [List.cons_append, List.cons.injEq] at h
            obtain ⟨rfl, h⟩ := h
            obtain ⟨front, back, rfl, rfl⟩ := ih h
            exact ⟨d :: front, back, rfl, (withReturns_cons hd front).symm⟩

/-! ## Offsets -/

/-- The offset behind a part of the source, and the offset behind the same part with carriage
returns, the one of a line feed right after it possibly included. -/
def Aligned (source : List Char) (byte byte' : Nat) : Prop :=
  ∃ pre post, source = pre ++ post ∧ byte = byteLength pre ∧
    (byte' = byteLength (withReturns pre) ∨
      post.head? = some '\n' ∧ byte' = byteLength (withReturns pre) + 1)

theorem aligned_of_append (pre post : List Char) :
    Aligned (pre ++ post) (byteLength pre) (byteLength (withReturns pre)) :=
  ⟨pre, post, rfl, rfl, Or.inl rfl⟩

/-- Aligned offsets stand on the same side of every character that does not end its line. -/
theorem Aligned.le_iff {front back : List Char} {c : Char} {byte byte' last last' : Nat}
    (h : Aligned (front ++ c :: back) byte byte') (hc : c ≠ '\n')
    (hlast : last + 1 = byteLength front + c.utf8Size)
    (hlast' : last' + 1 = byteLength (withReturns front) + c.utf8Size) :
    byte ≤ last ↔ byte' ≤ last' := by
  obtain ⟨pre, post, hsource, rfl, hbyte'⟩ := h
  have hpos := c.utf8Size_pos
  rcases List.append_eq_append_iff.mp hsource with ⟨mid, rfl, hmid⟩ | ⟨mid, rfl, rfl⟩
  · rw [withReturns_append, byteLength_append] at hbyte'
    cases mid with
    | nil =>
        rw [List.nil_append] at hmid
        have hhead : post.head? ≠ some '\n' := by
          rw [← hmid]
          simpa using hc
        simp only [hhead, false_and, or_false, withReturns_nil, byteLength_nil] at hbyte'
        rw [List.append_nil]
        omega
    | cons d mid =>
        rw [List.cons_append, List.cons.injEq] at hmid
        obtain ⟨rfl, -⟩ := hmid
        rw [withReturns_cons hc, byteLength_cons] at hbyte'
        rw [byteLength_append, byteLength_cons]
        omega
  · rw [withReturns_append, byteLength_append] at hlast'
    rw [byteLength_append] at hlast
    -- An offset behind a carriage return still stands before the line feed after it.
    have hnewline : (mid ++ c :: back).head? = some '\n' → 1 ≤ byteLength (withReturns mid) := by
      intro hhead
      cases mid with
      | nil => exact absurd (Option.some.inj hhead) hc
      | cons d mid =>
          obtain rfl : d = '\n' := Option.some.inj hhead
          have hreturn : '\r'.utf8Size = 1 := rfl
          rw [withReturns_newline, byteLength_cons]
          omega
    rcases hbyte' with rfl | ⟨hhead, rfl⟩
    · omega
    · have hone := hnewline hhead
      omega

theorem charAt_withReturns {front back : List Char} {c : Char} (hc : c ≠ '\n') (hr : c ≠ '\r')
    {last' : Nat} (hlast' : last' + 1 = byteLength (withReturns front) + c.utf8Size) :
    CharAt (withReturns (front ++ c :: back)) (front.count '\n') (columnAfter front) last' := by
  refine ⟨withReturns front, c, withReturns back, ?_, ?_, ?_, ?_, hlast'⟩
  · rw [withReturns_append, withReturns_cons hc]
  · rintro (hends | ⟨hends, -⟩)
    · exact hc hends
    · exact hr hends
  · rw [count_withReturns]
  · rw [columnAfter_withReturns]

/-- Each character of a text without carriage returns stands at the same position in the text with
them, and aligned offsets are on the same side of it in both. -/
theorem exists_charAt_withReturns {source : List Char} {row col last : Nat} (h : '\r' ∉ source)
    (hchar : CharAt source row col last) :
    ∃ last', CharAt (withReturns source) row col last' ∧
      ∀ byte byte', Aligned source byte byte' → (byte ≤ last ↔ byte' ≤ last') := by
  obtain ⟨front, c, back, rfl, hends, rfl, rfl, hlast⟩ := hchar
  have hpos := c.utf8Size_pos
  have hc : c ≠ '\n' := fun hc => hends (Or.inl hc)
  have hr : c ≠ '\r' := by
    rintro rfl
    exact h (by simp)
  have hlast' : byteLength (withReturns front) + c.utf8Size - 1 + 1 =
      byteLength (withReturns front) + c.utf8Size := by omega
  refine ⟨_, charAt_withReturns hc hr hlast', ?_⟩
  intro byte byte' haligned
  exact haligned.le_iff hc hlast hlast'

theorem exists_charAt_of_withReturns {source : List Char} {row col last' : Nat}
    (h : '\r' ∉ source) (hchar : CharAt (withReturns source) row col last') :
    ∃ last, CharAt source row col last ∧
      ∀ byte byte', Aligned source byte byte' → (byte ≤ last ↔ byte' ≤ last') := by
  obtain ⟨pre, c, post, hsource, hends, rfl, rfl, hlast'⟩ := hchar
  obtain ⟨front, back, rfl, rfl⟩ := exists_of_withReturns_eq hsource hends
  have hpos := c.utf8Size_pos
  have hc : c ≠ '\n' := fun hc => hends (Or.inl hc)
  have hlast : byteLength front + c.utf8Size - 1 + 1 = byteLength front + c.utf8Size := by omega
  refine ⟨_, ⟨front, c, back, rfl, ?_, ?_, ?_, hlast⟩, ?_⟩
  · rintro (hnewline | ⟨rfl, -⟩)
    · exact hc hnewline
    · exact h (by simp)
  · rw [count_withReturns]
  · rw [columnAfter_withReturns]
  · intro byte byte' haligned
    exact haligned.le_iff hc hlast hlast'

end DiagramTint.Text
