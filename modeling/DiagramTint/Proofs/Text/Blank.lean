import DiagramTint.Text.Blank
import Mathlib.Data.List.DropRight

/-!
# Trimmed texts and words

Trimming leaves the part of a text between its first and its last character that is not blank.  The
words of a text are those of its trimmed form; a text is cut at any blank without changing them, and
they stay the same if they are written again with one space between each and the next.
-/

namespace DiagramTint.Text

/-- A text of blanks only. -/
def IsBlankText (cs : List Char) : Prop :=
  ∀ c ∈ cs, isBlank c = true

/-- A text without blanks. -/
def IsSolid (cs : List Char) : Prop :=
  ∀ c ∈ cs, isBlank c = false

/-- A text that neither starts nor ends with a blank. -/
def IsTrimmed (cs : List Char) : Prop :=
  (∀ c ∈ cs.head?, isBlank c = false) ∧ ∀ c ∈ cs.getLast?, isBlank c = false

instance (cs : List Char) : Decidable (IsBlankText cs) :=
  inferInstanceAs (Decidable (∀ c ∈ cs, isBlank c = true))

instance (cs : List Char) : Decidable (IsSolid cs) :=
  inferInstanceAs (Decidable (∀ c ∈ cs, isBlank c = false))

instance (cs : List Char) : Decidable (IsTrimmed cs) :=
  inferInstanceAs (Decidable (_ ∧ _))

theorem splitWhere_eq_splitOnP (p : Char → Bool) (cs : List Char) :
    splitWhere p cs = cs.splitOnP p := by
  induction cs with
  | nil => rfl
  | cons c cs ih =>
      rw [splitWhere, ih, List.splitOnP_cons_eq_if_modifyHead]
      split
      · rfl
      · split
        · rename_i hnil
          exact absurd hnil (List.splitOnP_ne_nil p cs)
        · rename_i hpieces
          rw [hpieces]
          rfl

/-- The parts of a text between separators are made of its other characters. -/
theorem of_mem_splitOnP {p : Char → Bool} {cs piece : List Char} (h : piece ∈ cs.splitOnP p) :
    ∀ c ∈ piece, c ∈ cs ∧ p c = false := by
  induction cs generalizing piece with
  | nil =>
      rw [List.splitOnP_nil, List.mem_singleton] at h
      simp [h]
  | cons d cs ih =>
      have hlater : ∀ {later : List Char}, later ∈ cs.splitOnP p →
          ∀ c ∈ later, c ∈ d :: cs ∧ p c = false :=
        fun hlater c hc => ⟨List.mem_cons_of_mem d (ih hlater c hc).1, (ih hlater c hc).2⟩
      rw [List.splitOnP_cons_eq_if_modifyHead] at h
      split at h
      · rcases List.mem_cons.mp h with rfl | h
        · simp
        · exact hlater h
      · rename_i hd
        cases hpieces : cs.splitOnP p with
        | nil => exact absurd hpieces (List.splitOnP_ne_nil p cs)
        | cons first others =>
            rw [hpieces] at h hlater
            rcases List.mem_cons.mp h with rfl | h
            · rw [List.forall_mem_cons]
              exact ⟨⟨List.mem_cons_self, by simpa using hd⟩, hlater List.mem_cons_self⟩
            · exact hlater (List.mem_cons_of_mem first h)

/-! ## Trimming -/

theorem IsSolid.isTrimmed {cs : List Char} (h : IsSolid cs) : IsTrimmed cs :=
  ⟨fun c hc => h c (List.mem_of_mem_head? hc), fun c hc => h c (List.mem_of_mem_getLast? hc)⟩

theorem IsTrimmed.not_isBlankText {cs : List Char} (h : IsTrimmed cs) (hne : cs ≠ []) :
    ¬ IsBlankText cs := by
  intro hblank
  cases cs with
  | nil => exact hne rfl
  | cons c cs =>
      have hfirst := h.1 c rfl
      rw [hblank c List.mem_cons_self] at hfirst
      cases hfirst

theorem trimChars_eq_rdropWhile (cs : List Char) :
    trimChars cs = (cs.dropWhile isBlank).rdropWhile isBlank := rfl

theorem trimChars_eq_nil_iff {cs : List Char} : trimChars cs = [] ↔ IsBlankText cs := by
  rw [trimChars_eq_rdropWhile, List.rdropWhile_eq_nil_iff]
  constructor
  · intro h c hc
    rw [← List.takeWhile_append_dropWhile (p := isBlank) (l := cs)] at hc
    rcases List.mem_append.mp hc with hc | hc
    · exact List.mem_takeWhile_imp hc
    · exact h c hc
  · intro h c hc
    exact h c ((List.dropWhile_suffix isBlank).subset hc)

theorem isTrimmed_trimChars (cs : List Char) : IsTrimmed (trimChars cs) := by
  rw [trimChars_eq_rdropWhile]
  constructor
  · -- What is dropped at the end does not change the first character.
    intro c hc
    have hfirst : c ∈ (cs.dropWhile isBlank).head? := by
      obtain ⟨back, hback⟩ := List.rdropWhile_prefix (p := isBlank) (cs.dropWhile isBlank)
      rw [← hback, List.head?_append, hc]
      rfl
    have hnot := List.head?_dropWhile_not isBlank cs
    rw [hfirst] at hnot
    simpa using hnot
  · intro c hc
    obtain ⟨hne, rfl⟩ := List.mem_getLast?_eq_getLast hc
    simpa using List.rdropWhile_last_not isBlank _ hne

theorem trimChars_eq_self {cs : List Char} (h : IsTrimmed cs) : trimChars cs = cs := by
  have hfront : cs.dropWhile isBlank = cs := by
    cases cs with
    | nil => rfl
    | cons c cs => exact List.dropWhile_cons_of_neg (by simp [h.1 c rfl])
  rw [trimChars_eq_rdropWhile, hfront, List.rdropWhile_eq_self_iff]
  intro hne
  rw [h.2 _ (List.getLast?_eq_some_getLast hne)]
  decide

/-- Trimming takes blanks away at both ends. -/
theorem exists_around_trimChars (cs : List Char) :
    ∃ front back, cs = front ++ (trimChars cs ++ back) ∧ IsBlankText front ∧ IsBlankText back := by
  refine ⟨cs.takeWhile isBlank, (cs.dropWhile isBlank).rtakeWhile isBlank, ?_, ?_, ?_⟩
  · rw [trimChars_eq_rdropWhile, List.rdropWhile_append_rtakeWhile, List.takeWhile_append_dropWhile]
  · exact fun c hc => List.mem_takeWhile_imp hc
  · exact fun c hc => List.mem_rtakeWhile_imp hc

theorem mem_of_mem_trimChars {c : Char} {cs : List Char} (h : c ∈ trimChars cs) : c ∈ cs := by
  obtain ⟨front, back, hcs, -, -⟩ := exists_around_trimChars cs
  rw [hcs]
  exact List.mem_append_right front (List.mem_append_left back h)

/-- A separator between two trimmed texts stands in their middle. -/
theorem IsTrimmed.append_cons {front back : List Char} (hfront : IsTrimmed front)
    (hback : IsTrimmed back) (hfrontNe : front ≠ []) (hbackNe : back ≠ []) (sep : Char) :
    IsTrimmed (front ++ sep :: back) := by
  constructor
  · rw [List.head?_append_of_ne_nil front hfrontNe]
    exact hfront.1
  · rw [List.append_cons, List.getLast?_append_of_ne_nil (front ++ [sep]) hbackNe]
    exact hback.2

/-- Parts that are trimmed and not empty stay so when a separator joins them. -/
theorem isTrimmed_intercalate (sep : Char) {pieces : List (List Char)} (hne : pieces ≠ [])
    (h : ∀ piece ∈ pieces, piece ≠ [] ∧ IsTrimmed piece) :
    [sep].intercalate pieces ≠ [] ∧ IsTrimmed ([sep].intercalate pieces) := by
  induction pieces with
  | nil => exact absurd rfl hne
  | cons piece pieces ih =>
      obtain ⟨⟨hpiece, htrimmed⟩, hrest⟩ := List.forall_mem_cons.mp h
      cases pieces with
      | nil =>
          rw [List.intercalate_singleton]
          exact ⟨hpiece, htrimmed⟩
      | cons next pieces =>
          obtain ⟨hrestNe, hrestTrimmed⟩ := ih (List.cons_ne_nil next pieces) hrest
          rw [List.intercalate_cons_cons, List.append_assoc, List.singleton_append]
          exact ⟨by simp, htrimmed.append_cons hrestTrimmed hpiece hrestNe sep⟩

/-! ## Words -/

/-- The words of a text as lists of characters. -/
def wordsOf (cs : List Char) : List (List Char) :=
  (cs.splitOnP isBlank).filter fun piece => !piece.isEmpty

theorem words_eq_map_wordsOf (s : String) : words s = (wordsOf s.toList).map String.ofList := by
  rw [words, splitWhere_eq_splitOnP]
  rfl

/-- A blank cuts a text into two texts with words of their own. -/
theorem wordsOf_append_cons {w : Char} (hw : isBlank w = true) (xs ys : List Char) :
    wordsOf (xs ++ w :: ys) = wordsOf xs ++ wordsOf ys := by
  rw [wordsOf, List.splitOnP_append_cons xs ys hw, List.filter_append]
  rfl

theorem wordsOf_cons_blank {w : Char} (hw : isBlank w = true) (cs : List Char) :
    wordsOf (w :: cs) = wordsOf cs :=
  wordsOf_append_cons hw [] cs

theorem wordsOf_of_isSolid {cs : List Char} (h : IsSolid cs) (hne : cs ≠ []) :
    wordsOf cs = [cs] := by
  rw [wordsOf, List.splitOnP_eq_singleton h]
  simp [hne]

theorem isSolid_of_mem_wordsOf {cs word : List Char} (h : word ∈ wordsOf cs) :
    IsSolid word ∧ word ≠ [] := by
  obtain ⟨hmem, hne⟩ := List.mem_filter.mp h
  exact ⟨fun c hc => (of_mem_splitOnP hmem c hc).2, by simpa using hne⟩

theorem wordsOf_blank_append {front : List Char} (h : IsBlankText front) (cs : List Char) :
    wordsOf (front ++ cs) = wordsOf cs := by
  induction front with
  | nil => rfl
  | cons c front ih =>
      obtain ⟨hc, hfront⟩ := List.forall_mem_cons.mp h
      rw [List.cons_append, wordsOf_cons_blank hc, ih hfront]

theorem wordsOf_append_blank {back : List Char} (h : IsBlankText back) (cs : List Char) :
    wordsOf (cs ++ back) = wordsOf cs := by
  cases back with
  | nil => rw [List.append_nil]
  | cons c back =>
      obtain ⟨hc, hback⟩ := List.forall_mem_cons.mp h
      have hnone := wordsOf_blank_append hback []
      rw [List.append_nil] at hnone
      rw [wordsOf_append_cons hc, hnone]
      exact List.append_nil _

theorem wordsOf_trimChars (cs : List Char) : wordsOf (trimChars cs) = wordsOf cs := by
  obtain ⟨front, back, hcs, hfront, hback⟩ := exists_around_trimChars cs
  conv_rhs => rw [hcs, wordsOf_blank_append hfront, wordsOf_append_blank hback]

/-- A text has a word as soon as not all of it is blank. -/
theorem wordsOf_ne_nil {c : Char} {cs : List Char} (hc : c ∈ cs) (h : isBlank c = false) :
    wordsOf cs ≠ [] := by
  induction cs with
  | nil => cases hc
  | cons d cs ih =>
      cases hd : isBlank d with
      | true =>
          rw [wordsOf_cons_blank hd]
          rcases List.mem_cons.mp hc with rfl | hc
          · rw [h] at hd
            cases hd
          · exact ih hc
      | false =>
          rw [wordsOf, List.splitOnP_cons_eq_if_modifyHead, if_neg (by simp [hd])]
          cases hpieces : cs.splitOnP isBlank with
          | nil => exact absurd hpieces (List.splitOnP_ne_nil isBlank cs)
          | cons first others => simp

/-- A trimmed text with one word is that word: a blank inside would leave a word on each side. -/
theorem IsTrimmed.isSolid {cs word : List Char} (h : IsTrimmed cs) (hwords : wordsOf cs = [word]) :
    IsSolid cs := by
  intro w hw
  by_contra hblank
  have hblank : isBlank w = true := by simpa using hblank
  obtain ⟨xs, ys, rfl⟩ := List.append_of_mem hw
  have hfront : wordsOf xs ≠ [] := by
    cases xs with
    | nil => simp [h.1 w rfl] at hblank
    | cons c xs => exact wordsOf_ne_nil List.mem_cons_self (h.1 c rfl)
  have hback : wordsOf ys ≠ [] := by
    rcases List.eq_nil_or_concat' ys with rfl | ⟨ys, c, rfl⟩
    · simp [h.2 w (by simp)] at hblank
    · have hlast : c ∈ (xs ++ w :: (ys ++ [c])).getLast? := by
        rw [← List.cons_append, ← List.append_assoc, List.getLast?_concat]
        rfl
      exact wordsOf_ne_nil (by simp) (h.2 c hlast)
  rw [wordsOf_append_cons hblank] at hwords
  have hlength := congrArg List.length hwords
  have hxs := List.length_pos_iff.mpr hfront
  have hys := List.length_pos_iff.mpr hback
  rw [List.length_append, List.length_singleton] at hlength
  omega

/-- The texts of one word are those that have no blank after trimming. -/
theorem wordsOf_eq_singleton_iff {cs word : List Char} :
    wordsOf cs = [word] ↔ trimChars cs = word ∧ word ≠ [] ∧ IsSolid word := by
  rw [← wordsOf_trimChars]
  constructor
  · intro h
    have hword := isSolid_of_mem_wordsOf (List.mem_of_mem_head? (a := word) (by rw [h]; rfl))
    have hsolid := (isTrimmed_trimChars cs).isSolid h
    have hne : trimChars cs ≠ [] := by
      intro hnil
      rw [hnil] at h
      simp [wordsOf] at h
    rw [wordsOf_of_isSolid hsolid hne, List.singleton_inj] at h
    exact ⟨h, hword.2, hword.1⟩
  · rintro ⟨rfl, hne, hsolid⟩
    exact wordsOf_of_isSolid hsolid hne

/-- Words written with one blank between each and the next are read again. -/
theorem wordsOf_intercalate {w : Char} (hw : isBlank w = true) {words : List (List Char)}
    (h : ∀ word ∈ words, IsSolid word ∧ word ≠ []) : wordsOf ([w].intercalate words) = words := by
  induction words with
  | nil => rfl
  | cons word words ih =>
      obtain ⟨⟨hsolid, hne⟩, hrest⟩ := List.forall_mem_cons.mp h
      cases words with
      | nil => rw [List.intercalate_singleton, wordsOf_of_isSolid hsolid hne]
      | cons next words =>
          rw [List.intercalate_cons_cons, List.append_assoc, List.singleton_append,
            wordsOf_append_cons hw, wordsOf_of_isSolid hsolid hne, ih hrest]
          rfl

section Words

variable {s word : String}

theorem isSolid_of_mem_words (h : word ∈ words s) : IsSolid word.toList := by
  rw [words_eq_map_wordsOf] at h
  obtain ⟨cs, hcs, rfl⟩ := List.mem_map.mp h
  rw [String.toList_ofList]
  exact (isSolid_of_mem_wordsOf hcs).1

theorem words_eq_nil_iff : words s = [] ↔ IsBlankText s.toList := by
  rw [words_eq_map_wordsOf, List.map_eq_nil_iff]
  constructor
  · intro hnil c hc
    by_contra hblank
    exact wordsOf_ne_nil hc (eq_false_of_ne_true hblank) hnil
  · intro hblank
    rw [← List.append_nil s.toList, wordsOf_blank_append hblank]
    rfl

theorem words_append_blank {w : Char} (hw : isBlank w = true) (a b : String) :
    words (a ++ String.singleton w ++ b) = words a ++ words b := by
  have htext : (a ++ String.singleton w ++ b).toList = a.toList ++ w :: b.toList := by simp
  simp only [words_eq_map_wordsOf, htext, wordsOf_append_cons hw, List.map_append]

theorem words_intercalate_words (s : String) : words (" ".intercalate (words s)) = words s := by
  have htext : (" ".intercalate (words s)).toList = [' '].intercalate (wordsOf s.toList) := by
    rw [String.toList_intercalate, words_eq_map_wordsOf, List.map_map]
    simp [Function.comp_def]
  rw [words_eq_map_wordsOf, htext,
    wordsOf_intercalate (by decide) fun _ h => isSolid_of_mem_wordsOf h, ← words_eq_map_wordsOf]

theorem words_eq_singleton_iff :
    words s = [word] ↔ trim s = word ∧ word ≠ "" ∧ IsSolid word.toList := by
  rw [words_eq_map_wordsOf, List.map_eq_singleton_iff, trim]
  constructor
  · rintro ⟨cs, hcs, rfl⟩
    obtain ⟨htrim, hne, hsolid⟩ := wordsOf_eq_singleton_iff.mp hcs
    rw [String.toList_ofList, htrim]
    exact ⟨rfl, by simpa using hne, hsolid⟩
  · rintro ⟨rfl, hne, hsolid⟩
    rw [String.toList_ofList] at hsolid
    exact ⟨_, wordsOf_eq_singleton_iff.mpr ⟨rfl, by simpa using hne, hsolid⟩, rfl⟩

end Words

end DiagramTint.Text
