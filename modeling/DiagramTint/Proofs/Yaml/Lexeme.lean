import DiagramTint.Proofs.Yaml.Scalar.Literal
import DiagramTint.Proofs.Yaml.Scalar.Plain
import DiagramTint.Proofs.Yaml.Scalar.Quoted
import DiagramTint.Yaml.Token.Lexeme

/-!
# Written texts as lexemes

In whatever way a text is written, the lexeme that stands where it starts has that text.  A name
before a colon is a lexeme of its own.
-/

namespace DiagramTint.Yaml

/-! ## Ways of writing -/

namespace Scalar

/-- The style of a written text. -/
def style (cs : List Char) : Style :=
  if written cs = .plain then .plain else .quoted

theorem written_eq_plain {cs : List Char} (h : written cs = .plain) :
    cs ≠ [] ∧ allowsPlain cs = true := by
  unfold written at h
  split at h
  · split at h <;> cases h
  · split at h
    · rename_i hplain
      refine ⟨?_, by simp_all⟩
      rintro rfl
      simp [hasOtherMeaning, isNull] at hplain
    · split at h <;> cases h

theorem written_eq_single {cs : List Char} (h : written cs = .single) :
    '\n' ∉ cs ∧ allowsSingle cs = true := by
  unfold written at h
  split at h
  · split at h <;> cases h
  · rename_i hnewline
    refine ⟨by simpa using hnewline, ?_⟩
    split at h
    · cases h
    · split at h
      · assumption
      · cases h

theorem ne_nil_of_written_eq_literal {cs : List Char} (h : written cs = .literal) : cs ≠ [] := by
  rintro rfl
  revert h
  decide

/-- Only double quotes hold what has to be escaped. -/
theorem isPrintable_of_written {cs : List Char} (h : written cs ≠ .double) :
    ∀ c ∈ cs, isPrintable c = true := by
  have hescape : needsEscape cs = false := by
    unfold written at h
    split at h
    · split at h <;> simp_all [allowsLiteral]
    · split at h
      · simp_all [allowsPlain]
      · split at h <;> simp_all [allowsSingle]
  simpa [needsEscape] using hescape

/-- Whatever a text holds, what is written for it can be read. -/
theorem isAllowed_of_mem_write {cs : List Char} {d : Char} (h : d ∈ write cs) :
    isAllowed d = true := by
  have hprint : written cs ≠ .double → d = ' ' ∨ d ∈ cs → isAllowed d = true := by
    rintro hwritten (rfl | hd)
    · decide
    · exact isAllowed_of_isPrintable (isPrintable_of_written hwritten d hd)
  have hquote : isAllowed '\x27' = true ∧ isAllowed '"' = true ∧ isAllowed '|' = true ∧
      isAllowed '\n' = true := by decide
  obtain ⟨hsingle, hdouble, hbar, hnewline⟩ := hquote
  unfold write at h
  split at h
  · rename_i hwritten
    rw [List.mem_append, List.mem_singleton] at h
    rcases h with h | rfl
    · exact hprint (by simp [hwritten]) (.inr h)
    · exact hnewline
  · rename_i hwritten
    simp only [List.cons_append, List.mem_cons, List.mem_append, List.not_mem_nil, or_false] at h
    rcases h with rfl | h | rfl | rfl
    · exact hsingle
    · exact hprint (by simp [hwritten]) (mem_singleBody h)
    · exact hsingle
    · exact hnewline
  · simp only [List.cons_append, List.mem_cons, List.mem_append, List.mem_flatMap,
      List.not_mem_nil, or_false] at h
    rcases h with rfl | ⟨c, -, h⟩ | rfl | rfl
    · exact hdouble
    · exact isAllowed_of_mem_doubleChar h
    · exact hdouble
    · exact hnewline
  · rename_i hwritten
    have hend : d ∈ (if cs.getLast?.any isBreak then [] else ['\n']) → d = '\n' := by
      split <;> simp
    simp only [List.cons_append, List.mem_cons, List.mem_append] at h
    rcases h with rfl | (h | rfl | h) | h
    · exact hbar
    · exact isAllowed_of_mem_literalHeader h
    · exact hnewline
    · exact hprint (by simp [hwritten]) (mem_literalBody h)
    · rw [hend h]
      exact hnewline

/-- What is written for a text ends a line. -/
theorem exists_write_eq (cs : List Char) : ∃ body b, write cs = body ++ [b] ∧ isBreak b = true := by
  unfold write
  split
  · exact ⟨cs, '\n', rfl, by decide⟩
  · exact ⟨'\x27' :: singleBody false cs ++ ['\x27'], '\n', by simp, by decide⟩
  · exact ⟨'"' :: cs.flatMap doubleChar ++ ['"'], '\n', by simp, by decide⟩
  · obtain ⟨lines, b, hlines, hb⟩ := exists_literalBody_eq cs
    refine ⟨'|' :: literalHeader cs ++ '\n' :: lines, b, ?_, hb⟩
    rw [literalEnd] at hlines
    simp [hlines]

end Scalar

namespace Lexeme

/-! ## Where plain scalars start -/

/-- The characters that start no plain scalar, whatever follows them. -/
def isReserved (c : Char) : Bool :=
  "#,[]\x7b\x7d&*!|>'\"%@`".toList.contains c

/-- A plain scalar starts at `c`, in front of `cs`. -/
structure Starts (c : Char) (cs : List Char) : Prop where
  not_white : isWhite c = false
  not_break : isBreak c = false
  not_reserved : isReserved c = false
  not_mark : c = '-' ∨ c = '?' ∨ c = ':' → atGap cs = false

/-- A character that is not reserved is none of those that start another lexeme. -/
theorem Starts.ne {c d : Char} {cs : List Char} (h : Starts c cs) (hd : isReserved d = true) :
    c ≠ d := by
  rintro rfl
  rw [h.not_reserved] at hd
  cases hd

theorem Starts.solid {c : Char} {cs : List Char} (h : Starts c cs) (hbom : c ≠ byteOrderMark)
    (rest : List Char) : Solid (c :: rest) :=
  solid_cons.mpr ⟨h.not_white, h.not_break, h.ne (by decide), hbom⟩

theorem Starts.mark?_eq {c : Char} {cs : List Char} (h : Starts c cs) (column outer : Nat) :
    mark? ⟨false, column, outer⟩ c cs = none := by
  unfold mark?
  split
  case h_6 => simp [h.not_mark]
  case h_7 => simp [h.not_mark]
  case h_8 => simp [h.not_mark]
  case h_9 => rfl
  all_goals exact absurd rfl (h.ne (by decide))

theorem Starts.startsPlain_eq {c : Char} {cs : List Char} (h : Starts c cs) :
    startsPlain false c cs = true := by
  unfold startsPlain
  by_cases hmark : c = '-' ∨ c = '?' ∨ c = ':'
  · have hgap := h.not_mark hmark
    rcases hmark with rfl | rfl | rfl
    · cases cs with
      | nil => cases hgap
      | cons d cs =>
          have hd : isWhite d = false := by simp_all [atGap]
          simp [hd]
    · simp [hgap]
    · simp [hgap]
  · have hindicator : isIndicator c = false := by
      have hreserved := h.not_reserved
      simp [isIndicator, isReserved] at *
      simp [hmark, hreserved]
    simp [h.not_white, h.not_break, hindicator]

theorem Starts.readItem_eq {c : Char} {cs : List Char} (h : Starts c cs) (column outer : Nat) :
    readItem ⟨false, column, outer⟩ c cs = readPlain ⟨false, column, outer⟩ c cs := by
  have hblock : ¬ ((c = '|' || c = '>') && !false) = true := by
    simp [h.ne (d := '|') (by decide), h.ne (d := '>') (by decide)]
  have hquote : ¬ (c = '\x27' || c = '"') = true := by
    simp [h.ne (d := '\x27') (by decide), h.ne (d := '"') (by decide)]
  rw [readItem, if_neg (h.ne (by decide)), if_neg (h.ne (by decide)), if_neg (h.ne (by decide)),
    if_neg hblock, if_neg hquote]

/-- Reading a plain scalar. -/
theorem Starts.read_eq {c : Char} {cs : List Char} (h : Starts c cs) {column : Nat} (outer : Nat)
    (hmark : column = 0 → atDocumentMark (c :: cs) = false) {r : Scalar.Plain}
    (hplain : Scalar.plain false outer (column + 1) .none cs = .ok r) :
    read ⟨false, column, outer⟩ c cs = .ok (.plain (c :: r.text) r.broken, r.rest) := by
  have hdirective : ¬ ((column = 0 && c = '%') : Bool) = true := by
    simp [h.ne (d := '%') (by decide)]
  have hdocument : ¬ (column = 0 && atDocumentMark (c :: cs)) = true := by
    simpa using hmark
  rw [read, if_neg hdirective, if_neg hdocument, h.mark?_eq, h.readItem_eq, readPlain,
    h.startsPlain_eq, if_pos rfl, hplain]

/-! ## Names -/

/-- The letters that names are made of. -/
def letters : List Char :=
  "abcdefghijklmnopqrstuvwxyz".toList

/-- A name, short enough to be a key. -/
structure IsName (name : List Char) : Prop where
  ne_nil : name ≠ []
  mem_letters : ∀ c ∈ name, c ∈ letters
  length_le : name.length ≤ 1024

theorem isName_of_all {name : List Char} (hne : name ≠ []) (hletters : name.all letters.contains)
    (hlength : name.length ≤ 1024) : IsName name :=
  ⟨hne, fun c hc => List.contains_iff_mem.mp (List.all_eq_true.mp hletters c hc), hlength⟩

theorem starts_of_letter {c : Char} (h : c ∈ letters) (cs : List Char) : Starts c cs := by
  have hall : letters.all (fun c => !isWhite c && !isBreak c && !isReserved c &&
      ! ['-', '?', ':'].contains c) = true := by decide
  have hc := List.all_eq_true.mp hall c h
  simp only [Bool.and_eq_true, Bool.not_eq_true'] at hc
  obtain ⟨⟨⟨hwhite, hbreak⟩, hreserved⟩, hmark⟩ := hc
  refine ⟨hwhite, hbreak, hreserved, ?_⟩
  rintro (rfl | rfl | rfl) <;> cases hmark

theorem IsName.not_isBreak {name : List Char} (h : IsName name) : ∀ c ∈ name, isBreak c = false :=
  fun c hc => (starts_of_letter (h.mem_letters c hc) []).not_break

theorem IsName.solid {c : Char} {name rest : List Char} (h : IsName (c :: name)) :
    Solid (c :: rest) := by
  have hc := h.mem_letters c List.mem_cons_self
  have hbom : c ≠ byteOrderMark := by
    rintro rfl
    exact absurd hc (by decide)
  exact (starts_of_letter hc []).solid hbom rest

theorem plain_name {name rest : List Char} (hname : ∀ c ∈ name, c ∈ letters)
    (hrest : atGap rest = true) (outer column : Nat) :
    Scalar.plain false outer column .none (name ++ ':' :: rest) =
      .ok ⟨name, ':' :: rest, false⟩ := by
  induction name generalizing column with
  | nil =>
      rw [List.nil_append, Scalar.plain_other (by decide) (by decide),
        if_pos (by simp [Scalar.plainIndicator, hrest])]
      rfl
  | cons c name ih =>
      have hc := hname c List.mem_cons_self
      have hstarts := starts_of_letter hc []
      have hcolon : c ≠ ':' := by
        rintro rfl
        exact absurd hc (by decide)
      rw [List.cons_append, Scalar.plain_other hstarts.not_white hstarts.not_break,
        if_neg (by simp [Scalar.plainStops, Scalar.plainIndicator, Gap.none, Gap.isNone,
          Gap.isBroken, hcolon]),
        ih (fun d hd => hname d (List.mem_cons_of_mem c hd))]
      rfl

/-- A name in front of a colon. -/
theorem read_name {c : Char} {name rest : List Char} (hname : IsName (c :: name))
    (hrest : atGap rest = true) (column outer : Nat) :
    read ⟨false, column, outer⟩ c (name ++ ':' :: rest) =
      .ok (.plain (c :: name) false, ':' :: rest) := by
  have hc := hname.mem_letters c List.mem_cons_self
  have hmark : atDocumentMark (c :: (name ++ ':' :: rest)) = false := by
    unfold atDocumentMark
    split
    · rename_i heq
      exact absurd hc ((List.cons.inj heq).1 ▸ by decide)
    · rename_i heq
      exact absurd hc ((List.cons.inj heq).1 ▸ by decide)
    · rfl
  have hletters : ∀ d ∈ name, d ∈ letters :=
    fun d hd => hname.mem_letters d (List.mem_cons_of_mem c hd)
  have hplain := plain_name hletters hrest outer (column + 1)
  exact (starts_of_letter hc _).read_eq outer (fun _ => hmark) hplain

/-- An indicator in front of a gap. -/
theorem read_indicator {c : Char} {l : Lexeme} {rest : List Char} (hrest : atGap rest = true)
    (hc : (c = ':' ∧ l = .colon) ∨ (c = '-' ∧ l = .dash)) (column outer : Nat) :
    read ⟨false, column, outer⟩ c rest = .ok (l, rest) := by
  have hdirective : ¬ ((column = 0 && c = '%') : Bool) = true := by
    rcases hc with ⟨rfl, -⟩ | ⟨rfl, -⟩ <;> simp
  have hdocument : ¬ (column = 0 && atDocumentMark (c :: rest)) = true := by
    have hmark : atDocumentMark (c :: rest) = false := by
      unfold atDocumentMark
      split
      · rename_i heq
        cases heq
        cases hrest
      · rename_i heq
        cases heq
        cases hrest
      · rfl
    simp [hmark]
  rw [read, if_neg hdirective, if_neg hdocument]
  rcases hc with ⟨rfl, rfl⟩ | ⟨rfl, rfl⟩ <;> simp [mark?, hrest]

/-! ## Texts -/

/-- What a text that can be written plain has none of. -/
theorem allowsPlain_eq_true {cs : List Char} (h : Scalar.allowsPlain cs = true) :
    Scalar.startsBlank cs = false ∧ Scalar.endsBlank cs = false ∧
      (∀ c ∈ cs, isBreak c = false) ∧ (∀ c ∈ cs, Scalar.isPrintable c = true) ∧
        Scalar.startsWithIndicator cs = false ∧
          Scalar.hasInnerIndicator false (cs.drop 1) = false := by
  simpa [Scalar.allowsPlain, Scalar.needsEscape, and_assoc] using h

theorem starts_of_allowsPlain {c : Char} {cs : List Char}
    (h : Scalar.allowsPlain (c :: cs) = true) (k : Nat) (rest : List Char) :
    Starts c (cs ++ (lineGap k ++ rest)) := by
  obtain ⟨hblank, -, hbreak, hprintable, hindicator, -⟩ := allowsPlain_eq_true h
  have hwhite : isWhite c = false := by
    rw [← Bool.not_eq_true]
    intro hw
    have hspace := Scalar.eq_space_of_isWhite (hprintable c List.mem_cons_self) hw
    simp [Scalar.startsBlank, hspace] at hblank
  have hstart : isReserved c = false ∧ (c = '-' ∨ c = '?' ∨ c = ':' → atGap cs = false) := by
    unfold Scalar.startsWithIndicator at hindicator
    split at hindicator
    · cases hindicator
    · cases hindicator
    · rename_i heq
      cases heq
      rw [Bool.or_eq_false_iff] at hindicator
      refine ⟨hindicator.1, ?_⟩
      rintro (rfl | rfl | rfl) <;> simpa using hindicator.2
    · rename_i heq
      cases heq
  refine ⟨hwhite, hbreak c List.mem_cons_self, hstart.1, ?_⟩
  rw [atGap_append_lineGap]
  exact hstart.2

section Line

variable {k column outer : Nat} {rest : List Char} (hrest : Solid rest) (hcolumn : 0 < column)
include hrest hcolumn

theorem read_plain {c : Char} {cs : List Char} (h : Scalar.allowsPlain (c :: cs) = true)
    (hk : k < outer) :
    read ⟨false, column, outer⟩ c (cs ++ (lineGap k ++ rest)) =
      .ok (.plain (c :: cs) true, rest) := by
  obtain ⟨-, hblank, hbreak, hprintable, -, hinner⟩ := allowsPlain_eq_true h
  have hlast : cs.getLast? ≠ some ' ' := by
    intro hlast
    simp [Scalar.endsBlank, List.getLast?_cons, hlast] at hblank
  have hplain := Scalar.plain_line hrest hk cs [] (column + 1) (by omega)
    (fun d hd => hprintable d (List.mem_cons_of_mem c hd))
    (fun d hd => hbreak d (List.mem_cons_of_mem c hd)) hinner hlast fun _ => rfl
  exact (starts_of_allowsPlain h k rest).read_eq outer (by omega) hplain

omit hrest in
theorem read_eq_readItem {c : Char} {cs : List Char}
    (hmark : mark? ⟨false, column, outer⟩ c cs = none) :
    read ⟨false, column, outer⟩ c cs = readItem ⟨false, column, outer⟩ c cs := by
  have hne : column ≠ 0 := by omega
  rw [read, if_neg (by simp [hne]), if_neg (by simp [hne]), hmark]

omit hrest in
theorem read_single {cs : List Char} (h : Scalar.allowsSingle cs = true) (hnewline : '\n' ∉ cs)
    {after : List Char} (hafter : after.head? ≠ some '\x27') :
    read ⟨false, column, outer⟩ '\x27' (Scalar.singleBody false cs ++ '\x27' :: after) =
      .ok (.item (.scalar .quoted cs), after) := by
  obtain ⟨hbefore, hbehind, hprintable⟩ : Scalar.spaceBeforeBreak cs = false ∧
      Scalar.spaceAfterBreak cs = false ∧ ∀ c ∈ cs, Scalar.isPrintable c = true := by
    simpa [Scalar.allowsSingle, Scalar.needsEscape, and_assoc] using h
  have hpending : Scalar.Pending false .none [] := .spaces (by simp)
  have hread := Scalar.quoted_singleBody hafter cs hpending hprintable hnewline hbefore hbehind
  rw [read_eq_readItem hcolumn rfl]
  show wrap _ (Scalar.quoted false false .none _) = _
  rw [hread]
  rfl

omit hrest in
theorem read_double (cs after : List Char) :
    read ⟨false, column, outer⟩ '"' (cs.flatMap Scalar.doubleChar ++ '"' :: after) =
      .ok (.item (.scalar .quoted cs), after) := by
  have hread := Scalar.quoted_doubleBody cs [] after
  rw [read_eq_readItem hcolumn rfl]
  show wrap _ (Scalar.quoted true false (.blanks []) _) = _
  rw [hread]
  rfl

theorem read_literal {cs : List Char} (hprintable : ∀ c ∈ cs, Scalar.isPrintable c = true)
    (hne : cs ≠ []) (hk : k < Scalar.width) :
    read ⟨false, column, 3⟩ '|' (Scalar.literalHeader cs ++ '\n' :: (Scalar.literalBody true cs ++
        (Scalar.literalEnd cs ++ (List.replicate k ' ' ++ rest)))) = .ok (.block cs, rest) := by
  rw [read_eq_readItem hcolumn rfl]
  show wrap _ (Scalar.block false 3 _) = _
  rw [Scalar.block_literal hk hrest hne hprintable]
  rfl

/-- The lexeme as which a written text is read. -/
def ofText (cs : List Char) : Lexeme :=
  match Scalar.written cs with
  | .plain => .plain cs true
  | .single | .double => .item (.scalar .quoted cs)
  | .literal => .block cs

/-- What is left after it, of the blanks in front of the next line and of that line: a quoted scalar
ends at its quote, and the others where something is not indented far enough. -/
def afterText (cs : List Char) (k : Nat) (rest : List Char) : List Char :=
  match Scalar.written cs with
  | .single | .double => lineGap k ++ rest
  | .plain | .literal => rest

/-- A written text reads back, and nothing is skipped in front of it. -/
theorem read_write (cs : List Char) (hk : k < 3) :
    ∃ c tail, Scalar.write cs ++ (List.replicate k ' ' ++ rest) = c :: tail ∧ Solid (c :: tail) ∧
      read ⟨false, column, 3⟩ c tail = .ok (ofText cs, afterText cs k rest) := by
  have hquote : (lineGap k ++ rest).head? ≠ some '\x27' := by simp [lineGap]
  unfold Scalar.write ofText afterText
  cases hwritten : Scalar.written cs with
  | plain =>
      obtain ⟨hne, hplain⟩ := Scalar.written_eq_plain hwritten
      obtain ⟨c, cs, rfl⟩ := List.exists_cons_of_ne_nil hne
      have hbom : c ≠ byteOrderMark := by
        rintro rfl
        exact absurd ((allowsPlain_eq_true hplain).2.2.2.1 _ List.mem_cons_self) (by decide)
      exact ⟨c, cs ++ (lineGap k ++ rest), by simp [lineGap],
        (starts_of_allowsPlain hplain k rest).solid hbom _, read_plain hrest hcolumn hplain hk⟩
  | single =>
      obtain ⟨hnewline, hsingle⟩ := Scalar.written_eq_single hwritten
      exact ⟨'\x27', Scalar.singleBody false cs ++ '\x27' :: (lineGap k ++ rest),
        by simp [lineGap], solid_cons.mpr (by decide), read_single hcolumn hsingle hnewline hquote⟩
  | double =>
      exact ⟨'"', cs.flatMap Scalar.doubleChar ++ '"' :: (lineGap k ++ rest), by simp [lineGap],
        solid_cons.mpr (by decide), read_double hcolumn cs _⟩
  | literal =>
      have hne := Scalar.ne_nil_of_written_eq_literal hwritten
      have hprintable : ∀ c ∈ cs, Scalar.isPrintable c = true :=
        Scalar.isPrintable_of_written (by simp [hwritten])
      exact ⟨'|', _, by simp [Scalar.literalEnd], solid_cons.mpr (by decide),
        read_literal hrest hcolumn hprintable hne (Nat.lt_succ_of_lt hk)⟩

end Line

theorem solid_write {k : Nat} {rest : List Char} (hrest : Solid rest) (cs : List Char)
    (hk : k < 3) : Solid (Scalar.write cs ++ (List.replicate k ' ' ++ rest)) := by
  obtain ⟨c, tail, hwrite, hsolid, -⟩ := read_write hrest Nat.zero_lt_one cs hk
  rw [hwrite]
  exact hsolid

end Lexeme

end DiagramTint.Yaml
