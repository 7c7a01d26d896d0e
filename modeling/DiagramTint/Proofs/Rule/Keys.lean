import DiagramTint.Proofs.Selector.Syntax
import DiagramTint.Rule
import Mathlib.Data.List.Forall2

/-!
# Keys of several selectors

The rules of a key are those of its words, one for each.  So keys can be joined by any blank, the
selectors of a key can be written out again, and a key of one selector is a selector without blanks
inside.
-/

namespace DiagramTint

namespace Rule

open Text

variable {tag : Tag}

theorem parse_eq_ok_iff {text : String} {r : Rule} :
    parse text tag = .ok r ↔ Selector.parse text = .ok r.selector ∧ r.tag = tag := by
  rw [parse]
  cases Selector.parse text with
  | error e => simp
  | ok s =>
      obtain ⟨selector, ruleTag⟩ := r
      simp [eq_comm]

theorem parseAll_eq_ok_iff {ws : List String} {rules : List Rule} :
    parseAll tag ws = .ok rules ↔ List.Forall₂ (fun w r => parse w tag = .ok r) ws rules := by
  induction ws generalizing rules with
  | nil => simp [parseAll, eq_comm]
  | cons w ws ih =>
      rw [parseAll]
      cases hw : parse w tag with
      | error e => simp [List.forall₂_cons_left_iff, hw]
      | ok rule =>
          cases hws : parseAll tag ws with
          | error e =>
              simp only [reduceCtorEq, false_iff, List.forall₂_cons_left_iff, ← ih, hws]
              simp
          | ok others =>
              simp only [List.forall₂_cons_left_iff, ← ih, hws, hw]
              simp [eq_comm]

theorem parseMany_eq_ok_iff {key : String} {rules : List Rule} :
    parseMany key tag = .ok rules ↔
      words key ≠ [] ∧ List.Forall₂ (fun w r => parse w tag = .ok r) (words key) rules := by
  rw [parseMany, ← parseAll_eq_ok_iff]
  cases words key with
  | nil => simp
  | cons w ws => simp

theorem parseAll_eq_error_iff {ws : List String} {e : SelectorError} :
    parseAll tag ws = .error e ↔
      ∃ w, ws.find? (fun w => !(Selector.parse w).isOk) = some w ∧ Selector.parse w = .error e := by
  induction ws with
  | nil => simp [parseAll]
  | cons w ws ih =>
      rw [parseAll, parse, List.find?_cons]
      cases hw : Selector.parse w with
      | error f =>
          simp only [Except.toBool, Bool.not_false, Option.some.injEq, exists_eq_left', hw,
            Except.error.injEq]
      | ok s =>
          simp only [Except.toBool, Bool.not_true, ← ih]
          cases parseAll tag ws <;> simp

/-- Reading a key fails with the error of its first word that is no selector. -/
theorem parseMany_eq_error_iff {key : String} {e : SelectorError} :
    parseMany key tag = .error e ↔
      (words key = [] ∧ e = .empty) ∨
        ∃ w, (words key).find? (fun w => !(Selector.parse w).isOk) = some w ∧
          Selector.parse w = .error e := by
  rw [parseMany, ← @parseAll_eq_error_iff tag]
  cases words key with
  | nil => simp [parseAll, eq_comm]
  | cons w ws => simp

section Keys

variable {a b key : String} {before after rules : List Rule}

theorem parseMany_append {w : Char} (hw : isBlank w = true) (ha : parseMany a tag = .ok before)
    (hb : parseMany b tag = .ok after) :
    parseMany (a ++ String.singleton w ++ b) tag = .ok (before ++ after) := by
  obtain ⟨hne, hbefore⟩ := parseMany_eq_ok_iff.mp ha
  obtain ⟨-, hafter⟩ := parseMany_eq_ok_iff.mp hb
  rw [parseMany_eq_ok_iff, words_append_blank hw]
  exact ⟨by simp [hne], List.rel_append hbefore hafter⟩

/-- The words of a key are the written forms of its selectors. -/
theorem map_render_of_parseMany (h : parseMany key tag = .ok rules) :
    rules.map (fun r => r.selector.render) = words key := by
  have hwords : ∀ {ws : List String} {rs : List Rule}, (∀ w ∈ ws, IsSolid w.toList) →
      List.Forall₂ (fun w r => parse w tag = .ok r) ws rs →
      rs.map (fun r => r.selector.render) = ws := by
    intro ws rs hsolid hread
    induction hread with
    | nil => rfl
    | cons hhead _ ih =>
        obtain ⟨hw, hws⟩ := List.forall_mem_cons.mp hsolid
        rw [List.map_cons, ih hws, Selector.render_of_parse hw (parse_eq_ok_iff.mp hhead).1]
  exact hwords (fun _ hw => isSolid_of_mem_words hw) (parseMany_eq_ok_iff.mp h).2

/-- The selectors of a key can be written out again. -/
theorem parseMany_rendered (h : parseMany key tag = .ok rules) :
    parseMany (" ".intercalate (rules.map fun r => r.selector.render)) tag = .ok rules := by
  rw [map_render_of_parseMany h, parseMany_eq_ok_iff, words_intercalate_words]
  exact parseMany_eq_ok_iff.mp h

theorem parse_trim (text : String) (tag : Tag) : parse (trim text) tag = parse text tag := by
  rw [parse, Selector.parse_trim, parse]

theorem trim_ne_empty_of_parse {text : String} {r : Rule} (h : parse text tag = .ok r) :
    trim text ≠ "" := by
  intro hempty
  have hblank : IsBlankText "".toList := by simp [IsBlankText]
  rw [← parse_trim, hempty, parse_eq_ok_iff, Selector.parse_of_isBlankText hblank] at h
  cases h.1

theorem parseMany_eq_singleton_iff {text : String} {r : Rule} :
    parseMany text tag = .ok [r] ↔ parse text tag = .ok r ∧ IsSolid (trim text).toList := by
  rw [parseMany_eq_ok_iff]
  constructor
  · rintro ⟨-, hrules⟩
    obtain ⟨w, ws, hread, hnil, hwords⟩ := List.forall₂_cons_right_iff.mp hrules
    rw [List.forall₂_nil_right_iff.mp hnil] at hwords
    obtain ⟨rfl, -, hsolid⟩ := words_eq_singleton_iff.mp hwords
    rw [parse_trim] at hread
    exact ⟨hread, hsolid⟩
  · rintro ⟨hread, hsolid⟩
    have hwords := words_eq_singleton_iff.mpr ⟨rfl, trim_ne_empty_of_parse hread, hsolid⟩
    rw [hwords]
    refine ⟨List.cons_ne_nil _ _, .cons ?_ .nil⟩
    rw [parse_trim, hread]

end Keys

/-- Two keys with a blank between them have the rules of both; the selectors of a key, written with
single spaces between them, are a key with the same rules; and a key has one rule exactly if it is
read as one selector and has no blank after trimming. -/
theorem parseMany_keys (tag : Tag) :
    (∀ (a b : String) (w : Char) (before after : List Rule), isBlank w = true →
      parseMany a tag = .ok before → parseMany b tag = .ok after →
      parseMany (a ++ String.singleton w ++ b) tag = .ok (before ++ after)) ∧
    (∀ (key : String) (rules : List Rule), parseMany key tag = .ok rules →
      parseMany (" ".intercalate (rules.map fun r => r.selector.render)) tag = .ok rules) ∧
    ∀ (text : String) (r : Rule),
      parseMany text tag = .ok [r] ↔ parse text tag = .ok r ∧ IsSolid (trim text).toList := by
  refine ⟨?_, ?_, ?_⟩
  · intro a b w before after hw ha hb
    exact parseMany_append hw ha hb
  · intro key rules h
    exact parseMany_rendered h
  · intro text r
    exact parseMany_eq_singleton_iff

/-- Two keys with blanks at their ends, joined by a no-break space. -/
theorem parseMany_keys_spacedKeys :
    parseMany " Alias/String\tError " .string =
        .ok [⟨⟨"String", ["Alias"]⟩, .string⟩, ⟨⟨"Error", []⟩, .string⟩] ∧
      parseMany "*/Arrow\n" .string = .ok [⟨⟨"Arrow", ["*"]⟩, .string⟩] ∧
      parseMany (" Alias/String\tError " ++ String.singleton '\u00a0' ++ "*/Arrow\n") .string =
        .ok [⟨⟨"String", ["Alias"]⟩, .string⟩, ⟨⟨"Error", []⟩, .string⟩,
          ⟨⟨"Arrow", ["*"]⟩, .string⟩] ∧
      parse "*/Arrow\n" .string = .ok ⟨⟨"Arrow", ["*"]⟩, .string⟩ := by
  have hfirst : parseMany " Alias/String\tError " .string =
      .ok [⟨⟨"String", ["Alias"]⟩, .string⟩, ⟨⟨"Error", []⟩, .string⟩] := by
    decide +kernel
  have hsecond : parseMany "*/Arrow\n" .string = .ok [⟨⟨"Arrow", ["*"]⟩, .string⟩] := by
    decide +kernel
  obtain ⟨happend, -, hsingle⟩ := parseMany_keys .string
  exact ⟨hfirst, hsecond, happend _ _ '\u00a0' _ _ (by decide) hfirst hsecond,
    ((hsingle _ _).mp hsecond).1⟩

end Rule

end DiagramTint
