import DiagramTint.Config
import DiagramTint.Proofs.Rule.Keys
import Mathlib.Algebra.GroupWithZero.Nat

/-!
# Valid configurations and skipped rules

A configuration is validated up to the first rule with a key that cannot be read, while its rules
are those of all keys that can be read.  Nothing but whole keys is skipped: a configuration is valid
exactly if every word of its keys gives a rule, and without the rules that are skipped it is valid
and gives the same rules.
-/

namespace DiagramTint

namespace ConfigRule

/-- Whether the key of a rule can be read. -/
def isReadable (r : ConfigRule) : Bool :=
  (Rule.parseMany r.selector r.tag).isOk

/-- The rules of a key that can be read; none if it cannot. -/
def tagRules (r : ConfigRule) : List Rule :=
  Rule.ofKey r.selector r.tag

theorem tagRules_of_not_isReadable {r : ConfigRule} (h : r.isReadable = false) :
    r.tagRules = [] := by
  rw [isReadable] at h
  cases hread : Rule.parseMany r.selector r.tag with
  | error e => exact Rule.ofKey_of_error hread
  | ok rules =>
      rw [hread] at h
      cases h

theorem length_tagRules_of_isReadable {r : ConfigRule} (h : r.isReadable = true) :
    r.tagRules.length = (Text.words r.selector).length := by
  rw [isReadable] at h
  cases hread : Rule.parseMany r.selector r.tag with
  | error e =>
      rw [hread] at h
      cases h
  | ok rules =>
      rw [tagRules, Rule.ofKey_of_ok hread]
      exact (Rule.parseMany_eq_ok_iff.mp hread).2.length_eq.symm

theorem length_tagRules_le (r : ConfigRule) :
    r.tagRules.length ≤ (Text.words r.selector).length := by
  cases h : r.isReadable with
  | true => exact Nat.le_of_eq (length_tagRules_of_isReadable h)
  | false => simp [tagRules_of_not_isReadable h]

theorem not_isReadable_of_words_eq_nil {r : ConfigRule} (h : Text.words r.selector = []) :
    r.isReadable = false := by
  have hread : Rule.parseMany r.selector r.tag = .error .empty :=
    Rule.parseMany_eq_error_iff.mpr (Or.inl ⟨h, rfl⟩)
  rw [isReadable, hread]
  rfl

/-- A key can be read exactly if it is not blank and each of its words gives a rule. -/
theorem isReadable_iff {r : ConfigRule} :
    r.isReadable = true ↔
      Text.words r.selector ≠ [] ∧ r.tagRules.length = (Text.words r.selector).length := by
  constructor
  · intro h
    refine ⟨fun hnil => ?_, length_tagRules_of_isReadable h⟩
    rw [not_isReadable_of_words_eq_nil hnil] at h
    cases h
  · rintro ⟨hne, hlength⟩
    by_contra hread
    rw [tagRules_of_not_isReadable (eq_false_of_ne_true hread)] at hlength
    exact hne (List.eq_nil_of_length_eq_zero hlength.symm)

end ConfigRule

namespace Config

open Text

/-- A configuration without the rules whose keys cannot be read. -/
def readable (c : Config) : Config :=
  { c with rules := c.rules.filter ConfigRule.isReadable }

theorem tagRules_eq_flatMap (c : Config) : c.tagRules = c.rules.flatMap ConfigRule.tagRules := rfl

theorem firstInvalid?_eq_none_iff {rules : List ConfigRule} :
    firstInvalid? rules = none ↔ ∀ r ∈ rules, r.isReadable = true := by
  induction rules with
  | nil => simp [firstInvalid?]
  | cons r rs ih =>
      rw [firstInvalid?, List.forall_mem_cons, ConfigRule.isReadable, ← ih]
      cases Rule.parseMany r.selector r.tag <;> simp [Except.toBool]

theorem firstInvalid?_eq_some_iff {rules : List ConfigRule} {e : InvalidSelector} :
    firstInvalid? rules = some e ↔
      ∃ r, rules.find? (fun r => !r.isReadable) = some r ∧ e.selector = r.selector ∧
        Rule.parseMany r.selector r.tag = .error e.error := by
  induction rules with
  | nil => simp [firstInvalid?]
  | cons r rs ih =>
      rw [firstInvalid?, List.find?_cons, ConfigRule.isReadable]
      cases hread : Rule.parseMany r.selector r.tag with
      | ok read => exact ih
      | error f =>
          obtain ⟨selector, error⟩ := e
          simp [Except.toBool, hread, eq_comm]

theorem validate_eq_ok_iff {c : Config} :
    c.validate = .ok () ↔ ∀ r ∈ c.rules, r.isReadable = true := by
  rw [← firstInvalid?_eq_none_iff, validate]
  cases firstInvalid? c.rules <;> simp

theorem validate_eq_error_iff {c : Config} {e : InvalidSelector} :
    c.validate = .error e ↔
      ∃ r, c.rules.find? (fun r => !r.isReadable) = some r ∧ e.selector = r.selector ∧
        Rule.parseMany r.selector r.tag = .error e.error := by
  rw [← firstInvalid?_eq_some_iff, validate]
  cases firstInvalid? c.rules <;> simp

theorem length_flatMap_tagRules_le (rules : List ConfigRule) :
    (rules.flatMap ConfigRule.tagRules).length ≤
      (rules.map fun r => (words r.selector).length).sum := by
  induction rules with
  | nil => exact Nat.le_refl 0
  | cons r rs ih =>
      have hhead := r.length_tagRules_le
      rw [List.flatMap_cons, List.length_append, List.map_cons, List.sum_cons]
      omega

/-- No key gives more rules than it has words, so the sums agree only if each key does. -/
theorem length_flatMap_tagRules_eq_iff {rules : List ConfigRule} :
    (rules.flatMap ConfigRule.tagRules).length =
        (rules.map fun r => (words r.selector).length).sum ↔
      ∀ r ∈ rules, r.tagRules.length = (words r.selector).length := by
  induction rules with
  | nil => simp
  | cons r rs ih =>
      have hhead := r.length_tagRules_le
      have htail := length_flatMap_tagRules_le rs
      rw [List.flatMap_cons, List.length_append, List.map_cons, List.sum_cons,
        List.forall_mem_cons, ← ih]
      omega

theorem flatMap_tagRules_filter (rules : List ConfigRule) :
    (rules.filter ConfigRule.isReadable).flatMap ConfigRule.tagRules =
      rules.flatMap ConfigRule.tagRules := by
  induction rules with
  | nil => rfl
  | cons r rs ih =>
      rw [List.flatMap_cons, ← ih]
      cases h : r.isReadable with
      | true => rw [List.filter_cons_of_pos h, List.flatMap_cons]
      | false =>
          rw [List.filter_cons_of_neg (by simp [h]), ConfigRule.tagRules_of_not_isReadable h,
            List.nil_append]

/-- A configuration is valid exactly if no key is blank and there are as many rules as words in all
keys together.  Without the rules whose keys cannot be read it is valid and its rules are the same.
If it is not valid, the error names the first key that cannot be read, and the reason is that of its
first word that is no selector. -/
theorem validate_agrees_tagRules (c : Config) :
    (c.validate = .ok () ↔
      (∀ r ∈ c.rules, ¬ IsBlankText r.selector.toList) ∧
        c.tagRules.length = (c.rules.map fun r => (words r.selector).length).sum) ∧
    (c.readable.validate = .ok () ∧ c.readable.tagRules = c.tagRules) ∧
    ∀ e, c.validate = .error e ↔
      ∃ r, c.rules.find? (fun r => !r.isReadable) = some r ∧ e.selector = r.selector ∧
        ((words r.selector = [] ∧ e.error = .empty) ∨
          ∃ w, (words r.selector).find? (fun w => !(Selector.parse w).isOk) = some w ∧
            Selector.parse w = .error e.error) := by
  refine ⟨?_, ⟨?_, ?_⟩, ?_⟩
  · rw [validate_eq_ok_iff, tagRules_eq_flatMap, length_flatMap_tagRules_eq_iff, ← forall₂_and]
    simp only [ConfigRule.isReadable_iff, ← words_eq_nil_iff, ne_eq]
  · rw [validate_eq_ok_iff]
    intro r hr
    exact (List.mem_filter.mp hr).2
  · exact flatMap_tagRules_filter c.rules
  · intro e
    simp only [validate_eq_error_iff, Rule.parseMany_eq_error_iff]

/-- The second word of the second key is wrong, and the third key is blank. -/
example :
    validate ⟨[⟨"Alias/String Error", .string⟩, ⟨"Arrow */ *", .null⟩, ⟨"\n", .comment⟩]⟩ =
      .error ⟨"Arrow */ *", .emptySegment "*/"⟩ := by
  decide +kernel

end Config

end DiagramTint
