import DiagramTint.Proofs.Rule.Resolution
import Mathlib.Data.Finset.Card

/-!
# The books of a rule table

What a table keeps is determined by the list it was built from.  The rules in effect are those
that no later rule with the same selector replaces, and there is one warning for each rule that
replaces an earlier one.
-/

namespace DiagramTint

namespace Rule

/-- The rules of a list that no later one with the same selector replaces. -/
def inEffect : List Rule → List Rule
  | [] => []
  | r :: rs => if rs.any (fun later => later.selector = r.selector) then inEffect rs
      else r :: inEffect rs

/-- The last rule of a list with a given selector. -/
def last? (rules : List Rule) (s : Selector) : Option Rule :=
  (rules.filter fun r => r.selector = s).getLast?

/-- One entry for each rule that has an earlier one with the same selector, with the tag of the
nearest of these and its own. -/
def replacements (rules : List Rule) : List Replacement :=
  rules.zipIdx.filterMap fun e =>
    (last? (rules.take e.2) e.1.selector).map fun earlier =>
      ⟨e.1.selector, earlier.tag, e.1.tag⟩

/-! ## One more rule -/

theorem inEffect_concat (rules : List Rule) (r : Rule) :
    inEffect (rules ++ [r]) =
      (inEffect rules).filter (fun a => a.selector ≠ r.selector) ++ [r] := by
  induction rules with
  | nil => rfl
  | cons a rules ih =>
      simp only [List.cons_append, inEffect, List.any_append, List.any_cons, List.any_nil,
        Bool.or_false]
      by_cases hlater : rules.any (fun b => b.selector = a.selector) = true
      · simp [hlater, ih]
      · by_cases hr : r.selector = a.selector
        · simp [hlater, hr, ih]
        · have hr' : a.selector ≠ r.selector := fun h => hr h.symm
          simp [hlater, hr, hr', ih]

theorem last?_concat (rules : List Rule) (r : Rule) (s : Selector) :
    last? (rules ++ [r]) s = if r.selector = s then some r else last? rules s := by
  unfold last?
  rw [List.filter_append]
  by_cases hr : r.selector = s <;> simp [hr]

theorem replacements_concat (rules : List Rule) (r : Rule) :
    replacements (rules ++ [r]) = replacements rules ++
      ((last? rules r.selector).map fun earlier => ⟨r.selector, earlier.tag, r.tag⟩).toList := by
  unfold replacements
  rw [List.zipIdx_append, List.filterMap_append]
  congr 1
  · apply List.filterMap_congr
    intro e he
    have hlt : e.2 < rules.length := by
      have := (List.mem_zipIdx he).2.1
      omega
    rw [List.take_append_of_le_length (Nat.le_of_lt hlt)]
  · cases h : last? rules r.selector <;> simp [h]

/-! ## Rules in effect -/

theorem selector_mem_inEffect_iff (rules : List Rule) (s : Selector) :
    (∃ r ∈ inEffect rules, r.selector = s) ↔ ∃ r ∈ rules, r.selector = s := by
  induction rules with
  | nil => rfl
  | cons a rules ih =>
      by_cases hlater : rules.any (fun b => b.selector = a.selector) = true
      · have hin : ∃ b ∈ rules, b.selector = a.selector := by simpa using hlater
        rw [inEffect, if_pos hlater, ih]
        constructor
        · rintro ⟨r, hr, hs⟩
          exact ⟨r, List.mem_cons_of_mem a hr, hs⟩
        · rintro ⟨r, hr, hs⟩
          rcases List.mem_cons.mp hr with rfl | hr
          · obtain ⟨b, hb, hsame⟩ := hin
            exact ⟨b, hb, hsame.trans hs⟩
          · exact ⟨r, hr, hs⟩
      · rw [inEffect, if_neg hlater]
        simp [ih]

theorem pairwise_inEffect (rules : List Rule) :
    (inEffect rules).Pairwise fun a b => a.selector ≠ b.selector := by
  induction rules with
  | nil => exact List.Pairwise.nil
  | cons a rules ih =>
      by_cases hlater : rules.any (fun b => b.selector = a.selector) = true
      · rw [inEffect, if_pos hlater]
        exact ih
      · rw [inEffect, if_neg hlater]
        refine List.Pairwise.cons ?_ ih
        intro b hb hsame
        obtain ⟨c, hc, hcs⟩ := (selector_mem_inEffect_iff rules a.selector).mp ⟨b, hb, hsame.symm⟩
        apply hlater
        rw [List.any_eq_true]
        exact ⟨c, hc, by simpa using hcs⟩

theorem inEffect_eq_self {rules : List Rule}
    (h : rules.Pairwise fun a b => a.selector ≠ b.selector) : inEffect rules = rules := by
  induction rules with
  | nil => rfl
  | cons a rules ih =>
      rw [List.pairwise_cons] at h
      have hlater : ¬ rules.any (fun b => b.selector = a.selector) = true := by
        rw [List.any_eq_true]
        rintro ⟨b, hb, hsame⟩
        exact h.1 b hb (by simpa using hsame : b.selector = a.selector).symm
      rw [inEffect, if_neg hlater, ih h.2]

/-- There are as many rules in effect as there are different selectors. -/
theorem length_inEffect (rules : List Rule) :
    (inEffect rules).length = (rules.map Rule.selector).toFinset.card := by
  have hnodup : ((inEffect rules).map Rule.selector).Nodup :=
    List.pairwise_map.mpr (pairwise_inEffect rules)
  have hsame : ((inEffect rules).map Rule.selector).toFinset =
      (rules.map Rule.selector).toFinset := by
    ext s
    simpa using selector_mem_inEffect_iff rules s
  rw [← hsame, List.toFinset_card_of_nodup hnodup, List.length_map]

theorem replacements_eq_nil {rules : List Rule}
    (h : rules.Pairwise fun a b => a.selector ≠ b.selector) : replacements rules = [] := by
  induction rules using List.reverseRecOn with
  | nil => rfl
  | append_singleton rules r ih =>
      rw [List.pairwise_append] at h
      have hnone : last? rules r.selector = none := by
        rw [last?, List.getLast?_eq_none_iff, List.filter_eq_nil_iff]
        intro a ha
        simpa using h.2.2 a ha r List.mem_cons_self
      rw [replacements_concat, ih h.1, hnone]
      rfl

end Rule

/-! ## Tables -/

namespace RuleTable

theorem rules_build (rules : List Rule) : (build rules).rules = Rule.inEffect rules := by
  induction rules using List.reverseRecOn with
  | nil => rfl
  | append_singleton rules r ih => rw [build_concat, insert, ih, Rule.inEffect_concat]

theorem get?_insert (t : RuleTable) (r : Rule) (s : Selector) :
    (t.insert r).get? s = if r.selector = s then some r.tag else t.get? s := by
  unfold get? insert
  rw [List.find?_append]
  by_cases hr : r.selector = s
  · have hnone : (t.rules.filter fun a => a.selector ≠ r.selector).find?
        (fun a => a.selector = s) = none := by
      rw [List.find?_eq_none]
      intro a ha
      rw [List.mem_filter] at ha
      simpa [hr] using ha.2
    rw [hnone]
    simp [hr]
  · have hkept : (t.rules.filter fun a => a.selector ≠ r.selector).find?
        (fun a => a.selector = s) = t.rules.find? fun a => a.selector = s := by
      rw [List.find?_filter]
      congr 1
      funext a
      by_cases ha : a.selector = s
      · simp [ha, Ne.symm hr]
      · simp [ha]
    rw [hkept]
    cases t.rules.find? fun a => decide (a.selector = s) <;> simp [hr]

theorem get?_build (rules : List Rule) (s : Selector) :
    (build rules).get? s = (Rule.last? rules s).map Rule.tag := by
  induction rules using List.reverseRecOn with
  | nil => rfl
  | append_singleton rules r ih =>
      rw [build_concat, get?_insert, ih, Rule.last?_concat]
      by_cases hr : r.selector = s <;> simp [hr]

theorem warnings_build (rules : List Rule) : (build rules).warnings = Rule.replacements rules := by
  induction rules using List.reverseRecOn with
  | nil => rfl
  | append_singleton rules r ih =>
      rw [build_concat, insert, get?_build, ih, Rule.replacements_concat]
      cases Rule.last? rules r.selector <;> simp

/-- Building from the rules in effect changes nothing about which rule a node gets its tag from. -/
theorem resolve_build_inEffect (rules : List Rule) (nodeType : String) (chain : List String) :
    (build (Rule.inEffect rules)).resolve nodeType chain =
      (build rules).resolve nodeType chain := by
  rw [resolve_eq_choose, choose_build, ← rules_build, resolve_eq_choose]

end RuleTable

end DiagramTint
