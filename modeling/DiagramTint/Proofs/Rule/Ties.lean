import DiagramTint.Proofs.Rule.Indexing
import Mathlib.Data.Fin.VecNotation
import Mathlib.Data.List.FinRange
import Mathlib.Data.List.Sort

/-!
# Ties between rules

The order of a list of rules matters only between rules that tie: rules for the same node type with
as many segments and as many segments other than `*`.  Lists that differ in the order of other rules
give every node the same tag, wherever the repeated selectors among them stand.
-/

namespace DiagramTint

namespace Rule

/-- Two rules that only their order can tell apart. -/
def Ties (a b : Rule) : Prop :=
  a.selector.nodeType = b.selector.nodeType ∧ a.selector.path.length = b.selector.path.length ∧
    a.selector.path.countP (· ≠ Selector.wildcard) = b.selector.path.countP (· ≠ Selector.wildcard)

instance (a b : Rule) : Decidable (Ties a b) :=
  inferInstanceAs (Decidable (_ ∧ _ ∧ _))

/-- The second list has the rules of the first, each in the place that `place` gives for it, and
rules that tie follow one another as they did. -/
structure Rearranges (xs ys : List Rule) (place : Fin xs.length ≃ Fin ys.length) : Prop where
  same : ∀ i, ys.get (place i) = xs.get i
  keepsTies : ∀ i j, i < j → Ties (xs.get i) (xs.get j) → place i < place j

variable {xs ys : List Rule} {place : Fin xs.length ≃ Fin ys.length}

theorem Rearranges.mem_iff (h : Rearranges xs ys place) (r : Rule) : r ∈ xs ↔ r ∈ ys := by
  rw [List.mem_iff_get, List.mem_iff_get]
  constructor
  · rintro ⟨i, rfl⟩
    exact ⟨place i, h.same i⟩
  · rintro ⟨j, rfl⟩
    refine ⟨place.symm j, ?_⟩
    rw [← h.same, Equiv.apply_symm_apply]

theorem filter_eq_map_get (rules : List Rule) (p : Rule → Bool) :
    rules.filter p = ((List.finRange rules.length).filter fun i => p (rules.get i)).map rules.get := by
  calc rules.filter p = ((List.finRange rules.length).map rules.get).filter p := by
        rw [← List.ofFn_eq_map, List.ofFn_get]
    _ = ((List.finRange rules.length).filter fun i => p (rules.get i)).map rules.get :=
        List.filter_map

/-- The rules that tie with one rule are the same list before and after. -/
theorem Rearranges.filter_ties (h : Rearranges xs ys place) (r : Rule) :
    xs.filter (fun a => Ties a r) = ys.filter fun a => Ties a r := by
  have hplaces : ((List.finRange xs.length).filter fun i => decide (Ties (xs.get i) r)).map place =
      (List.finRange ys.length).filter fun j => Ties (ys.get j) r := by
    apply List.Pairwise.eq_of_mem_iff (r := (· < ·))
    · rw [List.pairwise_map, List.pairwise_filter]
      refine (List.pairwise_lt_finRange _).imp ?_
      intro i j hij hi hj
      simp only [decide_eq_true_eq] at hi hj
      exact h.keepsTies i j hij
        ⟨hi.1.trans hj.1.symm, hi.2.1.trans hj.2.1.symm, hi.2.2.trans hj.2.2.symm⟩
    · exact (List.pairwise_lt_finRange _).filter _
    · intro j
      simp only [List.mem_map, List.mem_filter, List.mem_finRange, true_and, decide_eq_true_eq]
      constructor
      · rintro ⟨i, hi, rfl⟩
        rwa [h.same]
      · intro hj
        refine ⟨place.symm j, ?_, place.apply_symm_apply j⟩
        rwa [← h.same, place.apply_symm_apply]
  rw [filter_eq_map_get, filter_eq_map_get, ← hplaces, List.map_map]
  exact List.map_congr_left fun i _ => (h.same i).symm

end Rule

namespace RuleTable

/-! ## The last of the most specific rules -/

theorem choose_eq_none_iff {rules : List Rule} : choose rules = none ↔ rules = [] := by
  cases rules using List.reverseRecOn with
  | nil => simp [choose]
  | append_singleton rules r =>
      rw [choose_concat]
      cases hbest : choose rules with
      | none => simp [prefer]
      | some b =>
          simp only [prefer]
          split <;> simp

/-- Nothing in a list is more specific than `r`, and nothing behind it in the list is as specific. -/
structure IsLastBest (rules : List Rule) (r : Rule) : Prop where
  best : ∀ a ∈ rules, atMostAsSpecific a.selector r.selector = true
  last : (rules.filter fun a => atMostAsSpecific r.selector a.selector).getLast? = some r

theorem IsLastBest.mem {rules : List Rule} {r : Rule} (h : IsLastBest rules r) : r ∈ rules :=
  (List.mem_filter.mp (List.mem_of_getLast? h.last)).1

theorem IsLastBest.unique {rules : List Rule} {r s : Rule} (hr : IsLastBest rules r)
    (hs : IsLastBest rules s) : r = s := by
  have hrs := hs.best r hr.mem
  have hsr := hr.best s hs.mem
  have hsame : (rules.filter fun a => atMostAsSpecific r.selector a.selector) =
      rules.filter fun a => atMostAsSpecific s.selector a.selector := by
    apply List.filter_congr
    intro a _
    rw [Bool.eq_iff_iff]
    exact ⟨atMostAsSpecific_trans hsr, atMostAsSpecific_trans hrs⟩
  have hlast := hr.last
  rw [hsame, hs.last] at hlast
  exact (Option.some.inj hlast).symm

theorem isLastBest_of_choose {rules : List Rule} {r : Rule} (h : choose rules = some r) :
    IsLastBest rules r := by
  induction rules using List.reverseRecOn generalizing r with
  | nil => simp [choose] at h
  | append_singleton rules a ih =>
      rw [choose_concat] at h
      cases hbest : choose rules with
      | none =>
          have hnil := choose_eq_none_iff.mp hbest
          rw [hbest, prefer, Option.some.injEq] at h
          subst h hnil
          exact ⟨by simp [atMostAsSpecific_refl], by simp [atMostAsSpecific_refl]⟩
      | some b =>
          have hb := ih hbest
          rw [hbest, prefer] at h
          by_cases hba : atMostAsSpecific b.selector a.selector = true
          · -- The new rule outdoes the choice so far, and with it all the others.
            rw [if_pos hba, Option.some.injEq] at h
            subst h
            refine ⟨?_, by simp [atMostAsSpecific_refl]⟩
            intro c hc
            rcases List.mem_append.mp hc with hc | hc
            · exact atMostAsSpecific_trans (hb.best c hc) hba
            · rw [List.mem_singleton.mp hc]
              exact atMostAsSpecific_refl _
          · rw [if_neg hba, Option.some.injEq] at h
            subst h
            refine ⟨?_, ?_⟩
            · intro c hc
              rcases List.mem_append.mp hc with hc | hc
              · exact hb.best c hc
              · rw [List.mem_singleton.mp hc]
                exact atMostAsSpecific_of_not hba
            · have hnone : [a].filter (fun a => atMostAsSpecific b.selector a.selector) = [] := by
                simp [hba]
              rw [List.filter_append, hnone, List.append_nil]
              exact hb.last

theorem choose_eq_some_iff {rules : List Rule} {r : Rule} :
    choose rules = some r ↔ IsLastBest rules r := by
  refine ⟨isLastBest_of_choose, fun h => ?_⟩
  cases hbest : choose rules with
  | none => exact absurd h.mem (by simp [choose_eq_none_iff.mp hbest])
  | some s => rw [h.unique (isLastBest_of_choose hbest)]

/-! ## Rules that select a node -/

/-- Of the rules that select a node, those as specific as the most specific one tie with it. -/
theorem filter_selects_eq {rules : List Rule} {r : Rule} {nodeType : String} {chain : List String}
    (hr : r.selector.selects nodeType chain = true)
    (hbest : ∀ a ∈ rules.filter (fun a => a.selector.selects nodeType chain),
      atMostAsSpecific a.selector r.selector = true) :
    (rules.filter fun a => a.selector.selects nodeType chain).filter
        (fun a => atMostAsSpecific r.selector a.selector) =
      (rules.filter fun a => Rule.Ties a r).filter
        fun a => a.selector.selects nodeType chain := by
  rw [List.filter_filter, List.filter_filter]
  apply List.filter_congr
  intro a ha
  cases hselects : a.selector.selects nodeType chain with
  | false => simp
  | true =>
      have hle := hbest a (List.mem_filter.mpr ⟨ha, hselects⟩)
      have htype : a.selector.nodeType = r.selector.nodeType :=
        Selector.nodeType_eq_of_both_select hselects hr
      have hacount := countP_path a.selector
      have hrcount := countP_path r.selector
      rw [htype] at hacount
      rw [Bool.and_true, Bool.true_and, Bool.eq_iff_iff, decide_eq_true_eq, Rule.Ties,
        and_iff_right htype, atMostAsSpecific_iff]
      rw [atMostAsSpecific_iff] at hle
      simp only [Selector.path, List.length_cons, Selector.length] at hle hacount hrcount ⊢
      omega

theorem IsLastBest.transfer {xs ys : List Rule} {r : Rule} {nodeType : String}
    {chain : List String} (hmem : ∀ a, a ∈ xs ↔ a ∈ ys)
    (hties : xs.filter (fun a => Rule.Ties a r) = ys.filter fun a => Rule.Ties a r)
    (h : IsLastBest (xs.filter fun a => a.selector.selects nodeType chain) r) :
    IsLastBest (ys.filter fun a => a.selector.selects nodeType chain) r := by
  have hr := (List.mem_filter.mp h.mem).2
  have hbest : ∀ a ∈ ys.filter (fun a => a.selector.selects nodeType chain),
      atMostAsSpecific a.selector r.selector = true := by
    intro a ha
    rw [List.mem_filter, ← hmem] at ha
    exact h.best a (List.mem_filter.mpr ha)
  refine ⟨hbest, ?_⟩
  rw [filter_selects_eq hr hbest, ← hties, ← filter_selects_eq hr h.best]
  exact h.last

theorem resolve_build_of_ties {xs ys : List Rule} (hmem : ∀ a, a ∈ xs ↔ a ∈ ys)
    (hties : ∀ r, xs.filter (fun a => Rule.Ties a r) = ys.filter fun a => Rule.Ties a r)
    (nodeType : String) (chain : List String) :
    (build xs).resolve nodeType chain = (build ys).resolve nodeType chain := by
  rw [resolve_eq_choose, resolve_eq_choose, choose_build, choose_build]
  congr 1
  ext r
  rw [choose_eq_some_iff, choose_eq_some_iff]
  exact ⟨IsLastBest.transfer hmem (hties r),
    IsLastBest.transfer (fun a => (hmem a).symm) (hties r).symm⟩

end RuleTable

/-! ## Rearranged lists -/

/-- Rules can be listed in any order that keeps the order of rules that tie: the table built from
them, with or without an index, gives every node the same tag. -/
theorem RuleIndex.resolve_build_rearranged {xs ys : List Rule}
    {place : Fin xs.length ≃ Fin ys.length} (h : Rule.Rearranges xs ys place)
    (nodeType : String) (chain : List String) :
    (build xs).resolve nodeType chain = (build ys).resolve nodeType chain ∧
      (RuleTable.build xs).resolve nodeType chain =
        (RuleTable.build ys).resolve nodeType chain := by
  have htable := RuleTable.resolve_build_of_ties h.mem_iff h.filter_ties nodeType chain
  refine ⟨?_, htable⟩
  rw [resolve_build, resolve_build, htable]

/-- The first and the third rule have the same selector, and the second and the fourth tie. -/
def tiedRules : List Rule :=
  [⟨⟨"Identifier", []⟩, .keyword⟩, ⟨⟨"Identifier", ["Alias", "*"]⟩, .string⟩,
   ⟨⟨"Identifier", []⟩, .variableName⟩, ⟨⟨"Identifier", ["*", "Program"]⟩, .typeName⟩,
   ⟨⟨"String", ["*"]⟩, .string⟩]

/-- The rules of `tiedRules` with each pair of rules that tie in order. -/
def rearrangedRules : List Rule :=
  [⟨⟨"String", ["*"]⟩, .string⟩, ⟨⟨"Identifier", ["Alias", "*"]⟩, .string⟩,
   ⟨⟨"Identifier", ["*", "Program"]⟩, .typeName⟩, ⟨⟨"Identifier", []⟩, .keyword⟩,
   ⟨⟨"Identifier", []⟩, .variableName⟩]

/-- Where each of `tiedRules` stands in `rearrangedRules`. -/
def rearrangedPlace : Fin tiedRules.length ≃ Fin rearrangedRules.length :=
  (⟨![3, 1, 4, 2, 0], ![4, 1, 3, 0, 2], by unfold Function.LeftInverse; decide,
    by unfold Function.RightInverse Function.LeftInverse; decide⟩ : Equiv.Perm (Fin 5))

theorem RuleIndex.resolve_build_tiedRules :
    Rule.Rearranges tiedRules rearrangedRules rearrangedPlace ∧
      (build rearrangedRules).resolve "Identifier" ["Alias", "Program"] = some .typeName ∧
      (build rearrangedRules).resolve "Identifier" ["Message"] = some .variableName := by
  have hplace : Rule.Rearranges tiedRules rearrangedRules rearrangedPlace :=
    ⟨by decide, by decide⟩
  refine ⟨hplace, ?_, ?_⟩
  · rw [← (resolve_build_rearranged hplace "Identifier" ["Alias", "Program"]).1]
    decide
  · rw [← (resolve_build_rearranged hplace "Identifier" ["Message"]).1]
    decide

end DiagramTint
