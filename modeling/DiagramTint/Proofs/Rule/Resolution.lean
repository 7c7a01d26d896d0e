import DiagramTint.Rule.Table
import Mathlib.Data.List.MinMax
import Mathlib.Data.Prod.Lex

/-!
# Longest match

A table keeps one rule per selector and looks through what it kept.  The tag that it finds for a
node is nevertheless the one that a search through all the rules ever entered would find, repeated
selectors included: the tag of the rule with the greatest rank among those that select the node.
-/

namespace DiagramTint

/-- The segments of a selector, the node type first. -/
def Selector.path (s : Selector) : List String :=
  s.nodeType :: s.ancestors

/-- The rank of a rule at a position of a list of rules: its number of segments, then its number of
segments other than `*`, then its position. -/
def Rule.rank (e : Rule × Nat) : Nat ×ₗ Nat ×ₗ Nat :=
  toLex (e.1.selector.path.length,
    toLex (e.1.selector.path.countP (· ≠ Selector.wildcard), e.2))

/-- The tag of the rule of greatest rank among all rules of a list that select a node. -/
def Rule.scan (rules : List Rule) (nodeType : String) (chain : List String) : Option Tag :=
  ((rules.zipIdx.filter fun e => e.1.selector.selects nodeType chain).argmax Rule.rank).map
    fun e => e.1.tag

namespace RuleTable

/-! ## The rule that a table prefers -/

/-- The rule that is left of a list when each in turn is compared with the choice so far. -/
def choose (rules : List Rule) : Option Rule :=
  rules.foldl prefer none

theorem choose_concat (rules : List Rule) (r : Rule) :
    choose (rules ++ [r]) = prefer (choose rules) r := by
  rw [choose, List.foldl_append, List.foldl_cons, List.foldl_nil, choose]

theorem resolve_eq_choose (t : RuleTable) (nodeType : String) (chain : List String) :
    t.resolve nodeType chain =
      (choose (t.rules.filter fun r => r.selector.selects nodeType chain)).map Rule.tag := rfl

theorem atMostAsSpecific_iff {a b : Selector} :
    atMostAsSpecific a b = true ↔
      a.length < b.length ∨ (a.length = b.length ∧ a.concreteLength ≤ b.concreteLength) := by
  simp [atMostAsSpecific]

theorem atMostAsSpecific_refl (s : Selector) : atMostAsSpecific s s = true := by
  rw [atMostAsSpecific_iff]
  omega

theorem atMostAsSpecific_trans {a b c : Selector} (hab : atMostAsSpecific a b = true)
    (hbc : atMostAsSpecific b c = true) : atMostAsSpecific a c = true := by
  rw [atMostAsSpecific_iff] at *
  omega

theorem atMostAsSpecific_of_not {a b : Selector} (h : ¬ atMostAsSpecific a b = true) :
    atMostAsSpecific b a = true := by
  rw [atMostAsSpecific_iff] at *
  omega

/-- A rule that a later one outdoes does not count. -/
theorem prefer_prefer {a r : Rule} (best : Option Rule)
    (h : atMostAsSpecific a.selector r.selector = true) :
    prefer (prefer best a) r = prefer best r := by
  cases best with
  | none => simp [prefer, h]
  | some b =>
      by_cases hba : atMostAsSpecific b.selector a.selector = true
      · have hbr := atMostAsSpecific_trans hba h
        simp [prefer, hba, h, hbr]
      · simp [prefer, hba]

theorem prefer_choose_filter (rules : List Rule) (q : Rule → Bool) (r : Rule)
    (h : ∀ a ∈ rules, q a = false → atMostAsSpecific a.selector r.selector = true) :
    prefer (choose (rules.filter q)) r = prefer (choose rules) r := by
  induction rules using List.reverseRecOn generalizing r with
  | nil => rfl
  | append_singleton rules a ih =>
      have hrules : ∀ b ∈ rules, q b = false → atMostAsSpecific b.selector r.selector = true :=
        fun b hb hq => h b (List.mem_append_left [a] hb) hq
      rw [List.filter_append, choose_concat]
      by_cases har : atMostAsSpecific a.selector r.selector = true
      · rw [prefer_prefer (choose rules) har, ← ih r hrules]
        cases hq : q a with
        | true =>
            rw [List.filter_cons_of_pos hq, List.filter_nil, choose_concat, prefer_prefer _ har]
        | false => rw [List.filter_cons_of_neg (by simp [hq]), List.filter_nil, List.append_nil]
      · -- What is dropped is outdone by `r`, hence by `a`, and `a` itself stays.
        have hq : q a = true := by
          by_contra hq
          exact har (h a (List.mem_append_right rules List.mem_cons_self) (by simpa using hq))
        have hra := atMostAsSpecific_of_not har
        rw [List.filter_cons_of_pos hq, List.filter_nil, choose_concat,
          ih a fun b hb hqb => atMostAsSpecific_trans (hrules b hb hqb) hra]

/-! ## Tables keep what matters -/

theorem build_concat (rules : List Rule) (r : Rule) :
    build (rules ++ [r]) = (build rules).insert r := by
  rw [build, List.foldl_append, List.foldl_cons, List.foldl_nil, build]

/-- Among the rules that select a node, a table prefers the same one as the list it was built
from. -/
theorem choose_build (rules : List Rule) (nodeType : String) (chain : List String) :
    choose ((build rules).rules.filter fun r => r.selector.selects nodeType chain) =
      choose (rules.filter fun r => r.selector.selects nodeType chain) := by
  induction rules using List.reverseRecOn with
  | nil => rfl
  | append_singleton rules r ih =>
      rw [build_concat, insert, List.filter_append, List.filter_append, List.filter_filter]
      cases hr : r.selector.selects nodeType chain with
      | true =>
          have hone : [r].filter (fun r => r.selector.selects nodeType chain) = [r] := by simp [hr]
          have hswap : (build rules).rules.filter (fun a =>
              a.selector.selects nodeType chain && decide (a.selector ≠ r.selector)) =
                ((build rules).rules.filter fun a => a.selector.selects nodeType chain).filter
                  fun a => decide (a.selector ≠ r.selector) := by
            rw [List.filter_filter]
            apply List.filter_congr
            intro a ha
            exact Bool.and_comm _ _
          rw [hone, choose_concat, choose_concat, ← ih, hswap]
          apply prefer_choose_filter
          intro a ha hsame
          have hselector : a.selector = r.selector := by simpa using hsame
          rw [hselector]
          exact atMostAsSpecific_refl r.selector
      | false =>
          have hone : [r].filter (fun r => r.selector.selects nodeType chain) = [] := by simp [hr]
          rw [hone, List.append_nil, List.append_nil, ← ih]
          congr 1
          apply List.filter_congr
          intro a ha
          by_cases hsame : a.selector = r.selector
          · simp [hsame, hr]
          · simp [hsame]

/-- Further rules do not matter to a node that none of them selects. -/
theorem resolve_build_append {more : List Rule} {nodeType : String} {chain : List String}
    (rules : List Rule) (h : ∀ r ∈ more, r.selector.selects nodeType chain = false) :
    (build (rules ++ more)).resolve nodeType chain = (build rules).resolve nodeType chain := by
  have hnone : more.filter (fun r => r.selector.selects nodeType chain) = [] := by
    rw [List.filter_eq_nil_iff]
    intro r hr
    simp [h r hr]
  rw [resolve_eq_choose, resolve_eq_choose, choose_build, choose_build, List.filter_append, hnone,
    List.append_nil]

/-! ## Ranks -/

theorem countP_path (s : Selector) :
    s.path.countP (· ≠ Selector.wildcard) + 1 =
      s.concreteLength + if s.nodeType ≠ Selector.wildcard then 1 else 0 := by
  rw [Selector.path, List.countP_cons, List.countP_eq_length_filter, Selector.concreteLength]
  simp only [decide_eq_true_eq]
  omega

/-- Rules for the same node type rank by specificity first; a target `*` counts in both or in
neither. -/
theorem rank_lt_iff {a b : Rule} {i j : Nat} (htype : a.selector.nodeType = b.selector.nodeType)
    (hij : i < j) :
    Rule.rank (a, i) < Rule.rank (b, j) ↔ atMostAsSpecific a.selector b.selector = true := by
  have ha := countP_path a.selector
  have hb := countP_path b.selector
  rw [htype] at ha
  rw [Rule.rank, Rule.rank, Prod.Lex.toLex_lt_toLex, Prod.Lex.toLex_lt_toLex, atMostAsSpecific_iff]
  simp only [Selector.path, List.length_cons, Selector.length] at ha hb ⊢
  omega

theorem argmax_rank (rules : List Rule) (nodeType : String) (chain : List String) :
    ((rules.zipIdx.filter fun e => e.1.selector.selects nodeType chain).argmax Rule.rank).map
        Prod.fst =
      choose (rules.filter fun r => r.selector.selects nodeType chain) := by
  induction rules using List.reverseRecOn with
  | nil => rfl
  | append_singleton rules r ih =>
      rw [List.zipIdx_append, List.filter_append, List.filter_append]
      cases hr : r.selector.selects nodeType chain with
      | false => simp [hr, ih]
      | true =>
          have hone : [r].filter (fun r => r.selector.selects nodeType chain) = [r] := by simp [hr]
          have hlast : ([r].zipIdx (0 + rules.length)).filter
              (fun e => e.1.selector.selects nodeType chain) = [(r, rules.length)] := by
            simp [hr]
          rw [hone, hlast, choose_concat, List.argmax_concat, ← ih]
          cases hbest : (rules.zipIdx.filter
              fun e => e.1.selector.selects nodeType chain).argmax Rule.rank with
          | none => rfl
          | some best =>
              obtain ⟨hmem, hselects⟩ := List.mem_filter.mp (List.argmax_mem hbest)
              have hpos : best.2 < rules.length := by
                have hlt := (List.mem_zipIdx hmem).2.1
                omega
              have htype : best.1.selector.nodeType = r.selector.nodeType :=
                Selector.nodeType_eq_of_both_select hselects hr
              have hlt := rank_lt_iff htype hpos
              simp only [Option.map_some, prefer]
              by_cases hspec : atMostAsSpecific best.1.selector r.selector = true
              · rw [if_pos (hlt.mpr hspec), if_pos hspec, Option.map_some]
              · rw [if_neg (mt hlt.mp hspec), if_neg hspec, Option.map_some]

theorem map_tag_choose (rules : List Rule) (nodeType : String) (chain : List String) :
    (choose (rules.filter fun r => r.selector.selects nodeType chain)).map Rule.tag =
      Rule.scan rules nodeType chain := by
  rw [← argmax_rank, Rule.scan, Option.map_map]
  rfl

/-- A table built from rules gives a node the tag of the rule of greatest rank among all of them
that select it. -/
theorem resolve_build_eq_scan (rules : List Rule) (nodeType : String) (chain : List String) :
    (build rules).resolve nodeType chain = Rule.scan rules nodeType chain := by
  rw [resolve_eq_choose, choose_build, map_tag_choose]

end RuleTable

end DiagramTint
