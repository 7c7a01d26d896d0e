import DiagramTint.Proofs.Rule.Bookkeeping
import DiagramTint.Rule.Index
import Mathlib.Data.List.Nodup

/-!
# Indexed rules are rule tables

Entering rules one by one keeps the groups of an index, its order and its warnings consistent: all
three are views of one list of entries with rising numbers, whose rules are those of the table
built from the same list.  Everything that can be asked of an index has the same answer there.
-/

namespace DiagramTint

namespace RuleEntry

def rule (e : RuleEntry) : Rule :=
  ⟨e.selector, e.tag⟩

/-- The entry of a rule with a given number. -/
def ofRule (r : Rule) (number : Nat) : RuleEntry :=
  ⟨r.selector, r.tag, number⟩

/-- Entries after one more rule: it comes last, and another entry with its selector goes. -/
def push (es : List RuleEntry) (r : Rule) (number : Nat) : List RuleEntry :=
  es.filter (fun e => e.selector ≠ r.selector) ++ [ofRule r number]

/-! ## Ranks -/

theorem ranksBelow_iff {a b : RuleEntry} :
    a.ranksBelow b = true ↔
      a.selector.length < b.selector.length ∨ (a.selector.length = b.selector.length ∧
        (a.selector.concreteLength < b.selector.concreteLength ∨
          (a.selector.concreteLength = b.selector.concreteLength ∧ a.number ≤ b.number))) := by
  simp [ranksBelow]

theorem ranksBelow_trans {a b c : RuleEntry} (hab : a.ranksBelow b = true)
    (hbc : b.ranksBelow c = true) : a.ranksBelow c = true := by
  rw [ranksBelow_iff] at *
  omega

theorem ranksBelow_of_not {a b : RuleEntry} (h : ¬ a.ranksBelow b = true) :
    b.ranksBelow a = true := by
  rw [ranksBelow_iff] at *
  omega

/-- The number decides between rules that are equally specific. -/
theorem ranksBelow_eq_atMostAsSpecific {a b : RuleEntry} (h : a.number < b.number) :
    a.ranksBelow b = RuleTable.atMostAsSpecific a.selector b.selector := by
  rw [Bool.eq_iff_iff, ranksBelow_iff, RuleTable.atMostAsSpecific_iff]
  omega

theorem higher_of_ranksBelow {a b : RuleEntry} (h : a.ranksBelow b = true)
    (best : Option RuleEntry) : higher (higher best a) b = higher best b := by
  cases best with
  | none => simp [higher, h]
  | some c =>
      by_cases hca : c.ranksBelow a = true
      · simp [higher, hca, h, ranksBelow_trans hca h]
      · simp [higher, hca]

theorem higher_of_not_ranksBelow {a b : RuleEntry} (h : ¬ b.ranksBelow a = true)
    (best : Option RuleEntry) : higher (higher best b) a = higher best b := by
  cases best with
  | none => simp [higher, h]
  | some c =>
      by_cases hcb : c.ranksBelow b = true
      · simp [higher, hcb, h]
      · have hca : ¬ c.ranksBelow a = true :=
          fun hca => hcb (ranksBelow_trans hca (ranksBelow_of_not h))
        simp [higher, hcb, hca]

/-- Entries with different numbers can be compared in either order. -/
theorem higher_comm {a b : RuleEntry} (h : a.number ≠ b.number) (best : Option RuleEntry) :
    higher (higher best a) b = higher (higher best b) a := by
  by_cases hba : b.ranksBelow a = true
  · have hab : ¬ a.ranksBelow b = true := by
      rw [ranksBelow_iff] at *
      omega
    rw [higher_of_not_ranksBelow hab, higher_of_ranksBelow hba]
  · rw [higher_of_not_ranksBelow hba, higher_of_ranksBelow (ranksBelow_of_not hba)]

/-- The highest of entries with rising numbers is the one that a table prefers. -/
theorem foldl_higher_eq_choose {es : List RuleEntry}
    (h : es.Pairwise fun a b => a.number < b.number) :
    (es.foldl higher none).map rule = RuleTable.choose (es.map rule) ∧
      ∀ e ∈ es.foldl higher none, e ∈ es := by
  induction es using List.reverseRecOn with
  | nil => exact ⟨rfl, by simp⟩
  | append_singleton es e ih =>
      rw [List.pairwise_append] at h
      obtain ⟨hsame, hmem⟩ := ih h.1
      rw [List.map_append, List.map_cons, List.map_nil, RuleTable.choose_concat, ← hsame,
        List.foldl_append, List.foldl_cons, List.foldl_nil]
      cases hbest : es.foldl higher none with
      | none => simp [higher, RuleTable.prefer]
      | some b =>
          have hb : b ∈ es := hmem b (by simp [hbest])
          have hrank := ranksBelow_eq_atMostAsSpecific (h.2.2 b hb e List.mem_cons_self)
          simp only [higher, Option.map_some, RuleTable.prefer, hrank]
          by_cases hspec : RuleTable.atMostAsSpecific b.selector e.selector = true
          · simp [rule, hspec]
          · simp [rule, hspec, hb]

/-! ## Selectors that occur once -/

theorem find?_selector {es : List RuleEntry} {e : RuleEntry}
    (hdistinct : es.Pairwise fun a b => a.selector ≠ b.selector) (he : e ∈ es) :
    es.find? (fun a => a.selector = e.selector) = some e := by
  induction es with
  | nil => simp at he
  | cons a es ih =>
      rw [List.pairwise_cons] at hdistinct
      rcases List.mem_cons.mp he with rfl | he
      · exact List.find?_cons_of_pos (by simp)
      · rw [List.find?_cons_of_neg (by simpa using hdistinct.1 e he), ih hdistinct.2 he]

theorem push_eq_concat {r : Rule} {es : List RuleEntry} (number : Nat)
    (h : ∀ e ∈ es, e.selector ≠ r.selector) : push es r number = es ++ [ofRule r number] := by
  have hkept : es.filter (fun e => e.selector ≠ r.selector) = es := by
    rw [List.filter_eq_self]
    intro e he
    simpa using h e he
  rw [push, hkept]

theorem pairwise_push {es : List RuleEntry} {R : RuleEntry → RuleEntry → Prop} (r : Rule)
    (number : Nat) (h : es.Pairwise R)
    (hlast : ∀ e ∈ es, e.selector ≠ r.selector → R e (ofRule r number)) :
    (push es r number).Pairwise R := by
  rw [push, List.pairwise_append]
  refine ⟨h.sublist List.filter_sublist, List.pairwise_singleton _ _, ?_⟩
  intro a ha b hb
  rw [List.mem_filter, decide_eq_true_eq] at ha
  rw [List.mem_singleton] at hb
  rw [hb]
  exact hlast a ha.1 ha.2

/-- One more rule changes the entries for its own node type only. -/
theorem filter_push (es : List RuleEntry) (r : Rule) (number : Nat) (nodeType : String) :
    (push es r number).filter (fun e => e.selector.nodeType = nodeType) =
      if nodeType = r.selector.nodeType then
        push (es.filter fun e => e.selector.nodeType = nodeType) r number
      else es.filter fun e => e.selector.nodeType = nodeType := by
  rw [push, push, List.filter_append, List.filter_filter, List.filter_filter]
  by_cases h : nodeType = r.selector.nodeType
  · rw [if_pos h, List.filter_cons_of_pos (by simp [h, ofRule]), List.filter_nil]
    congr 1
    apply List.filter_congr
    intro e he
    exact Bool.and_comm _ _
  · have hother : [ofRule r number].filter (fun e => e.selector.nodeType = nodeType) = [] := by
      simp [ofRule, Ne.symm h]
    rw [if_neg h, hother, List.append_nil]
    apply List.filter_congr
    intro e he
    by_cases hsame : e.selector = r.selector
    · simp [hsame, Ne.symm h]
    · simp [hsame]

/-! ## Revising -/

theorem revise_eq_none {r : Rule} {es : List RuleEntry} (number : Nat)
    (h : ∀ e ∈ es, e.selector ≠ r.selector) : revise r number es = none := by
  induction es with
  | nil => rfl
  | cons a es ih =>
      rw [revise, if_neg (h a List.mem_cons_self), ih fun e he => h e (List.mem_cons_of_mem a he)]

theorem exists_revise {r : Rule} {es : List RuleEntry} {e : RuleEntry} (number : Nat) (he : e ∈ es)
    (hsame : e.selector = r.selector)
    (hdistinct : es.Pairwise fun a b => a.selector ≠ b.selector) :
    ∃ revised, revise r number es = some (e.tag, revised) ∧
      revised.Perm (push es r number) := by
  induction es with
  | nil => simp at he
  | cons a es ih =>
      rw [List.pairwise_cons] at hdistinct
      by_cases ha : a.selector = r.selector
      · have hrest : ∀ b ∈ es, b.selector ≠ r.selector :=
          fun b hb hb' => hdistinct.1 b hb (ha.trans hb'.symm)
        have hea : e = a := by
          rcases List.mem_cons.mp he with hea | he
          · exact hea
          · exact absurd hsame (hrest e he)
        have hpush : push (a :: es) r number = es ++ [ofRule r number] := by
          rw [← push_eq_concat number hrest, push, push, List.filter_cons_of_neg (by simp [ha])]
        rw [revise, if_pos ha, hpush, hea]
        refine ⟨_, rfl, ?_⟩
        rw [ha]
        exact (List.perm_append_singleton _ es).symm
      · have he : e ∈ es := by
          rcases List.mem_cons.mp he with hea | he
          · exact absurd (hea ▸ hsame) ha
          · exact he
        obtain ⟨revised, hrevise, hperm⟩ := ih he hdistinct.2
        rw [revise, if_neg ha, hrevise]
        refine ⟨a :: revised, rfl, ?_⟩
        rw [push, List.filter_cons_of_pos (by simpa using ha)]
        exact hperm.cons a

end RuleEntry

namespace RuleIndex

open RuleEntry

/-! ## One list behind the index -/

/-- The groups and the order of an index are views of one list of entries, which has a selector
once and whose numbers rise. -/
structure Views (x : RuleIndex) (es : List RuleEntry) : Prop where
  order : x.order = es.map selector
  groups : ∀ nodeType,
    (x.entries nodeType).Perm (es.filter fun e => e.selector.nodeType = nodeType)
  distinct : es.Pairwise fun a b => a.selector ≠ b.selector
  rising : es.Pairwise fun a b => a.number < b.number

theorem entries_cons (x : RuleIndex) (nodeType other : String) (es : List RuleEntry)
    (order : List Selector) (warnings : List Replacement) :
    entries ⟨(nodeType, es) :: x.groups, order, warnings⟩ other =
      if other = nodeType then es else x.entries other := by
  unfold entries
  rw [List.lookup_cons]
  by_cases h : other = nodeType
  · simp [h]
  · simp [h, beq_false_of_ne h]

theorem Views.mem_entries_iff {x : RuleIndex} {es : List RuleEntry} (h : x.Views es)
    {e : RuleEntry} {nodeType : String} :
    e ∈ x.entries nodeType ↔ e ∈ es ∧ e.selector.nodeType = nodeType := by
  rw [(h.groups nodeType).mem_iff, List.mem_filter, decide_eq_true_eq]

theorem Views.pairwise_entries {x : RuleIndex} {es : List RuleEntry} (h : x.Views es)
    (nodeType : String) :
    (x.entries nodeType).Pairwise fun a b => a.selector ≠ b.selector :=
  ((h.groups nodeType).pairwise_iff fun hab => Ne.symm hab).mpr
    (h.distinct.sublist List.filter_sublist)

theorem Views.find?_eq {x : RuleIndex} {es : List RuleEntry} (h : x.Views es) (s : Selector) :
    (x.entries s.nodeType).find? (fun e => e.selector = s) = es.find? fun e => e.selector = s := by
  cases hfind : es.find? fun e => e.selector = s with
  | none =>
      rw [List.find?_eq_none] at hfind ⊢
      intro e he
      exact hfind e (h.mem_entries_iff.mp he).1
  | some e =>
      have hs : e.selector = s := by simpa using List.find?_some hfind
      have hentry : e ∈ x.entries s.nodeType :=
        h.mem_entries_iff.mpr ⟨List.mem_of_find?_eq_some hfind, by rw [hs]⟩
      rw [← hs]
      rw [← hs] at hentry
      exact find?_selector (h.pairwise_entries _) hentry

/-! ## Entering a rule -/

theorem insert_of_mem {x : RuleIndex} {es : List RuleEntry} {r : Rule} {e : RuleEntry}
    (h : x.Views es) (number : Nat) (he : e ∈ es) (hsame : e.selector = r.selector) :
    ∃ revised, revised.Perm (push (x.entries r.selector.nodeType) r number) ∧
      x.insert r number = ⟨(r.selector.nodeType, revised) :: x.groups,
        x.order.filter (· ≠ r.selector) ++ [r.selector],
        x.warnings ++ [⟨r.selector, e.tag, r.tag⟩]⟩ := by
  have hentry : e ∈ x.entries r.selector.nodeType := h.mem_entries_iff.mpr ⟨he, by rw [hsame]⟩
  obtain ⟨revised, hrevise, hperm⟩ :=
    exists_revise number hentry hsame (h.pairwise_entries r.selector.nodeType)
  exact ⟨revised, hperm, by simp only [insert, hrevise]⟩

theorem insert_of_forall_ne {x : RuleIndex} {es : List RuleEntry} {r : Rule} (h : x.Views es)
    (number : Nat) (hnew : ∀ e ∈ es, e.selector ≠ r.selector) :
    x.insert r number = ⟨(r.selector.nodeType,
        push (x.entries r.selector.nodeType) r number) :: x.groups,
      x.order ++ [r.selector], x.warnings⟩ := by
  have hgroup : ∀ e ∈ x.entries r.selector.nodeType, e.selector ≠ r.selector :=
    fun e he => hnew e (h.mem_entries_iff.mp he).1
  simp only [insert, revise_eq_none number hgroup, push_eq_concat number hgroup, ofRule]

theorem Views.insert {x : RuleIndex} {es : List RuleEntry} {number : Nat} (h : x.Views es)
    (hnumber : ∀ e ∈ es, e.number < number) (r : Rule) :
    (x.insert r number).Views (push es r number) := by
  have hdistinct := pairwise_push r number h.distinct fun e _ hne => hne
  have hrising := pairwise_push r number h.rising fun e he _ => hnumber e he
  -- whether the selector is new or not, the group of its node type is `push`ed and no other
  have hgroups : ∀ {revised order warnings},
      revised.Perm (push (x.entries r.selector.nodeType) r number) → ∀ nodeType,
      (entries ⟨(r.selector.nodeType, revised) :: x.groups, order, warnings⟩ nodeType).Perm
        ((push es r number).filter fun e => e.selector.nodeType = nodeType) := by
    intro revised order warnings hperm nodeType
    rw [entries_cons, filter_push]
    by_cases hty : nodeType = r.selector.nodeType
    · rw [if_pos hty, if_pos hty, hty]
      exact hperm.trans (((h.groups r.selector.nodeType).filter _).append_right _)
    · rw [if_neg hty, if_neg hty]
      exact h.groups nodeType
  by_cases hold : ∃ e ∈ es, e.selector = r.selector
  · obtain ⟨e, he, hsame⟩ := hold
    obtain ⟨revised, hperm, hinsert⟩ := insert_of_mem h number he hsame
    rw [hinsert]
    refine ⟨?_, hgroups hperm, hdistinct, hrising⟩
    simp [h.order, push, ofRule, List.filter_map, Function.comp_def]
  · have hnew : ∀ e ∈ es, e.selector ≠ r.selector := fun e he hsame => hold ⟨e, he, hsame⟩
    rw [insert_of_forall_ne h number hnew]
    refine ⟨?_, hgroups (List.Perm.refl _), hdistinct, hrising⟩
    simp [h.order, push_eq_concat number hnew, ofRule]

/-- An index and a table that keep the same rules and have the same warnings. -/
structure Agrees (x : RuleIndex) (es : List RuleEntry) (t : RuleTable) : Prop where
  views : x.Views es
  rules : es.map rule = t.rules
  warnings : x.warnings = t.warnings

theorem Agrees.get?_eq {x : RuleIndex} {es : List RuleEntry} {t : RuleTable} (h : x.Agrees es t)
    (s : Selector) : x.get? s = t.get? s := by
  rw [get?, h.views.find?_eq, RuleTable.get?, ← h.rules, List.find?_map, Option.map_map]
  rfl

theorem Agrees.insert {x : RuleIndex} {es : List RuleEntry} {t : RuleTable} {number : Nat}
    (h : x.Agrees es t) (hnumber : ∀ e ∈ es, e.number < number) (r : Rule) :
    (x.insert r number).Agrees (push es r number) (t.insert r) where
  views := h.views.insert hnumber r
  rules := by
    rw [RuleTable.insert, ← h.rules, push, List.map_append, List.filter_map]
    rfl
  warnings := by
    by_cases hold : ∃ e ∈ es, e.selector = r.selector
    · obtain ⟨e, he, hsame⟩ := hold
      obtain ⟨revised, hperm, hinsert⟩ := insert_of_mem h.views number he hsame
      have hget : t.get? r.selector = some e.tag := by
        rw [← h.get?_eq, get?, h.views.find?_eq, ← hsame, find?_selector h.views.distinct he,
          Option.map_some]
      rw [hinsert, RuleTable.insert, hget, h.warnings]
    · have hnew : ∀ e ∈ es, e.selector ≠ r.selector := fun e he hsame => hold ⟨e, he, hsame⟩
      have hget : t.get? r.selector = none := by
        rw [← h.get?_eq, get?, h.views.find?_eq, Option.map_eq_none_iff, List.find?_eq_none]
        intro e he
        simpa using hnew e he
      rw [insert_of_forall_ne h.views number hnew, RuleTable.insert, hget, h.warnings]

/-! ## Whole lists of rules -/

theorem build_concat (rules : List Rule) (r : Rule) :
    build (rules ++ [r]) = (build rules).insert r rules.length := by
  simp [build, List.zipIdx_append]

theorem exists_agrees_build (rules : List Rule) :
    ∃ es, (build rules).Agrees es (RuleTable.build rules) ∧
      ∀ e ∈ es, e.number < rules.length := by
  induction rules using List.reverseRecOn with
  | nil =>
      refine ⟨[], ⟨⟨rfl, ?_, List.Pairwise.nil, List.Pairwise.nil⟩, rfl, rfl⟩, by simp⟩
      intro nodeType
      exact List.Perm.nil
  | append_singleton rules r ih =>
      obtain ⟨es, hagrees, hnumber⟩ := ih
      refine ⟨push es r rules.length, ?_, ?_⟩
      · rw [build_concat, RuleTable.build_concat]
        exact hagrees.insert hnumber r
      · intro e he
        rw [push, List.mem_append, List.mem_singleton] at he
        rw [List.length_append, List.length_singleton]
        rcases he with he | rfl
        · exact Nat.lt_succ_of_lt (hnumber e (List.mem_filter.mp he).1)
        · exact Nat.lt_succ_self rules.length

/-! ## What an index answers -/

theorem get?_build (rules : List Rule) (s : Selector) :
    (build rules).get? s = (RuleTable.build rules).get? s := by
  obtain ⟨es, hagrees, -⟩ := exists_agrees_build rules
  exact hagrees.get?_eq s

theorem warnings_build (rules : List Rule) :
    (build rules).warnings = (RuleTable.build rules).warnings := by
  obtain ⟨es, hagrees, -⟩ := exists_agrees_build rules
  exact hagrees.warnings

theorem size_build (rules : List Rule) :
    (build rules).size = (RuleTable.build rules).rules.length := by
  obtain ⟨es, hagrees, -⟩ := exists_agrees_build rules
  rw [size, hagrees.views.order, ← hagrees.rules, List.length_map, List.length_map]

/-- Each selector of the order has an entry, and it is the one in that place of the list. -/
theorem rules_build (rules : List Rule) :
    (build rules).rules = (RuleTable.build rules).rules := by
  obtain ⟨es, hagrees, -⟩ := exists_agrees_build rules
  have hviews := hagrees.views
  rw [RuleIndex.rules, hviews.order, ← hagrees.rules, List.filterMap_map]
  rw [← List.filterMap_eq_map]
  apply List.filterMap_congr
  intro e he
  rw [Function.comp_apply, get?, hviews.find?_eq, find?_selector hviews.distinct he]
  rfl

theorem resolve_build (rules : List Rule) (nodeType : String) (chain : List String) :
    (build rules).resolve nodeType chain = (RuleTable.build rules).resolve nodeType chain := by
  obtain ⟨es, hagrees, -⟩ := exists_agrees_build rules
  generalize build rules = x at *
  have hviews := hagrees.views
  have hselects : (es.filter fun e => e.selector.nodeType = nodeType).filter
      (fun e => e.selector.selects nodeType chain) =
        es.filter fun e => e.selector.selects nodeType chain := by
    rw [List.filter_filter]
    apply List.filter_congr
    intro e _
    rw [Bool.eq_iff_iff, Bool.and_eq_true, and_iff_left_iff_imp, decide_eq_true_eq]
    exact Selector.nodeType_eq_of_selects
  have hperm := (hviews.groups nodeType).filter fun e => e.selector.selects nodeType chain
  rw [hselects] at hperm
  have hrising := hviews.rising.sublist
    (List.filter_sublist (p := fun e => e.selector.selects nodeType chain) (l := es))
  have hnumbers : ((es.filter fun e => e.selector.selects nodeType chain).map number).Nodup :=
    List.pairwise_map.mpr (hrising.imp fun hlt => Nat.ne_of_lt hlt)
  -- the group has the entries in another order, which shows only in a tie, and numbers never tie
  have hcomm : ∀ a ∈ (x.entries nodeType).filter (fun e => e.selector.selects nodeType chain),
      ∀ b ∈ (x.entries nodeType).filter (fun e => e.selector.selects nodeType chain),
      ∀ best, higher (higher best a) b = higher (higher best b) a := by
    intro a ha b hb best
    by_cases hab : a = b
    · rw [hab]
    · apply higher_comm
      intro hnumber
      exact hab (List.inj_on_of_nodup_map hnumbers (hperm.subset ha) (hperm.subset hb) hnumber)
  have hchoose := congrArg (Option.map Rule.tag) (foldl_higher_eq_choose hrising).1
  rw [Option.map_map] at hchoose
  rw [resolve, hperm.foldl_eq' hcomm, RuleTable.resolve_eq_choose, ← hagrees.rules,
    List.filter_map]
  exact hchoose

/-- An index gives a node the tag of the rule of greatest rank among all the rules ever entered that
select it. -/
theorem resolve_build_longest (rules : List Rule) (nodeType : String) (chain : List String) :
    (build rules).resolve nodeType chain = Rule.scan rules nodeType chain := by
  rw [resolve_build, RuleTable.resolve_eq_choose, RuleTable.choose_build, RuleTable.map_tag_choose]

/-! ## The books of an index -/

/-- The rules that an index lists are those that no later one replaces, it counts the different
selectors, it finds the last tag of each, and it has a warning for each rule that replaced one.  A
table built from the same rules has the same rules and warnings. -/
theorem build_bookkeeping (rules : List Rule) :
    (build rules).rules = Rule.inEffect rules ∧
      (build rules).size = (rules.map Rule.selector).toFinset.card ∧
      (build rules).size = (build rules).rules.length ∧
      (∀ s, (build rules).get? s = (Rule.last? rules s).map Rule.tag) ∧
      (build rules).warnings = Rule.replacements rules ∧
      RuleTable.build rules = ⟨(build rules).rules, (build rules).warnings⟩ := by
  have hrules : (build rules).rules = Rule.inEffect rules := by
    rw [rules_build, RuleTable.rules_build]
  refine ⟨hrules, ?_, ?_, ?_, ?_, ?_⟩
  · rw [size_build, RuleTable.rules_build, Rule.length_inEffect]
  · rw [size_build, rules_build]
  · intro s
    rw [get?_build, RuleTable.get?_build]
  · rw [warnings_build, RuleTable.warnings_build]
  · rw [rules_build, warnings_build]

/-- An index built from the rules that another one lists answers everything as that one does, and
nothing was replaced on the way. -/
theorem build_rules_build (rules : List Rule) :
    (build (build rules).rules).warnings = [] ∧
      (build (build rules).rules).rules = (build rules).rules ∧
      (∀ s, (build (build rules).rules).get? s = (build rules).get? s) ∧
      ∀ nodeType chain, (build (build rules).rules).resolve nodeType chain =
        (build rules).resolve nodeType chain := by
  have hdistinct := Rule.pairwise_inEffect rules
  have hrules : (build rules).rules = Rule.inEffect rules := by
    rw [rules_build, RuleTable.rules_build]
  have hsame : (RuleTable.build (Rule.inEffect rules)).rules = (RuleTable.build rules).rules := by
    rw [RuleTable.rules_build, RuleTable.rules_build, Rule.inEffect_eq_self hdistinct]
  rw [hrules]
  refine ⟨?_, ?_, ?_, ?_⟩
  · rw [warnings_build, RuleTable.warnings_build, Rule.replacements_eq_nil hdistinct]
  · rw [rules_build, hsame, RuleTable.rules_build]
  · intro s
    rw [get?_build, get?_build, RuleTable.get?, hsame, RuleTable.get?]
  · intro nodeType chain
    rw [resolve_build, resolve_build, RuleTable.resolve_build_inEffect]

end RuleIndex

end DiagramTint
