import DiagramTint.Tree
import Mathlib.Data.List.Basic
import Mathlib.Data.List.Pairwise

/-!
# Nested trees

A tree is well nested if the span of each node holds the spans of its children and these follow one
another without overlap.  Then at most one node is the innermost one around a byte, and there is
one as soon as any node of the tree covers the byte.
-/

namespace DiagramTint

/-- The bytes of a span; a reversed span has none. -/
def Span.Contains (s : Span) (byte : Nat) : Prop :=
  s.start ≤ byte ∧ byte < s.stop

instance (s : Span) (byte : Nat) : Decidable (s.Contains byte) :=
  inferInstanceAs (Decidable (_ ∧ _))

namespace Tree

variable {α : Type}

/-! ## Forests as lists of trees -/

@[elab_as_elim, induction_eliminator]
theorem childInduction {motive : Tree α → Prop}
    (node : ∀ label span children, (∀ c ∈ children, motive c) →
      motive (.node label span children)) :
    (t : Tree α) → motive t
  | .node label span children => node label span children fun c _ => childInduction node c

theorem visitsForest_eq_flatMap (chain : List α) (ts : List (Tree α)) :
    visitsForest chain ts = ts.flatMap (visits chain) := by
  induction ts with
  | nil => rfl
  | cons t ts ih => rw [visitsForest, ih, List.flatMap_cons]

theorem mem_visits_node {chain : List α} {label : α} {span : Span} {children : List (Tree α)}
    {v : List α × Tree α} :
    v ∈ visits chain (.node label span children) ↔
      v = (chain, .node label span children) ∨ ∃ c ∈ children, v ∈ visits (label :: chain) c := by
  rw [visits, visitsForest_eq_flatMap, List.mem_cons, List.mem_flatMap]

theorem map_snd_visits (chain : List α) (t : Tree α) :
    (t.visits chain).map Prod.snd = t.preorder := by
  suffices h : ∀ chain other : List α,
      (t.visits chain).map Prod.snd = (t.visits other).map Prod.snd from h chain []
  induction t with
  | node label span children ih =>
      intro chain other
      simp only [visits, visitsForest_eq_flatMap, List.map_cons, List.map_flatMap]
      rw [List.flatMap_congr fun c hc => ih c hc (label :: chain) (label :: other)]

@[simp]
theorem preorder_node (label : α) (span : Span) (children : List (Tree α)) :
    preorder (.node label span children) =
      .node label span children :: children.flatMap preorder := by
  simp only [preorder, visits, visitsForest_eq_flatMap, List.map_cons, List.map_flatMap]
  rw [List.flatMap_congr fun c _ => map_snd_visits [label] c]

theorem mem_preorder_of_mem_visits {chain : List α} {t : Tree α} {v : List α × Tree α}
    (h : v ∈ t.visits chain) : v.2 ∈ t.preorder := by
  rw [← map_snd_visits chain t]
  exact List.mem_map_of_mem h

theorem self_mem_preorder (t : Tree α) : t ∈ t.preorder := by
  obtain ⟨label, span, children⟩ := t
  simp

/-! ## Nesting -/

/-- The span of a node is not reversed, and its children lie inside it, in order and apart. -/
structure NestsChildren (t : Tree α) : Prop where
  ordered : t.span.start ≤ t.span.stop
  inside : ∀ c ∈ t.children, t.span.start ≤ c.span.start ∧ c.span.stop ≤ t.span.stop
  apart : t.children.Pairwise fun a b =>
    a.span.start ≤ b.span.start ∧ ∀ byte, ¬ (a.span.Contains byte ∧ b.span.Contains byte)

/-- Every node of a tree nests its children. -/
def WellNested (t : Tree α) : Prop :=
  ∀ n ∈ t.preorder, n.NestsChildren

/-- Node `v` of a tree below the ancestors `chain`, given with its own ancestors, covers a byte and
no node below it does. -/
def IsInnermost (t : Tree α) (chain : List α) (byte : Nat) (v : List α × Tree α) : Prop :=
  v ∈ t.visits chain ∧ v.2.span.Contains byte ∧
    ∀ c ∈ v.2.children, ∀ n ∈ c.preorder, ¬ n.span.Contains byte

theorem wellNested_node {label : α} {span : Span} {children : List (Tree α)} :
    WellNested (.node label span children) ↔
      NestsChildren (.node label span children) ∧ ∀ c ∈ children, c.WellNested := by
  simp only [WellNested, preorder_node, List.mem_cons, List.mem_flatMap, forall_eq_or_imp]
  constructor
  · rintro ⟨hnode, hbelow⟩
    exact ⟨hnode, fun c hc n hn => hbelow n ⟨c, hc, hn⟩⟩
  · rintro ⟨hnode, hbelow⟩
    exact ⟨hnode, fun n ⟨c, hc, hn⟩ => hbelow c hc n hn⟩

theorem NestsChildren.contains_of_child {t c : Tree α} {byte : Nat} (h : t.NestsChildren)
    (hc : c ∈ t.children) (hbyte : c.span.Contains byte) : t.span.Contains byte := by
  obtain ⟨hstart, hstop⟩ := h.inside c hc
  exact ⟨Nat.le_trans hstart hbyte.1, Nat.lt_of_lt_of_le hbyte.2 hstop⟩

/-- Of the children of a node, one at most covers a byte. -/
theorem NestsChildren.child_unique {t a b : Tree α} {byte : Nat} (h : t.NestsChildren)
    (ha : a ∈ t.children) (hb : b ∈ t.children) (habyte : a.span.Contains byte)
    (hbbyte : b.span.Contains byte) : a = b := by
  let Same (a b : Tree α) : Prop := a.span.Contains byte → b.span.Contains byte → a = b
  have hsymm : Std.Symm Same := ⟨fun _ _ hxy hy hx => (hxy hx hy).symm⟩
  have hpair : t.children.Pairwise Same :=
    h.apart.imp fun hab ha hb => absurd ⟨ha, hb⟩ (hab.2 byte)
  exact hpair.forall_of_forall (fun _ _ _ _ => rfl) ha hb habyte hbbyte

theorem WellNested.contains_of_mem_preorder {t n : Tree α} {byte : Nat} (h : t.WellNested)
    (hn : n ∈ t.preorder) (hbyte : n.span.Contains byte) : t.span.Contains byte := by
  induction t with
  | node label span children ih =>
      obtain ⟨hnode, hbelow⟩ := wellNested_node.mp h
      rw [preorder_node, List.mem_cons, List.mem_flatMap] at hn
      rcases hn with rfl | ⟨c, hc, hn⟩
      · exact hbyte
      · exact hnode.contains_of_child hc (ih c hc (hbelow c hc) hn)

/-- Well-nested trees leave a byte free as soon as their roots do. -/
theorem uncovered_iff {ts : List (Tree α)} {byte : Nat} (h : ∀ t ∈ ts, t.WellNested) :
    (∀ t ∈ ts, ∀ n ∈ t.preorder, ¬ n.span.Contains byte) ↔ ∀ t ∈ ts, ¬ t.span.Contains byte := by
  constructor
  · intro hnone t ht
    exact hnone t ht t t.self_mem_preorder
  · intro hnone t ht n hn hin
    exact hnone t ht ((h t ht).contains_of_mem_preorder hn hin)

theorem isInnermost_node {chain : List α} {label : α} {span : Span} {children : List (Tree α)}
    {byte : Nat} {v : List α × Tree α} :
    IsInnermost (.node label span children) chain byte v ↔
      (v = (chain, .node label span children) ∧ span.Contains byte ∧
        ∀ c ∈ children, ∀ n ∈ c.preorder, ¬ n.span.Contains byte) ∨
      ∃ c ∈ children, c.IsInnermost (label :: chain) byte v := by
  simp only [IsInnermost, mem_visits_node]
  constructor
  · rintro ⟨rfl | ⟨c, hc, hv⟩, hbyte, hbelow⟩
    · exact Or.inl ⟨rfl, hbyte, hbelow⟩
    · exact Or.inr ⟨c, hc, hv, hbyte, hbelow⟩
  · rintro (⟨rfl, hbyte, hbelow⟩ | ⟨c, hc, hv, hbyte, hbelow⟩)
    · exact ⟨Or.inl rfl, hbyte, hbelow⟩
    · exact ⟨Or.inr ⟨c, hc, hv⟩, hbyte, hbelow⟩

theorem IsInnermost.contains_root {t : Tree α} {chain : List α} {byte : Nat} {v : List α × Tree α}
    (hv : t.IsInnermost chain byte v) (h : t.WellNested) : t.span.Contains byte :=
  h.contains_of_mem_preorder (mem_preorder_of_mem_visits hv.1) hv.2.1

theorem exists_isInnermost {t n : Tree α} {byte : Nat} (chain : List α) (hn : n ∈ t.preorder)
    (hbyte : n.span.Contains byte) : ∃ v, t.IsInnermost chain byte v := by
  induction t generalizing chain n with
  | node label span children ih =>
      by_cases hbelow : ∃ c ∈ children, ∃ m ∈ c.preorder, m.span.Contains byte
      · obtain ⟨c, hc, m, hm, hmbyte⟩ := hbelow
        obtain ⟨v, hv⟩ := ih c hc (label :: chain) hm hmbyte
        exact ⟨v, isInnermost_node.mpr (Or.inr ⟨c, hc, hv⟩)⟩
      · push Not at hbelow
        rw [preorder_node, List.mem_cons, List.mem_flatMap] at hn
        rcases hn with rfl | ⟨c, hc, hn⟩
        · exact ⟨_, isInnermost_node.mpr (Or.inl ⟨rfl, hbyte, hbelow⟩)⟩
        · exact absurd hbyte (hbelow c hc n hn)

theorem WellNested.isInnermost_unique {t : Tree α} {chain : List α} {byte : Nat}
    {v w : List α × Tree α} (h : t.WellNested) (hv : t.IsInnermost chain byte v)
    (hw : t.IsInnermost chain byte w) : v = w := by
  induction t generalizing chain with
  | node label span children ih =>
      obtain ⟨hnode, hbelow⟩ := wellNested_node.mp h
      rcases isInnermost_node.mp hv with ⟨rfl, -, hvnone⟩ | ⟨c, hc, hvc⟩
      · rcases isInnermost_node.mp hw with ⟨rfl, -, -⟩ | ⟨d, hd, hwd⟩
        · rfl
        · exact absurd hwd.2.1 (hvnone d hd w.2 (mem_preorder_of_mem_visits hwd.1))
      · rcases isInnermost_node.mp hw with ⟨rfl, -, hwnone⟩ | ⟨d, hd, hwd⟩
        · exact absurd hvc.2.1 (hwnone c hc v.2 (mem_preorder_of_mem_visits hvc.1))
        · -- Both come from a child that covers the byte, and there is only one of these.
          obtain rfl : c = d := hnode.child_unique hc hd (hvc.contains_root (hbelow c hc))
            (hwd.contains_root (hbelow d hd))
          exact ih c hc (hbelow c hc) hvc hwd

/-! ## Paths -/

/-- The labels of the innermost node around a byte and of its ancestors, nearest first. -/
def PathAt (t : Tree α) (chain : List α) (byte : Nat) (path : List α) : Prop :=
  ∃ v, t.IsInnermost chain byte v ∧ path = v.2.label :: v.1

theorem pathAt_node {chain path : List α} {label : α} {span : Span} {children : List (Tree α)}
    {byte : Nat} (h : WellNested (.node label span children)) :
    PathAt (.node label span children) chain byte path ↔
      (path = label :: chain ∧ span.Contains byte ∧ ¬ ∃ c ∈ children, c.span.Contains byte) ∨
        ∃ c ∈ children, c.PathAt (label :: chain) byte path := by
  have hbelow := (wellNested_node.mp h).2
  have hfree : (∀ c ∈ children, ∀ n ∈ c.preorder, ¬ n.span.Contains byte) ↔
      ¬ ∃ c ∈ children, c.span.Contains byte := by
    rw [uncovered_iff hbelow]
    push Not
    rfl
  simp only [PathAt, isInnermost_node, hfree]
  constructor
  · rintro ⟨v, ⟨rfl, hroot⟩ | ⟨c, hc, hv⟩, rfl⟩
    · exact Or.inl ⟨rfl, hroot⟩
    · exact Or.inr ⟨c, hc, v, hv, rfl⟩
  · rintro (⟨rfl, hroot⟩ | ⟨c, hc, v, hv, rfl⟩)
    · exact ⟨_, Or.inl ⟨rfl, hroot⟩, rfl⟩
    · exact ⟨v, Or.inr ⟨c, hc, hv⟩, rfl⟩

theorem WellNested.sublist {label : α} {span : Span} {children kept : List (Tree α)}
    (h : WellNested (.node label span children)) (hkept : kept.Sublist children) :
    WellNested (.node label span kept) := by
  obtain ⟨hnode, hbelow⟩ := wellNested_node.mp h
  refine wellNested_node.mpr ⟨⟨hnode.ordered, ?_, hnode.apart.sublist hkept⟩, ?_⟩
  · intro c hc
    exact hnode.inside c (hkept.subset hc)
  · intro c hc
    exact hbelow c (hkept.subset hc)

theorem PathAt.contains_root {t : Tree α} {chain path : List α} {byte : Nat}
    (hpath : t.PathAt chain byte path) (h : t.WellNested) : t.span.Contains byte := by
  obtain ⟨v, hv, -⟩ := hpath
  exact hv.contains_root h

/-- Only children that cover a byte matter to what is around it. -/
theorem pathAt_sublist {chain path : List α} {label : α} {span : Span}
    {children kept : List (Tree α)} {byte : Nat} (h : WellNested (.node label span children))
    (hkept : kept.Sublist children) (hall : ∀ c ∈ children, c.span.Contains byte → c ∈ kept) :
    PathAt (.node label span children) chain byte path ↔
      PathAt (.node label span kept) chain byte path := by
  have hbelow := (wellNested_node.mp h).2
  have hexists : ∀ {P : Tree α → Prop}, (∀ c ∈ children, P c → c.span.Contains byte) →
      ((∃ c ∈ children, P c) ↔ ∃ c ∈ kept, P c) := by
    intro P hcovers
    constructor
    · rintro ⟨c, hc, hP⟩
      exact ⟨c, hall c hc (hcovers c hc hP), hP⟩
    · rintro ⟨c, hc, hP⟩
      exact ⟨c, hkept.subset hc, hP⟩
  rw [pathAt_node h, pathAt_node (h.sublist hkept), hexists fun c _ hcontains => hcontains,
    hexists fun c hc hpath => hpath.contains_root (hbelow c hc)]

end Tree

end DiagramTint
