import DiagramTint.Highlights.Visit
import DiagramTint.Proofs.Tree.Numbering
import Mathlib.Data.List.Perm.Subperm

/-!
# Arenas whose links agree

An arena is a tree if going down along the children and going up along the parents are the same
links and every cell hangs below the root.  The numbers of its cells are in any order.  Such an
arena unfolds into a tree of numbers in which every cell stands once, below its ancestors.
-/

namespace DiagramTint

theorem Tree.child_mem_preorder {α : Type} {t n c : Tree α} (hn : n ∈ t.preorder)
    (hc : c ∈ n.children) : c ∈ t.preorder := by
  induction t with
  | node label span children ih =>
      rw [Tree.preorder_node, List.mem_cons, List.mem_flatMap] at hn ⊢
      rcases hn with rfl | ⟨d, hd, hn⟩
      · exact Or.inr ⟨c, hc, c.self_mem_preorder⟩
      · exact Or.inr ⟨d, hd, ih d hd hn⟩

namespace Arena

variable {α : Type}

/-- The cells of an arena form a tree below cell `root`: a cell lists its children once each, they
are the cells that name it as their parent, and the parents of every cell lead to the root. -/
structure IsTree (cells : Arena α) (root : Nat) : Prop where
  root_lt : root < cells.length
  root_parent : cells.parent? root = none
  links : ∀ p i, i ∈ cells.childrenOf p ↔ cells.parent? i = some p
  once : ∀ p, (cells.childrenOf p).Nodup
  below : ∀ i < cells.length, ∃ n, root ∈ i :: cells.climb n i

/-! ## Going up -/

/-- The cells `up` are all ancestors of cell `i`, nearest first. -/
inductive Ascends (cells : Arena α) : Nat → List Nat → Prop where
  | top {i : Nat} : cells.parent? i = none → Ascends cells i []
  | up {i p : Nat} {up : List Nat} :
      cells.parent? i = some p → Ascends cells p up → Ascends cells i (p :: up)

variable {cells : Arena α} {root i : Nat} {up : List Nat}

theorem Ascends.unique {other : List Nat} (h : Ascends cells i up)
    (hother : Ascends cells i other) : up = other := by
  induction h generalizing other with
  | top hnone =>
      cases hother with
      | top _ => rfl
      | up hsome _ => rw [hnone] at hsome; cases hsome
  | up hsome _ ih =>
      cases hother with
      | top hnone => rw [hnone] at hsome; cases hsome
      | up hsome' hrest =>
          rw [hsome] at hsome'
          cases hsome'
          rw [ih hrest]

theorem Ascends.climb_eq (h : Ascends cells i up) (n : Nat) : cells.climb n i = up.take n := by
  induction h generalizing n with
  | top hnone =>
      cases n with
      | zero => rfl
      | succ n => rw [climb, hnone]; rfl
  | up hsome _ ih =>
      cases n with
      | zero => rfl
      | succ n => rw [climb, hsome, List.take_succ_cons, ← ih]

/-- The ancestors of an ancestor are the rest of the list. -/
theorem Ascends.of_mem {j : Nat} (h : Ascends cells i up) (hj : j ∈ up) :
    ∃ rest, Ascends cells j rest ∧ rest.length < up.length := by
  induction h with
  | top _ => cases hj
  | up _ hrest ih =>
      rcases List.mem_cons.mp hj with rfl | hj
      · exact ⟨_, hrest, Nat.lt_succ_self _⟩
      · obtain ⟨rest, hrest, hlt⟩ := ih hj
        exact ⟨rest, hrest, Nat.lt_succ_of_lt hlt⟩

/-- No cell is its own ancestor, and no ancestor is met twice. -/
theorem Ascends.nodup (h : Ascends cells i up) : (i :: up).Nodup := by
  have hfresh : ∀ {i : Nat} {up : List Nat}, Ascends cells i up → i ∉ up := by
    intro i up h hmem
    obtain ⟨rest, hrest, hlt⟩ := h.of_mem hmem
    rw [h.unique hrest] at hlt
    omega
  induction h with
  | top hnone => exact List.nodup_singleton _
  | up hsome hrest ih => exact List.nodup_cons.mpr ⟨hfresh (.up hsome hrest), ih⟩

theorem lt_length_of_parent? {p : Nat} (h : cells.parent? i = some p) : i < cells.length := by
  by_contra hge
  rw [parent?, List.getElem?_eq_none (Nat.le_of_not_lt hge)] at h
  cases h

namespace IsTree

theorem lt_length (h : cells.IsTree root) {p : Nat} (hi : cells.parent? i = some p) :
    p < cells.length := by
  by_contra hge
  have hmem := (h.links p i).mpr hi
  rw [childrenOf_of_length_le (Nat.le_of_not_lt hge)] at hmem
  cases hmem

/-- What holds of the root and is handed down from parents to children holds of every cell. -/
theorem induction {P : Nat → Prop} (h : cells.IsTree root) (hroot : P root)
    (hchild : ∀ i p, cells.parent? i = some p → P p → P i) (hi : i < cells.length) : P i := by
  obtain ⟨n, hn⟩ := h.below i hi
  induction n generalizing i with
  | zero =>
      rw [climb, List.mem_singleton] at hn
      rwa [← hn]
  | succ n ih =>
      rw [climb] at hn
      cases hparent : cells.parent? i with
      | none =>
          rw [hparent, List.mem_singleton] at hn
          rwa [← hn]
      | some p =>
          rw [hparent] at hn
          rcases List.mem_cons.mp hn with rfl | hn
          · exact hroot
          · exact hchild i p hparent (ih (h.lt_length hparent) hn)

theorem lt_length_of_mem (h : cells.IsTree root) {j : Nat} (hup : Ascends cells i up)
    (hj : j ∈ up) : j < cells.length := by
  induction hup with
  | top _ => cases hj
  | up hsome _ ih =>
      rcases List.mem_cons.mp hj with rfl | hj
      · exact h.lt_length hsome
      · exact ih hj

/-- A cell has fewer ancestors than there are cells. -/
theorem length_lt (h : cells.IsTree root) (hi : i < cells.length) (hup : Ascends cells i up) :
    up.length < cells.length := by
  have hsub : i :: up ⊆ List.range cells.length := by
    intro j hj
    rw [List.mem_range]
    rcases List.mem_cons.mp hj with rfl | hj
    · exact hi
    · exact h.lt_length_of_mem hup hj
  have hle := (List.subperm_of_subset hup.nodup hsub).length_le
  rw [List.length_cons, List.length_range] at hle
  omega

theorem ancestors_eq (h : cells.IsTree root) (hi : i < cells.length) (hup : Ascends cells i up) :
    cells.ancestors i = up := by
  rw [ancestors, hup.climb_eq, List.take_of_length_le (Nat.le_of_lt (h.length_lt hi hup))]

end IsTree

/-! ## Going down -/

/-- At every node of a tree of numbers stand the span and the children of its cell. -/
def Unfolds (cells : Arena α) (t : Tree Nat) : Prop :=
  ∀ n ∈ t.preorder, n.label < cells.length ∧ n.span = cells.spanOf n.label ∧
    cells.childrenOf n.label = n.children.map Tree.label

theorem unfolds_node {label : Nat} {span : Span} {children : List (Tree Nat)} :
    cells.Unfolds (.node label span children) ↔
      (label < cells.length ∧ span = cells.spanOf label ∧
        cells.childrenOf label = children.map Tree.label) ∧ ∀ c ∈ children, cells.Unfolds c := by
  simp only [Unfolds, Tree.preorder_node, List.mem_cons, List.mem_flatMap, forall_eq_or_imp]
  constructor
  · rintro ⟨hnode, hbelow⟩
    exact ⟨hnode, fun c hc n hn => hbelow n ⟨c, hc, hn⟩⟩
  · rintro ⟨hnode, hbelow⟩
    exact ⟨hnode, fun n ⟨c, hc, hn⟩ => hbelow c hc n hn⟩

/-- The tree of numbers below cell `i`, cut off `n` levels down. -/
def spread (cells : Arena α) : Nat → Nat → Tree Nat
  | 0, i => .leaf i (cells.spanOf i)
  | n + 1, i => .node i (cells.spanOf i) ((cells.childrenOf i).map (cells.spread n))

theorem label_spread (cells : Arena α) (n i : Nat) : (cells.spread n i).label = i := by
  cases n <;> rfl

/-- Nothing is cut off if there are as many levels as cells. -/
theorem IsTree.unfolds_spread (h : cells.IsTree root) {n : Nat} (hi : i < cells.length)
    (hup : Ascends cells i up) (hn : cells.length ≤ up.length + n) :
    cells.Unfolds (cells.spread n i) := by
  induction n generalizing i up with
  | zero =>
      have hlt := h.length_lt hi hup
      omega
  | succ n ih =>
      rw [spread, unfolds_node]
      constructor
      · refine ⟨hi, rfl, ?_⟩
        simp only [List.map_map, Function.comp_def, label_spread, List.map_id']
      · intro c hc
        obtain ⟨j, hj, rfl⟩ := List.mem_map.mp hc
        have hparent := (h.links i j).mp hj
        apply ih (lt_length_of_parent? hparent) (.up hparent hup)
        rw [List.length_cons]
        omega

theorem IsTree.exists_unfolds (h : cells.IsTree root) :
    ∃ t : Tree Nat, t.label = root ∧ cells.Unfolds t := by
  refine ⟨cells.spread cells.length root, cells.label_spread _ root, ?_⟩
  exact h.unfolds_spread h.root_lt (.top h.root_parent) (Nat.le_add_left _ _)

section Unfolded

variable {t : Tree Nat}

theorem Unfolds.child {c : Tree Nat} (ht : cells.Unfolds t) (h : cells.IsTree root)
    (hup : Ascends cells t.label up) (hc : c ∈ t.children) :
    cells.Unfolds c ∧ Ascends cells c.label (t.label :: up) := by
  obtain ⟨label, span, children⟩ := t
  obtain ⟨⟨-, -, hchildren⟩, hbelow⟩ := unfolds_node.mp ht
  have hmem : c.label ∈ cells.childrenOf label := by
    rw [hchildren]
    exact List.mem_map_of_mem hc
  exact ⟨hbelow c hc, .up ((h.links label c.label).mp hmem) hup⟩

theorem Unfolds.ascends (ht : cells.Unfolds t) (h : cells.IsTree root)
    (hup : Ascends cells t.label up) : ∀ v ∈ t.visits up, Ascends cells v.2.label v.1 := by
  induction t generalizing up with
  | node label span children ih =>
      intro v hv
      rcases Tree.mem_visits_node.mp hv with rfl | ⟨c, hc, hv⟩
      · exact hup
      · obtain ⟨hbelow, hupper⟩ := ht.child h hup hc
        exact ih c hc hbelow hupper v hv

/-- Whatever is visited in a tree has the root of the tree and what is above it for its last
ancestors. -/
theorem suffix_of_mem_visits {v : List Nat × Tree Nat} (hv : v ∈ t.visits up) :
    t.label :: up <:+ v.2.label :: v.1 := by
  induction t generalizing up with
  | node label span children ih =>
      rcases Tree.mem_visits_node.mp hv with rfl | ⟨c, hc, hv⟩
      · exact List.suffix_rfl
      · exact (List.suffix_cons c.label (label :: up)).trans (ih c hc hv)

theorem Unfolds.nodup_visits (ht : cells.Unfolds t) (h : cells.IsTree root)
    (hup : Ascends cells t.label up) : ((t.visits up).map fun v => v.2.label).Nodup := by
  induction t generalizing up with
  | node label span children ih =>
      have hascends := ht.ascends h hup
      have hdistinct := h.once label
      rw [(unfolds_node.mp ht).1.2.2] at hdistinct
      rw [Tree.visits, Tree.visitsForest_eq_flatMap, List.map_cons, List.map_flatMap,
        List.nodup_cons, List.nodup_flatMap]
      refine ⟨?_, ?_, ?_⟩
      · -- A node below would be its own ancestor.
        intro hmem
        obtain ⟨c, hc, hmem⟩ := List.mem_flatMap.mp hmem
        obtain ⟨v, hv, hlabel⟩ := List.mem_map.mp hmem
        have hself := hascends v (Tree.mem_visits_node.mpr (Or.inr ⟨c, hc, hv⟩))
        rw [hlabel] at hself
        have hle := (suffix_of_mem_visits hv).length_le
        simp only [← hup.unique hself, List.length_cons] at hle
        omega
      · intro c hc
        obtain ⟨hbelow, hupper⟩ := ht.child h hup hc
        exact ih c hc hbelow hupper
      · refine (List.pairwise_map.mp hdistinct).imp_of_mem ?_
        intro c d hc hd hne j hjc hjd
        obtain ⟨v, hv, rfl⟩ := List.mem_map.mp hjc
        obtain ⟨w, hw, hlabel⟩ := List.mem_map.mp hjd
        have hvup := hascends v (Tree.mem_visits_node.mpr (Or.inr ⟨c, hc, hv⟩))
        have hwup := hascends w (Tree.mem_visits_node.mpr (Or.inr ⟨d, hd, hw⟩))
        have hcend := suffix_of_mem_visits hv
        have hdend := suffix_of_mem_visits hw
        rw [hlabel] at hwup hdend
        rw [← hvup.unique hwup] at hdend
        -- Both children are the same ancestor of one cell, counted from the root.
        have hsame := List.suffix_of_suffix_length_le hcend hdend (Nat.le_refl _)
        exact hne (List.cons.inj (hsame.eq_of_length rfl)).1

theorem Unfolds.nodup_labels (ht : cells.Unfolds t) (h : cells.IsTree root)
    (hroot : t.label = root) : (t.preorder.map Tree.label).Nodup := by
  have hup : Ascends cells t.label [] := .top (by rw [hroot]; exact h.root_parent)
  have hnodup := ht.nodup_visits h hup
  rwa [Tree.preorder, List.map_map]

theorem Unfolds.mem_labels (ht : cells.Unfolds t) (h : cells.IsTree root)
    (hroot : t.label = root) (hi : i < cells.length) : i ∈ t.preorder.map Tree.label := by
  refine h.induction (List.mem_map.mpr ⟨t, t.self_mem_preorder, hroot⟩) ?_ hi
  intro i p hparent hp
  obtain ⟨m, hm, rfl⟩ := List.mem_map.mp hp
  have hmem := (h.links m.label i).mpr hparent
  rw [(ht m hm).2.2] at hmem
  obtain ⟨c, hc, rfl⟩ := List.mem_map.mp hmem
  exact List.mem_map_of_mem (Tree.child_mem_preorder hm hc)

/-- Every cell stands once in the unfolded tree, and nothing else does. -/
theorem Unfolds.mem_labels_iff (ht : cells.Unfolds t) (h : cells.IsTree root)
    (hroot : t.label = root) : i ∈ t.preorder.map Tree.label ↔ i < cells.length := by
  constructor
  · intro hi
    obtain ⟨n, hn, rfl⟩ := List.mem_map.mp hi
    exact (ht n hn).1
  · exact ht.mem_labels h hroot

end Unfolded

end Arena

end DiagramTint
