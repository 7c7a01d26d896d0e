import DiagramTint.Tree.Arena
import DiagramTint.Proofs.Tree.Nesting
import Mathlib.Data.List.Nodup
import Mathlib.Data.List.Range

/-!
# Trees numbered in pre-order

The arena in which every node of a tree has its place in pre-order as its number.  The links of
such an arena agree in both directions, and walking down from the root meets the numbers in order.
-/

namespace DiagramTint

namespace Arena

variable {α : Type}

/-- The links of an arena agree: every cell but the first has its parent before it and is that
cell's child once, children are in order, and a walk from the first cell yields every number in
order and stops after the last. -/
structure Linked (cells : Arena α) : Prop where
  root : cells.parent? 0 = none
  parent : ∀ i, 0 < i → i < cells.length →
    ∃ p, p < i ∧ cells.parent? i = some p ∧ (cells.childrenOf p).count i = 1
  child : ∀ p, ∀ i ∈ cells.childrenOf p, i < cells.length ∧ cells.parent? i = some p
  ascending : ∀ p, (cells.childrenOf p).Pairwise (· < ·)
  walk : ∀ n, cells.walk n [0] = List.range (min n cells.length)

theorem parent?_of_getElem? {cells : Arena α} {i : Nat} {c : Cell α} (h : cells[i]? = some c) :
    cells.parent? i = c.parent := by
  rw [parent?, h, Option.bind_some]

theorem childrenOf_of_getElem? {cells : Arena α} {i : Nat} {c : Cell α}
    (h : cells[i]? = some c) : cells.childrenOf i = c.children := by
  rw [childrenOf, h, Option.map_some, Option.getD_some]

theorem childrenOf_of_length_le {cells : Arena α} {p : Nat} (h : cells.length ≤ p) :
    cells.childrenOf p = [] := by
  rw [childrenOf, List.getElem?_eq_none h, Option.map_none, Option.getD_none]

end Arena

namespace Tree

variable {α : Type}

/-! ## Numbers and cells -/

/-- The numbers of trees that stand side by side, the first of which has number `id`. -/
def numbers (id : Nat) : List (Tree α) → List Nat
  | [] => []
  | t :: ts => id :: numbers (id + t.size) ts

mutual

/-- The cells of a tree whose root has number `id` and hangs from cell `parent`. -/
def cellsFrom (id : Nat) (parent : Option Nat) : Tree α → Arena α
  | .node l s cs => ⟨l, s, parent, numbers (id + 1) cs⟩ :: cellsForest (id + 1) id cs

def cellsForest (id parent : Nat) : List (Tree α) → Arena α
  | [] => []
  | t :: ts => cellsFrom id (some parent) t ++ cellsForest (id + size t) parent ts

end

/-- The arena of a tree, numbered in pre-order. -/
def toArena (t : Tree α) : Arena α :=
  cellsFrom 0 none t

theorem size_pos (t : Tree α) : 0 < t.size := by
  obtain ⟨label, span, children⟩ := t
  rw [size]
  omega

theorem numbers_append (id : Nat) (ts us : List (Tree α)) :
    numbers id (ts ++ us) = numbers id ts ++ numbers (id + sizeForest ts) us := by
  induction ts generalizing id with
  | nil => simp [numbers, sizeForest]
  | cons t ts ih =>
      rw [List.cons_append, numbers, numbers, ih, sizeForest, List.cons_append, Nat.add_assoc]

theorem cellsForest_append (id parent : Nat) (ts us : List (Tree α)) :
    cellsForest id parent (ts ++ us) =
      cellsForest id parent ts ++ cellsForest (id + sizeForest ts) parent us := by
  induction ts generalizing id with
  | nil => simp [cellsForest, sizeForest]
  | cons t ts ih =>
      rw [List.cons_append, cellsForest, cellsForest, ih, sizeForest, List.append_assoc,
        Nat.add_assoc]

theorem length_cellsForest (id parent : Nat) {ts : List (Tree α)}
    (h : ∀ t ∈ ts, ∀ id parent, (cellsFrom id parent t).length = t.size) :
    (cellsForest id parent ts).length = sizeForest ts := by
  induction ts generalizing id with
  | nil => rfl
  | cons t ts ih =>
      rw [cellsForest, List.length_append, h t List.mem_cons_self, sizeForest,
        ih _ fun u hu => h u (List.mem_cons_of_mem t hu)]

theorem length_cellsFrom (id : Nat) (parent : Option Nat) (t : Tree α) :
    (cellsFrom id parent t).length = t.size := by
  induction t generalizing id parent with
  | node label span children ih =>
      rw [cellsFrom, List.length_cons, size, Nat.add_comm,
        length_cellsForest _ _ fun c hc id parent => ih c hc id parent]

theorem le_of_mem_numbers {id j : Nat} {ts : List (Tree α)} (h : j ∈ numbers id ts) : id ≤ j := by
  induction ts generalizing id with
  | nil => simp [numbers] at h
  | cons t ts ih =>
      rcases List.mem_cons.mp h with rfl | h
      · exact Nat.le_refl _
      · have hle := ih h
        omega

theorem pairwise_numbers (id : Nat) (ts : List (Tree α)) : (numbers id ts).Pairwise (· < ·) := by
  induction ts generalizing id with
  | nil => exact List.Pairwise.nil
  | cons t ts ih =>
      refine List.Pairwise.cons ?_ (ih _)
      intro j hj
      have hle := le_of_mem_numbers hj
      have hpos := size_pos t
      omega

theorem length_numbers (id : Nat) (ts : List (Tree α)) : (numbers id ts).length = ts.length := by
  induction ts generalizing id with
  | nil => rfl
  | cons t ts ih => rw [numbers, List.length_cons, List.length_cons, ih]

theorem map_fst_zip_numbers (id : Nat) (ts : List (Tree α)) :
    ((numbers id ts).zip ts).map Prod.fst = numbers id ts := by
  rw [List.map_fst_zip]
  rw [length_numbers]

theorem map_snd_zip_numbers (id : Nat) (ts : List (Tree α)) :
    ((numbers id ts).zip ts).map Prod.snd = ts := by
  rw [List.map_snd_zip]
  rw [length_numbers]

/-- Every number of a forest's range belongs to one of its trees. -/
theorem exists_number {id k : Nat} {ts : List (Tree α)} (h : k < sizeForest ts) :
    ∃ j t, (j, t) ∈ (numbers id ts).zip ts ∧ j ≤ id + k ∧ id + k < j + t.size := by
  induction ts generalizing id k with
  | nil => simp [sizeForest] at h
  | cons t ts ih =>
      rw [sizeForest] at h
      by_cases hk : k < t.size
      · exact ⟨id, t, List.mem_cons_self, by omega, by omega⟩
      · obtain ⟨j, u, hu, hle, hlt⟩ := @ih (id + t.size) (k - t.size) (by omega)
        exact ⟨j, u, List.mem_cons_of_mem _ hu, by omega, by omega⟩

/-! ## Where the cells of a tree stand -/

/-- From number `id` on, an arena holds the cells of a tree. -/
def Placed (cells : Arena α) (id : Nat) (parent : Option Nat) (t : Tree α) : Prop :=
  cellsFrom id parent t <+: cells.drop id

theorem placed_toArena (t : Tree α) : Placed t.toArena 0 none t :=
  List.prefix_rfl

theorem Placed.getElem?_eq {cells : Arena α} {id : Nat} {parent : Option Nat} {t : Tree α}
    (h : Placed cells id parent t) :
    cells[id]? = some ⟨t.label, t.span, parent, numbers (id + 1) t.children⟩ := by
  obtain ⟨label, span, children⟩ := t
  obtain ⟨after, hafter⟩ := h
  have hhead := congrArg List.head? hafter
  rw [List.head?_drop] at hhead
  rw [← hhead]
  rfl

theorem Placed.forest {cells : Arena α} {id : Nat} {parent : Option Nat} {t : Tree α}
    (h : Placed cells id parent t) :
    cellsForest (id + 1) id t.children <+: cells.drop (id + 1) := by
  obtain ⟨label, span, children⟩ := t
  obtain ⟨after, hafter⟩ := h
  refine ⟨after, ?_⟩
  rw [← List.drop_drop, ← hafter]
  rfl

theorem placed_cons {cells : Arena α} {id parent : Nat} {t : Tree α} {ts : List (Tree α)}
    (h : cellsForest id parent (t :: ts) <+: cells.drop id) :
    Placed cells id (some parent) t ∧
      cellsForest (id + t.size) parent ts <+: cells.drop (id + t.size) := by
  rw [cellsForest] at h
  refine ⟨(List.prefix_append _ _).trans h, ?_⟩
  obtain ⟨after, hafter⟩ := h
  refine ⟨after, ?_⟩
  rw [← List.drop_drop, ← hafter, ← length_cellsFrom id (some parent) t, List.append_assoc,
    List.drop_left]

theorem placed_of_mem_zip {cells : Arena α} {id parent j : Nat} {t : Tree α}
    {ts : List (Tree α)} (h : cellsForest id parent ts <+: cells.drop id)
    (ht : (j, t) ∈ (numbers id ts).zip ts) : Placed cells j (some parent) t := by
  induction ts generalizing id with
  | nil => simp [numbers] at ht
  | cons u us ih =>
      obtain ⟨hu, hus⟩ := placed_cons h
      rcases List.mem_cons.mp ht with heq | ht
      · obtain ⟨rfl, rfl⟩ := Prod.mk.inj heq
        exact hu
      · exact ih hus ht

/-! ## The nodes of a tree by number -/

/-- Node `i` of a tree is `t`, and `up` are the numbers of its ancestors, nearest first. -/
inductive HasNode (root : Tree α) : Nat → List Nat → Tree α → Prop where
  | root : HasNode root 0 [] root
  | child {i j : Nat} {up : List Nat} {t c : Tree α} :
      HasNode root i up t → (j, c) ∈ (numbers (i + 1) t.children).zip t.children →
      HasNode root j (i :: up) c

theorem HasNode.placed {root t : Tree α} {i : Nat} {up : List Nat} (h : HasNode root i up t) :
    Placed root.toArena i up.head? t := by
  induction h with
  | root => exact placed_toArena root
  | child _ hc ih => exact placed_of_mem_zip ih.forest hc

theorem HasNode.getElem?_eq {root t : Tree α} {i : Nat} {up : List Nat}
    (h : HasNode root i up t) :
    root.toArena[i]? = some ⟨t.label, t.span, up.head?, numbers (i + 1) t.children⟩ :=
  h.placed.getElem?_eq

theorem HasNode.exists_below {root t : Tree α} {i : Nat} {up : List Nat}
    (h : HasNode root i up t) {k : Nat} (hk : k < t.size) :
    ∃ up' u, HasNode root (i + k) up' u := by
  induction t generalizing i up k with
  | node label span children ih =>
      by_cases hzero : k = 0
      · exact ⟨up, _, by rw [hzero]; exact h⟩
      · -- Any other number lies in the range of exactly one child.
        rw [size] at hk
        obtain ⟨j, c, hc, hle, hlt⟩ := @exists_number α (i + 1) (k - 1) children (by omega)
        have hmem : c ∈ children := (List.of_mem_zip hc).2
        obtain ⟨up', u, hu⟩ := ih c hmem (HasNode.child h hc) (k := i + k - j) (by omega)
        refine ⟨up', u, ?_⟩
        rw [show i + k = j + (i + k - j) by omega]
        exact hu

theorem length_toArena (t : Tree α) : t.toArena.length = t.size :=
  length_cellsFrom 0 none t

theorem exists_hasNode {root : Tree α} {i : Nat} (h : i < root.toArena.length) :
    ∃ up t, HasNode root i up t := by
  rw [length_toArena] at h
  have hroot : HasNode root 0 [] root := HasNode.root
  have hnode := hroot.exists_below h
  rwa [Nat.zero_add] at hnode

theorem exists_hasNode_of_getElem? {root : Tree α} {i : Nat} {c : Cell α}
    (h : root.toArena[i]? = some c) :
    ∃ up t, HasNode root i up t ∧ c = ⟨t.label, t.span, up.head?, numbers (i + 1) t.children⟩ := by
  obtain ⟨hi, -⟩ := List.getElem?_eq_some_iff.mp h
  obtain ⟨up, t, ht⟩ := exists_hasNode hi
  refine ⟨up, t, ht, ?_⟩
  rw [ht.getElem?_eq] at h
  exact (Option.some.inj h).symm

/-! ## The links of a numbered tree -/

theorem HasNode.parent?_eq {root t : Tree α} {i : Nat} {up : List Nat} (h : HasNode root i up t) :
    root.toArena.parent? i = up.head? :=
  Arena.parent?_of_getElem? h.getElem?_eq

theorem HasNode.childrenOf_eq {root t : Tree α} {i : Nat} {up : List Nat}
    (h : HasNode root i up t) : root.toArena.childrenOf i = numbers (i + 1) t.children :=
  Arena.childrenOf_of_getElem? h.getElem?_eq

theorem HasNode.lt_length {root t : Tree α} {i : Nat} {up : List Nat} (h : HasNode root i up t) :
    i < root.toArena.length :=
  (List.getElem?_eq_some_iff.mp h.getElem?_eq).1

theorem HasNode.exists_child {root t : Tree α} {i j : Nat} {up : List Nat}
    (h : HasNode root i up t) (hj : j ∈ root.toArena.childrenOf i) :
    ∃ c, HasNode root j (i :: up) c := by
  rw [h.childrenOf_eq, ← map_fst_zip_numbers] at hj
  obtain ⟨⟨k, c⟩, hc, rfl⟩ := List.mem_map.mp hj
  exact ⟨c, HasNode.child h hc⟩

theorem HasNode.climb_eq {root t : Tree α} {i : Nat} {up : List Nat} (h : HasNode root i up t)
    (n : Nat) : root.toArena.climb n i = up.take n := by
  induction h generalizing n with
  | root =>
      cases n with
      | zero => rfl
      | succ n => rw [Arena.climb, HasNode.root.parent?_eq]; rfl
  | child hparent hc ih =>
      cases n with
      | zero => rfl
      | succ n =>
          rw [Arena.climb, (HasNode.child hparent hc).parent?_eq]
          simp only [List.head?_cons, List.take_succ_cons, ih]

theorem walk_forest {cells : Arena α} {id parent : Nat} {ts : List (Tree α)}
    (hplaced : cellsForest id parent ts <+: cells.drop id)
    (h : ∀ t ∈ ts, ∀ id parent, Placed cells id parent t → ∀ n stack,
      cells.walk n (id :: stack) =
        (List.range' id t.size).take n ++ cells.walk (n - t.size) stack)
    (n : Nat) (stack : List Nat) :
    cells.walk n (numbers id ts ++ stack) =
      (List.range' id (sizeForest ts)).take n ++ cells.walk (n - sizeForest ts) stack := by
  induction ts generalizing id n with
  | nil => simp [numbers, sizeForest]
  | cons t ts ih =>
      obtain ⟨ht, hts⟩ := placed_cons hplaced
      have htail := ih hts (fun u hu => h u (List.mem_cons_of_mem t hu)) (n - t.size)
      rw [numbers, List.cons_append, h t List.mem_cons_self id (some parent) ht, htail, sizeForest,
        ← List.range'_append_1, List.take_append, List.length_range', List.append_assoc,
        Nat.sub_sub]

theorem Placed.walk_eq {cells : Arena α} {id : Nat} {parent : Option Nat} {t : Tree α}
    (h : Placed cells id parent t) (n : Nat) (stack : List Nat) :
    cells.walk n (id :: stack) =
      (List.range' id t.size).take n ++ cells.walk (n - t.size) stack := by
  induction t generalizing id parent n stack with
  | node label span children ih =>
      cases n with
      | zero => simp [Arena.walk]
      | succ n =>
          have hforest := walk_forest h.forest
            (fun c hc id parent hplaced => ih c hc hplaced) n stack
          rw [Arena.walk, Arena.childrenOf_of_getElem? h.getElem?_eq]
          rw [hforest, size, Nat.add_comm 1, List.range'_succ, List.take_succ_cons,
            List.cons_append, Nat.add_sub_add_right]
          rfl

theorem walk_toArena (t : Tree α) (n : Nat) :
    t.toArena.walk n [0] = List.range (min n t.toArena.length) := by
  have hnil : ∀ k, t.toArena.walk k [] = [] := by
    intro k
    cases k <;> rfl
  rw [(placed_toArena t).walk_eq, hnil, List.append_nil, ← List.range_eq_range', List.take_range,
    length_toArena]

theorem linked_toArena (t : Tree α) : t.toArena.Linked where
  root := HasNode.root.parent?_eq
  parent := by
    intro i hpos hi
    obtain ⟨up, u, hu⟩ := exists_hasNode hi
    cases hu with
    | root => omega
    | @child p _ _ v _ hp hc =>
        have hmem : i ∈ numbers (p + 1) v.children := (List.of_mem_zip hc).1
        refine ⟨p, le_of_mem_numbers hmem, (HasNode.child hp hc).parent?_eq, ?_⟩
        rw [hp.childrenOf_eq]
        exact List.count_eq_one_of_mem (pairwise_numbers _ _).nodup hmem
  child := by
    intro p i hi
    by_cases hp : p < t.toArena.length
    · obtain ⟨up, u, hu⟩ := exists_hasNode hp
      obtain ⟨c, hc⟩ := hu.exists_child hi
      exact ⟨hc.lt_length, hc.parent?_eq⟩
    · rw [Arena.childrenOf_of_length_le (Nat.le_of_not_lt hp)] at hi
      cases hi
  ascending := by
    intro p
    by_cases hp : p < t.toArena.length
    · obtain ⟨up, u, hu⟩ := exists_hasNode hp
      rw [hu.childrenOf_eq]
      exact pairwise_numbers _ _
    · rw [Arena.childrenOf_of_length_le (Nat.le_of_not_lt hp)]
      exact List.Pairwise.nil
  walk := walk_toArena t

end Tree

end DiagramTint
