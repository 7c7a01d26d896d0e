import DiagramTint.Proofs.Tree.Numbering

/-!
# Trees from the depths of their nodes

The nodes of a tree in pre-order, each with the number of its ancestors, tell the tree: what follows
a node and is deeper lies below it.  The place of a node in this list is its number in the arena of
the tree.
-/

namespace DiagramTint.Tree

variable {α : Type}

/-! ## Entries -/

/-- What a list of nodes tells of one of them: how many ancestors it has, its label and span. -/
structure Entry (α : Type) where
  depth : Nat
  label : α
  span : Span

/-- The entry of a node that is given with the labels of its ancestors. -/
def Entry.ofVisit (v : List α × Tree α) : Entry α :=
  ⟨v.1.length, v.2.label, v.2.span⟩

/-- The entries of a tree below the ancestors `chain`, in pre-order. -/
def entries (chain : List α) (t : Tree α) : List (Entry α) :=
  (t.visits chain).map Entry.ofVisit

theorem entries_eq (chain : List α) (t : Tree α) :
    t.entries chain =
      ⟨chain.length, t.label, t.span⟩ :: t.children.flatMap (entries (t.label :: chain)) := by
  obtain ⟨label, span, children⟩ := t
  rw [entries, visits, visitsForest_eq_flatMap, List.map_cons, List.map_flatMap]
  rfl

theorem le_depth_of_mem_entries {chain : List α} {t : Tree α} {e : Entry α}
    (h : e ∈ t.entries chain) : chain.length ≤ e.depth := by
  induction t generalizing chain with
  | node label span children ih =>
      rw [entries_eq, List.mem_cons, List.mem_flatMap] at h
      rcases h with rfl | ⟨c, hc, he⟩
      · exact Nat.le_refl _
      · have hle : (label :: chain).length ≤ e.depth := ih c hc he
        rw [List.length_cons] at hle
        omega

/-! ## Reading the tree off its entries -/

/-- The trees with these entries that stand side by side below `depth` ancestors. -/
def grow (depth : Nat) : List (Entry α) → List (Tree α)
  | [] => []
  | e :: es =>
    .node e.label e.span (grow (depth + 1) (es.takeWhile fun d => depth < d.depth)) ::
      grow depth (es.dropWhile fun d => depth < d.depth)
termination_by es => es.length
decreasing_by
  · exact Nat.lt_succ_of_le (List.takeWhile_sublist _).length_le
  · exact Nat.lt_succ_of_le (List.dropWhile_sublist _).length_le

/-- Entries deeper than `depth` are cut off exactly in front of the next tree at that depth. -/
theorem cut_deeper {chain : List α} {deeper : List (Entry α)}
    (hdeeper : ∀ e ∈ deeper, chain.length < e.depth) (ts : List (Tree α)) :
    (deeper ++ ts.flatMap (entries chain)).takeWhile (fun e => chain.length < e.depth) = deeper ∧
      (deeper ++ ts.flatMap (entries chain)).dropWhile (fun e => chain.length < e.depth) =
        ts.flatMap (entries chain) := by
  have hall : ∀ e ∈ deeper, decide (chain.length < e.depth) = true := by simpa using hdeeper
  rw [List.takeWhile_append_of_pos hall, List.dropWhile_append_of_pos hall]
  cases ts with
  | nil => simp
  | cons t ts => simp [entries_eq chain t]

theorem grow_flatMap_entries {chain : List α} {ts : List (Tree α)}
    (h : ∀ t ∈ ts, grow (chain.length + 1) (t.children.flatMap (entries (t.label :: chain))) =
      t.children) :
    grow chain.length (ts.flatMap (entries chain)) = ts := by
  induction ts with
  | nil => rw [List.flatMap_nil, grow]
  | cons t ts ih =>
      obtain ⟨ht, hts⟩ := List.forall_mem_cons.mp h
      have hdeeper : ∀ e ∈ t.children.flatMap (entries (t.label :: chain)),
          chain.length < e.depth := by
        intro e he
        obtain ⟨c, -, hec⟩ := List.mem_flatMap.mp he
        exact le_depth_of_mem_entries hec
      obtain ⟨hbelow, hafter⟩ := cut_deeper hdeeper ts
      rw [List.flatMap_cons, entries_eq, List.cons_append, grow, hbelow, hafter, ih hts, ht]
      obtain ⟨label, span, children⟩ := t
      rfl

/-- The trees are found again from the entries of their nodes. -/
theorem grow_entries (t : Tree α) : grow 0 (t.entries []) = [t] := by
  have hall : ∀ (u : Tree α) (chain : List α),
      grow (chain.length + 1) (u.children.flatMap (entries (u.label :: chain))) = u.children := by
    intro u
    induction u with
    | node label span children ih =>
        intro chain
        exact @grow_flatMap_entries α (label :: chain) children fun c hc => ih c hc (label :: chain)
  have hgrow := @grow_flatMap_entries α [] [t] fun u _ => hall u []
  rwa [List.flatMap_singleton] at hgrow

/-! ## Entries by number -/

theorem length_visitsForest {chain : List α} {ts : List (Tree α)}
    (h : ∀ t ∈ ts, (t.visits chain).length = t.size) :
    (visitsForest chain ts).length = sizeForest ts := by
  induction ts with
  | nil => rfl
  | cons t ts ih =>
      obtain ⟨ht, hts⟩ := List.forall_mem_cons.mp h
      rw [visitsForest, List.length_append, ht, ih hts, sizeForest]

theorem length_visits (chain : List α) (t : Tree α) : (t.visits chain).length = t.size := by
  induction t generalizing chain with
  | node label span children ih =>
      rw [visits, List.length_cons, size, Nat.add_comm,
        length_visitsForest fun c hc => ih c hc (label :: chain)]

/-- Trees side by side have their visits where their numbers say. -/
theorem visits_of_mem_zip {all : List (List α × Tree α)} {chain : List α} {id j : Nat}
    {c : Tree α} {ts : List (Tree α)} (h : visitsForest chain ts <+: all.drop id)
    (hc : (j, c) ∈ (numbers id ts).zip ts) : c.visits chain <+: all.drop j := by
  induction ts generalizing id with
  | nil => simp [numbers] at hc
  | cons u us ih =>
      rw [visitsForest] at h
      rcases List.mem_cons.mp hc with heq | hc
      · obtain ⟨rfl, rfl⟩ := Prod.mk.inj heq
        exact (List.prefix_append _ _).trans h
      · apply ih ?_ hc
        obtain ⟨after, hafter⟩ := h
        refine ⟨after, ?_⟩
        rw [← List.drop_drop, ← hafter, ← length_visits chain u, List.append_assoc,
          List.drop_left]

theorem HasNode.visits_prefix {root t : Tree α} {i : Nat} {up : List Nat}
    (h : HasNode root i up t) :
    ∃ chain, chain.length = up.length ∧ t.visits chain <+: (root.visits []).drop i := by
  induction h with
  | root => exact ⟨[], rfl, List.prefix_rfl⟩
  | @child i j up t c _ hc ih =>
      obtain ⟨chain, hlength, after, hafter⟩ := ih
      refine ⟨t.label :: chain, by rw [List.length_cons, List.length_cons, hlength], ?_⟩
      refine visits_of_mem_zip ⟨after, ?_⟩ hc
      obtain ⟨label, span, children⟩ := t
      rw [← List.drop_drop, ← hafter]
      rfl

/-- The node with number `i` is the one at place `i` of the pre-order. -/
theorem HasNode.getElem?_visits {root t : Tree α} {i : Nat} {up : List Nat}
    (h : HasNode root i up t) :
    ∃ chain, chain.length = up.length ∧ (root.visits [])[i]? = some (chain, t) := by
  obtain ⟨chain, hlength, after, hafter⟩ := h.visits_prefix
  refine ⟨chain, hlength, ?_⟩
  have hhead := congrArg List.head? hafter
  rw [List.head?_drop] at hhead
  obtain ⟨label, span, children⟩ := t
  rw [← hhead]
  rfl

theorem HasNode.length_le {root t : Tree α} {i : Nat} {up : List Nat} (h : HasNode root i up t) :
    up.length ≤ i := by
  induction h with
  | root => exact Nat.le_refl 0
  | child _ hc ih =>
      have hlt := le_of_mem_numbers (List.of_mem_zip hc).1
      rw [List.length_cons]
      omega

end DiagramTint.Tree
