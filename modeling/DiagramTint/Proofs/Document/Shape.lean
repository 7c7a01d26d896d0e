import DiagramTint.Proofs.Document.Ledger

/-!
# The shape of documents

The root of a document has comments, errors and statements as children, and the parts of a statement
are leaves.
-/

namespace DiagramTint

namespace Document

/-- The children of the root: comments, errors, and statements whose parts are leaves.  A keyword is
part of an alias only. -/
inductive Formed : Tree Kind → Prop where
  | comment {span : Span} : Formed (.leaf .lineComment span)
  | stray {span : Span} : Formed (.leaf .error span)
  | declaration {span : Span} {parts : List (Tree Kind)} (hne : parts ≠ [])
      (hparts : ∀ c ∈ parts, c.children = []) : Formed (.node .alias span parts)
  | message {span : Span} {parts : List (Tree Kind)} (hne : parts ≠ [])
      (hparts : ∀ c ∈ parts, c.children = []) (hlabels : ∀ c ∈ parts, c.label ≠ .aliasKeyword) :
      Formed (.node .message span parts)

theorem Completes.forall_parts {Q : Tree Kind → Prop} {s : Statement} {last : Nat}
    {ts : List Token} {o : Output} (h : Completes s last ts o)
    (hleaf : ∀ kind span, kind ≠ .aliasKeyword → Q (.leaf kind span)) (hne : s.parts ≠ [])
    (hparts : ∀ c ∈ s.parts, Q c) :
    ∀ n ∈ o.nodes, ∃ span parts, n = .node s.kind span parts ∧ parts ≠ [] ∧ ∀ c ∈ parts, Q c := by
  induction h with
  | @stops s last =>
      intro n hn
      rw [List.mem_singleton.mp hn]
      exact ⟨_, _, rfl, hne, hparts⟩
  | @semicolon s last t hkind =>
      intro n hn
      rw [List.mem_singleton.mp hn]
      exact ⟨_, _, rfl, hne, hparts⟩
  | @takes s last t ts o r htakes hrest ih =>
      have hne' : (taken s t r).parts ≠ [] := by
        simp [taken, hne]
      refine ih hne' ?_
      intro c hc
      rcases List.mem_append.mp hc with hc | hc
      · exact hparts c hc
      · obtain ⟨kind, hkind, rfl⟩ := List.mem_map.mp hc
        apply hleaf
        intro hkeyword
        have hnode : r.node = some kind := Option.mem_toList.mp hkind
        exact (Stage.moves_of_takes htakes).ne_keyword (hnode.trans (congrArg some hkeyword))

theorem Chunk.formed {ts : List Token} {o : Output} (h : Chunk ts o) : ∀ n ∈ o.nodes, Formed n := by
  cases h with
  | comment hkind =>
      intro n hn
      rw [List.mem_singleton.mp hn]
      exact .comment
  | empty hkind => simp
  | stray hkind =>
      intro n hn
      rw [List.mem_singleton.mp hn]
      exact .stray
  | declaration hkind hrest =>
      intro n hn
      obtain ⟨span, parts, rfl, hne, hparts⟩ := hrest.forall_parts (Q := fun c => c.children = [])
        (fun _ _ _ => rfl) (List.cons_ne_nil _ _) (by simp [Tree.leaf, Tree.children]) n hn
      exact .declaration hne hparts
  | message hkind hrest =>
      intro n hn
      obtain ⟨span, parts, rfl, hne, hparts⟩ :=
        hrest.forall_parts (Q := fun c => c.children = [] ∧ c.label ≠ .aliasKeyword)
          (fun _ _ hlabel => ⟨rfl, hlabel⟩) (List.cons_ne_nil _ _)
          (by simp [Tree.leaf, Tree.children, Tree.label]) n hn
      exact .message hne (fun c hc => (hparts c hc).1) fun c hc => (hparts c hc).2

theorem Divides.formed {ts : List Token} {o : Output} (h : Divides ts o) :
    ∀ n ∈ o.nodes, Formed n := by
  induction h with
  | nil => simp
  | cons hchunk hrest ih =>
      intro n hn
      rcases List.mem_append.mp hn with hn | hn
      · exact hchunk.formed n hn
      · exact ih n hn

theorem formed_of_mem_children {source : List Char} {n : Tree Kind}
    (h : n ∈ (parse source).tree.children) : Formed n :=
  (divides_run (tokenize source)).formed n h

theorem Formed.leaves {n : Tree Kind} (h : Formed n) : ∀ c ∈ n.children, c.children = [] := by
  cases h with
  | comment => simp [Tree.leaf, Tree.children]
  | stray => simp [Tree.leaf, Tree.children]
  | declaration hne hparts => exact hparts
  | message hne hparts hlabels => exact hparts

theorem Formed.preorder_eq {n : Tree Kind} (h : Formed n) : n.preorder = n :: n.children := by
  have hleaves := h.leaves
  obtain ⟨label, span, children⟩ := n
  have hbelow : children.flatMap Tree.preorder = children := by
    calc
      _ = children.flatMap fun c => [c] := List.flatMap_congr fun c hc => by
        obtain ⟨label, span, below⟩ := c
        obtain rfl : below = [] := hleaves _ hc
        simp
      _ = children := List.flatMap_singleton' children
  rw [Tree.preorder_node, hbelow]
  rfl

theorem Formed.label_ne_string {n : Tree Kind} (h : Formed n) : n.label ≠ .string := by
  cases h <;> simp [Tree.leaf, Tree.label]

/-- A node with children is no text. -/
theorem Formed.children_eq_nil {n c : Tree Kind} (h : Formed n) (hc : c ∈ n.preorder)
    (hlabel : c.label = .string) : c.children = [] := by
  rw [h.preorder_eq, List.mem_cons] at hc
  rcases hc with rfl | hc
  · exact absurd hlabel h.label_ne_string
  · exact h.leaves c hc

end Document

end DiagramTint
