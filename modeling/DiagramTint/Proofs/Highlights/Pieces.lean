import DiagramTint.Highlights.Paint
import DiagramTint.Proofs.Tree.Nesting

/-!
# The pieces of a tree

The walk with an explicit stack gives the pieces of the recursion over the tree.  In a well-nested
tree these paint each byte with the tag of the innermost node around it, which is the node's own tag
or else the tag of the nearest ancestor that has one.
-/

namespace DiagramTint

theorem Span.contains_clamp {s : Span} {limit byte : Nat} (h : byte < limit) :
    (s.clamp limit).Contains byte ↔ s.Contains byte := by
  simp only [Span.Contains, Span.clamp]
  omega

/-- Some piece of a list paints a byte with a tag. -/
def Paints (pieces : List Piece) (byte : Nat) (tag : Tag) : Prop :=
  ∃ p ∈ pieces, p.span.Contains byte ∧ p.tag = tag

@[simp]
theorem paints_nil (byte : Nat) (tag : Tag) : ¬ Paints [] byte tag := by
  simp [Paints]

@[simp]
theorem paints_cons {p : Piece} {ps : List Piece} {byte : Nat} {tag : Tag} :
    Paints (p :: ps) byte tag ↔ (p.span.Contains byte ∧ p.tag = tag) ∨ Paints ps byte tag := by
  simp [Paints]

@[simp]
theorem paints_append {ps qs : List Piece} {byte : Nat} {tag : Tag} :
    Paints (ps ++ qs) byte tag ↔ Paints ps byte tag ∨ Paints qs byte tag := by
  simp only [Paints, List.mem_append, or_and_right, exists_or]

variable {α : Type} (classify : α → List α → Option Tag) (limit : Nat)

/-! ## The stack stands for the recursion -/

namespace Paint

/-- The pieces that a step still owes. -/
def Step.pieces : Step α → List Piece
  | .enter chain inherited t => t.pieces classify limit chain inherited
  | .fill piece => [piece]

theorem flatMap_enter (chain : List α) (ts : List (Tree α)) :
    (ts.map (Step.enter chain none)).flatMap (Step.pieces classify limit) =
      Tree.piecesUntagged classify limit chain ts := by
  induction ts with
  | nil => rw [List.map_nil, List.flatMap_nil, Tree.piecesUntagged]
  | cons t ts ih =>
      rw [List.map_cons, List.flatMap_cons, ih, Step.pieces, Tree.piecesUntagged]

theorem flatMap_stepsBetween (chain : List α) (tag : Tag) (stop cursor : Nat)
    (ts : List (Tree α)) :
    (stepsBetween limit chain tag stop cursor ts).flatMap (Step.pieces classify limit) =
      Tree.piecesBetween classify limit chain tag stop cursor ts := by
  induction ts generalizing cursor with
  | nil => rw [stepsBetween, Tree.piecesBetween]; rfl
  | cons t ts ih =>
      rw [stepsBetween, List.flatMap_cons, List.flatMap_cons, ih, Tree.piecesBetween]
      simp only [Step.pieces, List.cons_append, List.nil_append]

theorem flatMap_expand (chain : List α) (inherited : Option Tag) (t : Tree α) :
    (expand classify limit chain inherited t).flatMap (Step.pieces classify limit) =
      t.pieces classify limit chain inherited := by
  obtain ⟨label, span, children⟩ := t
  rw [Tree.pieces, expand]
  simp only [Tree.label, Tree.span, Tree.children]
  cases (classify label chain).or inherited with
  | none => exact flatMap_enter classify limit _ _
  | some tag => exact flatMap_stepsBetween classify limit _ _ _ _ _

/-- A walk gives what its stack owes, from the top down. -/
theorem walk_eq_flatMap (stack : List (Step α)) :
    walk classify limit stack = stack.flatMap (Step.pieces classify limit) := by
  induction stack using walk.induct classify limit with
  | case1 => rw [walk, List.flatMap_nil]
  | case2 piece rest ih => rw [walk, ih, List.flatMap_cons, Step.pieces, List.singleton_append]
  | case3 chain inherited t rest ih =>
      rw [walk, ih, List.flatMap_append, flatMap_expand, List.flatMap_cons, Step.pieces]

theorem walk_enter (chain : List α) (inherited : Option Tag) (t : Tree α) :
    walk classify limit [.enter chain inherited t] = t.pieces classify limit chain inherited := by
  rw [walk_eq_flatMap, List.flatMap_cons, List.flatMap_nil, List.append_nil, Step.pieces]

end Paint

/-! ## What the pieces paint -/

namespace Tree

/-- The tag of a node, given by its label and those of its ancestors, nearest first: its own, or
else that of the nearest ancestor that has one. -/
def effectiveTag : List α → Option Tag
  | [] => none
  | label :: chain => (classify label chain).or (effectiveTag chain)

theorem paints_piecesUntagged {chain : List α} {ts : List (Tree α)} {byte : Nat} {tag : Tag} :
    Paints (piecesUntagged classify limit chain ts) byte tag ↔
      ∃ t ∈ ts, Paints (t.pieces classify limit chain none) byte tag := by
  induction ts with
  | nil => simp [piecesUntagged]
  | cons t ts ih => simp [piecesUntagged, ih]

/-- A byte that a first child and its siblings leave free lies in the gap before that child or
behind the cursor after it. -/
theorem uncovered_cons_iff {t : Tree α} {ts : List (Tree α)} {limit stop cursor byte : Nat}
    (hbyte : byte < limit) (hfirst : ∀ u ∈ ts, t.span.start ≤ u.span.start) :
    ((⟨cursor, min (t.span.clamp limit).start stop⟩ : Span).Contains byte ∨
        (max cursor (min (t.span.clamp limit).stop stop) ≤ byte ∧ byte < stop ∧
          ∀ u ∈ ts, ¬ u.span.Contains byte)) ↔
      cursor ≤ byte ∧ byte < stop ∧ ∀ u ∈ t :: ts, ¬ u.span.Contains byte := by
  simp only [Span.Contains, Span.clamp, List.mem_cons, forall_eq_or_imp]
  constructor
  · rintro (hbefore | ⟨hafter, hstop, hnone⟩)
    · -- Left of the first child no later child has started either.
      refine ⟨hbefore.1, by omega, by omega, fun u hu hin => ?_⟩
      have hle := hfirst u hu
      omega
    · exact ⟨by omega, hstop, by omega, hnone⟩
  · rintro ⟨hcursor, hstop, hfree, hnone⟩
    by_cases hbefore : byte < t.span.start
    · exact Or.inl (by omega)
    · exact Or.inr ⟨by omega, hstop, hnone⟩

/-- A tagged node paints what its children leave free, also where these overlap one another or
stick out of it. -/
theorem paints_piecesBetween {chain : List α} {own tag : Tag} {stop cursor byte : Nat}
    {ts : List (Tree α)} (hbyte : byte < limit)
    (hsorted : ts.Pairwise fun a b => a.span.start ≤ b.span.start) :
    Paints (piecesBetween classify limit chain own stop cursor ts) byte tag ↔
      (∃ t ∈ ts, Paints (t.pieces classify limit chain (some own)) byte tag) ∨
        (cursor ≤ byte ∧ byte < stop ∧ (∀ t ∈ ts, ¬ t.span.Contains byte) ∧ own = tag) := by
  induction ts generalizing cursor with
  | nil => simp [piecesBetween, Span.Contains, and_assoc]
  | cons t ts ih =>
      obtain ⟨hfirst, hrest⟩ := List.pairwise_cons.mp hsorted
      have hgap := @uncovered_cons_iff _ t ts limit stop cursor byte hbyte hfirst
      rw [piecesBetween, List.cons_append, paints_cons, paints_append,
        ih hrest, List.exists_mem_cons_iff]
      constructor
      · rintro (⟨hin, hown⟩ | hchild | hrest | ⟨hcursor, hstop, hnone, hown⟩)
        · obtain ⟨hcursor, hstop, hnone⟩ := hgap.mp (Or.inl hin)
          exact Or.inr ⟨hcursor, hstop, hnone, hown⟩
        · exact Or.inl (Or.inl hchild)
        · exact Or.inl (Or.inr hrest)
        · obtain ⟨hcursor, hstop, hnone⟩ := hgap.mp (Or.inr ⟨hcursor, hstop, hnone⟩)
          exact Or.inr ⟨hcursor, hstop, hnone, hown⟩
      · rintro ((hchild | hrest) | ⟨hcursor, hstop, hnone, hown⟩)
        · exact Or.inr (Or.inl hchild)
        · exact Or.inr (Or.inr (Or.inl hrest))
        · rcases hgap.mpr ⟨hcursor, hstop, hnone⟩ with hin | hlater
          · exact Or.inl ⟨hin, hown⟩
          · exact Or.inr (Or.inr (Or.inr ⟨hlater.1, hlater.2.1, hlater.2.2, hown⟩))

/-- A byte has the effective tag of the innermost node around it and no other. -/
theorem WellNested.paints_pieces_iff {t : Tree α} {chain : List α} {byte : Nat} {tag : Tag}
    (h : t.WellNested) (hbyte : byte < limit) :
    Paints (t.pieces classify limit chain (effectiveTag classify chain)) byte tag ↔
      ∃ v, t.IsInnermost chain byte v ∧ effectiveTag classify (v.2.label :: v.1) = some tag := by
  induction t generalizing chain with
  | node label span children ih =>
      obtain ⟨hnode, hbelow⟩ := wellNested_node.mp h
      have hchildren : ∀ inherited, effectiveTag classify (label :: chain) = inherited →
          ((∃ c ∈ children, Paints (c.pieces classify limit (label :: chain) inherited) byte tag) ↔
            ∃ c ∈ children, ∃ v, c.IsInnermost (label :: chain) byte v ∧
              effectiveTag classify (v.2.label :: v.1) = some tag) := by
        rintro inherited rfl
        exact exists_congr fun c => and_congr_right fun hc => ih c hc (hbelow c hc)
      rw [pieces]
      cases heff : (classify label chain).or (effectiveTag classify chain) with
      | none =>
          rw [paints_piecesUntagged, hchildren none heff]
          constructor
          · rintro ⟨c, hc, v, hv, htag⟩
            exact ⟨v, isInnermost_node.mpr (Or.inr ⟨c, hc, hv⟩), htag⟩
          · rintro ⟨v, hv, htag⟩
            rcases isInnermost_node.mp hv with ⟨rfl, -, -⟩ | ⟨c, hc, hvc⟩
            · exact absurd (heff.symm.trans htag) (by simp)
            · exact ⟨c, hc, v, hvc, htag⟩
      | some own =>
          have hsorted : children.Pairwise fun a b => a.span.start ≤ b.span.start :=
            hnode.apart.imp fun hab => hab.1
          simp only
          rw [paints_piecesBetween classify limit hbyte hsorted, hchildren (some own) heff]
          constructor
          · rintro (⟨c, hc, v, hv, htag⟩ | ⟨hstart, hstop, hnone, rfl⟩)
            · exact ⟨v, isInnermost_node.mpr (Or.inr ⟨c, hc, hv⟩), htag⟩
            · have hin : span.Contains byte := (Span.contains_clamp hbyte).mp ⟨hstart, hstop⟩
              have hfree := (uncovered_iff hbelow).mpr hnone
              exact ⟨_, isInnermost_node.mpr (Or.inl ⟨rfl, hin, hfree⟩), heff⟩
          · rintro ⟨v, hv, htag⟩
            rcases isInnermost_node.mp hv with ⟨rfl, hin, hnone⟩ | ⟨c, hc, hvc⟩
            · obtain ⟨hstart, hstop⟩ := (Span.contains_clamp hbyte).mpr hin
              have hown : own = tag := Option.some.inj (heff.symm.trans htag)
              exact Or.inr ⟨hstart, hstop, (uncovered_iff hbelow).mp hnone, hown⟩
            · exact Or.inl ⟨c, hc, v, hvc, htag⟩

end Tree

end DiagramTint
