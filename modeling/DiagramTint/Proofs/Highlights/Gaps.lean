import DiagramTint.Proofs.Highlights.Tiling

/-!
# The gaps between children

What a tagged node paints itself are the gaps that its children leave.  This needs no well-nested
tree: as long as the children are sorted by their starts, they may overlap one another, lie inside
one another, be empty or stick out of the node.
-/

namespace DiagramTint

theorem Span.clamp_ordered {s : Span} (h : s.start ≤ s.stop) (limit : Nat) :
    (s.clamp limit).start ≤ (s.clamp limit).stop := by
  simp only [Span.clamp]
  omega

namespace Paint

variable {α : Type}

/-- The piece that a step paints, if it is no visit. -/
def Step.piece? : Step α → Option Piece
  | .enter _ _ _ => none
  | .fill piece => some piece

/-- The pieces that the steps of a list paint before any visit is taken apart. -/
def fills (steps : List (Step α)) : List Piece :=
  steps.filterMap Step.piece?

/-- What a node that is visited below the ancestors `chain` paints itself, empty pieces left out. -/
def ownPieces (classify : α → List α → Option Tag) (limit : Nat) (chain : List α)
    (inherited : Option Tag) (t : Tree α) : List Piece :=
  (fills (expand classify limit chain inherited t)).filter fun p => p.span.start < p.span.stop

section Between

variable {limit stop cursor : Nat} {chain : List α} {tag : Tag} {ts : List (Tree α)}

@[simp]
theorem fills_stepsBetween_nil :
    fills (stepsBetween limit chain tag stop cursor ([] : List (Tree α))) =
      [⟨⟨cursor, stop⟩, tag⟩] := rfl

@[simp]
theorem fills_stepsBetween_cons (t : Tree α) :
    fills (stepsBetween limit chain tag stop cursor (t :: ts)) =
      ⟨⟨cursor, min (t.span.clamp limit).start stop⟩, tag⟩ ::
        fills (stepsBetween limit chain tag stop
          (max cursor (min (t.span.clamp limit).stop stop)) ts) := rfl

theorem tag_of_mem_fills {p : Piece}
    (hp : p ∈ fills (stepsBetween limit chain tag stop cursor ts)) : p.tag = tag := by
  induction ts generalizing cursor with
  | nil =>
      rw [fills_stepsBetween_nil, List.mem_singleton] at hp
      rw [hp]
  | cons t ts ih =>
      rw [fills_stepsBetween_cons] at hp
      rcases List.mem_cons.mp hp with rfl | hp
      · rfl
      · exact ih hp

/-- The gaps follow one another: a child ends no earlier than it starts, so the cursor moves past
the gap before it. -/
theorem inOrder_fills (hcursor : cursor ≤ stop) (hts : ∀ t ∈ ts, t.span.start ≤ t.span.stop) :
    InOrder (fun _ => True) cursor stop (fills (stepsBetween limit chain tag stop cursor ts)) := by
  induction ts generalizing cursor with
  | nil =>
      have hgap := @inOrder_gap (fun _ => True) cursor stop tag trivial trivial
      rwa [Nat.max_eq_right hcursor] at hgap
  | cons t ts ih =>
      obtain ⟨ht, hts⟩ := List.forall_mem_cons.mp hts
      have hclamp := Span.clamp_ordered ht limit
      have hgap := @inOrder_gap (fun _ => True) cursor (min (t.span.clamp limit).start stop) tag
        trivial trivial
      have hnext : max cursor (min (t.span.clamp limit).stop stop) ≤ stop := by omega
      have hend : max cursor (min (t.span.clamp limit).start stop) ≤ stop := by omega
      have hrest := (ih hnext hts).behind _ fun _ =>
        show max cursor (min (t.span.clamp limit).start stop) ≤ _ by omega
      rw [Nat.max_eq_right hend] at hrest
      rw [fills_stepsBetween_cons]
      exact hgap.append hrest

/-- The gaps hold the bytes that no child has. -/
theorem exists_mem_fills_iff {byte : Nat} (hbyte : byte < limit)
    (hsorted : ts.Pairwise fun a b => a.span.start ≤ b.span.start) :
    (∃ p ∈ fills (stepsBetween limit chain tag stop cursor ts), p.span.Contains byte) ↔
      cursor ≤ byte ∧ byte < stop ∧ ∀ t ∈ ts, ¬ t.span.Contains byte := by
  induction ts generalizing cursor with
  | nil => simp [Span.Contains]
  | cons t ts ih =>
      obtain ⟨hfirst, hrest⟩ := List.pairwise_cons.mp hsorted
      rw [fills_stepsBetween_cons, List.exists_mem_cons_iff, ih hrest]
      exact Tree.uncovered_cons_iff hbyte hfirst

end Between

section Own

variable {classify : α → List α → Option Tag} {limit : Nat} {chain : List α}
  {inherited : Option Tag} {t : Tree α} {tag : Tag}

theorem fills_expand (htag : (classify t.label chain).or inherited = some tag) :
    fills (expand classify limit chain inherited t) =
      fills (stepsBetween limit (t.label :: chain) tag (t.span.clamp limit).stop
        (t.span.clamp limit).start t.children) := by
  rw [expand, htag]

theorem laidOut_ownPieces (htag : (classify t.label chain).or inherited = some tag)
    (hordered : t.span.start ≤ t.span.stop)
    (hchildren : ∀ c ∈ t.children, c.span.start ≤ c.span.stop) :
    LaidOut (fun _ => True) (t.span.clamp limit).start (t.span.clamp limit).stop
      ((ownPieces classify limit chain inherited t).map Piece.span) := by
  rw [ownPieces, fills_expand htag]
  exact inOrder_fills (Span.clamp_ordered hordered limit) hchildren

/-- A piece without bytes contains none, so leaving it out uncovers nothing. -/
theorem exists_mem_ownPieces_iff {byte : Nat} :
    (∃ p ∈ ownPieces classify limit chain inherited t, p.span.Contains byte) ↔
      ∃ p ∈ fills (expand classify limit chain inherited t), p.span.Contains byte := by
  constructor
  · rintro ⟨p, hp, hin⟩
    exact ⟨p, (List.mem_filter.mp hp).1, hin⟩
  · rintro ⟨p, hp, hin⟩
    have hlt : p.span.start < p.span.stop := Nat.lt_of_le_of_lt hin.1 hin.2
    exact ⟨p, List.mem_filter.mpr ⟨hp, by simpa using hlt⟩, hin⟩

theorem contains_ownPieces_iff (htag : (classify t.label chain).or inherited = some tag)
    (hordered : t.span.start ≤ t.span.stop)
    (hchildren : ∀ c ∈ t.children, c.span.start ≤ c.span.stop)
    (hsorted : t.children.Pairwise fun a b => a.span.start ≤ b.span.start) (byte : Nat) :
    (∃ p ∈ ownPieces classify limit chain inherited t, p.span.Contains byte) ↔
      (t.span.clamp limit).Contains byte ∧
        ∀ c ∈ t.children, ¬ (c.span.clamp limit).Contains byte := by
  by_cases hbyte : byte < limit
  · rw [exists_mem_ownPieces_iff, fills_expand htag, exists_mem_fills_iff hbyte hsorted,
      ← and_assoc]
    refine and_congr Iff.rfl (forall₂_congr fun c _ => ?_)
    rw [Span.contains_clamp hbyte]
  · -- Behind the source there is neither a piece nor a byte of the clamped span.
    have hstop : (t.span.clamp limit).stop ≤ limit := Nat.min_le_right _ _
    constructor
    · rintro ⟨p, hp, hin⟩
      have hall := @laidOut_ownPieces _ _ limit _ _ _ _ htag hordered hchildren
      have hend := (hall.of_mem (List.mem_map_of_mem hp)).2
      have hlast := hin.2
      omega
    · rintro ⟨hin, -⟩
      have hlast := hin.2
      omega

end Own

/-- What a tagged node paints itself has its tag, ascends without overlaps, and covers exactly the
bytes of the node inside the source that belong to none of its children. -/
theorem ownPieces_cover_gaps (table : RuleTable) (source : List Char) (chain : List String)
    (inherited : Option Tag) (t : Tree String) (tag : Tag)
    (htag : (table.resolve t.label chain).or inherited = some tag)
    (hordered : t.span.start ≤ t.span.stop)
    (hchildren : ∀ c ∈ t.children, c.span.start ≤ c.span.stop)
    (hsorted : t.children.Pairwise fun a b => a.span.start ≤ b.span.start) :
    let limit := Text.byteLength source
    let own := ownPieces table.resolve limit chain inherited t
    (∀ p ∈ own, p.tag = tag ∧ p.span.start < p.span.stop) ∧
      (own.Pairwise fun p q => p.span.stop ≤ q.span.start) ∧
      ∀ byte, (∃ p ∈ own, p.span.Contains byte) ↔
        (t.span.clamp limit).Contains byte ∧
          ∀ c ∈ t.children, ¬ (c.span.clamp limit).Contains byte := by
  intro limit own
  refine ⟨?_, ?_, contains_ownPieces_iff htag hordered hchildren hsorted⟩
  · intro p hp
    obtain ⟨hp, hlt⟩ := List.mem_filter.mp hp
    rw [fills_expand htag] at hp
    exact ⟨tag_of_mem_fills hp, by simpa using hlt⟩
  · exact List.pairwise_map.mp (laidOut_ownPieces htag hordered hchildren).pairwise

/-- A node that ends behind a source of twelve bytes. Its children stick out on both sides, and
between them one lies inside another, two overlap and one is empty. -/
def crowdedTree : Tree String :=
  .node "Message" ⟨2, 14⟩ [.node "Name" ⟨1, 3⟩ [], .node "Text" ⟨4, 8⟩ [], .node "Name" ⟨5, 6⟩ [],
    .node "Text" ⟨7, 9⟩ [], .node "Name" ⟨10, 10⟩ [], .node "Text" ⟨11, 20⟩ []]

def crowdedTable : RuleTable :=
  RuleTable.build [⟨⟨"Message", []⟩, .keyword⟩]

example : ownPieces crowdedTable.resolve 12 ["Document"] (some .comment) crowdedTree =
    [⟨⟨3, 4⟩, .keyword⟩, ⟨⟨9, 10⟩, .keyword⟩, ⟨⟨10, 11⟩, .keyword⟩] := by
  decide

theorem crowdedTree_ownPieces_cover_gaps :
    let own := ownPieces crowdedTable.resolve 12 ["Document"] (some .comment) crowdedTree
    (crowdedTable.resolve crowdedTree.label ["Document"]).or (some .comment) = some .keyword ∧
      (own.Pairwise fun p q => p.span.stop ≤ q.span.start) ∧
      ∀ byte, (∃ p ∈ own, p.span.Contains byte) ↔
        (crowdedTree.span.clamp 12).Contains byte ∧
          ∀ c ∈ crowdedTree.children, ¬ (c.span.clamp 12).Contains byte := by
  have htag : (crowdedTable.resolve crowdedTree.label ["Document"]).or (some .comment) =
      some .keyword := by
    decide
  have hall := ownPieces_cover_gaps crowdedTable "a ->> b: cde".toList ["Document"]
    (some .comment) crowdedTree .keyword htag (by decide) (by decide) (by decide)
  exact ⟨htag, hall.2⟩

end Paint

end DiagramTint
