import DiagramTint.Highlights
import DiagramTint.Rule.Table
import DiagramTint.Text.Lines
import DiagramTint.Tree

/-!
# Painting a tree

A node has the tag that the rules give it, or else the tag of the nearest ancestor that has one. A
tagged node paints the bytes of its span that lie between its children, and the children paint
their own. The pieces are joined where they touch with the same tag, cut at the line ends and
turned into columns.

`Tree.pieces` says by recursion which pieces a tree gives; `Paint.walk` computes the same list with
an explicit stack, so that a deep tree needs no deep recursion.
-/

namespace DiagramTint

/-- Bytes to be painted with a tag. -/
structure Piece where
  span : Span
  tag : Tag
deriving DecidableEq, Inhabited

namespace Tree

variable {α : Type} (classify : α → List α → Option Tag) (limit : Nat)

mutual

/-- The pieces of a tree that stands below the ancestors `chain`, nearest first, the nearest tagged
one of which has the tag `inherited`. Spans are cut down to the first `limit` bytes. -/
def pieces (chain : List α) (inherited : Option Tag) : Tree α → List Piece
  | .node label span children =>
    match (classify label chain).or inherited with
    | none => piecesUntagged (label :: chain) children
    | some tag =>
      piecesBetween (label :: chain) tag (span.clamp limit).stop (span.clamp limit).start children

/-- The pieces of the children of a node without tag. -/
def piecesUntagged (chain : List α) : List (Tree α) → List Piece
  | [] => []
  | t :: ts => pieces chain none t ++ piecesUntagged chain ts

/-- The pieces of the children of a node with a tag that ends at `stop`, and before, between and
after them the pieces of the node itself, which is painted up to `cursor`. -/
def piecesBetween (chain : List α) (tag : Tag) (stop cursor : Nat) : List (Tree α) → List Piece
  | [] => [⟨⟨cursor, stop⟩, tag⟩]
  | t :: ts =>
    ⟨⟨cursor, min (t.span.clamp limit).start stop⟩, tag⟩ :: pieces chain (some tag) t ++
      piecesBetween chain tag stop (max cursor (min (t.span.clamp limit).stop stop)) ts

end

mutual

/-- The number of steps it takes to walk over a tree. -/
def steps : Tree α → Nat
  | .node _ _ children => stepsForest children + 2

def stepsForest : List (Tree α) → Nat
  | [] => 0
  | t :: ts => steps t + 1 + stepsForest ts

end

end Tree

namespace Paint

variable {α : Type} (classify : α → List α → Option Tag) (limit : Nat)

/-- What is left to do in a walk: visit a node below its ancestors, or paint a piece. -/
inductive Step (α : Type) where
  | enter (chain : List α) (inherited : Option Tag) (tree : Tree α)
  | fill (piece : Piece)

/-- The steps for the children of a tagged node and for the gaps around them. -/
def stepsBetween (chain : List α) (tag : Tag) (stop cursor : Nat) : List (Tree α) → List (Step α)
  | [] => [.fill ⟨⟨cursor, stop⟩, tag⟩]
  | t :: ts =>
    .fill ⟨⟨cursor, min (t.span.clamp limit).start stop⟩, tag⟩ :: .enter chain (some tag) t ::
      stepsBetween chain tag stop (max cursor (min (t.span.clamp limit).stop stop)) ts

/-- The steps that take the place of a visit. -/
def expand (chain : List α) (inherited : Option Tag) (t : Tree α) : List (Step α) :=
  match (classify t.label chain).or inherited with
  | none => t.children.map (.enter (t.label :: chain) none)
  | some tag =>
    stepsBetween limit (t.label :: chain) tag (t.span.clamp limit).stop (t.span.clamp limit).start
      t.children

/-- The number of steps that a stack still stands for. -/
def cost : List (Step α) → Nat
  | [] => 0
  | .enter _ _ t :: rest => t.steps + cost rest
  | .fill _ :: rest => cost rest + 1

theorem cost_append (xs ys : List (Step α)) : cost (xs ++ ys) = cost xs + cost ys := by
  induction xs with
  | nil => simp [cost]
  | cons x xs ih => cases x <;> simp [cost, ih] <;> omega

theorem cost_map_enter (chain : List α) (inherited : Option Tag) (ts : List (Tree α)) :
    cost (ts.map (Step.enter chain inherited)) ≤ Tree.stepsForest ts := by
  induction ts with
  | nil => simp [cost, Tree.stepsForest]
  | cons t ts ih => simp only [List.map_cons, cost, Tree.stepsForest]; omega

theorem cost_stepsBetween (chain : List α) (tag : Tag) (stop cursor : Nat) (ts : List (Tree α)) :
    cost (stepsBetween limit chain tag stop cursor ts) = Tree.stepsForest ts + 1 := by
  induction ts generalizing cursor with
  | nil => simp [stepsBetween, cost, Tree.stepsForest]
  | cons t ts ih => simp only [stepsBetween, cost, ih, Tree.stepsForest]; omega

theorem cost_expand_lt (chain : List α) (inherited : Option Tag) (t : Tree α) :
    cost (expand classify limit chain inherited t) < t.steps := by
  obtain ⟨label, span, children⟩ := t
  unfold expand
  split
  · have := cost_map_enter (label :: chain) none children
    simp only [Tree.label, Tree.children, Tree.steps]
    omega
  · simp only [Tree.label, Tree.span, Tree.children, cost_stepsBetween, Tree.steps]
    omega

/-- The pieces of a stack of steps, taken from the top. -/
def walk : List (Step α) → List Piece
  | [] => []
  | .fill piece :: rest => piece :: walk rest
  | .enter chain inherited t :: rest => walk (expand classify limit chain inherited t ++ rest)
termination_by stack => cost stack
decreasing_by
  · simp [cost]
  · simp only [cost_append, cost]
    have := cost_expand_lt classify limit chain inherited t
    omega

/-- Adds a piece after the pieces `done`, the latest of which comes first. An empty piece is
dropped, and one that continues the latest piece with the same tag extends it. -/
def join (done : List Piece) (p : Piece) : List Piece :=
  if p.span.stop ≤ p.span.start then done
  else
    match done with
    | [] => [p]
    | last :: rest =>
      if last.tag = p.tag ∧ last.span.stop = p.span.start then
        ⟨⟨last.span.start, p.span.stop⟩, p.tag⟩ :: rest
      else p :: last :: rest

/-- The pieces with empty ones dropped and touching ones of the same tag joined. -/
def joinAll (pieces : List Piece) : List Piece :=
  (pieces.foldl join []).reverse

/-- The highlights of a piece: its columns on every row from its first to its last, where a row
without any is left out. -/
def rowsOf (rows : List Text.Line) (p : Piece) : List (Nat × Highlight) :=
  let top := Text.rowOf rows p.span.start
  let bottom := Text.rowOf rows p.span.stop
  ((List.range (bottom + 1 - top)).map fun k =>
    let row := top + k
    let line := rows[row]?.getD default
    let first := if row = top then line.column p.span.start else 0
    let stop := if row = bottom then line.column p.span.stop else line.chars.length
    (row, (⟨first, stop, p.tag⟩ : Highlight))).filter fun entry => entry.2.first < entry.2.stop

/-- The highlights of row `row`, in order; highlights with the same columns keep theirs. -/
def lineOf (items : List (Nat × Highlight)) (row : Nat) : List Highlight :=
  ((items.filter fun entry => entry.1 = row).map Prod.snd).mergeSort Highlight.before

/-- The rows that have highlights, out of `count` rows. -/
def linesOf (items : List (Nat × Highlight)) (count : Nat) : List (Nat × List Highlight) :=
  ((List.range count).map fun row => (row, lineOf items row)).filter fun entry =>
    !entry.2.isEmpty

end Paint

/-- The highlights that a rule table gives to the tree of a source. -/
def paint (language : String) (table : RuleTable) (source : List Char) (tree : Tree String) :
    Highlights :=
  let rows := Text.lines source
  let pieces := Paint.walk table.resolve (Text.byteLength source) [.enter [] none tree]
  let items := (Paint.joinAll pieces).flatMap (Paint.rowsOf rows)
  ⟨language, Paint.linesOf items rows.length⟩

end DiagramTint
