import DiagramTint.Document

/-!
# What a token does

While a statement is open, a token either extends it or ends it.  These are the only facts about
`advance` that later proofs need: a comment is taken at every stage like any token that fits, and a
token that does not fit is read again after the statement, unless it is a semicolon.
-/

namespace DiagramTint

/-- The reaction of a stage to a token, comments included: these are kept and leave the stage. -/
def Stage.takes (stage : Stage) (kind : TokenKind) : Option Stage.Reaction :=
  if kind = .lineComment then some { node := some .lineComment, next := stage }
  else stage.react kind

theorem Stage.takes_comment (stage : Stage) :
    stage.takes .lineComment = some { node := some .lineComment, next := stage } := rfl

theorem Stage.takes_of_ne {kind : TokenKind} (h : kind ≠ .lineComment) (stage : Stage) :
    stage.takes kind = stage.react kind :=
  if_neg h

/-- The nodes that statements make of tokens that fit. -/
theorem Stage.react_node {stage : Stage} {kind : TokenKind} {r : Stage.Reaction}
    (h : stage.react kind = some r) : ∀ k ∈ r.node, k = .identifier ∨ k = .string ∨ k = .arrow := by
  unfold Stage.react at h
  split at h <;> simp only [Option.some.injEq, reduceCtorEq] at h <;> subst h <;>
    simp [Stage.takeString]

theorem Stage.takes_node_ne_error {stage : Stage} {kind : TokenKind} {r : Stage.Reaction}
    (h : stage.takes kind = some r) : ∀ k ∈ r.node, k ≠ .error := by
  intro k hk
  by_cases hcomment : kind = .lineComment
  · rw [hcomment, takes_comment, Option.some.injEq] at h
    subst h
    cases hk
    simp
  · rw [takes_of_ne hcomment] at h
    rcases react_node h k hk with rfl | rfl | rfl <;> simp

namespace Document

/-- A statement that has taken a token. -/
def taken (s : Statement) (t : Token) (r : Stage.Reaction) : Statement :=
  { s with
    stage := r.next
    parts := s.parts ++ r.node.toList.map fun kind => .leaf kind t.span }

theorem advance_takes {s : Statement} {t : Token} {r : Stage.Reaction}
    (h : s.stage.takes t.kind = some r) (last : Nat) :
    advance last s t =
      ({ diagnostics := r.fault.toList.map fun fault => ⟨fault, t.span⟩ },
        { last := t.span.stop, current := some (taken s t r) }) := by
  by_cases hcomment : t.kind = .lineComment
  · rw [hcomment, Stage.takes_comment, Option.some.injEq] at h
    subst h
    rw [advance, if_pos hcomment]
    rfl
  · rw [Stage.takes_of_ne hcomment] at h
    simp only [advance, if_neg hcomment, h]
    rfl

theorem advance_semicolon {s : Statement} {t : Token} (hkind : t.kind = .semicolon)
    (h : s.stage.takes t.kind = none) (last : Nat) :
    advance last s t = (abandon s last t.span.stop, { last := t.span.stop }) := by
  rw [hkind, Stage.takes_of_ne (by simp)] at h
  simp [advance, hkind, h]

theorem advance_refuses {s : Statement} {t : Token} (hkind : t.kind ≠ .semicolon)
    (h : s.stage.takes t.kind = none) (last : Nat) :
    advance last s t = (abandon s last last ++ (start t).1, (start t).2) := by
  by_cases hcomment : t.kind = .lineComment
  · rw [hcomment, Stage.takes_comment] at h
    cases h
  · rw [Stage.takes_of_ne hcomment] at h
    simp [advance, hcomment, hkind, h]

end Document

end DiagramTint
