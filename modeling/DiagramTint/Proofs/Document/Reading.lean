import DiagramTint.Proofs.Document.Step

/-!
# Reading without comments

Comments change where statements end, but neither the faults nor the other parts of the nodes.  What
is left of an output without them is its gist, and the gist of a reading can be computed token by
token from the tokens other than comments.
-/

namespace DiagramTint

namespace Document

/-! ## Gists -/

/-- The kind of a node and its parts other than comments. -/
def shape (t : Tree Kind) : Kind × List (Tree Kind) :=
  (t.label, t.children.filter fun c => c.label ≠ .lineComment)

/-- What comments cannot change in an output: the nodes other than comments, without the comments
in them and without their ends, and the faults without their places. -/
@[ext]
structure Gist where
  shapes : List (Kind × List (Tree Kind))
  faults : List Fault

instance : Append Gist :=
  ⟨fun a b => ⟨a.shapes ++ b.shapes, a.faults ++ b.faults⟩⟩

@[simp]
theorem Gist.append_shapes (a b : Gist) : (a ++ b).shapes = a.shapes ++ b.shapes := rfl

@[simp]
theorem Gist.append_faults (a b : Gist) : (a ++ b).faults = a.faults ++ b.faults := rfl

theorem Gist.append_assoc (a b c : Gist) : a ++ b ++ c = a ++ (b ++ c) := by
  ext1 <;> simp

@[simp]
theorem Gist.nil_append (a : Gist) : (⟨[], []⟩ : Gist) ++ a = a := rfl

def Output.gist (o : Output) : Gist :=
  ⟨(o.nodes.filter fun n => n.label ≠ .lineComment).map shape, o.diagnostics.map Diagnostic.fault⟩

@[simp]
theorem gist_append (a b : Output) : (a ++ b).gist = a.gist ++ b.gist := by
  change Output.gist ⟨a.nodes ++ b.nodes, a.diagnostics ++ b.diagnostics⟩ = _
  ext1 <;> simp [Output.gist]

/-- A statement without the comments among its parts. -/
def bare (s : Statement) : Statement :=
  { s with parts := s.parts.filter fun c => c.label ≠ .lineComment }

theorem gist_abandon {s : Statement} (h : s.kind ≠ .lineComment) (last stop : Nat) :
    (abandon s last stop).gist = ⟨[(s.kind, (bare s).parts)], s.stage.wanted.toList⟩ := by
  ext1
  · simp [Output.gist, abandon, Statement.close, Tree.label, shape, Tree.children, h, bare]
  · simp [Output.gist, abandon, Function.comp_def]

theorem bare_taken {s : Statement} {t : Token} {r : Stage.Reaction}
    (h : s.stage.react t.kind = some r) : bare (taken s t r) = taken (bare s) t r := by
  cases hr : r.node with
  | none => simp [bare, taken, hr]
  | some kind =>
      have hkind : kind ≠ .lineComment := by
        rcases Stage.react_node h kind hr with rfl | rfl | rfl <;> simp
      simp [bare, taken, hr, Tree.leaf, Tree.label, hkind]

theorem bare_taken_comment (s : Statement) (t : Token) :
    bare (taken s t { node := some .lineComment, next := s.stage }) = bare s := by
  simp [bare, taken, Tree.leaf, Tree.label]

theorem run_comment_none {t : Token} (h : t.kind = .lineComment) (last : Nat) (ts : List Token) :
    (run ⟨last, none⟩ (t :: ts)).gist = (run ⟨t.span.stop, none⟩ ts).gist := by
  rw [run, step]
  simp only [start, h, gist_append]
  rfl

theorem run_takes {s : Statement} {t : Token} {r : Stage.Reaction}
    (h : s.stage.takes t.kind = some r) (last : Nat) (ts : List Token) :
    (run ⟨last, some s⟩ (t :: ts)).gist =
      ⟨[], r.fault.toList⟩ ++ (run ⟨t.span.stop, some (taken s t r)⟩ ts).gist := by
  rw [run, step]
  simp only [advance_takes h, gist_append]
  congr 1
  ext1 <;> simp [Output.gist, Function.comp_def]

/-- A statement that cannot take the next token, or that has no next token, ends there. -/
theorem run_refuses {s : Statement} {ts : List Token} (hkind : s.kind ≠ .lineComment)
    (h : ∀ t ∈ ts.head?, s.stage.takes t.kind = none) (last : Nat) :
    (run ⟨last, some s⟩ ts).gist =
      ⟨[(s.kind, (bare s).parts)], s.stage.wanted.toList⟩ ++ (run ⟨last, none⟩ ts).gist := by
  cases ts with
  | nil =>
      rw [run, finish, gist_abandon hkind, run, finish]
      ext1 <;> simp [Output.gist]
  | cons t ts =>
      have htakes := h t rfl
      rw [run, step, run, step]
      by_cases hsemicolon : t.kind = .semicolon
      · simp only [advance_semicolon hsemicolon htakes, start, hsemicolon, gist_append,
          gist_abandon hkind]
        rfl
      · simp only [advance_refuses hsemicolon htakes, gist_append, gist_abandon hkind,
          Gist.append_assoc]

theorem start_current {t : Token} {s : Statement} (h : (start t).2.current = some s) :
    s.kind ≠ .lineComment ∧ bare s = s := by
  unfold start at h
  split at h <;> simp only [Option.some.injEq, reduceCtorEq] at h <;> subst h <;>
    simp [bare, Tree.leaf, Tree.label]

theorem start_map_bare (t : Token) : (start t).2.current.map bare = (start t).2.current := by
  cases hcurrent : (start t).2.current with
  | none => rfl
  | some s => rw [Option.map_some, (start_current hcurrent).2]

theorem bare_bare (s : Statement) : bare (bare s) = bare s := by
  simp [bare]

/-- Comments can be left out of the tokens, and the end of the last token taken does not matter. -/
theorem gist_run (ts : List Token) (last last' : Nat) (current : Option Statement)
    (hkind : ∀ s ∈ current, s.kind ≠ .lineComment) :
    (run ⟨last, current⟩ ts).gist =
      (run ⟨last', current.map bare⟩ (ts.filter fun t => t.kind ≠ .lineComment)).gist := by
  induction ts generalizing last last' current with
  | nil =>
      cases current with
      | none => rfl
      | some s =>
          have hs := hkind s rfl
          have hbare : (bare s).kind ≠ .lineComment := hs
          rw [List.filter_nil, Option.map_some, run_refuses hs (by simp),
            run_refuses hbare (by simp), bare_bare]
          rfl
  | cons t ts ih =>
      by_cases hcomment : t.kind = .lineComment
      · rw [List.filter_cons_of_neg (by simp [hcomment])]
        cases current with
        | none => rw [run_comment_none hcomment, ih _ last' none (by simp), Option.map_none]
        | some s =>
            have htakes := s.stage.takes_comment
            rw [← hcomment] at htakes
            rw [run_takes htakes, ih _ last' _ (by simpa [taken] using hkind s rfl),
              Option.map_some, bare_taken_comment]
            rfl
      · rw [List.filter_cons_of_pos (by simpa using hcomment)]
        -- After a refused token, reading goes on as if no statement had been open.
        have hnone : ∀ last last', (run ⟨last, none⟩ (t :: ts)).gist =
            (run ⟨last', none⟩ (t :: ts.filter fun t => t.kind ≠ .lineComment)).gist := by
          intro last last'
          rw [run, step, run, step, gist_append, gist_append]
          congr 1
          have hstart := ih (start t).2.last (start t).2.last (start t).2.current
            fun s hs => (start_current hs).1
          rwa [start_map_bare] at hstart
        cases current with
        | none => exact hnone last last'
        | some s =>
            have hs := hkind s rfl
            have hbare : (bare s).kind ≠ .lineComment := hs
            rw [Option.map_some]
            have hsame : s.stage.takes t.kind = s.stage.react t.kind :=
              Stage.takes_of_ne hcomment s.stage
            cases hreact : s.stage.react t.kind with
            | some r =>
                have htakes : s.stage.takes t.kind = some r := hsame.trans hreact
                have hbareTakes : (bare s).stage.takes t.kind = some r := htakes
                rw [run_takes htakes, run_takes hbareTakes,
                  ih _ t.span.stop (some (taken s t r)) (by simpa [taken] using hs),
                  Option.map_some, bare_taken hreact]
            | none =>
                have htakes : s.stage.takes t.kind = none := hsame.trans hreact
                have hbareTakes : (bare s).stage.takes t.kind = none := htakes
                rw [run_refuses hs (by simp [htakes]), run_refuses hbare (by simp [hbareTakes]),
                  hnone last last', bare_bare]
                rfl

/-! ## Reading token by token -/

/-- What is read from tokens with a statement open. -/
def reading (current : Option Statement) (ts : List Token) : Gist :=
  (run ⟨0, current⟩ ts).gist

theorem gist_run_eq_reading {current : Option Statement}
    (hkind : ∀ s ∈ current, s.kind ≠ .lineComment) (last : Nat) (ts : List Token) :
    (run ⟨last, current⟩ ts).gist = reading current ts := by
  rw [reading, gist_run ts last 0 current hkind, ← gist_run ts 0 0 current hkind]

theorem reading_start (t : Token) (ts : List Token) :
    reading none (t :: ts) = (start t).1.gist ++ reading (start t).2.current ts := by
  rw [reading, run, step, gist_append,
    ← gist_run_eq_reading (fun s hs => (start_current hs).1) (start t).2.last]

theorem reading_semicolon {t : Token} (h : t.kind = .semicolon) (ts : List Token) :
    reading none (t :: ts) = reading none ts := by
  rw [reading_start]
  simp only [start, h]
  rfl

theorem reading_alias {t : Token} (h : t.kind = .aliasKeyword) (ts : List Token) :
    reading none (t :: ts) =
      reading (some ⟨.alias, t.span.start, .aliasName, [.leaf .aliasKeyword t.span]⟩) ts := by
  rw [reading_start]
  simp only [start, h]
  rfl

theorem reading_message {t : Token} (h : t.kind = .identifier) (ts : List Token) :
    reading none (t :: ts) =
      reading (some ⟨.message, t.span.start, .messageArrow, [.leaf .identifier t.span]⟩) ts := by
  rw [reading_start]
  simp only [start, h]
  rfl

theorem reading_takes {s : Statement} {t : Token} {r : Stage.Reaction}
    (hkind : s.kind ≠ .lineComment) (h : s.stage.takes t.kind = some r) (ts : List Token) :
    reading (some s) (t :: ts) = ⟨[], r.fault.toList⟩ ++ reading (some (taken s t r)) ts := by
  rw [reading, run_takes h, gist_run_eq_reading (by simpa [taken] using hkind)]

theorem reading_refuses {s : Statement} {ts : List Token} (hkind : s.kind ≠ .lineComment)
    (h : ∀ t ∈ ts.head?, s.stage.takes t.kind = none) :
    reading (some s) ts =
      ⟨[(s.kind, (bare s).parts)], s.stage.wanted.toList⟩ ++ reading none ts :=
  run_refuses hkind h 0

end Document

end DiagramTint
