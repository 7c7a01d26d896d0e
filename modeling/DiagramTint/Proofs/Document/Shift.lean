import DiagramTint.Proofs.Document.Step
import DiagramTint.Proofs.Token.Cutting

/-!
# Moving a document

Reading looks at the kinds of tokens and copies their spans.  So tokens that are moved to the right
are read as the same nodes and diagnostics, moved by as many bytes.
-/

namespace DiagramTint

namespace Tree

variable {α : Type}

mutual

/-- A tree moved `d` bytes to the right. -/
def shift (d : Nat) : Tree α → Tree α
  | .node l s cs => .node l (s.shift d) (shiftForest d cs)

def shiftForest (d : Nat) : List (Tree α) → List (Tree α)
  | [] => []
  | t :: ts => shift d t :: shiftForest d ts

end

theorem shiftForest_eq_map (d : Nat) (ts : List (Tree α)) : shiftForest d ts = ts.map (shift d) := by
  induction ts with
  | nil => rfl
  | cons t ts ih => rw [shiftForest, ih, List.map_cons]

theorem shift_node (d : Nat) (label : α) (span : Span) (children : List (Tree α)) :
    shift d (.node label span children) =
      .node label (span.shift d) (children.map (shift d)) := by
  rw [shift, shiftForest_eq_map]

end Tree

/-- A diagnostic moved `d` bytes to the right. -/
def Diagnostic.shift (d : Nat) (e : Diagnostic) : Diagnostic :=
  { e with span := e.span.shift d }

def Statement.shift (d : Nat) (s : Statement) : Statement :=
  { s with
    start := s.start + d
    parts := s.parts.map (Tree.shift d) }

namespace Document

def Output.shift (d : Nat) (o : Output) : Output :=
  ⟨o.nodes.map (Tree.shift d), o.diagnostics.map (Diagnostic.shift d)⟩

def State.shift (d : Nat) (state : State) : State :=
  ⟨state.last + d, state.current.map (Statement.shift d)⟩

@[simp]
theorem Output.append_nodes (a b : Output) : (a ++ b).nodes = a.nodes ++ b.nodes := rfl

@[simp]
theorem Output.append_diagnostics (a b : Output) :
    (a ++ b).diagnostics = a.diagnostics ++ b.diagnostics := rfl

theorem Output.shift_append (d : Nat) (a b : Output) :
    (a ++ b).shift d = a.shift d ++ b.shift d := by
  have hnodes : (a.nodes ++ b.nodes).map (Tree.shift d) =
      a.nodes.map (Tree.shift d) ++ b.nodes.map (Tree.shift d) := List.map_append
  have hdiagnostics : (a.diagnostics ++ b.diagnostics).map (Diagnostic.shift d) =
      a.diagnostics.map (Diagnostic.shift d) ++ b.diagnostics.map (Diagnostic.shift d) :=
    List.map_append
  exact congrArg₂ Output.mk hnodes hdiagnostics

/-! ## One token -/

theorem start_shift (d : Nat) (t : Token) :
    start (t.shift d) = ((start t).1.shift d, (start t).2.shift d) := by
  obtain ⟨kind, span⟩ := t
  cases kind <;> rfl

theorem abandon_shift (d : Nat) (s : Statement) (last stop : Nat) :
    abandon (s.shift d) (last + d) (stop + d) = (abandon s last stop).shift d := by
  have hnode : (s.shift d).close (stop + d) = (s.close stop).shift d := by
    rw [Statement.close, Statement.close, Tree.shift_node]
    rfl
  have hfault : (s.shift d).stage.wanted = s.stage.wanted := rfl
  simp only [abandon, Output.shift, hnode, hfault, List.map_cons, List.map_nil, List.map_map]
  rfl

theorem taken_shift (d : Nat) (s : Statement) (t : Token) (r : Stage.Reaction) :
    taken (s.shift d) (t.shift d) r = (taken s t r).shift d := by
  simp only [taken, Statement.shift, List.map_append, List.map_map]
  rfl

theorem advance_shift (d last : Nat) (s : Statement) (t : Token) :
    advance (last + d) (s.shift d) (t.shift d) =
      ((advance last s t).1.shift d, (advance last s t).2.shift d) := by
  cases htakes : s.stage.takes t.kind with
  | some r =>
      have htakes' : (s.shift d).stage.takes (t.shift d).kind = some r := htakes
      rw [advance_takes htakes, advance_takes htakes', taken_shift]
      simp only [Output.shift, List.map_map]
      rfl
  | none =>
      have htakes' : (s.shift d).stage.takes (t.shift d).kind = none := htakes
      by_cases hsemicolon : t.kind = .semicolon
      · have hsemicolon' : (t.shift d).kind = .semicolon := hsemicolon
        rw [advance_semicolon hsemicolon htakes, advance_semicolon hsemicolon' htakes',
          ← abandon_shift]
        rfl
      · have hsemicolon' : (t.shift d).kind ≠ .semicolon := hsemicolon
        rw [advance_refuses hsemicolon htakes, advance_refuses hsemicolon' htakes', start_shift,
          Output.shift_append, ← abandon_shift]

theorem step_shift (d : Nat) (state : State) (t : Token) :
    step (state.shift d) (t.shift d) = ((step state t).1.shift d, (step state t).2.shift d) := by
  obtain ⟨last, current⟩ := state
  cases current with
  | none => exact start_shift d t
  | some s => exact advance_shift d last s t

/-! ## All tokens -/

theorem finish_shift (d : Nat) (state : State) : finish (state.shift d) = (finish state).shift d := by
  obtain ⟨last, current⟩ := state
  cases current with
  | none => rfl
  | some s => exact abandon_shift d s last last

theorem run_shift (d : Nat) (state : State) (ts : List Token) :
    run (state.shift d) (ts.map (Token.shift d)) = (run state ts).shift d := by
  induction ts generalizing state with
  | nil => exact finish_shift d state
  | cons t ts ih =>
      rw [List.map_cons, run, run, step_shift, Output.shift_append]
      simp only [ih]

theorem run_none (last : Nat) (ts : List Token) : run ⟨last, none⟩ ts = run {} ts := by
  cases ts with
  | nil => rfl
  | cons t ts => rfl

/-- Where tokens start does not matter to reading them. -/
theorem run_map_shift (d : Nat) (ts : List Token) :
    run {} (ts.map (Token.shift d)) = (run {} ts).shift d := by
  rw [← run_shift]
  exact (run_none _ _).symm

end Document

end DiagramTint
