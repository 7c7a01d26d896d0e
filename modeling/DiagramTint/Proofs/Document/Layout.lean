import DiagramTint.Proofs.Document.Step
import DiagramTint.Proofs.Token.Layout

/-!
# Layout of documents

If tokens follow one another, so do the nodes made of them: statements stand apart, each reaches
from the start of its first token to the end of its last one, and its parts are leaves in between.
-/

namespace DiagramTint

namespace Document

variable {P : Nat → Prop}

/-- The children of a node are leaves that follow one another inside it. -/
def Shallow (P : Nat → Prop) (n : Tree Kind) : Prop :=
  LaidOut P n.span.start n.span.stop (n.children.map Tree.span) ∧ ∀ c ∈ n.children, c.children = []

/-- Shallow nodes that follow one another between the bytes `lo` and `hi`. -/
def NodesLaidOut (P : Nat → Prop) (lo hi : Nat) (nodes : List (Tree Kind)) : Prop :=
  LaidOut P lo hi (nodes.map Tree.span) ∧ ∀ n ∈ nodes, Shallow P n

/-- The first byte that belongs to nodes still to come. -/
def State.front (state : State) : Nat :=
  match state.current with
  | none => state.last
  | some s => s.start

/-- The parts of an open statement are leaves that follow one another up to the last token. -/
def State.Settled (P : Nat → Prop) (state : State) : Prop :=
  ∀ s ∈ state.current, s.start < state.last ∧ P s.start ∧ P state.last ∧
    LaidOut P s.start state.last (s.parts.map Tree.span) ∧ ∀ c ∈ s.parts, c.children = []

theorem NodesLaidOut.append {lo mid hi : Nat} {nodes later : List (Tree Kind)}
    (h : NodesLaidOut P lo mid nodes) (hlater : NodesLaidOut P mid hi later) :
    NodesLaidOut P lo hi (nodes ++ later) := by
  refine ⟨?_, ?_⟩
  · rw [List.map_append]
    exact h.1.append hlater.1
  · intro n hn
    rcases List.mem_append.mp hn with hn | hn
    · exact h.2 n hn
    · exact hlater.2 n hn

theorem nodesLaidOut_nil {lo hi : Nat} (h : lo ≤ hi) : NodesLaidOut P lo hi [] :=
  ⟨h, fun _ hn => nomatch hn⟩

theorem nodesLaidOut_leaf {lo : Nat} {s : Span} (kind : Kind) (hlo : lo ≤ s.start)
    (hlt : s.start < s.stop) (hstart : P s.start) (hstop : P s.stop) :
    NodesLaidOut P lo s.stop [.leaf kind s] := by
  refine ⟨LaidOut.single hlo hlt hstart hstop (Nat.le_refl _), ?_⟩
  intro n hn
  rw [List.mem_singleton.mp hn]
  exact ⟨LaidOut.nil (Nat.le_of_lt hlt), fun _ hc => nomatch hc⟩

/-- A statement that is closed at or after its last token. -/
theorem nodesLaidOut_abandon {last stop : Nat} {s : Statement}
    (h : State.Settled P ⟨last, some s⟩) (hle : last ≤ stop) (hstop : P stop) :
    NodesLaidOut P s.start stop (abandon s last stop).nodes := by
  obtain ⟨hlt, hstart, -, hparts, hleaves⟩ := h s rfl
  refine ⟨LaidOut.single (Nat.le_refl _) (Nat.lt_of_lt_of_le hlt hle) hstart hstop
    (Nat.le_refl _), ?_⟩
  intro n hn
  rw [List.mem_singleton.mp hn]
  refine ⟨?_, hleaves⟩
  have hall := hparts.append (LaidOut.nil hle)
  rwa [List.append_nil] at hall

theorem settled_none (last : Nat) : State.Settled P ⟨last, none⟩ := by
  intro s hs
  cases hs

/-- A statement that takes a token, whatever it keeps of it. -/
theorem State.Settled.taken {last : Nat} {s : Statement} {t : Token}
    (h : State.Settled P ⟨last, some s⟩) (hlast : last ≤ t.span.start)
    (hlt : t.span.start < t.span.stop) (hstart : P t.span.start) (hstop : P t.span.stop)
    (r : Stage.Reaction) : State.Settled P ⟨t.span.stop, some (taken s t r)⟩ := by
  obtain ⟨hslt, hs, -, hparts, hleaves⟩ := h s rfl
  intro u hu
  cases hu
  have hafter : LaidOut P last t.span.stop
      ((r.node.toList.map fun kind => Tree.leaf kind t.span).map Tree.span) := by
    cases r.node with
    | none => exact LaidOut.nil (by omega)
    | some kind => exact LaidOut.single hlast hlt hstart hstop (Nat.le_refl _)
  have hslt' : s.start < t.span.stop := by
    dsimp only at hslt
    omega
  refine ⟨hslt', hs, hstop, ?_, ?_⟩
  · rw [Document.taken, List.map_append]
    exact hparts.append hafter
  · intro c hc
    rcases List.mem_append.mp hc with hc | hc
    · exact hleaves c hc
    · obtain ⟨kind, -, rfl⟩ := List.mem_map.mp hc
      rfl

theorem settled_open {t : Token} (hlt : t.span.start < t.span.stop) (hstart : P t.span.start)
    (hstop : P t.span.stop) (kind part : Kind) (stage : Stage) :
    State.Settled P
      ⟨t.span.stop, some ⟨kind, t.span.start, stage, [.leaf part t.span]⟩⟩ := by
  intro s hs
  cases hs
  refine ⟨hlt, hstart, hstop,
    LaidOut.single (Nat.le_refl _) hlt hstart hstop (Nat.le_refl _), ?_⟩
  intro c hc
  rw [List.mem_singleton.mp hc]
  rfl

/-! ## One token, and all of them -/

/-- A step makes nodes up to the front of the state after it, and that state is settled. -/
structure Proceeds (P : Nat → Prop) (lo : Nat) (t : Token) (r : Output × State) : Prop where
  nodes : NodesLaidOut P lo r.2.front r.1.nodes
  settled : r.2.Settled P
  last : r.2.last = t.span.stop

theorem proceeds_start {lo : Nat} {t : Token} (hlo : lo ≤ t.span.start)
    (hlt : t.span.start < t.span.stop) (hstart : P t.span.start) (hstop : P t.span.stop) :
    Proceeds P lo t (start t) := by
  unfold start
  split
  · exact ⟨nodesLaidOut_leaf _ hlo hlt hstart hstop, settled_none _, rfl⟩
  · exact ⟨nodesLaidOut_nil hlo, settled_open hlt hstart hstop _ _ _, rfl⟩
  · exact ⟨nodesLaidOut_nil hlo, settled_open hlt hstart hstop _ _ _, rfl⟩
  · exact ⟨nodesLaidOut_nil (Nat.le_trans hlo (Nat.le_of_lt hlt)), settled_none _, rfl⟩
  · exact ⟨nodesLaidOut_leaf _ hlo hlt hstart hstop, settled_none _, rfl⟩

theorem proceeds_advance {last : Nat} {s : Statement} {t : Token}
    (h : State.Settled P ⟨last, some s⟩) (hlast : last ≤ t.span.start)
    (hlt : t.span.start < t.span.stop) (hstart : P t.span.start) (hstop : P t.span.stop) :
    Proceeds P s.start t (advance last s t) := by
  cases htakes : s.stage.takes t.kind with
  | some r =>
      rw [advance_takes htakes]
      exact ⟨nodesLaidOut_nil (Nat.le_refl _), h.taken hlast hlt hstart hstop r, rfl⟩
  | none =>
      by_cases hsemicolon : t.kind = .semicolon
      · rw [advance_semicolon hsemicolon htakes]
        have hclosed := nodesLaidOut_abandon h (Nat.le_trans hlast (Nat.le_of_lt hlt)) hstop
        exact ⟨hclosed, settled_none _, rfl⟩
      · -- The statement ends with the last token, and the next nodes start after it.
        rw [advance_refuses hsemicolon htakes]
        have hclosed := nodesLaidOut_abandon h (Nat.le_refl last) (h s rfl).2.2.1
        have hnext := proceeds_start hlast hlt hstart hstop
        exact ⟨hclosed.append hnext.nodes, hnext.settled, hnext.last⟩

theorem proceeds_step {state : State} {t : Token} (h : state.Settled P)
    (hlast : state.last ≤ t.span.start) (hlt : t.span.start < t.span.stop)
    (hstart : P t.span.start) (hstop : P t.span.stop) :
    Proceeds P state.front t (step state t) := by
  obtain ⟨last, current⟩ := state
  cases current with
  | none => exact proceeds_start hlast hlt hstart hstop
  | some s => exact proceeds_advance h hlast hlt hstart hstop

theorem nodesLaidOut_finish {state : State} {hi : Nat} (h : state.Settled P)
    (hhi : state.last ≤ hi) : NodesLaidOut P state.front hi (finish state).nodes := by
  obtain ⟨last, current⟩ := state
  cases current with
  | none => exact nodesLaidOut_nil hhi
  | some s =>
      have hclosed := nodesLaidOut_abandon h (Nat.le_refl last) (h s rfl).2.2.1
      have hall := hclosed.append (nodesLaidOut_nil hhi)
      rwa [List.append_nil] at hall

theorem nodesLaidOut_run {state : State} {hi : Nat} {ts : List Token} (h : state.Settled P)
    (hts : LaidOut P state.last hi (ts.map Token.span)) :
    NodesLaidOut P state.front hi (run state ts).nodes := by
  induction ts generalizing state with
  | nil => exact nodesLaidOut_finish h hts
  | cons t ts ih =>
      obtain ⟨hlast, hlt, hstart, hstop, hrest⟩ := hts
      have hstep := proceeds_step h hlast hlt hstart hstop
      rw [← hstep.last] at hrest
      exact hstep.nodes.append (ih hstep.settled hrest)

theorem nodesLaidOut_parse (source : List Char) :
    NodesLaidOut (Text.IsBoundary source) 0 (Text.byteLength source)
      (parse source).tree.children :=
  nodesLaidOut_run (settled_none 0) (laidOut_tokenize source)

end Document

end DiagramTint
