import DiagramTint.Proofs.Document.Step
import DiagramTint.Proofs.Tree.Likeness

/-!
# Reading tokens that differ in their spans

Reading looks at the kinds of tokens and copies their offsets.  So tokens of the same kinds whose
offsets are related are read as trees that are alike.
-/

namespace DiagramTint

variable {R : Nat → Nat → Prop}

structure Token.Alike (R : Nat → Nat → Prop) (t u : Token) : Prop where
  kind : t.kind = u.kind
  start : R t.span.start u.span.start
  stop : R t.span.stop u.span.stop

structure Statement.Alike (R : Nat → Nat → Prop) (s u : Statement) : Prop where
  kind : s.kind = u.kind
  start : R s.start u.start
  stage : s.stage = u.stage
  parts : List.Forall₂ (Tree.Alike R) s.parts u.parts

theorem Statement.Alike.close {s u : Statement} {stop stop' : Nat} (h : s.Alike R u)
    (hstop : R stop stop') : Tree.Alike R (s.close stop) (u.close stop') := by
  obtain ⟨kind, start, stage, parts⟩ := s
  obtain ⟨rfl, hstart, -, hparts⟩ := h
  exact .node hstart hstop hparts

namespace Document

structure State.Alike (R : Nat → Nat → Prop) (s u : State) : Prop where
  last : R s.last u.last
  current : Option.Rel (Statement.Alike R) s.current u.current

/-- Two steps make nodes that are alike and end in states that are alike. -/
structure StepsAlike (R : Nat → Nat → Prop) (r q : Output × State) : Prop where
  nodes : List.Forall₂ (Tree.Alike R) r.1.nodes q.1.nodes
  states : State.Alike R r.2 q.2

theorem alike_taken {s u : Statement} {t v : Token} (hs : s.Alike R u) (ht : t.Alike R v)
    (r : Stage.Reaction) : (taken s t r).Alike R (taken u v r) := by
  have hpart : List.Forall₂ (Tree.Alike R) (r.node.toList.map fun kind => .leaf kind t.span)
      (r.node.toList.map fun kind => .leaf kind v.span) := by
    cases r.node with
    | none => exact .nil
    | some kind => exact .cons (Tree.alike_leaf kind ht.start ht.stop) .nil
  exact ⟨hs.kind, hs.start, rfl, List.rel_append hs.parts hpart⟩

theorem alike_abandon {s u : Statement} {last last' stop stop' : Nat} (hs : s.Alike R u)
    (hstop : R stop stop') :
    List.Forall₂ (Tree.Alike R) (abandon s last stop).nodes (abandon u last' stop').nodes :=
  .cons (hs.close hstop) .nil

theorem alike_start {t v : Token} (h : t.Alike R v) : StepsAlike R (start t) (start v) := by
  have hleaf : ∀ kind : Kind, Tree.Alike R (.leaf kind t.span) (.leaf kind v.span) :=
    fun kind => Tree.alike_leaf kind h.start h.stop
  unfold start
  rw [← h.kind]
  split
  · exact ⟨.cons (hleaf _) .nil, h.stop, .none⟩
  · exact ⟨.nil, h.stop, .some ⟨rfl, h.start, rfl, .cons (hleaf _) .nil⟩⟩
  · exact ⟨.nil, h.stop, .some ⟨rfl, h.start, rfl, .cons (hleaf _) .nil⟩⟩
  · exact ⟨.nil, h.stop, .none⟩
  · exact ⟨.cons (hleaf _) .nil, h.stop, .none⟩

theorem alike_advance {last last' : Nat} {s u : Statement} {t v : Token} (hlast : R last last')
    (hs : s.Alike R u) (ht : t.Alike R v) :
    StepsAlike R (advance last s t) (advance last' u v) := by
  have htakes' : u.stage.takes v.kind = s.stage.takes t.kind := by
    rw [hs.stage, ht.kind]
  cases htakes : s.stage.takes t.kind with
  | some r =>
      rw [htakes] at htakes'
      rw [advance_takes htakes, advance_takes htakes']
      exact ⟨.nil, ht.stop, .some (alike_taken hs ht r)⟩
  | none =>
      rw [htakes] at htakes'
      by_cases hsemicolon : t.kind = .semicolon
      · rw [advance_semicolon hsemicolon htakes,
          advance_semicolon (ht.kind.symm.trans hsemicolon) htakes']
        exact ⟨alike_abandon hs ht.stop, ht.stop, .none⟩
      · have hsemicolon' : v.kind ≠ .semicolon := by
          rwa [← ht.kind]
        rw [advance_refuses hsemicolon htakes, advance_refuses hsemicolon' htakes']
        have hnext := alike_start ht
        exact ⟨List.rel_append (alike_abandon hs hlast) hnext.nodes, hnext.states⟩

theorem alike_step {x y : State} {t v : Token} (h : State.Alike R x y) (ht : t.Alike R v) :
    StepsAlike R (step x t) (step y v) := by
  obtain ⟨last, current⟩ := x
  obtain ⟨last', current'⟩ := y
  obtain ⟨hlast, hcurrent⟩ := h
  cases hcurrent with
  | none => exact alike_start ht
  | some hs => exact alike_advance hlast hs ht

theorem alike_finish {x y : State} (h : State.Alike R x y) :
    List.Forall₂ (Tree.Alike R) (finish x).nodes (finish y).nodes := by
  obtain ⟨last, current⟩ := x
  obtain ⟨last', current'⟩ := y
  obtain ⟨hlast, hcurrent⟩ := h
  cases hcurrent with
  | none => exact .nil
  | some hs => exact alike_abandon hs hlast

theorem alike_run {x y : State} {ts us : List Token} (h : State.Alike R x y)
    (hts : List.Forall₂ (Token.Alike R) ts us) :
    List.Forall₂ (Tree.Alike R) (run x ts).nodes (run y us).nodes := by
  induction hts generalizing x y with
  | nil => exact alike_finish h
  | cons ht _ ih =>
      have hstep := alike_step h ht
      exact List.rel_append hstep.nodes (ih hstep.states)

theorem alike_parse {a b : List Char} (hzero : R 0 0)
    (hlength : R (Text.byteLength a) (Text.byteLength b))
    (htokens : List.Forall₂ (Token.Alike R) (tokenize a) (tokenize b)) :
    Tree.Alike R (parse a).tree (parse b).tree :=
  .node hzero hlength (alike_run ⟨hzero, .none⟩ htokens)

end Document

end DiagramTint
