import DiagramTint.Tree.Listing
import DiagramTint.Proofs.Document.Reading
import DiagramTint.Proofs.Document.Shape
import DiagramTint.Proofs.Token.Blanking
import Mathlib.Data.List.Forall2

/-!
# Documents without their comments

A source and the same source with its comments blanked are read side by side.  The two readings
take the same tokens apart from the comments, so they are at the same stage of the same statement;
only the end of the last token may be further right where comments are read, and with it the end of
a statement.
-/

namespace DiagramTint

namespace Tree

variable {α : Type}

mutual

/-- A tree without the nodes below its root whose labels fail a test, and without what is below
these. -/
def prune (p : α → Bool) : Tree α → Tree α
  | .node l s cs => .node l s (pruneForest p cs)

def pruneForest (p : α → Bool) : List (Tree α) → List (Tree α)
  | [] => []
  | t :: ts => if p t.label then prune p t :: pruneForest p ts else pruneForest p ts

end

theorem pruneForest_eq (p : α → Bool) (ts : List (Tree α)) :
    pruneForest p ts = (ts.filter fun t => p t.label).map (prune p) := by
  induction ts with
  | nil => rfl
  | cons t ts ih =>
      rw [pruneForest, ih, List.filter_cons]
      split
      · rfl
      · rfl

theorem prune_leaf (p : α → Bool) {t : Tree α} (h : t.children = []) : prune p t = t := by
  obtain ⟨label, span, children⟩ := t
  have hnil : children = [] := h
  rw [hnil, prune, pruneForest]

/-- Below a node whose children are leaves, pruning is a matter of one list. -/
theorem prune_eq_filter (p : α → Bool) {t : Tree α} (h : ∀ c ∈ t.children, c.children = []) :
    prune p t = .node t.label t.span (t.children.filter fun c => p c.label) := by
  obtain ⟨label, span, children⟩ := t
  have hkept : ∀ c ∈ children.filter fun c => p c.label, prune p c = c := by
    intro c hc
    exact prune_leaf p (h c (List.mem_of_mem_filter hc))
  rw [prune, pruneForest_eq, List.map_congr_left hkept, List.map_id']
  rfl

end Tree

/-- The kinds of nodes that reach to the end of their last token, be it a comment. -/
def Kind.IsStatement (kind : Kind) : Prop :=
  kind = .alias ∨ kind = .message

/-- Row `b` is row `a`, except that a statement may end further left. -/
structure Row.Recedes (a b : Row Kind) : Prop where
  label : b.label = a.label
  parent : b.parent = a.parent
  start : b.span.start = a.span.start
  stop_le : b.span.stop ≤ a.span.stop
  stop_eq : ¬ a.label.IsStatement → b.span.stop = a.span.stop

theorem Row.Recedes.refl (a : Row Kind) : a.Recedes a :=
  ⟨rfl, rfl, rfl, Nat.le_refl _, fun _ => rfl⟩

namespace Document

/-- Node `m` is node `n` without the comments among its children, except that a statement may end
further left. -/
structure Uncommented (n m : Tree Kind) : Prop where
  label : m.label = n.label
  children : m.children = n.children.filter fun c => c.label ≠ .lineComment
  start : m.span.start = n.span.start
  stop_le : m.span.stop ≤ n.span.stop
  stop_eq : ¬ n.label.IsStatement → m.span.stop = n.span.stop

/-- The nodes of `b` are those of `a` other than comments, each without the comments in it. -/
def Output.Sheds (a b : Output) : Prop :=
  List.Forall₂ Uncommented (a.nodes.filter fun n => n.label ≠ .lineComment) b.nodes

theorem Output.Sheds.append {a b c d : Output} (h : a.Sheds b) (hlater : c.Sheds d) :
    (a ++ c).Sheds (b ++ d) := by
  rw [Sheds, append_nodes, append_nodes, List.filter_append]
  exact List.rel_append h hlater

theorem uncommented_leaf (kind : Kind) (span : Span) :
    Uncommented (.leaf kind span) (.leaf kind span) :=
  ⟨rfl, rfl, rfl, Nat.le_refl _, fun _ => rfl⟩

/-- Reading without comments may stand at `b` while reading with them stands at `a`: the statement
that is open is the same apart from comments, and the last token of `b` ends no further right. -/
structure State.Sheds (a b : State) : Prop where
  current : b.current = a.current.map bare
  last_le : b.last ≤ a.last
  kind : ∀ s ∈ a.current, s.kind.IsStatement

/-! ## One token -/

theorem sheds_abandon {s : Statement} (h : s.kind.IsStatement) {last last' stop stop' : Nat}
    (hle : stop' ≤ stop) : (abandon s last stop).Sheds (abandon (bare s) last' stop') := by
  have hlabel : (s.close stop).label ≠ .lineComment := by
    rcases h with h | h <;> simp [Statement.close, Tree.label, h]
  have hnode : Uncommented (s.close stop) ((bare s).close stop') :=
    ⟨rfl, rfl, rfl, hle, fun hnot => absurd h hnot⟩
  rw [Output.Sheds, abandon, List.filter_cons_of_pos (by simpa using hlabel), abandon]
  exact .cons hnode .nil

theorem start_isStatement {t : Token} {s : Statement} (h : (start t).2.current = some s) :
    s.kind.IsStatement := by
  unfold start at h
  split at h <;> simp only [Option.some.injEq, reduceCtorEq] at h <;> subst h
  · exact Or.inl rfl
  · exact Or.inr rfl

theorem sheds_start {t : Token} (h : t.kind ≠ .lineComment) :
    (start t).1.Sheds (start t).1 ∧ (start t).2.Sheds (start t).2 := by
  refine ⟨?_, (start_map_bare t).symm, Nat.le_refl _, fun s hs => start_isStatement hs⟩
  unfold start
  split
  · contradiction
  · exact .nil
  · exact .nil
  · exact .nil
  · exact .cons (uncommented_leaf _ _) .nil

theorem step_last (state : State) (t : Token) : (step state t).2.last = t.span.stop := by
  have hstart : (start t).2.last = t.span.stop := by
    unfold start
    split <;> rfl
  obtain ⟨last, current⟩ := state
  cases current with
  | none => exact hstart
  | some s =>
      rw [step]
      cases htakes : s.stage.takes t.kind with
      | some r => simp only [advance_takes htakes]
      | none =>
          by_cases hsemicolon : t.kind = .semicolon
          · simp only [advance_semicolon hsemicolon htakes]
          · simp only [advance_refuses hsemicolon htakes, hstart]

/-- A comment moves only the reading that sees it. -/
theorem State.Sheds.step_comment {a b : State} {t : Token} (h : a.Sheds b)
    (ht : t.kind = .lineComment) (hlast : a.last ≤ t.span.stop) :
    (step a t).1.Sheds {} ∧ (step a t).2.Sheds b := by
  obtain ⟨last, current⟩ := a
  obtain ⟨hcurrent, hle, hkind⟩ := h
  have hstop : b.last ≤ t.span.stop := Nat.le_trans hle hlast
  cases current with
  | none =>
      simp only [step, start, ht]
      exact ⟨.nil, hcurrent, hstop, hkind⟩
  | some s =>
      have htakes := s.stage.takes_comment
      rw [← ht] at htakes
      simp only [step, advance_takes htakes]
      refine ⟨.nil, ?_, hstop, by simpa [taken] using hkind s rfl⟩
      rw [Option.map_some, bare_taken_comment]
      exact hcurrent

/-- Any other token is read alike on both sides. -/
theorem State.Sheds.step {a b : State} {t : Token} (h : a.Sheds b) (ht : t.kind ≠ .lineComment) :
    (step a t).1.Sheds (step b t).1 ∧ (step a t).2.Sheds (step b t).2 := by
  obtain ⟨last, current⟩ := a
  obtain ⟨last', current'⟩ := b
  obtain ⟨hcurrent, hle, hkind⟩ := h
  obtain rfl : current' = current.map bare := hcurrent
  cases current with
  | none => exact sheds_start ht
  | some s =>
      have hs := hkind s rfl
      simp only [Document.step, Option.map_some]
      cases htakes : s.stage.takes t.kind with
      | some r =>
          have hbareTakes : (bare s).stage.takes t.kind = some r := htakes
          have hreact : s.stage.react t.kind = some r := by
            rwa [Stage.takes_of_ne ht] at htakes
          rw [advance_takes htakes, advance_takes hbareTakes]
          refine ⟨.nil, ?_, Nat.le_refl _, by simpa [taken] using hs⟩
          rw [Option.map_some, bare_taken hreact]
      | none =>
          have hbareTakes : (bare s).stage.takes t.kind = none := htakes
          by_cases hsemicolon : t.kind = .semicolon
          · rw [advance_semicolon hsemicolon htakes, advance_semicolon hsemicolon hbareTakes]
            exact ⟨sheds_abandon hs (Nat.le_refl _), rfl, Nat.le_refl _, by simp⟩
          · rw [advance_refuses hsemicolon htakes, advance_refuses hsemicolon hbareTakes]
            obtain ⟨houtput, hstate⟩ := sheds_start ht
            exact ⟨(sheds_abandon hs hle).append houtput, hstate⟩

/-! ## All tokens -/

theorem State.Sheds.finish {a b : State} (h : a.Sheds b) : (finish a).Sheds (finish b) := by
  obtain ⟨last, current⟩ := a
  obtain ⟨last', current'⟩ := b
  obtain ⟨hcurrent, hle, hkind⟩ := h
  obtain rfl : current' = current.map bare := hcurrent
  cases current with
  | none => exact .nil
  | some s => exact sheds_abandon (hkind s rfl) hle

/-- Reading with comments and without them, side by side. -/
theorem State.Sheds.run {P : Nat → Prop} {hi : Nat} {a b : State} {ts : List Token}
    (h : a.Sheds b) (hlaidOut : LaidOut P a.last hi (ts.map Token.span)) :
    (run a ts).Sheds (run b (ts.filter fun t => t.kind ≠ .lineComment)) := by
  induction ts generalizing a b with
  | nil => exact h.finish
  | cons t ts ih =>
      obtain ⟨hstart, hlt, -, -, hrest⟩ := hlaidOut
      rw [← step_last a t] at hrest
      by_cases hcomment : t.kind = .lineComment
      · obtain ⟨houtput, hstate⟩ := h.step_comment hcomment (by omega)
        rw [List.filter_cons_of_neg (by simp [hcomment])]
        exact houtput.append (ih hstate hrest)
      · obtain ⟨houtput, hstate⟩ := h.step hcomment
        rw [List.filter_cons_of_pos (by simpa using hcomment)]
        exact houtput.append (ih hstate hrest)

/-! ## Rows -/

theorem Uncommented.size_eq {n m : Tree Kind} (h : Uncommented n m) (hn : Formed n) :
    (n.prune (· ≠ .lineComment)).size = m.size := by
  obtain ⟨label, span, children⟩ := m
  rw [Tree.prune_eq_filter _ hn.leaves, ← h.children]
  rfl

/-- The rows of a node other than its own are the same on both sides. -/
theorem Uncommented.rows {n m : Tree Kind} (h : Uncommented n m) (hn : Formed n) (id : Nat)
    (parent : Option Nat) :
    List.Forall₂ Row.Recedes (Tree.rowsFrom id parent (n.prune (· ≠ .lineComment)))
      (Tree.rowsFrom id parent m) := by
  obtain ⟨label, span, children⟩ := m
  rw [Tree.prune_eq_filter _ hn.leaves, ← h.children, Tree.rowsFrom, Tree.rowsFrom]
  refine .cons ⟨h.label, rfl, h.start, h.stop_le, h.stop_eq⟩ ?_
  exact List.forall₂_same.mpr fun a _ => Row.Recedes.refl a

theorem recedes_rowsForest {ns ms : List (Tree Kind)} (h : List.Forall₂ Uncommented ns ms)
    (hformed : ∀ n ∈ ns, Formed n) (id parent : Nat) :
    List.Forall₂ Row.Recedes
      (Tree.rowsForest id parent (ns.map (Tree.prune (· ≠ .lineComment))))
      (Tree.rowsForest id parent ms) := by
  induction h generalizing id with
  | nil => exact .nil
  | @cons n m ns ms hhead htail ih =>
      have hn : Formed n := hformed n List.mem_cons_self
      have hlater := ih fun u hu => hformed u (List.mem_cons_of_mem n hu)
      rw [List.map_cons, Tree.rowsForest, Tree.rowsForest, hhead.size_eq hn]
      exact List.rel_append (hhead.rows hn id (some parent)) (hlater (id + m.size))

/-- Comments are transparent: blanking them takes their nodes out of the document and leaves all
other nodes, except that a statement may end further left, and the messages of all diagnostics. -/
theorem parse_blankComments (source : List Char) :
    List.Forall₂ Row.Recedes ((parse source).tree.prune (· ≠ .lineComment)).toListing
        (parse (blankComments source)).tree.toListing ∧
      (parse (blankComments source)).diagnostics.map (fun d => d.fault.message) =
        (parse source).diagnostics.map (fun d => d.fault.message) := by
  have hinitial : State.Sheds {} {} := ⟨rfl, Nat.le_refl 0, by simp⟩
  have hsheds := hinitial.run (laidOut_tokenize source)
  have hgist := gist_run (tokenize source) 0 0 none (by simp)
  rw [Option.map_none, ← tokenize_blankComments] at hgist
  rw [← tokenize_blankComments] at hsheds
  constructor
  · have hroot : Row.Recedes ⟨.program, ⟨0, Text.byteLength source⟩, none⟩
        ⟨.program, ⟨0, Text.byteLength (blankComments source)⟩, none⟩ := by
      rw [byteLength_blankComments]
      exact Row.Recedes.refl _
    have hformed := (divides_run (tokenize source)).formed
    have hrows := recedes_rowsForest hsheds
      (fun n hn => hformed n (List.mem_of_mem_filter hn)) 1 0
    rw [← Tree.pruneForest_eq (· ≠ Kind.lineComment)] at hrows
    exact .cons hroot hrows
  · have hfaults : (parse source).diagnostics.map Diagnostic.fault =
        (parse (blankComments source)).diagnostics.map Diagnostic.fault :=
      congrArg Gist.faults hgist
    have hmessages := congrArg (List.map Fault.message) hfaults
    rw [List.map_map, List.map_map] at hmessages
    exact hmessages.symm

end Document

end DiagramTint
