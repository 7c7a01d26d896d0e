import DiagramTint.Proofs.Document.Division

/-!
# Locality of statements

A statement is read the same way whatever stands before and after it: the text of a top-level node
is a document of its own with just that node, and a semicolon separates what stands before it from
what follows, whatever is wrong with either.
-/

namespace DiagramTint

namespace Document

/-! ## The text of a node -/

/-- The diagnostics of the text of a node, read on its own, moved to where the node stands. -/
def ownDiagnostics (source : List Char) (c : Tree Kind) : List Diagnostic :=
  ((Text.slice? source c.span).map fun text =>
    (parse text).diagnostics.map (Diagnostic.shift c.span.start)).getD []

/-- Read on its own, the text of a node is a document with this node only. -/
def StandsAlone (source : List Char) (c : Tree Kind) : Prop :=
  ∃ text n, Text.slice? source c.span = some text ∧
    (parse text).tree = .node .program ⟨0, Text.byteLength text⟩ [n] ∧ n.shift c.span.start = c

theorem Chunk.standsAlone {source : List Char} {before ts after : List Token} {o : Output}
    (h : Chunk ts o) (htokens : tokenize source = before ++ (ts ++ after)) :
    (∀ c ∈ o.nodes, StandsAlone source c) ∧
      o.diagnostics = o.nodes.flatMap (ownDiagnostics source) := by
  cases ts with
  | nil => exact absurd rfl h.ne_nil
  | cons t ts =>
      rcases h.exists_node with ⟨-, -, rfl⟩ | ⟨c, hnodes, hspan⟩
      · exact ⟨by simp, rfl⟩
      · obtain ⟨text, hslice, htext⟩ := Token.exists_slice htokens
        have hrun : (run {} (tokenize text)).shift t.span.start = o := by
          rw [← run_map_shift, htext, h.run_eq]
        have hstart : c.span.start = t.span.start := by rw [hspan]
        rw [← hspan] at hslice
        have hshift : (run {} (tokenize text)).nodes.map (Tree.shift t.span.start) = [c] := by
          rw [← hnodes, ← hrun]
          rfl
        obtain ⟨n, hn, rfl⟩ := List.map_eq_singleton_iff.mp hshift
        refine ⟨?_, ?_⟩
        · rw [hnodes]
          intro d hd
          rw [List.mem_singleton.mp hd]
          refine ⟨text, n, hslice, ?_, by rw [hstart]⟩
          rw [parse, hn]
        · rw [hnodes, List.flatMap_singleton, ownDiagnostics, hslice, hstart, ← hrun]
          rfl

theorem Divides.standsAlone {source : List Char} {before ts : List Token} {o : Output}
    (h : Divides ts o) (htokens : tokenize source = before ++ ts) :
    (∀ c ∈ o.nodes, StandsAlone source c) ∧
      o.diagnostics = o.nodes.flatMap (ownDiagnostics source) := by
  induction h generalizing before with
  | nil => exact ⟨by simp, rfl⟩
  | @cons ts us o p hchunk hrest ih =>
      obtain ⟨hnodes, hdiagnostics⟩ := hchunk.standsAlone htokens
      have hlater : tokenize source = (before ++ ts) ++ us := by
        rw [htokens, List.append_assoc]
      obtain ⟨hnodes', hdiagnostics'⟩ := ih hlater
      refine ⟨?_, ?_⟩
      · intro c hc
        rcases List.mem_append.mp hc with hc | hc
        · exact hnodes c hc
        · exact hnodes' c hc
      · rw [Output.append_diagnostics, Output.append_nodes, List.flatMap_append, hdiagnostics,
          hdiagnostics']

/-- Each child of the root stands alone: read as a document, its text has one node, and this is the
child itself moved to the front.  The diagnostics are those of the texts of the children, one after
the other. -/
theorem parse_children_standAlone (source : List Char) :
    (∀ c ∈ (parse source).tree.children, ∃ text n, Text.slice? source c.span = some text ∧
      (parse text).tree = .node .program ⟨0, Text.byteLength text⟩ [n] ∧
      n.shift c.span.start = c) ∧
    (parse source).diagnostics =
      (parse source).tree.children.flatMap fun c =>
        ((Text.slice? source c.span).map fun text =>
          (parse text).diagnostics.map (Diagnostic.shift c.span.start)).getD [] := by
  have hdivides := divides_run (tokenize source)
  exact hdivides.standsAlone (List.nil_append _).symm

/-- A stray sign, and a message without receiver that ends with a comment. -/
def brokenText : List Char :=
  ['=', 'a', '-', '>', '#', 'é']

theorem parse_brokenText_standAlone :
    ∃ c ∈ (parse brokenText).tree.children, c.label = .message ∧ c.span = ⟨1, 7⟩ ∧
      ∃ text n, Text.slice? brokenText c.span = some text ∧
        (parse text).tree = .node .program ⟨0, Text.byteLength text⟩ [n] ∧
        n.shift c.span.start = c := by
  have htokens : tokenize brokenText =
      [⟨.equals, ⟨0, 1⟩⟩, ⟨.identifier, ⟨1, 2⟩⟩, ⟨.arrow, ⟨2, 4⟩⟩, ⟨.lineComment, ⟨4, 7⟩⟩] := by
    decide +kernel
  have hchildren : (parse brokenText).tree.children =
      [.leaf .error ⟨0, 1⟩, .node .message ⟨1, 7⟩
        [.leaf .identifier ⟨1, 2⟩, .leaf .arrow ⟨2, 4⟩, .leaf .lineComment ⟨4, 7⟩]] := by
    rw [parse, htokens]
    rfl
  have hmem : Tree.node .message ⟨1, 7⟩
      [.leaf .identifier ⟨1, 2⟩, .leaf .arrow ⟨2, 4⟩, .leaf .lineComment ⟨4, 7⟩] ∈
        (parse brokenText).tree.children := by
    rw [hchildren]
    exact List.mem_cons_of_mem _ List.mem_cons_self
  exact ⟨_, hmem, rfl, rfl, (parse_children_standAlone brokenText).1 _ hmem⟩

/-! ## Semicolons -/

theorem step_semicolon {t : Token} (hkind : t.kind = .semicolon) (state : State) :
    (step state t).2 = ⟨t.span.stop, none⟩ := by
  obtain ⟨last, current⟩ := state
  cases current with
  | none => rw [step, start, hkind]
  | some s =>
      have htakes : s.stage.takes t.kind = none := by
        rw [hkind, Stage.takes_semicolon]
      simp only [step, advance_semicolon hkind htakes]

/-- Behind a semicolon reading starts afresh. -/
theorem run_append {ts : List Token} {t : Token} (h : ts.getLast? = some t)
    (hkind : t.kind = .semicolon) (state : State) (us : List Token) :
    run state (ts ++ us) = run state ts ++ run {} us := by
  induction ts generalizing state with
  | nil => cases h
  | cons u ts ih =>
      rw [List.cons_append, run, run]
      cases ts with
      | nil =>
          rw [List.getLast?_singleton, Option.some.injEq] at h
          subst h
          simp only [step_semicolon hkind, List.nil_append, run_none]
          rw [run]
          exact congrArg (· ++ _) (Output.append_empty _).symm
      | cons v vs =>
          rw [List.getLast?_cons_cons] at h
          simp only [ih h, Output.append_assoc]

/-- A text that ends with a semicolon and a text after it are read one after the other. -/
theorem parse_append_of_semicolon (a b : List Char) {t : Token}
    (h : (tokenize a).getLast? = some t) (hkind : t.kind = .semicolon) :
    (parse (a ++ b)).tree.children =
        (parse a).tree.children ++
          (parse b).tree.children.map (Tree.shift (Text.byteLength a)) ∧
      (parse (a ++ b)).diagnostics =
        (parse a).diagnostics ++
          (parse b).diagnostics.map (Diagnostic.shift (Text.byteLength a)) := by
  have hrun : run {} (tokenize (a ++ b)) =
      run {} (tokenize a) ++ (run {} (tokenize b)).shift (Text.byteLength a) := by
    rw [tokenize_append h hkind, run_append h hkind, run_map_shift]
  exact ⟨congrArg Output.nodes hrun, congrArg Output.diagnostics hrun⟩

/-- A message that a semicolon cuts off before its receiver. -/
def cutText : List Char :=
  ['a', '-', '>', ';', ' ']

theorem parse_append_cutText :
    (tokenize cutText).getLast? = some ⟨.semicolon, ⟨3, 4⟩⟩ ∧
      (parse (cutText ++ ['"'])).diagnostics =
        [⟨.expectedTarget, ⟨3, 3⟩⟩, ⟨.expectedStatement, ⟨5, 6⟩⟩] := by
  have hcut : tokenize cutText =
      [⟨.identifier, ⟨0, 1⟩⟩, ⟨.arrow, ⟨1, 3⟩⟩, ⟨.semicolon, ⟨3, 4⟩⟩] := by
    decide +kernel
  have hquote : tokenize ['"'] = [⟨.string false, ⟨0, 1⟩⟩] := by
    decide +kernel
  have hlast : (tokenize cutText).getLast? = some ⟨.semicolon, ⟨3, 4⟩⟩ := by
    rw [hcut]
    rfl
  refine ⟨hlast, ?_⟩
  rw [(parse_append_of_semicolon cutText ['"'] hlast rfl).2, parse, parse, hcut, hquote]
  rfl

end Document

end DiagramTint
