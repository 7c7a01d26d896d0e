import DiagramTint.Proofs.Document.Grammar
import DiagramTint.Proofs.Document.Locality
import DiagramTint.Proofs.Document.Nesting
import DiagramTint.Proofs.Document.Shape
import DiagramTint.Proofs.Token.Touching

/-!
# What diagnostics are about

Each top-level node of a document reports at most one fault: a stray token itself, an unterminated
text in a statement, or what a statement still lacks where its last token ends.  As the nodes follow
one another, so do their diagnostics, and these show all stray tokens and all unterminated texts.
-/

namespace DiagramTint

theorem Stage.fault_of_takes {stage : Stage} {kind : TokenKind} {r : Stage.Reaction}
    (h : stage.takes kind = some r) :
    r.fault = if kind = .string false then some .unterminatedString else none := by
  by_cases hcomment : kind = .lineComment
  · rw [hcomment, takes_comment, Option.some.injEq] at h
    subst hcomment h
    rfl
  · rw [takes_of_ne hcomment] at h
    unfold Stage.react at h
    split at h <;> simp only [Option.some.injEq, reduceCtorEq] at h <;> subst h <;>
      simp [Stage.takeString]
    all_goals rename_i terminated; cases terminated <;> simp

theorem Stage.Moves.next_of_string {stage next : Stage} {terminated : Bool} {node : Option Kind}
    (h : stage.Moves (.string terminated) node next) : next = .semicolon := by
  cases h <;> rfl

/-- What a statement lacks is neither a statement nor the end of a text. -/
theorem Stage.wanted_ne {stage : Stage} {fault : Fault} (h : stage.wanted = some fault) :
    fault ≠ .expectedStatement ∧ fault ≠ .unterminatedString := by
  cases stage <;> simp only [Stage.wanted, Option.some.injEq, reduceCtorEq] at h <;> subst h <;>
    simp

namespace Document

/-- The texts among some nodes whose tokens are unterminated. -/
def openTexts (tokens : List Token) (nodes : List (Tree Kind)) : List (Tree Kind) :=
  nodes.filter fun n => n.label = .string ∧ ⟨.string false, n.span⟩ ∈ tokens

/-- The diagnostics of a top-level node in a document with these tokens. -/
inductive Reports (tokens : List Token) (n : Tree Kind) : List Diagnostic → Prop where
  | nothing (herrors : ErrorFree n) (htexts : openTexts tokens n.children = []) :
      Reports tokens n []
  | stray (hlabel : n.label = .error) : Reports tokens n [⟨.expectedStatement, n.span⟩]
  | unterminated {text : Tree Kind} (herrors : ErrorFree n) (hlabel : n.label ≠ .lineComment)
      (htexts : openTexts tokens n.children = [text]) :
      Reports tokens n [⟨.unterminatedString, text.span⟩]
  | missing {fault : Fault} {t : Token} (herrors : ErrorFree n) (hlabel : n.label ≠ .lineComment)
      (htexts : openTexts tokens n.children = [])
      (hfault : fault ≠ .expectedStatement ∧ fault ≠ .unterminatedString) (ht : t ∈ tokens)
      (hinside : n.span.start ≤ t.span.stop ∧ t.span.stop ≤ n.span.stop) :
      Reports tokens n [⟨fault, t.span.stop, t.span.stop⟩]

section Statement

variable {P : Nat → Prop} {lo hi last : Nat} {s : Statement} {t : Token} {tokens ts : List Token}
  {o : Output} {r : Stage.Reaction}

theorem unterminated_mem_iff (htokens : LaidOut P lo hi (tokens.map Token.span))
    (ht : t ∈ tokens) : ⟨.string false, t.span⟩ ∈ tokens ↔ t.kind = .string false := by
  constructor
  · intro hmem
    rw [← htokens.eq_of_span_eq hmem ht rfl]
  · intro hkind
    rw [← hkind]
    exact ht

theorem openTexts_taken (htokens : LaidOut P lo hi (tokens.map Token.span)) (ht : t ∈ tokens)
    (htakes : s.stage.takes t.kind = some r) :
    openTexts tokens (taken s t r).parts =
      openTexts tokens s.parts ++
        if t.kind = .string false then [.leaf .string t.span] else [] := by
  have hunterminated := unterminated_mem_iff htokens ht
  have hmoves := Stage.moves_of_takes htakes
  rw [taken, openTexts, List.filter_append]
  congr 1
  generalize t.kind = kind at hmoves hunterminated
  generalize r.node = node at hmoves
  generalize s.stage = stage at hmoves
  generalize r.next = next at hmoves
  cases hmoves with
  | @aliasText equals terminated | @label terminated =>
      cases terminated <;> simp [Tree.leaf, Tree.label, Tree.span, hunterminated]
  | _ => simp [Tree.leaf, Tree.label]

/-- A statement that awaits only its semicolon reports nothing more and takes no further text. -/
theorem Completes.diagnostics_eq_nil (htokens : LaidOut P lo hi (tokens.map Token.span))
    (h : Completes s last ts o) (hts : ts ⊆ tokens) (hstage : s.stage = .semicolon) :
    o.diagnostics = [] ∧
      ∀ n ∈ o.nodes, openTexts tokens n.children = openTexts tokens s.parts := by
  induction h with
  | stops => simp [abandon, hstage, Stage.wanted, Statement.close, Tree.children]
  | semicolon hkind => simp [abandon, hstage, Stage.wanted, Statement.close, Tree.children]
  | @takes s last t ts o r htakes hrest ih =>
      obtain ⟨ht, hts⟩ := List.cons_subset.mp hts
      have hkind : t.kind = .lineComment ∧ r.next = .semicolon := by
        have hmoves := Stage.moves_of_takes htakes
        rw [hstage] at hmoves
        generalize t.kind = kind at hmoves
        generalize r.node = node at hmoves
        generalize r.next = next at hmoves
        cases hmoves
        exact ⟨rfl, rfl⟩
      obtain ⟨hdiagnostics, htexts⟩ := ih hts hkind.2
      have hfault := Stage.fault_of_takes htakes
      rw [hkind.1, if_neg (by simp)] at hfault
      refine ⟨?_, ?_⟩
      · rw [Output.append_diagnostics, hdiagnostics, hfault]
        rfl
      · intro n hn
        rw [htexts n hn, openTexts_taken htokens ht htakes, hkind.1, if_neg (by simp),
          List.append_nil]

theorem Completes.errorFree (h : Completes s last ts o) (hsound : Sound s) :
    ∀ n ∈ o.nodes, ErrorFree n := by
  induction h with
  | stops => exact errorFree_abandon hsound _ _
  | semicolon hkind => exact errorFree_abandon hsound _ _
  | takes htakes hrest ih => exact ih (sound_taken hsound htakes)

theorem Completes.label_eq (h : Completes s last ts o) : ∀ n ∈ o.nodes, n.label = s.kind := by
  induction h with
  | stops => simp [abandon, Statement.close, Tree.label]
  | semicolon hkind => simp [abandon, Statement.close, Tree.label]
  | takes htakes hrest ih => exact ih

/-- A statement that ends here reports what it still lacks, where its last token ends. -/
theorem reports_abandon {stop : Nat} (hsound : Sound s) (hkind : s.kind ≠ .lineComment)
    (htexts : openTexts tokens s.parts = []) (hlast : ∃ t ∈ tokens, t.span.stop = last)
    (hstart : s.start ≤ last) (hstop : last ≤ stop) :
    Reports tokens (s.close stop) (abandon s last stop).diagnostics := by
  have herrors : ErrorFree (s.close stop) :=
    errorFree_abandon hsound last stop _ (List.mem_singleton_self _)
  obtain ⟨t, ht, rfl⟩ := hlast
  cases hwanted : s.stage.wanted with
  | none =>
      rw [abandon, hwanted]
      exact .nothing herrors htexts
  | some fault =>
      rw [abandon, hwanted]
      exact .missing herrors hkind htexts (Stage.wanted_ne hwanted) ht ⟨hstart, hstop⟩

theorem Completes.reports (htokens : LaidOut P lo hi (tokens.map Token.span))
    (h : Completes s last ts o) (hsub : ts ⊆ tokens) (hts : LaidOut P last hi (ts.map Token.span))
    (hsound : Sound s) (hkind : s.kind ≠ .lineComment) (htexts : openTexts tokens s.parts = [])
    (hlast : ∃ t ∈ tokens, t.span.stop = last) (hstart : s.start ≤ last) :
    ∀ n ∈ o.nodes, Reports tokens n o.diagnostics := by
  induction h with
  | @stops s last =>
      intro n hn
      rw [List.mem_singleton.mp hn]
      exact reports_abandon hsound hkind htexts hlast hstart (Nat.le_refl last)
  | @semicolon s last t hsemicolon =>
      obtain ⟨hle, hlt, -⟩ := hts
      intro n hn
      rw [List.mem_singleton.mp hn]
      exact reports_abandon hsound hkind htexts hlast hstart (by omega)
  | @takes s last t ts o r htakes hrest ih =>
      have ht : t ∈ tokens := hsub List.mem_cons_self
      have hlater : ts ⊆ tokens := (List.cons_subset.mp hsub).2
      obtain ⟨hle, hlt, -, -, hts⟩ := hts
      have hfault := Stage.fault_of_takes htakes
      have htaken := openTexts_taken htokens ht htakes
      have hsound' := sound_taken hsound htakes
      by_cases hopen : t.kind = .string false
      · -- The one diagnostic of the statement: from here on it awaits only its semicolon.
        rw [if_pos hopen] at hfault htaken
        have hmoves := Stage.moves_of_takes htakes
        rw [hopen] at hmoves
        obtain ⟨hdiagnostics, hnodes⟩ :=
          hrest.diagnostics_eq_nil htokens hlater hmoves.next_of_string
        intro n hn
        have herrors := hrest.errorFree hsound' n hn
        have hlabel : n.label ≠ .lineComment := by
          rw [hrest.label_eq n hn]
          exact hkind
        have htext : openTexts tokens n.children = [.leaf .string t.span] := by
          rw [hnodes n hn, htaken, htexts, List.nil_append]
        rw [Output.append_diagnostics, hdiagnostics, hfault]
        exact .unterminated herrors hlabel htext
      · rw [if_neg hopen] at hfault htaken
        rw [Output.append_diagnostics, hfault]
        exact ih hlater hts hsound' hkind (by rw [htaken, htexts]; rfl) ⟨t, ht, rfl⟩ (by
          change s.start ≤ t.span.stop
          omega)

theorem Chunk.nodes_eq {n : Tree Kind} (h : Chunk ts o) (hn : n ∈ o.nodes) :
    o.nodes = [n] := by
  cases ts with
  | nil => exact absurd rfl h.ne_nil
  | cons t ts =>
      rcases h.exists_node with ⟨-, -, rfl⟩ | ⟨m, hm, -⟩
      · cases hn
      · rw [hm, List.mem_singleton] at hn
        rw [hm, hn]

theorem Chunk.reports (htokens : LaidOut P lo hi (tokens.map Token.span)) (h : Chunk ts o)
    (hsub : ts ⊆ tokens) (hts : LaidOut P lo hi (ts.map Token.span)) :
    ∀ n ∈ o.nodes, Reports tokens n o.diagnostics := by
  cases h with
  | comment hkind =>
      intro n hn
      rw [List.mem_singleton.mp hn]
      exact .nothing (errorFree_leaf.mpr (by simp)) rfl
  | empty hkind => simp
  | stray hkind =>
      intro n hn
      rw [List.mem_singleton.mp hn]
      exact .stray rfl
  | @declaration t ts o hkind hrest | @message t ts o hkind hrest =>
      obtain ⟨ht, hsub⟩ := List.cons_subset.mp hsub
      obtain ⟨-, hlt, -, -, hts⟩ := hts
      exact hrest.reports htokens hsub hts (by simp [Sound, errorFree_leaf]) (by simp)
        (by simp [openTexts, Tree.leaf, Tree.label]) ⟨t, ht, rfl⟩ (Nat.le_of_lt hlt)

end Statement

/-- Every top-level node reports what its text reports on its own. -/
theorem Divides.reports {P : Nat → Prop} {lo hi : Nat} {source : List Char}
    {before ts : List Token} {o : Output} (h : Divides ts o)
    (htokens : tokenize source = before ++ ts)
    (hlaidOut : LaidOut P lo hi ((tokenize source).map Token.span)) :
    ∀ n ∈ o.nodes, Reports (tokenize source) n (ownDiagnostics source n) := by
  induction h generalizing before with
  | nil => simp
  | @cons ts us o p hchunk hrest ih =>
      have hlater : tokenize source = (before ++ ts) ++ us := by
        rw [htokens, List.append_assoc]
      have hsub : ts ⊆ tokenize source := by
        rw [hlater]
        exact fun t ht => List.mem_append_left us (List.mem_append_right before ht)
      have hts : LaidOut P lo hi (ts.map Token.span) := by
        have hall := hlaidOut
        rw [hlater, List.map_append, List.map_append] at hall
        exact hall.of_append_left.of_append_right
      intro n hn
      rcases List.mem_append.mp hn with hn | hn
      · obtain ⟨-, hown⟩ := hchunk.standsAlone htokens
        have hreports := hchunk.reports hlaidOut hsub hts n hn
        rw [hchunk.nodes_eq hn, List.flatMap_singleton] at hown
        rwa [← hown]
      · exact ih hlater n hn

theorem reports_of_mem_children {source : List Char} {n : Tree Kind}
    (h : n ∈ (parse source).tree.children) :
    Reports (tokenize source) n (ownDiagnostics source n) :=
  (divides_run (tokenize source)).reports (List.nil_append _).symm (laidOut_tokenize source) n h

/-! ## The diagnostics of one node -/

section Reports

variable {P : Nat → Prop} {tokens : List Token} {n : Tree Kind} {report : List Diagnostic}

theorem Reports.length_le (h : Reports tokens n report) :
    report.length ≤ if n.label ≠ .lineComment then 1 else 0 := by
  cases h with
  | nothing => exact Nat.zero_le _
  | stray hlabel => simp [hlabel]
  | unterminated _ hlabel _ => simp [hlabel]
  | missing _ hlabel _ _ _ _ => simp [hlabel]

theorem Reports.pairwise (h : Reports tokens n report) (R : Diagnostic → Diagnostic → Prop) :
    report.Pairwise R := by
  cases h with
  | nothing => exact List.Pairwise.nil
  | _ => exact List.pairwise_singleton R _

/-- The diagnostics of a node lie inside it. -/
theorem Reports.inside (h : Reports tokens n report) (hn : Shallow P n)
    (hlt : n.span.start < n.span.stop) (hstart : P n.span.start) (hstop : P n.span.stop)
    (htokens : ∀ t ∈ tokens, P t.span.stop) :
    ∀ e ∈ report, n.span.start ≤ e.span.start ∧ e.span.start ≤ e.span.stop ∧
      e.span.stop ≤ n.span.stop ∧ P e.span.start ∧ P e.span.stop := by
  cases h with
  | nothing => simp
  | stray hlabel => simpa using ⟨Nat.le_of_lt hlt, hstart, hstop⟩
  | @unterminated text _ _ htexts =>
      have hmem : text ∈ n.children := by
        have hopen : text ∈ openTexts tokens n.children := by
          rw [htexts]
          exact List.mem_singleton_self text
        exact List.mem_of_mem_filter hopen
      obtain ⟨hfirst, htext, htextStart, htextStop, hlast⟩ :=
        hn.1.of_mem (List.mem_map_of_mem hmem)
      simpa using ⟨hfirst, Nat.le_of_lt htext, hlast, htextStart, htextStop⟩
  | @missing fault t _ _ _ _ ht hinside =>
      simpa using ⟨hinside.1, hinside.2, htokens t ht⟩

theorem Formed.openTexts_preorder (h : Formed n) :
    openTexts tokens n.preorder = openTexts tokens n.children := by
  rw [h.preorder_eq, openTexts, List.filter_cons_of_neg (by simp [h.label_ne_string])]
  rfl

theorem ErrorFree.filter_preorder (h : ErrorFree n) :
    n.preorder.filter (fun m => m.label = .error) = [] := by
  rw [List.filter_eq_nil_iff]
  intro m hm
  simpa using h m hm

theorem Formed.preorder_of_error (h : Formed n) (hlabel : n.label = .error) : n.preorder = [n] := by
  cases h with
  | comment => cases hlabel
  | stray => simp [Tree.leaf]
  | declaration hne hparts => cases hlabel
  | message hne hparts hlabels => cases hlabel

/-- A node reports that a statement is expected exactly where an error node stands. -/
theorem Reports.strays (h : Reports tokens n report) (hn : Formed n) :
    (report.filter fun e => e.fault = .expectedStatement).map Diagnostic.span =
      (n.preorder.filter fun m => m.label = .error).map Tree.span := by
  cases h with
  | nothing herrors _ => rw [herrors.filter_preorder]; rfl
  | stray hlabel => simp [hn.preorder_of_error hlabel, hlabel]
  | unterminated herrors _ _ => rw [herrors.filter_preorder]; rfl
  | missing herrors _ _ hfault _ _ => rw [herrors.filter_preorder]; simp [hfault.1]

/-- A node reports an unterminated text exactly where it has one. -/
theorem Reports.texts (h : Reports tokens n report) (hn : Formed n) :
    (report.filter fun e => e.fault = .unterminatedString).map Diagnostic.span =
      (openTexts tokens n.preorder).map Tree.span := by
  rw [hn.openTexts_preorder]
  cases h with
  | nothing _ htexts => rw [htexts]; rfl
  | stray hlabel =>
      cases hn with
      | stray => rfl
      | _ => cases hlabel
  | unterminated _ _ htexts => rw [htexts]; rfl
  | missing _ _ htexts hfault _ _ => rw [htexts]; simp [hfault.2]

/-- Anything else a node reports stands where a token ends. -/
theorem Reports.others (h : Reports tokens n report) :
    ∀ e ∈ report, e.fault ≠ .expectedStatement → e.fault ≠ .unterminatedString →
      e.span.start = e.span.stop ∧ ∃ t ∈ tokens, t.span.stop = e.span.start := by
  cases h with
  | nothing => simp
  | stray hlabel => simp
  | unterminated _ _ _ => simp
  | @missing fault t _ _ _ _ ht _ => simpa using fun _ _ => ⟨t, ht, rfl⟩

end Reports

/-! ## All diagnostics -/

theorem message_eq_expectedStatement {fault : Fault} :
    fault.message = "expected alias or message" ↔ fault = .expectedStatement := by
  cases fault <;> simp [Fault.message]

theorem message_eq_unterminatedString {fault : Fault} :
    fault.message = "unterminated string" ↔ fault = .unterminatedString := by
  cases fault <;> simp [Fault.message]

theorem diagnostics_eq_flatMap (source : List Char) :
    (parse source).diagnostics =
      (parse source).tree.children.flatMap (ownDiagnostics source) :=
  ((divides_run (tokenize source)).standsAlone (List.nil_append _).symm).2

theorem filter_preorder_parse {p : Tree Kind → Bool} {source : List Char}
    (hroot : p (parse source).tree = false) :
    (parse source).tree.preorder.filter p =
      (parse source).tree.children.flatMap fun n => n.preorder.filter p := by
  rw [parse_tree] at hroot
  rw [parse_tree, Tree.preorder_node, List.filter_cons_of_neg (by simp [hroot]),
    List.filter_flatMap]
  rfl

/-- A diagnostic of a top-level node lies inside the node, between two characters. -/
theorem inside_of_mem_children {source : List Char} {n : Tree Kind}
    (h : n ∈ (parse source).tree.children) :
    ∀ e ∈ ownDiagnostics source n, n.span.start ≤ e.span.start ∧ e.span.start ≤ e.span.stop ∧
      e.span.stop ≤ n.span.stop ∧ Text.IsBoundary source e.span.start ∧
      Text.IsBoundary source e.span.stop := by
  obtain ⟨hlaidOut, hshallow⟩ := nodesLaidOut_parse source
  obtain ⟨-, hlt, hstart, hstop, -⟩ := hlaidOut.of_mem (List.mem_map_of_mem h)
  refine (reports_of_mem_children h).inside (hshallow n h) hlt hstart hstop ?_
  intro t ht
  exact ((laidOut_tokenize source).of_mem (List.mem_map_of_mem ht)).2.2.2.1

theorem pairwise_diagnostics (source : List Char) :
    (parse source).diagnostics.Pairwise fun a b => a.span.stop ≤ b.span.start := by
  have hnodes := List.pairwise_map.mp (nodesLaidOut_parse source).1.pairwise
  rw [diagnostics_eq_flatMap, List.pairwise_flatMap]
  refine ⟨?_, hnodes.imp_of_mem ?_⟩
  · intro n hn
    exact (reports_of_mem_children hn).pairwise _
  · intro n m hn hm hle a ha b hb
    have hfirst := inside_of_mem_children hn a ha
    have hsecond := inside_of_mem_children hm b hb
    omega

theorem length_diagnostics_le (source : List Char) :
    (parse source).diagnostics.length ≤
      ((parse source).tree.children.filter fun n => n.label ≠ .lineComment).length := by
  have hnodes : ∀ nodes : List (Tree Kind), nodes ⊆ (parse source).tree.children →
      (nodes.flatMap (ownDiagnostics source)).length ≤
        (nodes.filter fun n => n.label ≠ .lineComment).length := by
    intro nodes
    induction nodes with
    | nil => simp
    | cons n nodes ih =>
        intro hsub
        obtain ⟨hn, hsub⟩ := List.cons_subset.mp hsub
        have hreport := (reports_of_mem_children hn).length_le
        have hlater := ih hsub
        rw [List.flatMap_cons, List.length_append]
        by_cases hlabel : n.label = .lineComment
        · rw [if_neg (by simp [hlabel])] at hreport
          rw [List.filter_cons_of_neg (by simp [hlabel])]
          omega
        · rw [if_pos hlabel] at hreport
          rw [List.filter_cons_of_pos (by simpa using hlabel), List.length_cons]
          omega
  rw [diagnostics_eq_flatMap]
  exact hnodes _ (List.Subset.refl _)

/-- The diagnostics of a document follow one another inside the source and cut no character.  Those
about a missing statement are, in order, the error nodes, and those about an unterminated text are
the texts whose tokens are unterminated; all others are empty and stand where a token ends.  Every
top-level node gives rise to at most one diagnostic, and a comment to none. -/
theorem parse_diagnostics_accounted (source : List Char) :
    ((parse source).diagnostics.Pairwise fun a b => a.span.stop ≤ b.span.start) ∧
    (∀ e ∈ (parse source).diagnostics, e.span.start ≤ e.span.stop ∧
      e.span.stop ≤ Text.byteLength source ∧ Text.IsBoundary source e.span.start ∧
      Text.IsBoundary source e.span.stop) ∧
    ((parse source).diagnostics.filter fun e =>
        e.fault.message = "expected alias or message").map Diagnostic.span =
      ((parse source).tree.preorder.filter fun n => n.label = .error).map Tree.span ∧
    ((parse source).diagnostics.filter fun e =>
        e.fault.message = "unterminated string").map Diagnostic.span =
      ((parse source).tree.preorder.filter fun n =>
        n.label = .string ∧ ⟨.string false, n.span⟩ ∈ tokenize source).map Tree.span ∧
    (∀ e ∈ (parse source).diagnostics, e.fault.message ≠ "expected alias or message" →
      e.fault.message ≠ "unterminated string" →
      e.span.start = e.span.stop ∧ ∃ t ∈ tokenize source, t.span.stop = e.span.start) ∧
    ((parse source).diagnostics =
        (parse source).tree.children.flatMap (ownDiagnostics source) ∧
      ∀ n ∈ (parse source).tree.children, (ownDiagnostics source n).length ≤ 1 ∧
        (n.label = .lineComment → ownDiagnostics source n = []) ∧
        ∀ e ∈ ownDiagnostics source n,
          n.span.start ≤ e.span.start ∧ e.span.stop ≤ n.span.stop) ∧
    (parse source).diagnostics.length ≤
      ((parse source).tree.children.filter fun n => n.label ≠ .lineComment).length := by
  simp only [message_eq_expectedStatement, message_eq_unterminatedString, ne_eq]
  have hown := diagnostics_eq_flatMap source
  have hmem : ∀ e ∈ (parse source).diagnostics,
      ∃ n ∈ (parse source).tree.children, e ∈ ownDiagnostics source n := by
    intro e he
    rw [hown] at he
    exact List.mem_flatMap.mp he
  refine ⟨pairwise_diagnostics source, ?_, ?_, ?_, ?_, ⟨hown, ?_⟩, length_diagnostics_le source⟩
  · intro e he
    obtain ⟨n, hn, he⟩ := hmem e he
    obtain ⟨-, hle, hstop, hboundaries⟩ := inside_of_mem_children hn e he
    have hend := ((nodesLaidOut_parse source).1.of_mem (List.mem_map_of_mem hn)).2.2.2.2
    exact ⟨hle, Nat.le_trans hstop hend, hboundaries⟩
  · rw [hown, List.filter_flatMap, filter_preorder_parse (by simp [parse, Tree.label]),
      List.map_flatMap, List.map_flatMap]
    exact List.flatMap_congr fun n hn =>
      (reports_of_mem_children hn).strays (formed_of_mem_children hn)
  · rw [hown, List.filter_flatMap, filter_preorder_parse (by simp [parse, Tree.label]),
      List.map_flatMap, List.map_flatMap]
    exact List.flatMap_congr fun n hn =>
      (reports_of_mem_children hn).texts (formed_of_mem_children hn)
  · intro e he
    obtain ⟨n, hn, he⟩ := hmem e he
    exact (reports_of_mem_children hn).others e he
  · intro n hn
    have hlength := (reports_of_mem_children hn).length_le
    refine ⟨?_, ?_, ?_⟩
    · refine Nat.le_trans hlength ?_
      split <;> simp
    · intro hlabel
      rw [if_neg (by simp [hlabel])] at hlength
      exact List.eq_nil_of_length_eq_zero (by omega)
    · intro e he
      obtain ⟨hstart, -, hstop, -⟩ := inside_of_mem_children hn e he
      exact ⟨hstart, hstop⟩

/-- A stray sign, a message that ends with a comment in place of its receiver, and an alias whose
text is not closed. -/
def faultyText : List Char :=
  ['=', 'a', '-', '>', '#', 'é', '\n', 'a', 'l', 'i', 'a', 's', ' ', 'b', '"', 'x']

theorem parse_diagnostics_faultyText :
    (parse faultyText).diagnostics =
        [⟨.expectedStatement, ⟨0, 1⟩⟩, ⟨.expectedTarget, ⟨7, 7⟩⟩, ⟨.unterminatedString, ⟨15, 17⟩⟩] ∧
      (∃ t ∈ tokenize faultyText, t.span.stop = 7) ∧
      [⟨0, 1⟩] = ((parse faultyText).tree.preorder.filter fun n => n.label = .error).map Tree.span ∧
      [⟨15, 17⟩] = ((parse faultyText).tree.preorder.filter fun n =>
        n.label = .string ∧ ⟨.string false, n.span⟩ ∈ tokenize faultyText).map Tree.span := by
  have htokens : tokenize faultyText =
      [⟨.equals, ⟨0, 1⟩⟩, ⟨.identifier, ⟨1, 2⟩⟩, ⟨.arrow, ⟨2, 4⟩⟩, ⟨.lineComment, ⟨4, 7⟩⟩,
        ⟨.aliasKeyword, ⟨8, 13⟩⟩, ⟨.identifier, ⟨14, 15⟩⟩, ⟨.string false, ⟨15, 17⟩⟩] := by
    decide +kernel
  have hdiagnostics : (parse faultyText).diagnostics =
      [⟨.expectedStatement, ⟨0, 1⟩⟩, ⟨.expectedTarget, ⟨7, 7⟩⟩,
        ⟨.unterminatedString, ⟨15, 17⟩⟩] := by
    rw [parse, htokens]
    rfl
  obtain ⟨-, -, hstrays, htexts, hothers, -, -⟩ := parse_diagnostics_accounted faultyText
  rw [hdiagnostics] at hstrays htexts hothers
  exact ⟨hdiagnostics, (hothers ⟨.expectedTarget, ⟨7, 7⟩⟩ (by simp) (by decide) (by decide)).2,
    hstrays, htexts⟩

end Document

end DiagramTint
