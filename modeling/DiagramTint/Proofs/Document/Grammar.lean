import DiagramTint.Proofs.Document.Reading
import DiagramTint.Proofs.Tree.Nesting

/-!
# The grammar of documents

A document has no diagnostics exactly if its tokens, comments left out, are a sequence of statements
of the grammar.  Its nodes are then those of the statements, whichever way the tokens are divided.
-/

namespace DiagramTint

open Document

/-- The tokens of one statement, and the kind and the parts of its node.  A semicolon of its own is
an empty statement and has no node. -/
inductive Clause : List Token → Option (Kind × List (Tree Kind)) → Prop where
  | declaration {keyword name text : Token} {equals semicolon : Option Token}
      (hkeyword : keyword.kind = .aliasKeyword) (hname : name.kind = .identifier)
      (hequals : ∀ t ∈ equals, t.kind = .equals) (htext : text.kind = .string true)
      (hsemicolon : ∀ t ∈ semicolon, t.kind = .semicolon) :
      Clause (keyword :: name :: (equals.toList ++ text :: semicolon.toList))
        (some (.alias, [.leaf .aliasKeyword keyword.span, .leaf .identifier name.span,
          .leaf .string text.span]))
  | message {sender arrow receiver : Token} {semicolon : Option Token}
      (hsender : sender.kind = .identifier) (harrow : arrow.kind = .arrow)
      (hreceiver : receiver.kind = .identifier)
      (hsemicolon : ∀ t ∈ semicolon, t.kind = .semicolon) :
      Clause (sender :: arrow :: receiver :: semicolon.toList)
        (some (.message, [.leaf .identifier sender.span, .leaf .arrow arrow.span,
          .leaf .identifier receiver.span]))
  | labelled {sender arrow receiver colon text : Token} {semicolon : Option Token}
      (hsender : sender.kind = .identifier) (harrow : arrow.kind = .arrow)
      (hreceiver : receiver.kind = .identifier) (hcolon : colon.kind = .colon)
      (htext : text.kind = .string true) (hsemicolon : ∀ t ∈ semicolon, t.kind = .semicolon) :
      Clause (sender :: arrow :: receiver :: colon :: text :: semicolon.toList)
        (some (.message, [.leaf .identifier sender.span, .leaf .arrow arrow.span,
          .leaf .identifier receiver.span, .leaf .string text.span]))
  | empty {semicolon : Token} (hsemicolon : semicolon.kind = .semicolon) : Clause [semicolon] none

/-- A sequence of statements, and the nodes of those that have one. -/
inductive Derives : List Token → List (Kind × List (Tree Kind)) → Prop where
  | nil : Derives [] []
  | cons {tokens rest : List Token} {node : Option (Kind × List (Tree Kind))}
      {nodes : List (Kind × List (Tree Kind))} (hclause : Clause tokens node)
      (hrest : Derives rest nodes) : Derives (tokens ++ rest) (node.toList ++ nodes)

namespace Document

/-! ## Sequences of statements are read without fault -/

/-- The first token, if there is one, can start a statement. -/
def Opens (ts : List Token) : Prop :=
  ∀ t ∈ ts.head?, t.kind = .aliasKeyword ∨ t.kind = .identifier ∨ t.kind = .semicolon

theorem opens_semicolon {semicolon : Option Token} {ts : List Token}
    (hsemicolon : ∀ t ∈ semicolon, t.kind = .semicolon) (h : Opens ts) :
    Opens (semicolon.toList ++ ts) := by
  cases semicolon with
  | none => exact h
  | some t => simp [Opens, hsemicolon t rfl]

theorem opens_of_clause {tokens : List Token} {node : Option (Kind × List (Tree Kind))}
    (h : Clause tokens node) (rest : List Token) : Opens (tokens ++ rest) := by
  cases h <;> simp_all [Opens]

theorem opens_of_derives {ts : List Token} {nodes : List (Kind × List (Tree Kind))}
    (h : Derives ts nodes) : Opens ts := by
  cases h with
  | nil => simp [Opens]
  | cons hclause hrest => exact opens_of_clause hclause _

/-- A statement with nothing left to require ends before the next one; a semicolon between them
belongs to either. -/
theorem reading_complete {s : Statement} {semicolon : Option Token} {ts : List Token}
    (hkind : s.kind ≠ .lineComment) (hwanted : s.stage.wanted = none)
    (hsemicolon : ∀ t ∈ semicolon, t.kind = .semicolon) (hopens : Opens ts) :
    reading (some s) (semicolon.toList ++ ts) =
      ⟨[(s.kind, (bare s).parts)], []⟩ ++ reading none ts := by
  have hskip : reading none (semicolon.toList ++ ts) = reading none ts := by
    cases semicolon with
    | none => rfl
    | some t => exact reading_semicolon (hsemicolon t rfl) ts
  rw [reading_refuses hkind, hwanted, hskip]
  · rfl
  · intro t ht
    have hkinds := opens_semicolon hsemicolon hopens t ht
    have hstage : s.stage = .messageColon ∨ s.stage = .semicolon := by
      cases hstage : s.stage <;> simp_all [Stage.wanted]
    rcases hkinds with hk | hk | hk <;> rcases hstage with hst | hst <;> rw [hk, hst] <;> rfl

theorem reading_clause {tokens ts : List Token} {node : Option (Kind × List (Tree Kind))}
    (h : Clause tokens node) (hopens : Opens ts) :
    reading none (tokens ++ ts) = ⟨node.toList, []⟩ ++ reading none ts := by
  cases h with
  | @declaration keyword name text equals semicolon hkeyword hname hequals htext hsemicolon =>
      simp only [List.cons_append, List.append_assoc]
      rw [reading_alias hkeyword, reading_takes (by simp) (by rw [hname]; rfl)]
      cases equals with
      | none =>
          simp only [Option.toList_none, List.nil_append]
          rw [reading_takes (by simp [taken]) (by rw [htext]; rfl),
            reading_complete (by simp [taken]) rfl hsemicolon hopens]
          simp [taken, bare, Tree.leaf, Tree.label, Stage.takeString]
      | some sign =>
          have hsign := hequals sign rfl
          simp only [Option.toList_some, List.cons_append, List.nil_append]
          rw [reading_takes (by simp [taken]) (by rw [hsign]; rfl),
            reading_takes (by simp [taken]) (by rw [htext]; rfl),
            reading_complete (by simp [taken]) rfl hsemicolon hopens]
          simp [taken, bare, Tree.leaf, Tree.label, Stage.takeString]
  | message hsender harrow hreceiver hsemicolon =>
      rw [List.cons_append, List.cons_append, List.cons_append, reading_message hsender,
        reading_takes (by simp) (by rw [harrow]; rfl),
        reading_takes (by simp [taken]) (by rw [hreceiver]; rfl),
        reading_complete (by simp [taken]) rfl hsemicolon hopens]
      simp [taken, bare, Tree.leaf, Tree.label]
  | labelled hsender harrow hreceiver hcolon htext hsemicolon =>
      simp only [List.cons_append]
      rw [reading_message hsender,
        reading_takes (by simp) (by rw [harrow]; rfl),
        reading_takes (by simp [taken]) (by rw [hreceiver]; rfl),
        reading_takes (by simp [taken]) (by rw [hcolon]; rfl),
        reading_takes (by simp [taken]) (by rw [htext]; rfl),
        reading_complete (by simp [taken]) rfl hsemicolon hopens]
      simp [taken, bare, Tree.leaf, Tree.label, Stage.takeString]
  | empty hsemicolon => exact reading_semicolon hsemicolon ts

theorem reading_derives {ts : List Token} {nodes : List (Kind × List (Tree Kind))}
    (h : Derives ts nodes) : reading none ts = ⟨nodes, []⟩ := by
  induction h with
  | nil => rfl
  | cons hclause hrest ih =>
      rw [reading_clause hclause (opens_of_derives hrest), ih]
      rfl

/-! ## What is read without fault is a sequence of statements -/

/-- What a statement can take without fault at each stage, and the stage after it. -/
theorem react_inv {stage : Stage} {kind : TokenKind} {r : Stage.Reaction}
    (h : stage.react kind = some r) (hfault : r.fault = none) :
    match stage with
    | .aliasName => kind = .identifier ∧ r.next = .aliasText true
    | .aliasText equals =>
      (equals = true ∧ kind = .equals ∧ r.next = .aliasText false) ∨
        (kind = .string true ∧ r.next = .semicolon)
    | .messageArrow => kind = .arrow ∧ r.next = .messageTarget
    | .messageTarget => kind = .identifier ∧ r.next = .messageColon
    | .messageColon => kind = .colon ∧ r.next = .messageLabel
    | .messageLabel => kind = .string true ∧ r.next = .semicolon
    | .semicolon => False := by
  unfold Stage.react at h
  split at h <;> simp only [Option.some.injEq, reduceCtorEq] at h <;> subst h <;>
    simp_all [Stage.takeString]

theorem react_messageColon {kind : TokenKind} (h : kind ≠ .colon) :
    Stage.messageColon.react kind = none := by
  cases kind <;> simp_all [Stage.react]

/-- A statement that still requires something and is read without fault takes the next token. -/
theorem exists_react {s : Statement} {ts : List Token} {fault : Fault}
    (hkind : s.kind ≠ .lineComment) (hts : ∀ t ∈ ts, t.kind ≠ .lineComment)
    (hwanted : s.stage.wanted = some fault) (h : (reading (some s) ts).faults = []) :
    ∃ t rest r, ts = t :: rest ∧ s.stage.react t.kind = some r ∧ r.fault = none ∧
      (reading (some (taken s t r)) rest).faults = [] := by
  by_cases hrefuses : ∀ t ∈ ts.head?, s.stage.takes t.kind = none
  · rw [reading_refuses hkind hrefuses, hwanted] at h
    simp at h
  · cases ts with
    | nil => simp at hrefuses
    | cons t rest =>
        cases htakes : s.stage.takes t.kind with
        | none => simp [htakes] at hrefuses
        | some r =>
            rw [reading_takes hkind htakes] at h
            simp only [Gist.append_faults, List.append_eq_nil_iff, Option.toList_eq_nil_iff] at h
            rw [Stage.takes_of_ne (hts t List.mem_cons_self)] at htakes
            exact ⟨t, rest, r, rfl, htakes, h.1, h.2⟩

theorem faults_of_closed {s : Statement} {ts : List Token} (hkind : s.kind ≠ .lineComment)
    (hts : ∀ t ∈ ts, t.kind ≠ .lineComment) (hstage : s.stage = .semicolon)
    (h : (reading (some s) ts).faults = []) : (reading none ts).faults = [] := by
  rw [reading_refuses hkind] at h
  · exact (List.append_eq_nil_iff.mp h).2
  · intro t ht
    rw [Stage.takes_of_ne (hts t (List.mem_of_mem_head? ht)), hstage]
    rfl

/-- Where only a string can follow, it comes next and ends the statement but for its semicolon. -/
theorem exists_text {s : Statement} {ts : List Token} (hkind : s.kind ≠ .lineComment)
    (hts : ∀ t ∈ ts, t.kind ≠ .lineComment)
    (hstage : s.stage = .aliasText false ∨ s.stage = .messageLabel)
    (h : (reading (some s) ts).faults = []) :
    ∃ text rest, ts = text :: rest ∧ text.kind = .string true ∧
      (reading none rest).faults = [] := by
  have hwanted : s.stage.wanted = some .expectedString := by
    rcases hstage with hstage | hstage <;> rw [hstage] <;> rfl
  obtain ⟨text, rest, r, rfl, hreact, hfault, hrest⟩ := exists_react hkind hts hwanted h
  have htext : text.kind = .string true ∧ r.next = .semicolon := by
    rcases hstage with hstage | hstage <;> rw [hstage] at hreact <;>
      simpa using react_inv hreact hfault
  rw [List.forall_mem_cons] at hts
  have htaken : (taken s text r).kind ≠ .lineComment := hkind
  exact ⟨text, rest, rfl, htext.1, faults_of_closed htaken hts.2 htext.2 hrest⟩

/-- Tokens begin with a statement, and what follows it is read without fault. -/
def StartsWithClause (ts : List Token) : Prop :=
  ∃ tokens rest node, ts = tokens ++ rest ∧ Clause tokens node ∧ tokens ≠ [] ∧
    (reading none rest).faults = []

theorem startsWithClause_alias {keyword : Token} {ts : List Token}
    (hkeyword : keyword.kind = .aliasKeyword) (hts : ∀ t ∈ ts, t.kind ≠ .lineComment)
    (h : (reading none (keyword :: ts)).faults = []) : StartsWithClause (keyword :: ts) := by
  rw [reading_alias hkeyword] at h
  obtain ⟨name, ts, r, rfl, hreact, hfault, h⟩ := exists_react (by simp) hts rfl h
  obtain ⟨hname, hnext⟩ := react_inv hreact hfault
  rw [List.forall_mem_cons] at hts
  obtain ⟨sign, ts, r', rfl, hreact', hfault', h⟩ :=
    exists_react (by simp [taken]) hts.2 (by simp only [taken, hnext]; rfl) h
  simp only [taken, hnext] at hreact'
  rw [List.forall_mem_cons] at hts
  rcases react_inv hreact' hfault' with ⟨-, hsign, hnext'⟩ | ⟨htext, hnext'⟩
  · obtain ⟨text, ts, rfl, htext, hrest⟩ :=
      exists_text (by simp [taken]) hts.2.2 (Or.inl hnext') h
    have hclause := @Clause.declaration keyword name text (some sign) none hkeyword hname
      (by simpa using hsign) htext (by simp)
    exact ⟨[keyword, name, sign, text], ts, _, rfl, hclause, by simp, hrest⟩
  · have hrest := faults_of_closed (by simp [taken]) hts.2.2 hnext' h
    have hclause := @Clause.declaration keyword name sign none none hkeyword hname (by simp) htext
      (by simp)
    exact ⟨[keyword, name, sign], ts, _, rfl, hclause, by simp, hrest⟩

theorem startsWithClause_message {sender : Token} {ts : List Token}
    (hsender : sender.kind = .identifier) (hts : ∀ t ∈ ts, t.kind ≠ .lineComment)
    (h : (reading none (sender :: ts)).faults = []) : StartsWithClause (sender :: ts) := by
  rw [reading_message hsender] at h
  obtain ⟨arrow, ts, r, rfl, hreact, hfault, h⟩ := exists_react (by simp) hts rfl h
  obtain ⟨harrow, hnext⟩ := react_inv hreact hfault
  rw [List.forall_mem_cons] at hts
  obtain ⟨receiver, ts, r', rfl, hreact', hfault', h⟩ :=
    exists_react (by simp [taken]) hts.2 (by simp only [taken, hnext]; rfl) h
  simp only [taken, hnext] at hreact'
  obtain ⟨hreceiver, hnext'⟩ := react_inv hreact' hfault'
  rw [List.forall_mem_cons] at hts
  -- A colon after the receiver asks for a label; anything else ends the message.
  by_cases hcolon : ∃ colon rest, ts = colon :: rest ∧ colon.kind = .colon
  · obtain ⟨colon, ts, rfl, hcolon⟩ := hcolon
    rw [List.forall_mem_cons] at hts
    rw [reading_takes (by simp [taken]) (by simp only [taken, hnext', hcolon]; rfl)] at h
    obtain ⟨text, ts, rfl, htext, hrest⟩ :=
      exists_text (by simp [taken]) hts.2.2.2 (Or.inr rfl) (List.append_eq_nil_iff.mp h).2
    have hclause := @Clause.labelled sender arrow receiver colon text none hsender harrow hreceiver
      hcolon htext (by simp)
    exact ⟨[sender, arrow, receiver, colon, text], ts, _, rfl, hclause, by simp, hrest⟩
  · have hclause := @Clause.message sender arrow receiver none hsender harrow hreceiver (by simp)
    refine ⟨[sender, arrow, receiver], ts, _, rfl, hclause, by simp, ?_⟩
    rw [reading_refuses (by simp [taken])] at h
    · exact (List.append_eq_nil_iff.mp h).2
    · intro t ht
      rw [Stage.takes_of_ne (hts.2.2 t (List.mem_of_mem_head? ht))]
      have hother : t.kind ≠ .colon := by
        intro hkind
        cases ts with
        | nil => simp at ht
        | cons u ts => exact hcolon ⟨u, ts, rfl, by simp_all⟩
      simp only [taken, hnext']
      exact react_messageColon hother

theorem startsWithClause {t : Token} {ts : List Token} (hts : ∀ u ∈ t :: ts, u.kind ≠ .lineComment)
    (h : (reading none (t :: ts)).faults = []) : StartsWithClause (t :: ts) := by
  rw [List.forall_mem_cons] at hts
  cases hkind : t.kind with
  | aliasKeyword => exact startsWithClause_alias hkind hts.2 h
  | identifier => exact startsWithClause_message hkind hts.2 h
  | semicolon =>
      rw [reading_semicolon hkind] at h
      exact ⟨[t], ts, none, rfl, Clause.empty hkind, by simp, h⟩
  | lineComment => exact absurd hkind hts.1
  | _ =>
      rw [reading_start, start, hkind] at h
      simp [Output.gist] at h

/-- Tokens without comments that are read without fault are a sequence of statements. -/
theorem exists_derives {ts : List Token} (hts : ∀ t ∈ ts, t.kind ≠ .lineComment)
    (h : (reading none ts).faults = []) : ∃ nodes, Derives ts nodes := by
  induction hn : ts.length using Nat.strongRecOn generalizing ts with
  | _ n ih =>
      cases ts with
      | nil => exact ⟨[], Derives.nil⟩
      | cons t ts =>
          obtain ⟨tokens, rest, node, hsplit, hclause, hne, hrest⟩ := startsWithClause hts h
          rw [hsplit] at hts hn ⊢
          have hlt : rest.length < n := by
            have hpos := List.length_pos_iff.mpr hne
            rw [List.length_append] at hn
            omega
          obtain ⟨nodes, hnodes⟩ :=
            ih rest.length hlt (fun u hu => hts u (List.mem_append_right tokens hu)) hrest rfl
          exact ⟨_, Derives.cons hclause hnodes⟩

/-! ## Error nodes come with a diagnostic -/

/-- No node of a tree wraps a misplaced token. -/
def ErrorFree (t : Tree Kind) : Prop :=
  ∀ n ∈ t.preorder, n.label ≠ .error

/-- A statement that can only become an error-free node. -/
def Sound (s : Statement) : Prop :=
  s.kind ≠ .error ∧ ∀ c ∈ s.parts, ErrorFree c

theorem errorFree_node {kind : Kind} {span : Span} {children : List (Tree Kind)} :
    ErrorFree (.node kind span children) ↔ kind ≠ .error ∧ ∀ c ∈ children, ErrorFree c := by
  simp only [ErrorFree, Tree.preorder_node, List.forall_mem_cons, Tree.label, List.mem_flatMap]
  refine and_congr_right fun _ => ⟨fun h c hc n hn => h n ⟨c, hc, hn⟩, ?_⟩
  rintro h n ⟨c, hc, hn⟩
  exact h c hc n hn

theorem errorFree_leaf {kind : Kind} {span : Span} :
    ErrorFree (.leaf kind span) ↔ kind ≠ .error := by
  simp [Tree.leaf, errorFree_node]

theorem sound_start {t : Token} {s : Statement} (h : (start t).2.current = some s) : Sound s := by
  unfold start at h
  split at h <;> simp only [Option.some.injEq, reduceCtorEq] at h <;> subst h <;>
    simp [Sound, errorFree_leaf]

theorem errorFree_start {t : Token} (h : (start t).1.diagnostics = []) :
    ∀ n ∈ (start t).1.nodes, ErrorFree n := by
  unfold start at h ⊢
  split <;> simp_all [errorFree_leaf]

theorem errorFree_abandon {s : Statement} (h : Sound s) (last stop : Nat) :
    ∀ n ∈ (abandon s last stop).nodes, ErrorFree n := by
  simp only [abandon, List.mem_singleton, forall_eq, Statement.close]
  exact errorFree_node.mpr h

theorem sound_taken {s : Statement} {t : Token} {r : Stage.Reaction} (h : Sound s)
    (htakes : s.stage.takes t.kind = some r) : Sound (taken s t r) := by
  refine ⟨h.1, ?_⟩
  intro c hc
  simp only [taken, List.mem_append, List.mem_map, Option.mem_toList] at hc
  rcases hc with hc | ⟨kind, hkind, rfl⟩
  · exact h.2 c hc
  · exact errorFree_leaf.mpr (Stage.takes_node_ne_error htakes kind hkind)

/-- One step without diagnostic keeps everything free of error nodes. -/
theorem errorFree_step {state : State} {t : Token} (hstate : ∀ s ∈ state.current, Sound s)
    (h : (step state t).1.diagnostics = []) :
    (∀ n ∈ (step state t).1.nodes, ErrorFree n) ∧ ∀ s ∈ (step state t).2.current, Sound s := by
  obtain ⟨last, current⟩ := state
  cases current with
  | none => exact ⟨errorFree_start h, fun s hs => sound_start hs⟩
  | some s =>
      have hs := hstate s rfl
      simp only [step] at h ⊢
      cases htakes : s.stage.takes t.kind with
      | some r =>
          rw [advance_takes htakes]
          refine ⟨by simp, ?_⟩
          intro u hu
          cases hu
          exact sound_taken hs htakes
      | none =>
          by_cases hsemicolon : t.kind = .semicolon
          · rw [advance_semicolon hsemicolon htakes]
            exact ⟨errorFree_abandon hs _ _, by simp⟩
          · rw [advance_refuses hsemicolon htakes] at h ⊢
            have hparts := List.append_eq_nil_iff.mp h
            refine ⟨?_, fun s hs => sound_start hs⟩
            intro n hn
            rcases List.mem_append.mp hn with hn | hn
            · exact errorFree_abandon hs _ _ n hn
            · exact errorFree_start hparts.2 n hn

theorem errorFree_run {ts : List Token} {state : State} (hstate : ∀ s ∈ state.current, Sound s)
    (h : (run state ts).diagnostics = []) : ∀ n ∈ (run state ts).nodes, ErrorFree n := by
  induction ts generalizing state with
  | nil =>
      rw [run, finish]
      cases hcurrent : state.current with
      | none => simp
      | some s => exact errorFree_abandon (hstate s hcurrent) _ _
  | cons t ts ih =>
      rw [run] at h ⊢
      obtain ⟨hstep, hrest⟩ := List.append_eq_nil_iff.mp h
      obtain ⟨hnodes, hnext⟩ := errorFree_step hstate hstep
      intro n hn
      rcases List.mem_append.mp hn with hn | hn
      · exact hnodes n hn
      · exact ih hnext hrest n hn

/-! ## The documents of the grammar -/

theorem kind_of_derives {ts : List Token} {nodes : List (Kind × List (Tree Kind))}
    (h : Derives ts nodes) : ∀ node ∈ nodes, node.1 = .alias ∨ node.1 = .message := by
  induction h with
  | nil => simp
  | cons hclause hrest ih =>
      intro node hnode
      rcases List.mem_append.mp hnode with hnode | hnode
      · cases hclause <;> simp_all
      · exact ih node hnode

theorem gist_parse (source : List Char) :
    (run {} (tokenize source)).gist =
      reading none ((tokenize source).filter fun t => t.kind ≠ .lineComment) :=
  gist_run (tokenize source) 0 0 none (by simp)

/-- A document has no diagnostics exactly if its tokens other than comments are a sequence of
statements of the grammar.  Whichever way they are divided into statements, the tree then has no
error node, and its aliases and messages are those of the statements, part by part. -/
theorem parse_diagnostics_eq_nil_iff (source : List Char) :
    ((parse source).diagnostics = [] ↔
      ∃ nodes, Derives ((tokenize source).filter fun t => t.kind ≠ .lineComment) nodes) ∧
    ∀ nodes, Derives ((tokenize source).filter fun t => t.kind ≠ .lineComment) nodes →
      (∀ n ∈ (parse source).tree.preorder, n.label ≠ .error) ∧
      ((parse source).tree.children.filter fun n => n.label = .alias ∨ n.label = .message).map
        (fun n => (n.label, n.children.filter fun c => c.label ≠ .lineComment)) = nodes := by
  have hgist : ∀ nodes, Derives ((tokenize source).filter fun t => t.kind ≠ .lineComment) nodes →
      (run {} (tokenize source)).gist = ⟨nodes, []⟩ := by
    intro nodes hnodes
    rw [gist_parse, reading_derives hnodes]
  have hclean : ∀ nodes, Derives ((tokenize source).filter fun t => t.kind ≠ .lineComment) nodes →
      (parse source).diagnostics = [] := by
    intro nodes hnodes
    exact List.map_eq_nil_iff.mp (congrArg Gist.faults (hgist nodes hnodes))
  refine ⟨⟨fun h => ?_, fun ⟨nodes, hnodes⟩ => hclean nodes hnodes⟩, fun nodes hnodes => ⟨?_, ?_⟩⟩
  · have hfaults : (run {} (tokenize source)).gist.faults = [] := List.map_eq_nil_iff.mpr h
    rw [gist_parse] at hfaults
    exact exists_derives (by simp) hfaults
  · exact errorFree_node.mpr ⟨by simp, errorFree_run (by simp) (hclean nodes hnodes)⟩
  · have hshapes : (run {} (tokenize source)).gist.shapes = nodes :=
      congrArg Gist.shapes (hgist nodes hnodes)
    rw [← hshapes]
    refine congrArg (List.map shape) (List.filter_congr fun n hn => ?_)
    rw [Bool.eq_iff_iff, decide_eq_true_iff, decide_eq_true_iff]
    constructor
    · rintro (hlabel | hlabel) <;> simp [hlabel]
    · intro hlabel
      have hmem : shape n ∈ nodes := by
        rw [← hshapes]
        exact List.mem_map_of_mem (List.mem_filter.mpr ⟨hn, by simpa using hlabel⟩)
      exact kind_of_derives hnodes (shape n) hmem

/-- A message with a comment inside it. -/
def labelledText : List Char :=
  ['a', '-', '>', '#', 'b', '\n', 'c', ':', '"', 'd', '"']

theorem parse_labelledText :
    Derives ((tokenize labelledText).filter fun t => t.kind ≠ .lineComment)
        [(.message, [.leaf .identifier ⟨0, 1⟩, .leaf .arrow ⟨1, 3⟩, .leaf .identifier ⟨6, 7⟩,
          .leaf .string ⟨8, 11⟩])] ∧
      (parse labelledText).diagnostics = [] := by
  have htokens : (tokenize labelledText).filter (fun t => t.kind ≠ .lineComment) =
      [⟨.identifier, ⟨0, 1⟩⟩, ⟨.arrow, ⟨1, 3⟩⟩, ⟨.identifier, ⟨6, 7⟩⟩, ⟨.colon, ⟨7, 8⟩⟩,
        ⟨.string true, ⟨8, 11⟩⟩] := by
    decide +kernel
  have hderives : Derives ((tokenize labelledText).filter fun t => t.kind ≠ .lineComment)
      [(.message, [.leaf .identifier ⟨0, 1⟩, .leaf .arrow ⟨1, 3⟩, .leaf .identifier ⟨6, 7⟩,
        .leaf .string ⟨8, 11⟩])] := by
    rw [htokens]
    have hclause := @Clause.labelled ⟨.identifier, ⟨0, 1⟩⟩ ⟨.arrow, ⟨1, 3⟩⟩
      ⟨.identifier, ⟨6, 7⟩⟩ ⟨.colon, ⟨7, 8⟩⟩ ⟨.string true, ⟨8, 11⟩⟩ none rfl rfl rfl rfl rfl
      (by simp)
    exact Derives.cons hclause Derives.nil
  exact ⟨hderives, (parse_diagnostics_eq_nil_iff labelledText).1.mpr ⟨_, hderives⟩⟩

end Document

end DiagramTint
