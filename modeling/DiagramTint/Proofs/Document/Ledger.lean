import DiagramTint.Proofs.Document.Division
import DiagramTint.Proofs.Document.Layout
import DiagramTint.Proofs.Tree.Nesting
import Mathlib.Data.List.Chain

/-!
# What becomes of each token

Reading takes the tokens in order and makes at most one leaf of each.  An account of a text lists
its tokens with the kinds of their leaves.  The leaves of the document are those of the account, and
the only tokens without one are semicolons, the equals sign of an alias and the colon of a message.
-/

namespace DiagramTint

/-- What a stage makes of a token that it takes, and the stage after it. -/
inductive Stage.Moves : Stage → TokenKind → Option Kind → Stage → Prop where
  | comment {stage : Stage} : Moves stage .lineComment (some .lineComment) stage
  | aliasName : Moves .aliasName .identifier (some .identifier) (.aliasText true)
  | equals : Moves (.aliasText true) .equals none (.aliasText false)
  | aliasText {equals terminated : Bool} :
      Moves (.aliasText equals) (.string terminated) (some .string) .semicolon
  | arrow : Moves .messageArrow .arrow (some .arrow) .messageTarget
  | receiver : Moves .messageTarget .identifier (some .identifier) .messageColon
  | colon : Moves .messageColon .colon none .messageLabel
  | label {terminated : Bool} :
      Moves .messageLabel (.string terminated) (some .string) .semicolon

theorem Stage.moves_of_takes {stage : Stage} {kind : TokenKind} {r : Stage.Reaction}
    (h : stage.takes kind = some r) : stage.Moves kind r.node r.next := by
  by_cases hcomment : kind = .lineComment
  · rw [hcomment, takes_comment, Option.some.injEq] at h
    subst hcomment h
    exact .comment
  · rw [takes_of_ne hcomment] at h
    unfold Stage.react at h
    split at h <;> simp only [Option.some.injEq, reduceCtorEq] at h <;> subst h <;> constructor

namespace Stage

/-- The stages behind the last name of a statement. -/
def Named : Stage → Prop
  | .aliasText _ | .messageColon | .messageLabel | .semicolon => True
  | _ => False

/-- The kind of a statement at a stage and the names it has. -/
def HasNames : Stage → Kind → List (Tree Kind) → Prop
  | .aliasName, kind, names => kind = .alias ∧ names = []
  | .aliasText _, kind, names => kind = .alias ∧ ∃ name, names = [name]
  | .messageArrow, kind, names | .messageTarget, kind, names =>
    kind = .message ∧ ∃ sender, names = [sender]
  | .messageColon, kind, names | .messageLabel, kind, names =>
    kind = .message ∧ ∃ sender receiver, names = [sender, receiver]
  | .semicolon, _, _ => True

namespace Moves

variable {stage next : Stage} {token : TokenKind} {node : Option Kind}

theorem named (h : stage.Moves token node next) (hnamed : stage.Named) :
    next.Named ∧ node ≠ some .identifier := by
  cases h <;> simp_all [Named]

theorem hasNames {kind : Kind} {names : List (Tree Kind)} (h : stage.Moves token node next)
    (hnames : stage.HasNames kind names) (name : Tree Kind) :
    next.HasNames kind (names ++ if node = some .identifier then [name] else []) := by
  cases h with
  | comment => simpa using hnames
  | aliasName => exact ⟨hnames.1, name, by rw [hnames.2, if_pos rfl, List.nil_append]⟩
  | equals => simpa [HasNames] using hnames
  | aliasText => trivial
  | arrow => simpa [HasNames] using hnames
  | receiver =>
      obtain ⟨hmessage, sender, hsender⟩ := hnames
      exact ⟨hmessage, sender, name, by rw [hsender, if_pos rfl, List.singleton_append]⟩
  | colon => simpa [HasNames] using hnames
  | label => trivial

theorem ne_keyword (h : stage.Moves token node next) : node ≠ some .aliasKeyword := by
  cases h <;> simp

theorem ne_string (h : Stage.semicolon.Moves token node next) : node ≠ some .string := by
  cases h
  simp

theorem eq_semicolon (h : stage.Moves token (some .string) next) : next = .semicolon := by
  cases h <;> rfl

end Moves

end Stage

namespace Document

/-- The nodes without children, in pre-order. -/
def leaves (nodes : List (Tree Kind)) : List (Tree Kind) :=
  (nodes.flatMap Tree.preorder).filter fun n => n.children.isEmpty

/-- The names among the parts of a statement. -/
def names (parts : List (Tree Kind)) : List (Tree Kind) :=
  parts.filter fun n => n.label = .identifier

/-- The leaf of a token in an account. -/
def entryLeaf (e : Token × Option Kind) : Option (Tree Kind) :=
  e.2.map fun kind => .leaf kind e.1.span

/-- What can become of a token in a document with these top-level nodes: a leaf of some kind, or
nothing but a place inside a statement. -/
inductive Becomes (nodes : List (Tree Kind)) (t : Token) : Option Kind → Prop where
  | comment (hkind : t.kind = .lineComment) : Becomes nodes t (some .lineComment)
  | keyword (hkind : t.kind = .aliasKeyword) : Becomes nodes t (some .aliasKeyword)
  | name (hkind : t.kind = .identifier) : Becomes nodes t (some .identifier)
  | text {terminated : Bool} (hkind : t.kind = .string terminated) :
      Becomes nodes t (some .string)
  | arrow (hkind : t.kind = .arrow) : Becomes nodes t (some .arrow)
  | stray (hkind : t.kind.IsStray) : Becomes nodes t (some .error)
  | semicolon (hkind : t.kind = .semicolon) : Becomes nodes t none
  | equals {n name : Tree Kind} (hkind : t.kind = .equals) (hn : n ∈ nodes)
      (hlabel : n.label = .alias) (hnames : names n.children = [name])
      (hafter : name.span.stop ≤ t.span.start)
      (hinside : n.span.start ≤ t.span.start ∧ t.span.stop ≤ n.span.stop) :
      Becomes nodes t none
  | colon {n sender receiver : Tree Kind} (hkind : t.kind = .colon) (hn : n ∈ nodes)
      (hlabel : n.label = .message) (hnames : names n.children = [sender, receiver])
      (hafter : receiver.span.stop ≤ t.span.start)
      (hinside : n.span.start ≤ t.span.start ∧ t.span.stop ≤ n.span.stop) :
      Becomes nodes t none

theorem Becomes.mono {nodes more : List (Tree Kind)} {t : Token} {leaf : Option Kind}
    (h : Becomes nodes t leaf) (hsub : nodes ⊆ more) : Becomes more t leaf := by
  cases h with
  | comment hkind => exact .comment hkind
  | keyword hkind => exact .keyword hkind
  | name hkind => exact .name hkind
  | text hkind => exact .text hkind
  | arrow hkind => exact .arrow hkind
  | stray hkind => exact .stray hkind
  | semicolon hkind => exact .semicolon hkind
  | equals hkind hn hlabel hnames hafter hinside =>
      exact .equals hkind (hsub hn) hlabel hnames hafter hinside
  | colon hkind hn hlabel hnames hafter hinside =>
      exact .colon hkind (hsub hn) hlabel hnames hafter hinside

/-- The tokens `ts`, each with what becomes of it, account for the leaves of the nodes beyond the
parts `before`; two texts never follow one another. -/
structure Accounts (before : List (Tree Kind)) (ts : List Token) (nodes : List (Tree Kind))
    (entries : List (Token × Option Kind)) : Prop where
  tokens : entries.map Prod.fst = ts
  leaves : leaves nodes = before ++ entries.filterMap entryLeaf
  becomes : ∀ e ∈ entries, Becomes nodes e.1 e.2
  apart : entries.IsChain fun a b => ¬ (a.2 = some .string ∧ b.2 = some .string)

/-! ## Leaves -/

theorem parse_tree (source : List Char) :
    (parse source).tree =
      .node .program ⟨0, Text.byteLength source⟩ (parse source).tree.children := rfl

theorem leaves_append (xs ys : List (Tree Kind)) : leaves (xs ++ ys) = leaves xs ++ leaves ys := by
  simp [leaves]

theorem leaves_of_forall {cs : List (Tree Kind)} (h : ∀ c ∈ cs, c.children = []) :
    leaves cs = cs := by
  induction cs with
  | nil => rfl
  | cons c cs ih =>
      rw [List.forall_mem_cons] at h
      have hself : leaves [c] = [c] := by
        obtain ⟨label, span, children⟩ := c
        have hnil : children = [] := h.1
        simp [leaves, hnil, Tree.children]
      rw [← List.singleton_append, leaves_append, ih h.2, hself]

theorem leaves_node {cs : List (Tree Kind)} (hne : cs ≠ []) (h : ∀ c ∈ cs, c.children = [])
    (label : Kind) (span : Span) : leaves [.node label span cs] = cs := by
  have hinner : leaves [.node label span cs] = leaves cs := by
    simp [leaves, Tree.children, hne]
  rw [hinner, leaves_of_forall h]

/-! ## Statements -/

theorem names_taken (s : Statement) (t : Token) (r : Stage.Reaction) :
    names (taken s t r).parts =
      names s.parts ++ if r.node = some .identifier then [.leaf .identifier t.span] else [] := by
  rw [taken, names, List.filter_append]
  congr 1
  cases r.node with
  | none => rfl
  | some kind => by_cases hkind : kind = .identifier <;> simp [hkind, Tree.leaf, Tree.label]

/-- Behind the last name of a statement no name is added. -/
theorem Completes.names_eq {s : Statement} {last : Nat} {ts : List Token} {o : Output}
    (h : Completes s last ts o) (hnamed : s.stage.Named) :
    ∀ n ∈ o.nodes, n.label = s.kind ∧ names n.children = names s.parts := by
  induction h with
  | stops => simp [abandon, Statement.close, Tree.label, Tree.children]
  | semicolon hkind => simp [abandon, Statement.close, Tree.label, Tree.children]
  | @takes s last t ts o r htakes hrest ih =>
      obtain ⟨hnext, hnode⟩ := (Stage.moves_of_takes htakes).named hnamed
      have hnames : names (taken s t r).parts = names s.parts := by
        rw [names_taken, if_neg hnode, List.append_nil]
      rw [← hnames]
      exact ih hnext

theorem le_endOf {P : Nat → Prop} {lo hi : Nat} {ts : List Token}
    (h : LaidOut P lo hi (ts.map Token.span)) : lo ≤ Token.endOf lo ts := by
  induction ts generalizing lo with
  | nil => exact Nat.le_refl lo
  | cons t ts ih =>
      obtain ⟨hlo, hlt, -, -, hts⟩ := h
      have hle := ih hts
      rw [Token.endOf]
      omega

section Statement

variable {P : Nat → Prop} {lo hi last : Nat} {s : Statement} {t : Token} {ts : List Token}
  {o : Output} {r : Stage.Reaction}

/-- A token that leaves nothing in its statement stands inside it, behind all its names. -/
theorem Completes.exists_around (hrest : Completes (taken s t r) t.span.stop ts o)
    (hnode : r.node = none) (hnext : r.next.Named) (hsettled : State.Settled P ⟨last, some s⟩)
    (hts : LaidOut P last hi ((t :: ts).map Token.span)) :
    ∃ n ∈ o.nodes, n.label = s.kind ∧ names n.children = names s.parts ∧
      (∀ name ∈ names s.parts, name.span.stop ≤ t.span.start) ∧
      n.span.start ≤ t.span.start ∧ t.span.stop ≤ n.span.stop := by
  obtain ⟨hlast, -, -, -, hlater⟩ := hts
  obtain ⟨hstart, -, -, hparts, -⟩ := hsettled s rfl
  obtain ⟨n, hn, hspan⟩ := hrest.exists_node
  have hmem : n ∈ o.nodes := by
    rw [hn]
    exact List.mem_singleton_self n
  obtain ⟨hlabel, hchildren⟩ := hrest.names_eq hnext n hmem
  rw [names_taken, hnode, if_neg (by simp), List.append_nil] at hchildren
  refine ⟨n, hmem, hlabel, hchildren, ?_, ?_⟩
  · intro name hname
    have hpart : name.span ∈ s.parts.map Tree.span :=
      List.mem_map_of_mem (List.mem_of_mem_filter hname)
    have hstop := (hparts.of_mem hpart).2.2.2.2
    exact Nat.le_trans hstop hlast
  · have hend := le_endOf hlater
    rw [hspan]
    exact ⟨Nat.le_trans (Nat.le_of_lt hstart) hlast, hend⟩

theorem becomes_of_takes (htakes : s.stage.takes t.kind = some r)
    (hrest : Completes (taken s t r) t.span.stop ts o)
    (hnames : s.stage.HasNames s.kind (names s.parts))
    (hsettled : State.Settled P ⟨last, some s⟩)
    (hts : LaidOut P last hi ((t :: ts).map Token.span)) : Becomes o.nodes t r.node := by
  have haround := fun hnode hnext => hrest.exists_around hnode hnext hsettled hts
  have hmoves := Stage.moves_of_takes htakes
  generalize hkind : t.kind = kind at hmoves
  generalize s.stage = stage at hmoves hnames
  generalize r.node = node at hmoves haround ⊢
  generalize r.next = next at hmoves haround
  cases hmoves with
  | comment => exact .comment hkind
  | aliasName => exact .name hkind
  | aliasText => exact .text hkind
  | arrow => exact .arrow hkind
  | receiver => exact .name hkind
  | label => exact .text hkind
  | equals =>
      obtain ⟨halias, name, hname⟩ := hnames
      obtain ⟨n, hn, hlabel, hchildren, hafter, hinside⟩ := haround rfl trivial
      refine .equals hkind hn (hlabel.trans halias) (hchildren.trans hname) ?_ hinside
      exact hafter name (by simp [hname])
  | colon =>
      obtain ⟨hmessage, sender, receiver, hname⟩ := hnames
      obtain ⟨n, hn, hlabel, hchildren, hafter, hinside⟩ := haround rfl trivial
      refine .colon hkind hn (hlabel.trans hmessage) (hchildren.trans hname) ?_ hinside
      exact hafter receiver (by simp [hname])

/-! ## Accounts -/

theorem Accounts.cons {before nodes : List (Tree Kind)} {node : Option Kind}
    {entries : List (Token × Option Kind)}
    (h : Accounts (before ++ node.toList.map fun kind => .leaf kind t.span) ts nodes entries)
    (hbecomes : Becomes nodes t node)
    (hapart : node = some .string → ∀ e ∈ entries.head?, e.2 ≠ some .string) :
    Accounts before (t :: ts) nodes ((t, node) :: entries) := by
  refine ⟨?_, ?_, ?_, ?_⟩
  · rw [List.map_cons, h.tokens]
  · rw [h.leaves, List.append_assoc]
    congr 1
    cases node with
    | none => rfl
    | some kind => rfl
  · rw [List.forall_mem_cons]
    exact ⟨hbecomes, h.becomes⟩
  · refine h.apart.cons ?_
    rintro e he ⟨hfirst, hnext⟩
    exact hapart hfirst e he hnext

theorem Accounts.append {us : List Token} {nodes more : List (Tree Kind)}
    {entries later : List (Token × Option Kind)} (h : Accounts [] ts nodes entries)
    (hlater : Accounts [] us more later) (hapart : ∀ e ∈ later.head?, e.2 ≠ some .string) :
    Accounts [] (ts ++ us) (nodes ++ more) (entries ++ later) := by
  refine ⟨?_, ?_, ?_, ?_⟩
  · rw [List.map_append, h.tokens, hlater.tokens]
  · rw [leaves_append, h.leaves, hlater.leaves, List.filterMap_append]
    rfl
  · intro e he
    rcases List.mem_append.mp he with he | he
    · exact (h.becomes e he).mono (List.subset_append_left nodes more)
    · exact (hlater.becomes e he).mono (List.subset_append_right nodes more)
  · rw [List.isChain_append]
    refine ⟨h.apart, hlater.apart, ?_⟩
    rintro a ha b hb ⟨-, hnext⟩
    exact hapart b hb hnext

/-- The account of what an open statement goes on with.  A statement that only awaits its semicolon
does not go on with a text. -/
theorem Completes.exists_accounts (h : Completes s last ts o)
    (hnames : s.stage.HasNames s.kind (names s.parts)) (hne : s.parts ≠ [])
    (hsettled : State.Settled P ⟨last, some s⟩) (hts : LaidOut P last hi (ts.map Token.span)) :
    ∃ entries, Accounts s.parts ts o.nodes entries ∧
      (s.stage = .semicolon → ∀ e ∈ entries.head?, e.2 ≠ some .string) := by
  induction h with
  | @stops s last =>
      have hleaves := leaves_node hne (hsettled s rfl).2.2.2.2 s.kind ⟨s.start, last⟩
      refine ⟨[], ⟨rfl, ?_, by simp, List.IsChain.nil⟩, by simp⟩
      rw [List.filterMap_nil, List.append_nil]
      exact hleaves
  | @semicolon s last t hkind =>
      have hleaves := leaves_node hne (hsettled s rfl).2.2.2.2 s.kind ⟨s.start, t.span.stop⟩
      refine ⟨[(t, none)], ⟨rfl, ?_, ?_, List.IsChain.singleton _⟩, by simp⟩
      · exact hleaves.trans (List.append_nil _).symm
      · simpa using Becomes.semicolon hkind
  | @takes s last t ts o r htakes hrest ih =>
      have hmoves := Stage.moves_of_takes htakes
      have hbecomes := becomes_of_takes htakes hrest hnames hsettled hts
      obtain ⟨hlast, hlt, hstart, hstop, hlater⟩ := hts
      have hnames' : r.next.HasNames s.kind (names (taken s t r).parts) := by
        rw [names_taken]
        exact hmoves.hasNames hnames _
      have hne' : (taken s t r).parts ≠ [] := by
        simp [taken, hne]
      obtain ⟨entries, haccounts, hhead⟩ :=
        ih hnames' hne' (hsettled.taken hlast hlt hstart hstop r) hlater
      refine ⟨(t, r.node) :: entries, haccounts.cons hbecomes ?_, ?_⟩
      · intro hnode
        rw [hnode] at hmoves
        exact hhead hmoves.eq_semicolon
      · intro hstage e he
        rw [hstage] at hmoves
        rw [List.head?_cons, Option.mem_some_iff] at he
        rw [← he]
        exact hmoves.ne_string

/-- The account of a chunk does not begin with a text. -/
theorem Chunk.exists_accounts (h : Chunk ts o) (hts : LaidOut P lo hi (ts.map Token.span)) :
    ∃ entries, Accounts [] ts o.nodes entries ∧ ∀ e ∈ entries.head?, e.2 ≠ some .string := by
  have hleaf : ∀ (kind : Kind) (span : Span), leaves [Tree.leaf kind span] = [.leaf kind span] :=
    fun kind span => leaves_of_forall (by simp [Tree.leaf, Tree.children])
  cases h with
  | @comment t hkind =>
      refine ⟨[(t, some .lineComment)], ⟨rfl, hleaf _ _, ?_, List.IsChain.singleton _⟩, by simp⟩
      simpa using Becomes.comment hkind
  | @empty t hkind =>
      refine ⟨[(t, none)], ⟨rfl, rfl, ?_, List.IsChain.singleton _⟩, by simp⟩
      simpa using Becomes.semicolon hkind
  | @stray t hkind =>
      refine ⟨[(t, some .error)], ⟨rfl, hleaf _ _, ?_, List.IsChain.singleton _⟩, by simp⟩
      simpa using Becomes.stray hkind
  | @declaration t ts o hkind hrest =>
      obtain ⟨-, hlt, hstart, hstop, hlater⟩ := hts
      obtain ⟨entries, haccounts, -⟩ := hrest.exists_accounts ⟨rfl, rfl⟩ (by simp)
        (settled_open hlt hstart hstop _ _ _) hlater
      refine ⟨(t, some .aliasKeyword) :: entries, ?_, by simp⟩
      exact haccounts.cons (.keyword hkind) (by simp)
  | @message t ts o hkind hrest =>
      obtain ⟨-, hlt, hstart, hstop, hlater⟩ := hts
      obtain ⟨entries, haccounts, -⟩ := hrest.exists_accounts ⟨rfl, _, rfl⟩ (by simp)
        (settled_open hlt hstart hstop _ _ _) hlater
      refine ⟨(t, some .identifier) :: entries, ?_, by simp⟩
      exact haccounts.cons (.name hkind) (by simp)

theorem Divides.exists_accounts (h : Divides ts o) (hts : LaidOut P lo hi (ts.map Token.span)) :
    ∃ entries, Accounts [] ts o.nodes entries ∧ ∀ e ∈ entries.head?, e.2 ≠ some .string := by
  induction h with
  | nil => exact ⟨[], ⟨rfl, rfl, by simp, List.IsChain.nil⟩, by simp⟩
  | @cons ts us o p hchunk hrest ih =>
      rw [List.map_append] at hts
      obtain ⟨entries, haccounts, hhead⟩ := hchunk.exists_accounts hts.of_append_left
      obtain ⟨later, hlater, hapart⟩ := ih hts.of_append_right
      refine ⟨entries ++ later, haccounts.append hlater hapart, ?_⟩
      intro e he
      rw [List.head?_append, Option.mem_def, Option.or_eq_some_iff] at he
      rcases he with he | ⟨-, he⟩
      · exact hhead e he
      · exact hapart e he

theorem exists_accounts_parse (source : List Char) :
    ∃ entries, Accounts [] (tokenize source) (parse source).tree.children entries := by
  obtain ⟨entries, haccounts, -⟩ :=
    (divides_run (tokenize source)).exists_accounts (laidOut_tokenize source)
  exact ⟨entries, haccounts⟩

end Statement

/-- No token is lost and none is used twice: the childless nodes below the root are made of tokens,
in order, and each token becomes a leaf of its kind, an error, or nothing.  The tokens that become
nothing are the semicolons, equals signs behind the name of an alias and colons behind the second
name of a message. -/
theorem parse_leaves_eq_filterMap (source : List Char) :
    ∃ entries : List (Token × Option Kind), entries.map Prod.fst = tokenize source ∧
      ((parse source).tree.preorder.tail.filter fun n => n.children.isEmpty) =
        entries.filterMap (fun e => e.2.map fun kind => .leaf kind e.1.span) ∧
      ∀ e ∈ entries, Becomes (parse source).tree.children e.1 e.2 := by
  obtain ⟨entries, haccounts⟩ := exists_accounts_parse source
  refine ⟨entries, haccounts.tokens, ?_, haccounts.becomes⟩
  rw [parse_tree, Tree.preorder_node, List.tail_cons]
  exact haccounts.leaves

/-- The alias takes the first equals sign; the second one is an error. -/
def twiceEqualText : List Char :=
  ['a', 'l', 'i', 'a', 's', ' ', 'a', '=', '=']

theorem parse_leaves_twiceEqualText :
    ∃ entries : List (Token × Option Kind),
      entries.map Prod.fst = [⟨.aliasKeyword, ⟨0, 5⟩⟩, ⟨.identifier, ⟨6, 7⟩⟩, ⟨.equals, ⟨7, 8⟩⟩,
        ⟨.equals, ⟨8, 9⟩⟩] ∧
      entries.filterMap (fun e => e.2.map fun kind => Tree.leaf kind e.1.span) =
        [.leaf .aliasKeyword ⟨0, 5⟩, .leaf .identifier ⟨6, 7⟩, .leaf .error ⟨8, 9⟩] ∧
      ∀ e ∈ entries, Becomes (parse twiceEqualText).tree.children e.1 e.2 := by
  have htokens : tokenize twiceEqualText =
      [⟨.aliasKeyword, ⟨0, 5⟩⟩, ⟨.identifier, ⟨6, 7⟩⟩, ⟨.equals, ⟨7, 8⟩⟩, ⟨.equals, ⟨8, 9⟩⟩] := by
    decide +kernel
  obtain ⟨entries, hentries, hleaves, hbecomes⟩ := parse_leaves_eq_filterMap twiceEqualText
  refine ⟨entries, hentries.trans htokens, ?_, hbecomes⟩
  rw [← hleaves, parse, htokens]
  rfl

end Document

end DiagramTint
