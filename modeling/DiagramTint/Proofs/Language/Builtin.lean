import DiagramTint.Language
import DiagramTint.Proofs.Document.Shape
import DiagramTint.Proofs.Highlights.Order
import DiagramTint.Proofs.Token.Touching

/-!
# The highlights of the diagram language

With its own rules only, the diagram language highlights tokens: comments, keywords and names
wherever they stand, and the texts of statements.  Each is one highlight with the columns of the
token, in the order of the tokens, and nothing else is highlighted, also in a text with faults.
-/

namespace DiagramTint

/-- A span that is not reversed and ends within the first `limit` bytes. -/
def Span.Within (s : Span) (limit : Nat) : Prop :=
  s.start ≤ s.stop ∧ s.stop ≤ limit

theorem Span.Within.clamp_eq {s : Span} {limit : Nat} (h : s.Within limit) : s.clamp limit = s := by
  have hstart : s.start ≤ limit := Nat.le_trans h.1 h.2
  rw [Span.clamp, Nat.min_eq_left hstart, Nat.min_eq_left h.2]

namespace Diagram

/-! ## Tags -/

/-- The tag that the rules of the diagram language give to a leaf. -/
def leafTag : Kind → Option Tag
  | .lineComment => some .lineComment
  | .aliasKeyword => some .definitionKeyword
  | .identifier => some .variableName
  | .string => some .string
  | _ => none

/-- The rules of the diagram language. -/
def builtinTable : RuleTable :=
  (language []).rules

theorem builtinTable_eq : builtinTable = RuleTable.build builtinRules := by
  rw [builtinTable, language, List.append_nil]

theorem resolve_program : builtinTable.resolve Kind.program.name [] = none := by
  rw [builtinTable_eq, builtinRules_eq]
  decide

theorem resolve_below_program (kind : Kind) :
    builtinTable.resolve kind.name [Kind.program.name] =
      if kind = .lineComment then some .lineComment else none := by
  rw [builtinTable_eq, builtinRules_eq]
  cases kind <;> decide

theorem resolve_below_alias (kind : Kind) :
    builtinTable.resolve kind.name [Kind.alias.name, Kind.program.name] = leafTag kind := by
  rw [builtinTable_eq, builtinRules_eq]
  cases kind <;> decide

theorem resolve_below_message {kind : Kind} (h : kind ≠ .aliasKeyword) :
    builtinTable.resolve kind.name [Kind.message.name, Kind.program.name] = leafTag kind := by
  rw [builtinTable_eq, builtinRules_eq]
  cases kind with
  | aliasKeyword => exact absurd rfl h
  | _ => decide

/-! ## Pieces -/

/-- The piece of a leaf with a tag. -/
def leafPiece (n : Tree Kind) : Option Piece :=
  (leafTag n.label).map fun tag => ⟨n.span, tag⟩

section Pieces

variable {classify : String → List String → Option Tag} {limit : Nat} {chain : List String}

theorem piecesUntagged_mapForest (cs : List (Tree Kind)) :
    Tree.piecesUntagged classify limit chain (Tree.mapForest Kind.name cs) =
      cs.flatMap fun c => (c.map Kind.name).pieces classify limit chain none := by
  induction cs with
  | nil => rw [Tree.mapForest, Tree.piecesUntagged, List.flatMap_nil]
  | cons c cs ih => rw [Tree.mapForest, Tree.piecesUntagged, ih, List.flatMap_cons]

theorem pieces_leaf {n : Tree Kind} (h : n.children = []) (hspan : n.span.Within limit)
    (htag : classify n.label.name chain = leafTag n.label) :
    (n.map Kind.name).pieces classify limit chain none = (leafPiece n).toList := by
  obtain ⟨label, span, children⟩ := n
  have hnil : children = [] := h
  have hclamp : span.clamp limit = span := Span.Within.clamp_eq hspan
  simp only [Tree.label] at htag
  rw [hnil, Tree.map, Tree.mapForest, Tree.pieces, htag, leafPiece, Option.or_none]
  simp only [Tree.label, Tree.span]
  cases leafTag label with
  | none => simp [Tree.piecesUntagged]
  | some tag => simp [Tree.piecesBetween, hclamp]

theorem pieces_node {kind : Kind} {span : Span} {parts : List (Tree Kind)}
    (hkind : classify kind.name chain = none) (hparts : ∀ c ∈ parts, c.children = [])
    (hspans : ∀ c ∈ parts, c.span.Within limit)
    (htags : ∀ c ∈ parts, classify c.label.name (kind.name :: chain) = leafTag c.label) :
    ((Tree.node kind span parts).map Kind.name).pieces classify limit chain none =
      parts.filterMap leafPiece := by
  rw [Tree.map, Tree.pieces, hkind, Option.or_none]
  simp only
  rw [piecesUntagged_mapForest, List.filterMap_eq_flatMap_toList]
  apply List.flatMap_congr
  intro c hc
  exact pieces_leaf (hparts c hc) (hspans c hc) (htags c hc)

theorem pieces_of_formed {n : Tree Kind} (h : Document.Formed n)
    (hspans : ∀ c ∈ Document.leaves [n], c.span.Within limit) :
    (n.map Kind.name).pieces builtinTable.resolve limit [Kind.program.name] none =
      (Document.leaves [n]).filterMap leafPiece := by
  have hleaf : ∀ {kind : Kind} {span : Span}, n = .leaf kind span →
      builtinTable.resolve kind.name [Kind.program.name] = leafTag kind →
      (n.map Kind.name).pieces builtinTable.resolve limit [Kind.program.name] none =
        (Document.leaves [n]).filterMap leafPiece := by
    rintro kind span rfl htag
    rw [Document.leaves_of_forall (by simp [Tree.leaf, Tree.children])] at hspans ⊢
    rw [pieces_leaf rfl (hspans _ (List.mem_singleton_self _)) htag,
      List.filterMap_eq_flatMap_toList, List.flatMap_singleton]
  cases h with
  | comment => exact hleaf rfl (resolve_below_program .lineComment)
  | stray => exact hleaf rfl (resolve_below_program .error)
  | declaration hne hparts =>
      rw [Document.leaves_node hne hparts] at hspans ⊢
      exact pieces_node (resolve_below_program .alias) hparts hspans fun c _ =>
        resolve_below_alias c.label
  | message hne hparts hlabels =>
      rw [Document.leaves_node hne hparts] at hspans ⊢
      exact pieces_node (resolve_below_program .message) hparts hspans fun c hc =>
        resolve_below_message (hlabels c hc)

theorem flatMap_pieces {children : List (Tree Kind)} (h : ∀ n ∈ children, Document.Formed n)
    (hspans : ∀ c ∈ Document.leaves children, c.span.Within limit) :
    (children.flatMap fun n =>
        (n.map Kind.name).pieces builtinTable.resolve limit [Kind.program.name] none) =
      (Document.leaves children).filterMap leafPiece := by
  induction children with
  | nil => rfl
  | cons n children ih =>
      obtain ⟨hn, hrest⟩ := List.forall_mem_cons.mp h
      have hleaves : Document.leaves (n :: children) =
          Document.leaves [n] ++ Document.leaves children := Document.leaves_append [n] children
      rw [hleaves] at hspans
      rw [hleaves, List.filterMap_append, List.flatMap_cons,
        ih hrest fun c hc => hspans c (List.mem_append_right _ hc),
        pieces_of_formed hn fun c hc => hspans c (List.mem_append_left _ hc)]

/-- The pieces of a document are those of its leaves. -/
theorem rootPieces_read {source : List Char}
    (hspans : ∀ c ∈ Document.leaves (Document.parse source).tree.children,
      c.span.Within (Text.byteLength source)) :
    rootPieces builtinTable source (read source) =
      (Document.leaves (Document.parse source).tree.children).filterMap leafPiece := by
  rw [rootPieces, read, Document.parse_tree, Tree.map, Tree.pieces, resolve_program,
    Option.or_none]
  simp only
  rw [piecesUntagged_mapForest]
  exact flatMap_pieces (fun n hn => Document.formed_of_mem_children hn) hspans

end Pieces

/-! ## Tokens -/

/-- The tag of a token in a document.  A string has one only if it became a text of a statement. -/
def tokenTag (tree : Tree Kind) (t : Token) : Option Tag :=
  match t.kind with
  | .lineComment => some .lineComment
  | .aliasKeyword => some .definitionKeyword
  | .identifier => some .variableName
  | .string _ =>
    if tree.preorder.any (fun n => n.label = .string ∧ n.span = t.span) then some .string else none
  | _ => none

/-- The piece of a token with a tag. -/
def tokenPiece (tree : Tree Kind) (t : Token) : Option Piece :=
  (tokenTag tree t).map fun tag => ⟨t.span, tag⟩

theorem tokenTag_of_becomes {tree : Tree Kind} {nodes : List (Tree Kind)} {t : Token}
    {leaf : Option Kind} (h : Document.Becomes nodes t leaf)
    (hstring : ∀ terminated, t.kind = .string terminated →
      tokenTag tree t = if leaf = some .string then some .string else none) :
    tokenTag tree t = leaf.bind leafTag := by
  cases h with
  | comment hkind => simp [tokenTag, hkind, leafTag]
  | keyword hkind => simp [tokenTag, hkind, leafTag]
  | name hkind => simp [tokenTag, hkind, leafTag]
  | @text terminated hkind => exact hstring terminated hkind
  | arrow hkind => simp [tokenTag, hkind, leafTag]
  | stray hkind =>
      cases hclass : t.kind with
      | string terminated => exact hstring terminated hclass
      | _ => simp_all [tokenTag, TokenKind.IsStray, leafTag]
  | semicolon hkind => simp [tokenTag, hkind]
  | equals hkind => simp [tokenTag, hkind]
  | colon hkind => simp [tokenTag, hkind]

theorem leafTag_inj {a b : Kind} {tag : Tag} (ha : leafTag a = some tag)
    (hb : leafTag b = some tag) : a = b := by
  cases a <;> cases ha <;> cases b <;> cases hb <;> rfl

/-- Of the leaves with a tag, only texts can come from tokens of one class that touch. -/
theorem eq_string_of_mayTouch {nodes : List (Tree Kind)} {t u : Token} {kind : Kind} {tag : Tag}
    (ht : Document.Becomes nodes t (some kind)) (hu : Document.Becomes nodes u (some kind))
    (hmay : t.MayTouch u) (htag : leafTag kind = some tag) : kind = .string := by
  cases ht with
  | comment hkind =>
      cases hu with
      | comment hkind' => exact absurd hkind (hmay (hkind.trans hkind'.symm)).1
  | name hkind =>
      cases hu with
      | name hkind' => exact absurd hkind (hmay (hkind.trans hkind'.symm)).2.1
  | keyword hkind =>
      cases hu with
      | keyword hkind' => exact absurd hkind (hmay (hkind.trans hkind'.symm)).2.2
  | text hkind => rfl
  | arrow hkind => cases htag
  | stray hkind => cases htag

section Account

variable {source : List Char} {entries : List (Token × Option Kind)}
  (h : Document.Accounts [] (tokenize source) (Document.parse source).tree.children entries)

include h

theorem laidOut_entries :
    LaidOut (Text.IsBoundary source) 0 (Text.byteLength source)
      (entries.map fun e => e.1.span) := by
  have htokens := laidOut_tokenize source
  rw [← h.tokens, List.map_map] at htokens
  exact htokens

/-- The texts of a document are the leaves of strings. -/
theorem exists_string_iff (span : Span) :
    (∃ n ∈ (Document.parse source).tree.preorder, n.label = .string ∧ n.span = span) ↔
      ∃ e ∈ entries, e.2 = some .string ∧ e.1.span = span := by
  constructor
  · rintro ⟨n, hn, hlabel, hspan⟩
    rw [Document.parse_tree, Tree.preorder_node, List.mem_cons] at hn
    rcases hn with rfl | hn
    · cases hlabel
    · obtain ⟨c, hc, hnc⟩ := List.mem_flatMap.mp hn
      have hnil := (Document.formed_of_mem_children hc).children_eq_nil hnc hlabel
      have hleaf : n ∈ Document.leaves (Document.parse source).tree.children :=
        List.mem_filter.mpr ⟨hn, by simp [hnil]⟩
      rw [h.leaves, List.nil_append, List.mem_filterMap] at hleaf
      obtain ⟨e, he, hentry⟩ := hleaf
      obtain ⟨kind, hkind, rfl⟩ := Option.map_eq_some_iff.mp hentry
      exact ⟨e, he, hkind.trans (congrArg some hlabel), hspan⟩
  · rintro ⟨e, he, hkind, hspan⟩
    have hleaf : Tree.leaf .string e.1.span ∈
        Document.leaves (Document.parse source).tree.children := by
      rw [h.leaves, List.nil_append, List.mem_filterMap]
      exact ⟨e, he, by rw [Document.entryLeaf, hkind, Option.map_some]⟩
    refine ⟨.leaf .string e.1.span, ?_, rfl, hspan⟩
    rw [Document.parse_tree, Tree.preorder_node]
    exact List.mem_cons_of_mem _ (List.mem_of_mem_filter hleaf)

theorem tokenTag_string {e : Token × Option Kind} (he : e ∈ entries) {terminated : Bool}
    (hkind : e.1.kind = .string terminated) :
    tokenTag (Document.parse source).tree e.1 =
      if e.2 = some .string then some .string else none := by
  have hiff : (∃ n ∈ (Document.parse source).tree.preorder, n.label = .string ∧
      n.span = e.1.span) ↔ e.2 = some .string := by
    rw [exists_string_iff h]
    constructor
    · rintro ⟨d, hd, hstring, hspan⟩
      rw [← (laidOut_entries h).eq_of_span_eq hd he hspan, hstring]
    · intro hstring
      exact ⟨e, he, hstring, rfl⟩
  simp only [tokenTag, hkind, List.any_eq_true, decide_eq_true_eq, hiff]

/-- A token has the tag of its leaf. -/
theorem tokenTag_of_mem {e : Token × Option Kind} (he : e ∈ entries) :
    tokenTag (Document.parse source).tree e.1 = e.2.bind leafTag :=
  tokenTag_of_becomes (h.becomes e he) fun _ hkind => tokenTag_string h he hkind

/-- The pieces of a document are those of its tokens. -/
theorem rootPieces_eq_tokens :
    rootPieces builtinTable source (read source) =
      (tokenize source).filterMap (tokenPiece (Document.parse source).tree) := by
  have hlaid := laidOut_entries h
  have hspans : ∀ c ∈ Document.leaves (Document.parse source).tree.children,
      c.span.Within (Text.byteLength source) := by
    intro c hc
    rw [h.leaves, List.nil_append, List.mem_filterMap] at hc
    obtain ⟨e, he, hentry⟩ := hc
    obtain ⟨kind, -, rfl⟩ := Option.map_eq_some_iff.mp hentry
    obtain ⟨-, hlt, -, -, hstop⟩ := hlaid.of_mem (List.mem_map_of_mem he)
    exact ⟨Nat.le_of_lt hlt, hstop⟩
  have hpiece : ∀ e ∈ entries, (Document.entryLeaf e).bind leafPiece =
      (tokenPiece (Document.parse source).tree ∘ Prod.fst) e := by
    intro e he
    rw [Function.comp, tokenPiece, tokenTag_of_mem h he, Document.entryLeaf]
    cases e.2 with
    | none => rfl
    | some kind => rfl
  rw [rootPieces_read hspans, h.leaves, List.nil_append, List.filterMap_filterMap,
    List.filterMap_congr hpiece, ← List.filterMap_map, h.tokens]

/-- Entries that touch have different tags, if any. -/
theorem ne_tag_of_touch :
    entries.Pairwise fun a b => a.1.span.stop = b.1.span.start →
      ∀ tag, a.2.bind leafTag = some tag → b.2.bind leafTag ≠ some tag := by
  have hlaid := laidOut_entries h
  have htokens : entries.IsChain fun a b => a.1.span.stop = b.1.span.start →
      Token.MayTouch a.1 b.1 := by
    have hscan := Token.isChain_scan 0 source
    rw [← tokenize, ← h.tokens, List.isChain_map] at hscan
    exact hscan
  have hstrings : entries.IsChain fun a b => a.1.span.stop = b.1.span.start →
      ¬ (a.2 = some .string ∧ b.2 = some .string) := h.apart.imp fun _ _ hab _ => hab
  refine (List.pairwise_and_iff.mpr ⟨hlaid.pairwise_of_isChain htokens,
    hlaid.pairwise_of_isChain hstrings⟩).imp_of_mem ?_
  intro a b ha hb hab htouch tag htag htag'
  -- Leaves with one tag are of one kind; of these only texts may touch, and no two texts do.
  obtain ⟨kind, hkind, hleaf⟩ := Option.bind_eq_some_iff.mp htag
  obtain ⟨kind', hkind', hleaf'⟩ := Option.bind_eq_some_iff.mp htag'
  obtain rfl := leafTag_inj hleaf hleaf'
  have hbecomes := h.becomes a ha
  have hbecomes' := h.becomes b hb
  rw [hkind] at hbecomes
  rw [hkind'] at hbecomes'
  have hstring := eq_string_of_mayTouch hbecomes hbecomes' (hab.1 htouch) hleaf
  rw [hstring] at hkind hkind'
  exact hab.2 htouch ⟨hkind, hkind'⟩

theorem exists_token_of_mem {p : Piece} (hp : p ∈ rootPieces builtinTable source (read source)) :
    ∃ t ∈ tokenize source, p.span = t.span ∧
      tokenTag (Document.parse source).tree t = some p.tag := by
  rw [rootPieces_eq_tokens h, List.mem_filterMap] at hp
  obtain ⟨t, ht, hpiece⟩ := hp
  obtain ⟨tag, htag, rfl⟩ := Option.map_eq_some_iff.mp hpiece
  exact ⟨t, ht, rfl, htag⟩

theorem joinAll_rootPieces :
    Paint.joinAll (rootPieces builtinTable source (read source)) =
      rootPieces builtinTable source (read source) := by
  apply Paint.joinAll_eq_self
  · intro p hp
    obtain ⟨t, ht, hspan, -⟩ := exists_token_of_mem h hp
    rw [hspan]
    exact ((laidOut_tokenize source).of_mem (List.mem_map_of_mem ht)).2.1
  · apply List.Pairwise.isChain
    rw [rootPieces_eq_tokens h, ← h.tokens, List.pairwise_filterMap, List.pairwise_map]
    refine (ne_tag_of_touch h).imp_of_mem ?_
    intro a b ha hb hab p hp q hq
    obtain ⟨tag, htag, rfl⟩ := Option.map_eq_some_iff.mp hp
    obtain ⟨tag', htag', rfl⟩ := Option.map_eq_some_iff.mp hq
    rintro ⟨hsame, htouch⟩
    have hsame' : tag = tag' := hsame
    rw [tokenTag_of_mem h ha] at htag
    rw [tokenTag_of_mem h hb, ← hsame'] at htag'
    exact hab htouch tag htag htag'

theorem pairwise_rootPieces :
    (rootPieces builtinTable source (read source)).Pairwise fun p q =>
      p.span.stop ≤ q.span.start := by
  rw [rootPieces_eq_tokens h, List.pairwise_filterMap]
  refine (List.pairwise_map.mp (laidOut_tokenize source).pairwise).imp ?_
  intro t u hle p hp q hq
  obtain ⟨tag, -, rfl⟩ := Option.map_eq_some_iff.mp hp
  obtain ⟨tag', -, rfl⟩ := Option.map_eq_some_iff.mp hq
  exact hle

/-- The highlights in order are those of the tokens, none of them joined. -/
theorem flatten_highlight :
    ((language []).highlight source).flatten =
      ((tokenize source).filterMap (tokenPiece (Document.parse source).tree)).flatMap
        (Paint.rowsOf (Text.lines source)) := by
  have hjoined := joinAll_rootPieces h
  have horder := pairwise_rootPieces h
  rw [← hjoined] at horder
  have hflatten : ((language []).highlight source).flatten =
      (Paint.joinAll (rootPieces builtinTable source (read source))).flatMap
        (Paint.rowsOf (Text.lines source)) := Highlights.flatten_paint horder
  rw [hflatten, hjoined, rootPieces_eq_tokens h]

theorem exists_token_of_tagAt {row col : Nat} {tag : Tag}
    (htag : ((language []).highlight source).tagAt row col = some tag) :
    ∃ last t, Text.CharAt source row col last ∧ t ∈ tokenize source ∧
      tokenTag (Document.parse source).tree t = some tag ∧ t.span.Contains last := by
  have hpaint : (paint name builtinTable source (read source)).tagAt row col = some tag := htag
  by_cases hchar : ∃ last, Text.CharAt source row col last
  · obtain ⟨last, hlast⟩ := hchar
    obtain ⟨p, hp, hcontains, hptag⟩ := paints_of_tagAt_eq_some hlast hpaint
    obtain ⟨t, ht, hspan, hfound⟩ := exists_token_of_mem h hp
    rw [hspan] at hcontains
    rw [hptag] at hfound
    exact ⟨last, t, hlast, ht, hfound, hcontains⟩
  · rw [tagAt_eq_none_of_not_charAt hchar] at hpaint
    cases hpaint

end Account

/-! ## Highlights -/

/-- A highlight on a row marks a token: it covers the columns of the token's text, less a carriage
return that ends the line. -/
def Marks (source : List Char) (t : Token) (row : Nat) (x : Highlight) : Prop :=
  ∃ pre text post, source = pre ++ (text ++ post) ∧ Text.byteLength pre = t.span.start ∧
    Text.byteLength (pre ++ text) = t.span.stop ∧ row = pre.count '\n' ∧
    x.first = Text.columnAfter pre ∧ x.stop = x.first + (Text.visible text post).length

theorem exists_marks {source : List Char} {t : Token} (h : t ∈ tokenize source) (tag : Tag) :
    ∃ e, Paint.rowsOf (Text.lines source) ⟨t.span, tag⟩ = [e] ∧ Marks source t e.1 e.2 ∧
      e.2.tag = tag := by
  obtain ⟨pre, c, text, post, rfl, hspan, hc, htext⟩ := Token.exists_text h
  rw [Nat.zero_add, Nat.zero_add] at hspan
  have hreturn : c ≠ '\r' := by
    rintro rfl
    exact absurd hc (by decide)
  have hrows := Paint.rowsOf_text htext (Text.visible_ne_nil hreturn text post) pre tag
  rw [← hspan] at hrows
  refine ⟨_, hrows, ⟨pre, c :: text, post, rfl, ?_, ?_, rfl, rfl, rfl⟩, rfl⟩
  · rw [hspan]
  · rw [hspan]

theorem forall₂_flatMap {R : Token → Nat × Highlight → Prop} {f : Token → Option Piece}
    {g : Piece → List (Nat × Highlight)} {ts : List Token}
    (h : ∀ t ∈ ts, ∀ p, f t = some p → ∃ e, g p = [e] ∧ R t e) :
    List.Forall₂ R (ts.filter fun t => (f t).isSome) ((ts.filterMap f).flatMap g) := by
  induction ts with
  | nil => exact .nil
  | cons t ts ih =>
      obtain ⟨hfirst, hrest⟩ := List.forall_mem_cons.mp h
      cases hpiece : f t with
      | none =>
          rw [List.filter_cons_of_neg (by simp [hpiece]), List.filterMap_cons_none hpiece]
          exact ih hrest
      | some p =>
          obtain ⟨e, hg, hR⟩ := hfirst p hpiece
          rw [List.filter_cons_of_pos (by simp [hpiece]), List.filterMap_cons_some hpiece,
            List.flatMap_cons, hg]
          exact .cons hR (ih hrest)

/-- The highlights of the diagram language mark the tokens with a tag, one by one and in order, and
a character with a tag belongs to such a token. -/
theorem highlight_marks_tokens (source : List Char) :
    List.Forall₂ (fun t e => Marks source t e.1 e.2 ∧
        tokenTag (Document.parse source).tree t = some e.2.tag)
      ((tokenize source).filter fun t => (tokenTag (Document.parse source).tree t).isSome)
      ((language []).highlight source).flatten ∧
    ∀ row col tag, ((language []).highlight source).tagAt row col = some tag →
      ∃ last t, Text.CharAt source row col last ∧ t ∈ tokenize source ∧
        tokenTag (Document.parse source).tree t = some tag ∧ t.span.Contains last := by
  obtain ⟨entries, haccounts⟩ := Document.exists_accounts_parse source
  refine ⟨?_, fun row col tag htag => exists_token_of_tagAt haccounts htag⟩
  have hfilter : ∀ t, (tokenTag (Document.parse source).tree t).isSome =
      (tokenPiece (Document.parse source).tree t).isSome := by
    intro t
    rw [tokenPiece, Option.isSome_map]
  simp only [flatten_highlight haccounts, hfilter]
  apply forall₂_flatMap
  intro t ht p hp
  obtain ⟨tag, htag, rfl⟩ := Option.map_eq_some_iff.mp hp
  obtain ⟨e, hrows, hmarks, hetag⟩ := exists_marks ht tag
  exact ⟨e, hrows, hmarks, by rw [htag, hetag]⟩

/-- A comment in front of a carriage return, a stray string and a message whose label has no closing
quote. -/
def mixedText : List Char :=
  ['#', 'é', '\r', '\n', '"', 'x', '"', 'a', '-', '>', 'b', ':', '"', 'y']

theorem highlight_marks_mixedText :
    ((language []).highlight mixedText).flatten =
        [(0, ⟨0, 2, .lineComment⟩), (1, ⟨3, 4, .variableName⟩), (1, ⟨6, 7, .variableName⟩),
          (1, ⟨8, 10, .string⟩)] ∧
      List.Forall₂ (fun t e => Marks mixedText t e.1 e.2 ∧
          tokenTag (Document.parse mixedText).tree t = some e.2.tag)
        [⟨.lineComment, ⟨0, 4⟩⟩, ⟨.identifier, ⟨8, 9⟩⟩, ⟨.identifier, ⟨11, 12⟩⟩,
          ⟨.string false, ⟨13, 15⟩⟩]
        ((language []).highlight mixedText).flatten := by
  have htokens : (tokenize mixedText).filter (fun t =>
      (tokenTag (Document.parse mixedText).tree t).isSome) =
        [⟨.lineComment, ⟨0, 4⟩⟩, ⟨.identifier, ⟨8, 9⟩⟩, ⟨.identifier, ⟨11, 12⟩⟩,
          ⟨.string false, ⟨13, 15⟩⟩] := by
    decide +kernel
  have hpieces : Paint.joinAll (rootPieces builtinTable mixedText (read mixedText)) =
      [⟨⟨0, 4⟩, .lineComment⟩, ⟨⟨8, 9⟩, .variableName⟩, ⟨⟨11, 12⟩, .variableName⟩,
        ⟨⟨13, 15⟩, .string⟩] := by
    rw [builtinTable_eq, builtinRules_eq]
    decide +kernel
  have horder : (Paint.joinAll (rootPieces builtinTable mixedText (read mixedText))).Pairwise
      fun p q => p.span.stop ≤ q.span.start := by
    rw [hpieces]
    decide
  have hflatten : ((language []).highlight mixedText).flatten =
      (Paint.joinAll (rootPieces builtinTable mixedText (read mixedText))).flatMap
        (Paint.rowsOf (Text.lines mixedText)) := Highlights.flatten_paint horder
  rw [hpieces] at hflatten
  refine ⟨hflatten.trans (by decide +kernel), ?_⟩
  rw [← htokens]
  exact (highlight_marks_tokens mixedText).1

end Diagram

end DiagramTint
