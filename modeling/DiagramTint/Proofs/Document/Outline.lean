import DiagramTint.Document.Outline
import DiagramTint.Proofs.Document.Numbering
import DiagramTint.Proofs.Record.ReadBack
import DiagramTint.Proofs.Tree.Depths

/-!
# Outlines read back

Every line of an outline is that of one node, since quoting leaves no line feed in a text.  A line
tells the depth, the kind and the span of its node, and these tell the tree.
-/

namespace DiagramTint

namespace Text

theorem newline_not_mem_hexDigits (n : Nat) : '\n' ∉ hexDigits n := by
  have hdigit : ∀ d < 16, Nat.digitChar d ≠ '\n' := by decide
  unfold hexDigits
  induction n using Nat.strong_induction_on with
  | _ n ih =>
      rw [Nat.toDigits_eq_if (by decide)]
      split
      · rename_i hlt
        rw [List.mem_singleton]
        exact (hdigit n hlt).symm
      · rw [List.mem_append, List.mem_singleton, not_or]
        exact ⟨ih (n / 16) (by omega), (hdigit (n % 16) (by omega)).symm⟩

theorem newline_not_mem_quotedChar (c : Char) : '\n' ∉ quotedChar c := by
  have hdigits := newline_not_mem_hexDigits c.toNat
  unfold quotedChar
  split_ifs with hquote hbackslash hnewline hreturn htab hnull hcode
  · decide
  · decide
  · decide
  · decide
  · decide
  · decide
  · simp only [List.mem_append, not_or]
    exact ⟨⟨by decide, hdigits⟩, by decide⟩
  · rw [List.mem_singleton]
    exact Ne.symm hnewline

theorem newline_not_mem_quoted (cs : List Char) : '\n' ∉ quoted cs := by
  intro h
  rw [quoted, List.mem_append, List.mem_cons, List.mem_flatMap] at h
  rcases h with (hopen | ⟨c, -, hc⟩) | hclose
  · cases hopen
  · exact newline_not_mem_quotedChar c hc
  · simp at hclose

end Text

/-! ## A reader of outlines -/

theorem Kind.ofName?_name (k : Kind) : Kind.ofName? k.name = some k := by
  cases k <;> decide +kernel

theorem Kind.not_mem_name (k : Kind) : ' ' ∉ k.name.toList ∧ '\n' ∉ k.name.toList := by
  cases k <;> decide +kernel

theorem Kind.name_ne_nil (k : Kind) : k.name.toList ≠ [] := by
  cases k <;> decide +kernel

namespace Document

open DiagramTint.Tree

/-- The entry of the node that has this line in an outline. -/
def entryOfLine? (line : List Char) : Option (Tree.Entry Kind) := do
  let (name, rest) ← Record.cut? ' ' (line.dropWhile (· == ' '))
  let (start, rest) ← Record.cut? '.' rest
  let depth := (line.takeWhile (· == ' ')).length / 2
  let stop := (rest.drop 1).takeWhile Char.isDigit
  return ⟨depth, ← Kind.ofName? (String.ofList name), ← Record.number? start, ← Record.number? stop⟩

/-- The trees that have this outline. -/
def treesOfOutline? (outline : List Char) : Option (List (Tree Kind)) := do
  return grow 0 (← (Text.splitWhere (· == '\n') outline).dropLast.mapM entryOfLine?)

/-- What stands behind the span of a node: nothing, or the quoted text of a node without
children. -/
def textOf (source : List Char) (t : Tree Kind) : List Char :=
  if t.children.isEmpty then
    ((Text.slice? source t.span).map fun cs => ' ' :: Text.quoted cs).getD []
  else []

/-- The outline line of a node without the line feed that ends it. -/
def outlineRow (source : List Char) (depth : Nat) (t : Tree Kind) : List Char :=
  List.replicate (2 * depth) ' ' ++ (t.label.name.toList ++ ' ' :: (t.span.render.toList ++
    textOf source t))

theorem outlineLine_eq (source : List Char) (depth : Nat) (t : Tree Kind) :
    outlineLine source depth t = outlineRow source depth t ++ ['\n'] := by
  simp only [outlineLine, outlineRow, textOf, List.append_assoc, List.cons_append]

theorem toList_render (s : Span) :
    s.render.toList = (toString s.start).toList ++ '.' :: '.' :: (toString s.stop).toList := by
  show (toString s.start ++ ".." ++ toString s.stop).toList = _
  rw [String.toList_append, String.toList_append, List.append_assoc]
  rfl

theorem textOf_eq (source : List Char) (t : Tree Kind) :
    textOf source t = [] ∨ ∃ cs, textOf source t = ' ' :: Text.quoted cs := by
  unfold textOf
  split
  · cases Text.slice? source t.span with
    | none => exact Or.inl rfl
    | some cs => exact Or.inr ⟨cs, rfl⟩
  · exact Or.inl rfl

theorem newline_not_mem_outlineRow (source : List Char) (depth : Nat) (t : Tree Kind) :
    '\n' ∉ outlineRow source depth t := by
  have hnumber : ∀ n : Nat, '\n' ∉ (toString n).toList := Record.not_mem_toString (by decide)
  have htext : '\n' ∉ textOf source t := by
    rcases textOf_eq source t with hnil | ⟨cs, hcs⟩
    · rw [hnil]
      exact List.not_mem_nil
    · rw [hcs, List.mem_cons, not_or]
      exact ⟨by decide, Text.newline_not_mem_quoted cs⟩
  simp only [outlineRow, toList_render, List.mem_append, List.mem_cons, List.mem_replicate, not_or]
  exact ⟨fun h => absurd h.2 (by decide), t.label.not_mem_name.2, by decide,
    ⟨hnumber _, by decide, by decide, hnumber _⟩, htext⟩

/-- The spaces in front of a name are those that stand for the depth. -/
theorem spaces_before_name (n : Nat) (k : Kind) (rest : List Char) :
    (List.replicate n ' ' ++ (k.name.toList ++ rest)).takeWhile (· == ' ') = List.replicate n ' ' ∧
      (List.replicate n ' ' ++ (k.name.toList ++ rest)).dropWhile (· == ' ') =
        k.name.toList ++ rest := by
  have hspaces : ∀ c ∈ List.replicate n ' ', (c == ' ') = true := by simp
  rw [List.takeWhile_append_of_pos hspaces, List.dropWhile_append_of_pos hspaces]
  have hname := k.not_mem_name.1
  cases hk : k.name.toList with
  | nil => exact absurd hk k.name_ne_nil
  | cons c cs =>
      rw [hk, List.mem_cons, not_or] at hname
      have hc : (c == ' ') = false := by simpa using Ne.symm hname.1
      simp [hc]

/-- The digits of the second number of a span end where the text of the node starts. -/
theorem takeWhile_isDigit (n : Nat) (source : List Char) (t : Tree Kind) :
    ((toString n).toList ++ textOf source t).takeWhile Char.isDigit = (toString n).toList := by
  have hdigits : ∀ c ∈ (toString n).toList, c.isDigit = true :=
    fun _ hc => Record.isDigit_of_mem_toString hc
  rw [List.takeWhile_append_of_pos hdigits]
  rcases textOf_eq source t with hnil | ⟨cs, hcs⟩
  · rw [hnil, List.takeWhile_nil, List.append_nil]
  · rw [hcs, List.takeWhile_cons_of_neg (by decide), List.append_nil]

theorem entryOfLine?_outlineRow (source : List Char) (depth : Nat) (t : Tree Kind) :
    entryOfLine? (outlineRow source depth t) = some ⟨depth, t.label, t.span⟩ := by
  obtain ⟨hspaces, hrest⟩ := spaces_before_name (2 * depth) t.label
    (' ' :: ((toString t.span.start).toList ++ '.' :: '.' :: ((toString t.span.stop).toList ++
      textOf source t)))
  have hname := Record.cut?_append t.label.not_mem_name.1
  have hstart := Record.cut?_append (Record.not_mem_toString (by decide : '.'.isDigit = false)
    t.span.start)
  simp only [entryOfLine?, outlineRow, hspaces, hrest, hname, toList_render, List.append_assoc,
    List.cons_append, hstart, List.drop_one, List.tail_cons, takeWhile_isDigit,
    Record.number?_toString, String.ofList_toList, Kind.ofName?_name, List.length_replicate,
    Nat.mul_div_cancel_left depth (by decide : 0 < 2), Option.bind_eq_bind, Option.bind_some,
    Option.pure_def]

/-! ## Whole outlines -/

/-- The rows of an outline, without the line feeds that end them. -/
def outlineRows (source : List Char) (d : Document) : List (List Char) :=
  (d.tree.visits []).map fun v => outlineRow source v.1.length v.2

theorem outline_eq (source : List Char) (d : Document) :
    outline source d = (outlineRows source d).flatMap (· ++ ['\n']) := by
  rw [outlineRows, List.flatMap_map]
  exact congrArg ((d.tree.visits []).flatMap ·) (funext fun v => outlineLine_eq _ _ v.2)

theorem newline_not_mem_of_mem_outlineRows {source : List Char} {d : Document} :
    ∀ row ∈ outlineRows source d, '\n' ∉ row := by
  intro row hrow
  obtain ⟨v, -, rfl⟩ := List.mem_map.mp hrow
  exact newline_not_mem_outlineRow source v.1.length v.2

/-- The outline of a document tells its tree, whatever text it quotes. -/
theorem treesOfOutline?_outline (source : List Char) (d : Document) :
    treesOfOutline? (outline source d) = some [d.tree] := by
  have hentries : (outlineRows source d).mapM entryOfLine? = some (d.tree.entries []) := by
    rw [outlineRows, List.mapM_map]
    exact mapM_eq_some fun v _ => entryOfLine?_outlineRow source v.1.length v.2
  rw [treesOfOutline?, outline_eq, Text.splitWhere_flatMap newline_not_mem_of_mem_outlineRows,
    List.dropLast_concat, hentries, ← grow_entries]
  rfl

/-! ## Lines and nodes -/

theorem exists_slice_of_isBoundary {source : List Char} {a b : Nat}
    (ha : Text.IsBoundary source a) (hb : Text.IsBoundary source b) (hle : a ≤ b) :
    ∃ cs, Text.slice? source ⟨a, b⟩ = some cs := by
  obtain ⟨front, hfront, rfl⟩ := ha
  obtain ⟨back, hback, rfl⟩ := hb
  have hpart : front <+: back := by
    rcases List.prefix_or_prefix_of_prefix hfront hback with hpart | ⟨mid, rfl⟩
    · exact hpart
    · have hmid := Text.length_le_byteLength mid
      rw [Text.byteLength_append] at hle
      have hnil : mid = [] := List.eq_nil_of_length_eq_zero (by omega)
      exact ⟨[], by rw [hnil, List.append_nil, List.append_nil]⟩
  obtain ⟨mid, rfl⟩ := hpart
  obtain ⟨rest, rfl⟩ := hback
  refine ⟨mid, ?_⟩
  rw [Text.byteLength_append, List.append_assoc]
  exact Text.slice?_append front mid rest

/-- Every node of a document covers a part of the source. -/
theorem exists_slice_of_hasNode {source : List Char} {t : Tree Kind} {i : Nat} {up : List Nat}
    (h : HasNode (parse source).tree i up t) : ∃ cs, Text.slice? source t.span = some cs := by
  cases h with
  | root =>
      have hwhole := Text.slice?_append [] source []
      rw [List.nil_append, List.append_nil, Text.byteLength_nil, Nat.zero_add] at hwhole
      exact ⟨source, hwhole⟩
  | child hparent hc =>
      obtain ⟨-, hlt, hstart, hstop, -⟩ := span_of_child hparent (List.of_mem_zip hc).2
      exact exists_slice_of_isBoundary hstart hstop (Nat.le_of_lt hlt)

/-- A row is about cell `i`: two spaces for each ancestor, the kind and the span, and behind them
the quoted text of the cell if it has no children. -/
def Describes (source : List Char) (cells : Arena Kind) (i : Nat) (c : Cell Kind)
    (row : List Char) : Prop :=
  ∃ text, row = List.replicate (2 * (cells.ancestors i).length) ' ' ++ (c.label.name.toList ++
      ' ' :: (c.span.render.toList ++ text)) ∧
    (c.children ≠ [] → text = []) ∧
    (c.children = [] → ∃ cs, Text.slice? source c.span = some cs ∧ text = ' ' :: Text.quoted cs)

theorem describes_outlineRows {source : List Char} {i : Nat} {c : Cell Kind}
    (hc : (arena source)[i]? = some c) :
    ∃ row, (outlineRows source (parse source))[i]? = some row ∧
      Describes source (arena source) i c row := by
  rw [arena_eq_toArena] at hc ⊢
  obtain ⟨up, t, ht, rfl⟩ := exists_hasNode_of_getElem? hc
  obtain ⟨chain, hchain, hvisit⟩ := ht.getElem?_visits
  have hdepth : ((parse source).tree.toArena.ancestors i).length = chain.length := by
    have hle := ht.length_le
    have hlt := ht.lt_length
    rw [Arena.ancestors, ht.climb_eq, List.length_take, hchain]
    omega
  have hchildren : numbers (i + 1) t.children = [] ↔ t.children = [] := by
    rw [← List.length_eq_zero_iff, length_numbers, List.length_eq_zero_iff]
  refine ⟨outlineRow source chain.length t, by rw [outlineRows, List.getElem?_map, hvisit]; rfl,
    textOf source t, by rw [hdepth]; rfl, ?_, ?_⟩
  · intro hne
    have hne : t.children ≠ [] := fun hnil => hne (hchildren.mpr hnil)
    rw [textOf, if_neg (by simpa using hne)]
  · intro hnil
    obtain ⟨cs, hcs⟩ := exists_slice_of_hasNode ht
    refine ⟨cs, hcs, ?_⟩
    rw [textOf, if_pos (by simpa using hchildren.mp hnil), hcs]
    rfl

/-- The outline of a source has one line for each cell of its arena, in the order of their numbers,
and it tells all cells: sources with the same outline have the same arena. -/
theorem outline_tells_arena (source : List Char) :
    (∃ rows : List (List Char),
      outline source (parse source) = rows.flatMap (· ++ ['\n']) ∧ (∀ row ∈ rows, '\n' ∉ row) ∧
      rows.length = (arena source).length ∧
      ∀ (i : Nat) (c : Cell Kind), (arena source)[i]? = some c →
        ∃ row, rows[i]? = some row ∧ Describes source (arena source) i c row) ∧
    ∀ other : List Char, outline other (parse other) = outline source (parse source) →
      arena other = arena source := by
  constructor
  · refine ⟨outlineRows source (parse source), outline_eq _ _, newline_not_mem_of_mem_outlineRows,
      ?_, fun i c hc => describes_outlineRows hc⟩
    rw [outlineRows, List.length_map, length_visits, arena_eq_toArena, length_toArena]
  · intro other hsame
    have htrees := treesOfOutline?_outline other (parse other)
    rw [hsame, treesOfOutline?_outline, Option.some.injEq, List.singleton_inj] at htrees
    rw [arena_eq_toArena, arena_eq_toArena, htrees]

/-- A message with an open label, once with a space and once with a tab behind its first name. -/
def spacedMessage : List Char := "a ->b: \"c\\\"".toList

@[inherit_doc spacedMessage]
def tabbedMessage : List Char := "a\t->b: \"c\\\"".toList

theorem outline_tells_arena_tabbedMessage :
    outline tabbedMessage (parse tabbedMessage) = outline spacedMessage (parse spacedMessage) ∧
      arena tabbedMessage = arena spacedMessage := by
  have hsame : outline tabbedMessage (parse tabbedMessage) =
      outline spacedMessage (parse spacedMessage) := by
    decide +kernel
  exact ⟨hsame, (outline_tells_arena spacedMessage).2 tabbedMessage hsame⟩

end Document

end DiagramTint
