import DiagramTint.Config
import DiagramTint.Proofs.Highlights.Runs
import DiagramTint.Proofs.Rule.Resolution

/-!
# What user rules change

The rules of a configuration are entered after those of the diagram language, may take their place
and change how pieces are joined.  A character keeps its tag all the same, if none of them selects a
node around it.
-/

namespace DiagramTint

/-- If two ways to tag nodes agree on all nodes around a byte, they agree on the innermost one,
inherited tags included. -/
theorem Tree.PathAt.effectiveTag_eq {α : Type} {classify classify' : α → List α → Option Tag}
    {t : Tree α} {chain path : List α} {byte : Nat} (hpath : t.PathAt chain byte path)
    (hnested : t.WellNested)
    (h : ∀ v ∈ t.visits chain, v.2.span.Contains byte →
      classify v.2.label v.1 = classify' v.2.label v.1)
    (hchain : effectiveTag classify chain = effectiveTag classify' chain) :
    effectiveTag classify path = effectiveTag classify' path := by
  induction t generalizing chain with
  | node label span children ih =>
      -- Every ancestor of the innermost node is around the byte, too.
      have hroot : classify label chain = classify' label chain :=
        h (chain, .node label span children) (mem_visits_node.mpr (Or.inl rfl))
          (hpath.contains_root hnested)
      have hself : effectiveTag classify (label :: chain) =
          effectiveTag classify' (label :: chain) := by
        rw [effectiveTag, effectiveTag, hroot, hchain]
      rcases (pathAt_node hnested).mp hpath with ⟨rfl, -⟩ | ⟨c, hc, hbelow⟩
      · exact hself
      · refine ih c hc hbelow ((wellNested_node.mp hnested).2 c hc) ?_ hself
        intro v hv
        exact h v (mem_visits_node.mpr (Or.inr ⟨c, hc, hv⟩))

/-- Two tables that agree on all nodes around a character give it the same tag. -/
theorem tagAt_paint_congr {language : String} {table table' : RuleTable} {source : List Char}
    {tree : Tree String} {row col : Nat} (hnested : tree.WellNested)
    (h : ∀ last, Text.CharAt source row col last → ∀ v ∈ tree.visits [], v.2.span.Contains last →
      table.resolve v.2.label v.1 = table'.resolve v.2.label v.1) :
    (paint language table source tree).tagAt row col =
      (paint language table' source tree).tagAt row col := by
  apply Option.ext
  intro tag
  rw [tagAt_paint_eq_some_iff hnested, tagAt_paint_eq_some_iff hnested, HasTag, HasTag]
  refine exists_congr fun last => exists_congr fun path => and_congr_right fun hchar =>
    and_congr_right fun hpath => ?_
  rw [hpath.effectiveTag_eq hnested (h last hchar) rfl]

namespace Diagram

open Text

/-- A node that contains the last byte of a character contains the whole character. -/
theorem start_le_of_contains {pre post : List Char} {c : Char} {n : Tree String} {last : Nat}
    (hn : n ∈ (read (pre ++ c :: post)).preorder) (hlast : last + 1 = byteLength pre + c.utf8Size)
    (hcontains : n.span.Contains last) : n.span.start ≤ byteLength pre := by
  have hstart : n.span.start < byteLength pre + c.utf8Size := by
    have hle := hcontains.1
    omega
  have hinside : n.span.start ≤ byteLength (pre ++ c :: post) := by
    rw [byteLength_append, byteLength_cons]
    omega
  have hboundary := (onBoundaries_read _ n hn).1
  rw [Span.clamp, Nat.min_eq_left hinside] at hboundary
  exact hboundary.le_of_lt hstart

/-- A character has the same tag with the rules of a configuration as without them, if none of these
rules selects any node whose span contains the character. -/
theorem tagAt_highlight_of_not_selects (config : Config) {source pre post : List Char} {c : Char}
    (hsource : source = pre ++ c :: post)
    (h : ∀ r ∈ config.tagRules, ∀ v ∈ (read source).visits [],
      v.2.span.start ≤ byteLength pre → byteLength pre + c.utf8Size ≤ v.2.span.stop →
        r.selector.selects v.2.label v.1 = false) :
    ((language config.tagRules).highlight source).tagAt (pre.count '\n') (columnAfter pre) =
      ((language []).highlight source).tagAt (pre.count '\n') (columnAfter pre) := by
  subst hsource
  apply tagAt_paint_congr (wellNested_read _)
  intro last hchar v hv hcontains
  have hlast := hchar.last_eq
  have hstart := start_le_of_contains (Tree.mem_preorder_of_mem_visits hv) hlast hcontains
  have hstop : byteLength pre + c.utf8Size ≤ v.2.span.stop := by
    have hlt := hcontains.2
    omega
  have hselects : ∀ r ∈ config.tagRules, r.selector.selects v.2.label v.1 = false :=
    fun r hr => h r hr v hv hstart hstop
  simp only [language, RuleTable.resolve_build_append builtinRules hselects, List.append_nil]

/-- A comment and a message. -/
def commentedText : List Char :=
  ['#', 'é', '\n', 'a', '-', '>', 'b']

/-- A rule for messages, a rule that takes the place of a rule of the diagram language, and a key
that cannot be read. -/
def messageConfig : Config :=
  ⟨[⟨"Message", .keyword⟩, ⟨"Message/Identifier", .string⟩, ⟨"LineComment/", .keyword⟩]⟩

theorem tagAt_highlight_commentedText :
    (∀ r ∈ messageConfig.tagRules, ∀ v ∈ (read commentedText).visits [],
      v.2.span.start ≤ 1 → 3 ≤ v.2.span.stop → r.selector.selects v.2.label v.1 = false) ∧
      ⟨0, 1, .string⟩ ∈ ((language messageConfig.tagRules).highlight commentedText).line 1 ∧
      ((language messageConfig.tagRules).highlight commentedText).tagAt 0 1 =
        ((language []).highlight commentedText).tagAt 0 1 := by
  have hnone : ∀ r ∈ messageConfig.tagRules, ∀ v ∈ (read commentedText).visits [],
      v.2.span.start ≤ 1 → 3 ≤ v.2.span.stop → r.selector.selects v.2.label v.1 = false := by
    decide +kernel
  have hsource : commentedText = ['#'] ++ 'é' :: ['\n', 'a', '-', '>', 'b'] := rfl
  refine ⟨hnone, mem_line_paint.mpr ?_,
    tagAt_highlight_of_not_selects messageConfig hsource hnone⟩
  rw [language, builtinRules_eq]
  decide +kernel

end Diagram

end DiagramTint
