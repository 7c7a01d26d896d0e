import DiagramTint.Config.Store
import DiagramTint.Proofs.FileSystem.Storing
import DiagramTint.Proofs.Yaml.Scan

/-!
# Written configurations read back

The text of a configuration goes through tokens and nodes, and at each stage it is known what they
are: one mapping with the rules, each a mapping of a selector and a tag.  So a valid configuration
is read back as it is, whatever its selectors are made of.
-/

namespace DiagramTint

open Yaml

/-! ## Tokens -/

namespace ConfigRule

/-- The tokens of a rule as an item of a sequence. -/
def tokens (r : ConfigRule) : List Yaml.Token :=
  .blockEntry :: .blockMappingStart ::
    (Scan.fieldTokens "selector".toList r.selector.toList ++
      Scan.fieldTokens "tag".toList r.tag.name.toList ++ [.blockEnd])

theorem selectorIsName : Lexeme.IsName "selector".toList :=
  Lexeme.isName_of_all (by decide) (by decide) (by decide)

theorem tagIsName : Lexeme.IsName "tag".toList :=
  Lexeme.isName_of_all (by decide) (by decide) (by decide)

theorem toYaml_append (r : ConfigRule) (rest : List Char) :
    r.toYaml ++ rest = '-' :: ' ' :: ("selector".toList ++ ':' :: ' ' ::
      (Scalar.write r.selector.toList ++ (List.replicate 2 ' ' ++ ("tag".toList ++ ':' :: ' ' ::
        (Scalar.write r.tag.name.toList ++ (List.replicate 0 ' ' ++ rest)))))) := by
  have hselector : "- selector: ".toList = '-' :: ' ' :: ("selector".toList ++ [':', ' ']) := by
    decide
  have htag : "  tag: ".toList = List.replicate 2 ' ' ++ ("tag".toList ++ [':', ' ']) := by
    decide
  unfold toYaml
  rw [hselector, htag]
  simp only [List.append_assoc, List.cons_append, List.nil_append, List.replicate_zero]

theorem solid_toYaml (r : ConfigRule) (rest : List Char) : Solid (r.toYaml ++ rest) := by
  rw [toYaml_append]
  exact solid_cons.mpr (by decide)

theorem isAllowed_of_mem_toYaml (r : ConfigRule) : ∀ d ∈ r.toYaml, isAllowed d = true := by
  have hselector : ∀ d ∈ "- selector: ".toList, isAllowed d = true :=
    List.all_eq_true.mp (by decide)
  have htag : ∀ d ∈ "  tag: ".toList, isAllowed d = true :=
    List.all_eq_true.mp (by decide)
  intro d hd
  unfold toYaml at hd
  simp only [List.mem_append] at hd
  rcases hd with ((hd | hd) | hd) | hd
  · exact hselector d hd
  · exact Scalar.isAllowed_of_mem_write hd
  · exact htag d hd
  · exact Scalar.isAllowed_of_mem_write hd

theorem run_toYaml (r : ConfigRule) {p : Position} (hp : p.column = 0) (ts : List Yaml.Token)
    {rest : List Char} (hrest : Solid rest) :
    ∃ q : Position, q.column = 0 ∧
      (Scan.quiet p [0] ts true (r.toYaml ++ rest)).run =
        (Scan.quiet q [0] (r.tokens.reverse ++ ts) true rest).run := by
  have hp' : ((p.after ['-']).after [' ']).column = 2 := by
    rw [← Position.after_append, (Position.after_of_not_isBreak (by simp [isBreak]) p).2, hp]
    rfl
  have hopen : p.column < Scan.outerOf [0] := by
    rw [hp]
    decide
  have houter : Scan.outerOf [0] ≤ 2 := by decide
  obtain ⟨q₁, hq₁, hselector⟩ := Scan.run_firstField hp' houter (.blockEntry :: ts)
    selectorIsName r.selector.toList (by decide : 2 < 3) tagIsName.solid
  obtain ⟨q₂, hq₂, htag⟩ := Scan.run_nextField hq₁ [0]
    ((Scan.fieldTokens "selector".toList r.selector.toList).reverse ++
      .blockMappingStart :: .blockEntry :: ts) tagIsName r.tag.name.toList (by decide : 0 < 3) hrest
  refine ⟨q₂, hq₂, ?_⟩
  rw [toYaml_append, (Scan.fits_zero p).run_dash hopen ts rfl]
  refine (Scan.run_gap _ _ _ (.spaces 1) selectorIsName.solid).trans ?_
  refine (hselector.trans htag).trans ?_
  exact (Scan.fits_zero q₂).run_close (by omega) _ _ hrest

end ConfigRule

namespace Config

/-- The tokens of a configuration. -/
def tokens (c : Config) : List Yaml.Token :=
  .blockMappingStart :: .key :: .scalar .plain "rules".toList :: .value ::
    ((if c.rules.isEmpty then [.flowSequenceStart, .flowSequenceEnd]
      else c.rules.flatMap ConfigRule.tokens) ++ [.blockEnd])

theorem run_rules (rules : List ConfigRule) {p : Position} (hp : p.column = 0)
    (ts : List Yaml.Token) :
    (Scan.quiet p [0] ts true (rules.flatMap ConfigRule.toYaml)).run =
      .ok (ts.reverse ++ (rules.flatMap ConfigRule.tokens ++ [.blockEnd])) := by
  induction rules generalizing p ts with
  | nil =>
      rw [List.flatMap_nil, (Scan.fits_zero p).run_nil]
      simp
  | cons r rules ih =>
      have hrest : Solid (rules.flatMap ConfigRule.toYaml) := by
        cases rules with
        | nil => exact solid_nil
        | cons s rules => exact s.solid_toYaml _
      obtain ⟨q, hq, hrun⟩ := r.run_toYaml hp ts hrest
      rw [List.flatMap_cons, hrun, ih hq]
      simp

theorem isAllowed_of_mem_toYaml (c : Config) : ∀ d ∈ c.toYaml, isAllowed d = true := by
  have hempty : ∀ d ∈ "rules: []\n".toList, isAllowed d = true :=
    List.all_eq_true.mp (by decide)
  have hrules : ∀ d ∈ "rules:\n".toList, isAllowed d = true :=
    List.all_eq_true.mp (by decide)
  intro d hd
  unfold toYaml at hd
  split at hd
  · exact hempty d hd
  · rcases List.mem_append.mp hd with hd | hd
    · exact hrules d hd
    · obtain ⟨r, -, hr⟩ := List.mem_flatMap.mp hd
      exact r.isAllowed_of_mem_toYaml d hr

theorem rulesIsName : Lexeme.IsName "rules".toList :=
  Lexeme.isName_of_all (by decide) (by decide) (by decide)

/-- The key of the rules opens the mapping. -/
theorem run_rulesKey {rest : List Char} (hrest : atGap rest = true) :
    (Scan.run { rest := "rules".toList ++ ':' :: rest }) =
      (Scan.quiet (Position.after {} ("rules".toList ++ [':'])) [0]
        [.value, .scalar .plain "rules".toList, .key, .blockMappingStart] false rest).run := by
  have hfits : Scan.Fits {} [] := by
    intro i hi
    cases hi
  exact hfits.run_key [] rulesIsName hrest

theorem run_toYaml (c : Config) : Scan.run { rest := c.toYaml } = .ok c.tokens := by
  unfold toYaml tokens
  cases hrules : c.rules with
  | nil =>
      have htext : "rules: []\n".toList =
          "rules".toList ++ ':' :: (List.replicate 1 ' ' ++ ('[' :: ']' :: (lineGap 0 ++ []))) := by
        decide
      have hbracket : ∀ rest, Solid ('[' :: rest) := fun rest => solid_cons.mpr (by decide)
      rw [List.isEmpty_nil, if_pos rfl, htext, run_rulesKey rfl,
        Scan.run_gap _ _ _ (.spaces 1) (hbracket _), (Scan.fits_zero _).run_brackets,
        Scan.run_gap _ _ _ (.line 0) solid_nil, (Scan.fits_zero _).run_nil]
      rfl
  | cons r rules =>
      have htext : "rules:\n".toList = "rules".toList ++ ':' :: lineGap 0 := by decide
      have hsolid : Solid ((r :: rules).flatMap ConfigRule.toYaml) := r.solid_toYaml _
      rw [List.isEmpty_cons, if_neg (by decide), if_neg (by decide), htext, List.append_assoc,
        List.cons_append, run_rulesKey rfl, Scan.run_gap _ _ _ (.line 0) hsolid, run_rules]
      · rfl
      · exact Position.column_after_break _ [] (by decide) 0

theorem tokenize_toYaml (c : Config) : Yaml.tokenize c.toYaml = .ok c.tokens := by
  have hall : c.toYaml.all isAllowed = true := List.all_eq_true.mpr c.isAllowed_of_mem_toYaml
  rw [Yaml.tokenize, if_pos hall, run_toYaml]

end Config

/-! ## Nodes -/

/-- A field of a mapping as a pair of nodes. -/
def fieldNodes (name cs : List Char) : Node × Node :=
  (.scalar none .plain name, .scalar none (Scalar.style cs) cs)

/-- The node of a rule. -/
def ConfigRule.node (r : ConfigRule) : Node :=
  .mapping none [fieldNodes "selector".toList r.selector.toList,
    fieldNodes "tag".toList r.tag.name.toList]

/-- The node of a configuration. -/
def Config.node (c : Config) : Node :=
  .mapping none [(.scalar none .plain "rules".toList, .sequence none (c.rules.map ConfigRule.node))]

namespace Config

section Building

variable (handles : List (String × List UInt8))

theorem build_rules (rules : List ConfigRule) (items : List Node) (frames : List Frame)
    (ts : List Yaml.Token) :
    Build.run { handles := handles, frames := .flushSequence none none items false :: frames }
        (rules.flatMap ConfigRule.tokens ++ ts) =
      Build.run
        { handles := handles,
          frames := .flushSequence none none (items ++ rules.map ConfigRule.node) false :: frames }
        ts := by
  induction rules generalizing items with
  | nil => simp
  | cons r rules ih =>
      calc
        -- the styles of a rule's texts do not matter to its frames, so its tokens can be computed
        _ = Build.run
            { handles := handles,
              frames := .flushSequence none none (items ++ [r.node]) false :: frames }
            (rules.flatMap ConfigRule.tokens ++ ts) := by
          rw [List.flatMap_cons, List.append_assoc]
          rfl
        _ = _ := by
          rw [ih]
          simp

theorem build_tokens (c : Config) :
    Build.run { handles := handles } c.tokens = .ok ⟨c.node, {}⟩ := by
  unfold tokens node
  cases c.rules with
  | nil => rfl
  | cons r rules =>
      rw [List.isEmpty_cons, if_neg (by decide), List.flatMap_cons, List.append_assoc]
      refine (build_rules handles rules [r.node]
        [.blockMapping none none [] (.value (.scalar none .plain "rules".toList)), .root none]
        [.blockEnd]).trans ?_
      rfl

end Building

theorem not_isBoundary_of_mem_tokens (c : Config) :
    ∀ t ∈ c.tokens, (!Yaml.Document.isBoundary t) = true := by
  have hrule : ∀ r : ConfigRule, ∀ t ∈ r.tokens, (!Yaml.Document.isBoundary t) = true := by
    intro r
    simp [ConfigRule.tokens, Scan.fieldTokens, Yaml.Document.isBoundary, Yaml.Document.isDirective]
  have hrules : ∀ t ∈ (if c.rules.isEmpty then [Yaml.Token.flowSequenceStart, .flowSequenceEnd]
      else c.rules.flatMap ConfigRule.tokens), (!Yaml.Document.isBoundary t) = true := by
    intro t ht
    split at ht
    · revert t
      decide
    · obtain ⟨r, -, hr⟩ := List.mem_flatMap.mp ht
      exact hrule r t hr
  intro t ht
  simp only [tokens, List.mem_cons, List.mem_append, List.not_mem_nil, or_false] at ht
  rcases ht with rfl | rfl | rfl | rfl | ht | rfl
  · rfl
  · rfl
  · rfl
  · rfl
  · exact hrules t ht
  · rfl

theorem ofTokens_tokens (c : Config) :
    Yaml.Document.ofTokens c.tokens = .ok (some ⟨c.node, {}⟩) := by
  have hcontent : c.tokens.takeWhile (fun t => !Yaml.Document.isBoundary t) = c.tokens := by
    rw [← List.append_nil c.tokens, List.takeWhile_append_of_pos c.not_isBoundary_of_mem_tokens]
    rfl
  have hafter : c.tokens.dropWhile (fun t => !Yaml.Document.isBoundary t) = [] := by
    rw [← List.append_nil c.tokens, List.dropWhile_append_of_pos c.not_isBoundary_of_mem_tokens]
    rfl
  have hread : Yaml.Document.ofContent false Yaml.Document.defaultHandles c.tokens =
      .ok ⟨c.node, {}⟩ := by
    simp only [Yaml.Document.ofContent, hcontent, hafter, Bool.false_and]
    rw [if_neg (by decide), build_tokens]
    rfl
  show (Yaml.Document.ofContent false Yaml.Document.defaultHandles c.tokens).map some = _
  rw [hread]
  rfl

theorem parse_toYaml (c : Config) : Yaml.Document.parse c.toYaml = .ok (some ⟨c.node, {}⟩) := by
  rw [Yaml.Document.parse, tokenize_toYaml]
  exact c.ofTokens_tokens

end Config

/-! ## Configurations -/

namespace Config

theorem ok_bind {ε α β : Type} (a : α) (f : α → Except ε β) : (Except.ok a >>= f) = f a := rfl

theorem field_cons_self {d : Yaml.Document} {name : String} {ps : List (Node × Node)}
    (h : field d name ps = .ok none) (v : Node) :
    field d name ((.scalar none .plain name.toList, v) :: ps) = .ok (some v) := by
  simp only [field, text, Yaml.Document.follow, h, String.ofList_toList, if_pos]

theorem field_cons_of_ne {d : Yaml.Document} {name key : String} {ps : List (Node × Node)}
    {later : Option Node} (hne : key ≠ name) (h : field d name ps = .ok later) (v : Node) :
    field d name ((.scalar none .plain key.toList, v) :: ps) = .ok later := by
  simp only [field, text, Yaml.Document.follow, h, String.ofList_toList, if_neg hne]

theorem rule_node (d : Yaml.Document) (r : ConfigRule) : rule d r.node = .ok r := by
  have hne : "tag" ≠ "selector" := by decide
  have hpairs : pairs d r.node = .ok [fieldNodes "selector".toList r.selector.toList,
      fieldNodes "tag".toList r.tag.name.toList] := rfl
  have hselector : requiredField d "selector" [fieldNodes "selector".toList r.selector.toList,
      fieldNodes "tag".toList r.tag.name.toList] =
        .ok (.scalar none (Scalar.style r.selector.toList) r.selector.toList) := by
    rw [requiredField, fieldNodes, fieldNodes, field_cons_self (field_cons_of_ne hne rfl _)]
  have htag : requiredField d "tag" [fieldNodes "selector".toList r.selector.toList,
      fieldNodes "tag".toList r.tag.name.toList] =
        .ok (.scalar none (Scalar.style r.tag.name.toList) r.tag.name.toList) := by
    rw [requiredField, fieldNodes, fieldNodes, field_cons_of_ne hne.symm (field_cons_self rfl _)]
  have hname : tagNamed (String.ofList r.tag.name.toList) = .ok r.tag := by
    rw [String.ofList_toList, tagNamed, Tag.ofName?_name]
  have htext : text d (.scalar none (Scalar.style r.selector.toList) r.selector.toList) =
      .ok r.selector := congrArg Except.ok String.ofList_toList
  have htagged : tag d (.scalar none (Scalar.style r.tag.name.toList) r.tag.name.toList) =
      .ok r.tag := hname
  rw [rule, hpairs, ok_bind, hselector, ok_bind, htag, ok_bind, htext, ok_bind, htagged]
  rfl

theorem rulesOf_node (c : Config) :
    rulesOf ⟨c.node, {}⟩ = .ok (c.rules.map ConfigRule.node) := by
  have hpairs : pairs ⟨c.node, {}⟩ c.node =
      .ok [(.scalar none .plain "rules".toList, .sequence none (c.rules.map ConfigRule.node))] :=
    rfl
  rw [rulesOf, hpairs, ok_bind, field_cons_self rfl, ok_bind]
  rfl

theorem mapM_rule (d : Yaml.Document) (rules : List ConfigRule) :
    (rules.map ConfigRule.node).mapM (rule d) = .ok rules := by
  induction rules with
  | nil => rfl
  | cons r rules ih =>
      rw [List.map_cons, List.mapM_cons, rule_node, ih]
      rfl

/-- What is read of a mapping of nodes that are no aliases is none either. -/
theorem not_isAlias_of_mem_visited {d : Yaml.Document} {names : List String}
    {ps : List (Node × Node)}
    (h : ∀ q ∈ ps, q.1.isAlias = false ∧ q.2.isAlias = false) :
    ∀ n ∈ visited d names (.mapping none ps), n.isAlias = false := by
  intro n hn
  simp only [visited, pairs, Yaml.Document.follow, Except.toOption, Option.getD_some,
    List.mem_cons, List.mem_append, List.mem_map, List.cons_append] at hn
  rcases hn with rfl | ⟨q, hq, rfl⟩ | ⟨q, hq, rfl⟩
  · rfl
  · exact (h q hq).1
  · exact (h q (List.mem_filter.mp hq).1).2

theorem aliasCount_node (c : Config) : aliasCount ⟨c.node, {}⟩ = 0 := by
  have hroot : ∀ n ∈ visited ⟨c.node, {}⟩ ["rules"] c.node, n.isAlias = false := by
    apply not_isAlias_of_mem_visited
    simp [Node.isAlias]
  have hrule : ∀ r : ConfigRule, ∀ n ∈ visited ⟨c.node, {}⟩ ["selector", "tag"] r.node,
      n.isAlias = false := by
    intro r
    apply not_isAlias_of_mem_visited
    simp [Node.isAlias, fieldNodes]
  rw [aliasCount, rulesOf_node, List.countP_eq_zero]
  intro n hn
  rw [Bool.not_eq_true]
  rcases List.mem_append.mp hn with hn | hn
  · exact hroot n hn
  · obtain ⟨m, hm, hn⟩ := List.mem_flatMap.mp hn
    obtain ⟨r, -, rfl⟩ := List.mem_map.mp hm
    exact hrule r n hn

theorem ofDocument_node (c : Config) : ofDocument ⟨c.node, {}⟩ = .ok c := by
  rw [ofDocument, rulesOf_node, ok_bind, mapM_rule, ok_bind, aliasCount_node]
  rfl

/-- A text that starts with something else than a blank is more than blanks. -/
theorem trimChars_ne_nil {a : Char} (ha : Text.isBlank a = false) (cs : List Char) :
    Text.trimChars (a :: cs) ≠ [] := by
  intro h
  rw [Text.trimChars, List.dropWhile_cons_of_neg (by simp [ha]), List.reverse_eq_nil_iff,
    List.reverse_cons, List.dropWhile_append] at h
  split at h <;> simp [ha] at h

theorem trimChars_toYaml (c : Config) : (Text.trimChars c.toYaml).isEmpty = false := by
  have htext : ∃ cs, c.toYaml = 'r' :: cs := by
    unfold toYaml
    split
    · exact ⟨"ules: []\n".toList, by decide⟩
    · have hrules : "rules:\n".toList = 'r' :: "ules:\n".toList := by decide
      exact ⟨"ules:\n".toList ++ c.rules.flatMap ConfigRule.toYaml,
        by rw [hrules, List.cons_append]⟩
  obtain ⟨cs, hcs⟩ := htext
  rw [hcs, List.isEmpty_eq_false_iff]
  exact trimChars_ne_nil (by decide) cs

theorem ofYaml_toYaml {c : Config} (h : c.validate = .ok ()) : ofYaml c.toYaml = .ok c := by
  rw [ofYaml, trimChars_toYaml, if_neg (by decide), parse_toYaml]
  simp only [ofDocument_node, h]

/-! ## Saved configurations -/

/-- Saving a valid configuration stores its text. -/
theorem saveTo_eq_ok {fs stored : FileSystem} {path : String} {c : Config}
    (h : saveTo fs path c = (stored, .ok ())) :
    c.validate = .ok () ∧ ∃ made,
      fs.makeDirectories (PathName.parse path).parent = (made, .ok ()) ∧
        made.write (.parse path) (encodeText c.toYaml) = .ok stored := by
  unfold saveTo at h
  split at h
  · cases h
  · rename_i hvalid
    split at h
    · cases h
    · rename_i made hmade
      split at h
      · cases h
      · rename_i hwrite
        cases h
        exact ⟨hvalid, made, hmade, hwrite⟩

theorem read_of_saveTo {fs stored : FileSystem} {path : String} {c : Config}
    (h : saveTo fs path c = (stored, .ok ())) :
    stored.read (.parse path) = .ok (encodeText c.toYaml) := by
  obtain ⟨-, made, -, hwrite⟩ := saveTo_eq_ok h
  exact FileSystem.read_of_write hwrite

/-- The text that is written for a valid configuration, which saving stores, reads back as that
configuration. -/
theorem ofYaml_saved {c : Config} (h : c.validate = .ok ()) :
    ofYaml c.toYaml = .ok c ∧
      ∀ fs path stored, saveTo fs path c = (stored, .ok ()) →
        (stored.read (.parse path)).bind decodeText = .ok c.toYaml := by
  refine ⟨ofYaml_toYaml h, ?_⟩
  intro fs path stored hsave
  rw [read_of_saveTo hsave]
  exact decodeText_encodeText c.toYaml

/-- Selectors that need each way of writing. -/
def troublesome : Config :=
  ⟨[⟨"Alias/Identifier", .comment⟩, ⟨"null", .null⟩, ⟨"a\u2028b: #", .bool⟩,
    ⟨"'\t\x07\"\\\ufeff", .string⟩, ⟨"\n  - x\n\ny: |\n\n", .number⟩]⟩

theorem ofYaml_saved_troublesome :
    troublesome.validate = .ok () ∧ ofYaml troublesome.toYaml = .ok troublesome ∧
      ((saveTo {} "/home/config.yaml" troublesome).1.read (.parse "/home/config.yaml")).bind
        decodeText = .ok troublesome.toYaml := by
  have hvalid : troublesome.validate = .ok () := by rfl
  have hsave : saveTo {} "/home/config.yaml" troublesome =
      ((saveTo {} "/home/config.yaml" troublesome).1, .ok ()) := by rfl
  exact ⟨hvalid, (ofYaml_saved hvalid).1, (ofYaml_saved hvalid).2 _ _ _ hsave⟩

end Config

end DiagramTint
