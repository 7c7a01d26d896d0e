import DiagramTint.Config
import DiagramTint.Proofs.Highlights.Rows
import DiagramTint.Proofs.Token.Returns

/-!
# Line endings

Carriage returns in front of all line feeds move the nodes of a document, and some nodes take a
carriage return in.  No character that a position can name gets other nodes around it by this, so
the highlights stay the same under any rules.
-/

namespace DiagramTint

namespace Diagram

open Text

variable {table : RuleTable} {source : List Char} {row col : Nat} {tag : Tag}

theorem alike_read_withReturns (source : List Char) :
    Tree.Alike (Aligned source) (read source) (read (withReturns source)) := by
  have hzero : Aligned source 0 0 := aligned_of_append [] source
  have hlength : Aligned source (byteLength source) (byteLength (withReturns source)) := by
    have hwhole := aligned_of_append source []
    rwa [List.append_nil] at hwhole
  exact (Document.alike_parse hzero hlength (alike_tokenize_withReturns source)).map Kind.name

theorem pathAt_read_withReturns {last last' : Nat} {path : List String}
    (h : ∀ byte byte', Aligned source byte byte' → (byte ≤ last ↔ byte' ≤ last')) :
    (read source).PathAt [] last path ↔ (read (withReturns source)).PathAt [] last' path :=
  (alike_read_withReturns source).pathAt_iff (wellNested_read source) (wellNested_read _) h

theorem hasTag_withReturns (h : '\r' ∉ source) :
    HasTag table (withReturns source) (read (withReturns source)) row col tag ↔
      HasTag table source (read source) row col tag := by
  constructor
  · rintro ⟨last', path, hchar', hpath, htag⟩
    obtain ⟨last, hchar, haligned⟩ := exists_charAt_of_withReturns h hchar'
    exact ⟨last, path, hchar, (pathAt_read_withReturns haligned).mpr hpath, htag⟩
  · rintro ⟨last, path, hchar, hpath, htag⟩
    obtain ⟨last', hchar', haligned⟩ := exists_charAt_withReturns h hchar
    exact ⟨last', path, hchar', (pathAt_read_withReturns haligned).mp hpath, htag⟩

/-- A source without carriage returns has the same highlights with one put in front of every line
feed, whatever the configuration. -/
theorem highlight_withReturns (config : Config) (source : List Char) (h : '\r' ∉ source) :
    (language config.tagRules).highlight (withReturns source) =
      (language config.tagRules).highlight source := by
  have hline : ∀ row, ((language config.tagRules).highlight (withReturns source)).line row =
      ((language config.tagRules).highlight source).line row := by
    intro row
    exact line_paint_read_eq fun col tag => hasTag_withReturns h
  have hlines : ((language config.tagRules).highlight (withReturns source)).lines =
      ((language config.tagRules).highlight source).lines := by
    calc ((language config.tagRules).highlight (withReturns source)).lines
        = Highlights.rowsAmong ((language config.tagRules).highlight (withReturns source)).line
            (List.range ((withReturns source).count '\n' + 1)) := lines_paint
      _ = Highlights.rowsAmong ((language config.tagRules).highlight source).line
            (List.range (source.count '\n' + 1)) := by rw [funext hline, count_withReturns]
      _ = ((language config.tagRules).highlight source).lines := lines_paint.symm
  exact congrArg (Highlights.mk name) hlines

/-- A comment, a blank row, and a message whose label has no closing quote. -/
def openText : List Char :=
  ['#', 'é', '\n', '\n', 'a', '-', '>', 'b', ':', '"', 'y', '\n']

/-- A rule for the root, and a key that cannot be read. -/
def programConfig : Config :=
  ⟨[⟨"Program", .keyword⟩, ⟨"Message/Arrow /", .string⟩]⟩

theorem highlight_withReturns_openText :
    '\r' ∉ openText ∧
      withReturns openText = ['#', 'é', '\r', '\n', '\r', '\n', 'a', '-', '>', 'b', ':', '"', 'y',
        '\r', '\n'] ∧
      ⟨5, 7, .string⟩ ∈
        ((language programConfig.tagRules).highlight (withReturns openText)).line 2 ∧
      (language programConfig.tagRules).highlight (withReturns openText) =
        (language programConfig.tagRules).highlight openText := by
  have hreturn : '\r' ∉ openText := by decide
  have hsame := highlight_withReturns programConfig openText hreturn
  refine ⟨hreturn, by decide, ?_, hsame⟩
  rw [hsame]
  apply mem_line_paint.mpr
  rw [language, builtinRules_eq]
  decide +kernel

end Diagram

end DiagramTint
