/-!
# Faults of YAML text
-/

namespace DiagramTint.Yaml

/-- Why a text is no YAML document. -/
inductive Error where
  | controlCharacter
  | unexpectedCharacter
  | unexpectedColon
  | tabIndentation
  | unclosedQuote
  | documentMarkInQuotes
  | unknownEscape
  | invalidCodePoint
  | invalidBlockHeader
  | invalidName
  | invalidTag
  | invalidDirective
  | indicatorNotAllowed
  | missingColon
  | unexpectedToken
  | unexpectedEnd
  | undefinedTagHandle
  | undefinedAnchor
  | severalDocuments
deriving DecidableEq

def Error.message : Error → String
  | .controlCharacter => "control characters are not allowed"
  | .unexpectedCharacter => "found a character that cannot start any token"
  | .unexpectedColon => "found an unexpected colon in a plain scalar"
  | .tabIndentation => "found a tab where an indentation space is expected"
  | .unclosedQuote => "found the end of the text in a quoted scalar"
  | .documentMarkInQuotes => "found a document mark in a quoted scalar"
  | .unknownEscape => "found an unknown escape sequence"
  | .invalidCodePoint => "found an invalid code point in an escape sequence"
  | .invalidBlockHeader => "found an invalid block scalar header"
  | .invalidName => "found an invalid anchor or alias name"
  | .invalidTag => "found an invalid tag"
  | .invalidDirective => "found an invalid directive"
  | .indicatorNotAllowed => "a block indicator is not allowed here"
  | .missingColon => "could not find the colon of a key"
  | .unexpectedToken => "found an unexpected token"
  | .unexpectedEnd => "the document ends too early"
  | .undefinedTagHandle => "found an undefined tag handle"
  | .undefinedAnchor => "found an alias without anchor"
  | .severalDocuments => "found more than one document"

end DiagramTint.Yaml
