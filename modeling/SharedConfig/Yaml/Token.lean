/-!
# SharedConfig.Yaml.Token

The tokens of the notation, and the causes for which a text has none.
-/

namespace SharedConfig.Yaml

/-- Why a text is not a document. -/
inductive SyntaxError where
  | forbiddenCharacter (c : Char)
  | keyWithoutValue
  | valueNotAllowed
  | keyNotAllowed
  | entryNotAllowed
  | unknownDirective
  | badDirective
  | badVersion
  | badTagHandle
  | badTag
  | badAnchor
  | badBlockHeader
  | tabInIndentation
  | documentMarkInText
  | endInText
  | badEscape
  | colonInFlowText
  | noToken (c : Char)
  | duplicateDirective
  | incompatibleVersion
  | undefinedTagHandle
  | unexpectedToken
  | missingDocumentStart
  | unknownAnchor (name : String)
  | severalDocuments
  | exhausted
  deriving DecidableEq, Repr

def SyntaxError.message : SyntaxError → String
  | .forbiddenCharacter _ => "control characters are not allowed"
  | .keyWithoutValue => "could not find expected ':'"
  | .valueNotAllowed => "mapping values are not allowed in this context"
  | .keyNotAllowed => "mapping keys are not allowed in this context"
  | .entryNotAllowed => "block sequence entries are not allowed in this context"
  | .unknownDirective => "found unknown directive name"
  | .badDirective => "did not find expected comment or line break"
  | .badVersion => "did not find expected version number"
  | .badTagHandle => "did not find expected '!'"
  | .badTag => "did not find expected tag URI"
  | .badAnchor => "did not find expected alphabetic or numeric character"
  | .badBlockHeader => "did not find expected comment or line break"
  | .tabInIndentation => "found a tab character where an indentation space is expected"
  | .documentMarkInText => "found unexpected document indicator"
  | .endInText => "found unexpected end of stream"
  | .badEscape => "found unknown escape character"
  | .colonInFlowText => "found unexpected ':'"
  | .noToken _ => "found character that cannot start any token"
  | .duplicateDirective => "found duplicate directive"
  | .incompatibleVersion => "found incompatible YAML document"
  | .undefinedTagHandle => "found undefined tag handle"
  | .unexpectedToken => "did not find expected node content"
  | .missingDocumentStart => "did not find expected <document start>"
  | .unknownAnchor _ => "unknown anchor"
  | .severalDocuments => "more than one document"
  | .exhausted => "too many nested nodes"

/-- How the text of a scalar was written. -/
inductive ScalarStyle where
  | plain
  | quoted
  | literal
  | folded
  deriving DecidableEq, Repr

/-- The characters of a tag; `none` where bytes were given that spell no character. -/
abbrev Tag := List (Option Char)

namespace Tag

def ofString (s : String) : Tag := s.toList.map some

def text? (t : Tag) : Option String := (t.mapM id).map String.ofList

end Tag

/-- A token of the notation. -/
inductive Token where
  | versionDirective (major minor : Nat)
  | tagDirective (handle : String) (lead : Tag)
  | documentStart
  | documentEnd
  | blockSequenceStart
  | blockMappingStart
  | blockEnd
  | flowSequenceStart
  | flowSequenceEnd
  | flowMappingStart
  | flowMappingEnd
  | blockEntry
  | flowEntry
  | key
  | value
  /-- The same node as the one anchored in a slot. -/
  | alias (slot : Nat)
  /-- The next node can be referred to by a slot. -/
  | anchor (slot : Nat)
  | tag (handle : String) (suffix : Tag)
  | scalar (text : String) (style : ScalarStyle)
  deriving DecidableEq, Repr

end SharedConfig.Yaml
