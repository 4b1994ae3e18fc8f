import Stylesheet.Node.Kind
import Stylesheet.SourceMap.Basic
import Stylesheet.SyntaxError

/-!
# Errors

All that can go wrong when a stylesheet is read, edited or written. An error is its cause;
`Error.message` is what to tell about it.
-/

namespace Stylesheet

/-- Why something failed. -/
inductive Error
  /-- The text of a stylesheet, or a node, is wrong at some place. -/
  | malformed (error : SyntaxError)
  | unknownNodeType
  | declarationWithoutValue
  | notAContainer (kind : NodeKind)
  | notAChild
  | unknownNode
  | wrongKind (expected found : NodeKind)
  /-- A plugin failed while it looked at a node. -/
  | inPlugin (plugin : String) (node : Option NodeKind) (position : Option (Nat × Nat))
    (cause : Error)
  /-- A callback that has to be awaited was reached without waiting. -/
  | asyncInSync (plugin : String)
  | unsupportedMapEncoding (encoding : String)
  | unsupportedPreviousMap (text : String)
  | previousMapNotFound (path : String)
  | sourceMap (error : MapError)
  /-- A text is no JSON, or JSON of another form. -/
  | json
  /-- Bytes are not the form of a text. -/
  | notText
  /-- Anything else, such as what a plugin reports. -/
  | other (text : String)
deriving Repr, DecidableEq, Inhabited

namespace Error

/-- What to tell about an error. -/
def message : Error → String
  | .malformed e => e.message
  | .unknownNodeType => "unknown node type in node creation"
  | .declarationWithoutValue => "value field is missed in node creation"
  | .notAContainer kind => kind.name ++ " nodes cannot have children"
  | .notAChild => "node is not a child of the given container"
  | .unknownNode => "node does not exist in this tree"
  | .wrongKind expected found =>
    "expected a " ++ expected.name ++ " node, found " ++ found.name
  | .inPlugin plugin _ _ cause => plugin ++ ": " ++ cause.message
  | .asyncInSync plugin =>
    "use process(css).await instead of sync() with async plugin " ++ plugin
  | .unsupportedMapEncoding encoding => "unsupported source map encoding " ++ encoding
  | .unsupportedPreviousMap text => "unsupported previous source map format: " ++ text
  | .previousMapNotFound path => "unable to load previous source map: " ++ path
  | .sourceMap e => "invalid sourcemap: " ++ e.message
  | .json => "invalid JSON"
  | .notText => "invalid utf-8 sequence"
  | .other text => text

/-- The syntax error behind an error, looking through what plugins added. -/
def syntaxError? : Error → Option SyntaxError
  | .malformed e => some e
  | .inPlugin _ _ _ cause => cause.syntaxError?
  | _ => none

end Error

end Stylesheet
