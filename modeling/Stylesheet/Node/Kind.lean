/-!
# Kinds of nodes
-/

namespace Stylesheet

/-- What a node of a tree is. -/
inductive NodeKind
  | root
  | rule
  | atRule
  | declaration
  | comment
deriving Repr, DecidableEq, Inhabited

namespace NodeKind

/-- The word for a kind. -/
def name : NodeKind → String
  | .root => "root"
  | .rule => "rule"
  | .atRule => "atrule"
  | .declaration => "decl"
  | .comment => "comment"

/-- The kind that a word names. -/
def ofName? : String → Option NodeKind
  | "root" => some .root
  | "rule" => some .rule
  | "atrule" => some .atRule
  | "decl" => some .declaration
  | "comment" => some .comment
  | _ => none

end NodeKind

end Stylesheet
