import Stylesheet.Statement.Outline
import Stylesheet.Tree.Graft

/-!
# Reading a stylesheet
-/

namespace Stylesheet

/-- The error for an issue in an input. -/
def Input.issue (k : Packages) (i : Input) (issue : Issue) : Error :=
  .malformed (i.errorAt k issue.reason.text issue.start issue.stop)

/-- The tree of an input. -/
def Input.tree (k : Packages) (i : Input) : Except Error Tree :=
  match outlineText i.position i.css with
  | .ok b => .ok (Tree.ofDraft i b)
  | .error issue => .error (i.issue k issue)

/-- Reads a stylesheet into a tree. -/
def parse (w : Workspace) (css : String) (options : ParseOptions) :
    Except Error Tree × Workspace :=
  match Input.create w css options with
  | (.error e, w) => (.error e, w)
  | (.ok input, w) => (input.tree w.packages, w)

end Stylesheet
