import Stylesheet.Print.Style

/-!
# Inferred formatting

What is printed in a slot that a node has not captured. Traits of a style are looked up in the
tree; a printer may remember them, so that each is looked up once.

* `Memory` is what a printer remembers with. `Memory.none` looks everything up again, and
  `Memory.notes` keeps notes.
* The functions from `Tree.trait` on give the text of a slot, captured or inferred.
-/

namespace Stylesheet

/-- What a printer knows about the style of the tree so far. -/
structure Notes where
  traits : List (Trait × String) := []
  semicolon : Option Bool := none
deriving Repr, DecidableEq, Inhabited

/-- A way to remember what was found out about a style. -/
structure Memory (m : Type → Type) where
  /-- A trait, found out by the given action unless it is known. -/
  know : Trait → m String → m String
  /-- Whether declarations at the end are closed, found out unless it is known. -/
  knowSemicolon : m Bool → m Bool

namespace Memory

/-- Remembers nothing. -/
def none : Memory Id where
  know _ find := find
  knowSemicolon find := find

/-- Keeps notes. -/
def notes : Memory (StateM Notes) where
  know trait find := do
    match (← get).traits.lookup trait with
    | some text => return text
    | .none =>
      let text ← find
      modify fun known => { known with traits := (trait, text) :: known.traits }
      return text
  knowSemicolon find := do
    match (← get).semicolon with
    | some closed => return closed
    | .none =>
      let closed ← find
      modify fun known => { known with semicolon := some closed }
      return closed

end Memory

namespace Tree

variable {m : Type → Type} [Monad m]

/-- A trait of the style around a node, without looking for another one in its place. -/
def ownTrait (t : Tree) (memory : Memory m) (id : NodeId) (trait : Trait) : m String :=
  memory.know trait (pure ((t.sample? (t.rootOf id) trait).getD trait.usual))

/-- A trait of the style around a node, with another way to get it when no node shows it. -/
def traitOr (t : Tree) (memory : Memory m) (id : NodeId) (trait : Trait) (otherwise : m String) :
    m String :=
  memory.know trait <|
    match t.sample? (t.rootOf id) trait with
    | some text => pure text
    | none => otherwise

/-- A trait of the style around a node. Comments stand like declarations and declarations like
rules, unless the tree shows otherwise. -/
def trait (t : Tree) (memory : Memory m) (id : NodeId) : Trait → m String
  | .beforeDeclaration =>
    t.traitOr memory id .beforeDeclaration (t.ownTrait memory id .beforeRule)
  | .beforeComment =>
    t.traitOr memory id .beforeComment <|
      t.traitOr memory id .beforeDeclaration (t.ownTrait memory id .beforeRule)
  | other => t.ownTrait memory id other

/-- The text of a slot: what was captured, the fixed style for a detached node, or the style of the
tree. -/
def slot (t : Tree) (memory : Memory m) (id : NodeId) (captured : Option String) (trait : Trait) :
    m String :=
  match captured with
  | some text => pure text
  | none => if (t.parent? id).isNone then pure trait.usual else t.trait memory id trait

/-- A line break of the style around a node, with the indentation that fits the place of the
node. -/
def lineBreak (t : Tree) (memory : Memory m) (id : NodeId) (trait : Trait) : m String := do
  let text ← t.trait memory id trait
  if text.toList.contains '\n' then
    let indent ← t.trait memory id .indent
    return text ++ String.join (List.replicate (t.depth id) indent)
  else
    return text

/-- The trait that says what divides a node from what is next to it. A rule, an at-rule or a root
differs in front and at its end. -/
def divider (kind : NodeKind) (otherwise : Trait) : Trait :=
  match kind with
  | .declaration => .beforeDeclaration
  | .comment => .beforeComment
  | _ => otherwise

/-- Whether nothing has to divide a node from what is in front of it. -/
def startsText (t : Tree) (id : NodeId) : Bool :=
  match t.parent? id with
  | none => true
  | some parent => t.kind? parent == some .root && t.first? parent == some id

/-- What stands in front of a node. -/
def beforeText (t : Tree) (memory : Memory m) (id : NodeId) (n : Node) : m String :=
  match n.raws.before with
  | some text => pure text
  | none =>
    if t.startsText id then pure ""
    else t.lineBreak memory id (divider n.kind .beforeRule)

/-- What stands behind the last child of a node. -/
def afterText (t : Tree) (memory : Memory m) (id : NodeId) (n : Node) : m String :=
  if n.children.isEmpty then t.slot memory id n.raws.after .emptyBody
  else
    match n.raws.after with
    | some text => pure text
    | none =>
      if n.parent.isNone then pure Trait.beforeClose.usual
      else t.lineBreak memory id (divider n.kind .beforeClose)

/-- Whether the last child of a node is closed by a semicolon. -/
def closesLast (t : Tree) (memory : Memory m) (id : NodeId) (n : Node) : m Bool :=
  match n.raws.semicolon with
  | some closed => pure closed
  | none =>
    if n.parent.isNone then pure false
    else
      memory.knowSemicolon (pure ((t.sampleSemicolon? (t.rootOf id)).getD false))

end Tree

end Stylesheet
