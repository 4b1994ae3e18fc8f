/-!
# Branches

A branch is a label with the branches below it. Trees are read, copied and printed as branches:
with the details of nodes as labels when they are built, and with the numbers of nodes when they
are looked at.
-/

namespace Stylesheet

/-- A label and the branches below it. -/
inductive Branch (α : Type)
  | node (label : α) (kids : List (Branch α))
deriving Repr, Inhabited

namespace Branch

/-- The label on top. -/
def label : Branch α → α
  | .node a _ => a

/-- The branches below. -/
def kids : Branch α → List (Branch α)
  | .node _ bs => bs

mutual

/-- The labels, each before those below it. -/
def toList : Branch α → List α
  | .node a bs => a :: listAll bs

/-- The labels of several branches. -/
def listAll : List (Branch α) → List α
  | [] => []
  | b :: bs => toList b ++ listAll bs

end

mutual

/-- The number of labels. -/
def size : Branch α → Nat
  | .node _ bs => 1 + sizeAll bs

/-- The number of labels of several branches. -/
def sizeAll : List (Branch α) → Nat
  | [] => 0
  | b :: bs => size b + sizeAll bs

end

mutual

/-- The branch with every label changed. -/
def map (f : α → β) : Branch α → Branch β
  | .node a bs => .node (f a) (mapAll f bs)

/-- Branches with every label changed. -/
def mapAll (f : α → β) : List (Branch α) → List (Branch β)
  | [] => []
  | b :: bs => map f b :: mapAll f bs

end

end Branch

end Stylesheet
