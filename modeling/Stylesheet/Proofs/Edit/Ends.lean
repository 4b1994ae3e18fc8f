import Stylesheet.Edit.Command
import Stylesheet.Proofs.Tree.Change

/-!
# Reasoning about edits

`Editing.Yields` says what an edit does to a tree, whether it fails or not: the tree is changed by
allowed changes, and the result satisfies a condition when there is one. Where a list of nodes is
inserted that names a node twice, the tree breaks, and a condition `S` on the tree at the end takes
account of that.

An edit that fails keeps what it has done up to there. `Editing.Ends` says what holds of the tree at
the end: one condition for an edit that fails, and one for an edit that has a result. An edit for
which both are the condition at the start keeps it (`Editing.Keeps`).

There is one rule for each way to put edits together. Bags are described by trees of their own, so
that what is made of them takes an induction; `Editing.Building` has it once for all.
-/

namespace Stylesheet

namespace Editing

variable {α β : Type} {S : Tree → Prop} {t : Tree} {Q : α → Tree → Prop}

/-- From the tree `t` the edit makes allowed changes only, and its result satisfies `Q`; or else `S`
holds at the end. -/
def Yields (S : Tree → Prop) (e : Editing α) (t : Tree) (Q : α → Tree → Prop) : Prop :=
  ∀ w, S (e.runOn ⟨t, w⟩).2.tree ∨ t.Changes (e.runOn ⟨t, w⟩).2.tree ∧
    ∀ a, (e.runOn ⟨t, w⟩).1 = .ok a → Q a (e.runOn ⟨t, w⟩).2.tree

/-- The tree does not break. -/
def Never (_ : Tree) : Prop :=
  False

/-- The second edit goes on with the desk that the first one leaves. -/
theorem runOn_bind (e : Editing α) (f : α → Editing β) (d : Desk) :
    (e >>= f).runOn d =
      match e.runOn d with
      | (.ok a, d') => (f a).runOn d'
      | (.error x, d') => (.error x, d') := by
  rcases hrun : e.runOn d with ⟨result, d'⟩
  rw [runOn] at hrun
  rw [runOn, ExceptT.run_bind, StateT.run_bind, hrun]
  cases result with
  | ok a => rfl
  | error x => rfl

theorem runOn_tree (d : Desk) : tree.runOn d = (.ok d.tree, d) :=
  rfl

/-- A text is read beside the tree. -/
theorem runOn_parsed (css : String) (options : ParseOptions) (t : Tree) (w : Workspace) :
    (parsed css options).runOn ⟨t, w⟩ =
      ((parse w css options).1, ⟨t, (parse w css options).2⟩) := by
  have hget : runOn get (⟨t, w⟩ : Desk) = (.ok ⟨t, w⟩, ⟨t, w⟩) := rfl
  rw [parsed, runOn_bind, hget]
  dsimp only
  rcases parse w css options with ⟨result, w'⟩
  cases result with
  | ok other => rfl
  | error x => rfl

theorem Yields.pure {a : α} (h : Q a t) : Yields S (pure a) t Q := by
  intro w
  refine Or.inr ⟨.refl, fun b hb => ?_⟩
  cases hb
  exact h

theorem Yields.throw (x : Error) : Yields S (throw x : Editing α) t Q :=
  fun _ => Or.inr ⟨.refl, nofun⟩

theorem Yields.change {f : Tree → Tree} {Q : Unit → Tree → Prop} (hf : t.Changes (f t))
    (h : Q () (f t)) : Yields S (change f) t Q :=
  fun _ => Or.inr ⟨hf, fun _ _ => h⟩

theorem Yields.changeGet {f : Tree → α × Tree} (hf : t.Changes (f t).2)
    (h : Q (f t).1 (f t).2) : Yields S (changeGet f) t Q := by
  intro w
  refine Or.inr ⟨hf, fun a ha => ?_⟩
  cases ha
  exact h

theorem Yields.tree {Q : Tree → Tree → Prop} (h : Q t t) : Yields S tree t Q := by
  intro w
  refine Or.inr ⟨.refl, fun a ha => ?_⟩
  cases ha
  exact h

/-- One edit after the other. What follows a tree that broke does not mend it. -/
theorem Yields.bindOr {e : Editing α} {f : α → Editing β} {Q : β → Tree → Prop}
    {R : α → Tree → Prop} {S' : Tree → Prop} (he : Yields S' e t R)
    (hf : ∀ a u, t.Changes u → R a u → Yields S (f a) u Q) (herror : ∀ u, S' u → S u)
    (hbroken : ∀ a u, S' u → ∀ w, S ((f a).runOn ⟨u, w⟩).2.tree) : Yields S (e >>= f) t Q := by
  intro w
  rw [runOn_bind]
  have h := he w
  rcases hrun : e.runOn ⟨t, w⟩ with ⟨result, d⟩
  rw [hrun] at h
  -- When the first edit is spoiled, all that the second one does is spoiled too.
  cases result with
  | error x =>
    rcases h with h | ⟨hchanges, -⟩
    · exact Or.inl (herror d.tree h)
    · exact Or.inr ⟨hchanges, nofun⟩
  | ok a =>
    rcases h with h | ⟨hchanges, hR⟩
    · exact Or.inl (hbroken a d.tree h d.workspace)
    · rcases hf a d.tree hchanges (hR a rfl) d.workspace with h | ⟨hchanges', hQ⟩
      · exact Or.inl h
      · exact Or.inr ⟨hchanges.trans hchanges', hQ⟩

/-- Two edits in a row, the first of which has to come out well for the second. -/
theorem Yields.bind {e : Editing α} {f : α → Editing β} {Q : β → Tree → Prop}
    {R : α → Tree → Prop} (he : Yields Never e t R)
    (hf : ∀ a u, t.Changes u → R a u → Yields S (f a) u Q) : Yields S (e >>= f) t Q :=
  he.bindOr hf (fun _ h => h.elim) fun _ _ h => h.elim

theorem Yields.andReturn {e : Editing α} {g : α → β} {Q : β → Tree → Prop} {R : α → Tree → Prop}
    (he : Yields S e t R) (hg : ∀ a u, R a u → Q (g a) u) :
    Yields S (e >>= fun a => Pure.pure (g a)) t Q :=
  he.bindOr (fun a u _ h => .pure (hg a u h)) (fun _ h => h) fun _ _ h _ => h

/-- Less may be said of the result. -/
theorem Yields.mono {e : Editing α} {Q' : α → Tree → Prop} (h : Yields S e t Q)
    (hQ : ∀ a u, t.Changes u → Q a u → Q' a u) : Yields S e t Q' := by
  intro w
  rcases h w with hS | ⟨hchanges, hres⟩
  · exact Or.inl hS
  · exact Or.inr ⟨hchanges, fun a ha => hQ a _ hchanges (hres a ha)⟩

/-- What is never spoiled is not spoiled in any particular way. -/
theorem Yields.of_never {e : Editing α} (h : Yields Never e t Q) : Yields S e t Q := by
  intro w
  rcases h w with hnever | h
  · exact absurd hnever id
  · exact Or.inr h

/-- A node is looked up, and nothing changes. -/
theorem runOn_node (id : NodeId) (d : Desk) :
    (node id).runOn d =
      match d.tree.get? id with
      | some n => (.ok n, d)
      | none => (.error .unknownNode, d) := by
  rw [node, runOn_bind, runOn_tree]
  dsimp only
  cases d.tree.get? id with
  | none => rfl
  | some n => rfl

/-- A setter that finds a node of the kind that it asks for. -/
theorem runOn_update {id : NodeId} {n : Node} {expected : NodeKind} {f : Content → Content}
    {w : Workspace} (hn : t.get? id = some n) (hkind : n.kind = expected) :
    (update id expected f).runOn ⟨t, w⟩ =
      (.ok (), ⟨t.setContent id n.content (f n.content), w⟩) := by
  rw [update, runOn_bind, runOn_node, hn]
  dsimp only
  rw [if_neg (not_not.mpr hkind)]
  rfl

/-- A node that has to be in the tree. -/
theorem Yields.node (id : NodeId) {Q : Node → Tree → Prop} (h : ∀ n, t.get? id = some n → Q n t) :
    Yields S (node id) t Q := by
  intro w
  rw [runOn_node]
  dsimp only
  cases hn : t.get? id with
  | none =>
    refine Or.inr ⟨.refl, fun a ha => ?_⟩
    cases ha
  | some n =>
    refine Or.inr ⟨.refl, fun a ha => ?_⟩
    cases ha
    exact h n hn

/-- What is computed without the tree. -/
theorem Yields.lift (x : Except Error α) (h : ∀ a, x = .ok a → Q a t) :
    Yields S (liftM x : Editing α) t Q := by
  intro w
  cases x with
  | error e => exact Or.inr ⟨.refl, nofun⟩
  | ok a =>
    refine Or.inr ⟨.refl, fun b hb => ?_⟩
    cases hb
    exact h a rfl

/-- Reading a stylesheet changes nothing in the tree. -/
theorem Yields.parsed (css : String) (options : ParseOptions) {Q : Tree → Tree → Prop}
    (h : ∀ w other, (parse w css options).1 = .ok other → Q other t) :
    Yields S (parsed css options) t Q := by
  intro w
  rw [runOn_parsed]
  exact Or.inr ⟨.refl, h w⟩

end Editing

/-! ### Edits that may fail on the way -/

namespace Editing

variable {α β : Type} {t : Tree} {E : Tree → Prop} {Q : α → Tree → Prop}

/-- From the tree `t` the edit ends in a tree with `E` when it fails, and with `Q` of its result
otherwise. -/
def Ends (e : Editing α) (t : Tree) (E : Tree → Prop) (Q : α → Tree → Prop) : Prop :=
  ∀ w, match e.runOn ⟨t, w⟩ with
    | (.ok a, d) => Q a d.tree
    | (.error _, d) => E d.tree

namespace Ends

theorem pure {a : α} (h : Q a t) : Ends (pure a) t E Q :=
  fun _ => h

theorem throw (x : Error) (h : E t) : Ends (throw x : Editing α) t E Q :=
  fun _ => h

theorem change {f : Tree → Tree} {Q : Unit → Tree → Prop} (h : Q () (f t)) :
    Ends (change f) t E Q :=
  fun _ => h

theorem changeGet {f : Tree → α × Tree} (h : Q (f t).1 (f t).2) : Ends (changeGet f) t E Q :=
  fun _ => h

theorem tree {Q : Tree → Tree → Prop} (h : Q t t) : Ends tree t E Q :=
  fun _ => h

/-- A node is looked up: it is there or, with the tree as it is, the edit fails. -/
theorem lookUp (id : NodeId) {Q : Node → Tree → Prop} (hE : t.get? id = none → E t)
    (h : ∀ n, t.get? id = some n → Q n t) : Ends (Editing.node id) t E Q := by
  intro w
  rw [runOn_node]
  cases hn : t.get? id with
  | none => exact hE hn
  | some n => exact h n hn

theorem node (id : NodeId) {Q : Node → Tree → Prop} (hE : E t)
    (h : ∀ n, t.get? id = some n → Q n t) : Ends (Editing.node id) t E Q :=
  lookUp id (fun _ => hE) h

/-- What is computed without the tree. -/
theorem lift (x : Except Error α) (hE : E t) (h : ∀ a, x = .ok a → Q a t) :
    Ends (liftM x : Editing α) t E Q := by
  intro w
  cases x with
  | error e => exact hE
  | ok a => exact h a rfl

/-- Reading a stylesheet changes nothing in the tree. -/
theorem parsed (css : String) (options : ParseOptions) {Q : Tree → Tree → Prop} (hE : E t)
    (h : ∀ w other, (parse w css options).1 = .ok other → Q other t) :
    Ends (parsed css options) t E Q := by
  intro w
  rw [runOn_parsed]
  cases hparse : (parse w css options).1 with
  | error e => exact hE
  | ok other => exact h w other hparse

/-- One edit after the other. -/
theorem bind {e : Editing α} {f : α → Editing β} {Q : β → Tree → Prop} {R : α → Tree → Prop}
    (he : Ends e t E R) (hf : ∀ a u, R a u → Ends (f a) u E Q) : Ends (e >>= f) t E Q := by
  intro w
  rw [runOn_bind]
  have h := he w
  rcases hrun : e.runOn ⟨t, w⟩ with ⟨result, d⟩
  rw [hrun] at h
  cases result with
  | error x => exact h
  | ok a => exact hf a d.tree h d.workspace

/-- More may be allowed of the failure, and less said of the result. -/
theorem mono {e : Editing α} {E' : Tree → Prop} {Q' : α → Tree → Prop} (h : Ends e t E Q)
    (hE : ∀ u, E u → E' u) (hQ : ∀ a u, Q a u → Q' a u) : Ends e t E' Q' := by
  intro w
  have hw := h w
  rcases hrun : e.runOn ⟨t, w⟩ with ⟨result, d⟩
  rw [hrun] at hw
  cases result with
  | error x => exact hE d.tree hw
  | ok a => exact hQ a d.tree hw

/-- Two things that are known of how an edit ends. -/
theorem and {e : Editing α} {E' : Tree → Prop} {Q' : α → Tree → Prop} (h : Ends e t E Q)
    (h' : Ends e t E' Q') :
    Ends e t (fun u => E u ∧ E' u) fun a u => Q a u ∧ Q' a u := by
  intro w
  have hw := h w
  have hw' := h' w
  rcases hrun : e.runOn ⟨t, w⟩ with ⟨result, d⟩
  rw [hrun] at hw hw'
  cases result with
  | error x => exact ⟨hw, hw'⟩
  | ok a => exact ⟨hw, hw'⟩

theorem andReturn {e : Editing α} {g : α → β} {Q : β → Tree → Prop} {R : α → Tree → Prop}
    (he : Ends e t E R) (hg : ∀ a u, R a u → Q (g a) u) :
    Ends (e >>= fun a => Pure.pure (g a)) t E Q :=
  he.bind fun a u h => .pure (hg a u h)

/-- An edit for each element of a list, when each keeps a condition on the tree. -/
theorem mapM {f : α → Editing β} {I : Tree → Prop} {R : β → Prop} : ∀ (as : List α) {t : Tree},
    I t → (∀ a ∈ as, ∀ u, I u → Ends (f a) u I fun b v => I v ∧ R b) →
      Ends (as.mapM f) t I fun bs u => I u ∧ ∀ b ∈ bs, R b
  | [], t, h, _ => by
    rw [List.mapM_nil]
    exact .pure ⟨h, nofun⟩
  | a :: as, t, h, hf => by
    rw [List.forall_mem_cons] at hf
    rw [List.mapM_cons]
    refine (hf.1 t h).bind ?_
    rintro b u ⟨hu, hb⟩
    exact (mapM as hu hf.2).andReturn fun bs v hv =>
      ⟨hv.1, List.forall_mem_cons.mpr ⟨hb, hv.2⟩⟩

/-- A node that is to be put into a list: a copy, when it stands in one already or is above the
container, and otherwise the node itself. -/
theorem adopt (parent : Option NodeId) (id : NodeId) {Q : NodeId → Tree → Prop} (hE : E t)
    (hcopy : ∀ n, t.get? id = some n → n.kind ≠ .root →
      (n.parent.isSome || parent.any (t.isAncestor id)) = true → Q (t.copy id).1 (t.copy id).2)
    (htake : ∀ n, t.get? id = some n → n.kind ≠ .root →
      (n.parent.isSome || parent.any (t.isAncestor id)) = false → Q id t) :
    Ends (adopt parent id) t E Q := by
  rw [Editing.adopt]
  refine .bind (R := fun n u => t = u ∧ t.get? id = some n) (.node id hE fun n hn => ⟨rfl, hn⟩) ?_
  rintro n _ ⟨rfl, hn⟩
  -- A root is refused before anything else is looked at.
  by_cases hroot : n.kind = .root
  · rw [if_pos hroot]
    exact .bind (R := fun _ _ => False) (.throw _ hE) fun _ _ h => h.elim
  rw [if_neg hroot]
  refine .bind (R := fun u u' => t = u ∧ t = u') (.tree ⟨rfl, rfl⟩) ?_
  rintro _ _ ⟨rfl, rfl⟩
  -- The code asks one question for both reasons to copy: a parent, or a place beneath the node.
  split_ifs with hcase
  · exact .changeGet (hcopy n hn hroot hcase)
  · exact .pure (htake n hn hroot (Bool.eq_false_iff.mpr hcase))

/-- An edit that is made of allowed changes. -/
theorem of_yields {e : Editing α} (h : Yields Never e t Q) :
    Ends e t (fun u => t.Changes u) fun a u => t.Changes u ∧ Q a u := by
  intro w
  rcases h w with hnever | ⟨hchanges, hres⟩
  · exact absurd hnever id
  · rcases hrun : e.runOn ⟨t, w⟩ with ⟨result, d⟩
    rw [hrun] at hchanges hres
    cases result with
    | error x => exact hchanges
    | ok a => exact ⟨hchanges, hres a rfl⟩

/-- What is known when there is a result. -/
theorem of_ok {e : Editing α} (h : Ends e t E Q) {w : Workspace} {a : α}
    (ha : (e.runOn ⟨t, w⟩).1 = .ok a) : Q a (e.runOn ⟨t, w⟩).2.tree := by
  have hw := h w
  rcases hrun : e.runOn ⟨t, w⟩ with ⟨result, d⟩
  rw [hrun] at hw ha
  cases ha
  exact hw

/-- What is known when the edit fails. -/
theorem of_error {e : Editing α} (h : Ends e t E Q) {w : Workspace} {x : Error}
    (hx : (e.runOn ⟨t, w⟩).1 = .error x) : E (e.runOn ⟨t, w⟩).2.tree := by
  have hw := h w
  rcases hrun : e.runOn ⟨t, w⟩ with ⟨result, d⟩
  rw [hrun] at hw hx
  cases hx
  exact hw

/-- What holds at the end of both kinds holds at the end. -/
theorem atEnd {e : Editing α} {R : Tree → Prop} (h : Ends e t R fun _ u => R u) (w : Workspace) :
    R (e.runOn ⟨t, w⟩).2.tree := by
  have hw := h w
  rcases hrun : e.runOn ⟨t, w⟩ with ⟨result, d⟩
  rw [hrun] at hw
  cases result with
  | error x => exact hw
  | ok a => exact hw

end Ends

/-- The place of a node is looked up, and nothing is changed. -/
theorem ends_placeOf (t : Tree) (id : NodeId) :
    Ends (placeOf id) t (t = ·) fun (parent, i) u =>
      t = u ∧ t.parent? id = some parent ∧ t.indexIn? parent id = some i := by
  rw [placeOf]
  refine .bind (R := fun u v => t = u ∧ t = v) (.tree ⟨rfl, rfl⟩) ?_
  rintro u _ ⟨rfl, rfl⟩
  split
  · exact .throw _ rfl
  · rename_i parent hparent
    split
    · exact .throw _ rfl
    · rename_i i hindex
      exact .pure ⟨rfl, hparent, hindex⟩

/-! ### What edits keep -/

/-- The edit keeps a property of the tree, also when it fails. -/
def Keeps (P : Tree → Prop) (e : Editing α) : Prop :=
  ∀ t, P t → Ends e t P fun _ u => P u

namespace Keeps

variable {P : Tree → Prop}

theorem pure (a : α) : Keeps P (Pure.pure a) :=
  fun _ h => .pure h

theorem throw (x : Error) : Keeps P (throw x : Editing α) :=
  fun _ h => .throw x h

theorem change {f : Tree → Tree} (hf : ∀ t, P t → P (f t)) : Keeps P (change f) :=
  fun t h => .change (hf t h)

theorem changeGet {f : Tree → α × Tree} (hf : ∀ t, P t → P (f t).2) : Keeps P (changeGet f) :=
  fun t h => .changeGet (hf t h)

theorem tree : Keeps P tree :=
  fun _ h => .tree h

theorem node (id : NodeId) : Keeps P (node id) :=
  fun _ h => .node id h fun _ _ => h

theorem bind {e : Editing α} {f : α → Editing β} (he : Keeps P e) (hf : ∀ a, Keeps P (f a)) :
    Keeps P (e >>= f) :=
  fun t h => (he t h).bind fun a u hu => hf a u hu

theorem mapM {f : α → Editing β} : ∀ as : List α, (∀ a ∈ as, Keeps P (f a)) → Keeps P (as.mapM f)
  | [], _ => .pure []
  | a :: as, hf => by
    rw [List.forall_mem_cons] at hf
    rw [List.mapM_cons]
    exact hf.1.bind fun b => (mapM as hf.2).bind fun bs => .pure (b :: bs)

theorem silently {e : Editing Unit} (he : Keeps P e) : Keeps P (Edit.silently e) :=
  he.bind fun _ => .pure []

theorem single {e : Editing NodeId} (he : Keeps P e) : Keeps P (Edit.single e) :=
  he.bind fun id => .pure [id]

/-- All moves: the node is taken out and put somewhere. -/
theorem move {id : NodeId} {put : Editing (List NodeId)} (hremove : Keeps P (remove id))
    (hput : Keeps P put) : Keeps P (Edit.silently do remove id; let _ ← put) :=
  silently (hremove.bind fun _ => hput.bind fun _ => .pure ())

/-- Both ways to put a copy next to a node. -/
theorem copy {id : NodeId} {put : NodeId → Editing (List NodeId)}
    (hclone : Keeps P (cloneNode id)) (hput : ∀ copy, Keeps P (put copy)) :
    Keeps P (Edit.single do let copy ← cloneNode id; let _ ← put copy; return copy) :=
  single (hclone.bind fun copy => (hput copy).bind fun _ => .pure copy)

variable {id : NodeId}

/-- All setters. -/
theorem update {f : Content → Content} (hset : ∀ t n, P t → t.get? id = some n →
    P (t.setContent id n.content (f n.content))) (expected : NodeKind) :
    Keeps P (Editing.update id expected f) := by
  intro t h
  rw [Editing.update]
  refine .bind (R := fun n u => u = t ∧ t.get? id = some n) (.node id h fun n hn => ⟨rfl, hn⟩) ?_
  rintro n u ⟨rfl, hn⟩
  split_ifs
  · exact .bind (R := fun _ _ => False) (.throw _ h) fun _ _ h => h.elim
  · exact .change (hset u n h hn)

/-- The joined selector is set as any other. -/
theorem setSelectors (hset : ∀ t n selector, P t → t.get? id = some n →
    P (t.setContent id n.content (n.content.withSelector selector))) (values : List String) :
    Keeps P (Editing.setSelectors id values) := by
  rw [Editing.setSelectors]
  refine .bind (.node id) fun n => ?_
  split
  · exact .throw _
  · exact .bind .tree fun t => .update (fun u n => hset u n _) .rule

theorem cleanRaws {keepBetween : Bool} (hclean : ∀ t, P t → P (t.cleanRaws id keepBetween)) :
    Keeps P (Editing.cleanRaws id keepBetween) :=
  .bind (.node id) fun _ => .change hclean

theorem touch {f : Detail → Detail}
    (htouch : ∀ t, P t → P ((t.markDirty id).modify id (·.withDetail f))) :
    Keeps P (Editing.touch id f) :=
  .bind (.node id) fun _ => .change htouch

end Keeps

end Editing

/-! ### Bags -/

/-- A condition holds of every node that a bag describes. -/
inductive Bag.Describes (P : Detail → Prop) : Bag → Prop
  | node {fields : BagFields} {nodes : Option (List Bag)}
    (top : ∀ d, fields.detail? nodes.isSome = .ok d → P d)
    (below : ∀ bags ∈ nodes, ∀ bag ∈ bags, Describes P bag) : Describes P (.node fields nodes)

/-- A weaker condition holds of all nodes of the bag as well. -/
theorem Bag.Describes.mono {P Q : Detail → Prop} (hpq : ∀ d, P d → Q d) {bag : Bag}
    (h : bag.Describes P) : bag.Describes Q := by
  induction h with
  | node top _ ih => exact .node (fun d hd => hpq d (top d hd)) ih

/-- A condition that holds of all nodes that can be described. -/
theorem Bag.describes {P : Detail → Prop}
    (h : ∀ (fields : BagFields) hasList d, fields.detail? hasList = .ok d → P d) :
    ∀ bag : Bag, bag.Describes P
  | .node fields none => .node (h fields _) nofun
  | .node fields (some bags) => by
    refine .node (h fields _) ?_
    rintro _ ⟨⟩ bag hbag
    exact Bag.describes h bag

namespace Editing

/-- What holds of a tree while the nodes of bags are made: each is put into the store first, and
then, with all that is below it, into the list of the one above it. -/
structure Building (P : Detail → Prop) (I : Tree → Prop) (Own New : NodeId → Prop) : Prop where
  push {u : Tree} {d : Detail} (h : I u) (hd : P d) :
    I (u.push { detail := d }).2 ∧ New (u.push { detail := d }).1
  own {c : NodeId} (h : New c) : Own c
  insertLast {u : Tree} {parent child : NodeId} (h : I u) (hparent : Own parent)
    (hchild : New child) : I (u.insertLast parent [child])

namespace Building

variable {P : Detail → Prop} {I : Tree → Prop} {Own New : NodeId → Prop}

mutual

/-- It holds of the tree with the node of a bag, and where a bag turns out to be a bad one. -/
theorem build (h : Building P I Own New) : ∀ {bag : Bag} {u : Tree}, bag.Describes P → I u →
    Ends (Editing.build bag) u I fun c v => I v ∧ New c
  | .node fields nodes, u, .node htop hbelow, hu => by
    rw [Editing.build]
    refine .bind (R := fun d v => u = v ∧ P d) (.lift _ hu fun d hd => ⟨rfl, htop d hd⟩) ?_
    rintro d _ ⟨rfl, hd⟩
    refine .bind (R := fun c v => I v ∧ New c) (.changeGet (h.push hu hd)) ?_
    rintro c v ⟨hv, hc⟩
    cases d.block with
    | false => exact .pure ⟨hv, hc⟩
    | true => exact (h.buildList (h.own hc) hbelow hv).andReturn fun _ _ hw => ⟨hw, hc⟩

/-- The list of a bag, if it has one, goes into the block of its node. -/
theorem buildList (h : Building P I Own New) {parent : NodeId} (hparent : Own parent) :
    ∀ {nodes : Option (List Bag)} {u : Tree}, (∀ bags ∈ nodes, ∀ bag ∈ bags, bag.Describes P) →
      I u → Ends (Editing.buildList parent nodes) u I fun _ v => I v
  | none, u, _, hu => by
    rw [Editing.buildList]
    exact .pure hu
  | some bags, u, hbags, hu => by
    rw [Editing.buildList]
    exact h.buildAll hparent (hbags bags rfl) hu

/-- Bags are built one after the other, each at the end of the list. -/
theorem buildAll (h : Building P I Own New) {parent : NodeId} (hparent : Own parent) :
    ∀ {bags : List Bag} {u : Tree}, (∀ bag ∈ bags, bag.Describes P) → I u →
      Ends (Editing.buildAll parent bags) u I fun _ v => I v
  | [], u, _, hu => by
    rw [Editing.buildAll]
    exact .pure hu
  | bag :: bags, u, hbags, hu => by
    rw [List.forall_mem_cons] at hbags
    rw [Editing.buildAll]
    refine (h.build hbags.1 hu).bind ?_
    rintro child v ⟨hv, hchild⟩
    refine .bind (R := fun _ w => I w) (.change (h.insertLast hv hparent hchild)) ?_
    exact fun _ w hw => h.buildAll hparent hbags.2 hw

end

/-- Bags that are built for insertion, and stand in no list yet. -/
theorem buildEach (h : Building P I Own New) {bags : List Bag}
    (hbags : ∀ bag ∈ bags, bag.Describes P) {u : Tree} (hu : I u) :
    Ends (bags.mapM Editing.build) u I fun cs v => I v ∧ ∀ c ∈ cs, New c :=
  .mapM bags hu fun bag hbag _ hv => h.build (hbags bag hbag) hv

end Building

end Editing

end Stylesheet
