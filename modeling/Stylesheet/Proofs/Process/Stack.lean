import Stylesheet.Proofs.Process.Move
import Stylesheet.Proofs.Tree.Orderly

/-!
# The visits that are going on

A run goes down the tree with one visit inside the other. All but the innermost are among the
children of their node, each with a cursor of its own (`Scene.Stacked`). A node may be visited again
while a visit of it is going on, so it is the numbers of the cursors that tell the visits apart.
-/

namespace Stylesheet

open Stylesheet.Tree

variable {σ : Type}

/-- Every move keeps the tree orderly. -/
theorem Move.orderly {p : Program σ} {s s' : Scene σ} {call : Option (Listener σ × NodeId)}
    {entered : Option NodeId} (hs : s.tree.Orderly) (hmove : Move p s call entered s') :
    s'.tree.Orderly := by
  cases hmove with
  | whole hu hlater => exact hs.later hu hlater
  | call hvisitors hu hlater => exact hs.later hu hlater
  | enterRoot hdirty => exact hs.markClean rootId
  | @abandon t v below hgone =>
    cases v.cursor with
    | none => exact hs
    | some k => exact hs.closeCursor v.node k
  | ascend hvisitors hcursor hend => exact hs.closeCursor _ _
  | skip hvisitors hcursor hchild hclean => exact hs.advanceCursor _ _
  | enter hvisitors hcursor hchild hdirty => exact (hs.advanceCursor _ _).markClean _
  | descend hvisitors hcursor hsteps hopen => exact (hs.markClean _).openCursor hopen
  | _ => exact hs

namespace Visit

/-- The visit has its children ahead, or a cursor among them, or neither. -/
def Ordered (v : Visit σ) : Prop :=
  v.cursor = none ∧ v.steps.count .children ≤ 1 ∨ .children ∉ v.steps

/-- The children of a node are visited once. -/
theorem count_visitSteps (n : Node) : n.visitSteps.count .children ≤ 1 := by
  have hevents : ∀ (leaving : Bool) (name : Option String),
      (VisitStep.event (.of n.kind leaving none) ::
        (name.map fun name => VisitStep.event (.of n.kind leaving (some name))).toList).count
          .children = 0 := by
    intro leaving name
    cases name <;> rfl
  rw [Node.visitSteps, List.count_append, List.count_append, hevents, hevents]
  split_ifs
  · exact Nat.le_refl 1
  · exact Nat.zero_le 1

theorem ordered_ofNode (t : Tree) (x : NodeId) : (Visit.ofNode t x : Visit σ).Ordered := by
  refine Or.inl ⟨rfl, ?_⟩
  rw [Visit.ofNode]
  cases t.get? x with
  | none => exact Nat.zero_le 1
  | some n => exact count_visitSteps n

/-- The children of a container are part of its visit. -/
theorem children_mem_ofNode {t : Tree} {x : NodeId} (h : t.hasBlock x = true) :
    .children ∈ (Visit.ofNode t x : Visit σ).steps := by
  rw [hasBlock] at h
  rw [Visit.ofNode]
  cases hget : t.get? x with
  | none => rw [hget] at h; cases h
  | some n =>
    rw [hget] at h
    have hblock : n.isContainer = true := h
    show .children ∈ n.visitSteps
    rw [Node.visitSteps, if_pos hblock]
    exact List.mem_append_left _ (List.mem_append_right _ (List.mem_singleton_self _))

end Visit

/-- The visits that are going on: all but the innermost are among the children of their node, with
cursors that are open and differ from each other. -/
structure Scene.Stacked (s : Scene σ) : Prop where
  ordered : ∀ v ∈ s.visits, v.Ordered
  inner : ∀ v ∈ s.visits.tail, v.cursor.isSome = true
  given : ∀ v ∈ s.visits, ∀ k, v.cursor = some k → k ≤ s.tree.lastCursor v.node
  apart : s.visits.Pairwise fun v w => v.node = w.node → ∀ k, v.cursor = some k → w.cursor ≠ some k

namespace Scene.Stacked

variable {t u : Tree} {v w : Visit σ} {below visits : List (Visit σ)}

theorem nil (t : Tree) : (⟨t, []⟩ : Scene σ).Stacked :=
  ⟨fun _ h => absurd h List.not_mem_nil, fun _ h => absurd h List.not_mem_nil,
    fun _ h => absurd h List.not_mem_nil, .nil⟩

/-- Cursors of a tree that has more of them may be open. -/
theorem withTree (h : (⟨t, visits⟩ : Scene σ).Stacked)
    (hlast : ∀ x, t.lastCursor x ≤ u.lastCursor x) : (⟨u, visits⟩ : Scene σ).Stacked :=
  ⟨h.ordered, h.inner, fun v hv k hk => Nat.le_trans (h.given v hv k hk) (hlast v.node), h.apart⟩

theorem pop (h : (⟨t, v :: below⟩ : Scene σ).Stacked) : (⟨t, below⟩ : Scene σ).Stacked where
  ordered := fun w hw => h.ordered w (List.mem_cons_of_mem v hw)
  inner := fun w hw => h.inner w (List.mem_of_mem_tail hw)
  given := fun w hw => h.given w (List.mem_cons_of_mem v hw)
  apart := (List.pairwise_cons.mp h.apart).2

/-- Another innermost visit, of the same node and with the same cursor, if any. -/
theorem replace (h : (⟨t, v :: below⟩ : Scene σ).Stacked) (hordered : w.Ordered)
    (hnode : w.node = v.node) (hcursor : ∀ k, w.cursor = some k → v.cursor = some k) :
    (⟨t, w :: below⟩ : Scene σ).Stacked where
  ordered := List.forall_mem_cons.mpr ⟨hordered, h.pop.ordered⟩
  inner := h.inner
  given := by
    refine List.forall_mem_cons.mpr ⟨fun k hk => ?_, h.pop.given⟩
    rw [hnode]
    exact h.given v List.mem_cons_self k (hcursor k hk)
  apart := by
    refine List.pairwise_cons.mpr ⟨fun w' hw' hsame k hk => ?_, h.pop.apart⟩
    exact (List.pairwise_cons.mp h.apart).1 w' hw' (hnode ▸ hsame) k (hcursor k hk)

/-- A new visit goes on top of one that stands at its cursor. -/
theorem push (h : (⟨t, v :: below⟩ : Scene σ).Stacked) (hv : v.cursor.isSome = true)
    (hordered : w.Ordered) (hcursor : w.cursor = none) :
    (⟨t, w :: v :: below⟩ : Scene σ).Stacked where
  ordered := List.forall_mem_cons.mpr ⟨hordered, h.ordered⟩
  inner := List.forall_mem_cons.mpr ⟨hv, h.inner⟩
  given := by
    refine List.forall_mem_cons.mpr ⟨fun k hk => ?_, h.given⟩
    rw [hcursor] at hk
    cases hk
  apart := by
    refine List.pairwise_cons.mpr ⟨fun w' _ _ k hk => ?_, h.apart⟩
    rw [hcursor] at hk
    cases hk

/-- The innermost visit gets a cursor with a new number. -/
theorem openCursor (h : (⟨t, v :: below⟩ : Scene σ).Stacked) {k : Nat} {steps : List VisitStep}
    (hopen : t.openCursor v.node = some (k, u)) (hsteps : .children ∉ steps) :
    (⟨u, { v with steps, cursor := some k } :: below⟩ : Scene σ).Stacked where
  ordered := List.forall_mem_cons.mpr ⟨Or.inr hsteps, h.pop.ordered⟩
  inner := h.inner
  given := by
    refine List.forall_mem_cons.mpr ⟨fun j hj => ?_, ?_⟩
    · cases hj
      exact Nat.le_of_eq (lastCursor_opened hopen).2.symm
    · exact (h.pop.withTree (lastCursor_openCursor hopen)).given
  apart := by
    refine List.pairwise_cons.mpr ⟨fun w hw hsame j hj hw' => ?_, h.pop.apart⟩
    cases hj
    -- A visit further out has an older cursor, and the number of the new one is not yet given.
    have hle := h.pop.given w hw k hw'
    have hlt := (lastCursor_opened hopen).1
    rw [← hsame] at hle
    exact absurd hle (Nat.not_le.mpr hlt)

end Scene.Stacked

/-- Behind the children there are no children again. -/
theorem Visit.Ordered.not_mem_tail {v : Visit σ} (h : v.Ordered) {steps : List VisitStep}
    (hsteps : v.steps = .children :: steps) : .children ∉ steps := by
  rw [Visit.Ordered, hsteps] at h
  rcases h with ⟨-, hcount⟩ | hnot
  · rw [List.count_cons_self] at hcount
    intro hmem
    have hpos := List.count_pos_iff.mpr hmem
    omega
  · exact absurd List.mem_cons_self hnot

theorem Visit.Ordered.of_cursor {v : Visit σ} (h : v.Ordered) (hcursor : v.cursor.isSome = true) :
    .children ∉ v.steps := by
  rcases h with ⟨hnone, -⟩ | hnot
  · rw [hnone] at hcursor
    cases hcursor
  · exact hnot

/-- Every move keeps the visits stacked. -/
theorem Move.stacked {p : Program σ} {s s' : Scene σ} {call : Option (Listener σ × NodeId)}
    {entered : Option NodeId} (hs : s.Stacked) (hmove : Move p s call entered s') : s'.Stacked := by
  -- The invariant speaks of cursors and of steps that are left; each move touches the top alone.
  cases hmove with
  | rest => exact hs
  | whole hu hlater => exact .nil _
  | @call t u v below l visitors hvisitors hu hlater =>
    refine (hs.withTree (LaterBut.lastCursor hlater)).replace ?_ rfl fun k hk => hk
    exact hs.ordered v List.mem_cons_self
  | enterRoot hdirty =>
    refine ⟨?_, fun _ h => absurd h List.not_mem_nil, ?_, List.pairwise_singleton _ _⟩
    · exact List.forall_mem_singleton.mpr (Visit.ordered_ofNode _ _)
    · exact List.forall_mem_singleton.mpr nofun
  | @abandon t v below hgone =>
    refine hs.pop.withTree fun x => ?_
    cases v.cursor with
    | none => exact Nat.le_refl _
    | some k => exact Nat.le_of_eq (lastCursor_closeCursor t v.node k x).symm
  | @ascend t v below k hvisitors hcursor hend =>
    have hclosed := hs.withTree fun x => Nat.le_of_eq (lastCursor_closeCursor t v.node k x).symm
    refine hclosed.replace (Or.inr ?_) rfl nofun
    exact (hs.ordered v List.mem_cons_self).of_cursor (Option.isSome_iff_exists.mpr ⟨k, hcursor⟩)
  | @skip t v below k i c hvisitors hcursor hchild hclean =>
    exact hs.withTree fun x => Nat.le_of_eq (lastCursor_advanceCursor t v.node k x).symm
  | @enter t v below k i c hvisitors hcursor hchild hdirty =>
    have hmoved := hs.withTree (u := (t.advanceCursor v.node k).markClean c) fun x => by
      rw [lastCursor_markClean, lastCursor_advanceCursor]
    exact hmoved.push (Option.isSome_iff_exists.mpr ⟨k, hcursor⟩) (Visit.ordered_ofNode _ _) rfl
  | leave hvisitors hcursor hsteps => exact hs.pop
  -- The one move that opens a cursor: its number is higher than any that was given out.
  | @descend t u v below steps k hvisitors hcursor hsteps hopen =>
    have hmarked := hs.withTree fun x => Nat.le_of_eq (lastCursor_markClean t v.node x).symm
    exact hmarked.openCursor hopen ((hs.ordered v List.mem_cons_self).not_mem_tail hsteps)
  | @barren t v below steps hvisitors hcursor hsteps hempty =>
    refine hs.replace (Or.inr ?_) rfl fun k hk => hk
    exact (hs.ordered v List.mem_cons_self).not_mem_tail hsteps
  | @announce t v below steps key hvisitors hcursor hsteps =>
    refine hs.replace ?_ rfl fun k hk => hk
    rcases hs.ordered v List.mem_cons_self with ⟨-, hcount⟩ | hnot
    · refine Or.inl ⟨hcursor, ?_⟩
      rw [hsteps] at hcount
      exact hcount
    · refine Or.inr fun hmem => hnot ?_
      rw [hsteps]
      exact List.mem_cons_of_mem _ hmem

end Stylesheet
