import Stylesheet.Proofs.Process.Coverage

/-!
# What is still to be called for a node

A node is tended to (`Scene.Tended`) while it is below the root and counts as visited, and while it
is entered, that is, its visit is the innermost and its children are still ahead.

`Move.tended` is what one step does to such a node. Unless its visit begins with the step, it was
tended to before; every callback that was still to be called for it is called now or still to be
called; and it says the same, unless it is changed by a callback while it is entered. What the
callbacks of a run have seen of a node follows from this alone.
-/

namespace Stylesheet

open Stylesheet.Tree

variable {σ : Type} {p : Program σ}

/-- The events of a node with these contents, when it is entered or left. -/
def Content.events (c : Content) (leaving : Bool) : List EventKey :=
  .of c.kind leaving none ::
    (c.eventName?.map fun name => EventKey.of c.kind leaving (some name)).toList

/-- The callbacks that a part of a visit calls. -/
def VisitStep.listeners (p : Program σ) : VisitStep → List (Listener σ)
  | .event key => Plugin.listeners p.plugins (.visit key)
  | .children => []

/-- The callbacks that a visit still calls. -/
def Visit.pending (p : Program σ) (v : Visit σ) : List (Listener σ) :=
  v.visitors ++ v.steps.flatMap (VisitStep.listeners p)

namespace Scene

/-- A callback is still to be called for a node. -/
def Due (p : Program σ) (s : Scene σ) (x : NodeId) (l : Listener σ) : Prop :=
  ∃ v ∈ s.visits, v.node = x ∧ l ∈ v.pending p

/-- The innermost visit is of the node, and its children are still ahead. -/
def Entering (s : Scene σ) (x : NodeId) : Prop :=
  ∃ v below, s.visits = v :: below ∧ v.node = x ∧ .children ∈ v.steps

/-- The node counts as visited, or is entered. -/
def Tended (s : Scene σ) (x : NodeId) : Prop :=
  s.tree.Attached x ∧ s.tree.isClean x = true ∨ s.Entering x

end Scene

/-- Events when the node is entered, its children, and events when it is left. -/
theorem visitSteps_eq (n : Node) :
    n.visitSteps = (n.content.events false).map .event ++
      (if n.isContainer then [.children] else []) ++ (n.content.events true).map .event := by
  rw [Node.visitSteps, Content.events, Content.events]
  cases n.content.eventName? <;> rfl

/-! ### Beginning of a visit -/

/-- A visit calls all callbacks for its node. -/
theorem Visit.mem_pending_ofNode {t : Tree} {x : NodeId} {c : Content}
    (hc : t.content? x = some c) {leaving : Bool} {key : EventKey} (hkey : key ∈ c.events leaving)
    {l : Listener σ} (hl : l ∈ Plugin.listeners p.plugins (.visit key)) :
    l ∈ (Visit.ofNode t x : Visit σ).pending p := by
  obtain ⟨n, hn, rfl⟩ := Option.map_eq_some_iff.mp hc
  refine List.mem_append_right _ (List.mem_flatMap.mpr ⟨.event key, ?_, hl⟩)
  rw [Visit.ofNode, hn]
  show VisitStep.event key ∈ n.visitSteps
  rw [visitSteps_eq]
  cases leaving with
  | false =>
    exact List.mem_append_left _ (List.mem_append_left _ (List.mem_map_of_mem hkey))
  | true => exact List.mem_append_right _ (List.mem_map_of_mem hkey)

variable {s s' : Scene σ} {call : Option (Listener σ × NodeId)} {entered : Option NodeId}
  {x : NodeId}

/-- Only callbacks change what nodes say. -/
theorem Move.content?_eq (hmove : Move p s none entered s') (x : NodeId) :
    s'.tree.content? x = s.tree.content? x := by
  cases hmove with
  | enterRoot hdirty => exact content?_markClean _ _ x
  | abandon hgone => exact congrFun (alike_closeCursor? _ _ _).content x
  | ascend hvisitors hcursor hend => exact congrFun (alike_closeCursor _ _ _).content x
  | skip hvisitors hcursor hchild hclean => exact congrFun (alike_advanceCursor _ _ _).content x
  | enter hvisitors hcursor hchild hdirty =>
    exact (content?_markClean _ _ x).trans (congrFun (alike_advanceCursor _ _ _).content x)
  | descend hvisitors hcursor hsteps hopen =>
    exact (congrFun (alike_openCursor hopen).content x).trans (content?_markClean _ _ x)
  | _ => rfl

/-- A move that enters a node calls nothing. -/
theorem Move.call_eq_none (hmove : Move p s call (some x) s') : call = none := by
  cases hmove <;> rfl

/-- When a visit begins, all callbacks for its node are still to be called. -/
theorem Move.due_of_entered (hmove : Move p s call (some x) s') {c : Content}
    (hc : s.tree.content? x = some c) {leaving : Bool} {key : EventKey}
    (hkey : key ∈ c.events leaving) {l : Listener σ}
    (hl : l ∈ Plugin.listeners p.plugins (.visit key)) : s'.Due p x l := by
  obtain rfl := hmove.call_eq_none
  have hc' := (hmove.content?_eq x).trans hc
  cases hmove with
  | enterRoot hdirty =>
    exact ⟨_, List.mem_singleton_self _, rfl, Visit.mem_pending_ofNode hc' hkey hl⟩
  | enter hvisitors hcursor hchild hdirty =>
    exact ⟨_, List.mem_cons_self, rfl, Visit.mem_pending_ofNode hc' hkey hl⟩

/-! ### Steps -/

/-- What the next part of a visit calls is moved to the front, and nothing is lost. -/
theorem Visit.pending_next {v w : Visit σ} {step : VisitStep} (hvisitors : v.visitors = [])
    (hsteps : v.steps = step :: w.steps) (hnext : w.visitors = step.listeners p) :
    w.pending p = v.pending p := by
  rw [pending, pending, hvisitors, hsteps, hnext, List.flatMap_cons, List.nil_append]

theorem due_replace {t u : Tree} {v w : Visit σ} {below : List (Visit σ)} {l : Listener σ}
    (h : (⟨t, v :: below⟩ : Scene σ).Due p x l) (hnode : w.node = v.node)
    (hpending : w.pending p = v.pending p) : (⟨u, w :: below⟩ : Scene σ).Due p x l := by
  obtain ⟨v', hv', rfl, hl⟩ := h
  rcases List.mem_cons.mp hv' with rfl | hv'
  · exact ⟨w, List.mem_cons_self, hnode, hpending ▸ hl⟩
  · exact ⟨v', List.mem_cons_of_mem _ hv', rfl, hl⟩

/-- A callback that is still to be called is called or stays so, unless the visit is given up. -/
theorem Move.due (hmove : Move p s call entered s') {l : Listener σ} (h : s.Due p x l) :
    s'.Due p x l ∨ call = some (l, x) ∨
      s'.visits = s.visits.tail ∧ PluginRun.canVisit s'.tree x = false := by
  -- What is due stays due until it is called, or until its visit is abandoned.
  cases hmove with
  | rest => exact Or.inl h
  | whole hu hlater =>
    obtain ⟨v, hv, -⟩ := h
    exact absurd hv List.not_mem_nil
  | @call t u v below m visitors hvisitors hu hlater =>
    obtain ⟨w, hw, rfl, hl⟩ := h
    rcases List.mem_cons.mp hw with rfl | hw
    · rw [Visit.pending, hvisitors, List.cons_append, List.mem_cons] at hl
      rcases hl with rfl | hl
      · exact Or.inr (Or.inl rfl)
      · exact Or.inl ⟨_, List.mem_cons_self, rfl, hl⟩
    · exact Or.inl ⟨w, List.mem_cons_of_mem _ hw, rfl, hl⟩
  | enterRoot hdirty =>
    obtain ⟨v, hv, -⟩ := h
    exact absurd hv List.not_mem_nil
  | @abandon t v below hgone =>
    obtain ⟨w, hw, rfl, hl⟩ := h
    rcases List.mem_cons.mp hw with rfl | hw
    · refine Or.inr (Or.inr ⟨rfl, ?_⟩)
      rw [PluginRun.canVisit, kind?_eq_links, parent?_eq_links,
        (alike_closeCursor? t w.node w.cursor).links, ← kind?_eq_links, ← parent?_eq_links]
      exact hgone
    · exact Or.inl ⟨w, hw, rfl, hl⟩
  | ascend hvisitors hcursor hend => exact Or.inl (due_replace h rfl rfl)
  | skip hvisitors hcursor hchild hclean => exact Or.inl (due_replace h rfl rfl)
  | enter hvisitors hcursor hchild hdirty =>
    obtain ⟨v, hv, rfl, hl⟩ := h
    exact Or.inl ⟨v, List.mem_cons_of_mem _ hv, rfl, hl⟩
  | leave hvisitors hcursor hsteps =>
    obtain ⟨v, hv, rfl, hl⟩ := h
    rcases List.mem_cons.mp hv with rfl | hv
    · rw [Visit.pending, hvisitors, hsteps] at hl
      exact absurd hl List.not_mem_nil
    · exact Or.inl ⟨v, hv, rfl, hl⟩
  | descend hvisitors hcursor hsteps hopen =>
    exact Or.inl (due_replace h rfl (Visit.pending_next hvisitors hsteps hvisitors))
  | barren hvisitors hcursor hsteps hempty =>
    exact Or.inl (due_replace h rfl (Visit.pending_next hvisitors hsteps hvisitors))
  | announce hvisitors hcursor hsteps =>
    exact Or.inl (due_replace h rfl (Visit.pending_next hvisitors hsteps rfl))

/-- Only callbacks change where nodes stand. -/
theorem Move.links_eq (hmove : Move p s none entered s') : s'.tree.links = s.tree.links := by
  cases hmove with
  | enterRoot hdirty => exact links_markClean _ _
  | abandon hgone => exact (alike_closeCursor? _ _ _).links
  | ascend hvisitors hcursor hend => exact (alike_closeCursor _ _ _).links
  | skip hvisitors hcursor hchild hclean => exact (alike_advanceCursor _ _ _).links
  | enter hvisitors hcursor hchild hdirty =>
    exact (links_markClean _ _).trans (alike_advanceCursor _ _ _).links
  | descend hvisitors hcursor hsteps hopen =>
    exact (alike_openCursor hopen).links.trans (links_markClean _ _)
  | _ => rfl

/-- A call leaves the tree later. -/
theorem Move.later {l : Listener σ} {y : NodeId} (hmove : Move p s (some (l, y)) entered s') :
    s.tree.Later s.tree.lastCursor s'.tree := by
  cases hmove with
  | whole hu hlater => exact hlater
  | call hvisitors hu hlater => exact hlater

/-- A node is marked when its visit begins, and again when its children are gone through. -/
theorem Move.marked (hmove : Move p s none entered s') (hx : s'.tree.isClean x = true) :
    s.tree.isClean x = true ∨ entered = some x ∨ s.Entering x := by
  -- Marks are set when a node is entered and again when its children are; closing and advancing a
  -- cursor set none.
  cases hmove with
  | enterRoot hdirty =>
    rcases (isClean_markClean_iff _ _ x).mp hx with ⟨rfl, -⟩ | hx
    · exact Or.inr (Or.inl rfl)
    · exact Or.inl hx
  | @abandon t v below hgone =>
    exact Or.inl ((congrFun (alike_closeCursor? t v.node v.cursor).clean x).symm.trans hx)
  | @ascend t v below k hvisitors hcursor hend =>
    exact Or.inl ((congrFun (alike_closeCursor t v.node k).clean x).symm.trans hx)
  | @skip t v below k i c hvisitors hcursor hchild hclean =>
    exact Or.inl ((congrFun (alike_advanceCursor t v.node k).clean x).symm.trans hx)
  | @enter t v below k i c hvisitors hcursor hchild hdirty =>
    rcases (isClean_markClean_iff _ _ x).mp hx with ⟨rfl, -⟩ | hx
    · exact Or.inr (Or.inl rfl)
    · exact Or.inl ((congrFun (alike_advanceCursor t v.node k).clean x).symm.trans hx)
  | @descend t u v below steps k hvisitors hcursor hsteps hopen =>
    have hx' := (congrFun (alike_openCursor hopen).clean x).symm.trans hx
    rcases (isClean_markClean_iff _ _ x).mp hx' with ⟨rfl, -⟩ | hx'
    · exact Or.inr (Or.inr ⟨v, below, rfl, rfl, hsteps ▸ List.mem_cons_self⟩)
    · exact Or.inl hx'
  | _ => exact Or.inl hx

/-- A visit that was given up or is over leaves one that is among the children of its node. -/
theorem Scene.Stacked.not_entering_tail (hs : s.Stacked) (htail : s'.visits = s.visits.tail) :
    ¬ s'.Entering x := by
  rintro ⟨v, below, hvisits, -, hchildren⟩
  have hv : v ∈ s.visits.tail := by
    rw [← htail, hvisits]
    exact List.mem_cons_self
  exact (hs.ordered v (List.mem_of_mem_tail hv)).of_cursor (hs.inner v hv) hchildren

theorem Move.entering (hs : s.Stacked) (hmove : Move p s call entered s') (h : s'.Entering x) :
    entered = some x ∨ s.Entering x := by
  -- A visit whose top is replaced can be about to enter its children only if it was before.
  have hstep : ∀ {t u : Tree} {v w : Visit σ} {below : List (Visit σ)},
      (⟨u, w :: below⟩ : Scene σ).Entering x → w.node = v.node →
      (.children ∈ w.steps → .children ∈ v.steps) → (⟨t, v :: below⟩ : Scene σ).Entering x := by
    rintro t u v w below ⟨_, _, hvisits, rfl, hchildren⟩ hnode hsteps
    cases hvisits
    exact ⟨v, below, rfl, hnode.symm, hsteps hchildren⟩
  cases hmove with
  | rest => exact Or.inr h
  | whole hu hlater =>
    obtain ⟨v, below, hvisits, -⟩ := h
    cases hvisits
  | call hvisitors hu hlater => exact Or.inr (hstep h rfl fun hmem => hmem)
  | enterRoot hdirty =>
    obtain ⟨v, below, hvisits, rfl, -⟩ := h
    cases hvisits
    exact Or.inl rfl
  | abandon hgone => exact absurd h (hs.not_entering_tail rfl)
  | ascend hvisitors hcursor hend => exact Or.inr (hstep h rfl fun hmem => hmem)
  | skip hvisitors hcursor hchild hclean => exact Or.inr (hstep h rfl fun hmem => hmem)
  | enter hvisitors hcursor hchild hdirty =>
    obtain ⟨v, below, hvisits, rfl, -⟩ := h
    cases hvisits
    exact Or.inl rfl
  | leave hvisitors hcursor hsteps => exact absurd h (hs.not_entering_tail rfl)
  | descend hvisitors hcursor hsteps hopen =>
    exact Or.inr (hstep h rfl fun hmem => hsteps ▸ List.mem_cons_of_mem _ hmem)
  | barren hvisitors hcursor hsteps hempty =>
    exact Or.inr (hstep h rfl fun hmem => hsteps ▸ List.mem_cons_of_mem _ hmem)
  | announce hvisitors hcursor hsteps =>
    exact Or.inr (hstep h rfl fun hmem => hsteps ▸ List.mem_cons_of_mem _ hmem)

/-- While a node is entered, all calls are for it. -/
theorem Scene.Entering.node_eq (h : s.Entering x) {l : Listener σ} {y : NodeId}
    (hmove : Move p s (some (l, y)) entered s') : y = x := by
  obtain ⟨v, below, hvisits, rfl, -⟩ := h
  cases hmove with
  | whole hu hlater => cases hvisits
  | call hvisitors hu hlater => cases hvisits; rfl

/-- What one step does to a node that is tended to. -/
theorem Move.tended (hs : s.Sound) (hmove : Move p s call entered s') (hx : s'.Tended x) :
    entered = some x ∨
      s.Tended x ∧ (∀ l, s.Due p x l → s'.Due p x l ∨ call = some (l, x)) ∧
        (s'.tree.content? x = s.tree.content? x ∨ s.Entering x ∧ ∃ l, call = some (l, x)) := by
  have hdue : ∀ l, s.Due p x l → s'.Due p x l ∨ call = some (l, x) := by
    intro l hl
    rcases hmove.due hl with hl | hl | ⟨htail, hgone⟩
    · exact Or.inl hl
    · exact Or.inr hl
    · -- A visit is given up only when its node is not below the root.
      rcases hx with ⟨hattached, -⟩ | hentering
      · have hrooted := (hmove.orderly hs.orderly).rooted
        rw [PluginRun.canVisit_of_attached hrooted hattached] at hgone
        cases hgone
      · exact absurd hentering (hs.stacked.not_entering_tail htail)
  rcases hx with ⟨hattached, hclean⟩ | hentering
  · -- A node that counts as visited after a call was not touched by it.
    cases call with
    | none =>
      rw [attached_congr hmove.links_eq] at hattached
      rcases hmove.marked hclean with hclean | hentered | hentering
      · exact Or.inr ⟨Or.inl ⟨hattached, hclean⟩, hdue, Or.inl (hmove.content?_eq x)⟩
      · exact Or.inl hentered
      · exact Or.inr ⟨Or.inr hentering, hdue, Or.inl (hmove.content?_eq x)⟩
    | some deed =>
      have hkept := hmove.later.kept hclean
      refine Or.inr ⟨Or.inl ⟨hkept.attached hattached, hkept.clean⟩, hdue, Or.inl hkept.content⟩
  · rcases hmove.entering hs.stacked hentering with hentered | hentering
    · exact Or.inl hentered
    · refine Or.inr ⟨Or.inr hentering, hdue, ?_⟩
      cases call with
      | none => exact Or.inl (hmove.content?_eq x)
      | some deed =>
        obtain ⟨l, y⟩ := deed
        obtain rfl := hentering.node_eq hmove
        exact Or.inr ⟨hentering, l, rfl⟩

end Stylesheet
