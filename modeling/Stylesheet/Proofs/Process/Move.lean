import Stylesheet.Proofs.Process.Callback

/-!
# Steps of a run

Every step of a run that does not fail is one of a dozen moves (`Move`), each with what it does to
the tree and to the visits that are going on (`PluginRun.move_step`). Invariants of runs are shown
of these moves.
-/

namespace Stylesheet

open Stylesheet.Tree

variable {σ : Type}

/-- The tree and the visits that are going on, the innermost first. -/
structure Scene (σ : Type) where
  tree : Tree
  visits : List (Visit σ)

/-- What happens to a scene in one step, with the call that is made and the node whose visit
begins. -/
inductive Move (p : Program σ) :
    Scene σ → Option (Listener σ × NodeId) → Option NodeId → Scene σ → Prop
  /-- The run goes on to another part. -/
  | rest {t : Tree} : Move p ⟨t, []⟩ none none ⟨t, []⟩
  /-- A callback for the whole tree. -/
  | whole {t u : Tree} {l : Listener σ} (hu : u.Consistent) (hlater : t.Later t.lastCursor u) :
    Move p ⟨t, []⟩ (some (l, rootId)) none ⟨u, []⟩
  /-- A callback for a node. -/
  | call {t u : Tree} {v : Visit σ} {below : List (Visit σ)} {l : Listener σ}
    {visitors : List (Listener σ)} (hvisitors : v.visitors = l :: visitors) (hu : u.Consistent)
    (hlater : t.Later t.lastCursor u) :
    Move p ⟨t, v :: below⟩ (some (l, v.node)) none ⟨u, { v with visitors } :: below⟩
  /-- A pass begins. -/
  | enterRoot {t : Tree} (hdirty : t.isClean rootId = false) :
    Move p ⟨t, []⟩ none (some rootId)
      ⟨t.markClean rootId, [.ofNode (t.markClean rootId) rootId]⟩
  /-- The node of a visit was detached. -/
  | abandon {t : Tree} {v : Visit σ} {below : List (Visit σ)}
    (hgone : PluginRun.canVisit t v.node = false) :
    Move p ⟨t, v :: below⟩ none none
      ⟨(v.cursor.map fun k => t.closeCursor v.node k).getD t, below⟩
  /-- There are no more children. -/
  | ascend {t : Tree} {v : Visit σ} {below : List (Visit σ)} {k : Nat} (hvisitors : v.visitors = [])
    (hcursor : v.cursor = some k) (hend : t.cursorChild? v.node k = none) :
    Move p ⟨t, v :: below⟩ none none
      ⟨t.closeCursor v.node k, { v with cursor := none } :: below⟩
  /-- A child that was visited is passed over. -/
  | skip {t : Tree} {v : Visit σ} {below : List (Visit σ)} {k i : Nat} {c : NodeId}
    (hvisitors : v.visitors = []) (hcursor : v.cursor = some k)
    (hchild : t.cursorChild? v.node k = some (i, c)) (hclean : t.isClean c = true) :
    Move p ⟨t, v :: below⟩ none none ⟨t.advanceCursor v.node k, v :: below⟩
  /-- The visit of a child begins. -/
  | enter {t : Tree} {v : Visit σ} {below : List (Visit σ)} {k i : Nat} {c : NodeId}
    (hvisitors : v.visitors = []) (hcursor : v.cursor = some k)
    (hchild : t.cursorChild? v.node k = some (i, c)) (hdirty : t.isClean c = false) :
    Move p ⟨t, v :: below⟩ none (some c)
      ⟨(t.advanceCursor v.node k).markClean c,
        .ofNode ((t.advanceCursor v.node k).markClean c) c :: v :: below⟩
  /-- The visit is over. -/
  | leave {t : Tree} {v : Visit σ} {below : List (Visit σ)} (hvisitors : v.visitors = [])
    (hcursor : v.cursor = none) (hsteps : v.steps = []) :
    Move p ⟨t, v :: below⟩ none none ⟨t, below⟩
  /-- The children are gone through. -/
  | descend {t u : Tree} {v : Visit σ} {below : List (Visit σ)} {steps : List VisitStep} {k : Nat}
    (hvisitors : v.visitors = []) (hcursor : v.cursor = none)
    (hsteps : v.steps = .children :: steps)
    (hopen : (t.markClean v.node).openCursor v.node = some (k, u)) :
    Move p ⟨t, v :: below⟩ none none ⟨u, { v with steps, cursor := some k } :: below⟩
  /-- There are no children. -/
  | barren {t : Tree} {v : Visit σ} {below : List (Visit σ)} {steps : List VisitStep}
    (hvisitors : v.visitors = []) (hcursor : v.cursor = none)
    (hsteps : v.steps = .children :: steps) (hempty : t.children v.node = []) :
    Move p ⟨t, v :: below⟩ none none ⟨t, { v with steps } :: below⟩
  /-- An event is announced. -/
  | announce {t : Tree} {v : Visit σ} {below : List (Visit σ)} {steps : List VisitStep}
    {key : EventKey} (hvisitors : v.visitors = []) (hcursor : v.cursor = none)
    (hsteps : v.steps = .event key :: steps) :
    Move p ⟨t, v :: below⟩ none none
      ⟨t, { v with steps, visitors := Plugin.listeners p.plugins (.visit key) } :: below⟩

namespace RunPoint

/-- The visits that are going on. -/
def visits : RunPoint σ → List (Visit σ)
  | .visiting stack => stack
  | _ => []

/-- The callbacks that were announced and are still to be called. -/
def listeners : RunPoint σ → List (Listener σ)
  | .opening rest => rest
  | .closing rest => rest
  | .visiting stack => stack.flatMap Visit.visitors
  | _ => []

end RunPoint

namespace PluginRun

/-- The scene of a run. -/
def scene (r : PluginRun σ) : Scene σ :=
  ⟨r.tree, r.point.visits⟩

/-- The node whose visit begins with the next step, if one does. -/
def enters? (r : PluginRun σ) : Option NodeId :=
  match r.point with
  | .settling => if r.tree.isClean rootId then none else some rootId
  | .visiting (v :: _) =>
    if canVisit r.tree v.node && v.visitors.isEmpty then
      match v.cursor.bind (r.tree.cursorChild? v.node) with
      | some (_, c) => if r.tree.isClean c then none else some c
      | none => none
    else none
  | _ => none

/-- The run has ended with an error. -/
def HasFailed (r : PluginRun σ) : Prop :=
  ∃ e, r.point = .failed e

/-! ### Calls -/

variable {p : Program σ} {r : PluginRun σ}

/-- A call that does not fail goes on, with what the callback left. -/
theorem call_of_not_hasFailed {l : Listener σ} {node : NodeId} {next : RunPoint σ}
    (hfailed : ¬ (r.call p l node next).HasFailed) :
    (r.call p l node next).point = next ∧ (r.call p l node next).stage =
      (StateT.run (ExceptT.run (l.callback.body ⟨node, l.plugin, p.options⟩)) r.stage).2 := by
  unfold call perform at hfailed ⊢
  split_ifs at hfailed ⊢ with hawait
  · -- A callback that has to wait is an error here.
    exact absurd ⟨_, rfl⟩ hfailed
  · generalize StateT.run (ExceptT.run (l.callback.body ⟨node, l.plugin, p.options⟩)) r.stage = out
      at hfailed ⊢
    obtain ⟨result, stage⟩ := out
    cases result with
    | ok a => exact ⟨rfl, rfl⟩
    | error e => exact absurd ⟨_, rfl⟩ hfailed

/-- A call changes the tree by work, and the run goes on as planned. -/
theorem call_cases {l : Listener σ} {node : NodeId} {next : RunPoint σ} (hl : l.callback.UsesApi)
    (hr : r.tree.Consistent) (hfailed : ¬ (r.call p l node next).HasFailed) :
    (r.call p l node next).point = next ∧
      r.stage.desk.Worked (r.call p l node next).stage.desk := by
  obtain ⟨hnext, hstage⟩ := call_of_not_hasFailed hfailed
  rw [hstage]
  exact ⟨hnext, hl ⟨node, l.plugin, p.options⟩ r.stage hr⟩

/-- A call that does not fail changes the tree as the callback may. -/
theorem later_call {l : Listener σ} {node : NodeId} {next : RunPoint σ} (hl : l.callback.UsesApi)
    (hr : r.tree.Consistent) (hfailed : ¬ (r.call p l node next).HasFailed) :
    ∃ u : Tree, (r.call p l node next).scene = ⟨u, next.visits⟩ ∧ u.Consistent ∧
      r.tree.Later r.tree.lastCursor u := by
  obtain ⟨hnext, hworked⟩ := call_cases hl hr hfailed
  refine ⟨_, ?_, hworked.consistent hr, hworked.later hr⟩
  rw [scene, hnext]
  rfl

/-! ### Visits -/

variable {v : Visit σ} {below : List (Visit σ)}

/-- The next child is entered, passed over, or there is none. -/
theorem move_nextChild {k : Nat} (hvisitors : v.visitors = []) (hcursor : v.cursor = some k) :
    Move p ⟨r.tree, v :: below⟩ none
      (match r.tree.cursorChild? v.node k with
      | some (_, c) => if r.tree.isClean c then none else some c
      | none => none)
      (r.nextChild v k below).scene := by
  rw [nextChild]
  cases hchild : r.tree.cursorChild? v.node k with
  | none => exact .ascend hvisitors hcursor hchild
  | some found =>
    obtain ⟨i, c⟩ := found
    -- The child is looked at when the cursor has moved on, which does not change its mark.
    have hsame : (r.tree.advanceCursor v.node k).isClean c = r.tree.isClean c :=
      congrFun (alike_advanceCursor r.tree v.node k).clean c
    dsimp only
    rw [hsame]
    by_cases hclean : r.tree.isClean c = true
    · rw [if_pos hclean, if_pos hclean]
      exact .skip hvisitors hcursor hchild hclean
    · rw [if_neg hclean, if_neg hclean]
      exact .enter hvisitors hcursor hchild (Bool.eq_false_iff.mpr hclean)

/-- The next part of a visit begins. -/
theorem move_nextStep (hr : r.tree.Consistent) (hvisitors : v.visitors = [])
    (hcursor : v.cursor = none) :
    Move p ⟨r.tree, v :: below⟩ none none (r.nextStep p v below).scene := by
  rw [nextStep]
  cases hsteps : v.steps with
  | nil => exact .leave hvisitors hcursor hsteps
  | cons step steps =>
    cases step with
    | event key => exact .announce hvisitors hcursor hsteps
    | children =>
      dsimp only
      by_cases hempty : (r.tree.children v.node).isEmpty = true
      · rw [if_pos hempty]
        exact .barren hvisitors hcursor hsteps (List.isEmpty_iff.mp hempty)
      · rw [if_neg hempty]
        -- A node with children has a block, so it has cursors.
        have hblock : (r.tree.markClean v.node).hasBlock v.node = true := by
          rw [hasBlock_eq_links, links_markClean, ← hasBlock_eq_links]
          exact hr.block v.node fun h => hempty (List.isEmpty_iff.mpr h)
        obtain ⟨k, u, hopen⟩ := exists_openCursor hblock
        rw [hopen]
        exact .descend hvisitors hcursor hsteps hopen

/-- A visit whose node is gone is given up. -/
theorem move_abandon (hgone : canVisit r.tree v.node = false) :
    Move p ⟨r.tree, v :: below⟩ none none (r.abandon v below).scene := by
  have hmove : Move p ⟨r.tree, v :: below⟩ none none _ := .abandon hgone
  rw [abandon]
  cases hcursor : v.cursor with
  | none => rw [hcursor] at hmove; exact hmove
  | some k => rw [hcursor] at hmove; exact hmove

/-- All that a step can do to a visit. -/
theorem move_visitOn (hpoint : r.point = .visiting (v :: below))
    (hlisteners : ∀ l ∈ v.visitors, l.callback.UsesApi) (hr : r.tree.Consistent)
    (hfailed : ¬ (r.visitOn p v below).HasFailed) :
    Move p ⟨r.tree, v :: below⟩ r.call? r.enters? (r.visitOn p v below).scene := by
  rw [call?, enters?, hpoint]
  rw [visitOn] at hfailed ⊢
  dsimp only
  -- The order of the questions is that of the code: may the node be visited, is a call due, is it
  -- among its children.
  by_cases hvisit : canVisit r.tree v.node = true
  · rw [if_pos hvisit] at hfailed ⊢
    rw [if_pos hvisit, hvisit, Bool.true_and]
    cases hvisitors : v.visitors with
    | cons l visitors =>
      rw [hvisitors] at hfailed hlisteners
      obtain ⟨u, hscene, hu, hlater⟩ := later_call (hlisteners l List.mem_cons_self) hr hfailed
      dsimp only at hscene ⊢
      rw [hscene]
      exact .call hvisitors hu hlater
    | nil =>
      cases hcursor : v.cursor with
      | some k => exact move_nextChild hvisitors hcursor
      | none => exact move_nextStep hr hvisitors hcursor
  · have hgone := Bool.eq_false_iff.mpr hvisit
    rw [if_neg hvisit, if_neg hvisit, hgone, Bool.false_and]
    exact move_abandon hgone

/-! ### All steps -/

/-- A step that does not fail is a move. -/
theorem move_step (hr : r.tree.Consistent)
    (hlisteners : ∀ l ∈ r.point.listeners, l.callback.UsesApi)
    (hfailed : ¬ (r.step p).HasFailed) :
    Move p r.scene r.call? r.enters? (r.step p).scene := by
  unfold step at hfailed ⊢
  cases hpoint : r.point with
  | opening rest =>
    rw [hpoint] at hfailed hlisteners
    rw [scene, call?, enters?, hpoint]
    cases rest with
    | nil =>
      dsimp only
      split_ifs <;> exact .rest
    | cons l rest =>
      obtain ⟨u, hscene, hu, hlater⟩ := later_call (hlisteners l List.mem_cons_self) hr hfailed
      dsimp only at hscene ⊢
      rw [hscene]
      exact .whole hu hlater
  -- The root is entered from here, unless nothing has marked it.
  | settling =>
    rw [scene, call?, enters?, hpoint]
    dsimp only
    by_cases hclean : r.tree.isClean rootId = true
    · rw [if_pos hclean, if_pos hclean]
      exact .rest
    · rw [if_neg hclean, if_neg hclean]
      exact .enterRoot (Bool.eq_false_iff.mpr hclean)
  | visiting stack =>
    rw [hpoint] at hfailed hlisteners
    cases stack with
    | nil =>
      rw [scene, call?, enters?, hpoint]
      exact .rest
    | cons v below =>
      rw [scene, hpoint]
      refine move_visitOn hpoint (fun l hl => hlisteners l ?_) hr hfailed
      exact List.mem_flatMap.mpr ⟨v, List.mem_cons_self, hl⟩
  | closing rest =>
    rw [hpoint] at hfailed hlisteners
    rw [scene, call?, enters?, hpoint]
    cases rest with
    | nil => exact .rest
    | cons l rest =>
      obtain ⟨u, hscene, hu, hlater⟩ := later_call (hlisteners l List.mem_cons_self) hr hfailed
      dsimp only at hscene ⊢
      rw [hscene]
      exact .whole hu hlater
  | finished =>
    rw [call?, enters?, hpoint]
    dsimp only
    rw [scene, hpoint]
    exact .rest
  | failed e =>
    rw [hpoint] at hfailed
    exact absurd ⟨e, hpoint⟩ hfailed

/-! ### Runs -/

/-- Calling a listener brings up no new ones. -/
theorem call_listeners {l : Listener σ} {node : NodeId} {next : RunPoint σ} {m : Listener σ}
    (hm : m ∈ (r.call p l node next).point.listeners) : m ∈ next.listeners := by
  unfold call at hm
  split at hm
  · exact hm
  · exact absurd hm List.not_mem_nil

theorem listeners_visitOn {m : Listener σ} (hm : m ∈ (r.visitOn p v below).point.listeners) :
    m ∈ (v :: below).flatMap Visit.visitors ∨
      ∃ key, m ∈ Plugin.listeners p.plugins (.visit key) := by
  rw [List.flatMap_cons, List.mem_append]
  have hcons : ∀ v' : Visit σ, m ∈ (v' :: below).flatMap Visit.visitors →
      m ∈ v'.visitors ∨ m ∈ below.flatMap Visit.visitors := by
    intro v' hv'
    rwa [List.flatMap_cons, List.mem_append] at hv'
  rw [visitOn] at hm
  split_ifs at hm
  · cases hvisitors : v.visitors with
    | cons l visitors =>
      rw [hvisitors] at hm
      exact Or.inl ((hcons _ (call_listeners hm)).imp_left (List.mem_cons_of_mem l))
    | nil =>
      rw [← hvisitors]
      rw [hvisitors] at hm
      cases hcursor : v.cursor with
      | some k =>
        rw [hcursor] at hm
        dsimp only at hm
        rw [nextChild] at hm
        split at hm
        · exact Or.inl (hcons _ hm)
        · dsimp only at hm
          split_ifs at hm
          · exact Or.inl (hcons _ hm)
          · -- A visit that begins has nothing to call before its first event.
            refine Or.inl (hcons v ?_)
            have hm : m ∈ (Visit.ofNode _ _ :: v :: below).flatMap Visit.visitors := hm
            rw [List.flatMap_cons] at hm
            exact hm
      | none =>
        rw [hcursor] at hm
        dsimp only at hm
        rw [nextStep] at hm
        split at hm
        · exact Or.inl (Or.inr hm)
        · split_ifs at hm
          · exact Or.inl (hcons _ hm)
          · split at hm <;> exact Or.inl (hcons _ hm)
        · exact (hcons _ hm).elim (fun h => Or.inr ⟨_, h⟩) fun h => Or.inl (Or.inr h)
  · refine Or.inl (Or.inr ?_)
    rw [abandon] at hm
    cases hcursor : v.cursor with
    | none => rw [hcursor] at hm; exact hm
    | some k => rw [hcursor] at hm; exact hm

/-- All callbacks that a run is about to call come from its plugins. -/
theorem listeners_step {m : Listener σ} (hm : m ∈ (r.step p).point.listeners) :
    m ∈ r.point.listeners ∨ ∃ hook, m ∈ Plugin.listeners p.plugins hook := by
  unfold step at hm
  cases hpoint : r.point with
  | opening rest =>
    rw [hpoint] at hm
    cases rest with
    | nil =>
      dsimp only at hm
      split_ifs at hm <;> exact absurd hm List.not_mem_nil
    | cons l rest => exact Or.inl (List.mem_cons_of_mem _ (call_listeners hm))
  | settling =>
    rw [hpoint] at hm
    dsimp only at hm
    split_ifs at hm
    -- Fresh listeners appear in two places: at the end, and where an event is announced.
    · exact Or.inr ⟨.atEnd, hm⟩
    · rcases List.mem_flatMap.mp hm with ⟨v, hv, hm⟩
      rw [List.mem_singleton.mp hv] at hm
      exact absurd hm List.not_mem_nil
  | visiting stack =>
    rw [hpoint] at hm
    cases stack with
    | nil => exact absurd hm List.not_mem_nil
    | cons v below =>
      rcases listeners_visitOn hm with hm | ⟨key, hm⟩
      · exact Or.inl hm
      · exact Or.inr ⟨.visit key, hm⟩
  | closing rest =>
    rw [hpoint] at hm
    cases rest with
    | nil => exact absurd hm List.not_mem_nil
    | cons l rest => exact Or.inl (List.mem_cons_of_mem _ (call_listeners hm))
  | finished =>
    rw [hpoint] at hm
    dsimp only at hm
    rw [hpoint] at hm
    exact absurd hm List.not_mem_nil
  | failed e =>
    rw [hpoint] at hm
    dsimp only at hm
    rw [hpoint] at hm
    exact absurd hm List.not_mem_nil

/-- All listeners in a run are callbacks of its plugins. -/
theorem usesApi_step (hp : p.UsesApi) (h : ∀ l ∈ r.point.listeners, l.callback.UsesApi) :
    ∀ l ∈ (r.step p).point.listeners, l.callback.UsesApi := by
  intro m hm
  rcases listeners_step hm with hm | ⟨hook, hm⟩
  · exact h m hm
  · exact hp.listener hm

theorem hasFailed_step (h : r.HasFailed) : (r.step p).HasFailed := by
  obtain ⟨e, he⟩ := h
  refine ⟨e, ?_⟩
  unfold step
  rw [he]
  exact he

/-- A run that is over stays as it is. -/
theorem step_of_isOver (h : r.isOver = true) : r.step p = r := by
  unfold isOver at h
  unfold step
  cases hpoint : r.point with
  | finished => rfl
  | failed e => rfl
  | _ => rw [hpoint] at h; cases h

/-- One more step of a run is a step of where it got to. -/
theorem go_succ (n : Nat) (r : PluginRun σ) : r.go p (n + 1) = (r.go p n).step p := by
  induction n generalizing r with
  | zero =>
    rw [go, go, go]
    split_ifs with hover
    · exact (step_of_isOver hover).symm
    · rfl
  | succ n ih =>
    rw [go]
    by_cases hover : r.isOver = true
    · rw [if_pos hover, go, if_pos hover, step_of_isOver hover]
    · rw [if_neg hover, ih, go, if_neg hover]

end PluginRun

end Stylesheet
