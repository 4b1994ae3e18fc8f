import Stylesheet.Proofs.Process.Stack

/-!
# No node is left behind

A visited node may have children that are still to be visited, but only while a visit of it is going
on that comes to them: the children are not gone through yet, or the cursor has not passed them
(`Scene.Covered`). Callbacks that edit the tree keep this, for what they touch is marked up to the
root, and they cannot move the cursors of a run.

When no visit is going on and the root counts as visited, so does every node below it
(`Scene.Sound.isClean_of_attached`).

The steps of a run, and the calls that they make, are put together from those of its parts
(`PluginRun.go_add`, `PluginRun.calls_add`). A run that is over stays as it is and makes no more
calls.
-/

namespace Stylesheet

open Stylesheet.Tree

variable {σ : Type}

/-! ### Children that are still to be visited -/

/-- The visit comes to the child `c` yet. -/
def Visit.Awaits (v : Visit σ) (t : Tree) (c : NodeId) : Prop :=
  v.cursor = none ∧ .children ∈ v.steps ∨
    ∃ k i j : Nat, v.cursor = some k ∧ t.cursorIndex? v.node k = some (i : Int) ∧ i ≤ j ∧
      (t.children v.node)[j]? = some c

/-- The children of visited nodes that are still to be visited are awaited. -/
def Scene.Covered (s : Scene σ) : Prop :=
  ∀ x, s.tree.Attached x → s.tree.isClean x = true → ∀ c ∈ s.tree.children x,
    s.tree.isClean c = false → ∃ v ∈ s.visits, v.node = x ∧ v.Awaits s.tree c

/-- A visit awaits a child as long as its node, its cursor and its parts are the same. -/
theorem Visit.Awaits.congr {v w : Visit σ} {t u : Tree} {c : NodeId} (h : v.Awaits t c)
    (hnode : w.node = v.node) (hcursor : w.cursor = v.cursor)
    (hsteps : .children ∈ v.steps → .children ∈ w.steps)
    (hchildren : u.children v.node = t.children v.node)
    (hindex : ∀ k, v.cursor = some k → u.cursorIndex? v.node k = t.cursorIndex? v.node k) :
    w.Awaits u c := by
  rcases h with ⟨hnone, hmem⟩ | ⟨k, i, j, hk, hi, hle, hj⟩
  · exact Or.inl ⟨hcursor.trans hnone, hsteps hmem⟩
  · refine Or.inr ⟨k, i, j, hcursor.trans hk, ?_, hle, ?_⟩
    · rw [hnode, hindex k hk]
      exact hi
    · rw [hnode, hchildren]
      exact hj

/-- An attached node can be visited. -/
theorem PluginRun.canVisit_of_attached {t : Tree} (hroot : t.kind? rootId = some .root)
    {x : NodeId} (hx : t.Attached x) : canVisit t x = true := by
  rw [canVisit, Bool.or_eq_true]
  rcases Relation.ReflTransGen.cases_head hx with rfl | ⟨p, hp, -⟩
  · exact Or.inl (beq_iff_eq.mpr hroot)
  · rw [Under] at hp
    rw [hp]
    exact Or.inr rfl

/-- A step in which the tree keeps all nodes that still count as visited. -/
theorem Scene.Covered.later {t u : Tree} {visits visits' : List (Visit σ)}
    (h : (⟨t, visits⟩ : Scene σ).Covered) (hstacked : (⟨t, visits⟩ : Scene σ).Stacked)
    (hlater : t.Later t.lastCursor u)
    (hvisits : ∀ v ∈ visits, ∃ w ∈ visits', w.node = v.node ∧ w.cursor = v.cursor ∧
      w.steps = v.steps) :
    (⟨u, visits'⟩ : Scene σ).Covered := by
  intro x hattached hclean c hc hdirty
  have hkept := hlater.kept hclean
  rw [hkept.children] at hc
  -- Had the child counted as visited before, it would still do so below a node that was kept.
  have hdirty' : t.isClean c = false := by
    refine Bool.eq_false_iff.mpr fun hclean' => ?_
    rw [hkept.marks c hc hclean'] at hdirty
    cases hdirty
  obtain ⟨v, hv, rfl, hawaits⟩ := h x (hkept.attached hattached) hkept.clean c hc hdirty'
  obtain ⟨w, hw, hnode, hcursor, hsteps⟩ := hvisits v hv
  refine ⟨w, hw, hnode, hawaits.congr hnode hcursor (fun hmem => hsteps ▸ hmem) hkept.children ?_⟩
  exact fun k hk => hkept.cursors k (hstacked.given v hv k hk)

/-- A step of the run itself, which marks at most one more node. -/
theorem Scene.Covered.shift {t u : Tree} {visits visits' : List (Visit σ)} (marked : Option NodeId)
    (h : (⟨t, visits⟩ : Scene σ).Covered) (hlinks : u.links = t.links)
    (hclean : ∀ x, u.isClean x = true ↔
      marked = some x ∧ t.contains x = true ∨ t.isClean x = true)
    (hold : ∀ v ∈ visits, t.Attached v.node → ∀ c ∈ t.children v.node, u.isClean c = false →
      v.Awaits t c → ∃ w ∈ visits', w.node = v.node ∧ w.Awaits u c)
    (hnew : ∀ y, marked = some y → ∀ c ∈ u.children y, u.isClean c = false →
      ∃ w ∈ visits', w.node = y ∧ w.Awaits u c) :
    (⟨u, visits'⟩ : Scene σ).Covered := by
  intro x hattached hx c hc hdirty
  rcases (hclean x).mp hx with ⟨hmarked, -⟩ | hx
  · exact hnew x hmarked c hc hdirty
  · have hdirty' : t.isClean c = false :=
      Bool.eq_false_iff.mpr fun hc' => Bool.eq_false_iff.mp hdirty ((hclean c).mpr (Or.inr hc'))
    have hattached' := (attached_congr hlinks x).mp hattached
    have hc' : c ∈ t.children x := by
      rwa [children_eq_links, ← hlinks, ← children_eq_links]
    obtain ⟨v, hv, rfl, hawaits⟩ := h x hattached' hx c hc' hdirty'
    exact hold v hv hattached' c hc' hdirty hawaits

/-- A step that moves or closes a cursor at most. -/
theorem Scene.Covered.alike {t u : Tree} {visits visits' : List (Visit σ)}
    (h : (⟨t, visits⟩ : Scene σ).Covered) (halike : t.Alike u)
    (hold : ∀ v ∈ visits, t.Attached v.node → ∀ c ∈ t.children v.node, t.isClean c = false →
      v.Awaits t c → ∃ w ∈ visits', w.node = v.node ∧ w.Awaits u c) :
    (⟨u, visits'⟩ : Scene σ).Covered := by
  refine h.shift none halike.links (fun x => ?_) ?_ nofun
  · rw [halike.clean]
    exact ⟨Or.inr, fun hx => hx.elim (fun hx => nomatch hx.1) fun hx => hx⟩
  · intro v hv hattached c hc hdirty
    rw [halike.clean] at hdirty
    exact hold v hv hattached c hc hdirty

section Cursor

variable {t : Tree} {v w : Visit σ} {below : List (Visit σ)} {c : NodeId} {k : Nat}

/-- Visits below keep their cursors when the one on top closes its own. -/
theorem Scene.Stacked.awaits_closeCursor (h : (⟨t, v :: below⟩ : Scene σ).Stacked)
    (hcursor : v.cursor = some k) (hw : w ∈ below) (hawaits : w.Awaits t c) :
    w.Awaits (t.closeCursor v.node k) c := by
  refine hawaits.congr rfl rfl (fun hmem => hmem)
    (congrFun (alike_closeCursor t v.node k).children w.node) fun j hj => ?_
  refine cursorIndex?_closeCursor t ?_
  rintro hsame rfl
  exact (List.pairwise_cons.mp h.apart).1 w hw hsame j hcursor hj

/-- And when it moves it on. -/
theorem Scene.Stacked.awaits_advanceCursor (h : (⟨t, v :: below⟩ : Scene σ).Stacked)
    (hcursor : v.cursor = some k) (hw : w ∈ below) (hawaits : w.Awaits t c) :
    w.Awaits (t.advanceCursor v.node k) c := by
  refine hawaits.congr rfl rfl (fun hmem => hmem)
    (congrFun (alike_advanceCursor t v.node k).children w.node) fun j hj => ?_
  have hne : ¬ (v.node = w.node ∧ j = k) := by
    rintro ⟨hsame, rfl⟩
    exact (List.pairwise_cons.mp h.apart).1 w hw hsame j hcursor hj
  rw [cursorIndex?_advanceCursor]
  simp only [if_neg hne]
  exact Option.map_id'

/-- A visit whose cursor moves on awaits all children it did, but for the one at the cursor. -/
theorem Visit.Awaits.advanceCursor {i : Nat} {d : NodeId} (h : v.Awaits t c)
    (hcursor : v.cursor = some k) (hchild : t.cursorChild? v.node k = some (i, d)) (hne : c ≠ d) :
    v.Awaits (t.advanceCursor v.node k) c := by
  obtain ⟨hindex, hd⟩ := cursorChild?_eq_some.mp hchild
  rcases h with ⟨hnone, -⟩ | ⟨k', i', j, hk, hi, hle, hj⟩
  · rw [hcursor] at hnone
    cases hnone
  · rw [hcursor] at hk
    cases hk
    rw [hindex] at hi
    obtain rfl : i = i' := Int.ofNat.inj (Option.some.inj hi)
    -- The cursor leaves its place, which is not the place of the awaited child.
    have hlt : i ≠ j := by
      rintro rfl
      rw [hd] at hj
      exact hne (Option.some.inj hj).symm
    refine Or.inr ⟨k, i + 1, j, hcursor, ?_, by omega, ?_⟩
    · rw [cursorIndex?_advanceCursor, hindex, Option.map_some, if_pos ⟨rfl, rfl⟩]
      rfl
    · rw [(alike_advanceCursor t v.node k).children]
      exact hj

/-- A visit whose cursor is behind the last child awaits none. -/
theorem Visit.not_awaits_of_end (hcursor : v.cursor = some k)
    (hend : t.cursorChild? v.node k = none) : ¬ v.Awaits t c := by
  rintro (⟨hnone, -⟩ | ⟨k', i, j, hk, hi, hle, hj⟩)
  · rw [hcursor] at hnone
    cases hnone
  · rw [hcursor] at hk
    cases hk
    have hlt : i < (t.children v.node).length :=
      Nat.lt_of_le_of_lt hle (List.getElem?_eq_some_iff.mp hj).1
    have hchild := cursorChild?_eq_some.mpr ⟨hi, List.getElem?_eq_getElem hlt⟩
    rw [hend] at hchild
    cases hchild

/-- A visit with a new cursor awaits all children. -/
theorem Visit.awaits_opened {u : Tree} {steps : List VisitStep} (ht : t.Numbered)
    (hopen : t.openCursor v.node = some (k, u)) (hc : c ∈ u.children v.node) :
    ({ v with steps, cursor := some k } : Visit σ).Awaits u c := by
  obtain ⟨j, hj⟩ := List.mem_iff_getElem?.mp hc
  exact Or.inr ⟨k, 0, j, rfl, cursorIndex?_opened hopen ht, Nat.zero_le j, hj⟩

end Cursor

/-- A visit that begins awaits all children of its node. -/
theorem awaits_ofNode {t : Tree} (ht : t.Consistent) {x c : NodeId} (hc : c ∈ t.children x) :
    (Visit.ofNode t x : Visit σ).Awaits t c :=
  Or.inl ⟨rfl, Visit.children_mem_ofNode (ht.block x (List.ne_nil_of_mem hc))⟩

/-! ### Steps -/

namespace Scene.Covered

variable {t u : Tree} {v : Visit σ} {below : List (Visit σ)} {k : Nat}

/-- The root is visited first, and awaits its children. -/
theorem enterRoot (h : (⟨t, []⟩ : Scene σ).Covered) (ht : t.Consistent) :
    (⟨t.markClean rootId, [.ofNode (t.markClean rootId) rootId]⟩ : Scene σ).Covered := by
  refine h.shift (some rootId) (links_markClean t rootId) (fun x => ?_)
    (fun v hv => absurd hv List.not_mem_nil) fun y hy c hc _ => ?_
  · rw [isClean_markClean_iff, Option.some_inj]
  · cases hy
    exact ⟨_, List.mem_singleton_self _, rfl,
      awaits_ofNode (ht.of_links_eq (links_markClean t rootId)) hc⟩

/-- The node of an abandoned visit is not below the root any more. -/
theorem abandon (h : (⟨t, v :: below⟩ : Scene σ).Covered)
    (hstacked : (⟨t, v :: below⟩ : Scene σ).Stacked) (hroot : t.kind? rootId = some .root)
    (hgone : PluginRun.canVisit t v.node = false) :
    (⟨(v.cursor.map fun k => t.closeCursor v.node k).getD t, below⟩ : Scene σ).Covered := by
  refine h.alike (alike_closeCursor? t v.node v.cursor) fun w hw hattached c hc hdirty hawaits => ?_
  rcases List.mem_cons.mp hw with rfl | hw
  · -- What the visit would have come to is not below the root, and need not be covered.
    rw [PluginRun.canVisit_of_attached hroot hattached] at hgone
    cases hgone
  · refine ⟨w, hw, rfl, ?_⟩
    cases hcursor : v.cursor with
    | none => exact hawaits
    | some k => exact hstacked.awaits_closeCursor hcursor hw hawaits

/-- At the end of a list nothing is awaited in it, so its visit goes on. -/
theorem ascend (h : (⟨t, v :: below⟩ : Scene σ).Covered)
    (hstacked : (⟨t, v :: below⟩ : Scene σ).Stacked) (hcursor : v.cursor = some k)
    (hend : t.cursorChild? v.node k = none) :
    (⟨t.closeCursor v.node k, { v with cursor := none } :: below⟩ : Scene σ).Covered := by
  refine h.alike (alike_closeCursor t v.node k) fun w hw hattached c hc hdirty hawaits => ?_
  rcases List.mem_cons.mp hw with rfl | hw
  · exact absurd hawaits (Visit.not_awaits_of_end hcursor hend)
  · exact ⟨w, List.mem_cons_of_mem _ hw, rfl, hstacked.awaits_closeCursor hcursor hw hawaits⟩

/-- A child that was visited is passed over, and no longer awaited. -/
theorem skip {i : Nat} {d : NodeId} (h : (⟨t, v :: below⟩ : Scene σ).Covered)
    (hstacked : (⟨t, v :: below⟩ : Scene σ).Stacked) (hcursor : v.cursor = some k)
    (hchild : t.cursorChild? v.node k = some (i, d)) (hclean : t.isClean d = true) :
    (⟨t.advanceCursor v.node k, v :: below⟩ : Scene σ).Covered := by
  refine h.alike (alike_advanceCursor t v.node k) fun w hw hattached c hc hdirty hawaits => ?_
  rcases List.mem_cons.mp hw with rfl | hw
  · have hne : c ≠ d := by
      rintro rfl
      rw [hclean] at hdirty
      cases hdirty
    exact ⟨w, List.mem_cons_self, rfl, hawaits.advanceCursor hcursor hchild hne⟩
  · exact ⟨w, List.mem_cons_of_mem _ hw, rfl, hstacked.awaits_advanceCursor hcursor hw hawaits⟩

/-- The child at the cursor is marked as the cursor passes it. -/
theorem enter {i : Nat} {d : NodeId} (h : (⟨t, v :: below⟩ : Scene σ).Covered) (ht : t.Consistent)
    (hstacked : (⟨t, v :: below⟩ : Scene σ).Stacked) (hcursor : v.cursor = some k)
    (hchild : t.cursorChild? v.node k = some (i, d)) :
    (⟨(t.advanceCursor v.node k).markClean d,
      .ofNode ((t.advanceCursor v.node k).markClean d) d :: v :: below⟩ : Scene σ).Covered := by
  have halike := alike_advanceCursor t v.node k
  have hlinks : ((t.advanceCursor v.node k).markClean d).links = t.links := by
    rw [links_markClean, halike.links]
  have hclean : ∀ x, ((t.advanceCursor v.node k).markClean d).isClean x = true ↔
      some d = some x ∧ t.contains x = true ∨ t.isClean x = true := by
    intro x
    rw [isClean_markClean_iff, halike.clean, contains_eq_links, halike.links, ← contains_eq_links,
      Option.some_inj]
  have hkeep : ∀ {w : Visit σ} {c : NodeId}, w.Awaits (t.advanceCursor v.node k) c →
      w.Awaits ((t.advanceCursor v.node k).markClean d) c := by
    intro w c hawaits
    refine hawaits.congr rfl rfl (fun hmem => hmem) ?_ fun j _ => cursorIndex?_markClean _ d _ j
    rw [children_eq_links, links_markClean, ← children_eq_links]
  refine h.shift (some d) hlinks hclean ?_ fun y hy c hc _ => ?_
  · intro w hw hattached c hc hdirty hawaits
    rcases List.mem_cons.mp hw with rfl | hw
    · -- The one child that the cursor passes is marked in the same step.
      have hne : c ≠ d := by
        rintro rfl
        have hcontains := ht.contains w.node c hc
        exact Bool.eq_false_iff.mp hdirty ((hclean c).mpr (Or.inl ⟨rfl, hcontains⟩))
      refine ⟨w, List.mem_cons_of_mem _ List.mem_cons_self, rfl, hkeep ?_⟩
      exact hawaits.advanceCursor hcursor hchild hne
    · refine ⟨w, List.mem_cons_of_mem _ (List.mem_cons_of_mem _ hw), rfl, hkeep ?_⟩
      exact hstacked.awaits_advanceCursor hcursor hw hawaits
  · cases hy
    exact ⟨_, List.mem_cons_self, rfl, awaits_ofNode (ht.of_links_eq hlinks) hc⟩

/-- A visit that has no parts left is left. -/
theorem leave (h : (⟨t, v :: below⟩ : Scene σ).Covered) (hcursor : v.cursor = none)
    (hsteps : v.steps = []) : (⟨t, below⟩ : Scene σ).Covered := by
  refine h.alike (.refl t) fun w hw hattached c hc hdirty hawaits => ?_
  rcases List.mem_cons.mp hw with rfl | hw
  · rcases hawaits with ⟨-, hmem⟩ | ⟨k, i, j, hk, -⟩
    · rw [hsteps] at hmem
      exact absurd hmem List.not_mem_nil
    · rw [hcursor] at hk
      cases hk
  · exact ⟨w, hw, rfl, hawaits⟩

/-- A node is marked again when its children are gone through, and all of them are ahead then. -/
theorem descend {steps : List VisitStep} (h : (⟨t, v :: below⟩ : Scene σ).Covered)
    (hnumbered : t.Numbered) (hstacked : (⟨t, v :: below⟩ : Scene σ).Stacked)
    (hopen : (t.markClean v.node).openCursor v.node = some (k, u)) :
    (⟨u, { v with steps, cursor := some k } :: below⟩ : Scene σ).Covered := by
  have halike := alike_openCursor hopen
  have hlinks : u.links = t.links := by rw [halike.links, links_markClean]
  have hchildren : ∀ x, u.children x = t.children x := fun x => by
    rw [children_eq_links, hlinks, ← children_eq_links]
  -- The cursor opens in front of all children, so each of them is awaited, dirty or not.
  have hnew : ∀ c ∈ u.children v.node, ({ v with steps, cursor := some k } : Visit σ).Awaits u c :=
    fun c hc => Visit.awaits_opened (numbered_markClean v.node hnumbered) hopen hc
  refine h.shift (some v.node) hlinks (fun x => ?_) ?_ fun y hy c hc _ => ?_
  · rw [halike.clean, isClean_markClean_iff, Option.some_inj]
  · intro w hw hattached c hc hdirty hawaits
    rcases List.mem_cons.mp hw with rfl | hw
    · exact ⟨_, List.mem_cons_self, rfl, hnew c (hchildren w.node ▸ hc)⟩
    · refine ⟨w, List.mem_cons_of_mem _ hw, rfl, ?_⟩
      refine hawaits.congr rfl rfl (fun hmem => hmem) (hchildren w.node) fun j hj => ?_
      rw [cursorIndex?_openCursor hopen, cursorIndex?_markClean]
      rw [lastCursor_markClean]
      exact hstacked.given w (List.mem_cons_of_mem _ hw) j hj
  · cases hy
    exact ⟨_, List.mem_cons_self, rfl, hnew c hc⟩

/-- Without children there is nothing to await. -/
theorem barren {steps : List VisitStep} (h : (⟨t, v :: below⟩ : Scene σ).Covered)
    (hempty : t.children v.node = []) : (⟨t, { v with steps } :: below⟩ : Scene σ).Covered := by
  refine h.alike (.refl t) fun w hw hattached c hc hdirty hawaits => ?_
  rcases List.mem_cons.mp hw with rfl | hw
  · rw [hempty] at hc
    exact absurd hc List.not_mem_nil
  · exact ⟨w, List.mem_cons_of_mem _ hw, rfl, hawaits⟩

/-- An event is announced before anything is called. -/
theorem announce {steps : List VisitStep} {key : EventKey} {visitors : List (Listener σ)}
    (h : (⟨t, v :: below⟩ : Scene σ).Covered) (hsteps : v.steps = .event key :: steps) :
    (⟨t, { v with steps, visitors } :: below⟩ : Scene σ).Covered := by
  refine h.alike (.refl t) fun w hw hattached c hc hdirty hawaits => ?_
  rcases List.mem_cons.mp hw with rfl | hw
  · refine ⟨_, List.mem_cons_self, rfl, ?_⟩
    refine hawaits.congr rfl rfl (fun hmem => ?_) rfl fun _ _ => rfl
    rw [hsteps] at hmem
    exact (List.mem_cons.mp hmem).resolve_left nofun
  · exact ⟨w, List.mem_cons_of_mem _ hw, rfl, hawaits⟩

end Scene.Covered

/-- The invariant of runs. -/
structure Scene.Sound (s : Scene σ) : Prop where
  orderly : s.tree.Orderly
  stacked : s.Stacked
  covered : s.Covered

/-- No step leaves a child behind. -/
theorem Move.covered {p : Program σ} {s s' : Scene σ} {call : Option (Listener σ × NodeId)}
    {entered : Option NodeId} (hs : s.Sound) (hmove : Move p s call entered s') : s'.Covered := by
  obtain ⟨horderly, hstacked, hcovered⟩ := hs
  -- One case per kind of move; the two calls are all that changes the tree by an edit.
  cases hmove with
  | rest => exact hcovered
  | whole hu hlater => exact hcovered.later hstacked hlater fun v hv => absurd hv List.not_mem_nil
  | call hvisitors hu hlater =>
    refine hcovered.later hstacked hlater fun w hw => ?_
    rcases List.mem_cons.mp hw with rfl | hw
    · exact ⟨_, List.mem_cons_self, rfl, rfl, rfl⟩
    · exact ⟨w, List.mem_cons_of_mem _ hw, rfl, rfl, rfl⟩
  | enterRoot hdirty => exact hcovered.enterRoot horderly.consistent
  | abandon hgone => exact hcovered.abandon hstacked horderly.rooted hgone
  | ascend hvisitors hcursor hend => exact hcovered.ascend hstacked hcursor hend
  | skip hvisitors hcursor hchild hclean => exact hcovered.skip hstacked hcursor hchild hclean
  | enter hvisitors hcursor hchild hdirty =>
    exact hcovered.enter horderly.consistent hstacked hcursor hchild
  | leave hvisitors hcursor hsteps => exact hcovered.leave hcursor hsteps
  | descend hvisitors hcursor hsteps hopen =>
    exact hcovered.descend horderly.numbered hstacked hopen
  | barren hvisitors hcursor hsteps hempty => exact hcovered.barren hempty
  | announce hvisitors hcursor hsteps => exact hcovered.announce hsteps

/-- What one move keeps. -/
theorem Move.sound {p : Program σ} {s s' : Scene σ} {call : Option (Listener σ × NodeId)}
    {entered : Option NodeId} (hs : s.Sound) (hmove : Move p s call entered s') : s'.Sound :=
  ⟨hmove.orderly hs.orderly, hmove.stacked hs.stacked, hmove.covered hs⟩

/-- When no visit is going on and the root was visited, all nodes below it were. -/
theorem Scene.Sound.isClean_of_attached {s : Scene σ} (hs : s.Sound) (hvisits : s.visits = [])
    (hroot : s.tree.isClean rootId = true) {x : NodeId} (hx : s.tree.Attached x) :
    s.tree.isClean x = true := by
  induction hx using Relation.ReflTransGen.head_induction_on with
  | refl => exact hroot
  | @head c y hcy hy ih =>
    have hc : c ∈ s.tree.children y := hs.orderly.consistent.mem_children_iff.mpr hcy
    by_contra hdirty
    obtain ⟨v, hv, -⟩ := hs.covered y hy ih c hc (Bool.eq_false_iff.mpr hdirty)
    rw [hvisits] at hv
    exact absurd hv List.not_mem_nil

/-! ### Runs -/

namespace PluginRun

variable {p : Program σ} {r : PluginRun σ}

/-- The invariant of runs, with callbacks that keep to the rules. -/
structure Sound (r : PluginRun σ) : Prop where
  scene : r.scene.Sound
  usesApi : ∀ l ∈ r.point.listeners, l.callback.UsesApi

/-- A step that does not fail is a move. -/
theorem Sound.move (hr : r.Sound) (hfailed : ¬ (r.step p).HasFailed) :
    Move p r.scene r.call? r.enters? (r.step p).scene :=
  move_step hr.scene.orderly.consistent hr.usesApi hfailed

/-- So it keeps a run sound. -/
theorem Sound.step (hp : p.UsesApi) (hr : r.Sound) (hfailed : ¬ (r.step p).HasFailed) :
    (r.step p).Sound :=
  ⟨(hr.move hfailed).sound hr.scene, usesApi_step hp hr.usesApi⟩

/-- A run that has not failed had not failed before. -/
theorem not_hasFailed_go_of_le {m n : Nat} (hle : m ≤ n) (hfailed : ¬ (r.go p n).HasFailed) :
    ¬ (r.go p m).HasFailed := by
  induction hle with
  | refl => exact hfailed
  | step _ ih =>
    rw [go_succ] at hfailed
    exact ih fun h => hfailed (hasFailed_step h)

/-- Every step of a run that has not failed keeps the invariant. -/
theorem Sound.go (hp : p.UsesApi) (hr : r.Sound) (n : Nat) (hfailed : ¬ (r.go p n).HasFailed) :
    (r.go p n).Sound := by
  induction n with
  | zero => exact hr
  | succ n ih =>
    have hbefore := ih (not_hasFailed_go_of_le (Nat.le_succ n) hfailed)
    rw [go_succ] at hfailed ⊢
    exact hbefore.step hp hfailed

/-- What one step of a run does, told between its two moments. -/
theorem Sound.move_succ (hp : p.UsesApi) (hr : r.Sound) {n : Nat}
    (hfailed : ¬ (r.go p (n + 1)).HasFailed) :
    Move p (r.go p n).scene (r.go p n).call? (r.go p n).enters? (r.go p (n + 1)).scene := by
  have hbefore := hr.go hp n (not_hasFailed_go_of_le (Nat.le_succ n) hfailed)
  rw [go_succ] at hfailed ⊢
  exact hbefore.move hfailed

/-- What is so at the start and is kept by every step is so until the run fails. -/
theorem Sound.go_induction (hp : p.UsesApi) (hr : r.Sound) {P : Nat → Prop} (hstart : P 0)
    (hstep : ∀ n, (r.go p n).Sound →
      Move p (r.go p n).scene (r.go p n).call? (r.go p n).enters? (r.go p (n + 1)).scene →
      P n → P (n + 1))
    (n : Nat) (hfailed : ¬ (r.go p n).HasFailed) : P n := by
  induction n with
  | zero => exact hstart
  | succ n ih =>
    have hbefore := not_hasFailed_go_of_le (Nat.le_succ n) hfailed
    exact hstep n (hr.go hp n hbefore) (hr.move_succ hp hfailed) (ih hbefore)

/-- A run is sound when it starts on a tree without marks. -/
theorem sound_start (hp : p.UsesApi) {stage : Stage σ} (ht : stage.desk.tree.Orderly)
    (hdirty : ∀ x, stage.desk.tree.Attached x → stage.desk.tree.isClean x = false) :
    (start p stage).Sound where
  scene := by
    refine ⟨ht, .nil _, fun x hx hclean => ?_⟩
    rw [show (start p stage).scene.tree.isClean x = false from hdirty x hx] at hclean
    cases hclean
  usesApi := fun _ hl => hp.onceListener hl

end PluginRun

/-! ### Runs in pieces -/

namespace PluginRun

variable {p : Program σ} {r r' : PluginRun σ} {cs cs' : List (Listener σ × NodeId)}

theorem go_add (m n : Nat) (r : PluginRun σ) : r.go p (m + n) = (r.go p m).go p n := by
  induction n with
  | zero => rfl
  | succ n ih => rw [← Nat.add_assoc, go_succ, go_succ, ih]

theorem go_step (n : Nat) (r : PluginRun σ) : (r.step p).go p n = r.go p (n + 1) := by
  rw [Nat.add_comm, go_add, go_succ]
  rfl

/-- The calls of two stretches are those of the first and then of the second. -/
theorem calls_add (m n : Nat) (r : PluginRun σ) :
    calls p (m + n) r = calls p m r ++ calls p n (r.go p m) := by
  induction m generalizing r with
  | zero => rw [Nat.zero_add]; rfl
  | succ m ih => rw [Nat.add_right_comm, calls, ih, calls, List.append_assoc, go_step]

/-- Some steps lead from one moment of a run to another, with these calls. -/
def Leads (p : Program σ) (r : PluginRun σ) (cs : List (Listener σ × NodeId))
    (r' : PluginRun σ) : Prop :=
  ∃ n, r.go p n = r' ∧ calls p n r = cs

theorem Leads.refl (r : PluginRun σ) : Leads p r [] r :=
  ⟨0, rfl, rfl⟩

theorem Leads.trans {r'' : PluginRun σ} (h : Leads p r cs r') (h' : Leads p r' cs' r'') :
    Leads p r (cs ++ cs') r'' := by
  obtain ⟨m, rfl, rfl⟩ := h
  obtain ⟨n, rfl, rfl⟩ := h'
  exact ⟨m + n, go_add m n r, calls_add m n r⟩

/-- One step leads from a run to the next. -/
theorem leads_step (r : PluginRun σ) : Leads p r r.call?.toList (r.step p) :=
  ⟨1, go_succ 0 r, List.append_nil _⟩

/-- A step without a call. -/
theorem leads_silent (hstep : r.step p = r') (hcall : r.call? = none) : Leads p r [] r' := by
  have hleads := leads_step (p := p) r
  rwa [hcall, hstep] at hleads

/-- The run does not fail. -/
def Unfailing (p : Program σ) (r : PluginRun σ) : Prop :=
  ∀ n, ¬ (r.go p n).HasFailed

/-- A run that never fails goes on without failing. -/
theorem Unfailing.leads (h : r.Unfailing p) (hleads : Leads p r cs r') : r'.Unfailing p := by
  obtain ⟨m, rfl, rfl⟩ := hleads
  intro n
  rw [← go_add]
  exact h (m + n)

theorem Unfailing.step (h : r.Unfailing p) : ¬ (r.step p).HasFailed := by
  have hone := h 1
  rwa [go_succ] at hone

/-! ### The end -/

/-- A run that is over calls nothing more. -/
theorem calls_of_isOver (h : r.isOver = true) (n : Nat) : calls p n r = [] := by
  have hcall : r.call? = none := by
    unfold isOver at h
    unfold call?
    cases hpoint : r.point with
    | opening rest | visiting stack | closing rest => rw [hpoint] at h; cases h
    | settling | finished | failed e => rfl
  induction n with
  | zero => rfl
  | succ n ih => rw [calls, step_of_isOver h, ih, hcall, Option.toList_none, List.append_nil]

theorem go_of_isOver (h : r.isOver = true) (n : Nat) : r.go p n = r := by
  cases n with
  | zero => rfl
  | succ n => rw [go, if_pos h]

theorem calls_of_finished (h : r.point = .finished) (n : Nat) : calls p n r = [] :=
  calls_of_isOver (by rw [isOver, h]) n

theorem go_of_finished (h : r.point = .finished) (n : Nat) : r.go p n = r :=
  go_of_isOver (by rw [isOver, h]) n

/-- The run has come to its end. -/
def hasFinished (r : PluginRun σ) : Bool :=
  match r.point with
  | .finished => true
  | _ => false

theorem point_of_hasFinished (h : r.hasFinished = true) : r.point = .finished := by
  unfold hasFinished at h
  cases hpoint : r.point with
  | finished => rfl
  | _ => rw [hpoint] at h; cases h

/-- A run that has finished has not failed before. -/
theorem unfailing_of_hasFinished {n : Nat} (h : (r.go p n).hasFinished = true) :
    r.Unfailing p := by
  replace h := point_of_hasFinished h
  have hfailed : ¬ (r.go p n).HasFailed := by
    rintro ⟨e, he⟩
    rw [h] at he
    cases he
  intro m
  rcases Nat.le_total m n with hle | hle
  · exact not_hasFailed_go_of_le hle hfailed
  · obtain ⟨k, rfl⟩ := Nat.exists_eq_add_of_le hle
    rw [go_add, go_of_finished h]
    exact hfailed

end PluginRun

end Stylesheet
