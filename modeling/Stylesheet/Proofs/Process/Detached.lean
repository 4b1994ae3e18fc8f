import Stylesheet.Proofs.Process.Settled

/-!
# Nodes that are detached while they are visited

A visit is given up when its own node has no parent any more. It goes on when the node was detached
together with one above it, and so do the visits that begin inside of it.

* `Scene.path` are the nodes from the root to the one that is visited innermost.
* `PluginRun.CutOff`: a callback has detached the node of a visit, and the visit goes on.
* `PluginRun.attached_or_cutOff`: this is the only way in which a callback for a node is called when
  the node does not stand below the root.
-/

namespace Stylesheet

open Stylesheet.Tree

variable {σ : Type} {p : Program σ}

/-! ### The way down to the innermost visit -/

namespace Scene

/-- The nodes of the visits that are going on, the outermost first. -/
def path (s : Scene σ) : List NodeId :=
  (s.visits.map Visit.node).reverse

/-- The path is read from the bottom of the stack. -/
theorem path_cons (t : Tree) (v : Visit σ) (below : List (Visit σ)) :
    (⟨t, v :: below⟩ : Scene σ).path = (⟨t, below⟩ : Scene σ).path ++ [v.node] := by
  rw [path, List.map_cons, List.reverse_cons]
  rfl

end Scene

section Moves

variable {s s' : Scene σ} {call : Option (Listener σ × NodeId)} {entered : Option NodeId}

/-- One step keeps the path, or goes one node on, or one back. -/
theorem Move.path_cases (hmove : Move p s call entered s') :
    s'.path = s.path ∨ (∃ c, entered = some c ∧ s'.path = s.path ++ [c]) ∨
      ∃ y, s.path = s'.path ++ [y] := by
  cases hmove with
  | enterRoot hdirty => exact Or.inr (Or.inl ⟨rootId, rfl, rfl⟩)
  | enter hvisitors hcursor hchild hdirty => exact Or.inr (Or.inl ⟨_, rfl, Scene.path_cons _ _ _⟩)
  | abandon hgone => exact Or.inr (Or.inr ⟨_, Scene.path_cons _ _ _⟩)
  | leave hvisitors hcursor hsteps => exact Or.inr (Or.inr ⟨_, Scene.path_cons _ _ _⟩)
  | _ => exact Or.inl rfl

/-- The path stays as it is up to where it still goes. -/
theorem Move.path_getElem? (hmove : Move p s call entered s') {k i : Nat} (hki : k ≤ i)
    (hi : i < s'.path.length) {z : NodeId} (hz : s.path[k]? = some z) : s'.path[k]? = some z := by
  have hk : k < s.path.length := (List.getElem?_eq_some_iff.mp hz).1
  rcases hmove.path_cases with hpath | ⟨c, -, hpath⟩ | ⟨y, hpath⟩
  · rw [hpath, hz]
  · rw [hpath, List.getElem?_append_left hk, hz]
  · rwa [hpath, List.getElem?_append_left (Nat.lt_of_le_of_lt hki hi)] at hz

/-- What is new on the path is the node that is entered, at its end. -/
theorem Move.path_new (hmove : Move p s call entered s') {i : Nat} {y : NodeId}
    (hy : s'.path[i]? = some y) (hold : s.path[i]? ≠ some y) :
    entered = some y ∧ i = s.path.length := by
  have hi : i < s'.path.length := (List.getElem?_eq_some_iff.mp hy).1
  rcases hmove.path_cases with hpath | ⟨c, hentered, hpath⟩ | ⟨z, hpath⟩
  · exact absurd (hpath ▸ hy) hold
  · rw [hpath] at hy
    rw [hpath, List.length_append, List.length_singleton] at hi
    have hle : s.path.length ≤ i := by
      by_contra hlt
      rw [List.getElem?_append_left (Nat.lt_of_not_le hlt)] at hy
      exact hold hy
    obtain rfl : i = s.path.length := Nat.le_antisymm (Nat.le_of_lt_succ hi) hle
    rw [List.getElem?_concat_length] at hy
    exact ⟨hentered.trans hy, rfl⟩
  · rw [hpath, List.getElem?_append_left hi] at hold
    exact absurd hy hold

/-- A node that is entered is the root, or stands in the list of the node that was visited
innermost. -/
theorem Move.entered_cases (hs : s.tree.Consistent) {c : NodeId}
    (hmove : Move p s call (some c) s') :
    c = rootId ∨ ∃ y, s.path.getLast? = some y ∧ s.tree.parent? c = some y := by
  cases hmove with
  | enterRoot hdirty => exact Or.inl rfl
  | @enter t v below k i c hvisitors hcursor hchild hdirty =>
    refine Or.inr ⟨v.node, ?_, ?_⟩
    · rw [Scene.path_cons, List.getLast?_concat]
    · exact hs.listed _ _ (List.mem_of_getElem? (cursorChild?_eq_some.mp hchild).2)

/-- Callbacks keep the path. -/
theorem Move.path_of_call {c : Listener σ × NodeId} (hmove : Move p s (some c) entered s') :
    s'.path = s.path := by
  cases hmove with
  | whole hu hlater => rfl
  | call hvisitors hu hlater => rfl

end Moves

namespace PluginRun

variable {r : PluginRun σ} {m n i k : Nat} {x y z : NodeId}

/-! ### Nodes that were cut off -/

/-- The visit of `y` at place `i` of the path went on from step `m` to step `n`, and in step `m` the
node was detached. -/
structure Cut (p : Program σ) (r : PluginRun σ) (m n i : Nat) (y : NodeId) : Prop where
  lasts : ∀ j, m ≤ j → j ≤ n → (r.go p j).scene.path[i]? = some y
  attached : (r.go p m).tree.Attached y
  detached : ¬ (r.go p (m + 1)).tree.Attached y

/-- In step `m` a callback has detached the node `y` of a visit, which goes on up to step `n`. If
the callback was called for `y` itself, `y` has kept a parent. -/
structure CutOff (p : Program σ) (r : PluginRun σ) (m n i : Nat) (y : NodeId) : Prop
    extends Cut p r m n i y where
  called : (r.go p m).call?.isSome = true
  unnoticed : (r.go p m).scene.path.length = i + 1 →
    ((r.go p (m + 1)).tree.parent? y).isSome = true

/-- A node that was cut off still is, as long as the path goes to it. -/
theorem Cut.succ (h : Cut p r m n k z) (hm : m < n) {call : Option (Listener σ × NodeId)}
    {entered : Option NodeId}
    (hmove : Move p (r.go p n).scene call entered (r.go p (n + 1)).scene) (hk : k ≤ i)
    (hi : i < (r.go p (n + 1)).scene.path.length) : Cut p r m (n + 1) k z where
  lasts := by
    intro j hmj hj
    rcases Nat.le_succ_iff.mp hj with hj | rfl
    · exact h.lasts j hmj hj
    · exact hmove.path_getElem? hk hi (h.lasts n (Nat.le_of_lt hm) (Nat.le_refl n))
  attached := h.attached
  detached := h.detached

/-- One step keeps that nodes on the path stand below the root or were cut off. -/
theorem cut_succ (hr : (r.go p n).Sound)
    (hmove : Move p (r.go p n).scene (r.go p n).call? (r.go p n).enters? (r.go p (n + 1)).scene)
    (ih : ∀ i y, (r.go p n).scene.path[i]? = some y →
      (r.go p n).tree.Attached y ∨ ∃ m < n, ∃ k ≤ i, ∃ z, Cut p r m n k z) (i : Nat) (y : NodeId)
    (hy : (r.go p (n + 1)).scene.path[i]? = some y) :
    (r.go p (n + 1)).tree.Attached y ∨ ∃ m < n + 1, ∃ k ≤ i, ∃ z, Cut p r m (n + 1) k z := by
  by_cases hattached : (r.go p (n + 1)).tree.Attached y
  · exact Or.inl hattached
  refine Or.inr ?_
  have hi : i < (r.go p (n + 1)).scene.path.length := (List.getElem?_eq_some_iff.mp hy).1
  have hcarry : (∃ m < n, ∃ k ≤ i, ∃ z, Cut p r m n k z) →
      ∃ m < n + 1, ∃ k ≤ i, ∃ z, Cut p r m (n + 1) k z := by
    rintro ⟨m, hm, k, hk, z, hcut⟩
    exact ⟨m, Nat.lt_succ_of_lt hm, k, hk, z, hcut.succ hm hmove hk hi⟩
  by_cases hold : (r.go p n).scene.path[i]? = some y
  · by_cases hbefore : (r.go p n).tree.Attached y
    · refine ⟨n, Nat.lt_succ_self n, i, Nat.le_refl i, y, fun j hnj hj => ?_, hbefore, hattached⟩
      rcases Nat.le_succ_iff.mp hj with hj | rfl
      · rwa [Nat.le_antisymm hj hnj]
      · exact hy
    · exact hcarry ((ih i y hold).resolve_left hbefore)
  · -- The visit begins with this step, so it is the one around it that was cut off.
    obtain ⟨hentered, hlast⟩ := hmove.path_new hy hold
    rw [hentered] at hmove
    have hlinks := (hmove.call_eq_none ▸ hmove).links_eq
    replace hattached : ¬ (r.go p n).tree.Attached y :=
      fun h => hattached ((attached_congr hlinks y).mpr h)
    rcases hmove.entered_cases hr.scene.orderly.consistent with rfl | ⟨z, hz, hparent⟩
    · exact absurd .refl hattached
    · have hz' : (r.go p n).scene.path[i - 1]? = some z := by
        rw [hlast, ← List.getLast?_eq_getElem?, hz]
      obtain ⟨m, hm, k, hk, w, hcut⟩ := (ih (i - 1) z hz').resolve_left
        fun hup => hattached (Relation.ReflTransGen.head hparent hup)
      exact hcarry ⟨m, hm, k, Nat.le_trans hk (Nat.sub_le i 1), w, hcut⟩

/-- Nodes on the path stand below the root or were cut off. -/
theorem attached_or_cut (hp : p.UsesApi) (hr : r.Sound) (hstart : r.scene.visits = [])
    (hfailed : ¬ (r.go p n).HasFailed) (hy : (r.go p n).scene.path[i]? = some y) :
    (r.go p n).tree.Attached y ∨ ∃ m < n, ∃ k ≤ i, ∃ z, Cut p r m n k z := by
  have hnone : ∀ i y, r.scene.path[i]? = some y →
      r.tree.Attached y ∨ ∃ m < 0, ∃ k ≤ i, ∃ z, Cut p r m 0 k z := by
    intro i y hy
    rw [Scene.path, hstart] at hy
    cases hy
  exact hr.go_induction hp hnone (fun _ => cut_succ) n hfailed i y hy

/-! ### What goes unnoticed -/

/-- A visit whose node has no parent any more is given up with the next step. -/
theorem step_of_gone (hlast : r.scene.path.getLast? = some y)
    (hgone : canVisit r.tree y = false) :
    r.call? = none ∧ r.scene.path = (r.step p).scene.path ++ [y] := by
  unfold call?
  cases hpoint : r.point with
  -- A path that is not empty belongs to a run in the middle of its visits.
  | visiting stack =>
    rw [scene, hpoint] at hlast
    cases stack with
    | nil => cases hlast
    | cons v below =>
      obtain rfl : v.node = y := by
        rw [RunPoint.visits, Scene.path_cons, List.getLast?_concat] at hlast
        exact Option.some.inj hlast
      dsimp only
      rw [if_neg (Bool.eq_false_iff.mp hgone)]
      refine ⟨rfl, ?_⟩
      have hstep : (r.step p).point = .visiting below := by
        unfold step
        rw [hpoint]
        dsimp only
        rw [visitOn, if_neg (Bool.eq_false_iff.mp hgone), abandon]
        cases v.cursor <;> rfl
      rw [scene, scene, hpoint, hstep]
      exact Scene.path_cons _ _ _
  | _ =>
    rw [scene, hpoint] at hlast
    cases hlast

theorem not_hasFailed_of_call? (h : r.call?.isSome = true) : ¬ r.HasFailed := by
  rintro ⟨e, he⟩
  rw [call?, he] at h
  cases h

/-- A node with a parent is no root, and callbacks do not make it one. -/
theorem kind?_ne_root {t u : Tree} (ht : t.Consistent) {bound : NodeId → Nat}
    (hlater : t.Later bound u) (hx : t.parent? x = some y) : u.kind? x ≠ some .root := by
  obtain ⟨node, hnode⟩ := Option.isSome_iff_exists.mp (contains_of_parent? hx)
  have hkind : t.kind? x = some node.kind := by rw [kind?, hnode]; rfl
  rw [LaterBut.kind hlater x _ hkind, ← hkind]
  exact ht.nested y x (ht.mem_children_iff.mpr hx)

/-- A node that is called although it was cut off has had its path cut above it. -/
theorem Cut.cutOff (hp : p.UsesApi) (hr : r.Sound) (hm : m < n)
    (hcall : (r.go p n).call?.isSome = true) (h : Cut p r m n i y) : CutOff p r m n i y := by
  have hfailed := not_hasFailed_of_call? hcall
  have hsound := hr.go hp m (not_hasFailed_go_of_le (Nat.le_of_lt hm) hfailed)
  have hmove := hr.move_succ hp (not_hasFailed_go_of_le hm hfailed)
  cases hcalled : (r.go p m).call? with
  | none =>
    rw [hcalled] at hmove
    exact absurd ((attached_congr hmove.links_eq y).mpr h.attached) h.detached
  | some c =>
    refine ⟨h, hcalled ▸ rfl, fun hlength => ?_⟩
    rw [hcalled] at hmove
    have hpath := hmove.path_of_call
    have hlast : (r.go p (m + 1)).scene.path.getLast? = some y := by
      rw [List.getLast?_eq_getElem?, hpath, hlength]
      exact h.lasts m (Nat.le_refl m) (Nat.le_of_lt hm)
    by_contra hnone
    -- If the node had also lost its own parent, the next step would leave it without a call.
    have hkind : (r.go p (m + 1)).tree.kind? y ≠ some .root := by
      rcases Relation.ReflTransGen.cases_head h.attached with rfl | ⟨z, hz, -⟩
      · exact absurd .refl h.detached
      · exact kind?_ne_root hsound.scene.orderly.consistent hmove.later hz
    have hgone : canVisit (r.go p (m + 1)).tree y = false := by
      rw [canVisit, Bool.or_eq_false_iff, beq_eq_false_iff_ne]
      exact ⟨hkind, Bool.eq_false_iff.mpr hnone⟩
    obtain ⟨hsilent, hshorter⟩ := step_of_gone (p := p) hlast hgone
    -- Later on the path is too short to hold the node.
    rcases Nat.eq_or_lt_of_le hm with rfl | hlt
    · rw [hsilent] at hcall
      cases hcall
    · have hstill := h.lasts (m + 2) (Nat.le_add_right m 2) hlt
      rw [go_succ] at hstill
      have hlonger := (List.getElem?_eq_some_iff.mp hstill).1
      have hcount := congrArg List.length hshorter
      rw [hpath, hlength, List.length_append] at hcount
      exact absurd hlonger (by rw [List.length_singleton] at hcount; omega)

/-! ### Nodes that are inserted again -/

/-- A node that has no parent at one step and has one later was inserted by a callback. -/
theorem exists_inserted (hp : p.UsesApi) (hr : r.Sound) (hfailed : ¬ (r.go p n).HasFailed)
    (hmn : m ≤ n) (hnone : (r.go p m).tree.parent? x = none)
    (hsome : ((r.go p n).tree.parent? x).isSome = true) :
    ∃ j, m ≤ j ∧ j < n ∧ (r.go p j).call?.isSome = true ∧ (r.go p j).tree.parent? x = none ∧
      ((r.go p (j + 1)).tree.parent? x).isSome = true := by
  -- By induction on the steps, from the last one back: either the node had a parent before it, or
  -- that step gave it one.
  induction hmn with
  | refl => rw [hnone] at hsome; cases hsome
  | @step n hmn ih =>
    have hbefore := not_hasFailed_go_of_le (Nat.le_succ n) hfailed
    cases hparent : (r.go p n).tree.parent? x with
    | some y =>
      obtain ⟨j, hmj, hj, hrest⟩ := ih hbefore (hparent ▸ rfl)
      exact ⟨j, hmj, Nat.lt_succ_of_lt hj, hrest⟩
    | none =>
      refine ⟨n, hmn, Nat.lt_succ_self n, ?_, hparent, hsome⟩
      have hmove := hr.move_succ hp hfailed
      cases hcalled : (r.go p n).call? with
      | some c => rfl
      | none =>
        rw [hcalled] at hmove
        have hsame : (r.go p (n + 1)).tree.parent? x = (r.go p n).tree.parent? x := by
          rw [parent?_eq_links, parent?_eq_links]
          exact congrArg (fun links => (links x).bind Node.Links.parent) hmove.links_eq
        rw [hsame, hparent] at hsome
        cases hsome

/-! ### Callbacks for nodes -/

/-- The node that is called is the last one on the path. -/
theorem path_of_call? {l : Listener σ} (hcall : r.call? = some (l, x))
    (hvisits : r.scene.visits ≠ []) :
    r.scene.path.getLast? = some x ∧ canVisit r.tree x = true := by
  rw [scene] at hvisits ⊢
  unfold call? at hcall
  cases hpoint : r.point with
  | visiting stack =>
    rw [hpoint] at hcall
    cases stack with
    | nil => cases hcall
    | cons v below =>
      dsimp only at hcall
      split_ifs at hcall with hvisit
      obtain ⟨l', -, hl'⟩ := Option.map_eq_some_iff.mp hcall
      obtain rfl : v.node = x := (Prod.mk.inj hl').2
      rw [RunPoint.visits, Scene.path_cons, List.getLast?_concat]
      exact ⟨rfl, hvisit⟩
  | _ => rw [hpoint] at hvisits; exact absurd rfl hvisits

/-- A callback for a node is called when the node stands below the root, unless an earlier callback
has cut off the node or one on the path to it. A node that has no parent is not called for until a
callback inserts it again. -/
theorem attached_or_cutOff (hp : p.UsesApi) {input : ProcessInput} (hinput : input.Orderly)
    {w : Workspace} {options : ProcessOptions} {before : Result}
    (hbefore : (input.prepare w options).1 = .ok before) {stage : Stage σ}
    (hstage : stage.desk.tree = before.tree) {l : Listener σ}
    (hcall : ((start p stage).go p n).call? = some (l, x))
    (hvisits : ((start p stage).go p n).scene.visits ≠ []) :
    (((start p stage).go p n).tree.Attached x ∨
      ∃ m < n, ∃ i y, CutOff p (start p stage) m n i y) ∧
    (((start p stage).go p n).tree.kind? x ≠ some .root → ∀ m < n,
      ((start p stage).go p m).tree.parent? x = none →
      ∃ j, m ≤ j ∧ j < n ∧ ((start p stage).go p j).call?.isSome = true ∧
        ((start p stage).go p j).tree.parent? x = none ∧
        (((start p stage).go p (j + 1)).tree.parent? x).isSome = true) := by
  obtain ⟨hr, -⟩ := sound_of_prepare hp hinput hbefore hstage
  have hcalled : ((start p stage).go p n).call?.isSome = true := by rw [hcall]; rfl
  have hfailed := not_hasFailed_of_call? hcalled
  obtain ⟨hlast, hvisit⟩ := path_of_call? hcall hvisits
  constructor
  · rw [List.getLast?_eq_getElem?] at hlast
    refine (attached_or_cut hp hr rfl hfailed hlast).imp_right ?_
    rintro ⟨m, hm, k, -, z, hcut⟩
    exact ⟨m, hm, k, z, hcut.cutOff hp hr hm hcalled⟩
  · intro hkind m hm hnone
    rw [canVisit, Bool.or_eq_true, beq_iff_eq] at hvisit
    exact exists_inserted hp hr hfailed (Nat.le_of_lt hm) hnone (hvisit.resolve_left hkind)

/-! ### A rule that is taken out from inside -/

/-- The rule around a declaration is taken out when the declaration is entered. -/
def uprooting : Program Unit where
  plugins := [{
    name := "uproot"
    hooks := [(.visit (.of .declaration false none), .editing fun call t =>
        (t.parent? call.node).map .remove),
      (.visit (.of .declaration true none), .editing fun _ _ => none)] }]
  options := {}

/-- A run on a rule with a declaration. In its twelfth step the declaration is left. -/
def uprootingRun : PluginRun Unit :=
  start uprooting ⟨⟨restlessTree, {}⟩, [], ()⟩

theorem usesApi_uprooting : uprooting.UsesApi := by
  intro q hq c hc
  rw [List.mem_singleton.mp hq] at hc
  rcases List.mem_cons.mp hc with rfl | hc
  · dsimp only
    refine Callback.usesApi_editing fun call t e he => ?_
    obtain ⟨y, -, rfl⟩ := Option.map_eq_some_iff.mp he
    exact ⟨fun m hm => absurd hm (Option.not_mem_none m), rfl⟩
  · rw [List.mem_singleton.mp hc]
    exact Callback.usesApi_editing fun call t e he => absurd he (Option.not_mem_none e)

/-- The declaration is gone with its rule when it is called. -/
theorem not_attached_uprooting : ¬ (uprootingRun.go uprooting 12).tree.Attached ⟨2⟩ := by
  have hdeclaration : (uprootingRun.go uprooting 12).tree.parent? ⟨2⟩ = some ⟨1⟩ := by
    decide +kernel
  have hrule : (uprootingRun.go uprooting 12).tree.parent? ⟨1⟩ = none := by decide +kernel
  intro h
  rcases Relation.ReflTransGen.cases_head h with h | ⟨y, hy, h⟩
  · cases h
  · obtain rfl : ⟨1⟩ = y := Option.some.inj (hdeclaration.symm.trans hy)
    rcases Relation.ReflTransGen.cases_head h with h | ⟨z, hz, -⟩
    · cases h
    · cases hrule.symm.trans hz

/-- The callback for leaving the declaration is called when its rule is no longer in the tree. -/
theorem uprooting_called :
    (uprootingRun.go uprooting 12).call?.map Prod.snd = some ⟨2⟩ ∧
      (uprootingRun.go uprooting 12).scene.path = [⟨0⟩, ⟨1⟩, ⟨2⟩] ∧
      (uprootingRun.go uprooting 12).tree.parent? ⟨1⟩ = none ∧
      ¬ (uprootingRun.go uprooting 12).tree.Attached ⟨2⟩ :=
  ⟨by decide +kernel, by decide +kernel, by decide +kernel, not_attached_uprooting⟩

/-- So this call is one of those that the theorem allows. -/
theorem uprooting_cutOff :
    (uprootingRun.go uprooting 12).call?.map Prod.snd = some ⟨2⟩ ∧
      ∃ m < 12, ∃ i y, CutOff uprooting uprootingRun m 12 i y := by
  have hcalled : (uprootingRun.go uprooting 12).call?.map Prod.snd = some ⟨2⟩ := by decide +kernel
  have hpath : (uprootingRun.go uprooting 12).scene.path = [⟨0⟩, ⟨1⟩, ⟨2⟩] := by decide +kernel
  have hvisits : (uprootingRun.go uprooting 12).scene.visits ≠ [] := by
    intro hnil
    rw [Scene.path, hnil] at hpath
    cases hpath
  have hinput : (ProcessInput.text "a\x7bb:c\x7d").Orderly := trivial
  obtain ⟨⟨l, node⟩, hcall, rfl⟩ := Option.map_eq_some_iff.mp hcalled
  refine ⟨hcalled, ?_⟩
  have hplaces := attached_or_cutOff usesApi_uprooting hinput prepare_restlessTree rfl hcall hvisits
  exact hplaces.1.resolve_left not_attached_uprooting

end PluginRun

end Stylesheet
