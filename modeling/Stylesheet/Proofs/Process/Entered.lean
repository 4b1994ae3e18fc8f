import Stylesheet.Process.Result
import Stylesheet.Proofs.Process.Tended

/-!
# All nodes are visited

Passes over the tree end when the root counts as visited. `PluginRun.entered_of_hasSettled` shows
that by then every node below the root counts as visited and was entered during the run: a visit of
it began, and all callbacks for entering it were called for it since. This holds whatever nodes the
callbacks insert, move or take out meanwhile, and wherever the run is then.
-/

namespace Stylesheet

open Stylesheet.Tree

variable {σ : Type} {p : Program σ} {r : PluginRun σ}

/-! ### What a run starts with -/

/-- A tree that is given is orderly. -/
def ProcessInput.Orderly : ProcessInput → Prop
  | .text _ => True
  | .tree t => t.Orderly
  | .result r => r.tree.Orderly

theorem Tree.Orderly.markTreeDirty {t : Tree} (ht : t.Orderly) (id : NodeId) :
    (t.markTreeDirty id).Orderly where
  consistent := ht.consistent.of_links_eq (links_markTreeDirty t id)
  rooted := by
    rw [kind?_eq_links, links_markTreeDirty, ← kind?_eq_links]
    exact ht.rooted
  numbered := (tame_markTreeDirty t id).numbered ht.numbered

/-- When all is marked, nothing counts as visited. -/
theorem Tree.Orderly.not_isClean_markTreeDirty {t : Tree} (ht : t.Orderly) {x : NodeId}
    (hx : (t.markTreeDirty rootId).Attached x) : (t.markTreeDirty rootId).isClean x = false := by
  rw [attached_congr (links_markTreeDirty t rootId)] at hx
  refine Bool.eq_false_iff.mpr fun hclean => ?_
  exact (isClean_markTreeDirty_iff.mp hclean).2 (ht.consistent.mem_shape_iff.mpr hx)

/-- A run starts with an orderly tree in which nothing counts as visited. -/
theorem ProcessInput.Orderly.prepare {input : ProcessInput} (hinput : input.Orderly)
    {w : Workspace} {options : ProcessOptions} {before : Result}
    (h : (input.prepare w options).1 = .ok before) :
    before.tree.Orderly ∧ ∀ x, before.tree.Attached x → before.tree.isClean x = false := by
  -- Each kind of input comes with all marks off: a text is new, the others are unmarked.
  cases input with
  | text css =>
    have hparse : (parse w css options.forParsing).1.map
        (fun t => ({ tree := t, options } : Result)) = .ok before := h
    cases hparsed : (parse w css options.forParsing).1 with
    | error e => rw [hparsed] at hparse; cases hparse
    | ok t =>
      rw [hparsed] at hparse
      cases hparse
      exact ⟨orderly_of_parse hparsed, fun x _ => not_isClean_of_parse hparsed x⟩
  | tree t =>
    cases h
    exact ⟨Orderly.markTreeDirty hinput rootId, fun x => Orderly.not_isClean_markTreeDirty hinput⟩
  | result r =>
    have hmap : (r.mapText w.packages).map (fun map =>
        ({ tree := r.tree.markTreeDirty rootId, options := options.carryMap map } : Result)) =
          .ok before := h
    cases htext : r.mapText w.packages with
    | error e => rw [htext] at hmap; cases hmap
    | ok map =>
      rw [htext] at hmap
      cases hmap
      exact ⟨Orderly.markTreeDirty hinput rootId,
        fun x => Orderly.not_isClean_markTreeDirty hinput⟩

/-! ### Entered nodes -/

/-- A node that is entered is there. -/
theorem Move.exists_content? {s s' : Scene σ} {call : Option (Listener σ × NodeId)} {x : NodeId}
    (hs : s.tree.Orderly) (hmove : Move p s call (some x) s') :
    ∃ c, s.tree.content? x = some c := by
  have hcontains : s.tree.contains x = true := by
    cases hmove with
    | enterRoot hdirty =>
      obtain ⟨n, hn, -⟩ := Option.map_eq_some_iff.mp hs.rooted
      rw [Tree.contains, hn]
      rfl
    | enter hvisitors hcursor hchild hdirty =>
      exact hs.consistent.contains _ x (List.mem_of_getElem? (cursorChild?_eq_some.mp hchild).2)
  obtain ⟨n, hn⟩ := Option.isSome_iff_exists.mp hcontains
  exact ⟨n.content, by rw [content?, hn]; rfl⟩

namespace PluginRun

/-- Passes over the tree have come to an end. -/
def hasSettled (r : PluginRun σ) : Bool :=
  match r.point with
  | .settling => r.tree.isClean rootId
  | _ => false

/-- In the first `n` steps a visit of the node began, and since then all callbacks for entering the
node were called for it. -/
def Entered (p : Program σ) (r : PluginRun σ) (n : Nat) (x : NodeId) : Prop :=
  ∃ i < n, (r.go p i).enters? = some x ∧ ∃ c, (r.go p i).tree.content? x = some c ∧
    ∀ key ∈ c.events false, ∀ l ∈ Plugin.listeners p.plugins (.visit key),
      ∃ j, i < j ∧ j < n ∧ (r.go p j).call? = some (l, x)

/-- The same of a visit that may be going on: callbacks were called or are still to be called. -/
def Begun (p : Program σ) (r : PluginRun σ) (n : Nat) (x : NodeId) : Prop :=
  ∃ i < n, (r.go p i).enters? = some x ∧ ∃ c, (r.go p i).tree.content? x = some c ∧
    ∀ key ∈ c.events false, ∀ l ∈ Plugin.listeners p.plugins (.visit key),
      (∃ j, i < j ∧ j < n ∧ (r.go p j).call? = some (l, x)) ∨ (r.go p n).scene.Due p x l

/-- A run starts with its invariant, and with no node tended to. -/
theorem sound_of_prepare (hp : p.UsesApi) {input : ProcessInput} (hinput : input.Orderly)
    {w : Workspace} {options : ProcessOptions} {before : Result}
    (hbefore : (input.prepare w options).1 = .ok before) {stage : Stage σ}
    (hstage : stage.desk.tree = before.tree) :
    (start p stage).Sound ∧ ∀ x, ¬ (start p stage).scene.Tended x := by
  obtain ⟨horderly, hdirty⟩ := hinput.prepare hbefore
  rw [← hstage] at horderly hdirty
  refine ⟨sound_start hp horderly hdirty, fun x hx => ?_⟩
  rcases hx with ⟨hattached, hclean⟩ | ⟨v, below, hvisits, -⟩
  · exact Bool.eq_false_iff.mp (hdirty x hattached) hclean
  · cases hvisits

/-! ### The end of the passes -/

theorem point_of_hasSettled (h : r.hasSettled = true) :
    r.point = .settling ∧ r.tree.isClean rootId = true := by
  unfold hasSettled at h
  cases hpoint : r.point with
  | settling => rw [hpoint] at h; exact ⟨rfl, h⟩
  | _ => rw [hpoint] at h; cases h

/-- No visit is open when a run has settled. -/
theorem visits_of_hasSettled (h : r.hasSettled = true) : r.scene.visits = [] := by
  rw [scene, (point_of_hasSettled h).1]
  rfl

theorem not_hasFailed_of_hasSettled (h : r.hasSettled = true) : ¬ r.HasFailed := by
  rintro ⟨e, he⟩
  rw [(point_of_hasSettled h).1] at he
  cases he

/-- And nothing is due. -/
theorem not_due_of_hasSettled (h : r.hasSettled = true) {x : NodeId} {l : Listener σ} :
    ¬ r.scene.Due p x l := by
  rintro ⟨v, hv, -⟩
  rw [visits_of_hasSettled h] at hv
  exact absurd hv List.not_mem_nil

/-- When passes over the tree have come to an end, every node below the root counts as visited. -/
theorem Sound.isClean_of_hasSettled (hr : r.Sound) (h : r.hasSettled = true) {x : NodeId}
    (hx : r.tree.Attached x) : r.tree.isClean x = true :=
  hr.scene.isClean_of_attached (visits_of_hasSettled h) (point_of_hasSettled h).2 hx

/-! ### Visits that have begun -/

/-- One step keeps that a visit of every node that is tended to has begun. -/
theorem begun_succ {n : Nat} (hr : (r.go p n).Sound)
    (hmove : Move p (r.go p n).scene (r.go p n).call? (r.go p n).enters? (r.go p (n + 1)).scene)
    (ih : ∀ x, (r.go p n).scene.Tended x → Begun p r n x) (x : NodeId)
    (hx : (r.go p (n + 1)).scene.Tended x) : Begun p r (n + 1) x := by
  rcases hmove.tended hr.scene hx with hentered | ⟨hx, hdue, -⟩
  · rw [hentered] at hmove
    obtain ⟨c, hc⟩ := hmove.exists_content? hr.scene.orderly
    exact ⟨n, Nat.lt_succ_self n, hentered, c, hc, fun key hkey l hl =>
      Or.inr (hmove.due_of_entered hc hkey hl)⟩
  · obtain ⟨i, hi, henters, c, hc, hlisteners⟩ := ih x hx
    refine ⟨i, Nat.lt_succ_of_lt hi, henters, c, hc, fun key hkey l hl => ?_⟩
    rcases hlisteners key hkey l hl with ⟨j, hij, hj, hcall⟩ | hl
    · exact Or.inl ⟨j, hij, Nat.lt_succ_of_lt hj, hcall⟩
    · rcases hdue l hl with hl | hcall
      · exact Or.inr hl
      · exact Or.inl ⟨n, hi, Nat.lt_succ_self n, hcall⟩

/-- A visit of every node that is tended to has begun. -/
theorem begun_of_tended (hp : p.UsesApi) (hr : r.Sound) (hstart : ∀ x, ¬ r.scene.Tended x) (n : Nat)
    (hfailed : ¬ (r.go p n).HasFailed) : ∀ x, (r.go p n).scene.Tended x → Begun p r n x :=
  hr.go_induction hp (fun x hx => absurd hx (hstart x)) (fun _ => begun_succ) n hfailed

/-- When passes over the tree have come to an end, every node below the root counts as visited and
was entered. -/
theorem entered_of_hasSettled (hp : p.UsesApi) {input : ProcessInput} (hinput : input.Orderly)
    {w : Workspace} {options : ProcessOptions} {before : Result}
    (hbefore : (input.prepare w options).1 = .ok before) {stage : Stage σ}
    (hstage : stage.desk.tree = before.tree) {n : Nat}
    (hsettled : ((start p stage).go p n).hasSettled = true) {x : NodeId}
    (hx : ((start p stage).go p n).tree.Attached x) :
    ((start p stage).go p n).tree.isClean x = true ∧ Entered p (start p stage) n x := by
  obtain ⟨hr, hstart⟩ := sound_of_prepare hp hinput hbefore hstage
  have hfailed := not_hasFailed_of_hasSettled hsettled
  have hclean := (hr.go hp n hfailed).isClean_of_hasSettled hsettled hx
  obtain ⟨i, hi, henters, c, hc, hlisteners⟩ :=
    begun_of_tended hp hr hstart n hfailed x (Or.inl ⟨hx, hclean⟩)
  refine ⟨hclean, i, hi, henters, c, hc, fun key hkey l hl => ?_⟩
  exact (hlisteners key hkey l hl).resolve_right (not_due_of_hasSettled hsettled)

/-! ### A rule that is put in front of the one that is visited -/

/-- A rule is put into the tree, and another one in front of it when it is visited. -/
def inFront : Program Unit where
  plugins := [{
    name := "in-front"
    once := [.editing fun _ _ => some (.append rootId (rule "a"))]
    hooks := [(.visit (.of .rule false none), .editing fun call t =>
      if t.children rootId = [call.node] then some (.insertBefore call.node (rule "b"))
      else none)] }]
  options := {}
where
  rule (selector : String) : Material :=
    .bag (.node { selector := some selector } none)

theorem usesApi_inFront : inFront.UsesApi := by
  intro q hq c hc
  rw [List.mem_singleton.mp hq] at hc
  rcases List.mem_cons.mp hc with rfl | hc
  · refine Callback.usesApi_editing fun call t e he => ?_
    cases he
    exact ⟨fun m hm => by cases hm; trivial, rfl⟩
  · rw [List.mem_singleton.mp hc]
    dsimp only
    refine Callback.usesApi_editing fun call t e he => ?_
    split_ifs at he
    · cases he
      exact ⟨fun m hm => by cases hm; trivial, rfl⟩
    · cases he

/-- The cursor has passed the place of the new rule, and still it is entered. -/
theorem entered_inFront :
    ((start inFront ⟨⟨Tree.empty.markTreeDirty rootId, {}⟩, [], ()⟩).go inFront 29).hasSettled =
        true ∧
      ((start inFront ⟨⟨Tree.empty.markTreeDirty rootId, {}⟩, [], ()⟩).go inFront 29).tree.children
        rootId = [⟨2⟩, ⟨1⟩] ∧
      Entered inFront (start inFront ⟨⟨Tree.empty.markTreeDirty rootId, {}⟩, [], ()⟩) 29 ⟨2⟩ := by
  have hsettled : ((start inFront ⟨⟨Tree.empty.markTreeDirty rootId, {}⟩, [], ()⟩).go
      inFront 29).hasSettled = true := by decide +kernel
  have hparent : ((start inFront ⟨⟨Tree.empty.markTreeDirty rootId, {}⟩, [], ()⟩).go
      inFront 29).tree.parent? ⟨2⟩ = some rootId := by decide +kernel
  have hinput : (ProcessInput.tree Tree.empty).Orderly := orderly_empty
  have hbefore : ((ProcessInput.tree Tree.empty).prepare {} {}).1 =
      .ok { tree := Tree.empty.markTreeDirty rootId, options := {} } := rfl
  refine ⟨hsettled, by decide +kernel, ?_⟩
  exact (entered_of_hasSettled usesApi_inFront hinput hbefore rfl hsettled (.single hparent)).2

end PluginRun

end Stylesheet
