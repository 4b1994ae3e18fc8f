import Stylesheet.Proofs.Process.Entered

/-!
# What callbacks have seen of a node

A node that changes counts as changed, so that all callbacks for it are called again. There is one
exception: a container that has children is marked as visited when they are gone through, also when
a callback for entering it has changed it just before. Callbacks that were called earlier in this
visit are not called again.

* `PluginRun.Heard`: a callback was called for a node, and the node has not changed since.
* `PluginRun.Missed`: the last change of a node was made while it was entered, and a callback was
  not still to be called then.
* `PluginRun.heard_iff_not_missed`: when passes over the tree have come to an end, this is the only
  way in which a callback for a node has not seen what the node says.
-/

namespace Stylesheet

open Stylesheet.Tree

variable {σ : Type} {p : Program σ} {r : PluginRun σ} {n : Nat} {x : NodeId} {l : Listener σ}

/-! ### Callbacks that are still to be called -/

/-- Only the beginning of a visit makes callbacks still to be called. -/
theorem Move.due_or_entered {s s' : Scene σ} {call : Option (Listener σ × NodeId)}
    {entered : Option NodeId} (hmove : Move p s call entered s') (h : s'.Due p x l) :
    s.Due p x l ∨ entered = some x := by
  -- Going through the moves: a call takes one listener off, entering a node adds some for that
  -- node, and no other move adds any.
  cases hmove with
  | rest => exact Or.inl h
  | whole hu hlater =>
    obtain ⟨v, hv, -⟩ := h
    exact absurd hv List.not_mem_nil
  | @call t u v below m visitors hvisitors hu hlater =>
    obtain ⟨w, hw, rfl, hl⟩ := h
    refine Or.inl ?_
    rcases List.mem_cons.mp hw with rfl | hw
    · refine ⟨v, List.mem_cons_self, rfl, ?_⟩
      rw [Visit.pending, hvisitors, List.cons_append]
      exact List.mem_cons_of_mem _ hl
    · exact ⟨w, List.mem_cons_of_mem _ hw, rfl, hl⟩
  | enterRoot hdirty =>
    obtain ⟨v, hv, rfl, -⟩ := h
    rw [List.mem_singleton.mp hv]
    exact Or.inr rfl
  | abandon hgone =>
    obtain ⟨v, hv, rfl, hl⟩ := h
    exact Or.inl ⟨v, List.mem_cons_of_mem _ hv, rfl, hl⟩
  | ascend hvisitors hcursor hend => exact Or.inl (due_replace h rfl rfl)
  | skip hvisitors hcursor hchild hclean => exact Or.inl (due_replace h rfl rfl)
  | enter hvisitors hcursor hchild hdirty =>
    obtain ⟨v, hv, rfl, hl⟩ := h
    rcases List.mem_cons.mp hv with rfl | hv
    · exact Or.inr rfl
    · exact Or.inl ⟨v, hv, rfl, hl⟩
  | leave hvisitors hcursor hsteps =>
    obtain ⟨v, hv, rfl, hl⟩ := h
    exact Or.inl ⟨v, List.mem_cons_of_mem _ hv, rfl, hl⟩
  | descend hvisitors hcursor hsteps hopen =>
    exact Or.inl (due_replace h rfl (Visit.pending_next hvisitors hsteps hvisitors).symm)
  | barren hvisitors hcursor hsteps hempty =>
    exact Or.inl (due_replace h rfl (Visit.pending_next hvisitors hsteps hvisitors).symm)
  | announce hvisitors hcursor hsteps =>
    exact Or.inl (due_replace h rfl (Visit.pending_next hvisitors hsteps rfl).symm)

/-- A callback that a visit calls was still to be called. -/
theorem Move.due_of_call {s s' : Scene σ} {entered : Option NodeId}
    (hmove : Move p s (some (l, x)) entered s') (hvisits : s.visits ≠ []) : s.Due p x l := by
  cases hmove with
  | whole hu hlater => exact absurd rfl hvisits
  | call hvisitors hu hlater =>
    refine ⟨_, List.mem_cons_self, rfl, ?_⟩
    rw [Visit.pending, hvisitors, List.cons_append]
    exact List.mem_cons_self

namespace PluginRun

/-- In the first `n` steps a visit called the callback for the node, and the node has not changed
since. -/
def Heard (p : Program σ) (r : PluginRun σ) (n : Nat) (l : Listener σ) (x : NodeId) : Prop :=
  ∃ j < n, (r.go p j).call? = some (l, x) ∧ (r.go p j).scene.visits ≠ [] ∧
    ∀ m, j ≤ m → m ≤ n → (r.go p m).tree.content? x = (r.go p n).tree.content? x

/-- The last change of the node was made by a callback for entering it, with the children ahead.
The callback `l` was not still to be called then, and no visit of the node began since. -/
def Missed (p : Program σ) (r : PluginRun σ) (n : Nat) (l : Listener σ) (x : NodeId) : Prop :=
  ∃ j < n, (∃ k, (r.go p j).call? = some (k, x)) ∧ (r.go p j).scene.Entering x ∧
    (r.go p (j + 1)).tree.content? x ≠ (r.go p j).tree.content? x ∧
    (∀ m, j + 1 ≤ m → m ≤ n → (r.go p m).tree.content? x = (r.go p n).tree.content? x) ∧
    (∀ m, j < m → m < n → (r.go p m).enters? ≠ some x) ∧ ¬ (r.go p (j + 1)).scene.Due p x l

/-! ### A callback that has missed a change -/

/-- A listener that missed the last change is not due at the end. -/
theorem not_due_of_missed (hp : p.UsesApi) (hr : r.Sound) (hfailed : ¬ (r.go p n).HasFailed)
    {i j : Nat} (hdue : ¬ (r.go p i).scene.Due p x l) (hij : i ≤ j) (hj : j ≤ n)
    (henters : ∀ m, i ≤ m → m < j → (r.go p m).enters? ≠ some x) :
    ¬ (r.go p j).scene.Due p x l := by
  induction hij with
  | refl => exact hdue
  | @step j hij ih =>
    intro hl
    have hmove := hr.move_succ hp (not_hasFailed_go_of_le hj hfailed)
    rcases hmove.due_or_entered hl with hl | hentered
    · exact ih (Nat.le_of_succ_le hj)
        (fun m him hmj => henters m him (Nat.lt_succ_of_lt hmj)) hl
    · exact henters j hij (Nat.lt_succ_self j) hentered

/-- A callback that was not still to be called when the node last changed has not seen it since. -/
theorem not_heard_of_missed (hp : p.UsesApi) (hr : r.Sound) (hfailed : ¬ (r.go p n).HasFailed)
    (hmissed : Missed p r n l x) : ¬ Heard p r n l x := by
  rintro ⟨j', hj', hcall, hvisits, hsteady⟩
  obtain ⟨j, hj, -, -, hchange, -, henters, hdue⟩ := hmissed
  -- What the callback has seen is the last content, so it was called after the change.
  have hlt : j < j' := by
    by_contra hle
    have hle := Nat.not_lt.mp hle
    have hsame := hsteady j hle (Nat.le_of_lt hj)
    exact hchange ((hsteady (j + 1) (Nat.le_succ_of_le hle) hj).trans hsame.symm)
  have hnot := not_due_of_missed hp hr hfailed hdue hlt (Nat.le_of_lt hj') fun m hm hmj =>
    henters m hm (Nat.lt_trans hmj hj')
  have hmove := hr.move_succ hp (not_hasFailed_go_of_le hj' hfailed)
  rw [hcall] at hmove
  exact hnot (hmove.due_of_call hvisits)

/-! ### A callback that has missed no change -/

/-- The callback has seen what the node says, is still to be called, or has missed it. -/
def Accounted (p : Program σ) (r : PluginRun σ) (n : Nat) (l : Listener σ) (x : NodeId) : Prop :=
  Heard p r n l x ∨ (r.go p n).scene.Due p x l ∨ Missed p r n l x

/-- What has been the same up to now and does not change stays the same. -/
theorem steady_succ {α : Type} {f : Nat → α} {j : Nat} (h : ∀ m, j ≤ m → m ≤ n → f m = f n)
    (hsame : f (n + 1) = f n) : ∀ m, j ≤ m → m ≤ n + 1 → f m = f (n + 1) := by
  intro m hjm hm
  rcases Nat.le_succ_iff.mp hm with hm | rfl
  · rw [h m hjm hm, hsame]
  · rfl

/-- A step that does not change the node. -/
theorem Accounted.succ (h : Accounted p r n l x)
    (hsame : (r.go p (n + 1)).tree.content? x = (r.go p n).tree.content? x)
    (henters : (r.go p n).enters? ≠ some x)
    (hdue : (r.go p n).scene.Due p x l →
      (r.go p (n + 1)).scene.Due p x l ∨ (r.go p n).call? = some (l, x)) :
    Accounted p r (n + 1) l x := by
  rcases h with ⟨j, hj, hcall, hvisits, hsteady⟩ | hl |
    ⟨j, hj, hcall, hentering, hchange, hsteady, hnone, hnot⟩
  · exact Or.inl ⟨j, Nat.lt_succ_of_lt hj, hcall, hvisits, steady_succ hsteady hsame⟩
  · rcases hdue hl with hl' | hcall
    · exact Or.inr (Or.inl hl')
    · obtain ⟨v, hv, -⟩ := hl
      refine Or.inl ⟨n, Nat.lt_succ_self n, hcall, List.ne_nil_of_mem hv, ?_⟩
      exact steady_succ (fun m hnm hmn => by rw [Nat.le_antisymm hmn hnm]) hsame
  · refine Or.inr (Or.inr ⟨j, Nat.lt_succ_of_lt hj, hcall, hentering, hchange,
      steady_succ hsteady hsame, fun m hjm hm => ?_, hnot⟩)
    rcases Nat.lt_succ_iff_lt_or_eq.mp hm with hm | rfl
    · exact hnone m hjm hm
    · exact henters

/-- A step in which the node is changed while it is entered. -/
theorem accounted_of_change {k : Listener σ} (hcall : (r.go p n).call? = some (k, x))
    (hentering : (r.go p n).scene.Entering x)
    (hchange : (r.go p (n + 1)).tree.content? x ≠ (r.go p n).tree.content? x) :
    Accounted p r (n + 1) l x := by
  by_cases hl : (r.go p (n + 1)).scene.Due p x l
  · exact Or.inr (Or.inl hl)
  · refine Or.inr (Or.inr ⟨n, Nat.lt_succ_self n, ⟨k, hcall⟩, hentering, hchange,
      fun m hm hmn => ?_, fun m hm hmn => ?_, hl⟩)
    · rw [Nat.le_antisymm hmn hm]
    · exact absurd hm (Nat.not_lt.mpr (Nat.le_of_lt_succ hmn))

/-- All callbacks for a node are accounted for. -/
def AllAccounted (p : Program σ) (r : PluginRun σ) (n : Nat) (x : NodeId) : Prop :=
  ∀ c, (r.go p n).tree.content? x = some c → ∀ leaving, ∀ key ∈ c.events leaving,
    ∀ l ∈ Plugin.listeners p.plugins (.visit key), Accounted p r n l x

/-- One step keeps that all callbacks for nodes that are tended to are accounted for. -/
theorem allAccounted_succ (hr : (r.go p n).Sound)
    (hmove : Move p (r.go p n).scene (r.go p n).call? (r.go p n).enters? (r.go p (n + 1)).scene)
    (ih : ∀ x, (r.go p n).scene.Tended x → AllAccounted p r n x) (x : NodeId)
    (hx : (r.go p (n + 1)).scene.Tended x) : AllAccounted p r (n + 1) x := by
  intro c hc leaving key hkey l hl
  by_cases hentered : (r.go p n).enters? = some x
  · -- With the visit everything is still to be called, whatever was before.
    rw [hentered] at hmove
    rw [hmove.call_eq_none] at hmove
    exact Or.inr (Or.inl
      (hmove.due_of_entered ((hmove.content?_eq x).symm.trans hc) hkey hl))
  · obtain ⟨htended, hdue, hcontent⟩ := (hmove.tended hr.scene hx).resolve_left hentered
    by_cases hsame : (r.go p (n + 1)).tree.content? x = (r.go p n).tree.content? x
    · have hbefore := ih x htended c (hsame ▸ hc) leaving key hkey l hl
      exact hbefore.succ hsame hentered (hdue l)
    · obtain ⟨hentering, k, hcall⟩ := hcontent.resolve_left hsame
      exact accounted_of_change hcall hentering hsame

/-- All callbacks for nodes that are tended to are accounted for. -/
theorem allAccounted_of_tended (hp : p.UsesApi) (hr : r.Sound) (hstart : ∀ x, ¬ r.scene.Tended x)
    (n : Nat) (hfailed : ¬ (r.go p n).HasFailed) :
    ∀ x, (r.go p n).scene.Tended x → AllAccounted p r n x :=
  hr.go_induction hp (fun x hx => absurd hx (hstart x)) (fun _ => allAccounted_succ) n hfailed

/-- When passes over the tree have come to an end, a callback for a node has seen what the node
says, unless the last change was made while the node was entered, and the callback was not still to
be called then. -/
theorem heard_iff_not_missed (hp : p.UsesApi) {input : ProcessInput} (hinput : input.Orderly)
    {w : Workspace} {options : ProcessOptions} {before : Result}
    (hbefore : (input.prepare w options).1 = .ok before) {stage : Stage σ}
    (hstage : stage.desk.tree = before.tree)
    (hsettled : ((start p stage).go p n).hasSettled = true)
    (hx : ((start p stage).go p n).tree.Attached x) {c : Content}
    (hc : ((start p stage).go p n).tree.content? x = some c) {leaving : Bool} {key : EventKey}
    (hkey : key ∈ c.events leaving) (hl : l ∈ Plugin.listeners p.plugins (.visit key)) :
    Heard p (start p stage) n l x ↔ ¬ Missed p (start p stage) n l x := by
  obtain ⟨hr, hstart⟩ := sound_of_prepare hp hinput hbefore hstage
  have hfailed := not_hasFailed_of_hasSettled hsettled
  have hclean := (hr.go hp n hfailed).isClean_of_hasSettled hsettled hx
  refine ⟨fun hheard hmissed => not_heard_of_missed hp hr hfailed hmissed hheard, fun hnot => ?_⟩
  rcases allAccounted_of_tended hp hr hstart n hfailed x (Or.inl ⟨hx, hclean⟩) c hc leaving key hkey
    l hl with hheard | hdue | hmissed
  · exact hheard
  · exact absurd hdue (not_due_of_hasSettled hsettled)
  · exact absurd hmissed hnot

/-! ### A rule that is changed while it is entered -/

/-- A callback that does nothing. -/
def look : Listener Unit :=
  ⟨"look", .editing fun _ _ => none⟩

/-- A rule is looked at, and then gets another selector. -/
def restless : Program Unit where
  plugins := [
    { name := "look", hooks := [(.visit (.of .rule false none), look.callback)] },
    { name := "edit", hooks := [(.visit (.of .rule false none), .editing fun call t =>
      if t.content? call.node = some (.rule "a") then some (.setSelector call.node "x")
      else none)] }]
  options := {}

/-- The tree of a rule with a declaration. -/
def restlessTree : Tree :=
  match (parse {} "a\x7bb:c\x7d" {}).1 with
  | .ok t => t
  | .error _ => .empty

/-- A run that ends its passes after thirty steps. -/
def restlessRun : PluginRun Unit :=
  start restless ⟨⟨restlessTree, {}⟩, [], ()⟩

/-- The tree of the example, read and prepared. -/
theorem parse_restlessTree : (parse {} "a\x7bb:c\x7d" {}).1 = .ok restlessTree := by
  have hok : (parse {} "a\x7bb:c\x7d" {}).1.isOk = true := by decide +kernel
  rw [restlessTree]
  cases h : (parse {} "a\x7bb:c\x7d" {}).1 with
  | ok t => rfl
  | error e => rw [h] at hok; cases hok

theorem prepare_restlessTree : ((ProcessInput.text "a\x7bb:c\x7d").prepare {} {}).1 =
    .ok { tree := restlessTree, options := {} } := by
  show (parse {} "a\x7bb:c\x7d" {}).1.map _ = _
  rw [parse_restlessTree]
  rfl

theorem usesApi_restless : restless.UsesApi := by
  intro q hq c hc
  rcases List.mem_cons.mp hq with rfl | hq
  · rw [List.mem_singleton.mp hc]
    exact Callback.usesApi_editing fun call t e he => absurd he (Option.not_mem_none e)
  · rw [List.mem_singleton.mp hq] at hc
    rw [List.mem_singleton.mp hc]
    dsimp only
    refine Callback.usesApi_editing fun call t e he => ?_
    split_ifs at he
    · cases he
      exact ⟨fun m hm => absurd hm (Option.not_mem_none m), rfl⟩
    · cases he

/-- No callback is called for the rule after the change. -/
theorem not_heard_look : ¬ Heard restless restlessRun 30 look ⟨1⟩ := by
  rintro ⟨j, hj, hcall, -, hsteady⟩
  have hlast : (restlessRun.go restless 30).tree.content? ⟨1⟩ = some (.rule "x") := by
    decide +kernel
  have hsilent : ∀ j < 30, (restlessRun.go restless j).tree.content? ⟨1⟩ = some (.rule "x") →
      (restlessRun.go restless j).call?.map Prod.snd ≠ some ⟨1⟩ := by decide +kernel
  refine hsilent j hj ?_ (by rw [hcall]; rfl)
  rw [hsteady j (Nat.le_refl j) (Nat.le_of_lt hj), hlast]

/-- The first callback has not seen the new selector when passes come to an end. -/
theorem restless_not_heard :
    (restlessRun.go restless 30).hasSettled = true ∧
      (restlessRun.go restless 30).tree.parent? ⟨1⟩ = some rootId ∧
      (restlessRun.go restless 30).tree.content? ⟨1⟩ = some (.rule "x") ∧
      look ∈ Plugin.listeners restless.plugins (.visit (.of .rule false none)) ∧
      ¬ Heard restless restlessRun 30 look ⟨1⟩ :=
  ⟨by decide +kernel, by decide +kernel, by decide +kernel, List.mem_cons_self, not_heard_look⟩

/-- The rule is marked again by an enter event, and loses the mark when its children are visited. -/
theorem restless_missed :
    (restlessRun.go restless 30).hasSettled = true ∧ Missed restless restlessRun 30 look ⟨1⟩ := by
  have hsettled : (restlessRun.go restless 30).hasSettled = true := by decide +kernel
  have hparent : (restlessRun.go restless 30).tree.parent? ⟨1⟩ = some rootId := by decide +kernel
  have hc : (restlessRun.go restless 30).tree.content? ⟨1⟩ = some (.rule "x") := by decide +kernel
  have hinput : (ProcessInput.text "a\x7bb:c\x7d").Orderly := trivial
  have hkey : EventKey.of .rule false none ∈ (Content.rule "x").events false := List.mem_cons_self
  refine ⟨hsettled, ?_⟩
  by_contra hmissed
  exact not_heard_look ((heard_iff_not_missed usesApi_restless hinput prepare_restlessTree rfl
    hsettled (.single hparent) hc hkey List.mem_cons_self).mpr hmissed)

end PluginRun

end Stylesheet
