import Stylesheet.Proofs.Process.Detached

/-!
# Callbacks that listen for a name

A declaration or an at-rule is announced under its name. Which names are announced, and under which
kind, is settled when the visit of the node begins.

* `PluginRun.CalledFor`: a call is made because of an event. Every call in a visit is made because
  of one (`PluginRun.exists_calledFor`).
* `PluginRun.begun`: a visit that is going on began with a step, and has parts of a visit of the
  node as it was then still ahead.
* `PluginRun.named_iff_not_renamed`: a callback that listens for a name is called for a node that
  had the name when the visit began, and that still has it unless a callback has renamed the node
  since.
-/

namespace Stylesheet

open Stylesheet.Tree

variable {σ : Type} {p : Program σ}

/-! ### Names of nodes -/

/-- The node is of the kind, and has the name up to the case of letters. -/
def Tree.Named (t : Tree) (x : NodeId) (kind : NodeKind) (name : String) : Prop :=
  ∃ c ∈ t.content? x, c.kind = kind ∧ c.eventName?.map Text.lower = some (Text.lower name)

instance (t : Tree) (x : NodeId) (kind : NodeKind) (name : String) :
    Decidable (t.Named x kind name) :=
  inferInstanceAs (Decidable (∃ c ∈ t.content? x, _))

/-- A node is announced under the names that it has, and no others. -/
theorem Content.mem_events_iff {c : Content} {leaving entering : Bool} {kind : NodeKind}
    {name : String} : EventKey.of kind leaving (some name) ∈ c.events entering ↔
      leaving = entering ∧ c.kind = kind ∧
        c.eventName?.map Text.lower = some (Text.lower name) := by
  rw [events, EventKey.of]
  cases c.eventName? with
  | none => simp [EventKey.of]
  | some found =>
    simp only [EventKey.of, Option.map_none, Option.map_some, Option.toList_some, List.mem_cons,
      EventKey.mk.injEq, reduceCtorEq, and_false, List.not_mem_nil, or_false, false_or,
      Option.some.injEq]
    constructor
    · rintro ⟨hkind, hleaving, hname⟩
      exact ⟨hleaving, hkind.symm, hname.symm⟩
    · rintro ⟨hleaving, hkind, hname⟩
      exact ⟨hkind.symm, hleaving, hname.symm⟩

/-- What a visit announces are events of its node. -/
theorem Visit.named_of_mem_ofNode {t : Tree} {x : NodeId} {kind : NodeKind} {leaving : Bool}
    {name : String}
    (h : .event (.of kind leaving (some name)) ∈ (Visit.ofNode t x : Visit σ).steps) :
    t.Named x kind name := by
  rw [ofNode] at h
  cases hget : t.get? x with
  | none =>
    rw [hget] at h
    exact absurd h List.not_mem_nil
  | some n =>
    rw [hget] at h
    have hmem : .event (.of kind leaving (some name)) ∈ n.visitSteps := h
    rw [visitSteps_eq, List.append_assoc, List.mem_append, List.mem_append] at hmem
    -- The steps are the events on the way in, the children, and the events on the way out.
    have hevent : ∃ entering, EventKey.of kind leaving (some name) ∈ n.content.events entering := by
      rcases hmem with hmem | hmem | hmem
      · obtain ⟨key, hkey, heq⟩ := List.mem_map.mp hmem
        exact ⟨false, VisitStep.event.inj heq ▸ hkey⟩
      · split_ifs at hmem
        · cases List.mem_singleton.mp hmem
        · exact absurd hmem List.not_mem_nil
      · obtain ⟨key, hkey, heq⟩ := List.mem_map.mp hmem
        exact ⟨true, VisitStep.event.inj heq ▸ hkey⟩
    obtain ⟨entering, hevent⟩ := hevent
    exact ⟨n.content, by rw [content?, hget]; rfl, (Content.mem_events_iff.mp hevent).2⟩

/-! ### The visits that are going on -/

section Moves

theorem getElem?_reverse_cons {α : Type*} {a b : α} {as : List α} {d : Nat} :
    (a :: as).reverse[d]? = some b ↔ (d = as.length ∧ a = b) ∨ as.reverse[d]? = some b := by
  rw [List.reverse_cons]
  by_cases hd : d < as.reverse.length
  · rw [List.getElem?_append_left hd, or_iff_right]
    rintro ⟨rfl, -⟩
    rw [List.length_reverse] at hd
    exact absurd hd (Nat.lt_irrefl _)
  · rw [List.getElem?_eq_none (Nat.le_of_not_lt hd),
      List.getElem?_append_right (Nat.le_of_not_lt hd), List.length_reverse,
      List.getElem?_singleton]
    rw [List.length_reverse] at hd
    have hiff : d - as.length = 0 ↔ d = as.length := by omega
    simp only [hiff, Option.ite_none_right_eq_some, Option.some.injEq, reduceCtorEq, or_false]

variable {s s' : Scene σ} {call : Option (Listener σ × NodeId)} {entered : Option NodeId}

/-- A visit that is going on after a step began with it, or was going on before, with no fewer parts
still ahead. -/
theorem Move.visit_cases (hmove : Move p s call entered s') {d : Nat} {v : Visit σ}
    (hv : s'.visits.reverse[d]? = some v) :
    (entered = some v.node ∧ d = s.path.length ∧ v = .ofNode s'.tree v.node) ∨
      ∃ u, s.visits.reverse[d]? = some u ∧ u.node = v.node ∧ v.steps <:+ u.steps := by
  have hkept : s.visits.reverse[d]? = some v →
      ∃ u, s.visits.reverse[d]? = some u ∧ u.node = v.node ∧ v.steps <:+ u.steps :=
    fun h => ⟨v, h, rfl, List.suffix_rfl⟩
  -- Most moves keep the stack or replace its top by a visit of the same node with fewer steps left.
  have hreplaced : ∀ {u w : Visit σ} {below : List (Visit σ)}, s.visits = u :: below →
      (w :: below).reverse[d]? = some v → u.node = w.node → w.steps <:+ u.steps →
      ∃ u, s.visits.reverse[d]? = some u ∧ u.node = v.node ∧ v.steps <:+ u.steps := by
    intro u w below hvisits h hnode hsteps
    rcases getElem?_reverse_cons.mp h with ⟨hd, rfl⟩ | h
    · exact ⟨u, by rw [hvisits]; exact getElem?_reverse_cons.mpr (Or.inl ⟨hd, rfl⟩), hnode, hsteps⟩
    · exact hkept (by rw [hvisits]; exact getElem?_reverse_cons.mpr (Or.inr h))
  have hpath : s.path.length = s.visits.length := by
    rw [Scene.path, List.length_reverse, List.length_map]
  cases hmove with
  | rest => exact Or.inr (hkept hv)
  | whole hu hlater => exact Or.inr (hkept hv)
  | skip hvisitors hcursor hchild hclean => exact Or.inr (hkept hv)
  | call hvisitors hu hlater => exact Or.inr (hreplaced rfl hv rfl List.suffix_rfl)
  | ascend hvisitors hcursor hend => exact Or.inr (hreplaced rfl hv rfl List.suffix_rfl)
  | abandon hgone => exact Or.inr (hkept (getElem?_reverse_cons.mpr (Or.inr hv)))
  | leave hvisitors hcursor hsteps =>
    exact Or.inr (hkept (getElem?_reverse_cons.mpr (Or.inr hv)))
  | descend hvisitors hcursor hsteps hopen =>
    exact Or.inr (hreplaced rfl hv rfl (hsteps ▸ List.suffix_cons _ _))
  | barren hvisitors hcursor hsteps hempty =>
    exact Or.inr (hreplaced rfl hv rfl (hsteps ▸ List.suffix_cons _ _))
  | announce hvisitors hcursor hsteps =>
    exact Or.inr (hreplaced rfl hv rfl (hsteps ▸ List.suffix_cons _ _))
  -- The two moves that begin a visit.
  | enterRoot hdirty =>
    rcases getElem?_reverse_cons.mp hv with ⟨hd, rfl⟩ | h
    · exact Or.inl ⟨rfl, hd.trans hpath.symm, rfl⟩
    · exact Or.inr (hkept h)
  | enter hvisitors hcursor hchild hdirty =>
    rcases getElem?_reverse_cons.mp hv with ⟨hd, rfl⟩ | h
    · exact Or.inl ⟨rfl, hd.trans hpath.symm, rfl⟩
    · exact Or.inr (hkept h)

/-- No callbacks are still to be called in the visits around the innermost one. -/
theorem Move.idle (hmove : Move p s call entered s') (hs : ∀ v ∈ s.visits.tail, v.visitors = []) :
    ∀ v ∈ s'.visits.tail, v.visitors = [] := by
  cases hmove with
  | enter hvisitors hcursor hchild hdirty =>
    exact List.forall_mem_cons.mpr ⟨hvisitors, hs⟩
  | abandon hgone => exact fun v hv => hs v (List.mem_of_mem_tail hv)
  | leave hvisitors hcursor hsteps => exact fun v hv => hs v (List.mem_of_mem_tail hv)
  | enterRoot hdirty => exact fun v hv => absurd hv List.not_mem_nil
  | _ => exact hs

/-- Callbacks that are to be called in the innermost visit after a step were announced with the
step, or were to be called before, and one more with them that the step called. -/
theorem Move.visitors_cases (hmove : Move p s call entered s')
    (hidle : ∀ v ∈ s.visits.tail, v.visitors = []) {w : Visit σ} {below : List (Visit σ)}
    (hvisits : s'.visits = w :: below) (hw : w.visitors ≠ []) :
    (∃ v key steps, s.visits = v :: below ∧ v.node = w.node ∧ v.visitors = [] ∧ v.cursor = none ∧
        v.steps = .event key :: steps ∧ w.visitors = Plugin.listeners p.plugins (.visit key)) ∨
      ∃ v l, s.visits = v :: below ∧ v.node = w.node ∧ v.visitors = l :: w.visitors ∧
        call = some (l, w.node) := by
  cases hmove with
  | rest => cases hvisits
  | whole hu hlater => cases hvisits
  | call hvisitors hu hlater =>
    cases hvisits
    exact Or.inr ⟨_, _, rfl, rfl, hvisitors, rfl⟩
  | announce hvisitors hcursor hsteps =>
    cases hvisits
    exact Or.inl ⟨_, _, _, rfl, rfl, hvisitors, hcursor, hsteps, rfl⟩
  -- The visit around one that ends has none to call, nor has one that begins or goes on.
  | abandon hgone =>
    obtain rfl : _ = w :: below := hvisits
    exact absurd (hidle w List.mem_cons_self) hw
  | leave hvisitors hcursor hsteps =>
    obtain rfl : _ = w :: below := hvisits
    exact absurd (hidle w List.mem_cons_self) hw
  | enterRoot hdirty => cases hvisits; exact absurd rfl hw
  | enter hvisitors hcursor hchild hdirty => cases hvisits; exact absurd rfl hw
  | ascend hvisitors hcursor hend => cases hvisits; exact absurd hvisitors hw
  | skip hvisitors hcursor hchild hclean => cases hvisits; exact absurd hvisitors hw
  | descend hvisitors hcursor hsteps hopen => cases hvisits; exact absurd hvisitors hw
  | barren hvisitors hcursor hsteps hempty => cases hvisits; exact absurd hvisitors hw

end Moves

namespace PluginRun

variable {r : PluginRun σ} {n : Nat} {x : NodeId} {l : Listener σ} {key : EventKey}

/-- A visit of a node goes on at place `d` of the path since it began in step `i`. -/
structure BeganAt (p : Program σ) (r : PluginRun σ) (i n d : Nat) (x : NodeId) : Prop where
  entered : (r.go p i).enters? = some x
  depth : (r.go p i).scene.path.length = d
  lasts : ∀ k, i < k → k ≤ n → (r.go p k).scene.path[d]? = some x

/-- Every visit that is going on began, with all parts that are still ahead. -/
theorem begun (hp : p.UsesApi) (hr : r.Sound) (hstart : r.scene.visits = [])
    (hfailed : ¬ (r.go p n).HasFailed) {d : Nat} {v : Visit σ}
    (hv : (r.go p n).scene.visits.reverse[d]? = some v) :
    ∃ i < n, BeganAt p r i n d v.node ∧
      v.steps <:+ (Visit.ofNode (r.go p (i + 1)).tree v.node : Visit σ).steps := by
  induction n generalizing d v with
  | zero =>
    have hv : r.scene.visits.reverse[d]? = some v := hv
    rw [hstart] at hv
    cases hv
  | succ n ih =>
    have hbefore := not_hasFailed_go_of_le (Nat.le_succ n) hfailed
    have hmove := hr.move_succ hp hfailed
    have hpath : (r.go p (n + 1)).scene.path[d]? = some v.node := by
      rw [Scene.path, ← List.map_reverse, List.getElem?_map, hv]
      rfl
    -- The visit began in this step, or it was on the stack before, at the same depth.
    rcases hmove.visit_cases hv with ⟨hentered, hd, hsteps⟩ | ⟨u, hu, hnode, hsuffix⟩
    · refine ⟨n, Nat.lt_succ_self n, ⟨hentered, hd.symm, fun k hnk hk => ?_⟩, ?_⟩
      · rwa [Nat.le_antisymm hk hnk]
      · exact (congrArg Visit.steps hsteps).symm ▸ List.suffix_rfl
    · obtain ⟨i, hi, ⟨hentered, hd, hlasts⟩, hsteps⟩ := ih hbefore hu
      rw [hnode] at hentered hlasts hsteps
      refine ⟨i, Nat.lt_succ_of_lt hi, ⟨hentered, hd, fun k hik hk => ?_⟩, hsuffix.trans hsteps⟩
      rcases Nat.le_succ_iff.mp hk with hk | rfl
      · exact hlasts k hik hk
      · exact hpath

/-! ### Events and calls -/

/-- The event that the next step announces, with its node, if it announces one. -/
def announces? (r : PluginRun σ) : Option (EventKey × NodeId) :=
  match r.point with
  | .visiting (v :: _) =>
    if canVisit r.tree v.node && v.visitors.isEmpty && v.cursor.isNone then
      match v.steps with
      | .event key :: _ => some (key, v.node)
      | _ => none
    else none
  | _ => none

/-- The call in step `n` is made because of an event of the node: the event was announced, and since
then every step has called one of the callbacks for it, one after the other. -/
def CalledFor (p : Program σ) (r : PluginRun σ) (n : Nat) (key : EventKey) (l : Listener σ)
    (x : NodeId) : Prop :=
  (r.go p n).call? = some (l, x) ∧ ∃ j < n, (r.go p j).announces? = some (key, x) ∧
    ∀ k, j + 1 + k ≤ n → (r.go p (j + 1 + k)).call? =
      (Plugin.listeners p.plugins (.visit key))[k]?.map fun l => (l, x)

/-- An event is announced for the node of the innermost visit, as the next part of it. -/
theorem visits_of_announces? (h : r.announces? = some (key, x)) :
    ∃ v below steps, r.scene.visits = v :: below ∧ v.node = x ∧ v.steps = .event key :: steps ∧
      (r.step p).scene.visits =
        { v with steps, visitors := Plugin.listeners p.plugins (.visit key) } :: below := by
  unfold announces? at h
  split at h
  next v below hpoint =>
    split_ifs at h with hsilent
    simp only [Bool.and_eq_true, List.isEmpty_iff, Option.isNone_iff_eq_none] at hsilent
    obtain ⟨⟨hvisit, hvisitors⟩, hcursor⟩ := hsilent
    split at h
    next key' steps hsteps =>
      -- All conditions of an announcement are known here, so the step can be computed.
      obtain ⟨rfl, rfl⟩ := Prod.mk.inj (Option.some.inj h)
      refine ⟨v, below, steps, by rw [scene, hpoint]; rfl, rfl, hsteps, ?_⟩
      show (r.step p).point.visits = _
      unfold step
      rw [hpoint]
      dsimp only
      rw [visitOn, if_pos hvisit, hvisitors]
      dsimp only
      rw [hcursor]
      dsimp only
      rw [nextStep, hsteps]
      dsimp only [moveTo, RunPoint.visits]
      rw [hcursor]
    next => cases h
  next => cases h

/-- An event is announced for the last node on the path, which stays. -/
theorem path_of_announces? (h : r.announces? = some (key, x)) :
    (r.step p).scene.path = r.scene.path ∧ r.scene.path.getLast? = some x := by
  obtain ⟨v, below, steps, hvisits, rfl, -, hstep⟩ := visits_of_announces? (p := p) h
  rw [Scene.path, Scene.path, hstep, hvisits]
  exact ⟨rfl, by rw [List.map_cons, List.reverse_cons, List.getLast?_concat]⟩

/-- The next part of the innermost visit is an event, and its node can be visited. -/
theorem announces?_of_visits {v : Visit σ} {below : List (Visit σ)} {steps : List VisitStep}
    (hvisits : r.scene.visits = v :: below) (hvisit : canVisit r.tree v.node = true)
    (hvisitors : v.visitors = []) (hcursor : v.cursor = none)
    (hsteps : v.steps = .event key :: steps) : r.announces? = some (key, v.node) := by
  rw [announces?]
  cases hpoint : r.point with
  | visiting stack =>
    rw [scene, hpoint] at hvisits
    obtain rfl : stack = v :: below := hvisits
    dsimp only
    rw [hvisit, hvisitors, hcursor, hsteps]
    rfl
  | _ =>
    rw [scene, hpoint] at hvisits
    cases hvisits

/-- Callbacks that are to be called in the innermost visit were announced just now, or one more was
called just now. -/
theorem visitors_step {w : Visit σ} {below' : List (Visit σ)}
    (hmove : Move p r.scene r.call? r.enters? (r.step p).scene)
    (hidle : ∀ v ∈ r.scene.visits.tail, v.visitors = [])
    (hvisits : (r.step p).scene.visits = w :: below') (hw : w.visitors ≠ []) :
    (∃ key, r.announces? = some (key, w.node) ∧
        w.visitors = Plugin.listeners p.plugins (.visit key)) ∨
      ∃ v below l, r.scene.visits = v :: below ∧ v.node = w.node ∧ v.visitors = l :: w.visitors ∧
        r.call? = some (l, w.node) := by
  rcases hmove.visitors_cases hidle hvisits hw with
    ⟨v, key, steps, hv, hnode, hvisitors, hcursor, hsteps, hlisteners⟩ | ⟨v, l, hv, hrest⟩
  · refine Or.inl ⟨key, ?_, hlisteners⟩
    have hpath : r.scene.path = (r.step p).scene.path := by
      rw [Scene.path, Scene.path, hv, hvisits, List.map_cons, List.map_cons, hnode]
    have hlast : r.scene.path.getLast? = some v.node := by
      rw [Scene.path, hv, List.map_cons, List.reverse_cons, List.getLast?_concat]
    -- A visit that is given up would not be there any more.
    have hvisit : canVisit r.tree v.node = true := by
      by_contra hgone
      have hshorter := (step_of_gone (p := p) hlast (Bool.eq_false_iff.mpr hgone)).2
      rw [← hpath] at hshorter
      exact List.cons_ne_nil _ _ (List.self_eq_append_right.mp hshorter)
    rw [announces?_of_visits hv hvisit hvisitors hcursor hsteps, hnode]
  · exact Or.inr ⟨v, below', l, hv, hrest⟩

/-- Callbacks that are to be called in the innermost visit are the last ones for an event that was
announced, and all others for it have been called since. -/
theorem exists_announced (hp : p.UsesApi) (hr : r.Sound) (hstart : r.scene.visits = [])
    (hfailed : ¬ (r.go p n).HasFailed) :
    (∀ v ∈ (r.go p n).scene.visits.tail, v.visitors = []) ∧
      ∀ v below, (r.go p n).scene.visits = v :: below → v.visitors ≠ [] →
        ∃ key j m, n = j + 1 + m ∧ (r.go p j).announces? = some (key, v.node) ∧
          v.visitors = (Plugin.listeners p.plugins (.visit key)).drop m ∧
          ∀ k < m, (r.go p (j + 1 + k)).call? =
            (Plugin.listeners p.plugins (.visit key))[k]?.map fun l => (l, v.node) := by
  induction n with
  | zero =>
    have hnil : (r.go p 0).scene.visits = [] := hstart
    rw [hnil]
    exact ⟨fun v hv => absurd hv List.not_mem_nil, fun v below hv => nomatch hv⟩
  -- A visitor that is due after the step was announced by it, or it is the rest of an earlier
  -- announcement of which one more call has been made.
  | succ n ih =>
    have hbefore := not_hasFailed_go_of_le (Nat.le_succ n) hfailed
    obtain ⟨hidle, hannounced⟩ := ih hbefore
    have hmove := hr.move_succ hp hfailed
    refine ⟨hmove.idle hidle, fun w below' hvisits hw => ?_⟩
    rw [go_succ] at hmove hvisits
    rcases visitors_step hmove hidle hvisits hw with ⟨key, hkey, hvisitors⟩ |
      ⟨v, below, l, hv, hnode, hvisitors, hcall⟩
    · exact ⟨key, n, 0, rfl, hkey, hvisitors, fun k hk => absurd hk (Nat.not_lt_zero k)⟩
    · obtain ⟨key, j, m, rfl, hkey, hdrop, hcalls⟩ :=
        hannounced v below hv (hvisitors ▸ List.cons_ne_nil _ _)
      rw [hnode] at hkey hcalls
      rw [hvisitors] at hdrop
      have hget : (Plugin.listeners p.plugins (.visit key))[m]? = some l := by
        rw [← List.head?_drop, ← hdrop, List.head?_cons]
      refine ⟨key, j, m + 1, rfl, hkey, ?_, fun k hk => ?_⟩
      · rw [← List.tail_drop, ← hdrop, List.tail_cons]
      · rcases Nat.lt_succ_iff_lt_or_eq.mp hk with hk | rfl
        · exact hcalls k hk
        · rw [hcall, hget]
          rfl

/-- A call in a visit is the next one that is to be made for the innermost visit. -/
theorem visit_of_call? (hcall : r.call? = some (l, x)) (hvisits : r.scene.visits ≠ []) :
    ∃ v below, r.scene.visits = v :: below ∧ v.visitors.head? = some l ∧ v.node = x := by
  rw [scene] at hvisits ⊢
  unfold call? at hcall
  cases hpoint : r.point with
  | visiting stack =>
    rw [hpoint] at hcall
    cases stack with
    | nil => cases hcall
    | cons v below =>
      dsimp only at hcall
      split_ifs at hcall
      obtain ⟨l', hl', heq⟩ := Option.map_eq_some_iff.mp hcall
      obtain ⟨rfl, rfl⟩ := Prod.mk.inj heq
      exact ⟨v, below, rfl, hl', rfl⟩
  | _ => rw [hpoint] at hvisits; exact absurd rfl hvisits

/-- Every call in a visit is made because of an event. -/
theorem exists_calledFor (hp : p.UsesApi) (hr : r.Sound) (hstart : r.scene.visits = [])
    (hcall : (r.go p n).call? = some (l, x)) (hvisits : (r.go p n).scene.visits ≠ []) :
    ∃ key, CalledFor p r n key l x := by
  have hfailed := not_hasFailed_of_call? (hcall ▸ rfl : ((r.go p n).call?).isSome = true)
  obtain ⟨v, below, hv, hhead, hnode⟩ := visit_of_call? hcall hvisits
  have hne : v.visitors ≠ [] := by
    rintro hnil
    rw [hnil] at hhead
    cases hhead
  obtain ⟨key, j, m, rfl, hkey, hvisitors, hcalls⟩ :=
    (exists_announced hp hr hstart hfailed).2 v below hv hne
  rw [hnode] at hkey hcalls
  refine ⟨key, hcall, j, Nat.lt_of_lt_of_le (Nat.lt_succ_self j) (Nat.le_add_right _ m), hkey,
    fun k hk => ?_⟩
  rcases Nat.lt_or_eq_of_le (Nat.le_of_add_le_add_left hk) with hk | rfl
  · exact hcalls k hk
  · rw [hcall, ← List.head?_drop, ← hvisitors, hhead]
    rfl

/-- A callback has renamed the node between two steps, so that it did not have the name any more. -/
def Renamed (p : Program σ) (r : PluginRun σ) (i n : Nat) (x : NodeId) (kind : NodeKind)
    (name : String) : Prop :=
  ∃ m, i < m ∧ m < n ∧ (r.go p m).call?.isSome = true ∧ (r.go p m).tree.Named x kind name ∧
    ∀ k, m < k → k ≤ n → ¬ (r.go p k).tree.Named x kind name

/-- A name depends on what the node says. -/
theorem named_congr {t u : Tree} (h : u.content? x = t.content? x) {kind : NodeKind}
    {name : String} : u.Named x kind name ↔ t.Named x kind name := by
  rw [Tree.Named, Tree.Named, h]

/-- Only a callback takes a name away. -/
theorem renamed_of_not_named (hp : p.UsesApi) (hr : r.Sound) (hfailed : ¬ (r.go p n).HasFailed)
    {i : Nat} (hin : i ≤ n) (hsilent : (r.go p i).call? = none) {kind : NodeKind} {name : String}
    (hi : (r.go p i).tree.Named x kind name) (hn : ¬ (r.go p n).tree.Named x kind name) :
    Renamed p r i n x kind name := by
  induction hin with
  | refl => exact absurd hi hn
  | @step n hin ih =>
    have hbefore := not_hasFailed_go_of_le (Nat.le_succ n) hfailed
    by_cases hnamed : (r.go p n).tree.Named x kind name
    -- The name was lost in this step. No silent step does that, so a call was made.
    · have hmove := hr.move_succ hp hfailed
      have hcalled : (r.go p n).call?.isSome = true := by
        by_contra hnone
        rw [Option.not_isSome_iff_eq_none.mp hnone] at hmove
        exact hn ((named_congr (hmove.content?_eq x)).mpr hnamed)
      have hne : i ≠ n := by
        rintro rfl
        rw [hsilent] at hcalled
        cases hcalled
      refine ⟨n, Nat.lt_of_le_of_ne hin hne, Nat.lt_succ_self n, hcalled, hnamed, ?_⟩
      intro k hnk hk
      rwa [Nat.le_antisymm hk hnk]
    · obtain ⟨m, him, hm, hcalled, hbefore', hafter⟩ := ih hbefore hnamed
      refine ⟨m, him, Nat.lt_succ_of_lt hm, hcalled, hbefore', fun k hmk hk => ?_⟩
      rcases Nat.le_succ_iff.mp hk with hk | rfl
      · exact hafter k hmk hk
      · exact hn

/-- The first call because of an event comes right behind the step that announces it. -/
theorem CalledFor.announces?_eq (h : CalledFor p r (n + 1) key l x)
    (hsilent : (r.go p n).call? = none) : (r.go p n).announces? = some (key, x) := by
  obtain ⟨hcall, j, hj, hkey, hcalls⟩ := h
  obtain ⟨m, rfl⟩ := Nat.exists_eq_add_of_le (Nat.le_of_lt_succ hj)
  cases m with
  | zero => exact hkey
  | succ m =>
    rw [show j + (m + 1) = j + 1 + m by omega] at hsilent hcall
    rw [hcalls m (by omega), Option.map_eq_none_iff, List.getElem?_eq_none_iff] at hsilent
    have hnone := hcalls (m + 1) (by omega)
    rw [List.getElem?_eq_none (Nat.le_succ_of_le hsilent), Option.map_none] at hnone
    rw [← Nat.add_assoc, hcall] at hnone
    cases hnone

/-- A call that is made because of an event is one of a callback for it. -/
theorem CalledFor.mem_listeners (h : CalledFor p r n key l x) :
    l ∈ Plugin.listeners p.plugins (.visit key) := by
  obtain ⟨hcall, j, hj, -, hcalls⟩ := h
  obtain ⟨m, rfl⟩ := Nat.exists_eq_add_of_le (Nat.succ_le_of_lt hj)
  obtain ⟨l', hl', heq⟩ := Option.map_eq_some_iff.mp ((hcalls m (Nat.le_refl _)).symm.trans hcall)
  rw [← (Prod.mk.inj heq).1]
  exact List.mem_of_getElem? hl'

/-- The innermost visit stays the same while the callbacks for an event are called. -/
theorem CalledFor.path_eq (hp : p.UsesApi) (hr : r.Sound) (h : CalledFor p r n key l x) :
    ∃ j < n, (r.go p j).announces? = some (key, x) ∧
      ∀ k, j ≤ k → k ≤ n → (r.go p k).scene.path = (r.go p j).scene.path := by
  obtain ⟨hcall, j, hj, hkey, hcalls⟩ := h
  have hfailed := not_hasFailed_of_call? (hcall ▸ rfl : ((r.go p n).call?).isSome = true)
  refine ⟨j, hj, hkey, fun k hjk => ?_⟩
  induction hjk with
  | refl => exact fun _ => rfl
  | @step k hjk ih =>
    intro hk
    have hmove := hr.move_succ hp (not_hasFailed_go_of_le hk hfailed)
    rw [← ih (Nat.le_of_succ_le hk)]
    rcases Nat.eq_or_lt_of_le hjk with rfl | hlt
    · rw [go_succ]
      exact (path_of_announces? hkey).1
    · -- The call in step `n` is a later one for the event, so this step makes one.
      obtain ⟨m, rfl⟩ := Nat.exists_eq_add_of_lt hlt
      obtain ⟨m', rfl⟩ := Nat.exists_eq_add_of_lt hk
      have hlast : (Plugin.listeners p.plugins (.visit key))[m + m' + 1]?.map (fun l => (l, x)) =
          some (l, x) := by
        rw [← hcalls (m + m' + 1) (by omega), ← hcall]
        exact congrArg (fun n => (r.go p n).call?) (by omega)
      obtain ⟨l', hl', -⟩ := Option.map_eq_some_iff.mp hlast
      have hlength := (List.getElem?_eq_some_iff.mp hl').1
      have hthis := hcalls m (by omega)
      rw [List.getElem?_eq_getElem (by omega), Option.map_some,
        show j + 1 + m = j + m + 1 by omega] at hthis
      rw [hthis] at hmove
      exact hmove.path_of_call

/-- A callback is called in a visit because of an event that it was registered for. If the event is
one for a name, the node had the name when the visit began; and it has it now if and only if no
callback has renamed it since. -/
theorem named_iff_not_renamed (hp : p.UsesApi) {input : ProcessInput} (hinput : input.Orderly)
    {w : Workspace} {options : ProcessOptions} {before : Result}
    (hbefore : (input.prepare w options).1 = .ok before) {stage : Stage σ}
    (hstage : stage.desk.tree = before.tree)
    (hcall : ((start p stage).go p n).call? = some (l, x))
    (hvisits : ((start p stage).go p n).scene.visits ≠ []) :
    (∃ key, CalledFor p (start p stage) n key l x ∧
        l ∈ Plugin.listeners p.plugins (.visit key)) ∧
      ∀ kind leaving name, CalledFor p (start p stage) n (.of kind leaving (some name)) l x →
        ∃ i < n, ∃ d, BeganAt p (start p stage) i n d x ∧
          ((start p stage).go p n).scene.path.length = d + 1 ∧
          ((start p stage).go p i).tree.Named x kind name ∧
          (((start p stage).go p n).tree.Named x kind name ↔
            ¬ Renamed p (start p stage) i n x kind name) := by
  obtain ⟨hr, -⟩ := sound_of_prepare hp hinput hbefore hstage
  have hfailed := not_hasFailed_of_call?
    (hcall ▸ rfl : (((start p stage).go p n).call?).isSome = true)
  obtain ⟨key, hkey⟩ := exists_calledFor hp hr rfl hcall hvisits
  refine ⟨⟨key, hkey, hkey.mem_listeners⟩, fun kind leaving name hfor => ?_⟩
  -- The event was announced in step `j`, in a visit that began in step `i`.
  obtain ⟨j, hj, hkey, hpath⟩ := hfor.path_eq hp hr
  obtain ⟨v, below, steps, hv, rfl, hsteps, -⟩ := visits_of_announces? (p := p) hkey
  have hv' : ((start p stage).go p j).scene.visits.reverse[below.length]? = some v := by
    rw [hv]
    exact getElem?_reverse_cons.mpr (Or.inl ⟨rfl, rfl⟩)
  obtain ⟨i, hi, hbegan, hsuffix⟩ :=
    begun hp hr rfl (not_hasFailed_go_of_le (Nat.le_of_lt hj) hfailed) hv'
  have hin := Nat.lt_trans hi hj
  have hmove := hr.move_succ hp (not_hasFailed_go_of_le hin hfailed)
  rw [hbegan.entered] at hmove
  have hsilent := hmove.call_eq_none
  rw [hsilent] at hmove
  have hmem : .event (.of kind leaving (some name)) ∈
      (Visit.ofNode ((start p stage).go p (i + 1)).tree v.node : Visit σ).steps :=
    hsuffix.mem (hsteps ▸ List.mem_cons_self)
  -- The parts of a visit are those for the name that the node has when the visit begins.
  have hnamed : ((start p stage).go p i).tree.Named v.node kind name :=
    (named_congr (hmove.content?_eq v.node)).mp (Visit.named_of_mem_ofNode hmem)
  refine ⟨i, hin, below.length, ⟨hbegan.entered, hbegan.depth, fun k hik hk => ?_⟩, ?_, hnamed,
    fun hn ⟨m, _, hm, _, _, hafter⟩ => hafter n hm (Nat.le_refl n) hn, fun hnot => ?_⟩
  · rcases Nat.le_total k j with hkj | hjk
    · exact hbegan.lasts k hik hkj
    · rw [hpath k hjk hk]
      exact hbegan.lasts j hi (Nat.le_refl j)
  · rw [hpath n (Nat.le_of_lt hj) (Nat.le_refl n), Scene.path, hv, List.length_reverse,
      List.length_map, List.length_cons]
  · by_contra hn
    exact hnot (renamed_of_not_named hp hr hfailed (Nat.le_of_lt hin) hsilent hnamed hn)

/-! ### A declaration that is renamed between two callbacks -/

/-- The property of a declaration is changed when it is entered. A plugin behind listens for
declarations of the property `b`. -/
def relabeling : Program Unit where
  plugins := [
    { name := "edit", hooks := [(.visit (.of .declaration false none), .editing fun call _ =>
      some (.setProp call.node "x"))] },
    { name := "look", hooks := [(.visit (.of .declaration false (some "b")), look.callback)] }]
  options := {}

/-- A run on a rule with a declaration of `b`. -/
def relabelingRun : PluginRun Unit :=
  start relabeling ⟨⟨restlessTree, {}⟩, [], ()⟩

/-- The two callbacks of the example use the API. -/
theorem usesApi_relabeling : relabeling.UsesApi := by
  intro q hq c hc
  rcases List.mem_cons.mp hq with rfl | hq
  · rw [List.mem_singleton.mp hc]
    dsimp only
    refine Callback.usesApi_editing fun call t e he => ?_
    obtain rfl := Option.some.inj he
    exact ⟨fun m hm => absurd hm (Option.not_mem_none m), rfl⟩
  · rw [List.mem_singleton.mp hq] at hc
    rw [List.mem_singleton.mp hc]
    exact Callback.usesApi_editing fun call t e he => absurd he (Option.not_mem_none e)

theorem visits_relabeling : (relabelingRun.go relabeling 11).scene.visits ≠ [] := by
  intro hnil
  have hpath : (relabelingRun.go relabeling 11).scene.path = [⟨0⟩, ⟨1⟩, ⟨2⟩] := by decide +kernel
  rw [Scene.path, hnil] at hpath
  cases hpath

/-- The second plugin is called for the name that the declaration had. -/
theorem calledFor_relabeling :
    ∃ l, CalledFor relabeling relabelingRun 11 (.of .declaration false (some "b")) l ⟨2⟩ := by
  have hcalled : (relabelingRun.go relabeling 11).call?.map Prod.snd = some ⟨2⟩ := by
    decide +kernel
  have hkey : (relabelingRun.go relabeling 10).announces? =
      some (.of .declaration false (some "b"), ⟨2⟩) := by decide +kernel
  have hsilent : (relabelingRun.go relabeling 10).call?.map Prod.snd = none := by decide +kernel
  have hinput : (ProcessInput.text "a\x7bb:c\x7d").Orderly := trivial
  have hsound : relabelingRun.Sound :=
    (sound_of_prepare usesApi_relabeling hinput prepare_restlessTree rfl).1
  obtain ⟨⟨l, node⟩, hcall, rfl⟩ := Option.map_eq_some_iff.mp hcalled
  obtain ⟨key, hfor⟩ := exists_calledFor usesApi_relabeling hsound rfl hcall visits_relabeling
  have hlast := hfor.announces?_eq (Option.map_eq_none_iff.mp hsilent)
  rw [hkey] at hlast
  exact ⟨l, (Prod.mk.inj (Option.some.inj hlast)).1 ▸ hfor⟩

/-- The callback for declarations of `b` is called for a declaration that has another property. -/
theorem relabeling_not_named :
    (∃ l, CalledFor relabeling relabelingRun 11 (.of .declaration false (some "b")) l ⟨2⟩) ∧
      ¬ (relabelingRun.go relabeling 11).tree.Named ⟨2⟩ .declaration "b" :=
  ⟨calledFor_relabeling, by decide +kernel⟩

/-- The first plugin renames the declaration while the events of the old name are still to come. -/
theorem relabeling_renamed :
    ∃ i < 11, Renamed relabeling relabelingRun i 11 ⟨2⟩ .declaration "b" := by
  have hinput : (ProcessInput.text "a\x7bb:c\x7d").Orderly := trivial
  have hrenamed : ¬ (relabelingRun.go relabeling 11).tree.Named ⟨2⟩ .declaration "b" := by
    decide +kernel
  obtain ⟨l, hfor⟩ := calledFor_relabeling
  obtain ⟨i, hi, d, -, -, -, hiff⟩ := (named_iff_not_renamed usesApi_relabeling hinput
    prepare_restlessTree rfl hfor.1 visits_relabeling).2 .declaration false "b" hfor
  exact ⟨i, hi, not_not.mp (mt hiff.mpr hrenamed)⟩

end PluginRun

end Stylesheet
