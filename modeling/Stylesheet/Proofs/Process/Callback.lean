import Stylesheet.Process.Run
import Stylesheet.Proofs.Edit.Command
import Stylesheet.Proofs.Tree.Cursors

/-!
# What callbacks may do

A callback may edit the tree, read other stylesheets, and go through the tree with cursors of its
own. `Desk.Worked` puts this down, and `Callback.UsesApi` asks it of a callback.

* `Desk.Worked.later`: nodes that count as visited after the callback are as they were before it,
  with all cursors that were open before it.
* `Callback.usesApi_editing`: callbacks that choose edits by what they see do no more than that.
-/

namespace Stylesheet

/-- What can become of a desk by edits that leave the tree consistent, and by traversals. -/
inductive Desk.Worked (d₀ : Desk) : Desk → Prop
  | start : Worked d₀ d₀
  | edit {d : Desk} (h : Worked d₀ d) {e : Edit} (hsound : e.Sound)
    (hconsistent : (e.run d).2.tree.Consistent) : Worked d₀ (e.run d).2
  /-- Something was read. -/
  | read {d : Desk} (h : Worked d₀ d) (workspace : Workspace) : Worked d₀ { d with workspace }
  | openCursor {d : Desk} (h : Worked d₀ d) {parent : NodeId} {cursor : Nat} {t : Tree}
    (hopen : d.tree.openCursor parent = some (cursor, t)) : Worked d₀ { d with tree := t }
  /-- The cursor was opened meanwhile. -/
  | advanceCursor {d : Desk} (h : Worked d₀ d) {parent : NodeId} {cursor : Nat}
    (hown : d₀.tree.lastCursor parent < cursor) :
    Worked d₀ { d with tree := d.tree.advanceCursor parent cursor }
  | closeCursor {d : Desk} (h : Worked d₀ d) {parent : NodeId} {cursor : Nat}
    (hown : d₀.tree.lastCursor parent < cursor) :
    Worked d₀ { d with tree := d.tree.closeCursor parent cursor }

namespace Desk.Worked

open Stylesheet.Tree

variable {d₀ d : Desk}

/-- Work keeps a tree consistent. -/
theorem consistent (h₀ : d₀.tree.Consistent) (h : d₀.Worked d) : d.tree.Consistent := by
  induction h with
  | start => exact h₀
  | edit _ _ hconsistent _ => exact hconsistent
  | read _ _ ih => exact ih
  | openCursor _ hopen ih => exact ih.of_links_eq (alike_openCursor hopen).links
  | advanceCursor _ _ ih => exact ih.of_links_eq (alike_advanceCursor _ _ _).links
  | closeCursor _ _ ih => exact ih.of_links_eq (alike_closeCursor _ _ _).links

/-- Nodes that count as visited afterwards are as they were, and so are the cursors on them. -/
theorem later (h₀ : d₀.tree.Consistent) (h : d₀.Worked d) :
    d₀.tree.Later d₀.tree.lastCursor d.tree := by
  induction h with
  | start => exact .refl _
  | edit h hsound hconsistent ih =>
    exact ih.trans ((Edit.changes_run (h.consistent h₀) hsound (Or.inr hconsistent)).later
      (h.consistent h₀))
  | read _ _ ih => exact ih
  | openCursor _ hopen ih =>
    refine ih.trans ((alike_openCursor hopen).later (fun x k hk => ?_)
      (lastCursor_openCursor hopen) (numbered_openCursor hopen))
    exact cursorIndex?_openCursor hopen (Nat.le_trans hk (LaterBut.lastCursor ih x))
  | @advanceCursor d h parent cursor hown ih =>
    -- A callback has only the cursors that it opened, and their numbers are beyond the old ones.
    refine ih.trans ((alike_advanceCursor _ _ _).later (fun x k hk => ?_)
      (fun x => Nat.le_of_eq (lastCursor_advanceCursor _ _ _ x).symm)
      (numbered_advanceCursor _ _))
    rw [cursorIndex?_advanceCursor]
    have hne : ¬ (parent = x ∧ k = cursor) := by
      rintro ⟨rfl, rfl⟩
      exact absurd hown (Nat.not_lt.mpr hk)
    simp only [if_neg hne]
    exact Option.map_id'
  | closeCursor _ hown ih =>
    refine ih.trans ((alike_closeCursor _ _ _).later (fun x k hk => ?_)
      (fun x => Nat.le_of_eq (lastCursor_closeCursor _ _ _ x).symm)
      (numbered_closeCursor _ _))
    refine cursorIndex?_closeCursor _ ?_
    rintro rfl rfl
    exact absurd hown (Nat.not_lt.mpr hk)

end Desk.Worked

/-! ### Callbacks and plugins -/

variable {σ : Type}

/-- The callback changes consistent trees only by edits that leave them consistent, and by
traversals. -/
def Callback.UsesApi (c : Callback σ) : Prop :=
  ∀ (call : Call) (s : Stage σ), s.desk.tree.Consistent →
    s.desk.Worked (StateT.run (ExceptT.run (c.body call)) s).2.desk

/-- All callbacks of a plugin. -/
def Plugin.callbacks (p : Plugin σ) : List (Callback σ) :=
  p.once ++ p.hooks.map Prod.snd

/-- All callbacks change trees by edits and traversals only. -/
def Program.UsesApi (p : Program σ) : Prop :=
  ∀ q ∈ p.plugins, ∀ c ∈ q.callbacks, c.UsesApi

/-- A listener is a callback of one of the plugins. -/
theorem Plugin.exists_of_mem_listeners {plugins : List (Plugin σ)} {hook : Hook} {l : Listener σ}
    (hl : l ∈ Plugin.listeners plugins hook) : ∃ q ∈ plugins, l.callback ∈ q.callbacks := by
  obtain ⟨q, hq, hl⟩ := List.mem_flatMap.mp hl
  obtain ⟨⟨h, c⟩, hc, rfl⟩ := List.mem_map.mp hl
  refine ⟨q, hq, List.mem_append.mpr (Or.inr ?_)⟩
  exact List.mem_map.mpr ⟨(h, c), List.mem_of_mem_filter hc, rfl⟩

theorem Plugin.exists_of_mem_onceListeners {plugins : List (Plugin σ)} {l : Listener σ}
    (hl : l ∈ Plugin.onceListeners plugins) : ∃ q ∈ plugins, l.callback ∈ q.callbacks := by
  obtain ⟨q, hq, hl⟩ := List.mem_flatMap.mp hl
  obtain ⟨c, hc, rfl⟩ := List.mem_map.mp hl
  exact ⟨q, hq, List.mem_append.mpr (Or.inl hc)⟩

theorem Program.UsesApi.listener {p : Program σ} (hp : p.UsesApi) {hook : Hook} {l : Listener σ}
    (hl : l ∈ Plugin.listeners p.plugins hook) : l.callback.UsesApi := by
  obtain ⟨q, hq, hc⟩ := Plugin.exists_of_mem_listeners hl
  exact hp q hq l.callback hc

theorem Program.UsesApi.onceListener {p : Program σ} (hp : p.UsesApi) {l : Listener σ}
    (hl : l ∈ Plugin.onceListeners p.plugins) : l.callback.UsesApi := by
  obtain ⟨q, hq, hc⟩ := Plugin.exists_of_mem_onceListeners hl
  exact hp q hq l.callback hc

/-! ### Callbacks that choose edits -/

/-- Does an edit, when one is chosen. -/
def Callback.editing (choose : Call → Tree → Option Edit) : Callback σ where
  body := fun call => do
    match choose call (← get).desk.tree with
    | some e => discard (Action.edit e.perform)
    | none => pure ()

/-- An edit works on the desk of the stage and on nothing else. -/
theorem Action.run_edit (e : Editing α) (s : Stage σ) :
    StateT.run (ExceptT.run (Action.edit e)) s =
      ((e.runOn s.desk).1, { s with desk := (e.runOn s.desk).2 }) := by
  have hget : StateT.run (ExceptT.run (get : Action σ (Stage σ))) s = pure (.ok s, s) := rfl
  rw [Action.edit, ExceptT.run_bind, StateT.run_bind, hget, pure_bind]
  dsimp only
  rcases e.runOn s.desk with ⟨result, d⟩
  cases result <;> rfl

theorem Callback.desk_editing (choose : Call → Tree → Option Edit) (call : Call) (s : Stage σ) :
    (StateT.run (ExceptT.run ((editing choose : Callback σ).body call)) s).2.desk =
      ((choose call s.desk.tree).map fun e => (e.run s.desk).2).getD s.desk := by
  show (StateT.run (ExceptT.run (match choose call s.desk.tree with
    | some e => discard (Action.edit e.perform)
    | none => pure () : Action σ Unit)) s).2.desk = _
  cases choose call s.desk.tree with
  | none => rfl
  | some e =>
    show (StateT.run (ExceptT.run
      (Functor.mapConst () (Action.edit e.perform : Action σ (List NodeId)))) s).2.desk = _
    rw [map_const, Function.comp_apply, ExceptT.run_map, StateT.run_map, Action.run_edit]
    rfl

/-- Callbacks that only edit use the API. -/
theorem Callback.usesApi_editing {choose : Call → Tree → Option Edit}
    (hsound : ∀ call t, ∀ e ∈ choose call t, e.Sound ∧ e.listsNodes = false) :
    (editing choose : Callback σ).UsesApi := by
  intro call s hs
  rw [desk_editing]
  cases hchoose : choose call s.desk.tree with
  | none => exact .start
  | some e =>
    obtain ⟨he, hlists⟩ := hsound call s.desk.tree e hchoose
    exact .edit .start he ((Edit.changes_run hs he (Or.inl hlists)).consistent hs)

end Stylesheet
