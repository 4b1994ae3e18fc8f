import Stylesheet.Proofs.Edit.Command
import Stylesheet.Proofs.Walk.History
import Stylesheet.Walk.Each

/-!
# Going through children that change

The callback of a traversal may edit the tree as it likes, also the very list that the traversal
goes through. `Traversal.each_traversed` says what it can rely on, for every callback that chooses
edits by what it sees:

* a node is passed to it twice only when it was taken out of the list and put in again in between;
* a node of the list at the start is passed to it exactly once, in the order of the list, unless it
  is taken out before it is reached;
* a node that is put at the end of the list is passed to it, unless it is taken out;
* afterwards all nodes have the cursors that they had before.
-/

namespace Stylesheet

/-- What a callback chooses to do, by the child, its place, the desk and a state of its own: edits
to be done one after the other, its next state, and whether the traversal goes on. -/
abbrev Choice (σ β : Type) :=
  NodeId → Nat → Desk → σ → List Edit × σ × Flow β

/-- The callback that does what was chosen, and puts down what happens. -/
def Visiting.recorded {σ β : Type} (choose : Choice σ β) (child : NodeId) (i : Nat) :
    Visiting (σ × List Moment) (Flow β) := do
  let (d, s, history) ← get
  let (edits, s, flow) := choose child i d s
  set (Edit.runAll edits d, s, history ++ .call child :: Moment.ofEdits edits d)
  return flow

/-- The edit does not empty a list, it inserts consistent trees only, and no list that names a node
twice. -/
def Moment.Proper : Moment → Prop
  | .call _ => True
  | .edit e before after => e.removesAll = false ∧ e.Sound ∧ e.Distinct before after

namespace Traversal

open Stylesheet.Tree

variable {σ β : Type} {p : NodeId} {k : Nat} {h : List Moment}
  {start passed ahead : List NodeId}

/-! ### The numbers of cursors -/

theorem cursorIds_advanceCursor (t : Tree) (p : NodeId) (k : Nat) (q : NodeId) :
    ((t.advanceCursor p k).cursors q).map Cursor.id = (t.cursors q).map Cursor.id := by
  rw [advanceCursor, cursors_modify _ rfl fun _ => rfl]
  split_ifs
  · rw [List.map_map]
    refine List.map_congr_left fun c _ => ?_
    rw [Function.comp_apply]
    split_ifs <;> rfl
  · rfl

/-- A cursor that is opened and closed again leaves the others. -/
theorem cursorIds_openClose {t u v : Tree} (hopen : t.openCursor p = some (k, u))
    (ht : t.Numbered)
    (hids : ∀ q, (v.cursors q).map Cursor.id = (u.cursors q).map Cursor.id) (q : NodeId) :
    ((v.closeCursor p k).cursors q).map Cursor.id = (t.cursors q).map Cursor.id := by
  obtain ⟨n, hn, hk, rfl⟩ := openCursor_eq_some hopen
  rw [closeCursor, cursors_modify (·.filter (·.id != k)) rfl fun _ => rfl]
  have hopened : (t.modify p (withCursor k)).cursors q =
      if p = q then t.cursors q ++ [⟨k, 0⟩] else t.cursors q := by
    rw [Tree.cursors, Tree.cursors, get?_modify]
    split_ifs with hpq
    · subst hpq
      rw [hn]
      rfl
    · rfl
  by_cases hpq : p = q
  · subst hpq
    -- The number was new, so closing this cursor closes no other.
    have hold : ∀ i ∈ (t.cursors p).map Cursor.id, (i != k) = true := by
      intro i hi
      obtain ⟨c, hc, rfl⟩ := List.mem_map.mp hi
      rw [Tree.cursors, hn] at hc
      have hle := ht p n hn c hc
      rw [bne_iff_ne]
      omega
    have hfilter : ((v.cursors p).filter (·.id != k)).map Cursor.id =
        ((v.cursors p).map Cursor.id).filter (· != k) := by
      rw [List.filter_map]
      rfl
    rw [if_pos rfl, hfilter, hids, hopened, if_pos rfl, List.map_append, List.filter_append,
      List.filter_eq_self.mpr hold]
    simp
  · rw [if_neg hpq, hids, hopened, if_neg hpq]

/-! ### One call -/

/-- What is known of the history while children of `p` are passed and others are ahead. -/
structure Known (p : NodeId) (start : List NodeId) (h : List Moment) (passed ahead : List NodeId) :
    Prop where
  returns : Returns p h passed ahead
  waits : ∃ waiting, Waits p start h waiting ahead
  expects : Expects p h ahead

/-- Nothing is called yet: the whole list is ahead. -/
theorem Known.nil (p : NodeId) (start : List NodeId) : Known p start [] [] start :=
  ⟨.nil p [] start, ⟨start, .nil p start⟩, .nil p start⟩

/-- The next child is called, and is behind the cursor then. -/
theorem Known.call {y : NodeId} (hk : Known p start h passed (y :: ahead)) (hy : y ∉ ahead)
    (hstart : start.Nodup) : Known p start (h ++ [.call y]) (passed ++ [y]) ahead := by
  obtain ⟨waiting, hw⟩ := hk.waits
  exact ⟨hk.returns.call hy, hw.call hk.returns hy hstart, hk.expects.call⟩

/-- An edit carries what is behind the cursor and what is ahead. -/
theorem Known.edit {m : Moment} {passed' ahead' : List NodeId}
    (hk : Known p start h passed ahead) (hm : Carries p m passed ahead passed' ahead') :
    Known p start (h ++ [m]) passed' ahead' := by
  obtain ⟨waiting, hw⟩ := hk.waits
  exact ⟨hk.returns.edit hm, hw.edit hm, hk.expects.edit hm⟩

/-- A proper edit moves the cursor along with the children. -/
theorem carries_edit {e : Edit} {d : Desk} (hd : d.tree.Consistent)
    (hmidway : d.tree.Midway p k passed ahead)
    (he : (Moment.edit e d.tree (e.run d).2.tree).Proper) :
    (e.run d).2.tree.Consistent ∧
      (∀ q, ((e.run d).2.tree.cursors q).map Cursor.id = (d.tree.cursors q).map Cursor.id) ∧
      ∃ passed' ahead', (e.run d).2.tree.Midway p k passed' ahead' ∧
        Carries p (.edit e d.tree (e.run d).2.tree) passed ahead passed' ahead' := by
  obtain ⟨hall, hsound, hdistinct⟩ := he
  obtain ⟨hconsistent, heffect⟩ := Edit.works_run hd hsound hall hdistinct
  obtain ⟨passed', ahead', hmidway', hpassage, happends⟩ := heffect.passage hd hmidway
  refine ⟨hconsistent, heffect.cursorIds, passed', ahead', hmidway', nofun, hpassage, ?_,
    fun x hx => happends hx.1 x hx.2⟩
  intro x hx henters
  rw [← hmidway.children] at hx
  exact ⟨hx, Or.inr (henters.2.resolve_left fun hout => hout hx)⟩

/-- The edits of one call, one after the other. -/
theorem known_runAll : ∀ (edits : List Edit) {d : Desk} {h : List Moment}
    {passed ahead : List NodeId}, d.tree.Consistent → d.tree.Midway p k passed ahead →
    Known p start h passed ahead → (∀ m ∈ Moment.ofEdits edits d, m.Proper) →
    (Edit.runAll edits d).tree.Consistent ∧
      (∀ q, ((Edit.runAll edits d).tree.cursors q).map Cursor.id =
        (d.tree.cursors q).map Cursor.id) ∧
      ∃ passed' ahead', (Edit.runAll edits d).tree.Midway p k passed' ahead' ∧
        Known p start (h ++ Moment.ofEdits edits d) passed' ahead'
  | [], d, h, passed, ahead, hd, hmidway, hknown, _ => by
    refine ⟨hd, fun _ => rfl, passed, ahead, hmidway, ?_⟩
    rw [Moment.ofEdits, List.append_nil]
    exact hknown
  | e :: edits, d, h, passed, ahead, hd, hmidway, hknown, hproper => by
    rw [Moment.ofEdits, List.forall_mem_cons] at hproper
    obtain ⟨hconsistent, hids, passed₁, ahead₁, hmidway₁, hcarries⟩ :=
      carries_edit hd hmidway hproper.1
    obtain ⟨hconsistent', hids', passed₂, ahead₂, hmidway₂, hknown₂⟩ :=
      known_runAll edits hconsistent hmidway₁ (hknown.edit hcarries) hproper.2
    refine ⟨hconsistent', fun q => (hids' q).trans (hids q), passed₂, ahead₂, hmidway₂, ?_⟩
    rw [Moment.ofEdits, List.append_cons]
    exact hknown₂

/-! ### All calls -/

/-- The traversal with the callback that puts down what happens. -/
def going (p : NodeId) (k : Nat) (choose : Choice σ β) (rounds : Nat) :
    Visiting (σ × List Moment) (Option (Flow β)) :=
  Visiting.eachFrom p k (fun child i => some <$> Visiting.recorded choose child i) rounds

/-- Two steps one after the other. -/
theorem bind_apply {α : Type} (x : Visiting (σ × List Moment) α)
    (f : α → Visiting (σ × List Moment) (Option (Flow β))) (st : Desk × σ × List Moment) :
    (x >>= f) st = f (x st).1 (x st).2 :=
  rfl

/-- The traversal ends where no child is left. -/
theorem going_none (choose : Choice σ β) (rounds : Nat) {d : Desk} (s : σ) (h : List Moment)
    (hnone : d.tree.cursorChild? p k = none) :
    going p k choose (rounds + 1) (d, s, h) = (some .proceed, (d, s, h)) := by
  have hlook : (Visiting.tree (d, s, h)).1.cursorChild? p k = none := hnone
  rw [going, Visiting.eachFrom, bind_apply, hlook]
  rfl

/-- One round of a traversal. -/
theorem going_some {choose : Choice σ β} (rounds : Nat) {d : Desk} {s s' : σ} (h : List Moment)
    {i : Nat} {child : NodeId} {edits : List Edit} {flow : Flow β}
    (hchild : d.tree.cursorChild? p k = some (i, child))
    (hchoice : choose child i d s = (edits, s', flow)) :
    going p k choose (rounds + 1) (d, s, h) =
      (match (motive := Flow β → Visiting (σ × List Moment) (Option (Flow β))) flow with
      | .proceed => do
        Visiting.change (·.advanceCursor p k)
        going p k choose rounds
      | .stop reason => return some (.stop reason))
      (Edit.runAll edits d, s', h ++ Moment.call child :: Moment.ofEdits edits d) := by
  -- One round: the child is looked up, the callback chooses its edits, and they are carried out.
  have hvisit : (some <$> Visiting.recorded choose child i :
      Visiting (σ × List Moment) (Option (Flow β))) (d, s, h) =
      (some flow, (Edit.runAll edits d, s', h ++ Moment.call child :: Moment.ofEdits edits d)) := by
    show (let (edits, s', flow) := choose child i d s
      (some flow, (Edit.runAll edits d, s',
        h ++ Moment.call child :: Moment.ofEdits edits d))) = _
    rw [hchoice]
  have hlook : (Visiting.tree (d, s, h)).1.cursorChild? p k = some (i, child) := hchild
  have hsame : (Visiting.tree (d, s, h)).2 = (d, s, h) := rfl
  rw [going, Visiting.eachFrom, bind_apply, hlook]
  dsimp only
  rw [bind_apply, hsame, hvisit]
  cases flow <;> rfl

/-- A call may stop it. -/
theorem going_stop {choose : Choice σ β} (rounds : Nat) {d : Desk} {s s' : σ} (h : List Moment)
    {i : Nat} {child : NodeId} {edits : List Edit} {reason : β}
    (hchild : d.tree.cursorChild? p k = some (i, child))
    (hchoice : choose child i d s = (edits, s', .stop reason)) :
    going p k choose (rounds + 1) (d, s, h) = (some (.stop reason),
      (Edit.runAll edits d, s', h ++ .call child :: Moment.ofEdits edits d)) :=
  going_some rounds h hchild hchoice

/-- Or it goes on behind the child, wherever that is after the edits. -/
theorem going_proceed {choose : Choice σ β} (rounds : Nat) {d : Desk} {s s' : σ}
    (h : List Moment) {i : Nat} {child : NodeId} {edits : List Edit}
    (hchild : d.tree.cursorChild? p k = some (i, child))
    (hchoice : choose child i d s = (edits, s', .proceed)) :
    going p k choose (rounds + 1) (d, s, h) = going p k choose rounds
      ({ Edit.runAll edits d with tree := (Edit.runAll edits d).tree.advanceCursor p k }, s',
        h ++ .call child :: Moment.ofEdits edits d) :=
  going_some rounds h hchild hchoice

/-- The history only grows. -/
theorem going_history (choose : Choice σ β) : ∀ (rounds : Nat) (d : Desk) (s : σ)
    (h : List Moment), h <+: (going p k choose rounds (d, s, h)).2.2.2
  | 0, d, s, h => List.prefix_refl h
  | rounds + 1, d, s, h => by
    cases hchild : d.tree.cursorChild? p k with
    | none =>
      simp only [going_none choose rounds s h hchild]
      exact List.prefix_rfl
    | some found =>
      rcases hchoice : choose found.2 found.1 d s with ⟨edits, s', flow⟩
      cases flow with
      | proceed =>
        rw [going_proceed rounds h hchild hchoice]
        exact (List.prefix_append _ _).trans (going_history choose rounds _ _ _)
      | stop reason =>
        rw [going_stop rounds h hchild hchoice]
        exact List.prefix_append _ _

/-- No child is at the cursor when all are passed. -/
theorem ahead_eq_nil {t : Tree} (hchildren : t.children p = passed ++ ahead)
    (hindex : t.cursorIndex? p k = some (passed.length : Int))
    (hnone : t.cursorChild? p k = none) : ahead = [] := by
  cases ahead with
  | nil => rfl
  | cons y ahead =>
    have hsome : t.cursorChild? p k = some (passed.length, y) := by
      refine cursorChild?_eq_some.mpr ⟨hindex, ?_⟩
      rw [hchildren, List.getElem?_append_right (Nat.le_refl _), Nat.sub_self]
      rfl
    rw [hnone] at hsome
    cases hsome

/-- The child at the cursor is the first one ahead. -/
theorem exists_ahead_eq_cons {t : Tree} {i : Nat} {child : NodeId}
    (hchildren : t.children p = passed ++ ahead)
    (hindex : t.cursorIndex? p k = some (passed.length : Int))
    (hchild : t.cursorChild? p k = some (i, child)) : ∃ rest, ahead = child :: rest := by
  obtain ⟨hi, hget⟩ := cursorChild?_eq_some.mp hchild
  have hplace : (passed.length : Int) = i := Option.some.inj (hindex.symm.trans hi)
  obtain rfl := Int.ofNat_inj.mp hplace
  rw [hchildren, List.getElem?_append_right (Nat.le_refl _), Nat.sub_self] at hget
  cases ahead with
  | nil => cases hget
  | cons y rest =>
    cases hget
    exact ⟨rest, rfl⟩

/-- The cursor moves on to the first child ahead. -/
theorem advanceCursor_of_midway {t : Tree} (h : t.Midway p k passed ahead) :
    (t.advanceCursor p k).children p = passed ++ ahead ∧
      (t.advanceCursor p k).cursorIndex? p k = some (passed.length : Int) := by
  constructor
  · rw [(alike_advanceCursor t p k).children]
    exact h.children
  · rw [cursorIndex?_advanceCursor, h.index, Option.map_some, if_pos ⟨rfl, rfl⟩]
    congr 1
    omega

/-- One call with its edits. -/
theorem known_call {d : Desk} {child : NodeId} {rest : List NodeId} {edits : List Edit}
    (hstart : start.Nodup) (hd : d.tree.Consistent)
    (hchildren : d.tree.children p = passed ++ child :: rest)
    (hindex : d.tree.cursorIndex? p k = some (passed.length : Int))
    (hknown : Known p start h passed (child :: rest))
    (hproper : ∀ m ∈ Moment.ofEdits edits d, m.Proper) :
    (Edit.runAll edits d).tree.Consistent ∧
      (∀ q, ((Edit.runAll edits d).tree.cursors q).map Cursor.id =
        (d.tree.cursors q).map Cursor.id) ∧
      ∃ passed' ahead', (Edit.runAll edits d).tree.Midway p k passed' ahead' ∧
        Known p start (h ++ .call child :: Moment.ofEdits edits d) passed' ahead' := by
  have hnodup : (child :: rest).Nodup := by
    have := hd.nodup_children p
    rw [hchildren] at this
    exact (List.nodup_append.mp this).2.1
  have hmidway : d.tree.Midway p k (passed ++ [child]) rest := by
    refine ⟨by rw [hchildren, List.append_cons], ?_⟩
    rw [hindex, List.length_append, List.length_singleton]
    congr 1
    omega
  have hcalled := hknown.call (List.nodup_cons.mp hnodup).1 hstart
  rw [List.append_cons]
  exact known_runAll edits hd hmidway hcalled hproper

/-- What is known at the end of a traversal. -/
theorem known_going {choose : Choice σ β} (hstart : start.Nodup) : ∀ (rounds : Nat) {d d' : Desk}
    {s s' : σ} {h h' : List Moment} {flow : Flow β} {passed ahead : List NodeId},
    d.tree.Consistent → d.tree.children p = passed ++ ahead →
    d.tree.cursorIndex? p k = some (passed.length : Int) → Known p start h passed ahead →
    going p k choose rounds (d, s, h) = (some flow, (d', s', h')) → (∀ m ∈ h', m.Proper) →
    (∀ q, (d'.tree.cursors q).map Cursor.id = (d.tree.cursors q).map Cursor.id) ∧
      ∃ passed' ahead', Known p start h' passed' ahead' ∧ (flow = .proceed → ahead' = [])
  | 0, d, d', s, s', h, h', flow, passed, ahead, _, _, _, _, hrun, _ => by
    cases (congrArg Prod.fst hrun : (none : Option (Flow β)) = some flow)
  | rounds + 1, d, d', s, s', h, h', flow, passed, ahead, hd, hchildren, hindex, hknown, hrun,
    hproper => by
    -- No child at the cursor ends the loop: everything ahead has been met.
    cases hchild : d.tree.cursorChild? p k with
    | none =>
      rw [going_none choose rounds s h hchild] at hrun
      cases hrun
      exact ⟨fun _ => rfl, passed, ahead, hknown, fun _ => ahead_eq_nil hchildren hindex hchild⟩
    | some found =>
      -- Otherwise a call. The edits it makes move the cursor with them, so the next round finds the
      -- invariant again.
      obtain ⟨i, child⟩ := found
      rcases hchoice : choose child i d s with ⟨edits, s₁, flow₁⟩
      obtain ⟨rest, rfl⟩ := exists_ahead_eq_cons hchildren hindex hchild
      have hcall := fun hfront : h ++ Moment.call child :: Moment.ofEdits edits d <+: h' =>
        known_call hstart hd hchildren hindex hknown fun m hm =>
          hproper m (hfront.subset (List.mem_append_right h (List.mem_cons_of_mem _ hm)))
      cases flow₁ with
      | stop reason =>
        rw [going_stop rounds h hchild hchoice] at hrun
        cases hrun
        obtain ⟨-, hids, passed₁, ahead₁, -, hknown₁⟩ := hcall (List.prefix_refl _)
        exact ⟨hids, passed₁, ahead₁, hknown₁, nofun⟩
      | proceed =>
        rw [going_proceed rounds h hchild hchoice] at hrun
        have hfront := going_history (p := p) (k := k) choose rounds
          { Edit.runAll edits d with tree := (Edit.runAll edits d).tree.advanceCursor p k } s₁
          (h ++ Moment.call child :: Moment.ofEdits edits d)
        rw [hrun] at hfront
        obtain ⟨hconsistent, hids, passed₁, ahead₁, hmidway₁, hknown₁⟩ := hcall hfront
        have halike := alike_advanceCursor (Edit.runAll edits d).tree p k
        obtain ⟨hchildren', hindex'⟩ := advanceCursor_of_midway hmidway₁
        obtain ⟨hids', hend⟩ := known_going hstart rounds
          (d := { Edit.runAll edits d with tree := (Edit.runAll edits d).tree.advanceCursor p k })
          (hconsistent.of_links_eq halike.links) hchildren' hindex' hknown₁ hrun hproper
        refine ⟨fun q => (hids' q).trans ?_, hend⟩
        rw [← hids q]
        exact cursorIds_advanceCursor _ p k q

/-! ### The whole traversal -/

/-- What a callback can rely on when the children of `p` are gone through, in terms of what
happened. The tree was `before` and is `after` now. -/
structure Traversed (p : NodeId) (before after : Tree) (h : List Moment) (finished : Prop) :
    Prop where
  /-- A node is called twice only when it left the list and came back in between. -/
  again : ∀ i j x, i < j → Calls h i x → Calls h j x →
    ∃ k l, i < k ∧ k ≤ l ∧ l < j ∧ Left p h k x ∧ Entered p h l x
  /-- A node of the list at the start is reached exactly once, unless it left before. -/
  once : finished → ∀ x ∈ before.children p, Missed p h x ∨ ∃! i, Reached p h i x
  /-- Nodes of the list at the start are reached in its order. -/
  inOrder : ∀ x y, [x, y].Sublist (before.children p) → ∀ i j, Reached p h i x → Reached p h j y →
    i < j
  /-- A node that was put at the end of the list is called, unless it left. -/
  appended : finished → ∀ i x, Happens h i (·.Appends p x) →
    (∃ j, i < j ∧ Left p h j x) ∨ ∃ j, i < j ∧ Calls h j x
  /-- All nodes have the cursors that they had. -/
  cursors : ∀ q, (after.cursors q).map Cursor.id = (before.cursors q).map Cursor.id

/-- Without a block there is nothing to go through. -/
theorem traversed_of_openCursor_none {t : Tree} {finished : Prop} (ht : t.Consistent)
    (hopen : t.openCursor p = none) : Traversed p t t [] finished := by
  have hnone : ∀ i kind, ¬ Happens [] i kind := fun i kind hi => Nat.not_lt_zero _ hi.lt
  refine ⟨fun i _ _ _ hi => absurd hi (hnone i _), fun _ x hx => ?_,
    fun _ _ _ i _ hi => absurd hi.1 (hnone i _), fun _ i _ hi => absurd hi (hnone i _),
    fun _ => rfl⟩
  rw [children_eq_nil_of_openCursor ht hopen] at hx
  exact absurd hx List.not_mem_nil

/-- When nothing is ahead any more, the invariants say what the callback relies on. -/
theorem Known.traversed {before after : Tree} {finished : Prop}
    (hknown : Known p (before.children p) h passed ahead) (hfinished : finished → ahead = [])
    (hcursors : ∀ q, (after.cursors q).map Cursor.id = (before.cursors q).map Cursor.id) :
    Traversed p before after h finished := by
  obtain ⟨waiting, hwaits⟩ := hknown.waits
  refine ⟨hknown.returns.twice, fun hend x hx => ?_, fun x y hxy i j hi hj => ?_,
    fun hend i x hi => ?_, hcursors⟩
  · -- Nothing is ahead any more, so nothing waits.
    have hsub := hwaits.inOrder
    rw [hfinished hend] at hsub
    refine (hwaits.done x hx (List.sublist_nil.mp hsub ▸ List.not_mem_nil)).imp_right ?_
    rintro ⟨i, hi⟩
    exact ⟨i, hi, fun j hj => hknown.returns.reached_unique hj hi⟩
  · exact (hwaits.order x y hxy j hj).2 i hi
  · rcases hknown.expects i x hi with hleft | hx | hcalls
    · exact Or.inl hleft
    · rw [hfinished hend] at hx
      exact absurd hx List.not_mem_nil
    · exact Or.inr hcalls

/-- The whole traversal opens a cursor, goes through the children and closes it. -/
theorem each_recorded (choose : Choice σ β) (rounds : Nat) (d : Desk) (s : σ) :
    Visiting.each rounds p (Visiting.recorded choose) (d, s, []) =
      match d.tree.openCursor p with
      | none => (some .proceed, (d, s, []))
      | some (k, t) =>
        let (result, (d', s', h)) := going p k choose rounds ({ d with tree := t }, s, [])
        (result, ({ d' with tree := d'.tree.closeCursor p k }, s', h)) := by
  rw [Visiting.each, Visiting.eachWithin, bind_apply]
  show (match d.tree.openCursor p with
    | none => (pure (some .proceed) : Visiting (σ × List Moment) (Option (Flow β)))
    | some (cursor, t) => _) (d, s, []) = _
  cases d.tree.openCursor p with
  | none => rfl
  | some opened => rfl

/-- A callback that edits the tree while the children of a node are gone through is passed what it
should be, and leaves no cursor behind. -/
theorem each_traversed {choose : Choice σ β} {rounds : Nat} {d d' : Desk} {s s' : σ}
    {flow : Flow β} (hd : d.tree.Consistent) (hnumbered : d.tree.Numbered)
    (hrun : Visiting.each rounds p (Visiting.recorded choose) (d, s, []) =
      (some flow, (d', s', h)))
    (hproper : ∀ m ∈ h, m.Proper) :
    Traversed p d.tree d'.tree h (flow = .proceed) := by
  rw [each_recorded] at hrun
  -- A node without a list has no cursor, and nothing is traversed.
  cases hopen : d.tree.openCursor p with
  | none =>
    rw [hopen] at hrun
    cases hrun
    exact traversed_of_openCursor_none hd hopen
  | some opened =>
    obtain ⟨k, t⟩ := opened
    rw [hopen] at hrun
    dsimp only at hrun
    rcases hgoing : going p k choose rounds ({ d with tree := t }, s, []) with ⟨result, d₁, s₁, h₁⟩
    rw [hgoing] at hrun
    cases hrun
    have halike := alike_openCursor hopen
    have hknown : Known p (d.tree.children p) [] [] (t.children p) := by
      rw [halike.children]
      exact .nil p _
    obtain ⟨hids, passed, ahead, hend, hproceed⟩ := known_going (d := { d with tree := t })
      (hd.nodup_children p) rounds (hd.of_links_eq halike.links) (List.nil_append _).symm
      (cursorIndex?_opened hopen hnumbered) hknown hgoing hproper
    exact hend.traversed hproceed (cursorIds_openClose hopen hnumbered hids)

/-- A stylesheet with three rules. -/
def threeRules : Desk :=
  Edit.runAll [.append rootId (.text "a\x7b\x7db\x7b\x7dc\x7b\x7d")] ⟨Tree.empty, {}⟩

/-- At the first rule one is put in front of it, the second rule is moved to the end, and one more
is put there. The second rule is removed when it is reached. -/
def restless : Choice Unit Unit := fun child _ _ _ =>
  let edits : List Edit :=
    if child = ⟨1⟩ then [.prepend rootId (.text "x\x7b\x7d"), .moveTo ⟨2⟩ rootId,
      .append rootId (.text "z\x7b\x7d")]
    else if child = ⟨2⟩ then [.remove ⟨2⟩]
    else []
  (edits, (), .proceed)

/-- What happens in the traversal of the three rules. -/
def restlessHistory : List Moment :=
  (Visiting.each 9 rootId (Visiting.recorded restless) (threeRules, (), [])).2.2.2

/-- The node that is passed to the callback. -/
def called? : Moment → Option NodeId
  | .call x => some x
  | .edit _ _ _ => none

/-- Whether an edit inserts nothing but texts and single nodes. -/
def isPlain : Moment → Bool
  | .call _ => true
  | .edit e _ _ => !e.removesAll && match e.material? with
    | none => true
    | some (.node _) => true
    | some (.text _) => true
    | some _ => false

/-- Edits that list no nodes are proper. -/
theorem proper_of_isPlain {m : Moment} (hm : isPlain m = true) : m.Proper := by
  cases m with
  | call x => trivial
  | edit e before after =>
    obtain ⟨hall, hmaterial⟩ := Bool.and_eq_true_iff.mp hm
    refine ⟨by simpa using hall, fun m hm => ?_, fun m hm => ?_⟩
    all_goals
      rw [Option.mem_def.mp hm] at hmaterial
      cases m <;> trivial

/-- A child comes in front of the cursor, one is taken out ahead of it, and one is put at the end.
-/
theorem each_traversed_restless :
    restlessHistory.filterMap called? = [⟨1⟩, ⟨3⟩, ⟨2⟩, ⟨5⟩] ∧
      Traversed rootId threeRules.tree
        (Visiting.each 9 rootId (Visiting.recorded restless) (threeRules, (), [])).2.1.tree
        restlessHistory ((.proceed : Flow Unit) = .proceed) := by
  have hreached : threeRules.tree.Reached := by
    refine .runAll (d := ⟨Tree.empty, {}⟩) .empty ?_ ?_
    · exact List.forall_mem_singleton.mpr rfl
    · exact List.forall_mem_singleton.mpr nofun
  have hflow : (Visiting.each 9 rootId (Visiting.recorded restless) (threeRules, (), [])).1 =
      some .proceed := by decide +kernel
  have hrun : Visiting.each 9 rootId (Visiting.recorded restless) (threeRules, (), []) =
      (some .proceed, (Visiting.each 9 rootId (Visiting.recorded restless)
        (threeRules, (), [])).2.1, (), restlessHistory) := Prod.ext hflow rfl
  have hplain : restlessHistory.all isPlain = true := by decide +kernel
  exact ⟨by decide +kernel, each_traversed hreached.orderly.consistent
    hreached.orderly.numbered hrun fun m hm => proper_of_isPlain (List.all_eq_true.mp hplain m hm)⟩

end Traversal

end Stylesheet
