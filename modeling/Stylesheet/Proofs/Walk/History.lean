import Stylesheet.Proofs.Edit.Lists

/-!
# The history of a traversal

While a traversal goes through the children of a container, nodes are passed to the callback and the
callback edits the tree. The history is the list of these moments (`Moment`), and what is to hold of
a traversal is said of it.

At each moment the list of children falls into those that were passed and those ahead
(`Tree.Midway`). The three invariants of this module tie the history to them, and each is kept when
a node is called and when an edit is done:

* `Traversal.Returns`: a node that was passed to the callback is ahead only after it left and came
  back.
* `Traversal.Waits`: a node of the list at the start is ahead, in its order, or was passed to the
  callback, or left before that.
* `Traversal.Expects`: a node that was put at the end is ahead, or was passed to the callback, or
  left.
-/

namespace Stylesheet

/-- What happens in a traversal: a node is passed to the callback, or the callback does an edit. -/
inductive Moment
  | call (x : NodeId)
  | edit (e : Edit) (before after : Tree)

namespace Moment

/-- The node is taken out of the list of `p`. -/
def Leaves (p x : NodeId) : Moment → Prop
  | .call _ => False
  | .edit e before after => e.Leaves before after p x

/-- The node is put into the list of `p`. -/
def Enters (p x : NodeId) : Moment → Prop
  | .call _ => False
  | .edit e before after => e.Enters before after p x

/-- The node is put at the end of the list of `p`. -/
def Appends (p x : NodeId) : Moment → Prop
  | .call _ => False
  | .edit e before after => e.appendsTo? = some p ∧ e.Enters before after p x

/-- The moments of edits that are done one after the other. -/
def ofEdits : List Edit → Desk → List Moment
  | [], _ => []
  | e :: edits, d => .edit e d.tree (e.run d).2.tree :: ofEdits edits (e.run d).2

end Moment

namespace Traversal

/-! ### Moments of a history -/

/-- The moment at place `i` of the history is of a kind. -/
def Happens (history : List Moment) (i : Nat) (kind : Moment → Prop) : Prop :=
  ∃ m, history[i]? = some m ∧ kind m

/-- At place `i` the node is passed to the callback. -/
def Calls (history : List Moment) (i : Nat) (x : NodeId) : Prop :=
  Happens history i (· = .call x)

/-- At place `i` the node is taken out of the list of `p`. -/
def Left (p : NodeId) (history : List Moment) (i : Nat) (x : NodeId) : Prop :=
  Happens history i (·.Leaves p x)

/-- At place `i` the node is put into the list of `p`. -/
def Entered (p : NodeId) (history : List Moment) (i : Nat) (x : NodeId) : Prop :=
  Happens history i (·.Enters p x)

/-- At place `i` the node is passed to the callback, and it was not taken out before. -/
def Reached (p : NodeId) (history : List Moment) (i : Nat) (x : NodeId) : Prop :=
  Calls history i x ∧ ∀ j < i, ¬ Left p history j x

/-- The node is taken out before it is ever passed to the callback. -/
def Missed (p : NodeId) (history : List Moment) (x : NodeId) : Prop :=
  ∃ j, Left p history j x ∧ ∀ i < j, ¬ Calls history i x

section Moments

variable {h : List Moment} {m : Moment} {i : Nat} {kind : Moment → Prop}

theorem Happens.lt (hi : Happens h i kind) : i < h.length := by
  obtain ⟨m, hm, -⟩ := hi
  exact (List.getElem?_eq_some_iff.mp hm).1

/-- What happens in a longer history happened before, or is the last moment. -/
theorem happens_concat :
    Happens (h ++ [m]) i kind ↔ Happens h i kind ∨ i = h.length ∧ kind m := by
  rcases Nat.lt_trichotomy i h.length with hlt | rfl | hgt
  · rw [Happens, Happens, List.getElem?_append_left hlt]
    exact ⟨Or.inl, fun hi => hi.resolve_right fun hi => Nat.ne_of_lt hlt hi.1⟩
  · rw [Happens, List.getElem?_concat_length]
    constructor
    · rintro ⟨_, ⟨⟩, hm⟩
      exact Or.inr ⟨rfl, hm⟩
    · rintro (hi | ⟨-, hm⟩)
      · exact absurd hi.lt (Nat.lt_irrefl _)
      · exact ⟨m, rfl, hm⟩
  · have hlen : (h ++ [m]).length ≤ i := by rw [List.length_append]; exact hgt
    constructor
    · intro hi
      exact absurd hi.lt (Nat.not_lt.mpr hlen)
    · rintro (hi | ⟨rfl, -⟩)
      · exact absurd hi.lt (Nat.not_lt.mpr (Nat.le_of_lt hgt))
      · exact absurd hgt (Nat.lt_irrefl _)

theorem Happens.concat (hi : Happens h i kind) : Happens (h ++ [m]) i kind :=
  happens_concat.mpr (Or.inl hi)

theorem happens_last (hm : kind m) : Happens (h ++ [m]) h.length kind :=
  happens_concat.mpr (Or.inr ⟨rfl, hm⟩)

/-- Away from the last moment nothing is new. -/
theorem Happens.of_concat (hi : Happens (h ++ [m]) i kind) (hne : i < h.length ∨ ¬ kind m) :
    Happens h i kind := by
  refine (happens_concat.mp hi).resolve_right fun hlast => ?_
  rcases hne with hlt | hm
  · exact Nat.ne_of_lt hlt hlast.1
  · exact hm hlast.2

end Moments

/-- What an edit does to the children that were passed and those ahead. -/
structure Carries (p : NodeId) (m : Moment) (passed ahead passed' ahead' : List NodeId) :
    Prop where
  notCall : ∀ x, m ≠ .call x
  passage : Passage (m.Leaves p) (m.Enters p) passed ahead passed' ahead'
  back : ∀ x, x ∈ passed ++ ahead → m.Enters p x → m.Leaves p x
  appends : ∀ x, m.Appends p x → x ∈ ahead'

section Invariants

variable {p : NodeId} {h : List Moment} {m : Moment}
variable {start passed ahead passed' ahead' : List NodeId}

/-! ### Nodes that are passed to the callback twice -/

/-- A node that was passed to the callback is passed again only after it left and came back. -/
structure Returns (p : NodeId) (h : List Moment) (passed ahead : List NodeId) : Prop where
  twice : ∀ i j x, i < j → Calls h i x → Calls h j x →
    ∃ k l, i < k ∧ k ≤ l ∧ l < j ∧ Left p h k x ∧ Entered p h l x
  ahead : ∀ i x, Calls h i x → x ∈ ahead →
    ∃ k l, i < k ∧ k ≤ l ∧ Left p h k x ∧ Entered p h l x
  passed : ∀ i x, Calls h i x → x ∉ passed → ∃ k, i < k ∧ Left p h k x

theorem Returns.nil (p : NodeId) (passed ahead : List NodeId) : Returns p [] passed ahead where
  twice _ _ _ _ hi := absurd hi.lt (Nat.not_lt_zero _)
  ahead _ _ hi := absurd hi.lt (Nat.not_lt_zero _)
  passed _ _ hi := absurd hi.lt (Nat.not_lt_zero _)

/-- A call at the end adds one call. -/
theorem calls_concat_call {y x : NodeId} {i : Nat} :
    Calls (h ++ [.call y]) i x ↔ Calls h i x ∨ i = h.length ∧ y = x := by
  refine happens_concat.trans (or_congr_right (and_congr_right fun _ => ?_))
  exact ⟨fun heq => Moment.call.inj heq, fun heq => congrArg Moment.call heq⟩

/-- An edit calls nothing. -/
theorem Carries.calls_iff (hm : Carries p m passed ahead passed' ahead') {i : Nat}
    {x : NodeId} : Calls (h ++ [m]) i x ↔ Calls h i x :=
  ⟨fun hi => hi.of_concat (Or.inr (hm.notCall x)), fun hi => hi.concat⟩

/-- A call takes nothing out of the list. -/
theorem left_concat_call {y x : NodeId} {i : Nat} :
    Left p (h ++ [.call y]) i x ↔ Left p h i x :=
  ⟨fun hi => hi.of_concat (Or.inr id), fun hi => hi.concat⟩

/-- A child is called once, unless it left and came back in between. -/
theorem Returns.call {y : NodeId} (hret : Returns p h passed (y :: ahead)) (hy : y ∉ ahead) :
    Returns p (h ++ [.call y]) (passed ++ [y]) ahead where
  twice := by
    intro i j x hij hi hj
    have hi' : Calls h i x := hi.of_concat (Or.inl (by
      have := hj.lt
      rw [List.length_append] at this
      exact Nat.lt_of_lt_of_le hij (Nat.le_of_lt_succ this)))
    rcases calls_concat_call.mp hj with hj | ⟨rfl, rfl⟩
    · obtain ⟨k, l, hik, hkl, hlj, hk, hl⟩ := hret.twice i j x hij hi' hj
      exact ⟨k, l, hik, hkl, hlj, hk.concat, hl.concat⟩
    · obtain ⟨k, l, hik, hkl, hk, hl⟩ := hret.ahead i y hi' List.mem_cons_self
      exact ⟨k, l, hik, hkl, hl.lt, hk.concat, hl.concat⟩
  ahead := by
    intro i x hi hx
    rcases calls_concat_call.mp hi with hi | ⟨rfl, rfl⟩
    · obtain ⟨k, l, hik, hkl, hk, hl⟩ := hret.ahead i x hi (List.mem_cons_of_mem y hx)
      exact ⟨k, l, hik, hkl, hk.concat, hl.concat⟩
    · exact absurd hx hy
  passed := by
    intro i x hi hx
    rw [List.mem_append, not_or, List.mem_singleton] at hx
    rcases calls_concat_call.mp hi with hi | ⟨rfl, rfl⟩
    · obtain ⟨k, hik, hk⟩ := hret.passed i x hi hx.1
      exact ⟨k, hik, hk.concat⟩
    · exact absurd rfl hx.2

/-- What comes back ahead of the cursor left before. -/
theorem Returns.edit (hret : Returns p h passed ahead)
    (hm : Carries p m passed ahead passed' ahead') : Returns p (h ++ [m]) passed' ahead' where
  twice := by
    intro i j x hij hi hj
    obtain ⟨k, l, hik, hkl, hlj, hk, hl⟩ :=
      hret.twice i j x hij (hm.calls_iff.mp hi) (hm.calls_iff.mp hj)
    exact ⟨k, l, hik, hkl, hlj, hk.concat, hl.concat⟩
  ahead := by
    intro i x hi hx
    rw [hm.calls_iff] at hi
    rcases hm.passage.new x hx with hx | henters
    · obtain ⟨k, l, hik, hkl, hk, hl⟩ := hret.ahead i x hi hx
      exact ⟨k, l, hik, hkl, hk.concat, hl.concat⟩
    · -- The node comes in now; it left before, or leaves by the same edit.
      by_cases hpassed : x ∈ passed
      · have hleaves := hm.back x (List.mem_append_left ahead hpassed) henters
        exact ⟨h.length, h.length, hi.lt, Nat.le_refl _, happens_last hleaves,
          happens_last henters⟩
      · obtain ⟨k, hik, hk⟩ := hret.passed i x hi hpassed
        exact ⟨k, h.length, hik, Nat.le_of_lt hk.lt, hk.concat, happens_last henters⟩
  passed := by
    intro i x hi hx
    rw [hm.calls_iff] at hi
    by_cases hpassed : x ∈ passed
    · refine ⟨h.length, hi.lt, happens_last ?_⟩
      exact Classical.byContradiction fun hstays => hx (hm.passage.stays x hpassed hstays)
    · obtain ⟨k, hik, hk⟩ := hret.passed i x hi hpassed
      exact ⟨k, hik, hk.concat⟩

/-! ### Nodes of the list at the start -/

/-- Nodes of the list at the start that are neither passed to the callback nor taken out yet are
ahead, in their order. -/
structure Waits (p : NodeId) (start : List NodeId) (h : List Moment) (waiting ahead : List NodeId) :
    Prop where
  listed : waiting.Sublist start
  inOrder : waiting.Sublist ahead
  fresh : ∀ x ∈ waiting, ∀ i, ¬ Calls h i x ∧ ¬ Left p h i x
  done : ∀ x ∈ start, x ∉ waiting → Missed p h x ∨ ∃ i, Reached p h i x
  order : ∀ x y, [x, y].Sublist start → ∀ j, Reached p h j y →
    x ∉ waiting ∧ ∀ i, Reached p h i x → i < j

/-- All children wait when nothing has happened. -/
theorem Waits.nil (p : NodeId) (start : List NodeId) : Waits p start [] start start where
  listed := .refl start
  inOrder := .refl start
  fresh _ _ _ := ⟨fun hi => absurd hi.lt (Nat.not_lt_zero _),
    fun hi => absurd hi.lt (Nat.not_lt_zero _)⟩
  done _ hx hout := absurd hx hout
  order _ _ _ _ hj := absurd hj.1.lt (Nat.not_lt_zero _)

theorem Missed.concat {x : NodeId} (hx : Missed p h x) : Missed p (h ++ [m]) x := by
  obtain ⟨j, hj, hbefore⟩ := hx
  refine ⟨j, hj.concat, fun i hi hcalls => hbefore i hi ?_⟩
  exact hcalls.of_concat (Or.inl (Nat.lt_trans hi hj.lt))

theorem Reached.concat {x : NodeId} {i : Nat} (hx : Reached p h i x) :
    Reached p (h ++ [m]) i x := by
  refine ⟨hx.1.concat, fun j hj hleft => hx.2 j hj ?_⟩
  exact hleft.of_concat (Or.inl (Nat.lt_trans hj hx.1.lt))

/-- What was reached when it was not the last call was reached before. -/
theorem Reached.of_concat {x : NodeId} {i : Nat} (hx : Reached p (h ++ [m]) i x)
    (hne : i < h.length ∨ m ≠ .call x) : Reached p h i x :=
  ⟨hx.1.of_concat hne, fun j hj hleft => hx.2 j hj hleft.concat⟩

/-- A node that is reached once is not reached again. -/
theorem Returns.reached_unique (hret : Returns p h passed ahead) {x : NodeId} {i j : Nat}
    (hi : Reached p h i x) (hj : Reached p h j x) : i = j := by
  have hle : ∀ i j, Reached p h i x → Reached p h j x → ¬ i < j := by
    intro i j hi hj hij
    obtain ⟨k, l, -, hkl, hlj, hk, -⟩ := hret.twice i j x hij hi.1 hj.1
    exact hj.2 k (Nat.lt_of_le_of_lt hkl hlj) hk
  have h₁ := hle i j hi hj
  have h₂ := hle j i hj hi
  omega

/-- In a list without repetitions two nodes stand in one order only. -/
theorem not_sublist_swap {l : List NodeId} (hl : l.Nodup) {x y : NodeId} (hxy : [x, y].Sublist l)
    (hyx : [y, x].Sublist l) : False := by
  induction l with
  | nil => cases hxy
  | cons z l ih =>
    obtain ⟨hz, hl⟩ := List.nodup_cons.mp hl
    rcases List.sublist_cons_iff.mp hxy with hsub | ⟨_, ⟨⟩, hy⟩
    · rcases List.sublist_cons_iff.mp hyx with hsub' | ⟨_, ⟨⟩, -⟩
      · exact ih hl hsub hsub'
      · exact hz (hsub.subset (List.mem_cons_of_mem x List.mem_cons_self))
    · rcases List.sublist_cons_iff.mp hyx with hsub' | ⟨_, ⟨⟩, -⟩
      · exact hz (hsub'.subset (List.mem_cons_of_mem y List.mem_cons_self))
      · exact hz (hy.subset List.mem_cons_self)

/-- A node that is done with is not reached now. -/
theorem Returns.not_reached_last {y : NodeId} (hret : Returns p h passed (y :: ahead))
    (hdone : Missed p h y ∨ ∃ i, Reached p h i y) : ¬ Reached p (h ++ [.call y]) h.length y := by
  intro hlast
  rcases hdone with ⟨j, hj, -⟩ | ⟨i, hi⟩
  · exact hlast.2 j hj.lt hj.concat
  · obtain ⟨k, -, -, -, hk, -⟩ := hret.ahead i y hi.1 List.mem_cons_self
    exact hlast.2 k hk.lt hk.concat

/-- A node is reached at the last moment, or was so before. -/
theorem reached_concat_call {y x : NodeId} {i : Nat} (hi : Reached p (h ++ [.call y]) i x) :
    Reached p h i x ∨ i = h.length ∧ y = x := by
  rcases calls_concat_call.mp hi.1 with hcalls | hlast
  · exact Or.inl (hi.of_concat (Or.inl hcalls.lt))
  · exact Or.inr hlast

/-- The child that is called waits no longer. -/
theorem Waits.call {waiting : List NodeId} {y : NodeId} (hw : Waits p start h waiting (y :: ahead))
    (hret : Returns p h passed (y :: ahead)) (hy : y ∉ ahead) (hstart : start.Nodup) :
    ∃ waiting', Waits p start (h ++ [.call y]) waiting' ahead := by
  have hfresh : ∀ x ∈ waiting, x ≠ y → ∀ i,
      ¬ Calls (h ++ [.call y]) i x ∧ ¬ Left p (h ++ [.call y]) i x := by
    intro x hx hne i
    rw [calls_concat_call, left_concat_call, not_or]
    exact ⟨⟨(hw.fresh x hx i).1, fun h => hne h.2.symm⟩, (hw.fresh x hx i).2⟩
  have hdone : ∀ x ∈ start, x ∉ waiting →
      Missed p (h ++ [.call y]) x ∨ ∃ i, Reached p (h ++ [.call y]) i x :=
    fun x hx hout => (hw.done x hx hout).imp Missed.concat fun ⟨i, hi⟩ => ⟨i, hi.concat⟩
  rcases List.sublist_cons_iff.mp hw.inOrder with hsub | ⟨rest, rfl, hsub⟩
  · -- The node does not wait: it came in later, or is done with.
    have hout : y ∉ waiting := fun hmem => hy (hsub.subset hmem)
    have hold : ∀ x ∈ start, ∀ i, Reached p (h ++ [.call y]) i x → Reached p h i x := by
      intro x hx i hi
      refine (reached_concat_call hi).resolve_right ?_
      rintro ⟨rfl, rfl⟩
      exact hret.not_reached_last (hw.done y hx hout) hi
    refine ⟨waiting, hw.listed, hsub, fun x hx => hfresh x hx fun heq => hout (heq ▸ hx), hdone,
      fun x z hxz j hj => ?_⟩
    have hx : x ∈ start := hxz.subset List.mem_cons_self
    have hz : z ∈ start := hxz.subset (List.mem_cons_of_mem x List.mem_cons_self)
    obtain ⟨hxout, hbefore⟩ := hw.order x z hxz j (hold z hz j hj)
    exact ⟨hxout, fun i hi => hbefore i (hold x hx i hi)⟩
  · -- The node waits, and is the first that does.
    have hnodup : (y :: rest).Nodup := hw.listed.nodup hstart
    obtain ⟨hyrest, -⟩ := List.nodup_cons.mp hnodup
    have hlast : Reached p (h ++ [.call y]) h.length y := by
      refine ⟨happens_last rfl, fun j _ hj => ?_⟩
      exact (hw.fresh y List.mem_cons_self j).2 (left_concat_call.mp hj)
    refine ⟨rest, (List.sublist_cons_self y rest).trans hw.listed, hsub,
      fun x hx => hfresh x (List.mem_cons_of_mem y hx) fun heq => hyrest (heq ▸ hx), ?_, ?_⟩
    · intro x hx hout
      by_cases hxy : x = y
      · rw [hxy]
        exact Or.inr ⟨h.length, hlast⟩
      · exact hdone x hx fun hmem => hout ((List.mem_cons.mp hmem).resolve_left hxy)
    · intro x z hxz j hj
      rcases reached_concat_call hj with hj | ⟨rfl, rfl⟩
      · obtain ⟨hxout, hbefore⟩ := hw.order x z hxz j hj
        refine ⟨fun hmem => hxout (List.mem_cons_of_mem y hmem), fun i hi => ?_⟩
        rcases reached_concat_call hi with hi | ⟨-, rfl⟩
        · exact hbefore i hi
        · exact absurd List.mem_cons_self hxout
      · refine ⟨fun hmem => ?_, fun i hi => ?_⟩
        · have hyx : [y, x].Sublist start :=
            ((List.singleton_sublist.mpr hmem).cons_cons y).trans hw.listed
          exact not_sublist_swap hstart hxz hyx
        · rcases reached_concat_call hi with hi | ⟨-, rfl⟩
          · exact hi.1.lt
          · exact (not_sublist_swap hstart hxz hxz).elim

/-- A child goes on waiting unless the edit takes it out. -/
theorem Waits.edit {waiting : List NodeId} (hw : Waits p start h waiting ahead)
    (hm : Carries p m passed ahead passed' ahead') :
    ∃ waiting', Waits p start (h ++ [m]) waiting' ahead' := by
  classical
  refine ⟨waiting.filter fun x => ¬ m.Leaves p x, ?_⟩
  have hsub : (waiting.filter fun x => ¬ m.Leaves p x).Sublist waiting := List.filter_sublist
  constructor
  case listed => exact hsub.trans hw.listed
  case inOrder =>
    refine hm.passage.order _ (hsub.trans hw.inOrder) fun x hx => ?_
    exact of_decide_eq_true (List.mem_filter.mp hx).2
  case fresh =>
    intro x hx i
    obtain ⟨hx, hstays⟩ := List.mem_filter.mp hx
    obtain ⟨hcalls, hleft⟩ := hw.fresh x hx i
    refine ⟨fun hi => hcalls (hm.calls_iff.mp hi), fun hi => hleft ?_⟩
    exact hi.of_concat (Or.inr (of_decide_eq_true hstays))
  case done =>
    intro x hx hout
    by_cases hwaiting : x ∈ waiting
    · -- The node leaves now, and was not passed to the callback before.
      have hleaves : m.Leaves p x := by
        refine Classical.byContradiction fun hstays => hout ?_
        exact List.mem_filter.mpr ⟨hwaiting, decide_eq_true hstays⟩
      refine Or.inl ⟨h.length, happens_last hleaves, fun i _ hi => ?_⟩
      exact (hw.fresh x hwaiting i).1 (hm.calls_iff.mp hi)
    · rcases hw.done x hx hwaiting with hmissed | ⟨i, hi⟩
      · exact Or.inl hmissed.concat
      · exact Or.inr ⟨i, hi.concat⟩
  case order =>
    intro x y hxy j hj
    obtain ⟨hout, hbefore⟩ := hw.order x y hxy j (hj.of_concat (Or.inr (hm.notCall y)))
    refine ⟨fun hx => hout (hsub.subset hx), fun i hi => hbefore i ?_⟩
    exact hi.of_concat (Or.inr (hm.notCall x))

/-! ### Nodes that are put at the end -/

/-- A node that was put at the end of the list is ahead, was passed to the callback, or left. -/
def Expects (p : NodeId) (h : List Moment) (ahead : List NodeId) : Prop :=
  ∀ i x, Happens h i (·.Appends p x) →
    (∃ j, i < j ∧ Left p h j x) ∨ x ∈ ahead ∨ ∃ j, i < j ∧ Calls h j x

theorem Expects.nil (p : NodeId) (ahead : List NodeId) : Expects p [] ahead :=
  fun _ _ hi => absurd hi.lt (Nat.not_lt_zero _)

/-- What is ahead of the cursor is expected until it is called. -/
theorem Expects.call {y : NodeId} (hexp : Expects p h (y :: ahead)) :
    Expects p (h ++ [.call y]) ahead := by
  intro i x hi
  have hi' : Happens h i (·.Appends p x) := hi.of_concat (Or.inr fun h => h)
  rcases hexp i x hi' with ⟨j, hij, hj⟩ | hx | ⟨j, hij, hj⟩
  · exact Or.inl ⟨j, hij, hj.concat⟩
  · rcases List.mem_cons.mp hx with rfl | hx
    · exact Or.inr (Or.inr ⟨h.length, hi'.lt, happens_last rfl⟩)
    · exact Or.inr (Or.inl hx)
  · exact Or.inr (Or.inr ⟨j, hij, hj.concat⟩)

/-- What is carried ahead is expected as well. -/
theorem Expects.edit (hexp : Expects p h ahead) (hm : Carries p m passed ahead passed' ahead') :
    Expects p (h ++ [m]) ahead' := by
  intro i x hi
  rcases happens_concat.mp hi with hi | ⟨rfl, happends⟩
  · rcases hexp i x hi with ⟨j, hij, hj⟩ | hx | ⟨j, hij, hj⟩
    · exact Or.inl ⟨j, hij, hj.concat⟩
    · by_cases hleaves : m.Leaves p x
      · exact Or.inl ⟨h.length, hi.lt, happens_last hleaves⟩
      · exact Or.inr (Or.inl (hm.passage.mem_ahead hx hleaves))
    · exact Or.inr (Or.inr ⟨j, hij, hj.concat⟩)
  · exact Or.inr (Or.inl (hm.appends x happends))

end Invariants

end Traversal

end Stylesheet
