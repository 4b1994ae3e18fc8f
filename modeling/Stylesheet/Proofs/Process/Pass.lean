import Stylesheet.Proofs.Process.Coverage
import Stylesheet.Proofs.Process.Entered
import Stylesheet.Proofs.Tree.Order
import Stylesheet.Proofs.Tree.Orderly

/-!
# One pass

When the callbacks for nodes only look at the tree, a run makes a single pass over it, and the
stack of visits goes the way of a recursion.

* `Program.passCalls` is the recursion: a node is entered, its children are gone through, and it is
  left.
* `PluginRun.visit_reaches` shows by induction on a branch that its visit makes just these calls and
  leaves everything outside of the branch to be visited.
* `PluginRun.calls_of_looks` says which calls a whole run makes.
-/

namespace Stylesheet

open Stylesheet.Tree

variable {σ : Type} {p : Program σ}

/-! ### Passes as a recursion -/

namespace Program

/-- The calls for some events of a node: event by event, by plugin and in the order in which the
callbacks were given. -/
def keyCalls (p : Program σ) (x : NodeId) (keys : List EventKey) : List (Listener σ × NodeId) :=
  keys.flatMap fun key => (Plugin.listeners p.plugins (.visit key)).map (·, x)

/-- The calls for entering or leaving a node. -/
def eventCalls (p : Program σ) (t : Tree) (leaving : Bool) (x : NodeId) :
    List (Listener σ × NodeId) :=
  ((t.content? x).map fun c => p.keyCalls x (c.events leaving)).getD []

mutual

/-- The calls of a pass over a branch. -/
def passCalls (p : Program σ) (t : Tree) : Branch NodeId → List (Listener σ × NodeId)
  | .node x kids => p.eventCalls t false x ++ passCallsAll p t kids ++ p.eventCalls t true x

/-- The calls of a pass over branches, one after the other. -/
def passCallsAll (p : Program σ) (t : Tree) : List (Branch NodeId) → List (Listener σ × NodeId)
  | [] => []
  | b :: bs => passCalls p t b ++ passCallsAll p t bs

end

end Program

/-! ### Callbacks that only look -/

/-- The callback leaves all nodes below the root, and their marks, as they are. It may make other
nodes and edit them. -/
structure Callback.Looks (c : Callback σ) : Prop where
  usesApi : c.UsesApi
  preserved : ∀ (call : Call) (s : Stage σ), s.desk.tree.Orderly →
    s.desk.tree.Preserved (StateT.run (ExceptT.run (c.body call)) s).2.desk.tree
  marks : ∀ (call : Call) (s : Stage σ), s.desk.tree.Orderly → ∀ x, s.desk.tree.Attached x →
    (StateT.run (ExceptT.run (c.body call)) s).2.desk.tree.isClean x = s.desk.tree.isClean x

/-- The callbacks for nodes only look at the tree. Those in front of all visits may edit it. -/
structure Program.Looks (p : Program σ) : Prop where
  once : ∀ l ∈ Plugin.onceListeners p.plugins, l.callback.UsesApi
  visitors : ∀ key, ∀ l ∈ Plugin.listeners p.plugins (.visit key), l.callback.Looks

/-- A callback that only looks leaves the tree as it is. -/
theorem Callback.Looks.onward {c : Callback σ} (hc : c.Looks) (call : Call) {s : Stage σ} {t : Tree}
    (hs : s.desk.tree.Orderly) (hsame : t.Preserved s.desk.tree) :
    t.Onward s.desk.tree.lastCursor [] s.desk.tree
      (StateT.run (ExceptT.run (c.body call)) s).2.desk.tree := by
  have hworked := hc.usesApi call s hs.consistent
  have hlater := hworked.later hs.consistent
  have hmarks := hc.marks call s hs
  exact {
    orderly := hs.later (hworked.consistent hs.consistent) hlater
    preserved := hsame.trans (hc.preserved call s hs)
    marked := fun x hx hclean => (hmarks x (hsame.attached hx)).trans hclean
    fresh := fun x hx => Or.inl (hlater.kept hx).clean
    cursors := fun x hx hclean =>
      (hlater.kept ((hmarks x (hsame.attached hx)).trans hclean)).cursors
    lastCursor := LaterBut.lastCursor hlater }

namespace PluginRun

variable {r r' : PluginRun σ} {t u : Tree} {stack stack' below : List (Visit σ)}
  {bound bound' : NodeId → Nat} {new new' : List NodeId}
  {cs cs' : List (Listener σ × NodeId)}

/-! ### Moments of a pass -/

/-- A moment of a pass over a tree, with these visits going on. -/
structure Visiting (p : Program σ) (t : Tree) (stack : List (Visit σ)) (r : PluginRun σ) :
    Prop where
  point : r.point = .visiting stack
  orderly : r.tree.Orderly
  preserved : t.Preserved r.tree
  unfailing : r.Unfailing p

/-- The run comes to another moment of the pass, with these calls. -/
def Reaches (p : Program σ) (t : Tree) (bound : NodeId → Nat) (new : List NodeId)
    (cs : List (Listener σ × NodeId)) (stack : List (Visit σ)) (r : PluginRun σ) : Prop :=
  ∃ r', Leads p r cs r' ∧ Visiting p t stack r' ∧ t.Onward bound new r.tree r'.tree

theorem Visiting.reaches (hr : Visiting p t stack r) : Reaches p t bound [] [] stack r :=
  ⟨r, .refl r, hr, .refl hr.orderly hr.preserved⟩

/-- Steps in front of what is reached. -/
theorem Reaches.after (h : Reaches p t bound new' cs' stack r') (hleads : Leads p r cs r')
    (honward : t.Onward bound new r.tree r'.tree) :
    Reaches p t bound (new ++ new') (cs ++ cs') stack r := by
  obtain ⟨r'', hleads', hr'', honward'⟩ := h
  exact ⟨r'', hleads.trans hleads', hr'', honward.trans honward'⟩

/-- One stretch after the other. -/
theorem Reaches.trans (h : Reaches p t bound new cs stack r)
    (h' : ∀ r', Visiting p t stack r' → t.Onward bound new r.tree r'.tree →
      Reaches p t bound new' cs' stack' r') :
    Reaches p t bound (new ++ new') (cs ++ cs') stack' r := by
  obtain ⟨r', hleads, hr', honward⟩ := h
  exact (h' r' hr' honward).after hleads honward

/-- One step that makes no call. -/
theorem Visiting.leads_quiet (hr : Visiting p t stack r)
    (hstep : r.step p = (r.withTree u).moveTo (.visiting stack')) (hcall : r.call? = none)
    (hu : u.Orderly) (hsame : t.Preserved u) :
    ∃ r', Leads p r [] r' ∧ Visiting p t stack' r' ∧ r'.tree = u := by
  have hleads := leads_silent hstep hcall
  exact ⟨_, hleads, ⟨rfl, hu, hsame, hr.unfailing.leads hleads⟩, rfl⟩

/-- A step without a call. -/
theorem Visiting.quiet (hr : Visiting p t stack r)
    (hstep : r.step p = (r.withTree u).moveTo (.visiting stack')) (hcall : r.call? = none)
    (honward : t.Onward bound new r.tree u) : Reaches p t bound new [] stack' r := by
  obtain ⟨r', hleads, hr', htree⟩ := hr.leads_quiet hstep hcall honward.orderly honward.preserved
  exact ⟨r', hleads, hr', htree ▸ honward⟩

/-- A node of the tree can be visited at each moment of the pass. -/
theorem Visiting.canVisit (hr : Visiting p t stack r) {x : NodeId} (hx : t.Attached x) :
    PluginRun.canVisit r.tree x = true :=
  canVisit_of_attached hr.orderly.rooted (hr.preserved.attached hx)

section

variable {x : NodeId} {steps : List VisitStep}

/-- The step of a visit that has listeners left is a call. -/
theorem Visiting.step_call {l : Listener σ} {visitors : List (Listener σ)}
    (hr : Visiting p t (⟨x, steps, l :: visitors, none⟩ :: below) r) (hx : t.Attached x) :
    r.step p = r.call p l x (.visiting (⟨x, steps, visitors, none⟩ :: below)) := by
  rw [step, hr.point]
  exact if_pos (hr.canVisit hx)

/-- With a cursor open, it goes on to a child. -/
theorem Visiting.step_child {k : Nat} (hr : Visiting p t (⟨x, steps, [], some k⟩ :: below) r)
    (hx : t.Attached x) : r.step p = r.nextChild ⟨x, steps, [], some k⟩ k below := by
  rw [step, hr.point]
  exact if_pos (hr.canVisit hx)

/-- Otherwise it goes on to its next part. -/
theorem Visiting.step_part (hr : Visiting p t (⟨x, steps, [], none⟩ :: below) r)
    (hx : t.Attached x) : r.step p = r.nextStep p ⟨x, steps, [], none⟩ below := by
  rw [step, hr.point]
  exact if_pos (hr.canVisit hx)

theorem Visiting.call?_eq {v : Visit σ} (hr : Visiting p t (v :: below) r)
    (hx : t.Attached v.node) : r.call? = v.visitors.head?.map fun l => (l, v.node) := by
  rw [call?, hr.point]
  show (if PluginRun.canVisit r.tree v.node then _ else _) = _
  rw [if_pos (hr.canVisit hx)]

/-! ### Parts of a visit -/

/-- The callbacks of one event are called one after the other. -/
theorem visitors_reaches (hx : t.Attached x) {visitors : List (Listener σ)}
    (hlooks : ∀ l ∈ visitors, l.callback.Looks)
    (hr : Visiting p t (⟨x, steps, visitors, none⟩ :: below) r)
    (hbound : ∀ y, bound y ≤ r.tree.lastCursor y) :
    Reaches p t bound [] (visitors.map (·, x)) (⟨x, steps, [], none⟩ :: below) r := by
  -- One call after the other; looking leaves the visit as it was, so the induction goes through.
  induction visitors generalizing r with
  | nil => exact hr.reaches
  | cons l visitors ih =>
    rw [List.forall_mem_cons] at hlooks
    have hstep := hr.step_call hx
    have hleads := leads_step (p := p) r
    rw [hr.call?_eq hx] at hleads
    have hfailed := hr.unfailing.step
    rw [hstep] at hfailed
    obtain ⟨hpoint, hstage⟩ := call_of_not_hasFailed hfailed
    rw [← hstep] at hpoint hstage
    have honward : t.Onward r.tree.lastCursor [] r.tree (r.step p).tree := by
      rw [tree, tree, hstage]
      exact hlooks.1.onward _ hr.orderly hr.preserved
    have hfirst : Reaches p t bound [] [(l, x)] (⟨x, steps, visitors, none⟩ :: below) r :=
      ⟨r.step p, hleads, ⟨hpoint, honward.orderly, honward.preserved, hr.unfailing.leads hleads⟩,
        honward.mono hbound⟩
    exact hfirst.trans fun r' hr' honward' =>
      ih hlooks.2 hr' fun y => Nat.le_trans (hbound y) (honward'.lastCursor y)

/-- Events are announced one after the other. -/
theorem events_reaches (hp : p.Looks) (hx : t.Attached x) {keys : List EventKey}
    (hr : Visiting p t (⟨x, keys.map .event ++ steps, [], none⟩ :: below) r)
    (hbound : ∀ y, bound y ≤ r.tree.lastCursor y) :
    Reaches p t bound [] (p.keyCalls x keys) (⟨x, steps, [], none⟩ :: below) r := by
  induction keys generalizing r with
  | nil => exact hr.reaches
  | cons key keys ih =>
    have hannounce : Reaches p t bound [] []
        (⟨x, keys.map .event ++ steps, Plugin.listeners p.plugins (.visit key), none⟩ :: below) r :=
      hr.quiet (hr.step_part hx) (hr.call?_eq hx) (.refl hr.orderly hr.preserved)
    refine hannounce.trans fun r₁ hr₁ honward₁ => ?_
    have hbound₁ := fun y => Nat.le_trans (hbound y) (honward₁.lastCursor y)
    refine (visitors_reaches hx (hp.visitors key) hr₁ hbound₁).trans fun r₂ hr₂ honward₂ => ?_
    exact ih hr₂ fun y => Nat.le_trans (hbound₁ y) (honward₂.lastCursor y)

/-- The visit of a node without children below it, and of one whose children were gone through. -/
theorem leave_reaches (hx : t.Attached x) (hr : Visiting p t (⟨x, [], [], none⟩ :: below) r) :
    Reaches p t bound [] [] below r :=
  hr.quiet (hr.step_part hx) (hr.call?_eq hx) (.refl hr.orderly hr.preserved)

/-! ### Visits -/

/-- All nodes of a branch below the root are below the root. -/
theorem attached_of_mem_listAll (ht : t.Consistent) (hx : t.Attached x) {i : Nat} {y : NodeId}
    (hy : y ∈ Branch.listAll (((t.children x).drop i).map t.shape)) : t.Attached y := by
  obtain ⟨b, hb, hy⟩ := Branch.mem_listAll.mp hy
  obtain ⟨c, hc, rfl⟩ := List.mem_map.mp hb
  exact (ht.mem_shape_iff.mp hy).trans (hx.child ht (List.mem_of_mem_drop hc))

/-- Branches of the children still ahead share no node. -/
theorem nodup_listAll_drop (ht : t.Consistent) (x : NodeId) (i : Nat) :
    (Branch.listAll (((t.children x).drop i).map t.shape)).Nodup :=
  ht.nodup_listAll ht.nodup_shape (fun _ _ => ht.mem_shape_iff.mp)
    ((List.drop_sublist i _).nodup (ht.nodup_children x)) fun _ => List.mem_of_mem_drop

/-- The parts of the visit of a node. -/
theorem ofNode_eq (hu : u.Orderly) (hsame : t.Preserved u) (hx : t.Attached x) :
    ∃ c : Content, t.content? x = some c ∧ ∃ middle, (Visit.ofNode u x : Visit σ) =
      ⟨x, (c.events false).map .event ++ (middle ++ (c.events true).map .event), [], none⟩ ∧
      (middle = [.children] ∨ middle = [] ∧ t.children x = []) := by
  obtain ⟨n, hn⟩ := (hsame.attached hx).exists_get? hu.rooted
  refine ⟨n.content, ?_, if n.isContainer then [.children] else [], ?_, ?_⟩
  · rw [← hsame.content x hx, content?, hn]
    rfl
  · rw [Visit.ofNode, hn, Option.map_some, Option.getD_some, visitSteps_eq, List.append_assoc]
  · by_cases hblock : n.isContainer = true
    · exact Or.inl (if_pos hblock)
    · refine Or.inr ⟨if_neg hblock, ?_⟩
      rw [← hsame.children hx]
      by_contra hne
      have hcontainer := hu.consistent.block x hne
      rw [hasBlock, hn] at hcontainer
      exact hblock hcontainer

/-- The children have been gone through, and the cursor is closed. -/
theorem ascend_reaches (hx : t.Attached x) {k : Nat}
    (hr : Visiting p t (⟨x, steps, [], some k⟩ :: below) r)
    (hend : r.tree.cursorChild? x k = none) (hk : bound x < k) :
    Reaches p t bound [] [] (⟨x, steps, [], none⟩ :: below) r := by
  refine hr.quiet (u := r.tree.closeCursor x k) ?_ (hr.call?_eq hx) ?_
  · rw [hr.step_child hx, nextChild, hend]
  · refine .of_alike hr.orderly hr.preserved (alike_closeCursor _ _ _)
      (numbered_closeCursor _ _ hr.orderly.numbered) (fun y j hj => ?_)
      fun y => Nat.le_of_eq (lastCursor_closeCursor _ _ _ y).symm
    refine cursorIndex?_closeCursor _ ?_
    rintro rfl rfl
    omega

/-- The visit of the next child begins. -/
theorem enter_leads (hx : t.Attached x) {k i : Nat} {c : NodeId}
    (hr : Visiting p t (⟨x, steps, [], some k⟩ :: below) r)
    (hi : r.tree.cursorIndex? x k = some (i : Int)) (hc : (t.children x)[i]? = some c)
    (hdirty : r.tree.isClean c = false) (hk : bound x < k) :
    ∃ u r', Leads p r [] r' ∧
      Visiting p t (.ofNode u c :: ⟨x, steps, [], some k⟩ :: below) r' ∧ r'.tree = u ∧
      t.Onward bound [c] r.tree u ∧ u.isClean c = true ∧ u.lastCursor = r.tree.lastCursor ∧
      u.cursorIndex? x k = some ((i + 1 : Nat) : Int) := by
  have hchild : r.tree.cursorChild? x k = some (i, c) :=
    cursorChild?_eq_some.mpr ⟨hi, by rw [hr.preserved.children hx]; exact hc⟩
  have hadvance : t.Onward bound [] r.tree (r.tree.advanceCursor x k) := by
    refine .of_alike hr.orderly hr.preserved (alike_advanceCursor _ _ _)
      (numbered_advanceCursor _ _ hr.orderly.numbered) (fun y j hj => ?_)
      fun y => Nat.le_of_eq (lastCursor_advanceCursor _ _ _ y).symm
    rw [cursorIndex?_advanceCursor]
    have hne : ¬ (x = y ∧ j = k) := by
      rintro ⟨rfl, rfl⟩
      omega
    simp only [if_neg hne]
    exact Option.map_id'
  -- Two changes in one step: the cursor moves on, and the child is marked.
  have hmark : t.Onward bound [c] (r.tree.advanceCursor x k) _ :=
    .markClean hadvance.orderly hadvance.preserved c
  have hcontains : (r.tree.advanceCursor x k).contains c = true := by
    refine hadvance.orderly.consistent.contains x c ?_
    rw [hadvance.preserved.children hx]
    exact List.mem_of_getElem? hc
  have hstep : r.step p = (r.withTree ((r.tree.advanceCursor x k).markClean c)).moveTo (.visiting
      (.ofNode ((r.tree.advanceCursor x k).markClean c) c :: ⟨x, steps, [], some k⟩ :: below)) := by
    rw [hr.step_child hx, nextChild, hchild]
    dsimp only
    rw [show (r.tree.advanceCursor x k).isClean c = false from
      (congrFun (alike_advanceCursor r.tree x k).clean c).trans hdirty]
    rfl
  obtain ⟨r', hleads, hr', htree⟩ :=
    hr.leads_quiet hstep (hr.call?_eq hx) hmark.orderly hmark.preserved
  refine ⟨_, r', hleads, hr', htree, hadvance.trans hmark,
    (isClean_markClean_iff _ c c).mpr (Or.inl ⟨rfl, hcontains⟩), ?_, ?_⟩
  · funext y
    rw [lastCursor_markClean, lastCursor_advanceCursor]
  · rw [cursorIndex?_markClean, cursorIndex?_advanceCursor, hi, Option.map_some,
      if_pos ⟨rfl, rfl⟩]
    rfl

/-- Going through the children begins. -/
theorem descend_leads (hx : t.Attached x)
    (hr : Visiting p t (⟨x, .children :: steps, [], none⟩ :: below) r)
    (hclean : r.tree.isClean x = true) (hne : t.children x ≠ []) :
    ∃ k r', Leads p r [] r' ∧ Visiting p t (⟨x, steps, [], some k⟩ :: below) r' ∧
      t.Onward r.tree.lastCursor [] r.tree r'.tree ∧ r.tree.lastCursor x < k ∧
      k ≤ r'.tree.lastCursor x ∧ r'.tree.cursorIndex? x k = some 0 := by
  have hchildren : r.tree.children x ≠ [] := by
    rw [hr.preserved.children hx]
    exact hne
  have hmark : t.Onward r.tree.lastCursor [x] r.tree _ := .markClean hr.orderly hr.preserved x
  have hblock : (r.tree.markClean x).hasBlock x = true := by
    rw [hasBlock_eq_links, links_markClean, ← hasBlock_eq_links]
    exact hr.orderly.consistent.block x hchildren
  -- A node with children has a list, so a cursor can be opened.
  obtain ⟨k, u, hopen⟩ := exists_openCursor hblock
  have hlast := fun y => lastCursor_markClean r.tree x y
  have honward : t.Onward r.tree.lastCursor [] (r.tree.markClean x) u := by
    refine .of_alike hmark.orderly hmark.preserved (alike_openCursor hopen)
      (numbered_openCursor hopen hmark.orderly.numbered) (fun y j hj => ?_)
      (lastCursor_openCursor hopen)
    exact cursorIndex?_openCursor hopen ((hlast y).symm ▸ hj)
  have hstep : r.step p =
      (r.withTree u).moveTo (.visiting (⟨x, steps, [], some k⟩ :: below)) := by
    rw [hr.step_part hx, nextStep]
    dsimp only
    rw [if_neg fun h => hchildren (List.isEmpty_iff.mp h), hopen]
  obtain ⟨r', hleads, hr', rfl⟩ :=
    hr.leads_quiet hstep (hr.call?_eq hx) honward.orderly honward.preserved
  obtain ⟨hlt, heq⟩ := lastCursor_opened hopen
  rw [hlast] at hlt
  exact ⟨k, r', hleads, hr', (hmark.trans honward).unmarked hclean, hlt, Nat.le_of_eq heq.symm,
    cursorIndex?_opened hopen hmark.orderly.numbered⟩

mutual

/-- The visit of a node makes the calls of a pass over its branch, and marks the nodes below it. -/
theorem visit_reaches (hp : p.Looks) (ht : t.Consistent) :
    ∀ (b : Branch NodeId) {x : NodeId} {u : Tree} {below : List (Visit σ)} {r : PluginRun σ},
      t.shape x = b → t.Attached x → u.Orderly → t.Preserved u →
      Visiting p t (.ofNode u x :: below) r → r.tree.isClean x = true →
      (∀ y ∈ Branch.listAll b.kids, r.tree.isClean y = false) →
      Reaches p t r.tree.lastCursor (Branch.listAll b.kids) (p.passCalls t b) below r
  | .node y kids, x, u, below, r, hb, hx, hu, hsame, hr, hclean, hdirty => by
    rw [ht.shape_eq_node] at hb
    obtain ⟨rfl, hkids⟩ := Branch.node.inj hb
    obtain ⟨c, hc, middle, hvisit, hmiddle⟩ := ofNode_eq (σ := σ) hu hsame hx
    rw [hvisit] at hr
    have hevents : ∀ leaving, p.eventCalls t leaving x = p.keyCalls x (c.events leaving) := by
      intro leaving
      rw [Program.eventCalls, hc]
      rfl
    rw [Program.passCalls, hevents, hevents]
    -- In the middle of a visit: the children, if the node can have any. This is where the recursion
    -- on the shape goes down.
    have hbelow : ∀ r₁, Visiting p t
        (⟨x, middle ++ (c.events true).map .event, [], none⟩ :: below) r₁ →
        t.Onward r.tree.lastCursor [] r.tree r₁.tree →
        Reaches p t r.tree.lastCursor (Branch.listAll kids) (p.passCallsAll t kids)
          (⟨x, (c.events true).map .event, [], none⟩ :: below) r₁ := by
      intro r₁ hr₁ honward
      rcases hmiddle with rfl | ⟨rfl, hnil⟩
      · by_cases hnil : t.children x = []
        · rw [hnil] at hkids
          obtain rfl := hkids
          refine hr₁.quiet ?_ (hr₁.call?_eq hx) (.refl hr₁.orderly hr₁.preserved)
          rw [hr₁.step_part hx, List.singleton_append, nextStep]
          dsimp only
          rw [hr₁.preserved.children hx, hnil]
          rfl
        · have hclean₁ := honward.marked x hx hclean
          obtain ⟨k, r₂, hleads, hr₂, honward₂, hlt, hle, hi⟩ := descend_leads hx hr₁ hclean₁ hnil
          have hlast := honward.lastCursor
          have hgo : Reaches p t r.tree.lastCursor _ _ _ r₂ := kids_reaches hp ht kids (i := 0)
            hkids hx hr₂ (honward₂.marked x hx hclean₁) hi (Nat.lt_of_le_of_lt (hlast x) hlt) hle
            (fun y => Nat.le_trans (hlast y) (honward₂.lastCursor y))
            fun y hy => honward₂.not_isClean
              (honward.not_isClean (hdirty y hy) List.not_mem_nil) List.not_mem_nil
          exact hgo.after hleads (honward₂.mono hlast)
      · rw [hnil] at hkids
        obtain rfl := hkids
        exact hr₁.reaches
    -- At its end: the events on the way out, and the return to the parent's visit.
    have hleaving : ∀ r₂, Visiting p t (⟨x, (c.events true).map .event, [], none⟩ :: below) r₂ →
        t.Onward r.tree.lastCursor ([] ++ Branch.listAll kids) r.tree r₂.tree →
        Reaches p t r.tree.lastCursor [] (p.keyCalls x (c.events true)) below r₂ := by
      intro r₂ hr₂ honward
      rw [← List.append_nil (List.map _ _)] at hr₂
      have hgo := (events_reaches hp hx hr₂ honward.lastCursor).trans
        fun _ hr₃ _ => leave_reaches hx hr₃
      rwa [List.append_nil, List.append_nil] at hgo
    have hgo := ((events_reaches hp hx hr fun _ => Nat.le_refl _).trans hbelow).trans hleaving
    rwa [List.nil_append, List.append_nil] at hgo

/-- The induction is on the children ahead: each branch is passed, and then the rest. -/
theorem kids_reaches (hp : p.Looks) (ht : t.Consistent) :
    ∀ (bs : List (Branch NodeId)) {x : NodeId} {i k : Nat} {steps : List VisitStep}
      {below : List (Visit σ)} {bound : NodeId → Nat} {r : PluginRun σ},
      ((t.children x).drop i).map t.shape = bs → t.Attached x →
      Visiting p t (⟨x, steps, [], some k⟩ :: below) r → r.tree.isClean x = true →
      r.tree.cursorIndex? x k = some (i : Int) → bound x < k → k ≤ r.tree.lastCursor x →
      (∀ y, bound y ≤ r.tree.lastCursor y) →
      (∀ y ∈ Branch.listAll bs, r.tree.isClean y = false) →
      Reaches p t bound (Branch.listAll bs) (p.passCallsAll t bs)
        (⟨x, steps, [], none⟩ :: below) r
  | [], x, i, k, steps, below, bound, r, hbs, hx, hr, hclean, hi, hbk, hk, hbound, hdirty => by
    refine ascend_reaches hx hr ?_ hbk
    have hdrop := List.drop_eq_nil_iff.mp (List.map_eq_nil_iff.mp hbs)
    cases hchild : r.tree.cursorChild? x k with
    | none => rfl
    | some found =>
      obtain ⟨j, c⟩ := found
      obtain ⟨hj, hc⟩ := cursorChild?_eq_some.mp hchild
      rw [hi] at hj
      obtain rfl := Int.ofNat.inj (Option.some.inj hj)
      rw [hr.preserved.children hx, List.getElem?_eq_none hdrop] at hc
      cases hc
  | b :: bs, x, i, k, steps, below, bound, r, hbs, hx, hr, hclean, hi, hbk, hk, hbound, hdirty => by
    have hnodup := nodup_listAll_drop ht x i
    rw [hbs] at hnodup
    obtain ⟨c, cs, hdrop, hb, hcs⟩ := List.map_eq_cons_iff.mp hbs
    have hc : (t.children x)[i]? = some c := by
      rw [← Nat.add_zero i, ← List.getElem?_drop, hdrop]
      rfl
    have hrest : ((t.children x).drop (i + 1)).map t.shape = bs := by
      rw [← List.drop_drop, hdrop]
      exact hcs
    have hchild : t.Attached c := hx.child ht (List.mem_of_getElem? hc)
    have htop : b.toList = c :: Branch.listAll b.kids := by
      rw [← hb, ht.shape_eq_node]
      rfl
    rw [Branch.listAll, htop] at hdirty hnodup ⊢
    rw [List.forall_mem_append, List.forall_mem_cons] at hdirty
    obtain ⟨⟨hc₀, hkids₀⟩, hrest₀⟩ := hdirty
    obtain ⟨hbnodup, -, hdisjoint⟩ := List.nodup_append.mp hnodup
    -- The child is entered, visited, and the cursor stands at the next one.
    obtain ⟨u, r₁, hleads₁, hr₁, rfl, honward₁, hclean₁, hlast₁, hi₁⟩ :=
      enter_leads hx hr hi hc hc₀ hbk
    obtain ⟨r₂, hleads₂, hr₂, honward₂⟩ := visit_reaches hp ht b hb hchild hr₁.orderly
      hr₁.preserved hr₁ hclean₁ fun y hy => honward₁.not_isClean (hkids₀ y hy) fun hmem =>
        (List.nodup_cons.mp hbnodup).1 (List.mem_singleton.mp hmem ▸ hy)
    have hx₁ := honward₁.marked x hx hclean
    have hi₂ := (honward₂.cursors x hx hx₁ k (hlast₁ ▸ hk)).trans hi₁
    have hlast₂ := hlast₁ ▸ honward₂.lastCursor
    have honward : t.Onward bound _ r.tree r₂.tree :=
      honward₁.trans (honward₂.mono (hlast₁ ▸ hbound))
    have hgo := kids_reaches hp ht bs hrest hx hr₂ (honward₂.marked x hx hx₁) hi₂ hbk
      (Nat.le_trans hk (hlast₂ x)) (fun y => Nat.le_trans (hbound y) (hlast₂ y))
      fun y hy => honward.not_isClean (hrest₀ y hy) fun hmem => hdisjoint y hmem y hy rfl
    rw [Program.passCallsAll]
    exact hgo.after (hleads₁.trans hleads₂) honward

end

end

/-! ### Whole runs -/

/-- The tree when all callbacks in front of the visits have been called. -/
def opened (p : Program σ) (stage : Stage σ) : Tree :=
  ((start p stage).go p (Plugin.onceListeners p.plugins).length).tree

/-- The callbacks in front of the visits are called one after the other, and leave an orderly tree
in which nothing counts as visited. -/
theorem opening_go {rest : List (Listener σ)} (hlisteners : ∀ l ∈ rest, l.callback.UsesApi)
    (hpoint : r.point = .opening rest) (hr : r.tree.Orderly)
    (hdirty : ∀ x, r.tree.Attached x → r.tree.isClean x = false) (hfailed : r.Unfailing p) :
    (r.go p rest.length).point = .opening [] ∧ (r.go p rest.length).tree.Orderly ∧
      (∀ x, (r.go p rest.length).tree.Attached x →
        (r.go p rest.length).tree.isClean x = false) ∧
      calls p rest.length r = rest.map (·, rootId) := by
  induction rest generalizing r with
  | nil => exact ⟨hpoint, hr, hdirty, rfl⟩
  | cons l rest ih =>
    rw [List.forall_mem_cons] at hlisteners
    have hstep : r.step p = r.call p l rootId (.opening rest) := by rw [step, hpoint]
    have hcall : r.call? = some (l, rootId) := by rw [call?, hpoint]
    have hfailed' := hfailed.step
    rw [hstep] at hfailed'
    obtain ⟨hnext, hworked⟩ := call_cases hlisteners.1 hr.consistent hfailed'
    rw [← hstep] at hnext hworked
    have hlater := hworked.later hr.consistent
    -- A callback may edit the tree, but it sets no clean mark.
    have hdirty' : ∀ x, (r.step p).tree.Attached x → (r.step p).tree.isClean x = false := by
      intro x hx
      refine Bool.eq_false_iff.mpr fun hclean => ?_
      have hkept := hlater.kept hclean
      exact Bool.eq_false_iff.mp (hdirty x (hkept.attached hx)) hkept.clean
    have h := ih hlisteners.2 hnext (hr.later (hworked.consistent hr.consistent) hlater) hdirty'
      (hfailed.leads (leads_step r))
    rw [go_step] at h
    rw [List.length_cons, calls, hcall, h.2.2.2]
    exact ⟨h.1, h.2.1, h.2.2.1, rfl⟩

/-- The callbacks for the end are called one after the other. -/
theorem closing_leads {rest : List (Listener σ)} (hpoint : r.point = .closing rest)
    (hfailed : r.Unfailing p) :
    ∃ r', Leads p r (rest.map (·, rootId)) r' ∧ r'.point = .finished := by
  induction rest generalizing r with
  | nil =>
    refine ⟨r.moveTo .finished, leads_silent ?_ ?_, rfl⟩
    · rw [step, hpoint]
    · rw [call?, hpoint]
  | cons l rest ih =>
    have hstep : r.step p = r.call p l rootId (.closing rest) := by rw [step, hpoint]
    have hleads := leads_step (p := p) r
    have hfailed' := hfailed.step
    rw [hstep] at hfailed'
    have hnext := (call_of_not_hasFailed hfailed').1
    rw [← hstep] at hnext
    obtain ⟨r', hleads', hr'⟩ := ih hnext (hfailed.leads hleads)
    rw [call?, hpoint] at hleads
    exact ⟨r', hleads.trans hleads', hr'⟩

/-- A pass over the tree that nothing changes is the only one. -/
theorem pass_leads (hp : p.Looks) (hpoint : r.point = .settling) (hr : r.tree.Orderly)
    (hdirty : ∀ x, r.tree.Attached x → r.tree.isClean x = false) (hfailed : r.Unfailing p) :
    ∃ r', Leads p r (p.passCalls r.tree (r.tree.shape rootId) ++
      (Plugin.listeners p.plugins .atEnd).map (·, rootId)) r' ∧ r'.point = .finished := by
  have hroot : r.tree.Attached rootId := .refl
  have hmark : r.tree.Onward (fun _ => 0) [rootId] r.tree _ := .markClean hr (.refl r.tree) rootId
  have hclean : (r.tree.markClean rootId).isClean rootId = true :=
    (isClean_markClean_iff _ _ _).mpr (Or.inl ⟨rfl, contains_of_kind? hr.rooted⟩)
  have hkids : ∀ y ∈ Branch.listAll (r.tree.shape rootId).kids,
      (r.tree.markClean rootId).isClean y = false := by
    intro y hy
    have hnodup := hr.consistent.nodup_shape rootId
    rw [hr.consistent.shape_eq_node] at hy hnodup
    refine hmark.not_isClean (hdirty y ?_) fun hmem => ?_
    · exact attached_of_mem_listAll hr.consistent hroot (i := 0) hy
    · exact (List.nodup_cons.mp hnodup).1 (List.mem_singleton.mp hmem ▸ hy)
  -- The visit of the root begins.
  let r₁ := (r.withTree (r.tree.markClean rootId)).moveTo
    (.visiting [.ofNode (r.tree.markClean rootId) rootId])
  have hleads₁ : Leads p r [] r₁ := by
    refine leads_silent ?_ ?_
    · rw [step, hpoint]
      exact if_neg (Bool.eq_false_iff.mp (hdirty rootId hroot))
    · rw [call?, hpoint]
  have hfailed₁ := hfailed.leads hleads₁
  have hr₁ : Visiting p r.tree [.ofNode (r.tree.markClean rootId) rootId] r₁ :=
    ⟨rfl, hmark.orderly, hmark.preserved, hfailed₁⟩
  -- It makes the calls of the pass and comes to an end.
  obtain ⟨r₂, hleads₂, hr₂, honward₂⟩ := visit_reaches hp hr.consistent _ rfl hroot
    hmark.orderly hmark.preserved hr₁ hclean hkids
  have hleads₃ : Leads p r₂ [] (r₂.moveTo .settling) := by
    refine leads_silent ?_ ?_
    · rw [step, hr₂.point]
    · rw [call?, hr₂.point]
  -- Then the root counts as visited, and there is no other pass.
  have hleads₄ : Leads p (r₂.moveTo .settling) []
      (r₂.moveTo (.closing (Plugin.listeners p.plugins .atEnd))) :=
    leads_silent (if_pos (honward₂.marked rootId hroot hclean)) rfl
  obtain ⟨r', hleads₅, hr'⟩ := closing_leads rfl
    (hfailed₁.leads (hleads₂.trans (hleads₃.trans hleads₄)))
  exact ⟨r', hleads₁.trans (hleads₂.trans (hleads₃.trans (hleads₄.trans hleads₅))), hr'⟩

theorem listeners_of_not_anyHooks (h : ¬ Plugin.anyHooks p.plugins = true) (hook : Hook) :
    Plugin.listeners p.plugins hook = [] := by
  refine List.flatMap_eq_nil_iff.mpr fun q hq => ?_
  have hnone : q.hooks = [] := by
    by_contra hne
    refine h (List.any_eq_true.mpr ⟨q, hq, ?_⟩)
    rw [Bool.not_eq_true', List.isEmpty_eq_false_iff]
    exact hne
  rw [hnone]
  rfl

mutual

/-- Without listeners nothing is called in a branch. -/
theorem passCalls_eq_nil (h : ∀ hook, Plugin.listeners p.plugins hook = []) (t : Tree) :
    ∀ b : Branch NodeId, p.passCalls t b = []
  | .node x kids => by
    have hnil : ∀ leaving, p.eventCalls t leaving x = [] := by
      intro leaving
      rw [Program.eventCalls]
      cases t.content? x with
      | none => rfl
      | some c => exact List.flatMap_eq_nil_iff.mpr fun key _ => by rw [h]; rfl
    rw [Program.passCalls, hnil, hnil, passCallsAll_eq_nil h t kids]
    rfl

theorem passCallsAll_eq_nil (h : ∀ hook, Plugin.listeners p.plugins hook = []) (t : Tree) :
    ∀ bs : List (Branch NodeId), p.passCallsAll t bs = []
  | [] => rfl
  | b :: bs => by
    rw [Program.passCallsAll, passCalls_eq_nil h t b, passCallsAll_eq_nil h t bs]
    rfl

end

/-- What a run calls, when it does not fail and the callbacks for nodes only look at the tree: the
callbacks in front of all visits, those of one pass over the tree that they leave, in which each
node below the root comes once, and those for the end. -/
theorem calls_of_looks (hp : p.Looks) {input : ProcessInput} (hinput : input.Orderly)
    {w : Workspace} {options : ProcessOptions} {before : Result}
    (hbefore : (input.prepare w options).1 = .ok before) {stage : Stage σ}
    (hstage : stage.desk.tree = before.tree) (hfailed : (start p stage).Unfailing p) :
    (∃ steps, ∀ n ≥ steps, ((start p stage).go p n).point = .finished ∧
      calls p n (start p stage) =
        (Plugin.onceListeners p.plugins).map (·, rootId) ++
          (p.passCalls (opened p stage) ((opened p stage).shape rootId) ++
            (Plugin.listeners p.plugins .atEnd).map (·, rootId))) ∧
    (∀ x, (opened p stage).shape x =
      .node x (((opened p stage).children x).map (opened p stage).shape)) ∧
    ((opened p stage).shape rootId).toList.Nodup ∧
    ∀ x, x ∈ ((opened p stage).shape rootId).toList ↔ (opened p stage).Attached x := by
  obtain ⟨horderly, hdirty⟩ := hinput.prepare hbefore
  rw [← hstage] at horderly hdirty
  -- First part of the run: the calls at its opening, which may edit.
  obtain ⟨hpoint, hopened, hdirty', hcalls⟩ :=
    opening_go (r := start p stage) hp.once rfl horderly hdirty hfailed
  refine ⟨?_, hopened.consistent.shape_eq_node, hopened.consistent.nodup_shape rootId,
    fun x => hopened.consistent.mem_shape_iff⟩
  have hleads₁ : Leads p (start p stage) _ _ := ⟨_, rfl, hcalls⟩
  have hrest : ∃ r', Leads p (start p stage)
      ((Plugin.onceListeners p.plugins).map (·, rootId) ++
        (p.passCalls (opened p stage) ((opened p stage).shape rootId) ++
          (Plugin.listeners p.plugins .atEnd).map (·, rootId))) r' ∧ r'.point = .finished := by
    generalize hmiddle : (start p stage).go p (Plugin.onceListeners p.plugins).length = r at *
    have htree : opened p stage = r.tree := by rw [opened, hmiddle]
    rw [htree]
    -- Second part: one pass over the tree, which is left out when no plugin listens.
    by_cases hhooks : Plugin.anyHooks p.plugins = true
    · have hleads₂ : Leads p r [] (r.moveTo .settling) := by
        refine leads_silent ?_ ?_
        · rw [step, hpoint]
          exact if_pos hhooks
        · rw [call?, hpoint]
      obtain ⟨r', hleads₃, hr'⟩ := pass_leads (r := r.moveTo .settling) hp rfl hopened hdirty'
        ((hfailed.leads hleads₁).leads hleads₂)
      exact ⟨r', hleads₁.trans (hleads₂.trans hleads₃), hr'⟩
    · have hleads₂ : Leads p r [] (r.moveTo .finished) := by
        refine leads_silent ?_ ?_
        · rw [step, hpoint]
          exact if_neg hhooks
        · rw [call?, hpoint]
      have hnone := listeners_of_not_anyHooks hhooks
      rw [passCalls_eq_nil hnone, hnone]
      exact ⟨_, hleads₁.trans hleads₂, rfl⟩
  obtain ⟨r', ⟨steps, rfl, hall⟩, hfinished⟩ := hrest
  refine ⟨steps, fun n hn => ?_⟩
  -- More steps than needed change nothing.
  obtain ⟨k, rfl⟩ := Nat.exists_eq_add_of_le hn
  rw [go_add, go_of_finished hfinished, calls_add, calls_of_finished hfinished, List.append_nil]
  exact ⟨hfinished, hall⟩

/-! ### Callbacks that take notes -/

/-- A callback that notes its calls. -/
def notes : Callback (List (String × NodeId)) where
  body := fun call => modify fun s => { s with memory := s.memory ++ [(call.plugin, call.node)] }

theorem looks_notes : notes.Looks where
  usesApi := fun _ _ _ => .start
  preserved := fun _ s _ => .refl s.desk.tree
  marks := fun _ _ _ _ _ => rfl

/-- A rule with a declaration is put into the tree, and what is visited then is noted. -/
def noting : Program (List (String × NodeId)) where
  plugins := [{
    name := "grow"
    once := [.editing fun _ _ => some (.append rootId (.bag (.node { selector := some "a" }
      (some [.node { prop := some "Color", value := some "red" } none]))))]
    hooks := [(.visit (.of .declaration false (some "color")), notes), (.atEnd, notes)] }, {
    name := "look"
    hooks := [(.visit (.of .rule true none), notes), (.visit (.of .rule false none), notes),
      (.visit (.of .declaration false none), notes)] }]
  options := {}

theorem looks_noting : noting.Looks where
  once := by
    intro l hl
    rw [List.mem_singleton.mp hl]
    dsimp only
    refine Callback.usesApi_editing fun call t e he => ?_
    cases he
    exact ⟨fun m hm => by cases hm; trivial, rfl⟩
  visitors := by
    intro key l hl
    obtain ⟨q, hq, hl⟩ := List.mem_flatMap.mp hl
    obtain ⟨⟨hook, c⟩, hc, rfl⟩ := List.mem_map.mp hl
    have hall : ∀ q ∈ noting.plugins, ∀ c ∈ q.hooks.map Prod.snd, c = notes := by
      simp only [noting, List.forall_mem_cons, List.map_cons, List.map_nil, List.not_mem_nil,
        false_implies, implies_true, and_self]
    rw [show c = notes from hall q hq c (List.mem_map_of_mem (List.mem_of_mem_filter hc))]
    exact looks_notes

/-- The beginning of a run on an empty tree. -/
def notingStage : Stage (List (String × NodeId)) :=
  ⟨⟨Tree.empty.markTreeDirty rootId, {}⟩, [], []⟩

/-- A declaration is announced under its kind and then under its name. -/
theorem calls_noting :
    ((start noting notingStage).go noting 40).stage.memory =
        [("look", ⟨1⟩), ("look", ⟨2⟩), ("grow", ⟨2⟩), ("look", ⟨1⟩), ("grow", ⟨0⟩)] ∧
      ∃ steps, ∀ n ≥ steps, calls noting n (start noting notingStage) =
        (Plugin.onceListeners noting.plugins).map (·, rootId) ++
          (noting.passCalls (opened noting notingStage)
            (.node ⟨0⟩ [.node ⟨1⟩ [.node ⟨2⟩ []]]) ++
            (Plugin.listeners noting.plugins .atEnd).map (·, rootId)) := by
  have hfinished : ((start noting notingStage).go noting 40).hasFinished = true := by
    decide +kernel
  have hinput : (ProcessInput.tree Tree.empty).Orderly := orderly_empty
  have hbefore : ((ProcessInput.tree Tree.empty).prepare {} {}).1 =
      .ok { tree := Tree.empty.markTreeDirty rootId, options := {} } := rfl
  have hstage : notingStage.desk.tree = Tree.empty.markTreeDirty rootId := rfl
  obtain ⟨⟨steps, hsteps⟩, hshape, -⟩ :=
    calls_of_looks looks_noting hinput hbefore hstage (unfailing_of_hasFinished hfinished)
  have hroot : (opened noting notingStage).children rootId = [⟨1⟩] := by decide +kernel
  have hrule : (opened noting notingStage).children ⟨1⟩ = [⟨2⟩] := by decide +kernel
  have hdeclaration : (opened noting notingStage).children ⟨2⟩ = [] := by decide +kernel
  refine ⟨by decide +kernel, steps, fun n hn => ?_⟩
  rw [(hsteps n hn).2, hshape rootId, hroot, List.map_singleton, hshape ⟨1⟩, hrule,
    List.map_singleton, hshape ⟨2⟩, hdeclaration]
  rfl

end PluginRun

end Stylesheet
