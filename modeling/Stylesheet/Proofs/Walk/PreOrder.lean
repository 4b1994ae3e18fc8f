import Stylesheet.Proofs.Tree.Reread
import Stylesheet.Proofs.Walk.InFront
import Stylesheet.Walk.Each

/-!
# Walks with a callback that inserts in front

A callback that is passed a node may put as much as it likes in front of it. The walk does not see
any of this: it passes on the nodes that stood below its start at the beginning, each once, in the
order of the document (`Visiting.walk_inserting`), and a walk that looks for one kind of nodes
passes on those of them that it looks for.

The proof follows the branch that the tree had below the start. While the children of a node are
gone through, those that the cursor has not reached are the ones that were there; while a child is
walked, nothing changes outside of its branch (`Tree.Spared`), so that they wait where they were.
-/

namespace Stylesheet

namespace Tree

variable {t u v : Tree} {x p : NodeId} {k : Nat}

/-! ### The order of the nodes below a node -/

/-- Below a node come its children, each followed by the nodes below it. -/
theorem Consistent.descendants_eq (ht : t.Consistent) (x : NodeId) :
    t.descendants x = (t.children x).flatMap fun c => c :: t.descendants c := by
  have hlist : ∀ cs : List NodeId, Branch.listAll (cs.map t.shape) =
      cs.flatMap fun c => c :: t.descendants c := by
    intro cs
    induction cs with
    | nil => rfl
    | cons c cs ih =>
      have hhead : (t.shape c).toList = c :: t.descendants c := by
        rw [descendants, ht.shape_eq_node]
        rfl
      rw [List.map_cons, Branch.listAll, List.flatMap_cons, ih, hhead]
  rw [descendants, ht.shape_eq_node, Branch.toList, List.tail_cons, hlist]

/-- A branch is its top and then what is below it. -/
theorem Consistent.toList_shape (ht : t.Consistent) (x : NodeId) :
    (t.shape x).toList = x :: t.descendants x := by
  rw [descendants, ht.shape_eq_node]
  rfl

/-- No node is below another one twice. -/
theorem Consistent.nodup_descendants (ht : t.Consistent) (x : NodeId) :
    (t.descendants x).Nodup :=
  (ht.nodup_shape x).tail

/-- Nodes of a branch that the tree shows are in the tree, if the top of it is. -/
theorem contains_of_every_shows (ht : t.Consistent) {b : Branch NodeId} (h : b.Every t.Shows)
    (htop : t.contains b.label = true) : ∀ y ∈ b.toList, t.contains y = true := by
  induction h with
  | @node a bs top rest ih =>
    rw [Branch.toList, List.forall_mem_cons]
    refine ⟨htop, fun y hy => ?_⟩
    obtain ⟨b, hb, hyb⟩ := Branch.mem_listAll.mp hy
    have hchild : b.label ∈ t.children a := top ▸ List.mem_map_of_mem hb
    exact ih b hb (contains_of_parent? (ht.listed a b.label hchild)) y hyb

/-! ### What is spared -/

/-- A branch with nothing inside is shown as before. -/
theorem Spared.every_shows {inside : NodeId → Prop} (h : t.Spared inside u) {b : Branch NodeId}
    (hb : b.Every t.Shows) (hcontains : ∀ y ∈ b.toList, t.contains y = true)
    (hout : ∀ y ∈ b.toList, ¬ inside y) : b.Every u.Shows := by
  have hboth : ∀ y ∈ b.toList, t.contains y = true ∧ ¬ inside y :=
    fun y hy => ⟨hcontains y hy, hout y hy⟩
  refine (hb.and hboth).mono fun a bs ⟨htop, hcontains, hout⟩ => ?_
  exact htop.trans (h.outside a hcontains hout).1.symm

/-- A list that was spared keeps what is behind its cursor and ahead of it. -/
theorem Midway.spared {inside : NodeId → Prop} {passed ahead : List NodeId}
    (h : t.Midway p k passed ahead) (hspared : t.Spared inside u) (hout : ¬ inside p) :
    u.Midway p k passed ahead := by
  obtain ⟨hchildren, hcursors⟩ := hspared.outside p h.contains hout
  refine ⟨hchildren.trans h.children, ?_⟩
  rw [cursorIndex?_eq_cursors, hcursors, ← cursorIndex?_eq_cursors]
  exact h.index

theorem cursors_modify_of_ne {f : Node → Node} (hne : p ≠ x) (t : Tree) :
    (t.modify p f).cursors x = t.cursors x := by
  rw [cursors, cursors, get?_modify, if_neg hne]

/-- Cursors of one node may change; the rest is spared. -/
theorem Alike.spared (h : t.Alike u) (ht : t.Consistent) (hu : u.Numbered)
    (hcursors : ∀ q, p ≠ q → u.cursors q = t.cursors q) : t.Spared (· = p) u where
  consistent := ht.of_links_eq h.links
  numbered := hu
  tells := .of_content?_eq h.content
  outside q _ hne := ⟨congrFun h.children q, hcursors q (Ne.symm hne)⟩

/-- No child is at a cursor that has passed all of them. -/
theorem cursorChild?_eq_none_of_end {passed : List NodeId} (hchildren : t.children p = passed)
    (hindex : t.cursorIndex? p k = some (passed.length : Int)) : t.cursorChild? p k = none := by
  refine Option.eq_none_iff_forall_not_mem.mpr fun ⟨i, c⟩ hc => ?_
  obtain ⟨hi, hget⟩ := cursorChild?_eq_some.mp hc
  obtain rfl : passed.length = i := Int.ofNat_inj.mp (Option.some.inj (hindex.symm.trans hi))
  rw [hchildren, List.getElem?_eq_none (Nat.le_refl _)] at hget
  cases hget

/-- The three things that are done to a cursor spare all but its list. -/
theorem spared_openCursor (hopen : t.openCursor p = some (k, u)) (ht : t.Consistent)
    (hnumbered : t.Numbered) : t.Spared (· = p) u := by
  refine (alike_openCursor hopen).spared ht (numbered_openCursor hopen hnumbered) fun q hne => ?_
  obtain ⟨n, -, -, rfl⟩ := openCursor_eq_some hopen
  exact cursors_modify_of_ne hne t

theorem spared_advanceCursor (ht : t.Consistent) (hnumbered : t.Numbered) :
    t.Spared (· = p) (t.advanceCursor p k) :=
  (alike_advanceCursor t p k).spared ht (numbered_advanceCursor p k hnumbered)
    fun _ hne => cursors_modify_of_ne hne t

theorem spared_closeCursor (ht : t.Consistent) (hnumbered : t.Numbered) :
    t.Spared (· = p) (t.closeCursor p k) :=
  (alike_closeCursor t p k).spared ht (numbered_closeCursor p k hnumbered)
    fun _ hne => cursors_modify_of_ne hne t

/-- The cursor goes on to the children that it had ahead, whatever was put in front of the one it
stood at. -/
theorem InFront.advance {inside : NodeId → Prop} {c : NodeId} {passed ahead : List NodeId}
    (h : t.InFront u x c) (h' : u.Spared inside v) (hout : ¬ inside x)
    (hchildren : t.children x = passed ++ c :: ahead)
    (hindex : t.cursorIndex? x k = some (passed.length : Int)) :
    ∃ passed', (v.advanceCursor x k).children x = passed' ++ ahead ∧
      (v.advanceCursor x k).cursorIndex? x k = some (passed'.length : Int) := by
  have hmidway : t.Midway x k (passed ++ [c]) ahead := by
    refine ⟨by rw [hchildren, List.append_cons], ?_⟩
    rw [hindex, List.length_append, List.length_singleton]
    congr 1
    omega
  obtain ⟨passed', hmidway'⟩ := h.midway k passed ahead hmidway
  exact ⟨passed' ++ [c], Traversal.advanceCursor_of_midway (hmidway'.spared h' hout)⟩

end Tree

theorem Branch.length_le_sizeAll {α : Type} (bs : List (Branch α)) : bs.length ≤ sizeAll bs := by
  induction bs with
  | nil => exact Nat.le_refl 0
  | cons b bs ih =>
    rcases b with ⟨a, kids⟩
    rw [List.length_cons, sizeAll, size]
    omega

namespace Visiting

open Stylesheet.Tree

variable {σ τ α β : Type} {d d' : Desk} {s s' : τ}

/-! ### What was proper at the end was so before -/

/-- What holds of the state of the visitor at the end held of it at the start. -/
def Since (P : τ → Prop) (v : Visiting τ α) : Prop :=
  ∀ st, P (v st).2.2 → P st.2

namespace Since

variable {P : τ → Prop}

theorem pure (a : α) : Since P (Pure.pure a : Visiting τ α) :=
  fun _ h => h

theorem tree : Since P (Visiting.tree : Visiting τ Tree) :=
  fun _ h => h

theorem change (f : Tree → Tree) : Since P (Visiting.change f : Visiting τ Unit) :=
  fun _ h => h

theorem bind {v : Visiting τ α} {f : α → Visiting τ γ} (hv : Since P v)
    (hf : ∀ a, Since P (f a)) : Since P (v >>= f) :=
  fun st h => hv st (hf _ _ h)

/-- A traversal does what its calls do, and what is done to the cursor. -/
theorem eachFrom {visit : NodeId → Nat → Visiting τ (Option (Flow β))}
    (hvisit : ∀ x i, Since P (visit x i)) (p : NodeId) (k : Nat) :
    ∀ n, Since P (Visiting.eachFrom p k visit n)
  | 0 => .pure none
  | n + 1 => by
    rw [Visiting.eachFrom]
    refine .bind .tree fun t => ?_
    split
    · exact .pure _
    · refine .bind (hvisit _ _) fun result => ?_
      split
      · exact .bind (.change _) fun _ => eachFrom hvisit p k n
      · exact .pure _

theorem eachWithin {visit : NodeId → Nat → Visiting τ (Option (Flow β))}
    (hvisit : ∀ x i, Since P (visit x i)) (rounds : Nat) (p : NodeId) :
    Since P (Visiting.eachWithin rounds p visit) := by
  rw [Visiting.eachWithin]
  refine .bind .tree fun t => ?_
  split
  · exact .pure _
  · rename_i k u _
    refine .bind (.change _) fun _ => .bind (eachFrom hvisit p k rounds) fun result => ?_
    exact .bind (.change _) fun _ => .pure result

end Since

/-- A walk does nothing that its calls do not do. -/
theorem Since.walk {P : τ → Prop} {visit : NodeId → Visiting τ (Flow β)}
    (hvisit : ∀ x, Since P (visit x)) :
    ∀ (rounds : Nat) (id : NodeId), Since P (Visiting.walk visit rounds id)
  | 0, _ => .pure none
  | rounds + 1, id => by
    rw [Visiting.walk]
    refine .eachWithin (fun x i => .bind (hvisit x) fun flow => ?_) rounds id
    cases flow with
    | proceed => exact Since.walk hvisit rounds x
    | stop reason => exact .pure _

/-! ### One call -/

/-- The visitor goes on, counts the nodes that `picks` accepts by what they say, and at most puts
something in front of the node it is passed, as long as what it does is `proper`. -/
structure Unseen (visit : NodeId → Visiting τ (Flow β)) (picks : Option Content → Bool)
    (calls : τ → List NodeId) (proper : τ → Prop) : Prop where
  since : ∀ x, Since proper (visit x)
  call : ∀ x d s, ∃ d' s', visit x (d, s) = (.proceed, (d', s')) ∧
    calls s' = calls s ++ [x].filter (fun y => picks (d.tree.content? y)) ∧
    ∀ parent, proper s' → d.tree.Consistent → d.tree.Numbered → x ∈ d.tree.children parent →
      d.tree.InFront d'.tree parent x

/-- Nodes were passed on, those that `picks` accepts were counted, and only lists and cursors of
nodes `inside` have changed. -/
structure Passed (picks : Option Content → Bool) (calls : τ → List NodeId)
    (inside : NodeId → Prop) (xs : List NodeId) (d : Desk) (s : τ) (d' : Desk) (s' : τ) : Prop where
  spared : d.tree.Spared inside d'.tree
  calls : calls s' = calls s ++ xs.filter fun x => picks (d.tree.content? x)

section Passed

variable {picks : Option Content → Bool} {calls : τ → List NodeId} {inside inside' : NodeId → Prop}
  {xs ys : List NodeId} {d'' : Desk} {s'' : τ}

/-- Nothing is passed by what spares the tree. -/
theorem Passed.of_spared (h : d.tree.Spared inside d'.tree) (s : τ) :
    Passed picks calls inside [] d s d' s :=
  ⟨h, (List.append_nil _).symm⟩

theorem Passed.mono (h : Passed picks calls inside xs d s d' s')
    (hinside : ∀ p, inside p → inside' p) : Passed picks calls inside' xs d s d' s' :=
  ⟨h.spared.mono hinside, h.calls⟩

/-- Two passages make one, when the second goes over nodes that were there. -/
theorem Passed.trans (h : Passed picks calls inside xs d s d' s')
    (h' : Passed picks calls inside ys d' s' d'' s'')
    (hys : ∀ y ∈ ys, d.tree.contains y = true) :
    Passed picks calls inside (xs ++ ys) d s d'' s'' where
  spared := h.spared.trans h'.spared
  calls := by
    have hpicks : (ys.filter fun y => picks (d'.tree.content? y)) =
        ys.filter fun y => picks (d.tree.content? y) := by
      refine List.filter_congr fun y hy => ?_
      rw [h.spared.tells.content?_eq (hys y hy)]
    rw [h'.calls, h.calls, hpicks, List.filter_append, List.append_assoc]

variable {x : NodeId} {k : Nat} {d₁ d₂ : Desk} {s₁ s₂ : τ}

/-- A child and the nodes below it, before the cursor of its parent moves on. -/
theorem Passed.child {b : Branch NodeId} (h : Passed picks calls (· = x) [b.label] d s d₁ s₁)
    (hbelow : Passed picks calls (· ∈ b.toList) b.toList.tail d₁ s₁ d₂ s₂)
    (hcontains : ∀ y ∈ b.toList, d.tree.contains y = true) :
    Passed picks calls (fun p => p = x ∨ p ∈ b.toList) b.toList d s
      { d₂ with tree := d₂.tree.advanceCursor x k } s₂ := by
  have hmoved : Passed picks calls (· = x) [] d₂ s₂
      { d₂ with tree := d₂.tree.advanceCursor x k } s₂ :=
    .of_spared (spared_advanceCursor hbelow.spared.consistent hbelow.spared.numbered) s₂
  have hpast := (h.mono fun p => Or.inl).trans (hbelow.mono fun p => Or.inr) fun y hy =>
    hcontains y (List.mem_of_mem_tail hy)
  have hall := hpast.trans (hmoved.mono fun p => Or.inl) nofun
  have hlist : [b.label] ++ b.toList.tail ++ [] = b.toList := by
    cases b with
    | node a kids =>
      rw [List.append_nil]
      rfl
  rwa [hlist] at hall

/-- The nodes below a node, between the opening and the closing of its cursor. -/
theorem Passed.within {t : Tree} (hopen : d.tree.openCursor x = some (k, t))
    (hd : d.tree.Consistent) (hnumbered : d.tree.Numbered)
    (h : Passed picks calls (fun p => p = x ∨ p ∈ xs) xs { d with tree := t } s d₁ s₁)
    (hcontains : ∀ y ∈ xs, d.tree.contains y = true) :
    Passed picks calls (· ∈ x :: xs) xs d s { d₁ with tree := d₁.tree.closeCursor x k } s₁ := by
  have hinside : ∀ p, p = x ∨ p ∈ xs → p ∈ x :: xs := fun p hp => List.mem_cons.mpr hp
  have hopened : Passed picks calls (· ∈ x :: xs) [] d s { d with tree := t } s :=
    .of_spared ((spared_openCursor hopen hd hnumbered).mono fun p hp => hinside p (Or.inl hp)) s
  have hclosed : Passed picks calls (· ∈ x :: xs) [] d₁ s₁
      { d₁ with tree := d₁.tree.closeCursor x k } s₁ :=
    .of_spared ((spared_closeCursor h.spared.consistent h.spared.numbered).mono
      fun p hp => hinside p (Or.inl hp)) s₁
  have hall := (hopened.trans (h.mono hinside) hcontains).trans hclosed nofun
  rwa [List.nil_append, List.append_nil] at hall

end Passed

/-! ### The branch below a node -/

section Walk

variable {visit : NodeId → Visiting τ (Flow β)} {picks : Option Content → Bool}
  {calls : τ → List NodeId} {proper : τ → Prop}

/-- A node is passed on, and then the nodes below it. -/
def visitBelow (visit : NodeId → Visiting τ (Flow β)) (rounds : Nat) (child : NodeId) (_ : Nat) :
    Visiting τ (Option (Flow β)) := do
  match ← visit child with
  | .proceed => walk visit rounds child
  | .stop reason => return some (.stop reason)

/-- A walk is a traversal that walks below each child. -/
theorem walk_succ (visit : NodeId → Visiting τ (Flow β)) (rounds : Nat) (id : NodeId) :
    walk visit (rounds + 1) id = eachWithin rounds id (visitBelow visit rounds) :=
  rfl

theorem Since.visitBelow (hvisit : ∀ x, Since proper (visit x)) (rounds : Nat) (child : NodeId)
    (i : Nat) : Since proper (Visiting.visitBelow visit rounds child i) := by
  rw [Visiting.visitBelow]
  refine .bind (hvisit child) fun flow => ?_
  cases flow with
  | proceed => exact .walk hvisit rounds child
  | stop reason => exact .pure _

/-- A child is called, and what is below it comes next. -/
theorem visitBelow_apply {child : NodeId} (h : visit child (d, s) = (.proceed, (d', s')))
    (rounds i : Nat) :
    visitBelow visit rounds child i (d, s) = walk visit rounds child (d', s') := by
  show (match (motive := Flow β → Visiting τ (Option (Flow β))) (visit child (d, s)).1 with
    | .proceed => walk visit rounds child
    | .stop reason => return some (.stop reason)) (visit child (d, s)).2 = _
  rw [h]

theorem bind_apply {γ δ : Type} (m : Visiting τ γ) (f : γ → Visiting τ δ) (st : Desk × τ) :
    (m >>= f) st = f (m st).1 (m st).2 :=
  rfl

theorem tree_apply (d : Desk) (s : τ) : (tree : Visiting τ Tree) (d, s) = (d.tree, (d, s)) :=
  rfl

/-- Without a list there is nothing to traverse. -/
theorem eachWithin_none {p : NodeId} (step : NodeId → Nat → Visiting τ (Option (Flow β)))
    (rounds : Nat) (s : τ) (h : d.tree.openCursor p = none) :
    eachWithin rounds p step (d, s) = (some .proceed, (d, s)) := by
  rw [eachWithin, bind_apply, tree_apply]
  simp only [h]
  rfl

/-- With one, a cursor is opened and closed around the calls. -/
theorem eachWithin_some {p : NodeId} {k : Nat} {t : Tree}
    (step : NodeId → Nat → Visiting τ (Option (Flow β))) (rounds : Nat) (s : τ)
    (h : d.tree.openCursor p = some (k, t)) :
    eachWithin rounds p step (d, s) =
      let (result, (d', s')) := eachFrom p k step rounds ({ d with tree := t }, s)
      (result, ({ d' with tree := d'.tree.closeCursor p k }, s')) := by
  rw [eachWithin, bind_apply, tree_apply]
  simp only [h]
  rfl

/-- The traversal ends when no child is at the cursor. -/
theorem eachFrom_none {p : NodeId} {k : Nat} (step : NodeId → Nat → Visiting τ (Option (Flow β)))
    (n : Nat) (s : τ) (h : d.tree.cursorChild? p k = none) :
    eachFrom p k step (n + 1) (d, s) = (some .proceed, (d, s)) := by
  rw [eachFrom, bind_apply, tree_apply]
  simp only [h]
  rfl

/-- One round of a traversal. -/
theorem eachFrom_some {p : NodeId} {k i : Nat} {child : NodeId}
    (step : NodeId → Nat → Visiting τ (Option (Flow β))) (n : Nat) (s : τ)
    (h : d.tree.cursorChild? p k = some (i, child)) :
    eachFrom p k step (n + 1) (d, s) =
      match step child i (d, s) with
      | (some .proceed, (d', s')) =>
        eachFrom p k step n ({ d' with tree := d'.tree.advanceCursor p k }, s')
      | (result, st) => (result, st) := by
  rw [eachFrom, bind_apply, tree_apply]
  simp only [h]
  rw [bind_apply]
  rcases step child i (d, s) with ⟨_ | _ | _, st⟩ <;> rfl

mutual

/-- The walk below the top of a branch. -/
theorem passed_branch (hvisit : Unseen visit picks calls proper) : ∀ (b : Branch NodeId)
    {rounds : Nat} {d : Desk} {s : τ}, b.size < rounds → d.tree.Consistent → d.tree.Numbered →
    b.Every d.tree.Shows → b.toList.Nodup → proper (walk visit rounds b.label (d, s)).2.2 →
    ∃ d' s', walk visit rounds b.label (d, s) = (some .proceed, (d', s')) ∧
      Passed picks calls (· ∈ b.toList) b.toList.tail d s d' s'
  | .node x bs, 0, d, s, hsize, _, _, _, _, _ => absurd hsize (Nat.not_lt_zero _)
  | .node x bs, rounds + 1, d, s, hsize, hd, hnumbered, hshows, hnodup, hproper => by
    rw [Branch.size] at hsize
    rw [Branch.toList] at hnodup ⊢
    obtain ⟨hx, hnodup⟩ := List.nodup_cons.mp hnodup
    rw [Branch.label, walk_succ] at hproper ⊢
    cases hopen : d.tree.openCursor x with
    | none =>
      have hbs : bs = [] := by
        have hnil := children_eq_nil_of_openCursor hd hopen
        exact List.map_eq_nil_iff.mp (hshows.top.trans hnil)
      subst hbs
      exact ⟨d, s, eachWithin_none _ rounds s hopen, .of_spared (.refl hd hnumbered) s⟩
    | some opened =>
      obtain ⟨k, t⟩ := opened
      rw [eachWithin_some _ rounds s hopen] at hproper ⊢
      have hspared := spared_openCursor hopen hd hnumbered
      have hchildren : t.children x = [] ++ bs.map Branch.label := by
        rw [(alike_openCursor hopen).children]
        exact hshows.top.symm
      have hkids : ∀ b ∈ bs, b.Every t.Shows := fun b hb =>
        (hshows.rest b hb).mono fun a kids h =>
          h.trans (congrFun (alike_openCursor hopen).children a).symm
      have hsize' : Branch.sizeAll bs < rounds := by omega
      have hlen : bs.length < rounds := Nat.lt_of_le_of_lt (Branch.length_le_sizeAll bs) hsize'
      obtain ⟨d₁, s₁, heach, hpassed⟩ := passed_branches hvisit x k bs (d := { d with tree := t })
        hsize' hlen hspared.consistent hspared.numbered hchildren
        (cursorIndex?_opened hopen hnumbered) hkids hx hnodup hproper
      rw [heach]
      refine ⟨{ d₁ with tree := d₁.tree.closeCursor x k }, s₁, rfl, ?_⟩
      have hbelow : ∀ y ∈ Branch.listAll bs, d.tree.contains y = true := by
        intro y hy
        obtain ⟨b, hb, hyb⟩ := Branch.mem_listAll.mp hy
        have hchild : b.label ∈ d.tree.children x := hshows.top ▸ List.mem_map_of_mem hb
        exact contains_of_every_shows hd (hshows.rest b hb)
          (contains_of_parent? (hd.listed x b.label hchild)) y hyb
      exact hpassed.within hopen hd hnumbered hbelow

/-- The children of a node that its cursor has not reached, and the nodes below them. -/
theorem passed_branches (hvisit : Unseen visit picks calls proper) (x : NodeId) (k : Nat) :
    ∀ (bs : List (Branch NodeId)) {n rounds : Nat} {d : Desk} {s : τ} {passed : List NodeId},
    Branch.sizeAll bs < rounds → bs.length < n → d.tree.Consistent → d.tree.Numbered →
    d.tree.children x = passed ++ bs.map Branch.label →
    d.tree.cursorIndex? x k = some (passed.length : Int) →
    (∀ b ∈ bs, b.Every d.tree.Shows) → x ∉ Branch.listAll bs → (Branch.listAll bs).Nodup →
    proper (eachFrom x k (visitBelow visit rounds) n (d, s)).2.2 →
    ∃ d' s', eachFrom x k (visitBelow visit rounds) n (d, s) = (some .proceed, (d', s')) ∧
      Passed picks calls (fun p => p = x ∨ p ∈ Branch.listAll bs) (Branch.listAll bs) d s d' s'
  | _, 0, _, _, _, _, _, hlen, _, _, _, _, _, _, _, _ => absurd hlen (Nat.not_lt_zero _)
  | [], n + 1, rounds, d, s, passed, _, _, hd, hnumbered, hchildren, hindex, _, _, _, _ => by
    have hnone := cursorChild?_eq_none_of_end (hchildren.trans (List.append_nil _)) hindex
    exact ⟨d, s, eachFrom_none _ n s hnone, .of_spared (.refl hd hnumbered) s⟩
  | b :: bs, n + 1, rounds, d, s, passed, hsize, hlen, hd, hnumbered, hchildren, hindex, hshows,
    hout, hnodup, hproper => by
    rw [Branch.sizeAll] at hsize
    rw [Branch.listAll] at hout hnodup ⊢
    rw [List.mem_append, not_or] at hout
    obtain ⟨hfirst, hrest, hapart⟩ := List.nodup_append.mp hnodup
    rw [List.forall_mem_cons] at hshows
    have hmem : ∀ c ∈ b :: bs, c.label ∈ d.tree.children x := by
      intro c hc
      rw [hchildren]
      exact List.mem_append_right passed (List.mem_map_of_mem hc)
    have hcontains : ∀ c ∈ b :: bs, c.Every d.tree.Shows →
        ∀ y ∈ c.toList, d.tree.contains y = true := fun c hc hshows =>
      contains_of_every_shows hd hshows (contains_of_parent? (hd.listed x c.label (hmem c hc)))
    have hchild : d.tree.cursorChild? x k = some (passed.length, b.label) := by
      refine cursorChild?_eq_some.mpr ⟨hindex, ?_⟩
      rw [hchildren, List.getElem?_append_right (Nat.le_refl _), Nat.sub_self]
      rfl
    -- The child is passed on.
    obtain ⟨d₁, s₁, hcall, hcalls, hfront⟩ := hvisit.call b.label d s
    rw [eachFrom_some _ n s hchild, visitBelow_apply hcall] at hproper ⊢
    have hproper' : proper (walk visit rounds b.label (d₁, s₁)).2.2 := by
      revert hproper
      rcases walk visit rounds b.label (d₁, s₁) with ⟨_ | _ | _, d₂, s₂⟩
      · exact id
      · exact Since.eachFrom (.visitBelow hvisit.since rounds) x k n _
      · exact id
    have hin := hfront x (Since.walk hvisit.since rounds b.label _ hproper') hd hnumbered
      (hmem b List.mem_cons_self)
    have hshows₁ := hin.spared.every_shows hshows.1 (hcontains b List.mem_cons_self hshows.1)
      fun y hy heq => hout.1 (heq ▸ hy)
    -- The nodes below it are walked, and the cursor moves on.
    obtain ⟨d₂, s₂, hwalk, hpassed⟩ := passed_branch hvisit b (by omega) hin.spared.consistent
      hin.spared.numbered hshows₁ hfirst hproper'
    rw [hwalk] at hproper ⊢
    obtain ⟨passed', hchildren', hindex'⟩ :=
      hin.advance hpassed.spared hout.1 hchildren hindex
    have hstep : Passed picks calls (fun p => p = x ∨ p ∈ b.toList) b.toList d s
        { d₂ with tree := d₂.tree.advanceCursor x k } s₂ :=
      .child ⟨hin.spared, hcalls⟩ hpassed (hcontains b List.mem_cons_self hshows.1)
    -- The children that are left are as they were.
    have hmem' : ∀ c ∈ bs, ∀ y ∈ c.toList, y ∈ Branch.listAll bs := fun c hc y hy =>
      Branch.mem_listAll.mpr ⟨c, hc, hy⟩
    have hshows' : ∀ c ∈ bs, c.Every (d₂.tree.advanceCursor x k).Shows := by
      intro c hc
      have hkid := hcontains c (List.mem_cons_of_mem b hc) (hshows.2 c hc)
      refine hstep.spared.every_shows (hshows.2 c hc) hkid fun y hy hinside => ?_
      rcases hinside with rfl | hyb
      · exact hout.2 (hmem' c hc y hy)
      · exact hapart y hyb y (hmem' c hc y hy) rfl
    obtain ⟨d₃, s₃, heach, hleft⟩ := passed_branches hvisit x k bs (n := n)
      (d := { d₂ with tree := d₂.tree.advanceCursor x k }) (by omega)
      (Nat.lt_of_succ_lt_succ hlen) hstep.spared.consistent hstep.spared.numbered hchildren' hindex'
      hshows' hout.2 hrest hproper
    refine ⟨d₃, s₃, heach, ?_⟩
    have hcontains' : ∀ y ∈ Branch.listAll bs, d.tree.contains y = true := by
      intro y hy
      obtain ⟨c, hc, hyc⟩ := Branch.mem_listAll.mp hy
      exact hcontains c (List.mem_cons_of_mem b hc) (hshows.2 c hc) y hyc
    refine (hstep.mono fun p hp => ?_).trans (hleft.mono fun p hp => ?_) hcontains'
    · exact hp.imp_right (List.mem_append_left _)
    · exact hp.imp_right (List.mem_append_right _)

end

/-- A walk whose visitor at most puts things in front of the nodes it is passed. -/
theorem passed_walk (hvisit : Unseen visit picks calls proper) {id : NodeId} {rounds : Nat}
    (hd : d.tree.Consistent) (hnumbered : d.tree.Numbered)
    (hrounds : (d.tree.descendants id).length + 1 < rounds)
    (hproper : proper (walk visit rounds id (d, s)).2.2) :
    ∃ d' s', walk visit rounds id (d, s) = (some .proceed, (d', s')) ∧
      calls s' = calls s ++
        (d.tree.descendants id).filter fun x => picks (d.tree.content? x) := by
  have hlabel : (d.tree.shape id).label = id := d.tree.label_shapeWithin _ id
  have hsize : (d.tree.shape id).size < rounds := by
    rw [← Branch.length_toList, hd.toList_shape, List.length_cons]
    exact hrounds
  rw [← hlabel] at hproper
  obtain ⟨d', s', hwalk, hpassed⟩ := passed_branch hvisit (d.tree.shape id) hsize hd hnumbered
    (hd.shape_shows id) (hd.nodup_shape id) hproper
  rw [hlabel] at hwalk
  exact ⟨d', s', hwalk, hpassed.calls⟩

end Walk

/-! ### Callbacks that insert -/

/-- What a callback chooses that puts things in front of the node it is passed, by the node, the
desk and a state of its own: what it puts there, and its next state. -/
abbrev Inserting (σ : Type) :=
  NodeId → Desk → σ → List Material × σ

/-- The callback that inserts what was chosen, one after the other, and goes on. It puts down what
happens. -/
def inserting (choose : Inserting σ) (child : NodeId) : Visiting (σ × List Moment) (Flow β) :=
  let edits : Choice σ β := fun child _ d s =>
    let (ms, s') := choose child d s
    (ms.map (.insertBefore child), s', .proceed)
  recorded edits child 0

/-- The visitor is passed the nodes that are picked by what they say. -/
def picking (picks : Option Content → Bool) (visit : NodeId → Visiting τ (Flow β))
    (child : NodeId) : Visiting τ (Flow β) := do
  if picks ((← tree).content? child) then visit child
  else return .proceed

theorem picking_all (visit : NodeId → Visiting τ (Flow β)) :
    picking (fun _ => true) visit = visit :=
  rfl

/-- Whether a walk looks for nodes that say this. -/
def looksFor (kind : NodeKind) (filter : Option Filter) (c : Content) : Bool :=
  c.kind == kind &&
    match filter, c.label? with
    | some f, some name => f.accepts name
    | _, _ => true

/-- Whether a node is wanted depends on what it says. -/
theorem any_isWanted (t : Tree) (kind : NodeKind) (filter : Option Filter) (x : NodeId) :
    (t.get? x).any (Node.isWanted kind filter) = (t.content? x).any (looksFor kind filter) := by
  rw [content?, Option.any_map]
  rfl

/-- A walk over one kind calls for some nodes and passes over the others. -/
theorem walkKind_eq (kind : NodeKind) (filter : Option Filter)
    (visit : NodeId → Visiting τ (Flow β)) (rounds : Nat) (id : NodeId) :
    walkKind kind filter visit rounds id =
      walk (picking (·.any (looksFor kind filter)) visit) rounds id := by
  have hvisit : (fun child => do
      if ((← tree).get? child).any (Node.isWanted kind filter) then visit child
      else return .proceed) = picking (·.any (looksFor kind filter)) visit := by
    funext child
    simp only [picking, any_isWanted]
  rw [walkKind, hvisit]

/-- The edits of a call call nothing. -/
theorem filterMap_called?_ofEdits : ∀ (edits : List Edit) (d : Desk),
    (Moment.ofEdits edits d).filterMap Traversal.called? = []
  | [], _ => rfl
  | e :: edits, d => by
    rw [Moment.ofEdits, List.filterMap_cons_none rfl]
    exact filterMap_called?_ofEdits edits _

theorem inserting_apply (choose : Inserting σ) (child : NodeId) (d : Desk) (s : σ)
    (h : List Moment) :
    (inserting choose child : Visiting (σ × List Moment) (Flow β)) (d, (s, h)) =
      let edits := (choose child d s).1.map (Edit.insertBefore child)
      (.proceed, (Edit.runAll edits d, ((choose child d s).2,
        h ++ .call child :: Moment.ofEdits edits d))) :=
  rfl

/-- The walk does not see what the callback inserts. -/
theorem unseen_inserting (picks : Option Content → Bool) (choose : Inserting σ) :
    Unseen (β := β) (picking picks (inserting choose)) picks
      (fun st : σ × List Moment => st.2.filterMap Traversal.called?)
      (fun st => ∀ m ∈ st.2, m.Proper) where
  since x := by
    refine .bind .tree fun t => ?_
    split_ifs
    · intro st hproper m hm
      exact hproper m (List.mem_append_left _ hm)
    · exact .pure _
  call x d st := by
    obtain ⟨s, h⟩ := st
    cases hpick : picks (d.tree.content? x) with
    | true =>
      have hcall : (picking picks (inserting choose) x : Visiting (σ × List Moment) (Flow β))
          (d, (s, h)) = inserting choose x (d, (s, h)) := by
        show (if picks (d.tree.content? x) = true then inserting choose x else _) (d, (s, h)) = _
        rw [if_pos hpick]
      rw [hcall, inserting_apply]
      refine ⟨_, _, rfl, ?_, fun parent hproper hd hnumbered hx => ?_⟩
      · have hcalls : ∀ edits, (Moment.call x :: Moment.ofEdits edits d).filterMap
            Traversal.called? = [x] := fun edits =>
          congrArg (x :: ·) (filterMap_called?_ofEdits edits d)
        rw [List.filterMap_append, hcalls, List.filter_singleton, hpick]
        rfl
      · refine Edit.inFront_runAll _ hd hnumbered hx fun m hm => hproper m ?_
        exact List.mem_append_right h (List.mem_cons_of_mem _ hm)
    | false =>
      have hcall : (picking picks (inserting choose) x : Visiting (σ × List Moment) (Flow β))
          (d, (s, h)) = (.proceed, (d, (s, h))) := by
        show (if picks (d.tree.content? x) = true then inserting choose x
          else (return .proceed)) (d, (s, h)) = _
        rw [if_neg (ne_true_of_eq_false hpick)]
        rfl
      refine ⟨d, (s, h), hcall, ?_, fun parent _ hd hnumbered hx => .refl hd hnumbered hx⟩
      rw [List.filter_singleton, hpick]
      exact (List.append_nil _).symm

/-- As long as all that the callback does is proper, the walk comes to an end, and the nodes that
are passed to the callback are those of a list in its order. -/
def PassesExactly (walking : Visiting (σ × List Moment) (Option (Flow β))) (d : Desk) (s : σ)
    (ids : List NodeId) : Prop :=
  let history := (walking (d, (s, []))).2.2.2
  (∀ m ∈ history, m.Proper) →
    (walking (d, (s, []))).1 = some .proceed ∧ history.filterMap Traversal.called? = ids

theorem passesExactly_walk (picks : Option Content → Bool) (choose : Inserting σ) {d : Desk}
    (s : σ) {id : NodeId} {rounds : Nat} (hd : d.tree.Consistent) (hnumbered : d.tree.Numbered)
    (hrounds : (d.tree.descendants id).length + 1 < rounds) :
    PassesExactly (walk (picking picks (inserting choose)) rounds id :
      Visiting (σ × List Moment) (Option (Flow β))) d s
      ((d.tree.descendants id).filter fun x => picks (d.tree.content? x)) := by
  intro hproper
  obtain ⟨d', s', hwalk, hcalls⟩ :=
    passed_walk (unseen_inserting (β := β) picks choose) (s := (s, [])) hd hnumbered hrounds hproper
  rw [hwalk]
  exact ⟨rfl, hcalls⟩

/-- A callback may put anything in front of the nodes that it is passed, any number of times. A walk
comes to an end, and passes on the nodes that stood below its start at the beginning, each once and
in their order; a walk for one kind of nodes passes on those of them that it looks for. -/
theorem walk_inserting (choose : Inserting σ) {d : Desk} (s : σ) {id : NodeId} {rounds : Nat}
    (hd : d.tree.Consistent) (hnumbered : d.tree.Numbered)
    (hrounds : (d.tree.descendants id).length + 1 < rounds) :
    (d.tree.descendants id).Nodup ∧
      (∀ x, d.tree.descendants x = (d.tree.children x).flatMap fun c => c :: d.tree.descendants c) ∧
      PassesExactly (β := β) (walk (inserting choose) rounds id) d s (d.tree.descendants id) ∧
      ∀ kind filter, PassesExactly (β := β) (walkKind kind filter (inserting choose) rounds id) d s
        ((d.tree.descendants id).filter fun x =>
          (d.tree.get? x).any (Node.isWanted kind filter)) := by
  refine ⟨hd.nodup_descendants id, hd.descendants_eq, ?_, fun kind filter => ?_⟩
  · have hall := passesExactly_walk (β := β) (fun _ => true) choose s hd hnumbered hrounds
    rw [picking_all, List.filter_true] at hall
    exact hall
  · rw [walkKind_eq]
    simp only [any_isWanted]
    exact passesExactly_walk _ choose s hd hnumbered hrounds

/-- A rule in a media query, with two declarations, and a comment. -/
def nestedSheet : Desk :=
  Edit.runAll [.append rootId (.text "@m x\x7ba\x7bb:c;d:e\x7d\x7d/*f*/")] ⟨Tree.empty, {}⟩

/-- In front of each node a comment and a copy of the node are put. -/
def doubled : Inserting Unit := fun child _ _ =>
  ([.text "/**/", .node child], ())

/-- Each declaration gets a copy in front of it, which is not called. -/
theorem walk_inserting_doubled :
    let walked := walk (β := Unit) (inserting doubled) 9 rootId (nestedSheet, ((), []))
    let picked := walkKind (β := Unit) .declaration (some (.exact "b")) (inserting doubled) 9 rootId
      (nestedSheet, ((), []))
    (walked.1 = some .proceed ∧
      walked.2.2.2.filterMap Traversal.called? = [⟨1⟩, ⟨2⟩, ⟨3⟩, ⟨4⟩, ⟨5⟩]) ∧
    picked.1 = some .proceed ∧ picked.2.2.2.filterMap Traversal.called? = [⟨3⟩] := by
  intro walked picked
  have hreached : nestedSheet.tree.Reached := by
    refine .runAll (d := ⟨Tree.empty, {}⟩) .empty ?_ ?_
    · exact List.forall_mem_singleton.mpr rfl
    · exact List.forall_mem_singleton.mpr nofun
  have hlist : nestedSheet.tree.descendants rootId = [⟨1⟩, ⟨2⟩, ⟨3⟩, ⟨4⟩, ⟨5⟩] := by
    decide +kernel
  have hpicked : (nestedSheet.tree.descendants rootId).filter
      (fun x => (nestedSheet.tree.get? x).any
        (Node.isWanted .declaration (some (.exact "b")))) = [⟨3⟩] := by
    decide +kernel
  have hrounds : (nestedSheet.tree.descendants rootId).length + 1 < 9 := by
    rw [hlist]
    decide
  have hplain : walked.2.2.2.all Traversal.isPlain = true := by decide +kernel
  have hplain' : picked.2.2.2.all Traversal.isPlain = true := by decide +kernel
  obtain ⟨-, -, hwalk, hkinds⟩ := walk_inserting (β := Unit) doubled () hreached.orderly.consistent
    hreached.orderly.numbered hrounds
  have hwalked := hwalk fun m hm =>
    Traversal.proper_of_isPlain (List.all_eq_true.mp hplain m hm)
  have hpassed := hkinds .declaration (some (.exact "b")) fun m hm =>
    Traversal.proper_of_isPlain (List.all_eq_true.mp hplain' m hm)
  rw [hlist] at hwalked
  rw [hpicked] at hpassed
  exact ⟨hwalked, hpassed⟩

end Visiting

end Stylesheet
