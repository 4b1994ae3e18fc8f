import Stylesheet.Proofs.Edit.Command
import Stylesheet.Proofs.Edit.Effect
import Stylesheet.Proofs.Edit.Ends
import Stylesheet.Proofs.Walk.Each

/-!
# Emptying a container

A container can be emptied at once, or by taking out one child after the other. Lists and links end
up the same, and cursors do not: when children are taken out, the cursors on the list move along,
and when the container is emptied at once they stay where they are (`Editing.emptied`). So a
traversal that was at a child goes on with the first of the nodes that are put in afterwards, or it
leaves out as many of them as the child had in front of it, and one more.
-/

namespace Stylesheet

namespace Tree

variable {t u v : Tree} {parent c : NodeId} {k i n : Nat} {ids : List NodeId}

/-! ### Links -/

/-- The first child is at the first place. -/
theorem indexIn?_of_cons {rest : List NodeId} (h : t.children parent = c :: rest) :
    t.indexIn? parent c = some 0 := by
  rw [indexIn?, h, List.findIdx?_cons, if_pos (beq_self_eq_true c)]

/-- Nothing changes when there is nothing to remove. -/
theorem links_removeChildren_of_nil (ht : t.Consistent) (h : t.children parent = []) :
    (t.removeChildren parent).links = t.links := by
  funext j
  rw [links_removeChildren t parent (ht.not_mem_children_self parent), h,
    if_neg List.not_mem_nil]
  -- The parent itself is written again, with the empty list that it had.
  split_ifs with hp
  · subst hp
    rw [children_eq_links] at h
    cases hl : t.links parent with
    | none => rfl
    | some l =>
      rw [hl] at h
      obtain ⟨up, list, kind, block⟩ := l
      obtain rfl : list = [] := h
      rfl
  · rfl

/-- The first child is taken out first, and then all the others. -/
theorem links_removeChildren_removeAt (ht : t.Consistent) {rest : List NodeId}
    (h : t.children parent = c :: rest) :
    ((t.removeAt parent c 0).removeChildren parent).links = (t.removeChildren parent).links := by
  have hself := ht.not_mem_children_self parent
  have hrem := removed_removeAt ht (indexIn?_of_cons h)
  have hrest : (t.removeAt parent c 0).children parent = rest := by rw [hrem.list, h]; rfl
  have hself' : parent ∉ (t.removeAt parent c 0).children parent := by
    rw [hrest]
    exact fun hmem => hself (h ▸ List.mem_cons_of_mem c hmem)
  have hne : parent ≠ c := by
    rintro rfl
    exact hself (h ▸ List.mem_cons_self)
  -- Node by node: the parent, the child that went first, and the rest.
  funext j
  rw [links_removeChildren _ parent hself', links_removeChildren t parent hself, hrest,
    links_removeAt t 0 hne]
  by_cases hp : parent = j
  · rw [if_pos hp, if_pos hp, if_pos hp, Option.map_map]
    rfl
  · rw [if_neg hp, if_neg hp, if_neg hp, h]
    by_cases hc : c = j
    · subst hc
      rw [if_pos rfl, if_pos List.mem_cons_self, Option.map_map]
      split_ifs <;> rfl
    · have hmem : j ∈ c :: rest ↔ j ∈ rest := by
        rw [List.mem_cons]
        exact or_iff_right fun heq => hc heq.symm
      rw [if_neg hc]
      simp only [hmem]

/-! ### Cursors -/

/-- Where a cursor ends up when `n` children are taken out from the front. -/
def drained (n : Nat) (i : Int) : Int :=
  if i < 0 then i else max (i - n) (-1)

theorem drained_zero (i : Int) : drained 0 i = i := by
  rw [drained]
  split_ifs
  · rfl
  · omega

/-- One node less: a cursor that is not in front of the list goes back by one. -/
theorem drained_succ (n : Nat) (i : Int) :
    drained n (if (0 : Int) ≤ i then i - 1 else i) = drained (n + 1) i := by
  rw [drained, drained]
  split_ifs <;> omega

/-- Only a cursor in front of the list stays, unless the list was empty already. -/
theorem drained_eq_self_iff (n : Nat) (i : Int) : drained n i = i ↔ n = 0 ∨ i < 0 := by
  rw [drained]
  split_ifs <;> omega

/-- A cursor at a child ends up in front of the list. -/
theorem drained_of_lt {n : Nat} (h : i < n) : drained n i = -1 := by
  rw [drained, if_neg (Int.not_lt.mpr (Int.natCast_nonneg i))]
  omega

/-- Cursors that are moved twice. -/
theorem moved_moved (f g : Int → Int) (cursors : List Cursor) :
    moved f (moved g cursors) = moved (fun i => f (g i)) cursors := by
  rw [moved, moved, moved, List.map_map]
  rfl

theorem moved_eq_self_iff (f : Int → Int) (cursors : List Cursor) :
    moved f cursors = cursors ↔ ∀ c ∈ cursors, f c.index = c.index := by
  rw [moved]
  conv_lhs => rhs; rw [← List.map_id cursors]
  rw [List.map_inj_left]
  refine forall₂_congr fun c _ => ⟨fun h => congrArg Cursor.index h, fun h => ?_⟩
  rw [h]
  rfl

theorem moved_id (cursors : List Cursor) : moved id cursors = cursors :=
  (moved_eq_self_iff id cursors).mpr fun _ _ => rfl

/-- The list is emptied at once, and no cursor is moved. -/
theorem cursors_removeChildren (t : Tree) (parent : NodeId) :
    (t.removeChildren parent).cursors = t.cursors := by
  funext x
  have hdetached : t.Tame ((t.children parent).foldl detach t) :=
    .foldl (fun u id => tame_detach u id) _ t
  rw [removeChildren, cursors_relist, hdetached.cursors_eq, moved_id]
  exact ite_self _

/-- The child at a cursor, and its place. -/
theorem cursorChild?_of_cursorIndex? (h : t.cursorIndex? parent k = some (i : Int)) :
    t.cursorChild? parent k = ((t.children parent)[i]?).map fun c => (i, c) := by
  ext ⟨j, c⟩
  rw [cursorChild?_eq_some, h, Option.map_eq_some_iff]
  constructor
  · rintro ⟨hj, hc⟩
    obtain rfl := Int.ofNat.inj (Option.some.inj hj)
    exact ⟨c, hc, rfl⟩
  · rintro ⟨c', hc, heq⟩
    cases heq
    exact ⟨rfl, hc⟩

/-! ### New children -/

theorem children_insertLast (h : t.contains parent = true) (ids : List NodeId) :
    (t.insertLast parent ids).children parent = t.children parent ++ ids := by
  rw [contains_eq_links] at h
  obtain ⟨l, hl⟩ := Option.isSome_iff_exists.mp h
  rw [insertLast, splice, children_eq_links, links_relist, if_pos rfl, links_settle,
    children_eq_links, hl]
  split_ifs <;> simp

theorem cursorIndex?_insertLast (t : Tree) (parent : NodeId) (ids : List NodeId) (x : NodeId)
    (k : Nat) : (t.insertLast parent ids).cursorIndex? x k = t.cursorIndex? x k := by
  rw [cursorIndex?_eq_cursors, cursorIndex?_eq_cursors, insertLast, splice, cursors_relist,
    (tame_settle _ _ _ _ _).cursors_eq]
  split_ifs
  · rw [moved_id]
  · rfl

/-- What a traversal goes on with that is at place `i - 1` when nodes are put into an empty list. -/
theorem cursorChild?_refilled (hparent : t.contains parent = true)
    (hempty : t.children parent = []) (h : t.cursorIndex? parent k = some ((i : Int) - 1)) :
    ((t.insertLast parent ids).advanceCursor parent k).cursorChild? parent k =
      (ids[i]?).map fun c => (i, c) := by
  have hindex : ((t.insertLast parent ids).advanceCursor parent k).cursorIndex? parent k =
      some (i : Int) := by
    rw [cursorIndex?_advanceCursor, cursorIndex?_insertLast, h, Option.map_some,
      if_pos ⟨rfl, rfl⟩, Int.sub_add_cancel]
  rw [cursorChild?_of_cursorIndex? hindex, (alike_advanceCursor _ parent k).children,
    children_insertLast hparent, hempty, List.nil_append]

end Tree

namespace Editing

open Stylesheet.Tree

/-- All children are taken out, the first one first. -/
theorem runOn_removeEach (parent : NodeId) (w : Workspace) :
    ∀ (list : List NodeId) {t : Tree}, t.Consistent → t.children parent = list →
      ∃ u, (forM list (removeChild parent)).runOn ⟨t, w⟩ = (.ok (), ⟨u, w⟩) ∧
        u.links = (t.removeChildren parent).links ∧ ∀ x, u.cursors x =
          if parent = x then moved (drained list.length) (t.cursors x) else t.cursors x
  | [], t, ht, h => by
    refine ⟨t, rfl, (links_removeChildren_of_nil ht h).symm, fun x => ?_⟩
    split_ifs
    · exact ((moved_eq_self_iff (drained 0) (t.cursors x)).mpr fun c _ => drained_zero c.index).symm
    · rfl
  | c :: rest, t, ht, h => by
    have hindex := indexIn?_of_cons h
    have hrest : (t.removeAt parent c 0).children parent = rest := by
      rw [children_removeAt, if_pos rfl, h]
      rfl
    -- The first child goes, and the others are removed from what is left.
    obtain ⟨u, hrun, hlinks, hcursors⟩ := runOn_removeEach parent w rest
      (ht.remove (removed_removeAt ht hindex)) hrest
    refine ⟨u, ?_, hlinks.trans (links_removeChildren_removeAt ht h), fun x => ?_⟩
    · rw [List.forM_cons, runOn_bind, runOn_removeChild]
      dsimp only
      rw [hindex]
      exact hrun
    -- Each removal takes a cursor back by one, as long as it is not in front of the list.
    · rw [hcursors, (taken_removeAt hindex).cursors]
      split_ifs
      · rw [moved_moved]
        simp only [Int.ofNat_zero, drained_succ, List.length_cons]
      · rfl

theorem runOn_removeAll {d : Desk} {parent : NodeId} (h : d.tree.contains parent = true) :
    (removeAll parent).runOn d =
      (.ok (), { d with tree := d.tree.removeChildren parent }) := by
  obtain ⟨n, hn⟩ := Option.isSome_iff_exists.mp h
  rw [removeAll, runOn_bind, runOn_node, hn]
  rfl

/-- A container is emptied at once, or by taking out one child after the other. The lists and the
links are the same afterwards. In the first case all cursors stay where they are. In the second case
those on the container move along, up to the place in front of the list. So they are the same only
when no child was there or no cursor had come to one, and a traversal that was at a child at place
`i` goes on with the nodes that are put in afterwards at place `i + 1` or at the first one. -/
theorem emptied {d : Desk} (hd : d.tree.Consistent) {parent : NodeId}
    (hparent : d.tree.contains parent = true) :
    let t := d.tree
    let list := t.children parent
    ∃ u v : Tree, (removeAll parent).runOn d = (.ok (), { d with tree := u }) ∧
      (forM list (removeChild parent)).runOn d = (.ok (), { d with tree := v }) ∧
      u.children parent = [] ∧ v.links = u.links ∧ u.cursors = t.cursors ∧
      (∀ x, v.cursors x =
        if parent = x then moved (drained list.length) (t.cursors x) else t.cursors x) ∧
      (v.cursors = u.cursors ↔ list = [] ∨ ∀ c ∈ t.cursors parent, c.index < 0) ∧
      ∀ (k i : Nat) (ids : List NodeId), t.cursorIndex? parent k = some (i : Int) →
        i < list.length →
          ((u.insertLast parent ids).advanceCursor parent k).cursorChild? parent k =
              (ids[i + 1]?).map (fun c => (i + 1, c)) ∧
            ((v.insertLast parent ids).advanceCursor parent k).cursorChild? parent k =
              (ids[0]?).map fun c => (0, c) := by
  intro t list
  obtain ⟨v, hrun, hlinks, hcursors⟩ := runOn_removeEach parent d.workspace list hd rfl
  have hrem := removed_removeChildren hd parent
  have hlists := SameLists.of_links_eq hlinks
  have hu : (t.removeChildren parent).contains parent = true := by
    rw [hrem.contains]
    exact hparent
  have hkept := cursors_removeChildren t parent
  refine ⟨t.removeChildren parent, v, runOn_removeAll hparent, hrun, hrem.list, hlinks, hkept,
    hcursors, ?_, fun k i ids hindex hi => ⟨?_, ?_⟩⟩
  · -- A cursor comes back to its place only if no removal has moved it.
    rw [hkept]
    constructor
    · intro heq
      have hsame := congrFun heq parent
      rw [hcursors, if_pos rfl, moved_eq_self_iff] at hsame
      by_cases hlist : list = []
      · exact Or.inl hlist
      · refine Or.inr fun c hc => ((drained_eq_self_iff _ _).mp (hsame c hc)).resolve_left ?_
        rwa [List.length_eq_zero_iff]
    · intro hcase
      funext x
      rw [hcursors]
      split_ifs with hx
      · subst hx
        refine (moved_eq_self_iff _ _).mpr fun c hc => (drained_eq_self_iff _ _).mpr ?_
        exact hcase.imp (fun hlist => List.length_eq_zero_iff.mpr hlist) fun hneg => hneg c hc
      · rfl
  · -- The cursor has not moved, and the nodes that are put in count from the first place again.
    refine cursorChild?_refilled hu hrem.list ?_
    rw [cursorIndex?_eq_cursors, hkept, ← cursorIndex?_eq_cursors, hindex]
    exact congrArg some (by omega)
  · -- Every removal has moved the cursor, at last to the place in front of the list.
    refine cursorChild?_refilled ?_ ?_ ?_
    · rw [hlists.contains]
      exact hu
    · rw [hlists.children]
      exact hrem.list
    · rw [cursorIndex?_eq_cursors, hcursors, if_pos rfl, find?_moved, ← cursorIndex?_eq_cursors,
        hindex, Option.map_some, drained_of_lt hi]
      rfl

/-- A rule with two declarations. -/
def rulePair : Desk :=
  .ofText "a\x7bb:c;d:e\x7d"

/-- The rule while a traversal of it is at its second declaration. -/
def rulePairMidway : Desk :=
  { rulePair with tree := rulePair.tree.modify ⟨1⟩ fun n => { n with cursors := [⟨1, 1⟩] } }

/-- The tree of the example below. -/
theorem consistent_rulePairMidway : rulePairMidway.tree.Consistent := by
  have hpair : rulePair.tree.Consistent := (orderly_ofText _).consistent
  refine hpair.of_links_eq ?_
  exact links_modify_of (f := fun n => { n with cursors := [⟨1, 1⟩] }) (fun _ => rfl) _ ⟨1⟩

/-- Three declarations that are put in afterwards. -/
theorem emptied_rulePairMidway :
    ∃ u v : Tree,
      (removeAll ⟨1⟩).runOn rulePairMidway = (.ok (), { rulePairMidway with tree := u }) ∧
      (forM [⟨2⟩, ⟨3⟩] (removeChild ⟨1⟩)).runOn rulePairMidway =
        (.ok (), { rulePairMidway with tree := v }) ∧
      ((u.insertLast ⟨1⟩ [⟨4⟩, ⟨5⟩, ⟨6⟩]).advanceCursor ⟨1⟩ 1).cursorChild? ⟨1⟩ 1 =
        some (2, ⟨6⟩) ∧
      ((v.insertLast ⟨1⟩ [⟨4⟩, ⟨5⟩, ⟨6⟩]).advanceCursor ⟨1⟩ 1).cursorChild? ⟨1⟩ 1 =
        some (0, ⟨4⟩) := by
  have hlist : rulePairMidway.tree.children ⟨1⟩ = [⟨2⟩, ⟨3⟩] := by decide +kernel
  have hindex : rulePairMidway.tree.cursorIndex? ⟨1⟩ 1 = some 1 := by decide +kernel
  have hrule : rulePairMidway.tree.contains ⟨1⟩ = true := by decide +kernel
  obtain ⟨u, v, hu, hv, -, -, -, -, -, hnext⟩ := emptied consistent_rulePairMidway hrule
  rw [hlist] at hv hnext
  exact ⟨u, v, hu, hv, hnext 1 1 [⟨4⟩, ⟨5⟩, ⟨6⟩] hindex (by decide)⟩

/-- Notes each node. At the first declaration of the rule, the rule is emptied, and two other
declarations are put into it. -/
def refill (empty : Editing Unit) (x : NodeId) (_ : Nat) :
    Visiting (List NodeId) (Flow Unit) := do
  modify fun (d, seen) => (d, seen ++ [x])
  if x = ⟨2⟩ then
    let _ ← Visiting.edit do
      empty
      append ⟨1⟩ (.bags [.declaration "x" "1", .declaration "y" "2"])
  return .proceed

/-- The nodes of the rule that are visited meanwhile. -/
def refilled (empty : Editing Unit) : List NodeId :=
  ((Visiting.each 9 ⟨1⟩ (refill empty)).run (rulePair, [])).2.2

/-- The first one of the new declarations is left out when the rule is emptied at once. -/
theorem skipped_when_emptied :
    rulePair.tree.Consistent ∧ rulePair.tree.children ⟨1⟩ = [⟨2⟩, ⟨3⟩] ∧
      refilled (removeAll ⟨1⟩) = [⟨2⟩, ⟨5⟩] ∧
      refilled (forM [⟨2⟩, ⟨3⟩] (removeChild ⟨1⟩)) = [⟨2⟩, ⟨4⟩, ⟨5⟩] := by
  refine ⟨(orderly_ofText _).consistent, ?_⟩
  decide +kernel

end Editing

end Stylesheet
