import Stylesheet.Proofs.Edit.Material
import Stylesheet.Proofs.Outline.Firm
import Stylesheet.Proofs.Outline.Ranges
import Stylesheet.Proofs.Tree.Order
import Stylesheet.Proofs.Tree.Shape

/-!
# The ranges of a stylesheet

The nodes of a stylesheet that was read take up bytes of its text (`Tree.RangedWithin`): each lies
inside of its parent, and behind the nodes in front of it. Their starts are recorded as they are.
Their ends are recorded as well, up to the formatting in front of the semicolon of a rule, which is
counted twice, and up to an at-rule without parameters that nothing but the end of the block around
it ends (`ranges_of_parse`).
-/

namespace Stylesheet

/-- The nodes take up bytes of a text of the given size, in the order in which they stand. -/
structure Tree.RangedWithin (t : Tree) (size : Nat) : Prop where
  ranged : ∀ x, t.contains x = true → x ≠ rootId →
    (t.detail x).Ranged ∧ (t.detail x).closes ≤ size
  inside : ∀ x, ∀ c ∈ t.children x,
    (t.detail x).opens ≤ (t.detail c).opens ∧ (t.detail c).closes ≤ (t.detail x).closes
  ordered : ∀ x, (t.children x).Pairwise fun a b => (t.detail a).closes ≤ (t.detail b).opens
  /-- Only the last child can be without a recorded end, and only when no semicolon closes it. -/
  unrecorded : ∀ x, ∀ c ∈ t.children x, (t.detail c).stop? = none →
    t.last? x = some c ∧ (t.detail x).raws.semicolon ≠ some true

namespace Draft

/-- A node with an end has a place where it stops. -/
theorem stop?_of_ended {d : Detail} (h : d.Ended) : d.stop? ≠ none := by
  obtain ⟨input, start, stop, hsource⟩ := h
  rw [Detail.stop?, hsource]
  exact Option.some_ne_none _

/-- Nodes in front of the last one have been closed. -/
theorem ended_of_firmAll {closesLast : Bool} {bs : List Draft} (h : FirmAll closesLast bs) :
    ∀ b ∈ bs, b.label.Ended := by
  induction bs with
  | nil => exact fun b hb => absurd hb List.not_mem_nil
  | cons b bs ih => exact List.forall_mem_cons.mpr ⟨h.1.1, ih h.2⟩

/-- Only the last child can be without a recorded end. -/
theorem unrecorded_of_firm {d : Detail} {kids : List Draft} (h : d.Firm kids) {b : Draft}
    (hb : b ∈ kids) (hstop : b.label.stop? = none) :
    d.raws.semicolon ≠ some true ∧ ∀ front c, kids = front ++ [c] → b ∉ front := by
  rcases h.kids with hfirm | ⟨hopen, front, c, rfl, -, -, hfront⟩
  · exact absurd hstop (stop?_of_ended (ended_of_firmAll hfirm b hb))
  · refine ⟨fun htrue => ?_, fun front' c' heq hmem => ?_⟩
    · rw [htrue] at hopen
      cases hopen
    · obtain ⟨rfl, -⟩ := List.append_inj' heq rfl
      exact stop?_of_ended (ended_of_firmAll hfront b hmem) hstop

end Draft

namespace Tree

variable {t : Tree} {x c : NodeId}

/-- All nodes of the tree stand below the root, and their ranges are in order. -/
theorem rangedWithin_of_draft {size : Nat} (ht : t.Consistent)
    (hattached : ∀ x, t.contains x = true → t.Attached x)
    (hranged : (t.draft rootId).Every Detail.Encloses) (hfirm : (t.draft rootId).Every Detail.Firm)
    (hsize : (t.detail rootId).closes ≤ size) : t.RangedWithin size := by
  have hencloses : ∀ x, t.Attached x → (t.detail x).Encloses ((t.children x).map t.draft) := by
    intro x hx
    have hevery := ht.every_draft hranged hx
    rw [ht.draft_eq_node] at hevery
    exact hevery.top
  have hfirmly : ∀ x, t.Attached x → (t.detail x).Firm ((t.children x).map t.draft) := by
    intro x hx
    have hevery := ht.every_draft hfirm hx
    rw [ht.draft_eq_node] at hevery
    exact hevery.top
  have hparent : ∀ x c, c ∈ t.children x → t.Attached x := by
    intro x c hc
    exact hattached x (contains_of_hasBlock (ht.block x (List.ne_nil_of_mem hc)))
  have hinside : ∀ x, ∀ c ∈ t.children x, (t.detail c).Ranged ∧
      (t.detail x).opens ≤ (t.detail c).opens ∧ (t.detail c).closes ≤ (t.detail x).closes := by
    intro x c hc
    have h := hencloses x (hparent x c hc)
    have hmem : t.draft c ∈ (t.children x).map t.draft := List.mem_map_of_mem hc
    rw [← ht.label_draft c]
    exact ⟨h.ranged _ hmem, h.inside _ hmem⟩
  -- Down from the root, no node ends behind the one that it is in.
  have hcloses : ∀ x, t.Attached x → (t.detail x).closes ≤ size := by
    intro x hx
    induction hx using Relation.ReflTransGen.head_induction_on with
    | refl => exact hsize
    | head hunder _ ih => exact (hinside _ _ (ht.mem_children_iff.mpr hunder)).2.2.trans ih
  refine ⟨fun x hx hne => ?_, fun x c hc => (hinside x c hc).2, fun x => ?_, fun x c hc hstop => ?_⟩
  · have hup := hattached x hx
    rcases Relation.ReflTransGen.cases_head hup with heq | ⟨p, hp, -⟩
    · exact absurd heq hne
    · exact ⟨(hinside p x (ht.mem_children_iff.mpr hp)).1, hcloses x hup⟩
  · cases hkids : t.children x with
    | nil => exact .nil
    | cons c cs =>
      have h := (hencloses x (hparent x c (by rw [hkids]; exact List.mem_cons_self))).ordered
      rw [List.pairwise_map, hkids] at h
      simpa only [ht.label_draft] using h
  · have hmem : t.draft c ∈ (t.children x).map t.draft := List.mem_map_of_mem hc
    obtain ⟨hsemicolon, hfront⟩ := Draft.unrecorded_of_firm (hfirmly x (hparent x c hc)) hmem
      (by rwa [ht.label_draft])
    refine ⟨?_, hsemicolon⟩
    obtain ⟨last, hlast⟩ :=
      Option.isSome_iff_exists.mp (List.getLast?_isSome.mpr (List.ne_nil_of_mem hc))
    obtain ⟨front, hkids⟩ := List.getLast?_eq_some_iff.mp hlast
    rw [hkids, List.map_append] at hfront
    rw [hkids, List.mem_append, List.mem_singleton] at hc
    rcases hc with hc | rfl
    · exact absurd (List.mem_map_of_mem hc) (hfront _ _ rfl)
    · exact hlast

end Tree

/-- The ranges of a stylesheet that was read are in order. -/
theorem ranges_of_parse {w : Workspace} {css : String} {options : ParseOptions} {t : Tree}
    (h : (parse w css options).1 = .ok t) :
    t.RangedWithin (Input.stripBom css).1.utf8ByteSize := by
  have hconsistent := consistent_of_parse h
  obtain ⟨i, b, hcss, hb, rfl⟩ := parse_eq_ok h
  obtain ⟨hranged, -, hcloses⟩ := outlineText_ranged (fun _ => rfl) hb
  have hdraft : (Tree.ofDraft i b).draft Tree.rootId = b :=
    hconsistent.draft_of_holds b (Tree.holds_ofDraft i b)
  refine Tree.rangedWithin_of_draft hconsistent (fun x hx => ?_) ?_ ?_ ?_
  · obtain ⟨n, hn⟩ := Option.isSome_iff_exists.mp hx
    exact hconsistent.mem_shape_iff.mp (Tree.mem_shape_ofDraft hn)
  · rwa [hdraft]
  · rw [hdraft]
    exact outlineText_firm hb
  · rw [← hconsistent.label_draft, hdraft, hcloses, hcss]

/-- A semicolon behind a rule and a line break, and an at-rule that is a name. -/
theorem ranges_of_free_semicolon :
    ∃ t, (parse {} "a\x7b\x7d\n;b\x7b@c\x7d" {}).1 = .ok t ∧
      (t.nodes.toList.map fun n => (n.detail.opens, n.detail.closes)) =
        [(0, 10), (0, 5), (5, 10), (7, 9)] ∧
      t.RangedWithin 10 := by
  have hread : (parse {} "a\x7b\x7d\n;b\x7b@c\x7d" {}).1.toOption.any (fun t =>
      (t.nodes.toList.map fun n => (n.detail.opens, n.detail.closes)) ==
        [(0, 10), (0, 5), (5, 10), (7, 9)]) = true := by
    decide +kernel
  cases ht : (parse {} "a\x7b\x7d\n;b\x7b@c\x7d" {}).1 with
  | error e => rw [ht] at hread; cases hread
  | ok t =>
    rw [ht] at hread
    exact ⟨t, rfl, beq_iff_eq.mp hread, ranges_of_parse ht⟩

/-- The recorded ends themselves can lie in the next node, or be missing: here the first rule ends
at 6 by its record, where the second one starts at 5, and the at-rule has no record of its end. -/
theorem recorded_ends_of_free_semicolon :
    (parse {} "a\x7b\x7d\n;b\x7b@c\x7d" {}).1.toOption.map (fun t =>
      t.nodes.toList.map fun n => (n.detail.start?, n.detail.stop?)) =
        some [(some 0, some 10), (some 0, some 6), (some 5, some 10), (some 7, none)] := by
  decide +kernel

end Stylesheet
