import Stylesheet.Proofs.Draft.Basic

/-!
# Where the nodes of a draft are printed

`Draft.places` lists the nodes of a draft in the order of the document, each with the text that is
printed in front of it and the text that it starts with. As for the text of a draft, one more child
adds its own places to those of the children in front of it (`Draft.placesAll_concat` and
`Draft.placesAll_concat_comment`).
-/

namespace Stylesheet

/-- What is printed of a node in front of its children: all of it when it is a leaf. -/
def Detail.own (d : Detail) (closed : Bool) : String :=
  if d.isLeaf then d.leafText closed else d.heading

/-- An at-rule starts with its name and its parameters, whether it has a block or not. -/
theorem Detail.own_of_atRule {d : Detail} {name params : String}
    (h : d.content = .atRule name params) (closed : Bool) :
    d.own closed = Tree.atRuleHead d.raws name params ++ (d.raws.between.getD "" ++
      if d.block then "\x7b" else if closed then ";" else "") := by
  rw [own, isLeaf, heading, leafText, h]
  cases d.block <;> simp [String.append_assoc]

namespace Draft

/-- A node where it is printed. -/
structure Place where
  /-- All that is printed in front of the node. -/
  front : String
  detail : Detail
  /-- What the node starts with. -/
  own : String

mutual

/-- The places of a draft that is printed behind a text. -/
def places (front : String) (closed : Bool) : Draft → List Place
  | .node d kids =>
    ⟨front, d, d.own closed⟩ ::
      placesAll (front ++ d.heading) (d.raws.semicolon.getD false) kids

/-- The places of the children of a node. -/
def placesAll (front : String) (closesLast : Bool) : List Draft → List Place
  | [] => []
  | b :: bs =>
    let closed := bs.any (fun b => !isComment b) || closesLast
    let start := front ++ b.label.before
    places start closed b ++ placesAll (start ++ text closed b) closesLast bs

end

mutual

/-- Every node has one place. -/
theorem detail_places (front : String) (closed : Bool) :
    ∀ b : Draft, (places front closed b).map Place.detail = b.toList
  | .node d kids => by
    rw [places, List.map_cons, detail_placesAll _ _ kids, Branch.toList]

theorem detail_placesAll (front : String) (closesLast : Bool) :
    ∀ bs : List Draft, (placesAll front closesLast bs).map Place.detail = Branch.listAll bs
  | [] => rfl
  | b :: bs => by
    rw [placesAll, List.map_append, detail_places _ _ b, detail_placesAll _ _ bs, Branch.listAll]

end

mutual

/-- What a node starts with stands at its place in the text. -/
theorem front_of_mem_places {front : String} {closed : Bool} {p : Place} :
    ∀ b : Draft, b.Every Detail.Captured → p ∈ places front closed b →
      ∃ more, p.front ++ p.own ++ more = front ++ text closed b
  | .node d kids, hcap, hp => by
    rw [places] at hp
    rw [text]
    -- A place is that of the node itself or of one beneath it; a leaf has none beneath.
    rcases List.mem_cons.mp hp with rfl | hp
    · rw [Detail.own]
      split_ifs
      · exact ⟨"", String.append_empty⟩
      · exact ⟨_, by simp only [String.append_assoc]; rfl⟩
    · cases hleaf : d.isLeaf with
      | true =>
        obtain rfl := hcap.top.eq_nil_of_isLeaf hleaf
        cases hp
      | false =>
        obtain ⟨more, hmore⟩ := front_of_mem_placesAll kids hcap.rest hp
        refine ⟨more ++ d.ending, ?_⟩
        rw [← String.append_assoc, hmore]
        simp [String.append_assoc]

theorem front_of_mem_placesAll {front : String} {closesLast : Bool} {p : Place} :
    ∀ bs : List Draft, (∀ b ∈ bs, b.Every Detail.Captured) → p ∈ placesAll front closesLast bs →
      ∃ more, p.front ++ p.own ++ more = front ++ textAll closesLast bs
  | [], hcap, hp => absurd hp List.not_mem_nil
  | b :: bs, hcap, hp => by
    rw [placesAll, List.mem_append] at hp
    rw [textAll]
    rcases hp with hp | hp
    · obtain ⟨more, hmore⟩ := front_of_mem_places b (hcap b List.mem_cons_self) hp
      refine ⟨more ++ textAll closesLast bs, ?_⟩
      rw [← String.append_assoc, hmore]
      simp only [String.append_assoc]
    · obtain ⟨more, hmore⟩ :=
        front_of_mem_placesAll bs (fun b hb => hcap b (List.mem_cons_of_mem _ hb)) hp
      exact ⟨more, by rw [hmore]; simp only [String.append_assoc]⟩

end

/-! ### Semicolons -/

/-- A semicolon makes no difference for the places when it makes none for the text. -/
theorem places_eq_of_text_eq {b : Draft} {closed closed' : Bool}
    (h : text closed b = text closed' b) (front : String) :
    places front closed b = places front closed' b := by
  obtain ⟨d, kids⟩ := b
  rw [text, text] at h
  rw [places, places, Detail.own, Detail.own]
  cases hleaf : d.isLeaf with
  | false => rfl
  | true =>
    rw [hleaf] at h
    exact congrArg (Place.mk front d · :: _) h

theorem textAll_of_comments {bs : List Draft} (h : bs.any (fun b => !isComment b) = false)
    (closesLast closesLast' : Bool) : textAll closesLast bs = textAll closesLast' bs := by
  induction bs with
  | nil => rfl
  | cons b bs ih =>
    rw [List.any_cons, Bool.or_eq_false_iff, Bool.not_eq_false'] at h
    rw [textAll, textAll, ih h.2, text_eq_of_isComment h.1]

/-- Whether the last child is closed makes no difference for the places when it makes none for the
text. -/
theorem placesAll_eq_of_textAll_eq {bs : List Draft} {closesLast : Bool}
    (h : textAll closesLast bs = textAll true bs) (front : String) :
    placesAll front closesLast bs = placesAll front true bs := by
  induction bs generalizing front with
  | nil => rfl
  | cons b bs ih =>
    -- The first child has the same text, and so have the others.
    obtain ⟨hfirst, hrest⟩ :
        text (bs.any (fun b => !isComment b) || closesLast) b =
            text (bs.any (fun b => !isComment b) || true) b ∧
          textAll closesLast bs = textAll true bs := by
      rw [textAll, textAll] at h
      cases hany : bs.any fun b => !isComment b with
      | true =>
        rw [hany, Bool.true_or, Bool.true_or, String.append_right_inj] at h
        exact ⟨rfl, h⟩
      | false =>
        have hcomments := textAll_of_comments hany closesLast true
        rw [hany, hcomments, String.append_left_inj, String.append_right_inj] at h
        exact ⟨h, hcomments⟩
    rw [placesAll, placesAll]
    rw [hfirst, places_eq_of_text_eq hfirst, ih hrest]

/-! ### One more child -/

/-- One more child that is no comment: all children in front of it are closed now. -/
theorem placesAll_concat (front : String) (closesLast : Bool) (bs : List Draft) {b : Draft}
    (hb : isComment b = false) :
    placesAll front closesLast (bs ++ [b]) = placesAll front true bs ++
      places (front ++ textAll true bs ++ b.label.before) closesLast b := by
  induction bs generalizing front with
  | nil => simp [placesAll, textAll]
  | cons a bs ih =>
    rw [List.cons_append, placesAll, placesAll, textAll]
    rw [ih]
    simp [hb, String.append_assoc]

/-- One more comment changes nothing in front of it. -/
theorem placesAll_concat_comment (front : String) (closesLast : Bool) (bs : List Draft) {b : Draft}
    (hb : isComment b = true) (closed : Bool) :
    placesAll front closesLast (bs ++ [b]) = placesAll front closesLast bs ++
      places (front ++ textAll closesLast bs ++ b.label.before) closed b := by
  induction bs generalizing front with
  | nil =>
    have hplaces := places_eq_of_text_eq (text_eq_of_isComment hb closesLast closed)
    simp [placesAll, textAll, hplaces]
  | cons a bs ih =>
    rw [List.cons_append, placesAll, placesAll, textAll]
    rw [ih]
    simp [hb, String.append_assoc]

end Draft

end Stylesheet
