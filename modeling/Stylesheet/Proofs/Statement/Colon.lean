import Stylesheet.Proofs.Statement.Lookahead
import Stylesheet.Proofs.Statement.Text
import Stylesheet.Proofs.Token.Ends

/-!
# The colon of a declaration

What was read between the property and the value of a declaration has a colon in it
(`colon_mem_between`). A run of tokens is a declaration only when it has a colon outside of all
brackets, but that colon may stand in front of the property. Without another one the declaration
has no value, which is allowed in custom properties only, and their name comes first of all.
-/

namespace Stylesheet

variable {pending : Option Unclosed} {custom : Bool} {t : Token} {ts us rest : List Token}
  {parts : DeclarationParts}

/-! ### Among the tokens -/

theorem HasColon.cutGaps (h : HasColon ts) : HasColon (cutGaps ts).1 := by
  obtain ⟨u, hu, hk⟩ := h
  rw [← cutGaps_append ts] at hu
  rcases List.mem_append.mp hu with hu | hu
  · exact ⟨u, hu, hk⟩
  · -- Gaps are no colons.
    rw [Stylesheet.cutGaps, List.mem_reverse] at hu
    have hgap := List.mem_takeWhile_imp hu
    rw [Token.isGap, hk] at hgap
    cases hgap

/-- The semicolon at the end is no colon either. -/
theorem HasColon.without_semicolon {closed : Bool} (h : HasColon us)
    (hclosed : closed = us.getLast?.any fun u => u.kind == .semicolon) :
    HasColon (if closed then us.dropLast else us) := by
  split_ifs with hc
  · rw [hc] at hclosed
    obtain ⟨u, hu, hk⟩ := h
    obtain ⟨e, he⟩ : ∃ e, us.getLast? = some e := by
      cases hlast : us.getLast? with
      | none => rw [hlast] at hclosed; cases hclosed
      | some e => exact ⟨e, rfl⟩
    obtain ⟨front, rfl⟩ := List.getLast?_eq_some_iff.mp he
    rw [he] at hclosed
    refine ⟨u, ?_, hk⟩
    rw [List.dropLast_concat]
    -- The token that is dropped is a semicolon, and not the colon.
    rcases List.mem_append.mp hu with hu | hu
    · exact hu
    · obtain rfl := List.mem_singleton.mp hu
      simp [hk] at hclosed
  · exact h

/-- A declaration has a colon. -/
theorem hasColon_of_nextStatement
    (h : nextStatement pending t ts = .ok (.declaration custom us, rest)) : HasColon us := by
  cases FirstStatement.of_nextStatement h with
  | closed _ hcolon =>
    obtain ⟨u, hu, hk⟩ := hcolon
    exact ⟨u, List.mem_append_left _ hu, hk⟩
  | custom _ hcolon => exact hcolon
  | plain _ hcolon => exact hcolon.cutGaps

/-- A declaration starts with its first token, and is a custom property when that starts with
dashes. -/
theorem nextStatement_custom
    (h : nextStatement pending t ts = .ok (.declaration custom us, rest)) :
    us.head? = some t ∧ (custom = true → t.text.toList.head? = some '-') := by
  constructor
  · have happ := nextStatement_append h
    have hne := nextStatement_ne_nil h
    rw [Statement.tokens] at happ hne
    have hhead : (us ++ rest).head? = us.head? := List.head?_append_of_ne_nil us hne
    rw [← hhead, happ, List.head?_cons]
  · intro htrue
    -- The flag is what the first token says; it is passed on unchanged.
    have hcustom : custom = t.text.startsWith "--" := by
      cases FirstStatement.of_nextStatement h with
      | closed => rfl
      | custom hcustom => exact hcustom.symm
      | plain hplain => exact hplain.symm
    rw [hcustom, String.startsWith_string_iff] at htrue
    obtain ⟨more, hmore⟩ := htrue
    rw [← hmore]
    rfl

/-! ### Between the parts -/

theorem colon_mem_cutBetween {before between : String} {body : List Token}
    (hus : ∀ u ∈ us, u.Spelled) (h : cutBetween before us = .ok (between, body))
    (hcolon : HasColon us ∨ body ≠ []) : ':' ∈ between.toList := by
  -- Tokens are passed until the colon comes; it is the last one that is cut.
  induction us generalizing before with
  | nil =>
    cases h
    rcases hcolon with ⟨u, hu, -⟩ | hbody
    · cases hu
    · exact absurd rfl hbody
  | cons u us ih =>
    obtain ⟨hu, hus⟩ := List.forall_mem_cons.mp hus
    rw [cutBetween] at h
    split_ifs at h with hk
    · cases h
      rw [Token.Spelled, beq_iff_eq.mp hk] at hu
      rw [String.toList_append, List.mem_append]
      right
      rw [show u.text.toList = [':'] from hu]
      exact List.mem_singleton_self ':'
    · refine ih hus h (hcolon.imp_left ?_)
      rintro ⟨v, hv, hkv⟩
      rcases List.mem_cons.mp hv with rfl | hv
      · rw [hkv] at hk
        exact absurd rfl hk
      · exact ⟨v, hv, hkv⟩

/-- A property ends in front of a colon at the latest. -/
theorem HasColon.behind_property (h : HasColon ts) :
    HasColon (ts.dropWhile fun u => !endsProperty u) := by
  obtain ⟨u, hu, hk⟩ := h
  rw [← List.takeWhile_append_dropWhile (p := fun u => !endsProperty u) (l := ts)] at hu
  rcases List.mem_append.mp hu with hu | hu
  · have hends := List.mem_takeWhile_imp hu
    rw [endsProperty, hk] at hends
    cases hends
  · exact ⟨u, hu, hk⟩

/-- There is a colon between the property and the value. -/
theorem colon_mem_of_readDeclaration (hus : ∀ u ∈ us, u.Spelled)
    (hcustom : custom = true → HasColon us ∧ ∃ u more, us = u :: more ∧ u.kind = .word)
    (h : readDeclaration custom us = .ok parts) : ':' ∈ parts.between.toList := by
  obtain ⟨lead, more, body, between, hlead, hbetween, -, -, -, -, hbody⟩ := readDeclaration_eq_ok h
  have hspelled : ∀ u ∈ (parts.first :: more).dropWhile fun t => !endsProperty t, u.Spelled := by
    intro u hu
    refine hus u ?_
    rw [← append_cutLead hlead]
    exact List.mem_append_right _ ((List.dropWhile_sublist _).subset hu)
  have hcolon : ':' ∈ between.toList := by
    refine colon_mem_cutBetween hspelled hbetween ?_
    cases custom with
    | true =>
      obtain ⟨hhas, u, tail, rfl, hk⟩ := hcustom rfl
      rw [cutLead, hk, if_pos (by rfl), Except.ok.injEq, Prod.mk.injEq, Prod.mk.injEq] at hlead
      obtain ⟨-, rfl, rfl⟩ := hlead
      exact Or.inl hhas.behind_property
    | false =>
      -- There is a value, and the colon is in front of it.
      right
      rintro rfl
      rw [readDeclaration, hlead] at h
      simp only [bind, Except.bind] at h
      rw [hbetween] at h
      cases h
  rcases hbody with ⟨hb, -⟩ | ⟨hb, -⟩
  · rw [hb, String.toList_append]
    exact List.mem_append_left _ hcolon
  · rwa [hb]

/-- Every declaration that is read has a colon between its property and its value. -/
theorem colon_mem_between {closed : Bool} (hus : ∀ u ∈ us, u.Tidy)
    (hnext : nextStatement pending t ts = .ok (.declaration custom us, rest))
    (hclosed : closed = us.getLast?.any fun u => u.kind == .semicolon)
    (hparts : readDeclaration custom (if closed then us.dropLast else us) = .ok parts) :
    ':' ∈ parts.between.toList := by
  have hhas := (hasColon_of_nextStatement hnext).without_semicolon hclosed
  have hsubset : ∀ u ∈ (if closed then us.dropLast else us), u ∈ us := by
    intro u hu
    split_ifs at hu
    · exact List.dropLast_subset us hu
    · exact hu
  refine colon_mem_of_readDeclaration (fun u hu => (hus u (hsubset u hu)).spelled)
    (fun htrue => ⟨hhas, ?_⟩) hparts
  -- The first token starts with dashes, so it is a word.
  obtain ⟨hhead, hdash⟩ := nextStatement_custom hnext
  have hword : t.kind = .word := (hus t (List.mem_of_mem_head? hhead)).dash (hdash htrue)
  obtain ⟨more, rfl⟩ := List.head?_eq_some_iff.mp hhead
  split_ifs at hparts ⊢
  · cases more with
    | nil => cases hparts
    | cons v more => exact ⟨t, _, rfl, hword⟩
  · exact ⟨t, more, rfl, hword⟩

end Stylesheet
