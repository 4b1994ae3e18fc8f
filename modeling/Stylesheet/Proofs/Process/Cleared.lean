import Stylesheet.Proofs.Edit.Structure
import Stylesheet.Proofs.Output.Identity
import Stylesheet.Proofs.Process.Once

/-!
# The tree before and after printing

Printing takes the comments at the top of the tree that name earlier maps out of it, unless the
options say that no comment is to name a map. Who asks for the tree gets it as it is then: after the
text or the map was asked for these comments are gone, and nothing else is different, unless the
tree could not be printed (`Deferred.tree_of_session`). What else was asked for, and in which order,
makes no difference.
-/

namespace Stylesheet

/-! ### Comments that name maps -/

/-- Whether comments that name maps stay in the tree when it is printed. -/
def ProcessOptions.keepsLinks (o : ProcessOptions) : Bool :=
  (MapPlan.mk {} o []).keepsLinks

/-- A map that is handed on does not change whether comments stay. -/
theorem ProcessOptions.keepsLinks_carryMap (o : ProcessOptions) (map : Option String) :
    (o.carryMap map).keepsLinks = o.keepsLinks := by
  cases map with
  | none => rfl
  | some text =>
    rw [carryMap]
    unfold keepsLinks MapPlan.keepsLinks MapPlan.mapOptions
    cases hmap : o.map with
    | disabled => simp only [hmap]
    | auto => rfl
    | enabled m => rfl

namespace Tree

variable {t : Tree}

/-- One comment is gone from the root. -/
theorem children_withoutChild (hnodup : (t.children rootId).Nodup) (c : NodeId) :
    (t.withoutChild c).children rootId = (t.children rootId).filter (· != c) := by
  have hindex : (t.children rootId).idxOf? c = t.indexIn? rootId c := rfl
  rw [← hnodup.erase_eq_filter, List.erase_eq_eraseIdx, withoutChild, hindex]
  cases t.indexIn? rootId c with
  | none => rfl
  | some i => exact (children_removeAt t rootId c i rootId).trans (if_pos rfl)

/-- Several are. -/
theorem children_foldl_withoutChild (hnodup : (t.children rootId).Nodup) (ids : List NodeId) :
    (ids.foldl withoutChild t).children rootId =
      (t.children rootId).filter fun c => !ids.contains c := by
  induction ids generalizing t with
  | nil => exact (List.filter_eq_self.mpr fun _ _ => rfl).symm
  | cons id ids ih =>
    have hchildren := children_withoutChild hnodup id
    rw [List.foldl_cons, ih (by rw [hchildren]; exact hnodup.filter _), hchildren,
      List.filter_filter]
    refine List.filter_congr fun c _ => ?_
    rw [List.contains_cons, Bool.not_or, Bool.and_comm, bne]

/-- The comments that name maps are gone from the list of the root, and the others stay. -/
theorem children_withoutLinks (hnodup : (t.children rootId).Nodup) :
    t.withoutLinks.children rootId = (t.children rootId).filter fun c => !t.namesMap c := by
  rw [withoutLinks, children_foldl_withoutChild hnodup]
  refine List.filter_congr fun c hc => congrArg _ ?_
  rw [Bool.eq_iff_iff, List.contains_iff_mem, List.mem_filter, List.mem_reverse]
  exact and_iff_right hc

end Tree

/-- A result that is printed has the tree that printing leaves. -/
theorem Result.tree_printed (e : Environment) (r : Result) :
    (r.printed e).map Result.tree = ((r.printed e).map Result.css).map fun _ =>
      if r.options.keepsLinks then r.tree else r.tree.withoutLinks := by
  unfold printed
  dsimp only
  cases (r.tree.generate e r.options).1 <;> rfl

/-! ### What is found -/

/-- Whether the tree is printed for an answer. -/
def Access.prints : Access → Bool
  | .css => true
  | .map => true
  | _ => false

namespace Progress

variable {e : Environment}

theorem isPending_print (p : Progress) : (p.print e).isPending = p.isPending := by
  cases p with
  | processed r =>
    rw [print]
    cases r.printed e <;> rfl
  | _ => rfl

/-- Reading the text or the map prints, and nothing else does. -/
theorem look_snd (p : Progress) (a : Access) :
    (p.look e a).2 = if a.prints then p.print e else p := by
  cases a <;> rfl

end Progress

namespace Deferred

variable {σ : Type} {plugins : List (Plugin σ)} {input : ProcessInput} {options : ProcessOptions}
  {steps : Nat} {s : Workspace × σ} {d : Deferred σ}

/-- Nothing is done when the work was begun before. -/
theorem advance_of_not_pending {p : Progress} (hp : p.isPending = false) (awaits : Bool) :
    (advance steps awaits plugins p).run s = (p, s) := by
  cases p with
  | pending input options => cases hp
  | _ => rfl

/-- Once the work was begun, the tree is that of the progress, printed if the text or the map was
asked for. -/
theorem getLast?_session (hd : d.progress.isPending = false) (as : List Access) :
    ((d.session steps none (as ++ [.tree])).run s).1.1.getLast? =
      some (.tree ((if as.any Access.prints then d.progress.print s.1.toEnvironment
        else d.progress).processed?.map Result.tree)) := by
  induction as generalizing d with
  | nil =>
    rw [List.nil_append, run_session_cons, run_read, advance_of_not_pending hd]
    rfl
  | cons a as ih =>
    have hnext : (d.progress.look s.1.toEnvironment a).2.isPending = false := by
      rw [Progress.look_snd]
      split_ifs
      · rwa [Progress.isPending_print]
      · exact hd
    rw [List.cons_append, run_session_cons, run_read, advance_of_not_pending hd]
    dsimp only
    have hrest := @ih ⟨d.plugins, (d.progress.look s.1.toEnvironment a).2⟩ hnext
    rw [List.getLast?_cons, hrest, Option.getD_some, List.any_cons, Progress.look_snd]
    -- Printing is done at most once.
    cases ha : a.prints with
    | false => rfl
    | true =>
      rw [if_pos rfl, Progress.print_print, ite_self, Bool.true_or, if_pos rfl]

/-- What processing comes to, if the work is begun now. -/
def outcome (plugins : List (Plugin σ)) (input : ProcessInput) (options : ProcessOptions)
    (steps : Nat) (s : Workspace × σ) : Progress :=
  ((advance steps false plugins (.pending input options)).run s).1

/-- What printing depends on after that. -/
def surroundings (plugins : List (Plugin σ)) (input : ProcessInput) (options : ProcessOptions)
    (steps : Nat) (s : Workspace × σ) : Environment :=
  ((advance steps false plugins (.pending input options)).run s).2.1.toEnvironment

/-- Whether earlier links are kept is told by the options that were given. -/
theorem options_prepare {w w' : Workspace} {before : Result}
    (h : input.prepare w options = (.ok before, w')) :
    before.options.keepsLinks = options.keepsLinks := by
  cases input with
  | text css =>
    dsimp only [ProcessInput.prepare] at h
    generalize parse w css options.forParsing = parsed at h
    obtain ⟨parsed, w'⟩ := parsed
    cases parsed with
    | error e => cases h
    | ok t => cases h; rfl
  | tree t => cases h; rfl
  | result r =>
    dsimp only [ProcessInput.prepare] at h
    generalize r.mapText w.packages = map at h
    cases map with
    | error e => cases h
    | ok map => cases h; exact options.keepsLinks_carryMap _

/-- The plugins have run or failed, or the steps were not enough for them. They leave it to the
options whether comments that name maps stay. -/
theorem outcome_cases (plugins : List (Plugin σ)) (input : ProcessInput)
    (options : ProcessOptions) (steps : Nat) (s : Workspace × σ) :
    (∃ r, outcome plugins input options steps s = .processed r ∧
        r.options.keepsLinks = options.keepsLinks) ∨
      (∃ e, outcome plugins input options steps s = .failed e) ∨
      outcome plugins input options steps s = .taken := by
  rw [outcome, run_advance_pending]
  cases hprepare : input.prepare s.1 options with
  | mk prepared w =>
    cases prepared with
    | error e => exact Or.inr (Or.inl ⟨e, rfl⟩)
    | ok before =>
      have hkeeps := options_prepare hprepare
      dsimp only [PluginRun.onResult, StateT.run, bind, StateT.bind, get, getThe,
        MonadStateOf.get, StateT.get, set, StateT.set, pure, PluginRun.progress]
      split
      · exact Or.inl ⟨_, rfl, hkeeps⟩
      · exact Or.inr (Or.inl ⟨_, rfl⟩)
      · exact Or.inr (Or.inr rfl)

/-- A handle that was read once has begun. -/
theorem isPending_outcome : (outcome plugins input options steps s).isPending = false := by
  rcases outcome_cases plugins input options steps s with ⟨r, h, -⟩ | ⟨e, h⟩ | h <;> rw [h] <;> rfl

/-- Asked for something, processing that is pending goes on from what it comes to. -/
theorem run_session_ofInput (plugins : List (Plugin σ)) (input : ProcessInput)
    (options : ProcessOptions) (steps : Nat) (s : Workspace × σ) (a : Access) (as : List Access) :
    ∃ s', s'.1.toEnvironment = surroundings plugins input options steps s ∧
      ((ofInput plugins input options).session steps none (a :: as)).run s =
        ((⟨plugins, outcome plugins input options steps s⟩ : Deferred σ).session steps none
          (a :: as)).run s' := by
  refine ⟨((advance steps false plugins (.pending input options)).run s).2, rfl, ?_⟩
  rw [run_session_cons, run_session_cons, run_read, run_read,
    advance_of_not_pending isPending_outcome]
  rfl

/-- The tree that is found after other questions. -/
theorem getLast?_session_ofInput (as : List Access) :
    (((ofInput plugins input options).session steps none (as ++ [.tree])).run s).1.1.getLast? =
      some (.tree ((if as.any Access.prints then
          (outcome plugins input options steps s).print (surroundings plugins input options steps s)
        else outcome plugins input options steps s).processed?.map Result.tree)) := by
  obtain ⟨a, rest, hcons⟩ := List.exists_cons_of_ne_nil (List.append_ne_nil_of_right_ne_nil as
    (List.cons_ne_nil Access.tree []))
  obtain ⟨s', hsame, hsession⟩ := run_session_ofInput plugins input options steps s a rest
  rw [hcons, hsession, ← hcons, ← hsame]
  exact getLast?_session isPending_outcome as

/-- Asking for the tree after any other questions gives the tree that is given when nothing else was
asked for. If the text or the map was among the questions, it is without the comments that name
maps, unless the options keep these; and if it could not be printed, the error of that is given. If
there are no such comments it is the same tree. -/
theorem tree_of_session (plugins : List (Plugin σ)) (input : ProcessInput)
    (options : ProcessOptions) (steps : Nat) (s : Workspace × σ) (as : List Access) :
    let fresh := (((ofInput plugins input options).tree steps).run s).1.1
    let text := (((ofInput plugins input options).css steps).run s).1.1
    let later := (((ofInput plugins input options).session steps none (as ++ [.tree])).run
      s).1.1.getLast?
    later = some (.tree (if as.any Access.prints then
        text.bind fun _ => fresh.map fun t => if options.keepsLinks then t else t.withoutLinks
      else fresh)) ∧
      ∀ t, fresh = .ok t →
        ((t.children Tree.rootId).Nodup →
          t.withoutLinks.children Tree.rootId =
            (t.children Tree.rootId).filter fun c => !t.namesMap c) ∧
        (text.isOk = true → (∀ x ∈ t.children Tree.rootId, t.namesMap x = false) →
          later = some (.tree (.ok t))) := by
  intro fresh text later
  have hfresh : fresh = (outcome plugins input options steps s).processed?.map Result.tree := rfl
  have htext : text = ((outcome plugins input options steps s).print
      (surroundings plugins input options steps s)).printed?.map Result.css := rfl
  have hlater : later = some (.tree (if as.any Access.prints then
      text.bind fun _ => fresh.map fun t => if options.keepsLinks then t else t.withoutLinks
      else fresh)) := by
    refine (getLast?_session_ofInput as).trans (congrArg (fun x => some (Reading.tree x)) ?_)
    cases as.any Access.prints with
    | false => rfl
    | true =>
      rw [if_pos rfl, if_pos rfl, hfresh, htext]
      -- A result whose printing may fail, an error of the run, and a run that is not over.
      rcases outcome_cases plugins input options steps s with ⟨r, h, hkeeps⟩ | ⟨e, h⟩ | h
      · rw [h, ← hkeeps]
        have htree := r.tree_printed (surroundings plugins input options steps s)
        dsimp only [Progress.print]
        cases hprinted : r.printed (surroundings plugins input options steps s) with
        | error e => rfl
        | ok r' =>
          rw [hprinted] at htree
          exact htree
      · rw [h]
        rfl
      · rw [h]
        rfl
  refine ⟨hlater, fun t ht => ⟨Tree.children_withoutLinks, fun hok hlinks => ?_⟩⟩
  rw [hlater, ht]
  -- Printing counts only when it succeeds; an unprinted tree has lost no comment.
  clear_value text
  cases text with
  | error e => cases hok
  | ok css =>
    dsimp only [Except.map, Except.bind]
    rw [Tree.withoutLinks_eq_self hlinks, ite_self, ite_self]

/-- A comment that names no map stays where it is, whatever is asked for. -/
theorem tree_of_session_comment :
    let css := "a\x7b\x7d\n/* sourceMappingURL=x */"
    ∃ t, (((ofInput (σ := Unit) [] (.text css) {}).tree 60).run ({}, ())).1.1 = .ok t ∧
      t.print = css ∧
      (((ofInput (σ := Unit) [] (.text css) {}).session 60 none
        ([.css, .sync, .map] ++ [.tree])).run ({}, ())).1.1.getLast? = some (.tree (.ok t)) := by
  intro css
  have htext : (((ofInput (σ := Unit) [] (.text css) {}).css 60).run
      ({}, ())).1.1.isOk = true := by
    decide +kernel
  have hread : ((((ofInput (σ := Unit) [] (.text css) {}).tree 60).run
      ({}, ())).1.1.toOption.any fun t =>
        t.print == css && (t.children Tree.rootId).all fun x => !t.namesMap x) = true := by
    decide +kernel
  generalize hfresh : (((ofInput (σ := Unit) [] (.text css) {}).tree 60).run ({}, ())).1.1 = fresh
    at hread
  cases fresh with
  | error e => cases hread
  | ok t =>
    obtain ⟨hprint, hlinks⟩ := Bool.and_eq_true_iff.mp hread
    refine ⟨t, rfl, beq_iff_eq.mp hprint,
      ((tree_of_session [] (.text css) {} 60 ({}, ()) [.css, .sync, .map]).2 t hfresh).2 htext ?_⟩
    intro x hx
    rw [← Bool.not_eq_true']
    exact List.all_eq_true.mp hlinks x hx

/-- The comment is not in the tree any more when the text was asked for before. -/
theorem tree_after_text :
    (((ofInput (σ := Unit) [] (.text "a\x7b\x7d\n/*# sourceMappingURL=x */") {}).session 60 none
        [.tree, .css, .tree]).run ({}, ())).1.1.filterMap (fun
          | .tree (.ok t) => some t.print
          | _ => none) =
      ["a\x7b\x7d\n/*# sourceMappingURL=x */", "a\x7b\x7d"] := by
  decide +kernel

end Deferred

end Stylesheet
