import Mathlib.Data.List.Basic
import Mathlib.Tactic.SplitIfs
import Stylesheet.Output.Plan
import Stylesheet.PreviousMap
import Stylesheet.Proofs.Text.Cut

/-!
# The course of a path

What a path says is known by reading it from its end: a `..` takes away the nearest name in front of
it that no other `..` takes away. What is left are ways up, and the names that follow them
(`Path.course`). From any directory the path leads as many levels up and then down along the names
(`Path.reach_eq`).

`Path.normalize` keeps the names of the course, but not all of its ways up. It takes every `..`
against the part in front of it, also when that part is a `..` itself, so that of the ways up only
one is left when their number is odd, and none when it is even (`Path.foldl_resolvePart`). So a
relative path with more than one way up is led astray (`Path.normalize_course`).
-/

namespace Stylesheet.Path

/-- What is left of a path when each `..` is taken against the name in front of it. -/
structure Course where
  /-- The ways up that find no name to take away. -/
  ups : Nat
  /-- The names that no way up takes away. -/
  names : List String
deriving DecidableEq, Repr

/-- The course of a path with the given parts, read from the end: a name is taken away by the first
`..` behind it that has none yet. -/
def course : List String → Course
  | [] => ⟨0, []⟩
  | part :: parts =>
    let rest := course parts
    if part = "." then rest
    else if part = ".." then { rest with ups := rest.ups + 1 }
    else
      match rest.ups with
      | 0 => { rest with names := part :: rest.names }
      | ups + 1 => { rest with ups }

/-- Where a path leads to from the directory with the given names, the last one first. There is no
way up from the topmost directory. -/
def reach (dir : List String) : List String → List String
  | [] => dir
  | part :: parts =>
    if part = "." then reach dir parts
    else if part = ".." then reach dir.tail parts
    else reach (part :: dir) parts

/-! ### Parts -/

/-- A course with one more part in front. -/
theorem course_cons (part : String) (parts : List String) :
    part = "." ∧ course (part :: parts) = course parts ∨
    part = ".." ∧ course (part :: parts) = ⟨(course parts).ups + 1, (course parts).names⟩ ∨
    (part ≠ "." ∧ part ≠ "..") ∧
      ((course parts).ups = 0 ∧ course (part :: parts) = ⟨0, part :: (course parts).names⟩ ∨
        ∃ ups, (course parts).ups = ups + 1 ∧
          course (part :: parts) = ⟨ups, (course parts).names⟩) := by
  rw [course]
  by_cases hhere : part = "."
  · exact Or.inl ⟨hhere, by rw [if_pos hhere]⟩
  by_cases hup : part = ".."
  · exact Or.inr (Or.inl ⟨hup, by rw [if_neg hhere, if_pos hup]⟩)
  refine Or.inr (Or.inr ⟨⟨hhere, hup⟩, ?_⟩)
  rw [if_neg hhere, if_neg hup]
  rcases hrest : course parts with ⟨ups, names⟩
  cases ups with
  | zero => exact Or.inl ⟨rfl, rfl⟩
  | succ ups => exact Or.inr ⟨ups, rfl, rfl⟩

/-- The names of a course are parts of the path, and neither `.` nor `..`. -/
theorem mem_names {parts : List String} {name : String} (h : name ∈ (course parts).names) :
    name ∈ parts ∧ name ≠ "." ∧ name ≠ ".." := by
  induction parts with
  | nil => exact absurd h List.not_mem_nil
  | cons part parts ih =>
    have hrest : name ∈ (course parts).names → name ∈ part :: parts ∧ name ≠ "." ∧ name ≠ ".." :=
      fun hmem => ⟨List.mem_cons_of_mem part (ih hmem).1, (ih hmem).2⟩
    rcases course_cons part parts with
      ⟨-, heq⟩ | ⟨-, heq⟩ | ⟨hname, ⟨-, heq⟩ | ⟨ups, -, heq⟩⟩ <;> rw [heq] at h
    · exact hrest h
    · exact hrest h
    · rcases List.mem_cons.mp h with rfl | h
      · exact ⟨List.mem_cons_self, hname⟩
      · exact hrest h
    · exact hrest h

/-- A path leads as many levels up as its course says, and then down along the names. -/
theorem reach_eq (dir parts : List String) :
    reach dir parts = (course parts).names.reverse ++ dir.drop (course parts).ups := by
  induction parts generalizing dir with
  | nil => simp [reach, course]
  | cons part parts ih =>
    rw [reach]
    rcases course_cons part parts with
      ⟨hpart, heq⟩ | ⟨hpart, heq⟩ | ⟨⟨hhere, hup⟩, ⟨hups, heq⟩ | ⟨ups, hups, heq⟩⟩
    · rw [if_pos hpart, ih, heq]
    · rw [if_neg (by rw [hpart]; decide), if_pos hpart, ih, heq, List.drop_tail]
    · rw [if_neg hhere, if_neg hup, ih, heq, hups]
      simp
    · rw [if_neg hhere, if_neg hup, ih, heq, hups]
      simp

/-! ### Resolving -/

theorem resolvePart_of_name {part : String} (done : List String) (h : part ≠ "." ∧ part ≠ "..") :
    resolvePart done part = part :: done := by
  unfold resolvePart
  rw [if_neg (by simpa using h.1), if_neg (by simpa using h.2)]

/-- Where no name is left, a way up takes away the `..` in front of it or is the only one. -/
theorem resolvePart_up (n : Nat) :
    resolvePart (List.replicate (n % 2) "..") ".." = List.replicate ((n + 1) % 2) ".." := by
  rcases Nat.mod_two_eq_zero_or_one n with h | h
  · rw [h, show (n + 1) % 2 = 1 by omega]
    rfl
  · rw [h, show (n + 1) % 2 = 0 by omega]
    rfl

/-- What has been resolved is kept last first: some names on top of a `..` or of nothing. A way up
that finds no name takes the `..` away, or puts one there. -/
theorem foldl_resolvePart (parts names : List String) (n : Nat) :
    parts.foldl resolvePart (names ++ List.replicate (n % 2) "..") =
      (course parts).names.reverse ++ names.drop (course parts).ups ++
        List.replicate ((n + ((course parts).ups - names.length)) % 2) ".." := by
  induction parts generalizing names n with
  | nil => simp [course]
  | cons part parts ih =>
    rw [List.foldl_cons]
    -- A step up cancels the name before it, or the step up that was kept there; two in a row are
    -- both gone.
    rcases course_cons part parts with
      ⟨hpart, heq⟩ | ⟨hpart, heq⟩ | ⟨hname, hcases⟩
    · subst hpart
      rw [heq]
      exact ih names n
    · subst hpart
      rw [heq]
      cases names with
      | cons name names =>
        have hlen : (course parts).ups + 1 - (name :: names).length =
            (course parts).ups - names.length := by
          rw [List.length_cons]
          omega
        rw [hlen]
        exact ih names n
      | nil =>
        have hcount : n + 1 + (course parts).ups = n + ((course parts).ups + 1) := by omega
        have hrest := ih [] (n + 1)
        rw [List.nil_append] at hrest
        rw [List.nil_append, resolvePart_up, hrest]
        simp [hcount]
    · rw [resolvePart_of_name _ hname, ← List.cons_append, ih (part :: names) n]
      rcases hcases with ⟨hups, heq⟩ | ⟨ups, hups, heq⟩
      · rw [heq, hups]
        simp
      · have hlen : ups + 1 - (part :: names).length = ups - names.length := by
          rw [List.length_cons]
          omega
        rw [heq, hups, hlen]
        simp

/-- A resolved path has the names of the course, and a way up when their number is odd. -/
theorem resolveParts_eq (parts : List String) :
    resolveParts parts =
      List.replicate ((course parts).ups % 2) ".." ++ (course parts).names := by
  have hfold := foldl_resolvePart parts [] 0
  rw [List.nil_append, Nat.zero_mod, List.replicate_zero] at hfold
  rw [resolveParts, hfold]
  simp

/-! ### Texts -/

/-- The parts of a path apart from a `.` in front. -/
def steps (path : String) : List String :=
  (pieces path.toList).filter fun piece => !isIdle piece

theorem parts_eq (path : String) :
    parts path = if startsHere path then "." :: steps path else steps path :=
  rfl

/-- A `.` has no part in the course. -/
theorem course_here (parts : List String) : course ("." :: parts) = course parts := by
  rw [course, if_pos rfl]

theorem course_append {parts parts' : List String} (front : List String)
    (h : course parts = course parts') : course (front ++ parts) = course (front ++ parts') := by
  induction front with
  | nil => exact h
  | cons part front ih => rw [List.cons_append, List.cons_append, course, course, ih]

theorem course_parts_append (path : String) (behind : List String) :
    course (parts path ++ behind) = course (steps path ++ behind) := by
  rw [parts_eq]
  split
  · exact course_here _
  · rfl

theorem course_parts (path : String) : course (parts path) = course (steps path) := by
  simpa using course_parts_append path []

/-- Parts of a text hold no slash, and say something. -/
theorem mem_steps {path part : String} (h : part ∈ steps path) :
    '/' ∉ part.toList ∧ isIdle part = false := by
  obtain ⟨hpiece, hidle⟩ := List.mem_filter.mp h
  obtain ⟨cs, hcs, rfl⟩ := List.mem_map.mp hpiece
  refine ⟨?_, by simpa using hidle⟩
  rw [String.toList_ofList]
  exact Text.not_mem_of_mem_pieces hcs

theorem steps_append_slash {a b c : String} (h : a.toList = b.toList ++ '/' :: c.toList) :
    steps a = steps b ++ steps c := by
  unfold steps pieces
  rw [h, Text.pieces_append, List.map_append, List.filter_append]

/-- A path that is seen from another one has the parts of both. -/
theorem steps_join {path : String} (base : String) (h : isAbsolute path = false) :
    steps (join base path) = steps base ++ steps path := by
  unfold join
  rw [if_neg (by rw [h]; exact Bool.false_ne_true)]
  split_ifs with hslash
  · rw [Bool.or_eq_true, beq_iff_eq, beq_iff_eq] at hslash
    rcases hslash with rfl | hslash
    · rw [String.empty_append]
      rfl
    · -- The slash at the end of the base is the one between the two.
      obtain ⟨front, hfront⟩ := List.getLast?_eq_some_iff.mp hslash
      have hbase : steps base = steps (String.ofList front) ++ steps "" := by
        refine steps_append_slash ?_
        rw [hfront, String.toList_ofList]
        rfl
      have hboth : steps (base ++ path) = steps (String.ofList front) ++ steps path := by
        refine steps_append_slash ?_
        rw [String.toList_append, hfront, String.toList_ofList, List.append_assoc]
        rfl
      rw [hboth, hbase, show steps "" = [] by decide, List.append_nil]
  · refine steps_append_slash ?_
    rw [String.toList_append, String.toList_append, List.append_assoc]
    rfl

theorem course_join {path : String} (base : String) (h : isAbsolute path = false) :
    course (parts (join base path)) = course (parts base ++ parts path) := by
  rw [course_parts, steps_join base h, course_parts_append]
  exact course_append _ (course_parts path).symm

/-- The pieces of a text that is put together from parts without slashes. -/
theorem pieces_intercalate (part : String) {parts : List String}
    (h : ∀ p ∈ part :: parts, '/' ∉ p.toList) :
    Text.pieces '/' ("/".intercalate (part :: parts)).toList =
      (part :: parts).map String.toList := by
  rw [String.toList_intercalate]
  exact Text.pieces_intercalate (List.cons_ne_nil _ _) (List.forall_mem_map.mpr h)

theorem steps_intercalate {ps : List String}
    (h : ∀ p ∈ ps, '/' ∉ p.toList ∧ isIdle p = false) : steps ("/".intercalate ps) = ps := by
  cases ps with
  | nil => decide
  | cons part ps =>
    have hmap : ((part :: ps).map String.toList).map String.ofList = part :: ps := by
      simp [Function.comp_def]
    rw [steps, pieces, pieces_intercalate part fun p hp => (h p hp).1, hmap]
    exact List.filter_eq_self.mpr fun p hp => by rw [(h p hp).2]; rfl

theorem startsHere_of_isAbsolute {path : String} (h : isAbsolute path = true) :
    startsHere path = false := by
  obtain ⟨rest, hrest⟩ := List.head?_eq_some_iff.mp (beq_iff_eq.mp h)
  rw [startsHere, Bool.or_eq_false_iff]
  constructor
  · rw [beq_eq_false_iff_ne]
    rintro rfl
    cases hrest
  · rw [hrest]
    rfl

/-- A slash in front, or a `.` that counts there, comes with a first piece that is idle. -/
theorem idle_of_lead {path : String} (h : isAbsolute path = true ∨ startsHere path = true) :
    ∃ q qs, Text.pieces '/' path.toList = q :: qs ∧ isIdle (String.ofList q) = true := by
  rcases h with h | h
  · obtain ⟨rest, hrest⟩ := List.head?_eq_some_iff.mp (beq_iff_eq.mp h)
    rw [hrest]
    exact ⟨[], _, Text.pieces_append '/' [] rest, by decide⟩
  · rcases (Bool.or_eq_true _ _).mp h with h | h
    · rw [beq_iff_eq.mp h]
      exact ⟨['.'], [], rfl, by decide⟩
    · obtain ⟨rest, hafter⟩ := Option.isSome_iff_exists.mp h
      rw [Text.after?_eq_some hafter]
      exact ⟨['.'], _, Text.pieces_append '/' ['.'] rest, by decide⟩

/-- A path of given parts, none of which is idle or holds a slash, has these parts. -/
theorem parts_ofParts (rooted : Bool) {ps : List String}
    (h : ∀ p ∈ ps, '/' ∉ p.toList ∧ isIdle p = false) :
    isAbsolute (ofParts rooted ps) = rooted ∧ parts (ofParts rooted ps) = ps := by
  have hsteps := steps_intercalate h
  cases rooted with
  | true =>
    have htext : (ofParts true ps).toList = '/' :: ("/".intercalate ps).toList := by
      rw [ofParts, if_pos rfl, String.toList_append]
      rfl
    have habsolute : isAbsolute (ofParts true ps) = true := by
      rw [isAbsolute, htext]
      rfl
    have hslash : steps (ofParts true ps) = steps "" ++ steps ("/".intercalate ps) :=
      steps_append_slash htext
    refine ⟨habsolute, ?_⟩
    rw [parts_eq, startsHere_of_isAbsolute habsolute, hslash, hsteps]
    rfl
  | false =>
    rw [ofParts, if_neg Bool.false_ne_true, String.empty_append]
    cases ps with
    | nil => decide
    | cons part ps =>
      -- A relative path cannot begin with a slash or a dot, since its first part is none.
      have hlead : ¬ (isAbsolute ("/".intercalate (part :: ps)) = true ∨
          startsHere ("/".intercalate (part :: ps)) = true) := by
        intro hlead
        obtain ⟨q, qs, hq, hidle⟩ := idle_of_lead hlead
        rw [pieces_intercalate part fun p hp => (h p hp).1, List.map_cons, List.cons.injEq] at hq
        rw [← hq.1, String.ofList_toList, (h part List.mem_cons_self).2] at hidle
        cases hidle
      rw [not_or, Bool.not_eq_true, Bool.not_eq_true] at hlead
      exact ⟨hlead.1, by rw [parts_eq, hlead.2]; exact hsteps⟩

/-! ### Normal forms -/

/-- The course as a path of its own: an absolute one has no use for its ways up. -/
def Course.path (c : Course) (rooted : Bool) : List String :=
  (if rooted then [] else List.replicate c.ups "..") ++ c.names

/-- What is left by resolving: of two ways up the second one takes back the first. -/
def Course.paired (c : Course) : List String :=
  List.replicate (c.ups % 2) ".." ++ c.names

/-- Names that no way up follows are their own course. -/
theorem course_of_names {names : List String} (h : ∀ n ∈ names, n ≠ "." ∧ n ≠ "..") :
    course names = ⟨0, names⟩ := by
  induction names with
  | nil => rfl
  | cons name names ih =>
    rw [List.forall_mem_cons] at h
    rw [course, if_neg h.1.1, if_neg h.1.2, ih h.2]

theorem course_paired (parts : List String) :
    course (course parts).paired = ⟨(course parts).ups % 2, (course parts).names⟩ := by
  have hcourse := course_of_names fun n (hn : n ∈ (course parts).names) => (mem_names hn).2
  unfold Course.paired
  rcases Nat.mod_two_eq_zero_or_one (course parts).ups with h | h
  · rw [h, List.replicate_zero, List.nil_append, hcourse]
  · rw [h, List.replicate_one, List.singleton_append, course, if_neg (by decide), if_pos rfl,
      hcourse]

theorem isAbsolute_parts_normalize (path : String) :
    isAbsolute (normalize path) = isAbsolute path ∧
      parts (normalize path) = (course (parts path)).paired := by
  unfold normalize
  rw [resolveParts_eq]
  refine parts_ofParts _ fun p hp => ?_
  rcases List.mem_append.mp hp with hp | hp
  · rw [List.eq_of_mem_replicate hp]
    decide
  · rw [course_parts] at hp
    exact mem_steps (mem_names hp).1

/-- What is left are all ways up only where there are not two of them. -/
theorem Course.paired_eq_path_iff (c : Course) (rooted : Bool) :
    c.paired = c.path rooted ↔ if rooted then c.ups % 2 = 0 else c.ups ≤ 1 := by
  unfold paired path
  rw [List.append_cancel_right_eq]
  cases rooted with
  | true => simp
  | false =>
    rw [if_neg Bool.false_ne_true, if_neg Bool.false_ne_true, List.replicate_left_inj]
    omega

/-- A way up counts everywhere, if it counts in a directory that is deep enough. -/
theorem reach_paired_iff (parts : List String) :
    (∀ dir, reach dir (course parts).paired = reach dir parts) ↔ (course parts).ups ≤ 1 := by
  have hreach : ∀ dir, reach dir (course parts).paired = reach dir parts ↔
      dir.drop ((course parts).ups % 2) = dir.drop (course parts).ups := by
    intro dir
    rw [reach_eq, reach_eq, course_paired, List.append_cancel_left_eq]
  constructor
  · intro h
    have hdeep := (hreach (List.replicate (course parts).ups "")).mp (h _)
    have hlen := congrArg List.length hdeep
    simp only [List.length_drop, List.length_replicate] at hlen
    omega
  · intro h dir
    rw [hreach, Nat.mod_eq_of_lt (Nat.lt_succ_of_le h)]

theorem isAbsolute_of_startsWith {path : String} (h : path.startsWith "/" = false) :
    isAbsolute path = false := by
  rw [Bool.eq_false_iff, Ne, String.startsWith_string_iff] at h
  rw [isAbsolute, beq_eq_false_iff_ne]
  intro hslash
  obtain ⟨rest, hrest⟩ := List.head?_eq_some_iff.mp hslash
  refine h ?_
  rw [hrest]
  exact ⟨rest, rfl⟩

/-- A path that is put behind a directory and normalized. -/
theorem parts_normalize_join {path : String} (base : String) (h : isAbsolute path = false) :
    parts (normalize (join base path)) = (course (parts base ++ parts path)).paired := by
  rw [(isAbsolute_parts_normalize _).2, course_join base h]

/-- Normalization keeps the names of a path's course. Of its ways up it leaves none when their
number is even and one when it is odd. So exactly the relative paths with at most one way up, and
the absolute ones with an even number, are resolved; and exactly the relative paths with at most one
way up lead from each directory to where they led before. The same becomes of a path that is
normalized behind a directory, as the sources of earlier maps are. -/
theorem normalize_course (path : String) :
    let c := course (parts path)
    isAbsolute (normalize path) = isAbsolute path ∧ parts (normalize path) = c.paired ∧
      (∀ name ∈ c.names, name ∈ parts path ∧ name ≠ "." ∧ name ≠ "..") ∧
      (∀ dir, reach dir (parts path) = c.names.reverse ++ dir.drop c.ups) ∧
      (parts (normalize path) = c.path (isAbsolute path) ↔
        if isAbsolute path then c.ups % 2 = 0 else c.ups ≤ 1) ∧
      reach [] (parts (normalize path)) = reach [] (parts path) ∧
      ((∀ dir, reach dir (parts (normalize path)) = reach dir (parts path)) ↔ c.ups ≤ 1) ∧
      (path.startsWith "/" = false → isUrl path = false →
        (∀ root, root ≠ "" → ∃ joined,
          MapPlan.joinRoot root path = Text.replaced joined "\\" "/" ∧
            parts joined = (course (parts root ++ parts path)).paired) ∧
        (path.startsWith "<" = false → ∀ m : PreviousMap,
          parts (m.resolveSource path) =
            (course (parts ((m.map.sourceRoot.or m.root).getD "") ++ parts path)).paired)) := by
  obtain ⟨hrooted, hparts⟩ := isAbsolute_parts_normalize path
  dsimp only
  refine ⟨hrooted, hparts, fun name => mem_names, fun dir => reach_eq dir _, ?_, ?_, ?_, ?_⟩
  · rw [hparts]
    exact Course.paired_eq_path_iff _ _
  · -- No way up leads out of the topmost directory.
    rw [hparts, reach_eq, reach_eq, course_paired, List.drop_nil, List.drop_nil]
  · rw [hparts]
    exact reach_paired_iff _
  · intro hslash hurl
    have habsolute := isAbsolute_of_startsWith hslash
    refine ⟨fun root hroot => ⟨_, ?_, parts_normalize_join root habsolute⟩, fun hmark m => ?_⟩
    · rw [MapPlan.joinRoot, hurl, hslash, if_neg]
      simpa using hroot
    · rw [PreviousMap.resolveSource, hurl, hmark, habsolute, Bool.or_self, Bool.or_self,
        if_neg Bool.false_ne_true]
      exact parts_normalize_join _ habsolute

/-- A source of a map whose directory is three levels up from the output. -/
theorem normalize_course_deepOutput :
    "a.scss".startsWith "/" = false ∧ isUrl "a.scss" = false ∧ "../../../src" ≠ "" ∧
      ∃ joined, MapPlan.joinRoot "../../../src" "a.scss" = Text.replaced joined "\\" "/" ∧
        parts joined = ["..", "src", "a.scss"] := by
  have hslash : "a.scss".startsWith "/" = false := by decide +kernel
  have hurl : isUrl "a.scss" = false := by decide +kernel
  have hroot : "../../../src" ≠ "" := by decide
  obtain ⟨-, -, -, -, -, -, -, hjoined⟩ := normalize_course "a.scss"
  obtain ⟨joined, hjoin, hparts⟩ := (hjoined hslash hurl).1 "../../../src" hroot
  refine ⟨hslash, hurl, hroot, joined, hjoin, hparts.trans ?_⟩
  decide +kernel

/-- Two ways up take each other back: `../../a` is not `a`, and `../../../src` is not `../src`. And
an absolute path keeps a way up. -/
theorem ups_lost :
    (course (parts "../../a") = ⟨2, ["a"]⟩ ∧ normalize "../../a" = "a" ∧
      normalize "/../a" = "/../a" ∧
      MapPlan.joinRoot "../../../src" "a.scss" = "../src/a.scss") ∧
      ¬ ∀ path, parts (normalize path) = (course (parts path)).path (isAbsolute path) := by
  refine ⟨by decide +kernel, fun h => ?_⟩
  exact absurd (h "../../a") (by decide +kernel)

end Stylesheet.Path
