import Stylesheet.Proofs.Path.Course
import Stylesheet.Workspace

/-!
# Paths seen from a directory

A directory is known by the names that lead to it. A path that is seen from there becomes absolute
by putting them in front of its parts (`Path.parts_finish`). So the current directory and a name in
it become paths with the same names in front (`Path.exists_resolve`), also when the current
directory is not known: then there are none. The way from the one to the other is the name
(`Path.relativeTo?_append`).
-/

namespace Stylesheet.Path

theorem isName_iff {part : String} :
    isName part = true ↔ '/' ∉ part.toList ∧ isIdle part = false ∧ part ≠ ".." := by
  rw [isName, Bool.and_eq_true, Bool.and_eq_true, List.all_eq_true, Bool.not_eq_true',
    bne_iff_ne, and_assoc]
  refine and_congr_left' ⟨fun h hmem => ?_, fun h c hc => ?_⟩
  · simpa using h _ hmem
  · rw [bne_iff_ne]
    rintro rfl
    exact h hc

theorem ne_of_isName {part : String} (h : isName part = true) : part ≠ "." ∧ part ≠ ".." := by
  refine ⟨?_, (isName_iff.mp h).2.2⟩
  rintro rfl
  exact absurd h (by decide)

/-! ### Paths of names -/

theorem parts_ofParts_of_names (rooted : Bool) {names : List String}
    (h : ∀ name ∈ names, isName name = true) :
    isAbsolute (ofParts rooted names) = rooted ∧ parts (ofParts rooted names) = names :=
  parts_ofParts rooted fun name hname =>
    ⟨(isName_iff.mp (h name hname)).1, (isName_iff.mp (h name hname)).2.1⟩

/-- A name is a path with one part. -/
theorem ofParts_singleton (name : String) : ofParts false [name] = name := by
  rw [ofParts, if_neg Bool.false_ne_true, String.empty_append]
  exact String.intercalate_singleton

theorem parts_of_isName {name : String} (h : isName name = true) :
    isAbsolute name = false ∧ parts name = [name] := by
  have hparts := parts_ofParts_of_names false (List.forall_mem_singleton.mpr h)
  rwa [ofParts_singleton] at hparts

/-- A path whose parts are names is in normal form. -/
theorem normalize_eq {path : String} {rooted : Bool} {names : List String}
    (hpath : isAbsolute path = rooted ∧ parts path = names)
    (h : ∀ name ∈ names, isName name = true) : normalize path = ofParts rooted names := by
  rw [normalize, resolveParts_eq, hpath.1, hpath.2,
    course_of_names fun name hname => ne_of_isName (h name hname)]
  rfl

/-! ### The way down -/

theorem wayFrom?_append (directory names : List String) :
    wayFrom? (directory ++ names) directory = some names := by
  induction directory with
  | nil => cases names <;> rfl
  | cons name directory ih =>
    rw [List.cons_append, wayFrom?, if_pos (beq_self_eq_true name)]
    exact ih

/-- The way from a directory to a path below it is what the path says behind the directory. -/
theorem relativeTo?_append (rooted : Bool) {directory names : List String}
    (h : ∀ name ∈ directory ++ names, isName name = true) :
    relativeTo? (ofParts rooted (directory ++ names)) (ofParts rooted directory) =
      some (ofParts false names) := by
  rw [relativeTo?, (parts_ofParts_of_names rooted h).2,
    (parts_ofParts_of_names rooted fun name hname => h name (List.mem_append_left _ hname)).2,
    wayFrom?_append]
  rfl

/-! ### Absolute paths -/

theorem steps_slash_end (path : String) : steps (path ++ "/") = steps path := by
  have hsteps : steps (path ++ "/") = steps path ++ steps "" := by
    refine steps_append_slash ?_
    rw [String.toList_append]
    rfl
  rw [hsteps, show steps "" = [] by decide, List.append_nil]

theorem steps_slash_append (path : String) : steps ("/" ++ path) = steps path := by
  have hsteps : steps ("/" ++ path) = steps "" ++ steps path := by
    refine steps_append_slash ?_
    rw [String.toList_append]
    rfl
  rw [hsteps, show steps "" = [] by decide, List.nil_append]

/-- The absolute path has the names of the directory in front of its own parts. -/
theorem parts_finish {front : List String} (hfront : ∀ name ∈ front, isName name = true)
    (path : String) : isAbsolute (absolute?.finish front path) = true ∧
      parts (absolute?.finish front path) = front ++ (parts path).filter (· != ".") := by
  set whole := front ++ (parts path).filter (· != ".") with hwhole
  have hsaid : ∀ part ∈ whole, '/' ∉ part.toList ∧ isIdle part = false := by
    intro part hpart
    rcases List.mem_append.mp hpart with hpart | hpart
    · exact ⟨(isName_iff.mp (hfront part hpart)).1, (isName_iff.mp (hfront part hpart)).2.1⟩
    · obtain ⟨hpart, hne⟩ := List.mem_filter.mp hpart
      rw [parts_eq] at hpart
      split at hpart
      · rcases List.mem_cons.mp hpart with rfl | hpart
        · exact absurd hne (by decide)
        · exact mem_steps hpart
      · exact mem_steps hpart
  -- Slashes in front and at the end add no parts.
  have hbody : ∀ lead : String, lead = "//" ∨ lead = "/" →
      isAbsolute (lead ++ "/".intercalate whole) = true ∧
        steps (lead ++ "/".intercalate whole) = whole := by
    rintro lead (rfl | rfl)
    · rw [show "//" = "/" ++ "/" from rfl, String.append_assoc, steps_slash_append,
        steps_slash_append, steps_intercalate hsaid]
      exact ⟨by rw [isAbsolute, String.toList_append]; rfl, rfl⟩
    · rw [steps_slash_append, steps_intercalate hsaid]
      exact ⟨by rw [isAbsolute, String.toList_append]; rfl, rfl⟩
  have hend : ∀ body : String, isAbsolute body = true → isAbsolute (body ++ "/") = true := by
    intro body habsolute
    obtain ⟨rest, hrest⟩ := List.head?_eq_some_iff.mp (beq_iff_eq.mp habsolute)
    rw [isAbsolute, String.toList_append, hrest]
    rfl
  have hfinish : isAbsolute (absolute?.finish front path) = true ∧
      steps (absolute?.finish front path) = whole := by
    unfold absolute?.finish
    dsimp only
    rw [← hwhole]
    split_ifs <;> first
      | rw [steps_slash_end]; exact ⟨hend _ (hbody _ (by simp)).1, (hbody _ (by simp)).2⟩
      | exact hbody _ (by simp)
  refine ⟨hfinish.1, ?_⟩
  rw [parts_eq, startsHere_of_isAbsolute hfinish.1]
  exact hfinish.2

theorem isAbsolute_of_absolute? {here : Option Directory} {path file : String}
    (h : absolute? here path = some file) : isAbsolute file = true := by
  unfold absolute? at h
  split_ifs at h
  · exact Option.some.inj h ▸ (parts_finish (List.forall_mem_nil _) path).1
  · obtain ⟨d, -, rfl⟩ := Option.map_eq_some_iff.mp h
    exact (parts_finish d.isName path).1

/-! ### The current directory -/

/-- The names that lead to the current directory, as far as they are known. -/
def namesOf (here : Option Directory) : List String :=
  (here.map Directory.names).getD []

theorem isName_of_mem_namesOf {here : Option Directory} :
    ∀ name ∈ namesOf here, isName name = true := by
  cases here with
  | none => exact fun name hname => absurd hname List.not_mem_nil
  | some d => exact d.isName

theorem filter_names {names : List String} (h : ∀ name ∈ names, isName name = true) :
    names.filter (· != ".") = names :=
  List.filter_eq_self.mpr fun name hname => bne_iff_ne.mpr (ne_of_isName (h name hname)).1

/-- An absolute path whose parts are names keeps them. -/
theorem resolve_of_isAbsolute (here : Option Directory) {path : String} {names : List String}
    (hpath : isAbsolute path = true ∧ parts path = names)
    (h : ∀ name ∈ names, isName name = true) : resolve here path = ofParts true names := by
  have hne : path ≠ "" := by
    rintro rfl
    exact absurd hpath.1 (by decide)
  have hfinish := parts_finish (List.forall_mem_nil _) path
  rw [hpath.2, filter_names h, List.nil_append] at hfinish
  rw [resolve, if_neg (by simpa using hne), absolute?, if_neg (by simpa using hne), if_pos hpath.1]
  exact normalize_eq hfinish h

/-- The empty path is the current directory. -/
theorem resolve_empty (here : Option Directory) :
    resolve here "" = ofParts here.isSome (namesOf here) := by
  cases here with
  | none => decide
  | some d =>
    have hfinish := parts_finish d.isName "."
    rw [show (parts ".").filter (· != ".") = [] by decide, List.append_nil] at hfinish
    exact normalize_eq hfinish d.isName

/-- A name is a path in the current directory. -/
theorem resolve_name (here : Option Directory) {name : String} (h : isName name = true) :
    resolve here name = ofParts here.isSome (namesOf here ++ [name]) := by
  obtain ⟨habsolute, hparts⟩ := parts_of_isName h
  have hne : name ≠ "" := by
    rintro rfl
    exact absurd h (by decide)
  rw [resolve, if_neg (by simpa using hne), absolute?, if_neg (by simpa using hne),
    if_neg (by rw [habsolute]; exact Bool.false_ne_true)]
  have hone : ∀ part ∈ [name], isName part = true := by simpa using h
  -- Without a directory the name stays relative; with one it is put behind its names.
  cases here with
  | none => exact normalize_eq ⟨habsolute, hparts⟩ hone
  | some d =>
    have hfinish := parts_finish d.isName name
    rw [hparts, filter_names hone] at hfinish
    refine normalize_eq hfinish fun part hpart => ?_
    rcases List.mem_append.mp hpart with hpart | hpart
    · exact d.isName part hpart
    · exact hone part hpart

/-- Making it absolute first changes nothing. -/
theorem resolve_absolute_name (here : Option Directory) {name : String} (h : isName name = true) :
    resolve here ((absolute? here name).getD name) = resolve here name := by
  obtain ⟨habsolute, hparts⟩ := parts_of_isName h
  have hne : name ≠ "" := by
    rintro rfl
    exact absurd h (by decide)
  rw [resolve_name here h, absolute?, if_neg (by simpa using hne),
    if_neg (by rw [habsolute]; exact Bool.false_ne_true)]
  -- An absolute name does not depend on the directory any more, and resolving it changes nothing.
  cases here with
  | none =>
    rw [← resolve_name none h]
    rfl
  | some d =>
    have hone : ∀ part ∈ [name], isName part = true := by simpa using h
    have hfinish := parts_finish d.isName name
    rw [hparts, filter_names hone] at hfinish
    refine resolve_of_isAbsolute _ hfinish fun part hpart => ?_
    rcases List.mem_append.mp hpart with hpart | hpart
    · exact d.isName part hpart
    · exact hone part hpart

/-- An absolute path is no URL and no name in angle brackets. -/
theorem isUrl_of_isAbsolute {path : String} (h : isAbsolute path = true) :
    isUrl path = false ∧ path.startsWith "<" = false := by
  obtain ⟨rest, hrest⟩ := List.head?_eq_some_iff.mp (beq_iff_eq.mp h)
  constructor
  · rw [isUrl]
    split
    · rename_i scheme tail hsplit
      have hlist := Text.splitAt?_eq_some hsplit
      rw [hrest] at hlist
      -- A scheme would have to begin with a slash.
      cases scheme with
      | nil => rfl
      | cons c scheme =>
        obtain rfl : '/' = c := (List.cons.inj hlist).1
        rfl
    · rfl
  · rw [Bool.eq_false_iff, Ne, String.startsWith_string_iff, hrest]
    rintro ⟨tail, htail⟩
    cases htail

end Stylesheet.Path
