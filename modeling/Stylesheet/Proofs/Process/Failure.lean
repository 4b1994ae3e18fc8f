import Stylesheet.Process.Deferred
import Stylesheet.Proofs.Process.Move

/-!
# Errors of processing

An error that processing comes to has a cause: what is wrong with a text or a map, or the plugin
that failed. None of them is a bare text (`PluginRun.go_failed`, `ProcessInput.hasCause_prepare`,
`Tree.hasCause_generate`), even when a callback gives one, since the plugin is added to it.
-/

namespace Stylesheet

variable {σ : Type}

namespace PluginRun

variable {p : Program σ} {r : PluginRun σ}

/-! ### Runs -/

/-- Where an error is told with its plugin, it is told as such. -/
theorem decorate_ne_other (t : Tree) (plugin : String) (node : NodeId) (e : Error)
    (text : String) : decorate t plugin node e ≠ .other text := by
  cases e <;> exact nofun

/-- A run fails in a call by an error of the callback. -/
theorem call_failed {l : Listener σ} {node : NodeId} {next : RunPoint σ} {e : Error}
    (h : (r.call p l node next).point = .failed e) :
    next = .failed e ∨ ∀ text, e ≠ .other text := by
  unfold call at h
  split at h
  · exact Or.inl h
  · obtain rfl := RunPoint.failed.inj h
    exact Or.inr fun text => decorate_ne_other _ _ _ _ text

/-- The error of a failing step is that of a callback, with the plugin that it belongs to. -/
theorem step_failed {e : Error} (h : (r.step p).point = .failed e) :
    r.point = .failed e ∨ ∀ text, e ≠ .other text := by
  -- Only a call can fail, so every other branch ends somewhere else.
  have hcall : ∀ {l : Listener σ} {node : NodeId} {next : RunPoint σ},
      (r.call p l node next).point = .failed e → next ≠ .failed e →
      ∀ text, e ≠ .other text :=
    fun h hnext => (call_failed h).resolve_left hnext
  unfold step at h
  cases hpoint : r.point with
  | failed e' =>
    rw [hpoint] at h
    exact Or.inl (hpoint.symm.trans h)
  | finished =>
    rw [hpoint] at h
    exact absurd (hpoint.symm.trans h) nofun
  | opening rest =>
    rw [hpoint] at h
    cases rest with
    | nil => dsimp only at h; split_ifs at h <;> exact absurd h nofun
    | cons l rest => exact Or.inr (hcall h nofun)
  | closing rest =>
    rw [hpoint] at h
    cases rest with
    | nil => exact absurd h nofun
    | cons l rest => exact Or.inr (hcall h nofun)
  | settling =>
    rw [hpoint] at h
    dsimp only at h
    split_ifs at h <;> exact absurd h nofun
  | visiting stack =>
    rw [hpoint] at h
    cases stack with
    | nil => exact absurd h nofun
    | cons v below =>
      refine Or.inr ?_
      dsimp only at h
      unfold visitOn at h
      split_ifs at h
      · split at h
        · exact hcall h nofun
        · split at h
          · unfold nextChild at h
            split at h
            · exact absurd h nofun
            · dsimp only at h
              split_ifs at h <;> exact absurd h nofun
          · unfold nextStep at h
            split at h
            · exact absurd h nofun
            · split_ifs at h
              · exact absurd h nofun
              · split at h <;> exact absurd h nofun
            · exact absurd h nofun
      · exact absurd h nofun

/-- So no run fails by an error that only the handle makes. -/
theorem go_failed (hr : ∀ e, r.point ≠ .failed e) {n : Nat} {e : Error}
    (h : (r.go p n).point = .failed e) (text : String) : e ≠ .other text := by
  induction n with
  | zero => exact absurd h (hr e)
  | succ n ih =>
    rw [go_succ] at h
    rcases step_failed h with h | h
    · exact ih h
    · exact h text

end PluginRun

/-! ### Reading and writing -/

/-- An error that comes up says what is wrong, and is no bare text. -/
def HasCause {α : Type} (x : Except Error α) : Prop :=
  ∀ text, x ≠ .error (.other text)

namespace HasCause

variable {α β : Type}

theorem ok (a : α) : HasCause (.ok a) :=
  fun _ => nofun

/-- A failure has a cause when each part's failure has one. -/
theorem bind {x : Except Error α} {f : α → Except Error β} (hx : HasCause x)
    (hf : ∀ a, HasCause (f a)) : HasCause (x >>= f) := by
  cases x with
  | ok a => exact hf a
  | error e => exact fun text h => hx text (by cases h; rfl)

theorem map {x : Except Error α} (hx : HasCause x) (f : α → β) : HasCause (x.map f) := by
  cases x with
  | ok a => exact ok _
  | error e => exact fun text h => hx text (by cases h; rfl)

/-- An error about a map stays one. -/
theorem ofMap (x : Except MapError α) : HasCause (x.mapError .sourceMap) := by
  cases x with
  | ok a => exact ok a
  | error e => exact fun _ => nofun

end HasCause

theorem DecodedMap.hasCause_flatten (m : DecodedMap) : HasCause m.flatten := by
  cases m with
  | plain m => exact .ok m
  | sections whole => exact .ofMap whole
  | withScopes => exact fun _ => nofun

/-- What a package refuses is told by the name of the package's error. -/
theorem Packages.hasCause_mapText (k : Packages) (m : SourceMap) : HasCause (k.mapText m) := by
  refine .bind (.ofMap _) fun bytes => ?_
  split
  · exact .ok _
  · exact fun _ => nofun

theorem hasCause_parseMap (k : Packages) (text : String) : HasCause (parseMap k text) := by
  unfold parseMap
  split
  · exact fun _ => nofun
  · split_ifs
    · exact .bind (.ofMap _) DecodedMap.hasCause_flatten
    · exact fun _ => nofun

theorem hasCause_decodeInline (k : Packages) (url : String) : HasCause (decodeInline k url) := by
  unfold decodeInline decodeInline.unsupported
  split
  · split
    · refine .bind (.ofMap _) fun decoded => .bind decoded.hasCause_flatten fun m => ?_
      exact k.hasCause_mapText m
    · split
      · split <;> exact fun _ => nofun
      · exact fun _ => nofun
  · exact fun _ => nofun

theorem PreviousMap.hasCause_find (e : Environment) (link : Option String) (inline : Bool)
    (options : ParseOptions) : HasCause (PreviousMap.find e link inline options) := by
  unfold PreviousMap.find
  split
  · exact .ok _
  · exact .ok _
  · split <;> exact fun _ => nofun
  · split
    · exact .ok _
    · split_ifs
      · exact (hasCause_decodeInline _ _).map _
      · exact .ok _

theorem PreviousMap.hasCause_load (e : Environment) (css : String) (options : ParseOptions) :
    HasCause (PreviousMap.load e css options) := by
  unfold PreviousMap.load
  split_ifs
  · exact .ok _
  · dsimp only
    have hfind :=
      hasCause_find e (findLink? css) ((findLink? css).any (·.startsWith "data:")) options
    split
    · rename_i error herror
      rw [herror] at hfind
      exact fun text h => hfind text (by cases h; rfl)
    · exact .ok _
    · exact (hasCause_parseMap _ _).map _

theorem hasCause_parse (w : Workspace) (css : String) (options : ParseOptions) :
    HasCause (parse w css options).1 := by
  unfold parse Input.create
  dsimp only
  have hload := PreviousMap.hasCause_load w.toEnvironment (Input.stripBom css).1 options
  cases hmap : PreviousMap.load w.toEnvironment (Input.stripBom css).1 options with
  | error e =>
    rw [hmap] at hload
    exact fun text h => hload text (by cases h; rfl)
  | ok map =>
    have htree : ∀ (k : Packages) (i : Input), HasCause (i.tree k) := by
      intro k i
      unfold Input.tree
      split <;> exact fun _ => nofun
    cases options.source.map (Input.resolveFile w.directory) <;> exact htree _ _

/-- Preparing fails by what reading fails by. -/
theorem ProcessInput.hasCause_prepare (w : Workspace) (options : ProcessOptions)
    (input : ProcessInput) : HasCause (input.prepare w options).1 := by
  cases input with
  | text css => exact (hasCause_parse w css options.forParsing).map _
  | tree t => exact .ok _
  | result r =>
    refine HasCause.map ?_ _
    unfold Result.mapText
    split
    · exact .ok _
    · exact (w.packages.hasCause_mapText _).map _

/-- Printing fails when the map cannot be written, and with no other error. -/
theorem Tree.hasCause_generate (e : Environment) (t : Tree) (options : ProcessOptions) :
    HasCause (t.generate e options).1 := by
  -- From the inside out: the address, the text with its link, the output.
  have hurl : ∀ (p : MapPlan) m, HasCause (p.mapUrl m) := by
    intro p m
    unfold MapPlan.mapUrl
    split_ifs
    · exact .ofMap _
    · split <;> exact .ok _
  have hlinked : ∀ (p : MapPlan) css m, HasCause (p.linked css m) := by
    intro p css m
    unfold MapPlan.linked
    split_ifs
    · exact (hurl p m).map _
    · exact .ok _
  have houtput : ∀ (p : MapPlan) u, HasCause (p.output u) := by
    intro p u
    unfold MapPlan.output
    split
    · exact (hlinked p _ _).map _
    · exact .ok _
  exact houtput (.ofTree e t options) _

end Stylesheet
