import Stylesheet.Proofs.Process.Failure
import Stylesheet.Proofs.Process.Pass

/-!
# Work that is done once

Whatever is asked of deferred processing, and in whatever order, the plugins run once and the tree
is printed once.

* `Deferred.session` asks for a number of things, one after the other, and may take the whole result
  in the end. `Deferred.sessionCalls` are the calls of callbacks that this makes.
* `Deferred.run_read` brings every question into one form: the work is done if it was not, and then
  something is looked up.
* `Deferred.session_of_prompt` compares a session with taking the whole result at once.
-/

namespace Stylesheet

variable {σ : Type}

/-! ### Waiting -/

/-- No callback has to be awaited. -/
def Plugin.Prompt (plugins : List (Plugin σ)) : Prop :=
  ∀ q ∈ plugins, ∀ c ∈ q.callbacks, c.awaited = false

namespace PluginRun

variable {p : Program σ} {r : PluginRun σ}

/-- Whether a run may wait makes no difference to a callback that does not. -/
theorem call_awaits {l : Listener σ} (hl : l.callback.awaited = false) (awaits : Bool)
    (node : NodeId) (next : RunPoint σ) :
    r.call { p with awaits } l node next = r.call p l node next := by
  unfold call perform
  rw [hl]
  rfl

/-- A step that makes a call is that call, whether callbacks can be awaited or not. -/
theorem exists_step_eq_call {l : Listener σ} {node : NodeId} (h : r.call? = some (l, node)) :
    ∃ next, ∀ awaits, r.step { p with awaits } = r.call { p with awaits } l node next := by
  unfold call? at h
  unfold step
  -- There are three points at which a call can be due; whether the run waits plays no part in any.
  cases hpoint : r.point with
  | opening rest =>
    rw [hpoint] at h
    cases rest with
    | nil => cases h
    | cons l' rest => cases h; exact ⟨_, fun _ => rfl⟩
  | closing rest =>
    rw [hpoint] at h
    cases rest with
    | nil => cases h
    | cons l' rest => cases h; exact ⟨_, fun _ => rfl⟩
  | visiting stack =>
    rw [hpoint] at h
    cases stack with
    | nil => cases h
    | cons v below =>
      dsimp only at h ⊢
      unfold visitOn
      split_ifs at h with hvisit
      cases hvisitors : v.visitors with
      | nil => rw [hvisitors] at h; cases h
      | cons l' visitors =>
        rw [hvisitors] at h
        cases h
        exact ⟨.visiting ({ v with visitors } :: below), fun awaits => if_pos hvisit⟩
  | _ => rw [hpoint] at h; cases h

/-- A step without a call does not ask whether callbacks can be awaited. -/
theorem step_awaits_of_silent (h : r.call? = none) (awaits : Bool) :
    r.step { p with awaits } = r.step p := by
  unfold call? at h
  unfold step
  cases hpoint : r.point with
  | opening rest =>
    rw [hpoint] at h
    cases rest with
    | nil => rfl
    | cons l rest => cases h
  | closing rest =>
    rw [hpoint] at h
    cases rest with
    | nil => rfl
    | cons l rest => cases h
  | visiting stack =>
    rw [hpoint] at h
    cases stack with
    | nil => rfl
    | cons v below =>
      dsimp only at h ⊢
      unfold visitOn
      split_ifs at h ⊢ with hvisit
      · cases hvisitors : v.visitors with
        | nil => rfl
        | cons l visitors => rw [hvisitors] at h; cases h
      · rfl
  | _ => rfl

/-- Whether callbacks can be awaited makes no difference to a step that calls none that has to
be. -/
theorem step_awaits (hr : ∀ c ∈ r.call?, c.1.callback.awaited = false) (awaits : Bool) :
    r.step { p with awaits } = r.step p := by
  cases hcall : r.call? with
  | none => exact step_awaits_of_silent hcall awaits
  | some c =>
    obtain ⟨next, hnext⟩ := exists_step_eq_call (p := p) hcall
    rw [hnext awaits, call_awaits (hr c hcall)]
    exact (hnext p.awaits).symm

/-- Nor to a run in which no callback does. -/
theorem go_awaits {n : Nat} (h : ∀ c ∈ calls p n r, c.1.callback.awaited = false)
    (awaits : Bool) :
    r.go { p with awaits } n = r.go p n ∧ calls { p with awaits } n r = calls p n r := by
  induction n generalizing r with
  | zero => exact ⟨rfl, rfl⟩
  | succ n ih =>
    rw [calls, List.forall_mem_append] at h
    have hstep : r.step { p with awaits } = r.step p :=
      step_awaits (fun c hc => h.1 c (Option.mem_toList.mpr hc)) awaits
    obtain ⟨hgo, hcalls⟩ := ih h.2
    rw [← go_step, ← go_step, calls, calls, hstep, hgo, hcalls]
    exact ⟨rfl, rfl⟩

end PluginRun

/-- The listener is a callback of one of the plugins, under the name of the plugin. -/
def Listener.Registered (plugins : List (Plugin σ)) (l : Listener σ) : Prop :=
  ∃ q ∈ plugins, l.plugin = q.name ∧ l.callback ∈ q.callbacks

/-- Listeners are registered callbacks. -/
theorem Plugin.registered_of_mem_listeners {plugins : List (Plugin σ)} {hook : Hook}
    {l : Listener σ} (hl : l ∈ Plugin.listeners plugins hook) : l.Registered plugins := by
  obtain ⟨q, hq, hl⟩ := List.mem_flatMap.mp hl
  obtain ⟨⟨h, c⟩, hc, rfl⟩ := List.mem_map.mp hl
  refine ⟨q, hq, rfl, List.mem_append.mpr (Or.inr ?_)⟩
  exact List.mem_map.mpr ⟨(h, c), List.mem_of_mem_filter hc, rfl⟩

theorem Plugin.registered_of_mem_onceListeners {plugins : List (Plugin σ)} {l : Listener σ}
    (hl : l ∈ Plugin.onceListeners plugins) : l.Registered plugins := by
  obtain ⟨q, hq, hl⟩ := List.mem_flatMap.mp hl
  obtain ⟨c, hc, rfl⟩ := List.mem_map.mp hl
  exact ⟨q, hq, rfl, List.mem_append.mpr (Or.inl hc)⟩

namespace PluginRun

variable {p : Program σ} {r : PluginRun σ}

theorem mem_listeners_of_call? {c : Listener σ × NodeId} (h : r.call? = some c) :
    c.1 ∈ r.point.listeners := by
  unfold call? at h
  cases hpoint : r.point with
  | opening rest =>
    rw [hpoint] at h
    cases rest with
    | nil => cases h
    | cons l rest => cases h; exact List.mem_cons_self
  | closing rest =>
    rw [hpoint] at h
    cases rest with
    | nil => cases h
    | cons l rest => cases h; exact List.mem_cons_self
  | visiting stack =>
    rw [hpoint] at h
    cases stack with
    | nil => cases h
    | cons v below =>
      dsimp only at h
      split_ifs at h
      obtain ⟨l, hl, rfl⟩ := Option.map_eq_some_iff.mp h
      exact List.mem_flatMap.mpr ⟨v, List.mem_cons_self, List.mem_of_mem_head? hl⟩
  | _ => rw [hpoint] at h; cases h

/-- What a run calls are callbacks of its plugins. -/
theorem registered_of_mem_calls (hr : ∀ l ∈ r.point.listeners, l.Registered p.plugins) {n : Nat}
    {c : Listener σ × NodeId} (hc : c ∈ calls p n r) : c.1.Registered p.plugins := by
  induction n generalizing r with
  | zero => exact absurd hc List.not_mem_nil
  | succ n ih =>
    rw [calls, List.mem_append, Option.mem_toList] at hc
    rcases hc with hc | hc
    · exact hr c.1 (mem_listeners_of_call? hc)
    · refine ih (fun l hl => ?_) hc
      rcases listeners_step hl with hl | ⟨hook, hl⟩
      · exact hr l hl
      · exact Plugin.registered_of_mem_listeners hl

/-- So only registered callbacks are called. -/
theorem registered_of_mem_calls_start {stage : Stage σ} {n : Nat} {c : Listener σ × NodeId}
    (hc : c ∈ calls p n (start p stage)) : c.1.Registered p.plugins :=
  registered_of_mem_calls (fun _ => Plugin.registered_of_mem_onceListeners) hc

theorem start_awaits (hp : Plugin.Prompt p.plugins) (awaits : Bool) (stage : Stage σ) (n : Nat) :
    (start { p with awaits } stage).go { p with awaits } n = (start p stage).go p n ∧
      calls { p with awaits } n (start { p with awaits } stage) = calls p n (start p stage) := by
  refine go_awaits (r := start p stage) (fun c hc => ?_) awaits
  obtain ⟨q, hq, -, hmem⟩ := registered_of_mem_calls_start hc
  exact hp q hq c.1.callback hmem

end PluginRun

/-! ### Outcomes -/

namespace Progress

/-- Whether the work has yet to be done. -/
def isPending : Progress → Bool
  | .pending _ _ => true
  | _ => false

/-- What plugins left, or why they failed, as progress. -/
def ofOutcome : Except Error Result → Progress
  | .ok r => .processed r
  | .error e => .failed e

/-- Whether the progress is taken. -/
def isTaken : Progress → Bool
  | .taken => true
  | _ => false

/-- The whole result: the outcome of the plugins with the tree printed, when both went well. -/
def whole (e : Environment) (o : Except Error Result) : Except Error Result :=
  o.bind (Result.printed e)

/-- The work was done with an outcome, and the tree may be printed. -/
def Done (e : Environment) (o : Except Error Result) (p : Progress) : Prop :=
  p = .ofOutcome o ∨ p = (ofOutcome o).print e

variable {e : Environment} {o : Except Error Result} {p : Progress}

/-- Printing twice is printing once: the second time all is there. -/
theorem print_print (p : Progress) : (p.print e).print e = p.print e := by
  cases p with
  | processed r =>
    rw [print]
    cases r.printed e <;> rfl
  | _ => rfl

/-- A handle that is done prints what its outcome prints. -/
theorem Done.print_eq (h : p.Done e o) : p.print e = (ofOutcome o).print e := by
  rcases h with rfl | rfl
  · rfl
  · exact print_print _

theorem printed?_ofOutcome : ((ofOutcome o).print e).printed? = whole e o := by
  cases o with
  | error error => rfl
  | ok r =>
    show (Progress.print e (.processed r)).printed? = r.printed e
    rw [print]
    cases r.printed e <;> rfl

theorem processed?_ofOutcome : (ofOutcome o).processed? = o := by
  cases o <;> rfl

/-- After printing, there is a result if it could be printed. -/
theorem processed?_ofOutcome_print : ((ofOutcome o).print e).processed? = whole e o := by
  cases o with
  | error error => rfl
  | ok r =>
    show (Progress.print e (.processed r)).processed? = r.printed e
    rw [print]
    cases r.printed e <;> rfl

/-- It has the result of a single run, -/
theorem Done.printed? (h : p.Done e o) : (p.print e).printed? = whole e o := by
  rw [h.print_eq, printed?_ofOutcome]

/-- and has been started, and is in nobody's hands. -/
theorem Done.began (h : p.Done e o) : p.isPending = false ∧ p.isTaken = false := by
  rcases h with rfl | rfl
  · cases o <;> exact ⟨rfl, rfl⟩
  · cases o with
    | error error => exact ⟨rfl, rfl⟩
    | ok r =>
      show (Progress.print e (.processed r)).isPending = false ∧ _
      rw [ofOutcome, print]
      cases r.printed e <;> exact ⟨rfl, rfl⟩

/-- An outcome with a cause leads to a whole result with a cause. -/
theorem whole_ne_unfinished (h : o ≠ .error unfinishedError) :
    whole e o ≠ .error unfinishedError := by
  cases o with
  | error error => exact h
  | ok r => exact (r.tree.hasCause_generate e r.options).map _ _

end Progress

/-- A run that is over comes to an outcome. -/
theorem PluginRun.progress_eq_ofOutcome {p : Program σ} {stage : Stage σ} {n : Nat}
    {before : Result} (h : ((start p stage).go p n).isOver = true) :
    ∃ o, ((start p stage).go p n).progress before = Progress.ofOutcome o ∧
      o ≠ .error Progress.unfinishedError := by
  unfold isOver at h
  unfold progress
  cases hpoint : ((start p stage).go p n).point with
  | finished => exact ⟨.ok _, rfl, nofun⟩
  | failed e =>
    refine ⟨.error e, rfl, fun h => ?_⟩
    cases h
    exact go_failed (r := start p stage) (fun _ => nofun) hpoint _ rfl
  | _ => rw [hpoint] at h; cases h

namespace Deferred

variable {plugins : List (Plugin σ)} {input : ProcessInput} {options : ProcessOptions}
  {steps : Nat} {s : Workspace × σ} {o : Except Error Result}

/-- A fresh handle prepares its input and runs its plugins to the end. -/
theorem run_advance_pending (awaits : Bool) :
    (advance steps awaits plugins (.pending input options)).run s =
      match input.prepare s.1 options with
      | (.ok before, w) => (PluginRun.onResult steps awaits plugins before).run (w, s.2)
      | (.error e, w) => (.failed e, w, s.2) := by
  obtain ⟨w, memory⟩ := s
  dsimp only [advance, StateT.run, bind, StateT.bind, get, getThe, MonadStateOf.get, StateT.get,
    pure]
  rcases input.prepare w options with ⟨prepared, w'⟩
  cases prepared <;> rfl

/-- The run of the plugins after a number of steps, when there is a tree to run on. -/
def runAfter (n : Nat) (awaits : Bool) (d : Deferred σ) (s : Workspace × σ) :
    Option (PluginRun σ) :=
  match d.progress with
  | .pending input options =>
    match input.prepare s.1 options with
    | (.ok before, w) =>
      let program := before.program awaits d.plugins
      some ((PluginRun.start program (before.stage w s.2)).go program n)
    | (.error _, _) => none
  | _ => none

/-- Work that is pending is done, and comes to an outcome when the run is over. -/
theorem exists_outcome
    (hover : ∀ run ∈ (ofInput plugins input options).runAfter steps false s, run.isOver = true) :
    ∃ o s', (advance steps false plugins (.pending input options)).run s =
        (Progress.ofOutcome o, s') ∧ o ≠ .error Progress.unfinishedError := by
  rw [run_advance_pending]
  have hprepare := input.hasCause_prepare s.1 options
  unfold runAfter at hover
  dsimp only [ofInput] at hover
  generalize input.prepare s.1 options = out at hprepare hover ⊢
  obtain ⟨prepared, w⟩ := out
  cases prepared with
  | error e => exact ⟨.error e, _, rfl, hprepare _⟩
  | ok before =>
    obtain ⟨o, ho, hne⟩ := PluginRun.progress_eq_ofOutcome (hover _ rfl)
    exact ⟨o, _, Prod.ext ho rfl, hne⟩

/-- Work that was done is not done again. -/
theorem advance_of_done {e : Environment} {p : Progress} (hp : p.Done e o) (awaits : Bool) :
    (advance steps awaits plugins p).run s = (p, s) := by
  cases p with
  | pending input options =>
    cases hp.began.1
  | _ => rfl

/-! ### Calls -/

/-- The calls of callbacks when the work is done, if it was not. -/
def calls (steps : Nat) (awaits : Bool) (d : Deferred σ) (s : Workspace × σ) :
    List (Listener σ × NodeId) :=
  match d.progress with
  | .pending input options =>
    match input.prepare s.1 options with
    | (.ok before, w) =>
      let program := before.program awaits d.plugins
      PluginRun.calls program steps (.start program (before.stage w s.2))
    | (.error _, _) => []
  | _ => []

/-- Waiting makes no difference to callbacks that need no waiting. -/
theorem awaits_eq (hprompt : Plugin.Prompt plugins) :
    (advance steps true plugins (.pending input options)).run s =
        (advance steps false plugins (.pending input options)).run s ∧
      (ofInput plugins input options).calls steps true s =
        (ofInput plugins input options).calls steps false s := by
  rw [run_advance_pending, run_advance_pending]
  unfold calls
  dsimp only [ofInput]
  rcases input.prepare s.1 options with ⟨prepared, w⟩
  cases prepared with
  | error e => exact ⟨rfl, rfl⟩
  | ok before =>
    obtain ⟨hgo, hcalls⟩ := PluginRun.start_awaits (p := before.program false plugins) hprompt true
      (before.stage w s.2) steps
    exact ⟨congrArg (fun run : PluginRun σ =>
      (run.progress before, run.stage.desk.workspace, run.stage.memory)) hgo, hcalls⟩

end Deferred

/-! ### Questions and answers -/

/-- The error of a failure. -/
def errorOf? : Except Error α → Option Error
  | .ok _ => none
  | .error e => some e

theorem errorOf?_map (f : α → β) (x : Except Error α) : errorOf? (x.map f) = errorOf? x := by
  cases x <;> rfl

theorem errorOf?_eq_some {x : Except Error α} {e : Error} :
    errorOf? x = some e ↔ x = .error e := by
  cases x <;> simp [errorOf?]

/-- What can be asked for. -/
inductive Access
  | sync
  | tree
  | messages
  | warnings
  | css
  | map
deriving Repr, DecidableEq, Inhabited

/-- The answer to a question. -/
inductive Reading
  | sync (answer : Except Error Result)
  | tree (answer : Except Error Tree)
  | messages (answer : Except Error (List Message))
  | warnings (answer : Except Error (List Warning))
  | css (answer : Except Error String)
  | map (answer : Except Error (Option SourceMap))

namespace Reading

/-- What was asked for. -/
def access : Reading → Access
  | .sync _ => .sync
  | .tree _ => .tree
  | .messages _ => .messages
  | .warnings _ => .warnings
  | .css _ => .css
  | .map _ => .map

/-- Why there is no answer. -/
def failure? : Reading → Option Error
  | .sync answer => errorOf? answer
  | .tree answer => errorOf? answer
  | .messages answer => errorOf? answer
  | .warnings answer => errorOf? answer
  | .css answer => errorOf? answer
  | .map answer => errorOf? answer

/-- An answer that goes with the whole result: the text and the map are those of it, and an error is
the error of it. -/
structure Fits (whole : Except Error Result) (r : Reading) : Prop where
  failure : ∀ error, r.failure? = some error → whole = .error error
  css : ∀ answer, r = .css answer → answer = whole.map Result.css
  map : ∀ answer, r = .map answer → answer = whole.map Result.map

end Reading

namespace Progress

variable {e : Environment} {o : Except Error Result} {p : Progress}

/-- What is found in progress, and the progress then. The tree is printed for its text and its
map. -/
def look (e : Environment) (p : Progress) : Access → Reading × Progress
  | .sync => (.sync p.processed?, p)
  | .tree => (.tree (p.processed?.map Result.tree), p)
  | .messages => (.messages (p.processed?.map Result.messages), p)
  | .warnings => (.warnings (p.processed?.map Result.warnings), p)
  | .css => (.css ((p.print e).printed?.map Result.css), p.print e)
  | .map => (.map ((p.print e).printed?.map Result.map), p.print e)

/-- Whoever asks for something without printing sees the outcome of the plugins, or the whole result
when the tree was printed. -/
theorem Done.processed? (h : p.Done e o) :
    (p.print e = p → p.processed? = whole e o) ∧
      ∀ error, errorOf? p.processed? = some error → whole e o = .error error ∧ p.print e = p := by
  constructor
  · intro hprint
    rw [← hprint, h.print_eq, processed?_ofOutcome_print]
  · intro error herror
    rw [errorOf?_eq_some] at herror
    rcases h with rfl | rfl
    · rw [processed?_ofOutcome] at herror
      subst herror
      exact ⟨rfl, rfl⟩
    · rw [processed?_ofOutcome_print] at herror
      exact ⟨herror, print_print _⟩

/-- What is found goes with the whole result. The work stays done, and once there is an error, the
progress does not change any more. -/
theorem Done.look (h : p.Done e o) (a : Access) :
    (p.look e a).1.access = a ∧ (p.look e a).1.Fits (whole e o) ∧ (p.look e a).2.Done e o ∧
      (∀ error, (p.look e a).1.failure? = some error →
        (p.look e a).2.print e = (p.look e a).2) ∧
      (p.print e = p → (p.look e a).1.failure? = errorOf? (whole e o) ∧ (p.look e a).2 = p) := by
  obtain ⟨hsettled, hfailed⟩ := h.processed?
  have hprinted : errorOf? (p.print e).printed? = errorOf? (whole e o) := by rw [h.printed?]
  -- What is asked for without printing: an error is that of the whole result, and it stays.
  have hplain : ∀ r : Reading, r.failure? = errorOf? p.processed? →
      (∀ answer, r ≠ .css answer) → (∀ answer, r ≠ .map answer) →
      r.Fits (whole e o) ∧ p.Done e o ∧ (∀ error, r.failure? = some error → p.print e = p) ∧
        (p.print e = p → r.failure? = errorOf? (whole e o) ∧ p = p) := by
    intro r hr hcss hmap
    refine ⟨⟨fun error herror => (hfailed error (hr ▸ herror)).1, fun answer h => absurd h (hcss _),
      fun answer h => absurd h (hmap _)⟩, h, fun error herror => (hfailed error (hr ▸ herror)).2,
      fun hprint => ⟨by rw [hr, hsettled hprint], rfl⟩⟩
  cases a with
  | sync => exact ⟨rfl, hplain _ rfl nofun nofun⟩
  | tree => exact ⟨rfl, hplain _ (errorOf?_map _ _) nofun nofun⟩
  | messages => exact ⟨rfl, hplain _ (errorOf?_map _ _) nofun nofun⟩
  | warnings => exact ⟨rfl, hplain _ (errorOf?_map _ _) nofun nofun⟩
  | css =>
    refine ⟨rfl, ⟨fun error herror => ?_, ?_, nofun⟩, Or.inr h.print_eq, fun _ _ => print_print _,
      fun hprint => ⟨(errorOf?_map _ _).trans hprinted, hprint⟩⟩
    · exact errorOf?_eq_some.mp (hprinted.symm.trans ((errorOf?_map _ _).symm.trans herror))
    · rintro answer ⟨⟩
      rw [h.printed?]
  | map =>
    refine ⟨rfl, ⟨fun error herror => ?_, nofun, ?_⟩, Or.inr h.print_eq, fun _ _ => print_print _,
      fun hprint => ⟨(errorOf?_map _ _).trans hprinted, hprint⟩⟩
    · exact errorOf?_eq_some.mp (hprinted.symm.trans ((errorOf?_map _ _).symm.trans herror))
    · rintro answer ⟨⟩
      rw [h.printed?]

end Progress

namespace Deferred

variable {plugins : List (Plugin σ)} {input : ProcessInput} {options : ProcessOptions}
  {steps : Nat} {s : Workspace × σ} {o : Except Error Result} {d : Deferred σ}

/-- Asks for something. -/
def read (steps : Nat) (d : Deferred σ) : Access → Backstage σ (Reading × Deferred σ)
  | .sync => Prod.map .sync id <$> d.sync steps
  | .tree => Prod.map .tree id <$> d.tree steps
  | .messages => Prod.map .messages id <$> d.messages steps
  | .warnings => Prod.map .warnings id <$> d.warnings steps
  | .css => Prod.map .css id <$> d.css steps
  | .map => Prod.map .map id <$> d.map steps

/-- Takes the whole result, with or without waiting for callbacks. -/
def finish (steps : Nat) (awaits : Bool) (d : Deferred σ) : Backstage σ (Except Error Result) :=
  if awaits then d.await steps else d.intoResult steps

/-- To ask is to do the work, unless that was done, and to look. -/
theorem run_read (a : Access) :
    (d.read steps a).run s =
      let out := (advance steps false d.plugins d.progress).run s
      let found := out.1.look out.2.1.toEnvironment a
      ((found.1, ⟨d.plugins, found.2⟩), out.2) := by
  cases a <;> rfl

/-- Finishing is reading everything once. -/
theorem run_finish (awaits : Bool) :
    (d.finish steps awaits).run s =
      let out := (advance steps awaits d.plugins d.progress).run s
      ((out.1.print out.2.1.toEnvironment).printed?, out.2) := by
  cases awaits <;> rfl

/-! ### Sessions -/

/-- Asks for a number of things, one after the other, and takes the whole result if that is
wanted. -/
def session (steps : Nat) (ending : Option Bool) :
    List Access → Deferred σ → Backstage σ (List Reading × Option (Except Error Result))
  | [], d =>
    match ending with
    | none => return ([], none)
    | some awaits => do
      let r ← d.finish steps awaits
      return ([], some r)
  | a :: as, d => do
    let (reading, d) ← d.read steps a
    let (readings, r) ← session steps ending as d
    return (reading :: readings, r)

/-- The calls of callbacks in a session. -/
def sessionCalls (steps : Nat) (ending : Option Bool) :
    List Access → Deferred σ → Workspace × σ → List (Listener σ × NodeId)
  | [], d, s =>
    match ending with
    | none => []
    | some awaits => d.calls steps awaits s
  | a :: as, d, s =>
    let out := (d.read steps a).run s
    d.calls steps false s ++ sessionCalls steps ending as out.1.2 out.2

theorem run_session_nil (awaits : Bool) :
    (d.session steps (some awaits) []).run s =
      let out := (d.finish steps awaits).run s
      (([], some out.1), out.2) :=
  rfl

theorem run_session_cons (ending : Option Bool) (a : Access) (as : List Access) :
    (d.session steps ending (a :: as)).run s =
      let out := (d.read steps a).run s
      let rest := (out.1.2.session steps ending as).run out.2
      ((out.1.1 :: rest.1.1, rest.1.2), rest.2) :=
  rfl

/-- What processing is like after a number of questions. -/
def asked (steps : Nat) : List Access → Deferred σ → Backstage σ (Deferred σ)
  | [], d => return d
  | a :: as, d => do
    let (_, d) ← d.read steps a
    d.asked steps as

theorem run_asked_cons (a : Access) (as : List Access) :
    (d.asked steps (a :: as)).run s =
      let out := (d.read steps a).run s
      (out.1.2.asked steps as).run out.2 :=
  rfl

section

variable (hd : d.progress.Done s.1.toEnvironment o)

include hd

/-- A handle that is done calls nothing. -/
theorem calls_of_done (awaits : Bool) : d.calls steps awaits s = [] := by
  obtain ⟨plugins, p⟩ := d
  cases p with
  | pending input options => cases hd.began.1
  | _ => rfl

/-- Reading from it changes nothing but what was printed. -/
theorem run_read_of_done (a : Access) :
    (d.read steps a).run s =
      (((d.progress.look s.1.toEnvironment a).1,
        ⟨d.plugins, (d.progress.look s.1.toEnvironment a).2⟩), s) := by
  rw [run_read, advance_of_done hd]

/-- When the work was done, it stays done. -/
theorem asked_of_done (as : List Access) :
    ((d.asked steps as).run s).1.progress.Done s.1.toEnvironment o := by
  induction as generalizing d with
  | nil => exact hd
  | cons a as ih =>
    rw [run_asked_cons, run_read_of_done hd]
    exact ih (d := ⟨d.plugins, _⟩) (hd.look a).2.2.1

/-- When the work was done and nothing more is to be printed, all answers fail or none does. -/
theorem failure?_of_settled (hprint : d.progress.print s.1.toEnvironment = d.progress)
    (ending : Option Bool) (as : List Access) :
    ∀ r ∈ ((d.session steps ending as).run s).1.1,
      r.failure? = errorOf? (Progress.whole s.1.toEnvironment o) := by
  induction as with
  | nil =>
    have hnone : ((d.session steps ending []).run s).1.1 = [] := by cases ending <;> rfl
    rw [hnone]
    exact fun r hr => absurd hr List.not_mem_nil
  | cons a as ih =>
    obtain ⟨-, -, -, -, hlook⟩ := hd.look a
    obtain ⟨hfailure, hsame⟩ := hlook hprint
    rw [run_session_cons, run_read_of_done hd, hsame]
    exact List.forall_mem_cons.mpr ⟨hfailure, ih⟩

/-- When the work was done, a session only looks things up, and an error in it stays. -/
theorem session_of_done (ending : Option Bool) (as : List Access) :
    ∃ readings, (d.session steps ending as).run s =
        ((readings, ending.map fun _ => Progress.whole s.1.toEnvironment o), s) ∧
      readings.map Reading.access = as ∧
      (∀ r ∈ readings, r.Fits (Progress.whole s.1.toEnvironment o)) ∧
      readings.Pairwise (fun r r' => ∀ e, r.failure? = some e → r'.failure? = some e) ∧
      d.sessionCalls steps ending as s = [] := by
  induction as generalizing d with
  | nil =>
    refine ⟨[], ?_, rfl, fun r hr => absurd hr List.not_mem_nil, .nil, ?_⟩
    · cases ending with
      | none => rfl
      | some awaits =>
        rw [run_session_nil, run_finish, advance_of_done hd]
        dsimp only
        rw [hd.printed?]
        rfl
    · cases ending with
      | none => rfl
      | some awaits => exact calls_of_done hd awaits
  | cons a as ih =>
    obtain ⟨haccess, hfits, hdone, hstays, -⟩ := hd.look a
    have hread : (d.read steps a).run s = _ := run_read_of_done hd a
    obtain ⟨readings, hrest, haccesses, hall, hpairwise, hcalls⟩ :=
      ih (d := ⟨d.plugins, (d.progress.look s.1.toEnvironment a).2⟩) hdone
    refine ⟨(d.progress.look s.1.toEnvironment a).1 :: readings, ?_, ?_, ?_, ?_, ?_⟩
    · rw [run_session_cons, hread]
      dsimp only
      rw [hrest]
    · rw [List.map_cons, haccess, haccesses]
    · exact List.forall_mem_cons.mpr ⟨hfits, hall⟩
    · -- Behind an error the progress is settled, so that all that follows has the same one.
      refine List.pairwise_cons.mpr ⟨fun r hr error herror => ?_, hpairwise⟩
      have hmem : r ∈ (((⟨d.plugins, (d.progress.look s.1.toEnvironment a).2⟩ : Deferred σ).session
          steps ending as).run s).1.1 := by
        rw [hrest]
        exact hr
      rw [failure?_of_settled hdone (hstays error herror) ending as r hmem,
        hfits.failure error herror]
      rfl
    · rw [sessionCalls, calls_of_done hd, hread]
      exact hcalls

end

/-- A session that asks for something does the work first, and the rest of it as if the work had
been done before. -/
theorem session_of_work {s' : Workspace × σ} {ending : Option Bool} {as : List Access}
    (hwork : ∀ awaits, (advance steps awaits d.plugins d.progress).run s = (.ofOutcome o, s'))
    (hcalls : d.calls steps true s = d.calls steps false s) (hsome : as ≠ [] ∨ ending.isSome) :
    (d.session steps ending as).run s =
        ((⟨d.plugins, .ofOutcome o⟩ : Deferred σ).session steps ending as).run s' ∧
      d.sessionCalls steps ending as s = d.calls steps false s := by
  have hdone : (Progress.ofOutcome o).Done s'.1.toEnvironment o := Or.inl rfl
  -- The first thing that is asked of the run does all the work, be it a read or the end.
  cases as with
  | nil =>
    obtain ⟨awaits, rfl⟩ := Option.isSome_iff_exists.mp (hsome.resolve_left fun h => h rfl)
    constructor
    · rw [run_session_nil, run_session_nil, run_finish, run_finish, hwork, advance_of_done hdone]
    · cases awaits with
      | false => rfl
      | true => exact hcalls
  | cons a as =>
    have hread : (d.read steps a).run s =
        ((⟨d.plugins, .ofOutcome o⟩ : Deferred σ).read steps a).run s' := by
      rw [run_read, run_read, hwork, advance_of_done hdone]
    constructor
    · rw [run_session_cons, run_session_cons, hread]
    · have hnone : (⟨d.plugins, .ofOutcome o⟩ : Deferred σ).sessionCalls steps ending (a :: as) s' =
          [] := by
        obtain ⟨-, -, -, -, -, h⟩ :=
          session_of_done (d := ⟨d.plugins, .ofOutcome o⟩) hdone ending (a :: as)
        exact h
      rw [sessionCalls] at hnone ⊢
      rw [hread, (List.append_eq_nil_iff.mp hnone).2, List.append_nil]

/-- Processing is never left taken when its run is over. -/
theorem isTaken_asked {s' : Workspace × σ} (hpending : d.progress.isTaken = false)
    (hwork : (advance steps false d.plugins d.progress).run s = (.ofOutcome o, s'))
    (as : List Access) : ((d.asked steps as).run s).1.progress.isTaken = false := by
  cases as with
  | nil => exact hpending
  | cons a as =>
    have hdone : (Progress.ofOutcome o).Done s'.1.toEnvironment o := Or.inl rfl
    rw [run_asked_cons, run_read, hwork]
    exact (asked_of_done (d := ⟨d.plugins, _⟩) (hdone.look a).2.2.1 as).began.2

/-- Answers that go with one whole result have its text and its map, and its error if they have
one. -/
theorem agree_of_fits {readings : List Reading} {whole : Except Error Result}
    (hfits : ∀ r ∈ readings, r.Fits whole) (hne : whole ≠ .error Progress.unfinishedError)
    (ending : Option Bool) :
    (∀ answer, .css answer ∈ readings → answer = whole.map Result.css) ∧
      (∀ answer, .map answer ∈ readings → answer = whole.map Result.map) ∧
      (∀ r ∈ readings, ∀ e, r.failure? = some e →
        ∀ result ∈ ending.map fun _ => whole, result = .error e) ∧
      (∀ r ∈ readings, r.failure? ≠ some Progress.unfinishedError) ∧
      (ending.map fun _ => whole) ≠ some (.error Progress.unfinishedError) := by
  refine ⟨fun answer hr => (hfits _ hr).css answer rfl,
    fun answer hr => (hfits _ hr).map answer rfl, ?_, ?_, ?_⟩
  · intro r hr e he result hresult
    obtain ⟨awaits, -, rfl⟩ := Option.map_eq_some_iff.mp hresult
    exact (hfits r hr).failure e he
  · exact fun r hr he => hne ((hfits r hr).failure _ he)
  · intro h
    obtain ⟨awaits, -, hresult⟩ := Option.map_eq_some_iff.mp h
    exact hne hresult

/-- Whatever is asked for, and in whatever order: callbacks are called as they are when the whole
result is taken at once, the text and the map are those of that result, once there is an error it
stays, processing is never left taken and never found unfinished. The run of the plugins has to be
over within the steps; there is none when the input cannot be read. -/
theorem session_of_prompt (hprompt : Plugin.Prompt plugins)
    (hover : ∀ run ∈ (ofInput plugins input options).runAfter steps false s, run.isOver = true)
    (accesses : List Access) (ending : Option Bool) {readings : List Reading}
    {last : Option (Except Error Result)} {s' : Workspace × σ}
    (hsession : ((ofInput plugins input options).session steps ending accesses).run s =
      ((readings, last), s'))
    {single : Except Error Result} {s₁ : Workspace × σ}
    (hsingle : ((ofInput plugins input options).intoResult steps).run s = (single, s₁)) :
    (if accesses = [] ∧ ending = none then
        (ofInput plugins input options).sessionCalls steps ending accesses s = [] ∧ s' = s
      else
        (ofInput plugins input options).sessionCalls steps ending accesses s =
          (ofInput plugins input options).sessionCalls steps (some false) [] s ∧ s' = s₁) ∧
      readings.map Reading.access = accesses ∧
      (∀ answer, .css answer ∈ readings → answer = single.map Result.css) ∧
      (∀ answer, .map answer ∈ readings → answer = single.map Result.map) ∧
      (last = ending.map fun _ => single) ∧
      readings.Pairwise (fun r r' => ∀ e, r.failure? = some e → r'.failure? = some e) ∧
      (∀ r ∈ readings, ∀ e, r.failure? = some e → ∀ result ∈ last, result = .error e) ∧
      (∀ r ∈ readings, r.failure? ≠ some Progress.unfinishedError) ∧
      last ≠ some (.error Progress.unfinishedError) ∧
      (((ofInput plugins input options).asked steps accesses).run s).1.progress.isTaken =
        false := by
  obtain ⟨o, sw, hwork, hne⟩ := exists_outcome hover
  obtain ⟨hwaiting, hcalls⟩ : (advance steps true plugins (.pending input options)).run s = _ ∧ _ :=
    awaits_eq hprompt
  have hall : ∀ awaits, (advance steps awaits plugins (.pending input options)).run s =
      (.ofOutcome o, sw) := by
    intro awaits
    cases awaits with
    | false => exact hwork
    | true => exact hwaiting.trans hwork
  have hdone : (Progress.ofOutcome o).Done sw.1.toEnvironment o := Or.inl rfl
  -- Taking the whole result at once does the work and prints the tree.
  have hfinish : ((ofInput plugins input options).finish steps false).run s = (single, s₁) :=
    hsingle
  rw [run_finish, ofInput, hall false] at hfinish
  obtain ⟨rfl, rfl⟩ : Progress.whole sw.1.toEnvironment o = single ∧ sw = s₁ := by
    rw [← hdone.printed?]
    exact Prod.mk.inj hfinish
  -- All answers go with the whole result.
  have hanswers : (readings.map Reading.access = accesses ∧
        (∀ r ∈ readings, r.Fits (Progress.whole sw.1.toEnvironment o)) ∧
        readings.Pairwise (fun r r' => ∀ e, r.failure? = some e → r'.failure? = some e)) ∧
      (last = ending.map fun _ => Progress.whole sw.1.toEnvironment o) ∧
      (if accesses = [] ∧ ending = none then
          (ofInput plugins input options).sessionCalls steps ending accesses s = [] ∧ s' = s
        else
          (ofInput plugins input options).sessionCalls steps ending accesses s =
            (ofInput plugins input options).sessionCalls steps (some false) [] s ∧ s' = sw) := by
    by_cases hempty : accesses = [] ∧ ending = none
    · rw [if_pos hempty]
      obtain ⟨rfl, rfl⟩ := hempty
      cases hsession
      exact ⟨⟨rfl, fun r hr => absurd hr List.not_mem_nil, .nil⟩, rfl, rfl, rfl⟩
    · rw [if_neg hempty]
      have hsome : accesses ≠ [] ∨ ending.isSome = true := by
        rw [not_and_or] at hempty
        exact hempty.imp_right Option.isSome_iff_ne_none.mpr
      obtain ⟨hfirst, hfirstCalls⟩ :=
        session_of_work (d := ofInput plugins input options) hall hcalls hsome
      obtain ⟨found, hrest, haccess, hfits, hpairwise, -⟩ :=
        session_of_done (d := ⟨plugins, .ofOutcome o⟩) hdone ending accesses
      have hboth := hsession.symm.trans (hfirst.trans hrest)
      obtain ⟨hreadings, rfl⟩ := Prod.mk.inj hboth
      obtain ⟨rfl, rfl⟩ := Prod.mk.inj hreadings
      exact ⟨⟨haccess, hfits, hpairwise⟩, rfl, hfirstCalls, rfl⟩
  obtain ⟨⟨haccess, hfits, hlater⟩, rfl, hwhole⟩ := hanswers
  obtain ⟨hcss, hmap, hlast, hread, hunfinished⟩ :=
    agree_of_fits hfits (Progress.whole_ne_unfinished hne) ending
  exact ⟨hwhole, haccess, hcss, hmap, rfl, hlater, hlast, hread, hunfinished,
    isTaken_asked (d := ofInput plugins input options) rfl hwork accesses⟩

/-- The plugins of the example do not wait. -/
theorem prompt_noting : Plugin.Prompt PluginRun.noting.plugins := by
  simp only [Plugin.Prompt, Plugin.callbacks, PluginRun.noting, List.forall_mem_cons,
    List.map_cons, List.map_nil, List.cons_append, List.nil_append, List.not_mem_nil,
    false_implies, implies_true, and_true]
  exact ⟨⟨rfl, rfl, rfl⟩, rfl, rfl, rfl⟩

/-- Processing of an empty tree with callbacks that take notes. -/
def notingDeferred : Deferred (List (String × NodeId)) :=
  ofInput PluginRun.noting.plugins (.tree .empty) {}

/-- The notes are taken once, however often the text is asked for. -/
theorem session_noting :
    ((notingDeferred.session 60 (some true) [.css, .tree, .map, .css]).run ({}, [])).2.2 =
      [("look", ⟨1⟩), ("look", ⟨2⟩), ("grow", ⟨2⟩), ("look", ⟨1⟩), ("grow", ⟨0⟩)] := by
  have hover : ∀ run ∈ notingDeferred.runAfter 60 false ({}, []), run.isOver = true :=
    (Option.all_eq_true _ _).mp (by decide +kernel)
  have hnotes : ((notingDeferred.intoResult 60).run ({}, [])).2.2 =
      [("look", ⟨1⟩), ("look", ⟨2⟩), ("grow", ⟨2⟩), ("look", ⟨1⟩), ("grow", ⟨0⟩)] := by
    decide +kernel
  generalize hsingle : (notingDeferred.intoResult 60).run ({}, []) = whole at hnotes
  generalize hsession :
    (notingDeferred.session 60 (some true) [.css, .tree, .map, .css]).run ({}, []) = out
  have hboth := (session_of_prompt prompt_noting hover _ _ hsession hsingle).1
  rw [if_neg nofun] at hboth
  rw [hboth.2]
  exact hnotes

end Deferred

end Stylesheet
