import Stylesheet.Process.Result
import Stylesheet.Process.Run

/-!
# Deferred results

Processing is put off until its result is needed. Asking for the tree or the messages runs the
plugins, asking for the text or the map also prints the tree; each of the two is done at most once.
An error is kept and given again to whoever asks.

Whoever works on it takes the progress and puts it back when the work is done. A run is given a
number of steps, and one that is not over by then puts nothing back.
-/

namespace Stylesheet

/-- How far processing has come. -/
inductive Progress
  | pending (input : ProcessInput) (options : ProcessOptions)
  /-- The plugins have run, and the tree is not printed. -/
  | processed (r : Result)
  | printed (r : Result)
  | failed (e : Error)
  /-- Taken, while a step from one of the others to the next is going on. -/
  | taken

/-- Processing that may not have happened yet. -/
structure Deferred (σ : Type) where
  plugins : List (Plugin σ)
  progress : Progress

/-- What processing depends on: files and numbers, and the state of the callbacks. -/
abbrev Backstage (σ : Type) := StateM (Workspace × σ)

namespace Progress

/-- The error for processing that is still going on. -/
def unfinishedError : Error :=
  .other "processing did not finish"

/-- The result, when the plugins have run. -/
def processed? : Progress → Except Error Result
  | .processed r => .ok r
  | .printed r => .ok r
  | .failed e => .error e
  | .pending _ _ => .error unfinishedError
  | .taken => .error unfinishedError

/-- The result, when the tree is printed. -/
def printed? : Progress → Except Error Result
  | .printed r => .ok r
  | .failed e => .error e
  | .processed _ => .error unfinishedError
  | .pending _ _ => .error unfinishedError
  | .taken => .error unfinishedError

/-- The progress after printing, which may fail. -/
def print (e : Environment) : Progress → Progress
  | .processed r =>
    match r.printed e with
    | .ok r => .printed r
    | .error error => .failed error
  | p => p

end Progress

namespace Result

variable {σ : Type}

/-- What a run of plugins on a result follows. -/
def program (before : Result) (awaits : Bool) (plugins : List (Plugin σ)) : Program σ where
  plugins
  options := before.options
  awaits

/-- What a run of plugins on a result starts with. -/
def stage (before : Result) (workspace : Workspace) (memory : σ) : Stage σ where
  desk := ⟨before.tree, workspace⟩
  messages := before.messages
  memory

end Result

namespace PluginRun

variable {σ : Type}

/-- The progress that a run has made, when it started from a result. -/
def progress (r : PluginRun σ) (before : Result) : Progress :=
  match r.point with
  | .finished =>
    .processed { before with
      tree := r.tree, messages := r.stage.messages, lastPlugin := r.lastPlugin }
  | .failed e => .failed e
  | _ => .taken

/-- Runs plugins on a result. -/
def onResult (steps : Nat) (awaits : Bool) (plugins : List (Plugin σ)) (before : Result) :
    Backstage σ Progress := do
  let (workspace, memory) ← get
  let program := before.program awaits plugins
  let run := (start program (before.stage workspace memory)).go program steps
  set (run.stage.desk.workspace, run.stage.memory)
  return run.progress before

end PluginRun

namespace Deferred

variable {σ : Type}

/-- Processing that is put off. -/
def ofInput (plugins : List (Plugin σ)) (input : ProcessInput) (options : ProcessOptions) :
    Deferred σ :=
  ⟨plugins, .pending input options⟩

/-- Processes, unless that was done. -/
def advance (steps : Nat) (awaits : Bool) (plugins : List (Plugin σ)) :
    Progress → Backstage σ Progress
  | .pending input options => do
    let (workspace, memory) ← get
    let (prepared, workspace) := input.prepare workspace options
    set (workspace, memory)
    match prepared with
    | .ok result => PluginRun.onResult steps awaits plugins result
    | .error e => return .failed e
  | p => return p

/-- Takes the progress. -/
def take (d : Deferred σ) : Progress × Deferred σ :=
  (d.progress, { d with progress := .taken })

/-- Runs the plugins, unless that was done, without waiting for callbacks. -/
def process (steps : Nat) (d : Deferred σ) : Backstage σ (Deferred σ) := do
  let (p, d) := d.take
  return { d with progress := ← advance steps false d.plugins p }

/-- Runs the plugins and prints the tree, unless that was done. -/
def print (steps : Nat) (d : Deferred σ) : Backstage σ (Deferred σ) := do
  let d ← d.process steps
  let (p, d) := d.take
  return { d with progress := p.print (← get).1.toEnvironment }

/-! ### Reading -/

/-- The result after the plugins have run; its text may be missing. -/
def sync (steps : Nat) (d : Deferred σ) : Backstage σ (Except Error Result × Deferred σ) := do
  let d ← d.process steps
  return (d.progress.processed?, d)

/-- The tree. -/
def tree (steps : Nat) (d : Deferred σ) : Backstage σ (Except Error Tree × Deferred σ) := do
  let (r, d) ← d.sync steps
  return (r.map Result.tree, d)

/-- What plugins reported. -/
def messages (steps : Nat) (d : Deferred σ) :
    Backstage σ (Except Error (List Message) × Deferred σ) := do
  let (r, d) ← d.sync steps
  return (r.map Result.messages, d)

/-- What plugins warned of. -/
def warnings (steps : Nat) (d : Deferred σ) :
    Backstage σ (Except Error (List Warning) × Deferred σ) := do
  let (r, d) ← d.sync steps
  return (r.map Result.warnings, d)

/-- The text. -/
def css (steps : Nat) (d : Deferred σ) : Backstage σ (Except Error String × Deferred σ) := do
  let d ← d.print steps
  return (d.progress.printed?.map Result.css, d)

/-- The map, when there is one that is not part of the text. -/
def map (steps : Nat) (d : Deferred σ) :
    Backstage σ (Except Error (Option SourceMap) × Deferred σ) := do
  let d ← d.print steps
  return (d.progress.printed?.map Result.map, d)

/-- The whole result, without waiting for callbacks. -/
def intoResult (steps : Nat) (d : Deferred σ) : Backstage σ (Except Error Result) := do
  let d ← d.print steps
  return d.progress.printed?

/-- The whole result, waiting for callbacks. -/
def await (steps : Nat) (d : Deferred σ) : Backstage σ (Except Error Result) := do
  let (p, d) := d.take
  let p ← advance steps true d.plugins p
  return (p.print (← get).1.toEnvironment).printed?

end Deferred

end Stylesheet
