import Stylesheet.Proofs.Process.Once

/-!
# Callbacks that have to be awaited

The whole result can be taken with or without waiting for callbacks. Both runs go the same way up to
the first call of a callback that has to be awaited: there the one that does not wait fails, before
the callback has done anything.

* `PluginRun.exists_first_awaited` finds that call.
* `Deferred.intoResult_agrees` compares the two.
-/

namespace Stylesheet

variable {σ : Type}

namespace PluginRun

variable {p : Program σ} {r : PluginRun σ} {c : Listener σ × NodeId} {m n : Nat}

/-- One step more adds at most one call. -/
theorem calls_succ (n : Nat) (r : PluginRun σ) :
    calls p (n + 1) r = calls p n r ++ (r.go p n).call?.toList := by
  rw [calls_add]
  exact congrArg _ (List.append_nil _)

/-- If a callback that has to be awaited is reached, one is reached first. -/
theorem exists_first_awaited (h : ¬ ∀ c ∈ calls p n r, c.1.callback.awaited = false) :
    ∃ m < n, (∀ b ∈ calls p m r, b.1.callback.awaited = false) ∧
      ∃ c, (r.go p m).call? = some c ∧ c.1.callback.awaited = true := by
  induction n with
  | zero => exact absurd (fun c hc => absurd hc List.not_mem_nil) h
  | succ n ih =>
    by_cases hall : ∀ b ∈ calls p n r, b.1.callback.awaited = false
    · refine ⟨n, Nat.lt_succ_self n, hall, ?_⟩
      rw [calls_succ, List.forall_mem_append] at h
      obtain ⟨c, hc, hawaited⟩ : ∃ c ∈ (r.go p n).call?.toList, ¬ c.1.callback.awaited = false := by
        by_contra hnone
        exact h ⟨hall, fun c hc => by_contra fun hawaited => hnone ⟨c, hc, hawaited⟩⟩
      exact ⟨c, Option.mem_toList.mp hc, Bool.not_eq_false _ ▸ hawaited⟩
    · obtain ⟨m, hm, hfirst⟩ := ih hall
      exact ⟨m, Nat.lt_succ_of_lt hm, hfirst⟩

/-- Without waiting, a callback that has to be awaited is not called: the run fails and leaves
everything as it is. -/
theorem step_of_awaited (hp : p.awaits = false) (hcall : r.call? = some c)
    (hawaited : c.1.callback.awaited = true) :
    r.step p = ⟨r.stage, some c.1.plugin, .failed (.asyncInSync c.1.plugin)⟩ := by
  obtain ⟨next, hnext⟩ := exists_step_eq_call (p := p) hcall
  have hstep : r.step p = r.call p c.1 c.2 next := hnext p.awaits
  rw [hstep, call, perform, hawaited, hp]
  rfl

/-- Up to the first callback that has to be awaited, both runs make the same calls. The one that
does not wait makes no other. -/
theorem calls_of_first_awaited (hp : p.awaits = false) (hm : m < n)
    (hbefore : ∀ b ∈ calls p m r, b.1.callback.awaited = false)
    (hcall : (r.go p m).call? = some c) (hawaited : c.1.callback.awaited = true) :
    r.go { p with awaits := true } m = r.go p m ∧
      calls { p with awaits := true } m r = calls p m r ∧
      r.go p n = ⟨(r.go p m).stage, some c.1.plugin, .failed (.asyncInSync c.1.plugin)⟩ ∧
      calls p n r = calls p m r ++ [c] ∧
      ∃ rest, calls { p with awaits := true } n r = calls p m r ++ c :: rest := by
  obtain ⟨hgo, hcalls⟩ := go_awaits hbefore true
  obtain ⟨k, rfl⟩ := Nat.exists_eq_add_of_le (Nat.succ_le_of_lt hm)
  have hstep := step_of_awaited hp hcall hawaited
  refine ⟨hgo, hcalls, ?_, ?_, ?_⟩
  · rw [go_add, go_succ, hstep]
    exact go_of_isOver rfl k
  · rw [calls_add, calls_succ, hcall, go_succ, hstep, calls_of_isOver rfl k, List.append_nil]
    rfl
  · refine ⟨calls { p with awaits := true } k (r.go { p with awaits := true } (m + 1)), ?_⟩
    rw [calls_add, calls_succ, hcalls, hgo, hcall, List.append_assoc]
    rfl

end PluginRun

namespace Deferred

variable {plugins : List (Plugin σ)} {input : ProcessInput} {options : ProcessOptions}

section Prepared

variable {before : Result} {w : Workspace} {s : Workspace × σ}
  (hprepare : input.prepare s.1 options = (.ok before, w))

include hprepare

/-- What was prepared is run. -/
theorem runAfter_of_prepare (n : Nat) (awaits : Bool) :
    (ofInput plugins input options).runAfter n awaits s =
      some ((PluginRun.start (before.program awaits plugins) (before.stage w s.2)).go
        (before.program awaits plugins) n) := by
  dsimp only [runAfter, ofInput]
  rw [hprepare]

theorem calls_of_prepare (n : Nat) (awaits : Bool) :
    (ofInput plugins input options).calls n awaits s =
      PluginRun.calls (before.program awaits plugins) n
        (.start (before.program awaits plugins) (before.stage w s.2)) := by
  dsimp only [calls, ofInput]
  rw [hprepare]

/-- The whole result, in terms of the run. -/
theorem run_finish_of_prepare {run : PluginRun σ} {steps : Nat} {awaits : Bool}
    (hrun : (ofInput plugins input options).runAfter steps awaits s = some run) :
    ((ofInput plugins input options).finish steps awaits).run s =
      (((run.progress before).print run.stage.desk.workspace.toEnvironment).printed?,
        run.stage.desk.workspace, run.stage.memory) := by
  rw [runAfter_of_prepare hprepare] at hrun
  rw [run_finish, ofInput, run_advance_pending, hprepare, ← Option.some.inj hrun]
  rfl

end Prepared

/-- What cannot be prepared calls nothing. -/
theorem calls_of_prepare_error {e : Error} {w : Workspace} {s : Workspace × σ}
    (hprepare : input.prepare s.1 options = (.error e, w)) (n : Nat) (awaits : Bool) :
    (ofInput plugins input options).calls n awaits s = [] := by
  dsimp only [calls, ofInput]
  rw [hprepare]

/-- When no callback that has to be awaited is reached, waiting makes no difference. -/
theorem await_eq_intoResult {steps : Nat} {s : Workspace × σ} {awaits : Bool}
    (hreached : ∀ c ∈ (ofInput plugins input options).calls steps awaits s,
      c.1.callback.awaited = false) :
    ((ofInput plugins input options).intoResult steps).run s =
        ((ofInput plugins input options).await steps).run s ∧
      (ofInput plugins input options).calls steps false s =
        (ofInput plugins input options).calls steps true s := by
  show ((ofInput plugins input options).finish steps false).run s =
    ((ofInput plugins input options).finish steps true).run s ∧ _
  cases hprepare : input.prepare s.1 options with
  | mk prepared w =>
    cases prepared with
    | error e =>
      refine ⟨?_, (calls_of_prepare_error hprepare _ _).trans
        (calls_of_prepare_error hprepare _ _).symm⟩
      rw [run_finish, run_finish, ofInput, run_advance_pending, run_advance_pending, hprepare]
    | ok before =>
      rw [calls_of_prepare hprepare] at hreached
      -- Both runs are compared with the one of which it is known.
      have hsame : ∀ other,
          (PluginRun.start (before.program other plugins) (before.stage w s.2)).go
              (before.program other plugins) steps =
            (PluginRun.start (before.program awaits plugins) (before.stage w s.2)).go
              (before.program awaits plugins) steps ∧
          PluginRun.calls (before.program other plugins) steps
              (.start (before.program other plugins) (before.stage w s.2)) =
            PluginRun.calls (before.program awaits plugins) steps
              (.start (before.program awaits plugins) (before.stage w s.2)) :=
        fun other => PluginRun.go_awaits hreached other
      rw [run_finish_of_prepare hprepare (runAfter_of_prepare hprepare steps false),
        run_finish_of_prepare hprepare (runAfter_of_prepare hprepare steps true),
        calls_of_prepare hprepare, calls_of_prepare hprepare, (hsame false).1, (hsame true).1,
        (hsame false).2, (hsame true).2]
      exact ⟨rfl, rfl⟩

/-- Whether the whole result is taken with or without waiting for callbacks makes no difference
when no callback that has to be awaited is reached. When one is reached, not waiting for it is an
error that names the plugin of the callback; up to there both ways are the same, and the callback
itself has done nothing. -/
theorem intoResult_agrees (plugins : List (Plugin σ)) (input : ProcessInput)
    (options : ProcessOptions) (steps : Nat) (s : Workspace × σ) :
    let d := ofInput plugins input options
    (∀ awaits, (∀ c ∈ d.calls steps awaits s, c.1.callback.awaited = false) →
      (d.intoResult steps).run s = (d.await steps).run s ∧
        d.calls steps false s = d.calls steps true s) ∧
    ∀ c ∈ d.calls steps false s, c.1.callback.awaited = true →
      c.1.Registered plugins ∧
      ∃ n < steps, ∃ moment,
        d.runAfter n true s = some moment ∧ d.runAfter n false s = some moment ∧
        moment.call? = some c ∧
        (∀ b ∈ d.calls n true s, b.1.callback.awaited = false) ∧
        d.calls steps false s = d.calls n true s ++ [c] ∧
        (∃ rest, d.calls steps true s = d.calls n true s ++ c :: rest) ∧
        (d.intoResult steps).run s =
          (.error (.asyncInSync c.1.plugin), moment.stage.desk.workspace, moment.stage.memory) := by
  refine ⟨fun awaits => await_eq_intoResult, fun c hc hawaited => ?_⟩
  cases hprepare : input.prepare s.1 options with
  | mk prepared w =>
    cases prepared with
    | error e =>
      rw [calls_of_prepare_error hprepare] at hc
      exact absurd hc List.not_mem_nil
    | ok before =>
      rw [calls_of_prepare hprepare] at hc
      obtain ⟨n, hn, hbefore, first, hcall, hfirst⟩ := PluginRun.exists_first_awaited
        fun hall => Bool.false_ne_true ((hall c hc).symm.trans hawaited)
      obtain ⟨hgo, hcalls, hfailed, hshort, hlong⟩ :=
        PluginRun.calls_of_first_awaited rfl hn hbefore hcall hfirst
      -- The call is the first one, since it is the only one of its kind.
      obtain rfl : c = first := by
        rw [hshort, List.mem_append, List.mem_singleton] at hc
        exact hc.resolve_left fun hc => Bool.false_ne_true ((hbefore c hc).symm.trans hawaited)
      refine ⟨PluginRun.registered_of_mem_calls_start hc, n, hn, _,
        (runAfter_of_prepare hprepare n true).trans (congrArg some hgo),
        runAfter_of_prepare hprepare n false, hcall, ?_, ?_, ?_, ?_⟩
      · rw [calls_of_prepare hprepare]
        exact hcalls ▸ hbefore
      · rw [calls_of_prepare hprepare, calls_of_prepare hprepare]
        exact hshort.trans (congrArg (· ++ [c]) hcalls.symm)
      · rw [calls_of_prepare hprepare, calls_of_prepare hprepare]
        exact hcalls ▸ hlong
      · have hrun := @runAfter_of_prepare _ plugins _ _ _ _ _ hprepare steps false
        rw [hfailed] at hrun
        exact run_finish_of_prepare hprepare hrun

/-- Processing with a callback among others that has to be awaited. -/
def waitingDeferred : Deferred (List (String × NodeId)) :=
  ofInput (PluginRun.noting.plugins ++ [{
    name := "slow"
    hooks := [(.visit (.of .rule true none), { PluginRun.notes with awaited := true })] }])
    (.tree .empty) {}

/-- Notes are taken until the callback that has to be awaited is reached. -/
theorem intoResult_waiting :
    (∃ w, (waitingDeferred.intoResult 60).run ({}, []) = (.error (.asyncInSync "slow"), w,
        [("look", ⟨1⟩), ("look", ⟨2⟩), ("grow", ⟨2⟩), ("look", ⟨1⟩)])) ∧
      (notingDeferred.intoResult 60).run ({}, []) = (notingDeferred.await 60).run ({}, []) := by
  constructor
  · have hslow : ((waitingDeferred.calls 60 false ({}, [])).filter
        fun c => c.1.callback.awaited).map (·.1.plugin) = ["slow"] := by decide +kernel
    have hnotes : ((waitingDeferred.intoResult 60).run ({}, [])).2.2 =
        [("look", ⟨1⟩), ("look", ⟨2⟩), ("grow", ⟨2⟩), ("look", ⟨1⟩)] := by decide +kernel
    -- There is one awaited call, so it is the first one.
    obtain ⟨c, hc, hname⟩ := List.mem_map.mp (hslow ▸ List.mem_singleton.mpr rfl)
    obtain ⟨hc, hawaited⟩ := List.mem_filter.mp hc
    obtain ⟨-, n, -, moment, -, -, -, -, -, -, hresult⟩ :=
      (intoResult_agrees _ _ _ 60 ({}, [])).2 c hc hawaited
    rw [hname] at hresult
    change (waitingDeferred.intoResult 60).run ({}, []) = _ at hresult
    rw [hresult] at hnotes ⊢
    exact ⟨_, by rw [← hnotes]⟩
  · have hall : (notingDeferred.calls 60 false ({}, [])).all
        (fun c => !c.1.callback.awaited) = true := by decide +kernel
    refine ((intoResult_agrees _ _ _ 60 ({}, [])).1 false fun c hc => ?_).1
    exact Bool.not_eq_true' _ ▸ List.all_eq_true.mp hall c hc

end Deferred

end Stylesheet
