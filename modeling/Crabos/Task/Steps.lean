import Crabos.Task.Sched

/-!
# What one step of the scheduler can do

The loop of `switch` is taken apart once: which task a turn picks, what the
poll of its future comes to, and what serving a system call leaves of the
tables. The invariants of the scheduler rest on these lemmas only.
-/
namespace Crabos.Task

variable {Env Susp Input : Type}

/-- The system call that the next turn of the loop serves, with its task, the
page context of the task and the frame. -/
def nextCall (s : Sched Env Susp) : Option (TaskId × Ctx × TrapFrame × Call Susp) :=
  match s.mode with
  | .user => none
  | .kernel prev =>
    match findNextWorkItem s.states (nextTasks s.tasks prev) with
    | none => none
    | some (_, _, .user _) => none
    | some (id, ctx, _) =>
      match pollFuture s id with
      | some (.serve f call) => some (id, ctx, f, call)
      | _ => none

/-- The effect of that call. -/
def served (k : Kernel Env Susp Input) (s : Sched Env Susp) (input : Input) :
    Option (TaskId × Effect Env Susp) :=
  match nextCall s with
  | none => none
  | some (id, ctx, f, call) => (k.serve ⟨id, ctx, ctx, s.env⟩ f call input).map fun e => (id, e)

theorem findNextWorkItem_mem {states : TaskId → Option TaskState} {l : List (TaskId × Ctx)}
    {id : TaskId} {ctx : Ctx} {state : TaskState}
    (h : findNextWorkItem states l = some (id, ctx, state)) :
    (id, ctx) ∈ l ∧ states id = some state := by
  induction l with
  | nil => cases h
  | cons x l ih =>
    obtain ⟨id', ctx'⟩ := x
    rw [findNextWorkItem] at h
    split at h
    · cases h
    · obtain ⟨hm, hs⟩ := ih h
      exact ⟨List.mem_cons_of_mem _ hm, hs⟩
    · rename_i st hne hst
      cases h
      exact ⟨List.mem_cons_self, hst⟩

theorem mem_nextTasks {tasks : List (TaskId × Ctx)} {prev : Option TaskId} {x : TaskId × Ctx}
    (h : x ∈ nextTasks tasks prev) : x ∈ tasks := by
  rcases List.mem_append.mp h with h | h
  · exact (List.mem_filter.mp h).1
  · exact (List.mem_filter.mp h).1

/-- The call that `id` has in its future, or enters now. -/
inductive Serving (s : Sched Env Susp) (id : TaskId) : TrapFrame → Call Susp → Prop where
  | entry (f g : TrapFrame) (hf : s.futures id = some (.resume g))
      (hs : s.states id = some (.syscallEntry f)) : Serving s id f .entry
  | resumed (f : TrapFrame) (susp : Susp) (hf : s.futures id = some (.dispatch f susp)) :
      Serving s id f (.resumed susp)

theorem Serving.pollFuture {s : Sched Env Susp} {id : TaskId} {f : TrapFrame} {call : Call Susp}
    (h : Serving s id f call) : pollFuture s id = some (.serve f call) := by
  cases h with
  | entry g hf hs => rw [Task.pollFuture, hf, hs]
  | resumed susp hf => rw [Task.pollFuture, hf]

/-- What a poll of the future of `id` can do to the scheduler. -/
inductive Polled (k : Kernel Env Susp Input) (s : Sched Env Susp) (id : TaskId) (ctx : Ctx)
    (input : Input) (s' : Sched Env Susp) : List Obs → Prop where
  | run (f : TrapFrame) (hf : s.futures id = some (.start f)) (hr : TaskRun.run s id f = some s') :
      Polled k s id ctx input s' []
  | idle (hs : s' = s) : Polled k s id ctx input s' []
  | serve (f : TrapFrame) (call : Call Susp) (e : Effect Env Susp) (hf : Serving s id f call)
      (he : k.serve ⟨id, ctx, s.cr3, s.env⟩ f call input = some e)
      (hd : dispatch s id f e = some s') : Polled k s id ctx input s' (e.obs s id)

theorem polled_of_poll {k : Kernel Env Susp Input} {s s' : Sched Env Susp} {id : TaskId}
    {ctx : Ctx} {input : Input} {obs : List Obs} (h : poll k s id ctx input = some (s', obs)) :
    Polled k s id ctx input s' obs := by
  have hserve : ∀ f call, Serving s id f call →
      ((k.serve ⟨id, ctx, s.cr3, s.env⟩ f call input).bind fun e =>
        (dispatch s id f e).map fun t => (t, e.obs s id)) = some (s', obs) →
      Polled k s id ctx input s' obs := by
    intro f call hf hb
    obtain ⟨e, he, hmap⟩ := Option.bind_eq_some_iff.mp hb
    obtain ⟨t, hd, heq⟩ := Option.map_eq_some_iff.mp hmap
    cases heq
    exact .serve f call e hf he hd
  rw [poll, pollFuture] at h
  cases hf : s.futures id with
  | none => rw [hf] at h; cases h
  | some fut =>
    rw [hf] at h
    cases fut with
    | start f =>
      obtain ⟨t, hr, heq⟩ := Option.map_eq_some_iff.mp h
      cases heq
      exact .run f hf hr
    | dispatch f susp => exact hserve f _ (.resumed f susp hf) h
    | resume g =>
      cases hs : s.states id with
      | none => rw [hs] at h; cases h
      | some st =>
        rw [hs] at h
        cases st with
        | sleep => cases h
        | wake => cases h; exact .idle rfl
        | user f => cases h; exact .idle rfl
        | syscallEntry f => exact hserve f _ (.entry f g hf hs) h

/-- The scheduler when the future of `id` is polled. -/
def enter (s : Sched Env Susp) (id : TaskId) (ctx : Ctx) : Sched Env Susp :=
  { s with current := some id, cr3 := ctx, mode := .kernel (some id) }

theorem Serving.of_enter {s : Sched Env Susp} {id x : TaskId} {ctx : Ctx} {f : TrapFrame}
    {call : Call Susp} (h : Serving (enter s id ctx) x f call) : Serving s x f call := by
  cases h with
  | entry g hf hs => exact .entry f g hf hs
  | resumed susp hf => exact .resumed f susp hf

theorem nextCall_of_serving {s : Sched Env Susp} {prev : Option TaskId} {id : TaskId} {ctx : Ctx}
    {st : TaskState} {f : TrapFrame} {call : Call Susp} (hm : s.mode = .kernel prev)
    (hn : findNextWorkItem s.states (nextTasks s.tasks prev) = some (id, ctx, st))
    (hu : ∀ f, st ≠ .user f) (hf : Serving s id f call) :
    nextCall s = some (id, ctx, f, call) := by
  rw [nextCall, hm]
  simp only [hn]
  cases st with
  | user g => exact absurd rfl (hu g)
  | _ => simp only [hf.pollFuture]

/-- Everything one turn of the loop can do. -/
theorem turn_cases {k : Kernel Env Susp Input} {s s' : Sched Env Susp} {input : Input}
    {obs : List Obs} (h : turn k s input = some (s', obs)) :
    ∃ id ctx, (id, ctx) ∈ s.tasks ∧
      ((∃ f, s.states id = some (.user f) ∧ obs = [] ∧
          s' = { s with current := some id, cr3 := ctx, mode := .user, frame := f }) ∨
        ((s.states id).isSome ∧ Polled k (enter s id ctx) id ctx input s' obs ∧
          ∀ f call, Serving s id f call → nextCall s = some (id, ctx, f, call))) := by
  rw [turn] at h
  split at h
  · cases h
  rename_i prev hm
  split at h
  · cases h
  · rename_i id ctx f hf
    obtain ⟨hmem, hst⟩ := findNextWorkItem_mem hf
    cases h
    exact ⟨id, ctx, mem_nextTasks hmem, .inl ⟨f, hst, rfl, rfl⟩⟩
  · rename_i id ctx st hne hf
    obtain ⟨hmem, hst⟩ := findNextWorkItem_mem hf
    exact ⟨id, ctx, mem_nextTasks hmem, .inr ⟨by rw [hst]; rfl, polled_of_poll h,
      fun g call hg => nextCall_of_serving hm hf hne hg⟩⟩

theorem served_eq {k : Kernel Env Susp Input} {s : Sched Env Susp} {id : TaskId} {ctx : Ctx}
    {input : Input} {f : TrapFrame} {call : Call Susp} {e : Effect Env Susp}
    (hn : nextCall s = some (id, ctx, f, call))
    (he : k.serve ⟨id, ctx, ctx, s.env⟩ f call input = some e) :
    served k s input = some (id, e) := by
  rw [served, hn]
  simp only [he, Option.map_some]

theorem foldl_taskWakerWake (l : List TaskId) (s : Sched Env Susp) :
    l.foldl taskWakerWake s =
      { s with states := fun t =>
          if t ∈ l ∧ (s.states t).isSome then some .wake else s.states t } := by
  induction l generalizing s with
  | nil => simp
  | cons x l ih =>
    rw [List.foldl_cons, ih]
    unfold taskWakerWake
    by_cases hx : (s.states x).isSome
    · rw [if_pos hx]
      simp only [Sched.mk.injEq, true_and, and_true]
      funext t
      by_cases ht : t = x
      · subst ht
        simp [hx]
      · simp [ht]
    · rw [if_neg hx]
      simp only [Sched.mk.injEq, true_and, and_true]
      funext t
      by_cases ht : t = x
      · subst ht
        simp [hx]
      · simp [ht]

section effect

variable {s s' : Sched Env Susp} {w : Watched Env Susp} {id t : TaskId} {f : TrapFrame}
  {e : Effect Env Susp}

theorem spawn_task (ht : t ≠ s.nextId) (c : Ctx) (g : TrapFrame) (failed : Option Kept) :
    ((spawn s c g failed).futures t = none ∨ (spawn s c g failed).futures t = s.futures t) ∧
      ((spawn s c g failed).states t = none ∨ (spawn s c g failed).states t = s.states t) := by
  cases failed with
  | none => exact ⟨.inr (Function.update_of_ne ht _ _), .inr (Function.update_of_ne ht _ _)⟩
  | some kept =>
    simp only [spawn]
    constructor
    · split
      · exact .inr rfl
      · exact .inl rfl
    · split
      · exact .inr rfl
      · exact .inl rfl

/-- What the effect of a call leaves of the tables for a task that existed. -/
theorem applyEffect_task (ht : t ≠ s.nextId) :
    ((applyEffect s e).futures t = none ∨ (applyEffect s e).futures t = s.futures t) ∧
      ((applyEffect s e).states t = none ∨ (applyEffect s e).states t = s.states t ∨
        t ∈ e.wakes ∧ (s.states t).isSome ∧ (applyEffect s e).states t = some .wake) := by
  have hwoken : ∀ x : Option TaskState,
      x = (if t ∈ e.wakes ∧ (s.states t).isSome then some .wake else s.states t) →
      x = s.states t ∨ t ∈ e.wakes ∧ (s.states t).isSome ∧ x = some .wake := by
    rintro x rfl
    split
    · rename_i hw
      exact .inr ⟨hw.1, hw.2, rfl⟩
    · exact .inl rfl
  rw [applyEffect, foldl_taskWakerWake]
  cases e.spawned with
  | none => exact ⟨.inr rfl, .inr (hwoken _ rfl)⟩
  | some x =>
    obtain ⟨hf, hs⟩ := spawn_task (s := { s with
      env := e.env, cr3 := e.setCtx.getD s.cr3, states := fun t =>
        if t ∈ e.wakes ∧ (s.states t).isSome then some .wake else s.states t }) ht x.1 x.2.1 x.2.2
    exact ⟨hf, hs.imp_right fun h => hwoken _ h⟩

/-- The task that the effect of a call spawns, if it does. -/
theorem applyEffect_new (hs : s.states s.nextId = none) (hf : s.futures s.nextId = none) :
    (applyEffect s e).states s.nextId = none ∧ (applyEffect s e).futures s.nextId = none ∨
      ∃ c g, e.spawned = some (c, g, none) ∧
        (applyEffect s e).states s.nextId = some .wake ∧
        (applyEffect s e).futures s.nextId = some (.start g) := by
  rw [applyEffect, foldl_taskWakerWake]
  rcases e.spawned with - | ⟨c, g, - | kept⟩
  · exact .inl (by simp [hs, hf])
  · exact .inr ⟨c, g, rfl, by simp [spawn], by simp [spawn]⟩
  · exact .inl (by simp [spawn, hs, hf])

theorem applyEffect_spawned {c : Ctx} {g : TrapFrame} (h : e.spawned = some (c, g, none)) :
    (applyEffect s e).futures s.nextId = some (.start g) := by
  rw [applyEffect, foldl_taskWakerWake, h]
  exact Function.update_self _ _ _

/-- The tasks after the effect of a call: some of those before, and the spawned one. -/
theorem applyEffect_tasks {x : TaskId × Ctx} (hx : x ∈ (applyEffect s e).tasks) :
    x ∈ s.tasks ∨ ∃ c g, e.spawned = some (c, g, none) ∧ x = (s.nextId, c) := by
  rw [applyEffect, foldl_taskWakerWake] at hx
  rcases hsp : e.spawned with - | ⟨c, g, - | kept⟩
  · rw [hsp] at hx
    exact .inl hx
  · rw [hsp] at hx
    rcases List.mem_append.mp hx with hx | hx
    · exact .inl hx
    · exact .inr ⟨c, g, rfl, List.mem_singleton.mp hx⟩
  · rw [hsp] at hx
    exact .inl (List.mem_filter.mp hx).1

theorem applyEffect_fields :
    (applyEffect s e).mode = s.mode ∧ (applyEffect s e).current = s.current ∧
      (applyEffect s e).env = e.env ∧
      (applyEffect s e).nextId = s.nextId + if e.spawned.isSome then 1 else 0 := by
  rw [applyEffect, foldl_taskWakerWake]
  rcases e.spawned with - | ⟨c, g, - | kept⟩
  · exact ⟨rfl, rfl, rfl, rfl⟩
  · exact ⟨rfl, rfl, rfl, rfl⟩
  · exact ⟨rfl, rfl, rfl, rfl⟩

theorem taskRun_run (h : TaskRun.run s id f = some s') :
    s' = setFuture { s with states := Function.update s.states id (some (.user f)) } id (.resume f) := by
  rw [TaskRun.run] at h
  split at h
  · cases h
  · cases h
    rfl

theorem setFuture_other (ht : t ≠ id) (fut : TaskFuture Susp) :
    (setFuture s id fut).futures t = s.futures t :=
  Function.update_of_ne ht _ _

/-- The two ways in which a poll that serves a call ends. -/
theorem dispatch_cases (h : dispatch s id f e = some s') :
    (∃ u, e.outcome = .ready u ∧
        s' = setFuture { applyEffect s e with
          states := Function.update (applyEffect s e).states id (some (.user (f.withRax u))) } id
          (.resume (f.withRax u))) ∨
      ∃ susp, e.outcome = .pending susp ∧ s' = setFuture (applyEffect s e) id (.dispatch f susp) := by
  rw [dispatch] at h
  cases ho : e.outcome with
  | ready u =>
    rw [ho] at h
    exact .inl ⟨u, rfl, taskRun_run h⟩
  | pending susp =>
    rw [ho] at h
    cases h
    exact .inr ⟨susp, rfl, rfl⟩

/-- Apart from the task that made the call, a poll leaves what its effect leaves. -/
theorem dispatch_other (h : dispatch s id f e = some s') (ht : t ≠ id) :
    s'.futures t = (applyEffect s e).futures t ∧ s'.states t = (applyEffect s e).states t := by
  obtain ⟨u, -, rfl⟩ | ⟨susp, -, rfl⟩ := dispatch_cases h
  · exact ⟨setFuture_other ht _, Function.update_of_ne ht _ _⟩
  · exact ⟨setFuture_other ht _, rfl⟩

theorem dispatch_fields (h : dispatch s id f e = some s') :
    s'.mode = s.mode ∧ s'.current = s.current ∧ s'.env = e.env ∧
      s'.nextId = s.nextId + (if e.spawned.isSome then 1 else 0) ∧
      s'.tasks = (applyEffect s e).tasks := by
  obtain ⟨h₁, h₂, h₃, h₄⟩ := applyEffect_fields (s := s) (e := e)
  obtain ⟨u, -, rfl⟩ | ⟨susp, -, rfl⟩ := dispatch_cases h
  · exact ⟨h₁, h₂, h₃, h₄, rfl⟩
  · exact ⟨h₁, h₂, h₃, h₄, rfl⟩

@[simp] theorem observe_s (l : List Obs) : (l.foldl observe w).s = w.s := by
  induction l generalizing w with
  | nil => rfl
  | cons o l ih =>
    rw [List.foldl_cons, ih]
    cases o <;> rfl

theorem observe_obs_other (ht : t ≠ id) (hn : t ≠ s.nextId) :
    ((e.obs s id).foldl observe w).expected t = w.expected t := by
  rw [Effect.obs]
  cases e.setCtx <;> rcases e.spawned with - | ⟨c, g, - | kept⟩ <;> cases e.outcome <;>
    simp [observe, Function.update_of_ne ht, Function.update_of_ne hn]

theorem observe_obs_new (hn : s.nextId ≠ id) {c : Ctx} {g : TrapFrame}
    (hs : e.spawned = some (c, g, none)) :
    ((e.obs s id).foldl observe w).expected s.nextId = some g := by
  rw [Effect.obs, hs]
  cases e.setCtx <;> cases e.outcome <;> simp [observe, Function.update_of_ne hn]

theorem observe_obs_ready {u : UInt64} (hu : e.outcome = .ready u) (hn : id ≠ s.nextId) :
    ((e.obs s id).foldl observe w).expected id =
      (w.expected id).map fun f => f.withRax u := by
  rw [Effect.obs, hu]
  cases e.setCtx <;> rcases e.spawned with - | ⟨c, g, - | kept⟩ <;>
    simp [observe, Function.update_of_ne hn]

theorem observe_obs_pending {susp : Susp} (hp : e.outcome = .pending susp) (hn : id ≠ s.nextId) :
    ((e.obs s id).foldl observe w).expected id = w.expected id := by
  rw [Effect.obs, hp]
  cases e.setCtx <;> rcases e.spawned with - | ⟨c, g, - | kept⟩ <;>
    simp [observe, Function.update_of_ne hn]

theorem observe_obs_asked :
    ((e.obs s id).foldl observe w).asked t =
      if t = id then e.setCtx.or (w.asked t) else w.asked t := by
  rw [Effect.obs]
  cases e.setCtx <;> rcases e.spawned with - | ⟨c, g, - | kept⟩ <;> cases e.outcome <;>
    by_cases ht : t = id <;> simp [observe, Function.update_apply, ht]

end effect

section step

variable {k : Kernel Env Susp Input} {w w' : Watched Env Susp}

theorem switch_user {s : Sched Env Susp} {t : TaskId} {g frame : TrapFrame}
    (hc : s.current = some t) (hs : s.states t = some (.user g)) :
    switch s frame = some { s with
      states := Function.update s.states t (some (.user frame)), mode := .kernel (some t) } := by
  rw [switch, hc]
  simp only [hs]

theorem dispatchSyscall_user {s : Sched Env Susp} {t : TaskId} {g frame : TrapFrame}
    (hc : s.current = some t) (hs : s.states t = some (.user g)) :
    dispatchSyscall s frame = some { s with
      states := Function.update s.states t (some (.syscallEntry frame))
      mode := .kernel (some t) } := by
  rw [dispatchSyscall, hc]
  simp only [hs]
  rw [switch]
  simp only [Function.update_self]

/-- The current task `t` leaves user mode with `frame`, which its state `st` holds. -/
def leave (w : Watched Env Susp) (t : TaskId) (frame : TrapFrame) (st : TaskState) :
    Watched Env Susp :=
  { w with
    s := { w.s with states := Function.update w.s.states t (some st), mode := .kernel (some t) }
    expected := Function.update w.expected t (some frame) }

/-- While the CPU is in user mode, the state of the current task is the frame
that it was entered with. -/
def Running (w : Watched Env Susp) : Prop :=
  w.s.mode = .user → ∃ t, w.s.current = some t ∧ w.s.states t = some (.user w.s.frame)

/-- Every step of a scheduler whose current task is in user state when the CPU is. -/
theorem step_cases (hrun : Running w) {e : Event Input} (hs : step k w e = some w') :
    (∃ t frame st, w.s.mode = .user ∧ w.s.current = some t ∧
        w.s.states t = some (.user w.s.frame) ∧ (st = .user frame ∨ st = .syscallEntry frame) ∧
        w' = leave w t frame st) ∨
      (∃ code, e = .keyboard code ∧
        w' = { w with s := { w.s with env := k.keyboard w.s.env code } }) ∨
      ∃ input s' obs, e = .turn input ∧ turn k w.s input = some (s', obs) ∧
        w' = obs.foldl observe { w with s := s' } := by
  obtain ⟨⟨s', obs⟩, he, rfl⟩ := Option.map_eq_some_iff.mp hs
  have hleft : ∀ {t : TaskId} (frame : TrapFrame), w.s.current = some t →
      (w.s.current.toList.map fun c => Obs.left c frame) = [.left t frame] := by
    intro t frame hc
    rw [hc]
    rfl
  cases e with
  | keyboard code =>
    cases he
    exact .inr (.inl ⟨code, rfl, rfl⟩)
  | turn input => exact .inr (.inr ⟨input, s', obs, rfl, he, rfl⟩)
  | timer frame =>
    rw [exec] at he
    split at he
    · rename_i hm
      obtain ⟨t, hcur, hst⟩ := hrun hm
      rw [switch_user hcur hst, hleft frame hcur] at he
      cases he
      exact .inl ⟨t, frame, _, hm, hcur, hst, .inl rfl, rfl⟩
    · cases he
  | syscall frame =>
    rw [exec] at he
    split at he
    · rename_i hm
      obtain ⟨t, hcur, hst⟩ := hrun hm
      rw [dispatchSyscall_user hcur hst, hleft frame hcur] at he
      cases he
      exact .inl ⟨t, frame, _, hm, hcur, hst, .inr rfl, rfl⟩
    · cases he

theorem running_initial (env : Env) (ctx : Ctx) (f : TrapFrame) :
    Running (initial env ctx f : Watched Env Susp) := fun hm => by cases hm

theorem polled_mode {s s' : Sched Env Susp} {id : TaskId} {ctx : Ctx} {input : Input}
    {obs : List Obs} (hp : Polled k s id ctx input s' obs) : s'.mode = s.mode := by
  cases hp with
  | run f hf hr =>
    rw [taskRun_run hr]
    rfl
  | idle hs => rw [hs]
  | serve f call e hf he hd => exact (dispatch_fields hd).1

theorem running_step (hrun : Running w) {e : Event Input} (hs : step k w e = some w') :
    Running w' := by
  obtain ⟨t, frame, st, -, -, -, -, rfl⟩ | ⟨code, rfl, rfl⟩ | ⟨input, s', obs, rfl, ht, rfl⟩ :=
    step_cases hrun hs
  · intro hm
    cases hm
  · exact hrun
  · intro hm
    rw [observe_s] at hm ⊢
    obtain ⟨id, ctx, -, ⟨f, hst, -, rfl⟩ | ⟨-, hp, -⟩⟩ := turn_cases ht
    · exact ⟨id, rfl, hst⟩
    · exact absurd ((polled_mode hp).symm.trans hm) (by simp [enter])

/-- `TASKS` has one entry for each of its keys, and the next id is not one of them. -/
structure Listed (s : Sched Env Susp) : Prop where
  unique : ∀ t c c', (t, c) ∈ s.tasks → (t, c') ∈ s.tasks → c = c'
  young : ∀ t c, (t, c) ∈ s.tasks → t < s.nextId

theorem listed_initial (env : Env) (ctx : Ctx) (f : TrapFrame) :
    Listed (initial env ctx f : Watched Env Susp).s where
  unique t c c' h h' := by
    cases List.mem_singleton.mp h
    cases List.mem_singleton.mp h'
    rfl
  young t c h := by
    cases List.mem_singleton.mp h
    exact Nat.lt_succ_self 1

theorem Listed.congr {s s' : Sched Env Susp} (h : Listed s) (ht : s'.tasks = s.tasks)
    (hn : s'.nextId = s.nextId) : Listed s' where
  unique := by simpa only [ht] using h.unique
  young := by simpa only [ht, hn] using h.young

/-- A task after a served call was there before, or it is the new one. -/
theorem mem_dispatch_tasks {s s' : Sched Env Susp} {id : TaskId} {f : TrapFrame}
    {e : Effect Env Susp} (hd : dispatch s id f e = some s') {t : TaskId} {c : Ctx}
    (htc : (t, c) ∈ s'.tasks) :
    (t, c) ∈ s.tasks ∨
      t = s.nextId ∧ s.nextId < s'.nextId ∧ ∃ g, e.spawned = some (c, g, none) := by
  obtain ⟨-, -, -, hnext, htasks⟩ := dispatch_fields hd
  rw [htasks] at htc
  rcases applyEffect_tasks htc with htc | ⟨c', g, hsp, hnew⟩
  · exact .inl htc
  · cases hnew
    refine .inr ⟨rfl, ?_, g, hsp⟩
    rw [hnext, hsp]
    exact Nat.lt_succ_self _

theorem listed_dispatch {s s' : Sched Env Susp} {id : TaskId} {f : TrapFrame}
    {e : Effect Env Susp} (h : Listed s) (hd : dispatch s id f e = some s') : Listed s' where
  unique t c c' hc hc' := by
    rcases mem_dispatch_tasks hd hc with hc | ⟨rfl, -, g, hsp⟩
    · rcases mem_dispatch_tasks hd hc' with hc' | ⟨rfl, -⟩
      · exact h.unique t c c' hc hc'
      · exact absurd (h.young _ c hc) (Nat.lt_irrefl _)
    · rcases mem_dispatch_tasks hd hc' with hc' | ⟨-, -, g', hsp'⟩
      · exact absurd (h.young _ c' hc') (Nat.lt_irrefl _)
      · rw [hsp] at hsp'
        cases hsp'
        rfl
  young t c htc := by
    have hle : s.nextId ≤ s'.nextId := by
      rw [(dispatch_fields hd).2.2.2.1]
      exact Nat.le_add_right _ _
    rcases mem_dispatch_tasks hd htc with htc | ⟨rfl, hn, -⟩
    · exact Nat.lt_of_lt_of_le (h.young t c htc) hle
    · exact hn

theorem listed_step (hrun : Running w) (h : Listed w.s) {e : Event Input}
    (hs : step k w e = some w') : Listed w'.s := by
  obtain ⟨t, frame, st, -, -, -, -, rfl⟩ | ⟨code, rfl, rfl⟩ | ⟨input, s', obs, rfl, ht, rfl⟩ :=
    step_cases hrun hs
  · exact h.congr rfl rfl
  · exact h.congr rfl rfl
  · rw [observe_s]
    obtain ⟨id, ctx, -, ⟨f, -, -, rfl⟩ | ⟨-, hp, -⟩⟩ := turn_cases ht
    · exact h.congr rfl rfl
    · cases hp with
      | run f hf hr =>
        rw [taskRun_run hr]
        exact h.congr rfl rfl
      | idle heq =>
        rw [heq]
        exact h.congr rfl rfl
      | serve f call e hf he hd =>
        exact listed_dispatch (s := enter w.s id ctx) (h.congr rfl rfl) hd

end step

end Crabos.Task
