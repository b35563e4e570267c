import Crabos.Syscall
import Crabos.Task.Steps

/-!
# Saved frames

The frame of a task travels from the interrupt to its state, from there into
its future and back. Whatever the system calls do, a task is resumed with the
frame it left user mode with, as long as no waker is invoked on a task whose
state still holds its only copy.
-/
namespace Crabos.Task

open Crabos.Run

variable {Env Susp Input : Type}

/-- The state of `x` holds the only copy of its frame: the task is in user
state, or its `SyscallEntry` has not been consumed by `TaskResume::poll`. -/
def holdsFrame (s : Sched Env Susp) (x : TaskId) : Bool :=
  match s.states x, s.futures x with
  | some (.user _), _ => true
  | some (.syscallEntry _), some (.resume _) => true
  | _, _ => false

/-- The wakers that a served call invokes spare the tasks that hold their
frame; the task `id` that is being polled has handed its own over. -/
def SparesServed (s : Sched Env Susp) : Option (TaskId × Effect Env Susp) → Prop
  | some (id, e) => ∀ x ∈ e.wakes, x ≠ id → holdsFrame s x = false
  | none => True

instance (s : Sched Env Susp) : (o : Option (TaskId × Effect Env Susp)) →
    Decidable (SparesServed s o)
  | some (id, e) => inferInstanceAs (Decidable (∀ x ∈ e.wakes, x ≠ id → holdsFrame s x = false))
  | none => inferInstanceAs (Decidable True)

/-- No waker is invoked on a task that holds its frame. -/
def Spares (k : Kernel Env Susp Input) (w : Watched Env Susp) : Event Input → Prop
  | .turn input => SparesServed w.s (served k w.s input)
  | _ => True

instance (k : Kernel Env Susp Input) (w : Watched Env Susp) :
    (e : Event Input) → Decidable (Spares k w e)
  | .turn input => inferInstanceAs (Decidable (SparesServed w.s (served k w.s input)))
  | .timer _ => inferInstanceAs (Decidable True)
  | .syscall _ => inferInstanceAs (Decidable True)
  | .keyboard _ => inferInstanceAs (Decidable True)

/-- Where the frame that a task is owed can be, by its state and its future. -/
inductive FrameAt : Option TaskState → Option (TaskFuture Susp) → Option TrapFrame → Prop where
  | gone (fut : Option (TaskFuture Susp)) (x : Option TrapFrame) : FrameAt none fut x
  | stuck (st : TaskState) (x : Option TrapFrame) (h : ∀ f, st ≠ .user f) : FrameAt (some st) none x
  | user (f : TrapFrame) (fut : Option (TaskFuture Susp))
      (h : fut = none ∨ ∃ g, fut = some (.resume g)) : FrameAt (some (.user f)) fut (some f)
  | entry (f g : TrapFrame) : FrameAt (some (.syscallEntry f)) (some (.resume g)) (some f)
  | start (f : TrapFrame) : FrameAt (some .wake) (some (.start f)) (some f)
  | serving (st : TaskState) (f : TrapFrame) (susp : Susp)
      (h : st = .wake ∨ ∃ g, st = .syscallEntry g) :
      FrameAt (some st) (some (.dispatch f susp)) (some f)

/-- A task may lose its entries, and then panics the kernel before it is resumed. -/
theorem FrameAt.lose {st st' : Option TaskState} {fut fut' : Option (TaskFuture Susp)}
    {x : Option TrapFrame} (h : FrameAt st fut x) (hs : st' = none ∨ st' = st)
    (hf : fut' = none ∨ fut' = fut) : FrameAt st' fut' x := by
  rcases hs with rfl | rfl
  · exact .gone fut' x
  rcases hf with rfl | rfl
  · cases h with
    | gone => exact .gone none x
    | stuck st x h => exact .stuck st x h
    | user f fut h => exact .user f none (.inl rfl)
    | entry f g => exact .stuck _ _ (fun _ h => by cases h)
    | start f => exact .stuck _ _ (fun _ h => by cases h)
    | serving st f susp h =>
      refine .stuck _ _ fun f hu => ?_
      rcases h with rfl | ⟨g, rfl⟩
      · cases hu
      · cases hu
  · exact h

/-- A wake of a task that does not hold its frame. -/
theorem FrameAt.wake {s : Sched Env Susp} {t : TaskId} {x : Option TrapFrame}
    (h : FrameAt (s.states t) (s.futures t) x) (hs : (s.states t).isSome)
    (hn : holdsFrame s t = false) : FrameAt (some .wake) (s.futures t) x := by
  rw [holdsFrame] at hn
  generalize s.states t = st at h hs hn
  generalize s.futures t = fut at h hn
  cases h with
  | gone => cases hs
  | stuck st x h => exact .stuck _ _ (fun _ hu => by cases hu)
  | user f fut h => cases hn
  | entry f g => cases hn
  | start f => exact .start f
  | serving st f susp h => exact .serving _ f susp (.inl rfl)

structure Inv (w : Watched Env Susp) : Prop where
  frame : ∀ t, FrameAt (w.s.states t) (w.s.futures t) (w.expected t)
  young : ∀ t, w.s.nextId ≤ t → w.s.futures t = none ∧ w.s.states t = none
  running : Running w

/-- The CPU is in user mode with the frame that the current task is owed, and
neither a timer interrupt nor a system call finds it in another state. -/
def Returns (w : Watched Env Susp) : Prop :=
  w.s.mode = .user →
    ∃ t, w.s.current = some t ∧ w.s.states t = some (.user w.s.frame) ∧
      w.expected t = some w.s.frame ∧ ∀ f, (dispatchSyscall w.s f).isSome

section step

variable {k : Kernel Env Susp Input} {w w' : Watched Env Susp}

theorem Inv.lt_nextId (h : Inv w) {t : TaskId} (ht : w.s.futures t ≠ none) : t < w.s.nextId := by
  by_contra hlt
  exact ht (h.young t (Nat.le_of_not_lt hlt)).1

/-- The task whose call is served has given its frame to its future. -/
theorem Inv.serving (h : Inv w) {id : TaskId} {f : TrapFrame} {call : Call Susp}
    (hf : Serving w.s id f call) (hs : (w.s.states id).isSome) :
    w.s.futures id ≠ none ∧ w.expected id = some f ∧
      (w.s.states id = some .wake ∨ ∃ g, w.s.states id = some (.syscallEntry g)) := by
  have hid := h.frame id
  generalize w.expected id = x at hid
  cases hf with
  | entry g hf hst =>
    rw [hf, hst] at hid
    cases hid
    exact ⟨by rw [hf]; exact Option.some_ne_none _, rfl, .inr ⟨f, hst⟩⟩
  | resumed susp hf =>
    refine ⟨by rw [hf]; exact Option.some_ne_none _, ?_⟩
    rw [hf] at hid
    generalize w.s.states id = st at hid hs
    cases hid with
    | gone => cases hs
    | user f fut h =>
      rcases h with h | ⟨g, h⟩
      · cases h
      · cases h
    | serving st f susp h =>
      refine ⟨rfl, ?_⟩
      rcases h with rfl | ⟨g, rfl⟩
      · exact .inl rfl
      · exact .inr ⟨g, rfl⟩

/-- The frame of the task whose call has just been served. -/
theorem frameAt_served (h : Inv w) {id : TaskId} {f : TrapFrame} {call : Call Susp}
    {e : Effect Env Susp} {s' : Sched Env Susp} (hf : Serving w.s id f call)
    (hs : (w.s.states id).isSome) (hd : dispatch w.s id f e = some s') :
    FrameAt (s'.states id) (s'.futures id)
      (((e.obs w.s id).foldl observe { w with s := s' }).expected id) := by
  obtain ⟨hne, hexp, hst⟩ := h.serving hf hs
  have hid : id ≠ w.s.nextId := Nat.ne_of_lt (h.lt_nextId hne)
  obtain ⟨hfut, hstate⟩ := applyEffect_task (e := e) hid
  obtain ⟨u, ho, rfl⟩ | ⟨susp, ho, rfl⟩ := dispatch_cases hd
  · rw [observe_obs_ready ho hid]
    simp only [setFuture, Function.update_self, hexp, Option.map_some]
    refine .user _ _ ?_
    cases (applyEffect w.s e).futures id with
    | none => exact .inl rfl
    | some fut => exact .inr ⟨_, rfl⟩
  · rw [observe_obs_pending ho hid]
    simp only [setFuture, Function.update_self, hexp]
    have hkernel : ∀ st, (applyEffect w.s e).states id = some st →
        st = .wake ∨ ∃ g, st = .syscallEntry g := by
      intro st hst'
      rw [hst'] at hstate
      rcases hstate with h | h | ⟨-, -, h⟩
      · cases h
      · rw [← h] at hst
        rcases hst with h | ⟨g, h⟩
        · cases h
          exact .inl rfl
        · cases h
          exact .inr ⟨g, rfl⟩
      · cases h
        exact .inl rfl
    cases hst' : (applyEffect w.s e).states id with
    | none => exact .gone _ _
    | some st =>
      have hk := hkernel st hst'
      cases (applyEffect w.s e).futures id with
      | none =>
        refine .stuck _ _ fun g hu => ?_
        subst hu
        rcases hk with h | ⟨_, h⟩
        · cases h
        · cases h
      | some fut => exact .serving st f susp hk

/-- Serving a system call keeps the frame of every task in place. -/
theorem frameAt_dispatch (h : Inv w) {id : TaskId} {f : TrapFrame} {call : Call Susp}
    {e : Effect Env Susp} {s' : Sched Env Susp} (hf : Serving w.s id f call)
    (hs : (w.s.states id).isSome) (hw : ∀ x ∈ e.wakes, x ≠ id → holdsFrame w.s x = false)
    (hd : dispatch w.s id f e = some s') (t : TaskId) :
    FrameAt (s'.states t) (s'.futures t)
      (((e.obs w.s id).foldl observe { w with s := s' }).expected t) := by
  have hlt := h.lt_nextId (h.serving hf hs).1
  by_cases hid : t = id
  · subst hid
    exact frameAt_served h hf hs hd
  obtain ⟨hfut, hst⟩ := dispatch_other hd hid
  rw [hfut, hst]
  by_cases hn : t = w.s.nextId
  · subst hn
    obtain ⟨hnf, hns⟩ := h.young w.s.nextId (Nat.le_refl _)
    rcases applyEffect_new (e := e) hns hnf with ⟨h₁, -⟩ | ⟨c, g, hsp, h₁, h₂⟩
    · rw [h₁]
      exact .gone _ _
    · rw [h₁, h₂, observe_obs_new hid hsp]
      exact .start g
  · rw [observe_obs_other hid hn]
    obtain ⟨hfut', hst'⟩ := applyEffect_task (e := e) hn
    rcases hst' with h₁ | h₁ | ⟨hmem, hsome, h₁⟩
    · exact (h.frame t).lose (.inl h₁) hfut'
    · exact (h.frame t).lose (.inr h₁) hfut'
    · rw [h₁]
      exact ((h.frame t).wake hsome (hw t hmem hid)).lose (.inr rfl) hfut'

theorem inv_dispatch (h : Inv w) (hm : w.s.mode ≠ .user) {id : TaskId} {f : TrapFrame}
    {call : Call Susp} {e : Effect Env Susp} {s' : Sched Env Susp} (hf : Serving w.s id f call)
    (hs : (w.s.states id).isSome) (hw : ∀ x ∈ e.wakes, x ≠ id → holdsFrame w.s x = false)
    (hd : dispatch w.s id f e = some s') :
    Inv ((e.obs w.s id).foldl observe { w with s := s' }) where
  frame t := by
    rw [observe_s]
    exact frameAt_dispatch h hf hs hw hd t
  young t ht := by
    obtain ⟨-, -, -, hnext, -⟩ := dispatch_fields hd
    rw [observe_s] at ht ⊢
    simp only [hnext] at ht
    have hle : w.s.nextId ≤ t := Nat.le_trans (Nat.le_add_right _ _) ht
    have hlt := h.lt_nextId (h.serving hf hs).1
    have hid : t ≠ id := Nat.ne_of_gt (Nat.lt_of_lt_of_le hlt hle)
    obtain ⟨hfut, hst⟩ := dispatch_other hd hid
    show s'.futures t = none ∧ s'.states t = none
    rw [hfut, hst]
    obtain ⟨hyf, hys⟩ := h.young t hle
    by_cases hn : t = w.s.nextId
    · subst hn
      rcases applyEffect_new (e := e) hys hyf with ⟨h₁, h₂⟩ | ⟨c, g, hsp, -⟩
      · exact ⟨h₂, h₁⟩
      · rw [hsp] at ht
        exact absurd ht (Nat.not_succ_le_self _)
    · obtain ⟨hfut', hst'⟩ := applyEffect_task (e := e) hn
      rw [hyf, or_self] at hfut'
      rw [hys] at hst'
      rcases hst' with h₁ | h₁ | ⟨-, h₁, -⟩
      · exact ⟨hfut', h₁⟩
      · exact ⟨hfut', h₁⟩
      · cases h₁
  running hu := by
    rw [observe_s] at hu
    exact absurd ((dispatch_fields hd).1.symm.trans hu) hm

theorem inv_initial (env : Env) (ctx : Ctx) (f : TrapFrame) :
    Inv (initial env ctx f : Watched Env Susp) where
  frame t := by
    by_cases ht : t = 1
    · subst ht
      exact .start f
    · have hs : (initial env ctx f : Watched Env Susp).s.states t = none := by
        simp [initial, Function.update_of_ne ht]
      rw [hs]
      exact .gone _ _
  young t ht := by
    have hne : t ≠ 1 := Nat.ne_of_gt ht
    simp [initial, Function.update_of_ne hne]
  running hm := by cases hm

theorem inv_left (h : Inv w) {t : TaskId} {frame : TrapFrame} {st : TaskState}
    (hs : w.s.states t = some (.user w.s.frame)) (hst : st = .user frame ∨ st = .syscallEntry frame) :
    Inv (leave w t frame st) where
  frame x := by
    by_cases hx : x = t
    · subst hx
      have hok := h.frame x
      simp only [leave, Function.update_self]
      rw [hs] at hok
      generalize w.s.futures x = fut at hok
      generalize w.expected x = y at hok
      cases hok with
      | stuck st y h => exact absurd rfl (h _)
      | user f fut h =>
        rcases hst with rfl | rfl
        · exact .user frame fut h
        · rcases h with rfl | ⟨g, rfl⟩
          · exact .stuck _ _ (fun _ hu => by cases hu)
          · exact .entry frame g
      | serving st f susp h =>
        rcases h with h | ⟨_, h⟩
        · cases h
        · cases h
    · have h₁ : (leave w t frame st).s.states x = w.s.states x := Function.update_of_ne hx _ _
      have h₂ : (leave w t frame st).expected x = w.expected x := Function.update_of_ne hx _ _
      rw [h₁, h₂]
      exact h.frame x
  young x hx := by
    have hne : x ≠ t := by
      rintro rfl
      have hnone := (h.young x hx).2
      rw [hs] at hnone
      cases hnone
    have h₁ : (leave w t frame st).s.states x = w.s.states x := Function.update_of_ne hne _ _
    rw [h₁]
    exact h.young x hx
  running hm := by cases hm

theorem inv_run (h : Inv w) (hm : w.s.mode ≠ .user) {id : TaskId} {f : TrapFrame}
    {s' : Sched Env Susp} (hf : w.s.futures id = some (.start f)) (hs : (w.s.states id).isSome)
    (hr : TaskRun.run w.s id f = some s') : Inv { w with s := s' } := by
  have heq := taskRun_run hr
  subst heq
  refine ⟨fun t => ?_, fun t ht => ?_, fun hu => absurd hu hm⟩
  · by_cases ht : t = id
    · subst ht
      have hok := h.frame t
      rw [hf] at hok
      simp only [setFuture, Function.update_self, hf, Option.map_some]
      generalize w.expected t = x at hok
      generalize w.s.states t = st at hok hs
      cases hok with
      | gone => cases hs
      | start => exact .user f _ (.inr ⟨_, rfl⟩)
      | user g fut h =>
        rcases h with h | ⟨_, h⟩
        · cases h
        · cases h
    · simp only [setFuture, Function.update_of_ne ht]
      exact h.frame t
  · have hlt := h.lt_nextId (t := id) (by rw [hf]; exact Option.some_ne_none _)
    have hid : t ≠ id := Nat.ne_of_gt (Nat.lt_of_lt_of_le hlt ht)
    simp only [setFuture, Function.update_of_ne hid]
    exact h.young t ht

theorem inv_turn (h : Inv w) {input : Input} (hc : Spares k w (.turn input))
    {s' : Sched Env Susp} {obs : List Obs} (ht : turn k w.s input = some (s', obs)) :
    Inv (obs.foldl observe { w with s := s' }) := by
  obtain ⟨id, ctx, -, ⟨f, hst, rfl, rfl⟩ | ⟨hsome, hp, hnext⟩⟩ := turn_cases ht
  · exact ⟨h.frame, h.young, fun _ => ⟨id, rfl, hst⟩⟩
  · have hin : Inv { w with s := enter w.s id ctx } := ⟨h.frame, h.young, fun hu => by cases hu⟩
    have hmode : (enter w.s id ctx).mode ≠ .user := by simp [enter]
    cases hp with
    | run f hf hr => exact inv_run hin hmode hf hsome hr
    | idle hs =>
      subst hs
      exact hin
    | serve f call e hf he hd =>
      rw [Spares, served_eq (hnext f call hf.of_enter) he] at hc
      exact inv_dispatch hin hmode hf hsome hc hd

theorem inv_step (h : Inv w) {e : Event Input} (hc : Spares k w e) (hs : step k w e = some w') :
    Inv w' := by
  obtain ⟨t, frame, st, -, -, hst, hor, rfl⟩ | ⟨code, rfl, rfl⟩ | ⟨input, s', obs, rfl, ht, rfl⟩ :=
    step_cases h.running hs
  · exact inv_left h hst hor
  · exact ⟨h.frame, h.young, h.running⟩
  · exact inv_turn h hc ht

theorem Inv.returns (h : Inv w) : Returns w := by
  intro hm
  obtain ⟨t, hcur, hst⟩ := h.running hm
  refine ⟨t, hcur, hst, ?_, fun f => ?_⟩
  · have hok := h.frame t
    rw [hst] at hok
    generalize w.s.futures t = fut at hok
    generalize w.expected t = x at hok
    cases hok with
    | stuck st x h => exact absurd rfl (h _)
    | user f fut h => rfl
    | serving st f susp h =>
      rcases h with h | ⟨_, h⟩
      · cases h
      · cases h
  · rw [dispatchSyscall_user hcur hst]
    rfl

end step

/-- In every run of any number of tasks under any system calls, in which no
waker is invoked on a task that holds its frame, user mode is entered with
the frame that the current task is owed. -/
theorem switch_returns (k : Kernel Env Susp Input) (env : Env) (ctx : Ctx) (f : TrapFrame)
    (events : List (Event Input)) (w : Watched Env Susp)
    (hc : Along (step k) (Spares k) (initial env ctx f) events)
    (hr : run (step k) (initial env ctx f) events = some w) : Returns w :=
  (invariant_along (fun _ _ _ h hc hs => inv_step h hc hs) (inv_initial env ctx f) hc hr).returns

/-- The first task spawns a second one, both are interrupted and make calls. -/
def twoTasksRun : List (Event Syscall.Input) :=
  [.turn {}, .turn {}, .syscall (Syscall.callFrame 9 0 0 0), .turn {}, .turn {},
    .syscall (Syscall.callFrame 10 2 0 0), .turn {}, .turn {}, .turn {},
    .timer (Syscall.callFrame 3 4 5 6), .turn {}, .syscall (Syscall.callFrame 7 0 0 0), .turn {},
    .timer (Syscall.callFrame 1 2 3 4), .turn {}, .turn {}]

theorem switch_returns_twoTasks :
    ∃ w, run (step Syscall.kernel) Syscall.oneTask twoTasksRun = some w ∧ w.s.mode = .user ∧
      w.s.current = some 1 ∧ Returns w := by
  obtain ⟨w, hrun, hw⟩ := exists_of_any (p := fun w => w.s.mode = .user ∧ w.s.current = some 1)
    (show (run (step Syscall.kernel) Syscall.oneTask twoTasksRun).any _ = true by decide)
  obtain ⟨hmode, hcur⟩ := of_decide_eq_true hw
  exact ⟨w, hrun, hmode, hcur, switch_returns _ _ _ _ twoTasksRun w (by decide) hrun⟩

end Crabos.Task
