import Mathlib
import Crabos.Lib.Run

/-!
# Tasks and the scheduler (`kernel/src/task.rs`, `kernel/src/interrupt.rs`)

A task is user code and a future that serves its system calls. `switch` saves
the interrupted frame, then polls the futures of tasks that wait in the kernel
until it meets a task that can go back to user mode. One turn of its loop is
one step here, so any order of timer interrupts, system calls and polls is a
list of events. What a system call does is a parameter: the scheduler only
sees its effect on page context, tasks and wakers. `none` is a panic.
-/
namespace Crabos.Task

open Crabos.Run

structure Registers where
  r15 : UInt64 := 0
  r14 : UInt64 := 0
  r13 : UInt64 := 0
  r12 : UInt64 := 0
  r11 : UInt64 := 0
  r10 : UInt64 := 0
  r9 : UInt64 := 0
  r8 : UInt64 := 0
  rdi : UInt64 := 0
  rsi : UInt64 := 0
  rbp : UInt64 := 0
  rbx : UInt64 := 0
  rdx : UInt64 := 0
  rcx : UInt64 := 0
  rax : UInt64 := 0
  deriving DecidableEq

structure TrapFrame where
  regs : Registers
  interruptVector : UInt64
  errorCode : UInt64
  rip : UInt64
  cs : UInt64
  rflags : UInt64
  rsp : UInt64
  ss : UInt64
  deriving DecidableEq

def SEG_UCODE : UInt64 := 0x1b

def SEG_UDATA : UInt64 := 0x23

def INTERRUPT_FLAG : UInt64 := 0x200

def TrapFrame.new (rip rsp : UInt64) : TrapFrame :=
  ⟨{}, 0, 0, rip, SEG_UCODE, INTERRUPT_FLAG, rsp, SEG_UDATA⟩

/-- The frame with the result of a system call in `rax`. -/
def TrapFrame.withRax (f : TrapFrame) (u : UInt64) : TrapFrame :=
  { f with regs := { f.regs with rax := u } }

abbrev TaskId := Nat

/-- A page context, named by the physical page of its top level table. -/
abbrev Ctx := Nat

inductive TaskState where
  | syscallEntry (f : TrapFrame)
  | wake
  | sleep
  | user (f : TrapFrame)
  deriving DecidableEq

/-- Where the future of a task stands: before its first `run`, in
`TaskResume`, or inside `syscall::dispatch` with what the call keeps across
its await. The frame is `TaskRun::trap_frame`. -/
inductive TaskFuture (Susp : Type) where
  | start (f : TrapFrame)
  | resume (f : TrapFrame)
  | dispatch (f : TrapFrame) (susp : Susp)

/-- The CPU runs user code, or the loop of `switch` with `previous_task_id`. -/
inductive Mode where
  | user
  | kernel (prev : Option TaskId)
  deriving DecidableEq

/-- The statics of the scheduler and the CPU; `tasks` is `TASKS` in the order
of its keys, `frame` the frame that `switch` was last left with. -/
structure Sched (Env Susp : Type) where
  tasks : List (TaskId × Ctx)
  states : TaskId → Option TaskState
  futures : TaskId → Option (TaskFuture Susp)
  current : Option TaskId
  cr3 : Ctx
  nextId : TaskId
  env : Env
  mode : Mode
  frame : TrapFrame

inductive Call (Susp : Type) where
  | entry
  | resumed (susp : Susp)

inductive Outcome (Susp : Type) where
  | ready (result : UInt64)
  | pending (susp : Susp)

/-- The entries of the three tables that the failing insertions of a `spawn`
and its removals leave in place: `BTreeMap::insert` may lose some. -/
structure Kept where
  tasks : TaskId → Bool
  states : TaskId → Bool
  futures : TaskId → Bool

/-- What serving a system call does in one poll: the page context it loads,
the task it spawns (or fails to) and the wakers it invokes. -/
structure Effect (Env Susp : Type) where
  env : Env
  setCtx : Option Ctx := none
  spawned : Option (Ctx × TrapFrame × Option Kept) := none
  wakes : List TaskId := []
  outcome : Outcome Susp

/-- What a system call can read: the current task, its entry of `TASKS`, `CR3`. -/
structure View (Env : Type) where
  task : TaskId
  ctx : Ctx
  cr3 : Ctx
  env : Env

/-- The kernel above the scheduler. `Input` is what the allocator and the
devices answer during a poll. -/
structure Kernel (Env Susp Input : Type) where
  serve : View Env → TrapFrame → Call Susp → Input → Option (Effect Env Susp)
  keyboard : Env → UInt8 → Env

/-- What can be seen of a step from outside. -/
inductive Obs where
  | left (t : TaskId) (f : TrapFrame)
  | result (t : TaskId) (u : UInt64)
  | spawned (t : TaskId) (f : TrapFrame)
  | setCtx (t : TaskId) (c : Ctx)

variable {Env Susp Input : Type}

/-- `save_current_task`, and the loop of `switch` begins. -/
def switch (s : Sched Env Susp) (frame : TrapFrame) : Option (Sched Env Susp) :=
  match s.current with
  | none => some { s with mode := .kernel none }
  | some t =>
    match s.states t with
    | none => none
    | some (.user _) =>
      some { s with
        states := Function.update s.states t (some (.user frame))
        mode := .kernel (some t) }
    | some _ => some { s with mode := .kernel (some t) }

def dispatchSyscall (s : Sched Env Susp) (frame : TrapFrame) : Option (Sched Env Susp) :=
  match s.current with
  | none => none
  | some t =>
    match s.states t with
    | some (.user _) =>
      switch { s with states := Function.update s.states t (some (.syscallEntry frame)) } frame
    | _ => none

/-- The tasks after the previous one, then those up to it. -/
def nextTasks (tasks : List (TaskId × Ctx)) (prev : Option TaskId) : List (TaskId × Ctx) :=
  tasks.filter (fun x => prev.getD 0 < x.1) ++ tasks.filter (fun x => x.1 ≤ prev.getD 0)

def findNextWorkItem (states : TaskId → Option TaskState) :
    List (TaskId × Ctx) → Option (TaskId × Ctx × TaskState)
  | [] => none
  | (id, ctx) :: rest =>
    match states id with
    | none => none
    | some .sleep => findNextWorkItem states rest
    | some state => some (id, ctx, state)

/-- The future of a task goes on, if it is still in its table. -/
def setFuture (s : Sched Env Susp) (id : TaskId) (fut : TaskFuture Susp) : Sched Env Susp :=
  { s with futures := Function.update s.futures id ((s.futures id).map fun _ => fut) }

/-- `TaskRun::run`; the poll of the new `TaskResume` finds the task in user state. -/
def TaskRun.run (s : Sched Env Susp) (id : TaskId) (f : TrapFrame) : Option (Sched Env Susp) :=
  match s.states id with
  | none => none
  | some _ =>
    some (setFuture { s with states := Function.update s.states id (some (.user f)) } id (.resume f))

/-- `task_waker_wake` overwrites whatever state the task is in. -/
def taskWakerWake (s : Sched Env Susp) (id : TaskId) : Sched Env Susp :=
  if (s.states id).isSome then { s with states := Function.update s.states id (some .wake) } else s

/-- A task whose tables have no room is rolled back; its id stays used. The
new id is the largest key of the tables. -/
def spawn (s : Sched Env Susp) (ctx : Ctx) (f : TrapFrame) : Option Kept → Sched Env Susp
  | none =>
    { s with
      tasks := s.tasks ++ [(s.nextId, ctx)]
      states := Function.update s.states s.nextId (some .wake)
      futures := Function.update s.futures s.nextId (some (.start f))
      nextId := s.nextId + 1 }
  | some kept =>
    { s with
      tasks := s.tasks.filter fun x => kept.tasks x.1
      states := fun t => if kept.states t then s.states t else none
      futures := fun t => if kept.futures t then s.futures t else none
      nextId := s.nextId + 1 }

/-- What a poll of the future of a task comes to. -/
inductive Poll (Susp : Type) where
  | run (f : TrapFrame)
  | idle
  | serve (f : TrapFrame) (call : Call Susp)

def pollFuture (s : Sched Env Susp) (id : TaskId) : Option (Poll Susp) :=
  match s.futures id with
  | none => none
  | some (.start f) => some (.run f)
  | some (.resume _) =>
    match s.states id with
    | some (.syscallEntry f) => some (.serve f .entry)
    | some .wake => some .idle
    | some (.user _) => some .idle
    | _ => none
  | some (.dispatch f susp) => some (.serve f (.resumed susp))

/-- The effect of a system call on the kernel state, before its outcome. -/
def applyEffect (s : Sched Env Susp) (e : Effect Env Susp) : Sched Env Susp :=
  let woken := e.wakes.foldl taskWakerWake { s with env := e.env, cr3 := e.setCtx.getD s.cr3 }
  match e.spawned with
  | none => woken
  | some (ctx, f, failed) => spawn woken ctx f failed

/-- `syscall::dispatch` within one poll: a finished call goes round the loop
of `run_loop` and back to user state, an unfinished one stays in the future. -/
def dispatch (s : Sched Env Susp) (id : TaskId) (f : TrapFrame) (e : Effect Env Susp) :
    Option (Sched Env Susp) :=
  match e.outcome with
  | .ready u => TaskRun.run (applyEffect s e) id (f.withRax u)
  | .pending susp => some (setFuture (applyEffect s e) id (.dispatch f susp))

def Effect.obs (e : Effect Env Susp) (s : Sched Env Susp) (id : TaskId) : List Obs :=
  (match e.setCtx with
    | some c => [.setCtx id c]
    | none => []) ++
  (match e.spawned with
    | some (_, f, none) => [.spawned s.nextId f]
    | _ => []) ++
  match e.outcome with
  | .ready u => [.result id u]
  | .pending _ => []

/-- The poll of a task that waits in the kernel, its page context loaded. -/
def poll (k : Kernel Env Susp Input) (s : Sched Env Susp) (id : TaskId) (ctx : Ctx)
    (input : Input) : Option (Sched Env Susp × List Obs) :=
  match pollFuture s id with
  | none => none
  | some (.run f) => (TaskRun.run s id f).map fun t => (t, [])
  | some .idle => some (s, [])
  | some (.serve f call) =>
    (k.serve ⟨id, ctx, s.cr3, s.env⟩ f call input).bind fun e =>
      (dispatch s id f e).map fun t => (t, e.obs s id)

/-- One turn of the loop of `switch`. -/
def turn (k : Kernel Env Susp Input) (s : Sched Env Susp) (input : Input) :
    Option (Sched Env Susp × List Obs) :=
  match s.mode with
  | .user => none
  | .kernel prev =>
    match findNextWorkItem s.states (nextTasks s.tasks prev) with
    | none => none
    | some (id, ctx, .user f) =>
      some ({ s with current := some id, cr3 := ctx, mode := .user, frame := f }, [])
    | some (id, ctx, _) =>
      poll k { s with current := some id, cr3 := ctx, mode := .kernel (some id) } id ctx input

/-- Timer interrupts and system calls come from user mode with the frame of
the interrupted code; keyboard interrupts may come at any time. -/
inductive Event (Input : Type) where
  | timer (frame : TrapFrame)
  | syscall (frame : TrapFrame)
  | keyboard (scancode : UInt8)
  | turn (input : Input)

def exec (k : Kernel Env Susp Input) (s : Sched Env Susp) :
    Event Input → Option (Sched Env Susp × List Obs)
  | .timer frame =>
    if s.mode = .user then (switch s frame).map fun t => (t, s.current.toList.map fun c => .left c frame)
    else none
  | .syscall frame =>
    if s.mode = .user then
      (dispatchSyscall s frame).map fun t => (t, s.current.toList.map fun c => .left c frame)
    else none
  | .keyboard code => some ({ s with env := k.keyboard s.env code }, [])
  | .turn input => turn k s input

/-- The scheduler under observation: for each task the frame it has to be
resumed with, and the page context it asked for last. -/
structure Watched (Env Susp : Type) where
  s : Sched Env Susp
  expected : TaskId → Option TrapFrame
  asked : TaskId → Option Ctx

def observe (w : Watched Env Susp) : Obs → Watched Env Susp
  | .left t f => { w with expected := Function.update w.expected t (some f) }
  | .result t u =>
    { w with expected := Function.update w.expected t ((w.expected t).map fun f => f.withRax u) }
  | .spawned t f => { w with expected := Function.update w.expected t (some f) }
  | .setCtx t c => { w with asked := Function.update w.asked t (some c) }

def step (k : Kernel Env Susp Input) (w : Watched Env Susp) (e : Event Input) :
    Option (Watched Env Susp) :=
  (exec k w.s e).map fun (s, obs) => obs.foldl observe { w with s := s }

/-- `start` is called with one task spawned and no current task. -/
def initial (env : Env) (ctx : Ctx) (f : TrapFrame) : Watched Env Susp where
  s :=
    { tasks := [(1, ctx)]
      states := Function.update (fun _ => none) 1 (some .wake)
      futures := Function.update (fun _ => none) 1 (some (.start f))
      current := none
      cr3 := ctx
      nextId := 2
      env := env
      mode := .kernel none
      frame := TrapFrame.new 0 0 }
  expected := Function.update (fun _ => none) 1 (some f)
  asked := fun _ => none

end Crabos.Task
