import Crabos.Lib.Maps
import Crabos.Lib.Run
import Crabos.Mem.Phys
import Crabos.Task.Sched

/-!
# The tables of the tasks (`kernel/src/task.rs`)

`TASKS`, `TASK_STATES` and `TASK_FUTURES` are three maps with the same keys.
`spawn` inserts in one after the other, every insertion of a new id can fail, and
a failed `spawn` takes its entries back. Each insertion and each removal is a step of
its own here, and so is each thing that the poll of a future does to the
tables. A future is an opaque value: what it does is chosen by the events.
-/
namespace Crabos.TaskTables

open Crabos.Maps Crabos.Run
open Crabos.Task (TaskId TaskState TrapFrame Ctx)

structure Task (Fs : Type) where
  id : TaskId
  pageCtx : Ctx
  filesystem : Option Fs

/-- The statics; `allocated` counts the increments of `NEXT_TASK_ID`, which
begins at one. -/
structure Statics (Fs Fut : Type) where
  tasks : Map (Task Fs)
  states : Map TaskState
  futures : Map Fut
  current : Option TaskId
  allocated : Nat

inductive Panic where
  | savedNotInStates
  | idNotInStates
  | idNotInFutures
  | currentNotInTasks
  | currentNotInStates
  | runNotInStates
  | resumeNotInStates
  | filesystemNotInTasks
  | noCurrentTask
  | noTaskReady
  | taskFinished
  | syscallFromKernel
  | stateSleep
  | recursiveLock
  deriving DecidableEq, Repr

/-- The panics of an `expect` that an id is in a table. -/
def Panic.missing : Panic → Bool
  | .savedNotInStates | .idNotInStates | .idNotInFutures | .currentNotInTasks
  | .currentNotInStates | .runNotInStates | .resumeNotInStates | .filesystemNotInTasks => true
  | _ => false

variable {Fs Fut : Type}

/-- `fetch_add` on an `AtomicU64`. -/
def allocTaskId (s : Statics Fs Fut) : TaskId × Statics Fs Fut :=
  ((1 + s.allocated) % 2 ^ 64, { s with allocated := s.allocated + 1 })

/-! `spawn` -/

/-- What `spawn` does next; the removals are those of the roll back. -/
inductive Stage where
  | boxNew
  | insertState
  | arcNew
  | insertFuture
  | insertTask
  | removeTask
  | removeFuture
  | removeState
  deriving DecidableEq, Repr

structure Spawn (Fs Fut : Type) where
  task : Task Fs
  future : Fut
  stage : Stage

/-- `spawn` goes on or returns, or panics. -/
inductive Next (Fs Fut : Type) where
  | goOn (sp : Spawn Fs Fut)
  | ret (r : Except MemoryExhausted TaskId)
  | panic (p : Panic)

/-- The next step if the insertion is made, else the roll back. -/
def Spawn.after (sp : Spawn Fs Fut) (ok : Bool) (stage : Stage) : Next Fs Fut :=
  .goOn { sp with stage := if ok then stage else .removeTask }

/-- When `kalloc::alloc` has no block it drops the value, here a boxed future,
which frees a block of its own while the allocator is locked. -/
def spawnStep (s : Statics Fs Fut) (sp : Spawn Fs Fut) (ok : Bool) : Statics Fs Fut × Next Fs Fut :=
  let id := sp.task.id
  match sp.stage with
  | .boxNew => (s, if ok then .goOn { sp with stage := .insertState } else .ret (.error ⟨⟩))
  | .insertState =>
    ({ s with states := tryInsert s.states id .wake ok }, sp.after (fits s.states id ok) .arcNew)
  | .arcNew => (s, if ok then .goOn { sp with stage := .insertFuture } else .panic .recursiveLock)
  | .insertFuture =>
    ({ s with futures := tryInsert s.futures id sp.future ok },
      sp.after (fits s.futures id ok) .insertTask)
  | .insertTask =>
    ({ s with tasks := tryInsert s.tasks id sp.task ok },
      if fits s.tasks id ok then .ret (.ok id) else .goOn { sp with stage := .removeTask })
  | .removeTask => ({ s with tasks := s.tasks.erase id }, .goOn { sp with stage := .removeFuture })
  | .removeFuture =>
    ({ s with futures := s.futures.erase id }, .goOn { sp with stage := .removeState })
  | .removeState => ({ s with states := s.states.erase id }, .ret (.error ⟨⟩))

/-! `switch` -/

def saveCurrentTask (s : Statics Fs Fut) (frame : TrapFrame) :
    Except Panic (Option TaskId × Statics Fs Fut) :=
  match s.current with
  | none => .ok (none, s)
  | some current =>
    match s.states[current]? with
    | none => .error .savedNotInStates
    | some (.user _) => .ok (some current, { s with states := s.states.insert current (.user frame) })
    | some _ => .ok (some current, s)

inductive WorkItem (Fut : Type) where
  | kernel (future : Fut)
  | user (frame : TrapFrame)

def nextTasks (s : Statics Fs Fut) (prev : Option TaskId) : List TaskId :=
  s.tasks.keys.filter (fun id => prev.getD 0 ≤ id ∧ id ≠ prev.getD 0) ++
    s.tasks.keys.filter (fun id => id ≤ prev.getD 0)

/-- The loop of `find_next_work_item`. -/
def findAmong (s : Statics Fs Fut) : List TaskId → Except Panic (TaskId × WorkItem Fut)
  | [] => .error .noTaskReady
  | id :: ids =>
    match s.states[id]? with
    | none => .error .idNotInStates
    | some .sleep => findAmong s ids
    | some (.user frame) => .ok (id, .user frame)
    | some _ =>
      match s.futures[id]? with
      | none => .error .idNotInFutures
      | some future => .ok (id, .kernel future)

def findNextWorkItem (s : Statics Fs Fut) (prev : Option TaskId) :
    Except Panic (TaskId × WorkItem Fut) :=
  findAmong s (nextTasks s prev)

/-- One turn of the loop of `switch`, up to the poll of the future or to the
return to user mode; the page context of the task is loaded. -/
def turn (s : Statics Fs Fut) (prev : Option TaskId) :
    Except Panic (TaskId × WorkItem Fut × Ctx × Statics Fs Fut) :=
  match findNextWorkItem s prev with
  | .error p => .error p
  | .ok (id, item) =>
    match s.tasks[id]? with
    | none => .error .currentNotInTasks
    | some task => .ok (id, item, task.pageCtx, { s with current := some id })

def dispatchSyscall (s : Statics Fs Fut) (frame : TrapFrame) :
    Except Panic (Option TaskId × Statics Fs Fut) :=
  match s.current with
  | none => .error .noCurrentTask
  | some current =>
    match s.states[current]? with
    | none => .error .currentNotInStates
    | some (.user _) =>
      saveCurrentTask { s with states := s.states.insert current (.syscallEntry frame) } frame
    | some _ => .error .syscallFromKernel

def taskWakerWake (s : Statics Fs Fut) (id : TaskId) : Statics Fs Fut :=
  match s.states[id]? with
  | none => s
  | some _ => { s with states := s.states.insert id .wake }

/-- `TaskRun::run` -/
def runTask (s : Statics Fs Fut) (id : TaskId) (frame : TrapFrame) : Except Panic (Statics Fs Fut) :=
  match s.states[id]? with
  | none => .error .runNotInStates
  | some _ => .ok { s with states := s.states.insert id (.user frame) }

/-- `TaskResume::poll`; the frame of the trap if there is one. -/
def resumePoll (s : Statics Fs Fut) (id : TaskId) : Except Panic (Option TrapFrame) :=
  match s.states[id]? with
  | none => .error .resumeNotInStates
  | some (.syscallEntry frame) => .ok (some frame)
  | some .wake => .ok none
  | some (.user _) => .ok none
  | some .sleep => .error .stateSleep

def setFilesystem (s : Statics Fs Fut) (fs : Option Fs) : Except Panic (Statics Fs Fut) :=
  match s.current with
  | none => .error .noCurrentTask
  | some current =>
    match s.tasks[current]? with
    | none => .error .filesystemNotInTasks
    | some task => .ok { s with tasks := s.tasks.insert current { task with filesystem := fs } }

/-! Runs. -/

/-- `main` before `start`, user code, the loop of `switch` with
`previous_task_id`, and the poll of the future of a task. -/
inductive Mode where
  | boot
  | user
  | loop (prev : Option TaskId)
  | poll (id : TaskId)
  deriving DecidableEq, Repr

/-- `returned` is what the last `spawn` returned. -/
structure Machine (Fs Fut : Type) where
  s : Statics Fs Fut
  mode : Mode
  spawn : Option (Spawn Fs Fut)
  returned : Option (Except MemoryExhausted TaskId)

inductive Act (Fs Fut : Type) where
  | spawn (pageCtx : Ctx) (filesystem : Option Fs) (future : Fut)
  | spawnStep (ok : Bool)
  | start (frame : TrapFrame)
  | timer (frame : TrapFrame)
  | syscall (frame : TrapFrame)
  | turn
  | run (frame : TrapFrame)
  | resume
  | setFilesystem (fs : Option Fs)
  | wake (id : TaskId)
  | pending
  | ready

def Act.isSpawn : Act Fs Fut → Bool
  | .spawn _ _ _ => true
  | _ => false

/-- `switch` was entered from here. -/
def Machine.enter (m : Machine Fs Fut) :
    Except Panic (Option TaskId × Statics Fs Fut) → Except Panic (Machine Fs Fut) :=
  Except.map fun (prev, s) => { m with s := s, mode := .loop prev }

/-- `none` where the kernel cannot do this now. Interrupts in kernel mode do
not switch tasks, so a `spawn` and a poll are not interrupted by others. -/
def exec (m : Machine Fs Fut) (a : Act Fs Fut) : Option (Except Panic (Machine Fs Fut)) :=
  match m.spawn, a with
  | some sp, .spawnStep ok =>
    match spawnStep m.s sp ok with
    | (s, .goOn sp) => some (.ok { m with s := s, spawn := some sp })
    | (s, .ret r) => some (.ok { m with s := s, spawn := none, returned := some r })
    | (_, .panic p) => some (.error p)
  | some _, _ => none
  | none, a =>
    match m.mode, a with
    | .boot, .spawn pageCtx filesystem future | .poll _, .spawn pageCtx filesystem future =>
      let (id, s) := allocTaskId m.s
      some (.ok { m with s := s, spawn := some ⟨⟨id, pageCtx, filesystem⟩, future, .boxNew⟩ })
    | .boot, .start frame => some (m.enter (saveCurrentTask m.s frame))
    | .user, .timer frame => some (m.enter (saveCurrentTask m.s frame))
    | .user, .syscall frame => some (m.enter (dispatchSyscall m.s frame))
    | .loop prev, .turn => some ((turn m.s prev).map fun
      | (id, .kernel _, _, s) => { m with s := s, mode := .poll id }
      | (_, .user _, _, s) => { m with s := s, mode := .user })
    | .poll id, .run frame => some ((runTask m.s id frame).map fun s => { m with s := s })
    | .poll id, .resume => some ((resumePoll m.s id).map fun _ => m)
    | .poll _, .setFilesystem fs => some ((setFilesystem m.s fs).map fun s => { m with s := s })
    | .poll id, .pending => some (.ok { m with mode := .loop (some id) })
    | .poll _, .ready => some (.error .taskFinished)
    | _, .wake id => some (.ok { m with s := taskWakerWake m.s id })
    | _, _ => none

def step (m : Machine Fs Fut) (a : Act Fs Fut) : Option (Machine Fs Fut) :=
  (exec m a).bind Except.toOption

def initial (Fs Fut : Type) : Machine Fs Fut := ⟨⟨∅, ∅, ∅, none, 0⟩, .boot, none, none⟩

end Crabos.TaskTables
