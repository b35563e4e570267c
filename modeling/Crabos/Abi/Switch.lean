import Crabos.Abi.Trap
import Crabos.Task.Frames

/-!
# Task switches on the processor

The scheduler together with the processor that it runs on. User code does
what it likes to its registers; it is interrupted by the timer, by the keyboard
or by a system call, and the kernel returns to the frame that `switch` has left
on the stack. What each task is owed is kept in terms of the processor alone.
-/
namespace Crabos.Abi

open Crabos.Run Crabos.Stack
open Crabos.Task (TaskId TrapFrame Kernel Watched Obs Event Spares)

variable {Env Susp Input : Type}

/-- The processor, the scheduler, and for each task the context in which its
code has to go on. -/
structure Machine (Env Susp : Type) where
  w : Watched Env Susp
  cpu : Cpu
  owed : TaskId → Option Context

/-- User code runs for a while, or is interrupted; the kernel goes once round
the loop of `switch`. `left` is what kernel code leaves behind in registers and
in memory besides the frame. -/
inductive MachineEvent (Input : Type) where
  | user (cpu : Cpu)
  | timer
  | syscall
  | keyboard (scancode : UInt8) (left : Cpu)
  | turn (input : Input) (left : Cpu)

/-- Where an interrupt enters the kernel: `rsp0` of the TSS, and the address of the handler. -/
structure Gate where
  rsp0 : UInt64
  handler : UInt64

def IRQ_BASE : UInt64 := 0x20

def SYSCALL : UInt64 := 0x7f

def Context.withRax (c : Context) (u : UInt64) : Context := { c with regs := { c.regs with rax := u } }

/-- What an observation says about the contexts, when the code of context `c` is interrupted. -/
def watch (c : Context) (owed : TaskId → Option Context) : Obs → TaskId → Option Context
  | .left t _ => Function.update owed t (some c)
  | .result t u => Function.update owed t ((owed t).map fun x => x.withRax u)
  | .spawned t f => Function.update owed t (some (context f))
  | .setCtx _ _ => owed

/-- A step of the scheduler, after which the processor is `cpu`. -/
def follow (k : Kernel Env Susp Input) (m : Machine Env Susp) (e : Event Input)
    (cpu : Watched Env Susp → Cpu) : Option (Machine Env Susp) :=
  (Task.exec k m.w.s e).map fun (s, obs) =>
    let w := obs.foldl Task.observe { m.w with s := s }
    ⟨w, cpu w, obs.foldl (watch m.cpu.context) m.owed⟩

/-- The frame that `interrupt` gets for the code that runs now. -/
def arrived (e : Cpu) : TrapFrame := frameAt e.mem (e.reg .rdi)

/-- `TrapFrame::origin`: the interrupted code runs in user mode. -/
def fromUser (f : TrapFrame) : Prop := f.cs &&& 3 = 3

instance (f : TrapFrame) : Decidable (fromUser f) := inferInstanceAs (Decidable (_ = _))

def machineStep (k : Kernel Env Susp Input) (g : Gate) (m : Machine Env Susp) :
    MachineEvent Input → Option (Machine Env Susp)
  | .user cpu => if m.w.s.mode = .user then some { m with cpu := cpu } else none
  | .timer =>
    let e := entry m.cpu g.rsp0 g.handler IRQ_BASE
    if fromUser (arrived e) then follow k m (.timer (arrived e)) fun _ => e else none
  | .syscall =>
    let e := entry m.cpu g.rsp0 g.handler SYSCALL
    if fromUser (arrived e) then follow k m (.syscall (arrived e)) fun _ => e else none
  | .keyboard code left =>
    let e := entry m.cpu g.rsp0 g.handler (IRQ_BASE + 1)
    follow k m (.keyboard code) fun _ => exit (handled e left (arrived e))
  | .turn input left => follow k m (.turn input) fun w =>
    -- the frame is copied to where the last one arrived
    if w.s.mode = .user then exit (handled m.cpu left w.s.frame) else m.cpu

/-- `start` has put a frame on the stack, and one task is spawned. -/
def machineInitial (env : Env) (ctx : Task.Ctx) (f : TrapFrame) (cpu : Cpu) : Machine Env Susp :=
  ⟨Task.initial env ctx f, cpu, Function.update (fun _ => none) 1 (some (context f))⟩

/-- No waker is invoked on a task that holds its frame. -/
def MachineSpares (k : Kernel Env Susp Input) (m : Machine Env Susp) : MachineEvent Input → Prop
  | .turn input _ => Spares k m.w (.turn input)
  | _ => True

instance (k : Kernel Env Susp Input) (m : Machine Env Susp) :
    (e : MachineEvent Input) → Decidable (MachineSpares k m e)
  | .turn input _ => inferInstanceAs (Decidable (Spares k m.w (.turn input)))
  | .user _ => inferInstanceAs (Decidable True)
  | .timer => inferInstanceAs (Decidable True)
  | .syscall => inferInstanceAs (Decidable True)
  | .keyboard _ _ => inferInstanceAs (Decidable True)

/-- The frames and the contexts say the same. -/
structure MachineInv (m : Machine Env Susp) : Prop where
  inv : Task.Inv m.w
  owed : ∀ t, m.owed t = (m.w.expected t).map context

section step

variable {k : Kernel Env Susp Input} {g : Gate} {m m' : Machine Env Susp}

theorem arrived_entry (c : Cpu) (g : Gate) (vector : UInt64) :
    arrived (entry c g.rsp0 g.handler vector) = c.trapFrame vector 0 := by
  obtain ⟨hrdi, hframe⟩ := enter_frame c g.rsp0 g.handler vector none
  exact (congrArg _ hrdi).trans hframe

/-- The contexts follow the frames, if the code that is left has the context of its frame. -/
theorem owed_foldl {c : Context} {owed : TaskId → Option Context} {w : Watched Env Susp} {obs : List Obs}
    (hobs : ∀ t f, Obs.left t f ∈ obs → context f = c)
    (howed : ∀ t, owed t = (w.expected t).map context) (t : TaskId) :
    obs.foldl (watch c) owed t = ((obs.foldl Task.observe w).expected t).map context := by
  induction obs generalizing owed w with
  | nil => exact howed t
  | cons o obs ih =>
    apply ih (fun t f h => hobs t f (List.mem_cons_of_mem o h))
    intro x
    cases o with
    | left y f =>
      by_cases hx : x = y
      · subst hx
        simp [watch, Task.observe, hobs x f (by simp)]
      · simp [watch, Task.observe, hx, howed]
    | result y u =>
      by_cases hx : x = y
      · subst hx
        cases hf : w.expected x <;>
          simp [watch, Task.observe, howed, hf, context, Context.withRax, TrapFrame.withRax]
      · simp [watch, Task.observe, hx, howed]
    | spawned y f =>
      by_cases hx : x = y
      · subst hx
        simp [watch, Task.observe]
      · simp [watch, Task.observe, hx, howed]
    | setCtx y ctx => exact howed x

theorem follow_inv {e : Event Input} {cpu : Watched Env Susp → Cpu} (h : MachineInv m)
    (hs : follow k m e cpu = some m') (hc : Spares k m.w e)
    (hobs : ∀ s obs, Task.exec k m.w.s e = some (s, obs) →
      ∀ t f, Obs.left t f ∈ obs → context f = m.cpu.context) : MachineInv m' := by
  rw [follow] at hs
  obtain ⟨⟨s, obs⟩, hexec, rfl⟩ := Option.map_eq_some_iff.mp hs
  refine ⟨Task.inv_step h.inv hc (by rw [Task.step, hexec]; rfl), ?_⟩
  exact owed_foldl (w := { m.w with s := s }) (hobs s obs hexec) h.owed

theorem mem_exec_left {s s' : Task.Sched Env Susp} {e : Event Input} {obs : List Obs}
    (hs : Task.exec k s e = some (s', obs)) {t : TaskId} {f : TrapFrame} (h : Obs.left t f ∈ obs) :
    e = .timer f ∨ e = .syscall f := by
  cases e with
  | timer frame =>
    rw [Task.exec] at hs
    split at hs
    · obtain ⟨_, -, hs⟩ := Option.map_eq_some_iff.mp hs
      cases hs
      simp only [List.mem_map, Obs.left.injEq] at h
      obtain ⟨_, _, _, rfl⟩ := h
      exact .inl rfl
    · cases hs
  | syscall frame =>
    rw [Task.exec] at hs
    split at hs
    · obtain ⟨_, -, hs⟩ := Option.map_eq_some_iff.mp hs
      cases hs
      simp only [List.mem_map, Obs.left.injEq] at h
      obtain ⟨_, _, _, rfl⟩ := h
      exact .inr rfl
    · cases hs
  | keyboard code =>
    cases hs
    cases h
  | turn input =>
    obtain ⟨id, ctx, -, ⟨f', -, rfl, -⟩ | ⟨-, hp, -⟩⟩ := Task.turn_cases hs
    · cases h
    · cases hp with
      | run g hf hr => cases h
      | idle he => cases h
      | serve g call eff hf he hd =>
        simp only [Task.Effect.obs, List.mem_append] at h
        rcases h with (h | h) | h
        · split at h <;> simp at h
        · split at h <;> simp at h
        · split at h <;> simp at h

theorem machineStep_inv (h : MachineInv m) {e : MachineEvent Input} (hc : MachineSpares k m e)
    (hs : machineStep k g m e = some m') : MachineInv m' := by
  cases e with
  | user cpu =>
    rw [machineStep] at hs
    split at hs
    · cases hs
      exact ⟨h.inv, h.owed⟩
    · cases hs
  | timer =>
    rw [machineStep] at hs
    split at hs
    · refine follow_inv h hs trivial fun s obs hexec t f hleft => ?_
      rcases mem_exec_left hexec hleft with he | he
      · rw [← Event.timer.inj he, arrived_entry, context_trapFrame]
      · cases he
    · cases hs
  | syscall =>
    rw [machineStep] at hs
    split at hs
    · refine follow_inv h hs trivial fun s obs hexec t f hleft => ?_
      rcases mem_exec_left hexec hleft with he | he
      · cases he
      · rw [← Event.syscall.inj he, arrived_entry, context_trapFrame]
    · cases hs
  | keyboard code left =>
    rw [machineStep] at hs
    refine follow_inv h hs trivial fun s obs hexec t f hleft => ?_
    rcases mem_exec_left hexec hleft with he | he <;> cases he
  | turn input left =>
    rw [machineStep] at hs
    refine follow_inv h hs hc fun s obs hexec t f hleft => ?_
    rcases mem_exec_left hexec hleft with he | he <;> cases he

theorem machineInv_initial (env : Env) (ctx : Task.Ctx) (f : TrapFrame) (cpu : Cpu) :
    MachineInv (machineInitial env ctx f cpu : Machine Env Susp) := by
  refine ⟨Task.inv_initial env ctx f, fun t => ?_⟩
  by_cases ht : t = 1
  · simp [machineInitial, Task.initial, ht]
  · simp [machineInitial, Task.initial, ht]

/-- The processor when a turn of the loop ends in user mode. -/
theorem turn_cpu {input : Input} {left : Cpu} (hs : machineStep k g m (.turn input left) = some m')
    (hu : m'.w.s.mode = .user) : m'.cpu.context = context m'.w.s.frame := by
  rw [machineStep, follow] at hs
  obtain ⟨⟨s, obs⟩, -, rfl⟩ := Option.map_eq_some_iff.mp hs
  simp only at hu ⊢
  rw [if_pos hu, exit_handled]

/-- A keyboard interrupt is not seen by the code that it interrupts. -/
theorem keyboard_cpu {code : UInt8} {left : Cpu} (hs : machineStep k g m (.keyboard code left) = some m') :
    m'.cpu.context = m.cpu.context := by
  rw [machineStep, follow] at hs
  obtain ⟨⟨s, obs⟩, -, rfl⟩ := Option.map_eq_some_iff.mp hs
  exact (trap_round_trip m.cpu g.rsp0 g.handler (IRQ_BASE + 1) none).2.2 left

end step

/-- In every run of the machine in which no waker is invoked on a task that
holds its frame, the processor enters user mode with exactly the registers,
stack pointer and flags that the code of the current task was interrupted with
(or first spawned with), but for the result of a system call in `rax`; and no
code sees a keyboard interrupt. -/
theorem tasks_keep_their_context (k : Kernel Env Susp Input) (g : Gate) (env : Env) (ctx : Task.Ctx)
    (f : TrapFrame) (cpu : Cpu) (events : List (MachineEvent Input)) (input : Input) (left : Cpu)
    (m : Machine Env Susp)
    (hc : Along (machineStep k g) (MachineSpares k) (machineInitial env ctx f cpu)
      (events ++ [.turn input left]))
    (hr : run (machineStep k g) (machineInitial env ctx f cpu) (events ++ [.turn input left]) = some m)
    (hu : m.w.s.mode = .user) :
    (∃ t, m.w.s.current = some t ∧ m.owed t = some m.cpu.context) ∧
      ∀ m₁ code left m₂, machineStep k g m₁ (.keyboard code left) = some m₂ →
        m₂.cpu.context = m₁.cpu.context := by
  have hinv := invariant_along (fun _ _ _ h hc hs => machineStep_inv h hc hs)
    (machineInv_initial env ctx f cpu) hc hr
  obtain ⟨t, hcur, -, hexp, -⟩ := hinv.inv.returns hu
  rw [run_append] at hr
  obtain ⟨m₀, -, hr⟩ := Option.bind_eq_some_iff.mp hr
  rw [run_cons] at hr
  obtain ⟨m₁, hs, hr⟩ := Option.bind_eq_some_iff.mp hr
  cases hr
  refine ⟨⟨t, hcur, ?_⟩, fun _ _ _ _ => keyboard_cpu⟩
  rw [hinv.owed t, hexp, turn_cpu hs hu]
  rfl

/-- A processor in user mode. -/
def userCpu : Cpu := ⟨fun _ => 7, 0x20000000, 0x10000000, 0x200, Task.SEG_UCODE, Task.SEG_UDATA, fun _ => 0⟩

/-- The first task runs and is interrupted by the timer. -/
def oneSlice : List (MachineEvent Syscall.Input) :=
  [.turn {} userCpu, .turn {} userCpu, .user userCpu, .timer]

def kernelGate : Gate := ⟨0xffff800000100000, 0xffff800000000000⟩

def firstMachine : Machine Syscall.Env Syscall.Susp :=
  machineInitial (Syscall.Env.start (fun _ => 0) (fun _ => []) 1 0) 0 (TrapFrame.new 0x10000000 0) userCpu

theorem tasks_keep_their_context_slice :
    ∃ m, run (machineStep Syscall.kernel kernelGate) firstMachine (oneSlice ++ [.turn {} userCpu]) = some m ∧
      (∃ t, m.w.s.current = some t ∧ m.owed t = some m.cpu.context) ∧
      ∀ m₁ code left m₂, machineStep Syscall.kernel kernelGate m₁ (.keyboard code left) = some m₂ →
        m₂.cpu.context = m₁.cpu.context := by
  obtain ⟨m, hrun, hm⟩ := exists_of_any (p := fun m => m.w.s.mode = .user)
    (show (run (machineStep Syscall.kernel kernelGate) firstMachine
      (oneSlice ++ [.turn {} userCpu])).any _ = true by decide)
  exact ⟨m, hrun, tasks_keep_their_context _ _ _ _ _ _ oneSlice {} userCpu m (by decide) hrun
    (of_decide_eq_true hm)⟩

end Crabos.Abi
