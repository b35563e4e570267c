import Crabos.Lib.Stack
import Crabos.Task.Sched

/-!
# Entry and exit of interrupts (`kernel/src/isrs.asm`, `kernel/src/interrupt.rs`)

The instructions from the interrupt gate to the call of `interrupt`, and from
its return to `iretq`. What they leave on the stack is a `TrapFrame`, field by
field. Memory is seen in words of eight bytes, which is the size of every
access here.
-/
namespace Crabos.Abi

open Crabos.Stack
open Crabos.Task (TrapFrame Registers)

inductive Reg where
  | rax | rcx | rdx | rbx | rbp | rsi | rdi
  | r8 | r9 | r10 | r11 | r12 | r13 | r14 | r15
  deriving DecidableEq, Repr

structure Cpu where
  reg : Reg → UInt64
  rsp : UInt64
  rip : UInt64
  rflags : UInt64
  cs : UInt64
  ss : UInt64
  mem : Memory

inductive Instr where
  | push (r : Reg)
  | pushImm (v : UInt64)
  | pop (r : Reg)
  | movRsp (r : Reg)
  | addRsp (n : UInt64)
  deriving DecidableEq, Repr

def Cpu.push (c : Cpu) (v : UInt64) : Cpu :=
  { c with mem := Function.update c.mem (c.rsp - 8) v, rsp := c.rsp - 8 }

def exec (c : Cpu) : Instr → Cpu
  | .push r => c.push (c.reg r)
  | .pushImm v => c.push v
  | .pop r => { c with reg := Function.update c.reg r (c.mem c.rsp), rsp := c.rsp + 8 }
  | .movRsp r => { c with reg := Function.update c.reg r c.rsp }
  | .addRsp n => { c with rsp := c.rsp + n }

def execs : Cpu → List Instr → Cpu := List.foldl exec

def SEG_KCODE : UInt64 := 0x08

/-- What the processor does at an interrupt gate: from user mode it takes the
stack of the TSS, in any case it aligns the stack and pushes five words, and
an error code for some exceptions. Interrupts are off then. -/
def Cpu.interrupt (c : Cpu) (rsp0 : UInt64) (errorCode : Option UInt64) (handler : UInt64) : Cpu :=
  let top := (if c.cs &&& 3 = 0 then c.rsp else rsp0) &&& ~~~15
  let s := [c.ss, c.rsp, c.rflags, c.cs, c.rip].foldl Cpu.push { c with rsp := top }
  let s := errorCode.elim s s.push
  { s with
    rip := handler
    cs := SEG_KCODE
    ss := if c.cs &&& 3 = 0 then c.ss else 0
    rflags := c.rflags &&& ~~~Crabos.Task.INTERRUPT_FLAG }

/-- `iretq`, which takes five words in 64-bit mode. -/
def Cpu.iretq (c : Cpu) : Cpu :=
  { c with
    rip := c.mem c.rsp
    cs := c.mem (c.rsp + 8)
    rflags := c.mem (c.rsp + 16)
    rsp := c.mem (c.rsp + 24)
    ss := c.mem (c.rsp + 32) }

/-- `DISPATCH_0` pushes a zero in the place of the error code. -/
def dispatch0 (vector : UInt64) : List Instr := [.pushImm 0, .pushImm vector]

/-- `DISPATCH_E`, for an exception with an error code. -/
def dispatchE (vector : UInt64) : List Instr := [.pushImm vector]

/-- `interrupt_common`, up to the call. -/
def interruptCommon : List Instr :=
  [.push .rax, .push .rcx, .push .rdx, .push .rbx, .push .rbp, .push .rsi, .push .rdi, .push .r8,
    .push .r9, .push .r10, .push .r11, .push .r12, .push .r13, .push .r14, .push .r15, .movRsp .rdi]

/-- `interrupt_return`, up to `iretq`. -/
def interruptReturn : List Instr :=
  [.pop .r15, .pop .r14, .pop .r13, .pop .r12, .pop .r11, .pop .r10, .pop .r9, .pop .r8, .pop .rdi,
    .pop .rsi, .pop .rbp, .pop .rbx, .pop .rdx, .pop .rcx, .pop .rax, .addRsp 16]

/-- The state in which `interrupt` is called, for a vector without an error code. -/
def entry (c : Cpu) (rsp0 handler vector : UInt64) : Cpu :=
  execs (c.interrupt rsp0 none handler) (dispatch0 vector ++ interruptCommon)

/-- The same for an exception with an error code. -/
def entryE (c : Cpu) (rsp0 handler vector errorCode : UInt64) : Cpu :=
  execs (c.interrupt rsp0 (some errorCode) handler) (dispatchE vector ++ interruptCommon)

def exit (c : Cpu) : Cpu := (execs c interruptReturn).iretq

/-- The fields of a `#[repr(C)]` frame in the order of their addresses. -/
def words (f : TrapFrame) : List UInt64 :=
  [f.regs.r15, f.regs.r14, f.regs.r13, f.regs.r12, f.regs.r11, f.regs.r10, f.regs.r9, f.regs.r8,
    f.regs.rdi, f.regs.rsi, f.regs.rbp, f.regs.rbx, f.regs.rdx, f.regs.rcx, f.regs.rax,
    f.interruptVector, f.errorCode, f.rip, f.cs, f.rflags, f.rsp, f.ss]

/-- The frame at an address. -/
def frameAt (mem : Memory) (a : UInt64) : TrapFrame :=
  { regs :=
      { r15 := mem a, r14 := mem (a + 8), r13 := mem (a + 16), r12 := mem (a + 24), r11 := mem (a + 32)
        r10 := mem (a + 40), r9 := mem (a + 48), r8 := mem (a + 56), rdi := mem (a + 64)
        rsi := mem (a + 72), rbp := mem (a + 80), rbx := mem (a + 88), rdx := mem (a + 96)
        rcx := mem (a + 104), rax := mem (a + 112) }
    interruptVector := mem (a + 120)
    errorCode := mem (a + 128)
    rip := mem (a + 136)
    cs := mem (a + 144)
    rflags := mem (a + 152)
    rsp := mem (a + 160)
    ss := mem (a + 168) }

/-- What the interrupted code can see of the processor. -/
structure Context where
  regs : Registers
  rsp : UInt64
  rip : UInt64
  rflags : UInt64
  cs : UInt64
  ss : UInt64
  deriving DecidableEq

def Cpu.context (c : Cpu) : Context where
  regs :=
    { r15 := c.reg .r15, r14 := c.reg .r14, r13 := c.reg .r13, r12 := c.reg .r12, r11 := c.reg .r11
      r10 := c.reg .r10, r9 := c.reg .r9, r8 := c.reg .r8, rdi := c.reg .rdi, rsi := c.reg .rsi
      rbp := c.reg .rbp, rbx := c.reg .rbx, rdx := c.reg .rdx, rcx := c.reg .rcx, rax := c.reg .rax }
  rsp := c.rsp
  rip := c.rip
  rflags := c.rflags
  cs := c.cs
  ss := c.ss

def context (f : TrapFrame) : Context := ⟨f.regs, f.rsp, f.rip, f.rflags, f.cs, f.ss⟩

/-- The frame of the interrupted code. -/
def Cpu.trapFrame (c : Cpu) (vector errorCode : UInt64) : TrapFrame where
  regs := c.context.regs
  interruptVector := vector
  errorCode := errorCode
  rip := c.rip
  cs := c.cs
  rflags := c.rflags
  rsp := c.rsp
  ss := c.ss

@[simp] theorem context_trapFrame (c : Cpu) (vector errorCode : UInt64) :
    context (c.trapFrame vector errorCode) = c.context := rfl

theorem words_frameAt (mem : Memory) (a : UInt64) : words (frameAt mem a) = read mem a 22 := by
  simp [words, frameAt, Stack.read, UInt64.add_assoc]

theorem words_inj {f g : TrapFrame} (h : words f = words g) : f = g := by
  obtain ⟨⟨_⟩⟩ := f
  obtain ⟨⟨_⟩⟩ := g
  simp only [words, List.cons.injEq, and_true] at h
  simp [h]

/-- The frame at an address is the record that was stored there. -/
theorem frameAt_of_read {mem : Memory} {a : UInt64} {f : TrapFrame} (h : read mem a 22 = words f) :
    frameAt mem a = f :=
  words_inj ((words_frameAt mem a).trans h)

/-- The stack pointer from which the processor pushes. -/
def Cpu.top (c : Cpu) (rsp0 : UInt64) : UInt64 :=
  (if c.cs &&& 3 = 0 then c.rsp else rsp0) &&& ~~~15

/-- Words on the stack, and nothing else has changed. -/
def Cpu.pushes (c : Cpu) (vs : List UInt64) : Cpu :=
  { c with mem := (Stack.pushes (c.mem, c.rsp) vs).1, rsp := (Stack.pushes (c.mem, c.rsp) vs).2 }

theorem execs_push (c : Cpu) (rs : List Reg) : execs c (rs.map .push) = c.pushes (rs.map c.reg) := by
  induction rs generalizing c with
  | nil => rfl
  | cons r rs ih => exact ih (c.push (c.reg r))

theorem execs_append (c : Cpu) (is js : List Instr) : execs c (is ++ js) = execs (execs c is) js :=
  List.foldl_append

/-- The registers that `interrupt_common` pushes. -/
def pushed : List Reg :=
  [.rax, .rcx, .rdx, .rbx, .rbp, .rsi, .rdi, .r8, .r9, .r10, .r11, .r12, .r13, .r14, .r15]

theorem interruptCommon_eq : interruptCommon = pushed.map .push ++ [.movRsp .rdi] := rfl

/-- `interrupt_common` after any words that are on the stack already: the
address of the last word is passed on. -/
theorem interruptCommon_pushes (c : Cpu) :
    let e := execs c interruptCommon
    (e.mem, e.rsp) = Stack.pushes (c.mem, c.rsp) (pushed.map c.reg) ∧ e.reg .rdi = e.rsp := by
  simp only [interruptCommon_eq, execs_append, execs_push]
  exact ⟨rfl, by simp [execs, exec]⟩

theorem interrupt_stack (c : Cpu) (rsp0 handler : UInt64) (errorCode : Option UInt64) :
    ((c.interrupt rsp0 errorCode handler).mem, (c.interrupt rsp0 errorCode handler).rsp) =
      Stack.pushes (c.mem, c.top rsp0) ([c.ss, c.rsp, c.rflags, c.cs, c.rip] ++ errorCode.toList) := by
  cases errorCode <;> rfl

theorem pushes_stack (c : Cpu) (vs : List UInt64) :
    ((c.pushes vs).mem, (c.pushes vs).rsp) = Stack.pushes (c.mem, c.rsp) vs := rfl

/-- All the words of an entry, from the first that the processor pushes. -/
theorem entry_words (c : Cpu) (rsp0 handler : UInt64) (errorCode : Option UInt64) (vs : List UInt64) :
    let e := execs ((c.interrupt rsp0 errorCode handler).pushes vs) interruptCommon
    (e.mem, e.rsp) = Stack.pushes (c.mem, c.top rsp0)
        ([c.ss, c.rsp, c.rflags, c.cs, c.rip] ++ errorCode.toList ++ vs ++ pushed.map c.reg) ∧
      e.reg .rdi = e.rsp := by
  have hreg : ((c.interrupt rsp0 errorCode handler).pushes vs).reg = c.reg := by
    cases errorCode <;> rfl
  have h := interruptCommon_pushes ((c.interrupt rsp0 errorCode handler).pushes vs)
  rw [pushes_stack, interrupt_stack, ← pushes_append, ← pushes_append, ← List.append_assoc, hreg] at h
  exact h

/-- Entry is twenty-two pushes. -/
theorem entry_pushes (c : Cpu) (rsp0 handler vector : UInt64) :
    let e := entry c rsp0 handler vector
    (e.mem, e.rsp) = Stack.pushes (c.mem, c.top rsp0) (words (c.trapFrame vector 0)).reverse ∧
      e.reg .rdi = e.rsp := by
  have hdispatch : execs (c.interrupt rsp0 none handler) (dispatch0 vector) =
      (c.interrupt rsp0 none handler).pushes [0, vector] := rfl
  rw [entry, execs_append, hdispatch]
  exact entry_words c rsp0 handler none [0, vector]

theorem entryE_pushes (c : Cpu) (rsp0 handler vector errorCode : UInt64) :
    let e := entryE c rsp0 handler vector errorCode
    (e.mem, e.rsp) = Stack.pushes (c.mem, c.top rsp0) (words (c.trapFrame vector errorCode)).reverse ∧
      e.reg .rdi = e.rsp := by
  have hdispatch : execs (c.interrupt rsp0 (some errorCode) handler) (dispatchE vector) =
      (c.interrupt rsp0 (some errorCode) handler).pushes [vector] := rfl
  rw [entryE, execs_append, hdispatch]
  exact entry_words c rsp0 handler (some errorCode) [vector]

theorem frameAt_of_pushes {c e : Cpu} {rsp0 : UInt64} {f : TrapFrame}
    (h : (e.mem, e.rsp) = Stack.pushes (c.mem, c.top rsp0) (words f).reverse) : frameAt e.mem e.rsp = f := by
  apply frameAt_of_read
  obtain ⟨hmem, hrsp⟩ := Prod.mk.inj (h.trans (Prod.eta _).symm)
  have hr := pushes_read c.mem (c.top rsp0) (words f).reverse (by simp [words])
  rw [← hmem, ← hrsp] at hr
  simpa [words] using hr

/-- On the way out the interrupted code gets what the frame says. -/
theorem exit_context (c : Cpu) : (exit c).context = context (frameAt c.mem c.rsp) := by
  simp [exit, execs, interruptReturn, exec, Cpu.iretq, Cpu.context, context, frameAt, UInt64.add_assoc,
    Function.update]

/-- The frame that `interrupt` gets, with and without an error code. -/
def enter (c : Cpu) (rsp0 handler vector : UInt64) : Option UInt64 → Cpu
  | none => entry c rsp0 handler vector
  | some errorCode => entryE c rsp0 handler vector errorCode

theorem enter_frame (c : Cpu) (rsp0 handler vector : UInt64) (errorCode : Option UInt64) :
    let e := enter c rsp0 handler vector errorCode
    e.reg .rdi = e.rsp ∧ frameAt e.mem e.rsp = c.trapFrame vector (errorCode.getD 0) := by
  cases errorCode with
  | none =>
    obtain ⟨hstack, hrdi⟩ := entry_pushes c rsp0 handler vector
    exact ⟨hrdi, frameAt_of_pushes hstack⟩
  | some errorCode =>
    obtain ⟨hstack, hrdi⟩ := entryE_pushes c rsp0 handler vector errorCode
    exact ⟨hrdi, frameAt_of_pushes hstack⟩

/-- `interrupt` returns: the frame is in its place, and whatever else there is
in the registers and in memory. -/
def handled (e left : Cpu) (f : TrapFrame) : Cpu :=
  { left with rsp := e.rsp, mem := store left.mem e.rsp (words f) }

theorem exit_handled (e left : Cpu) (f : TrapFrame) : (exit (handled e left f)).context = context f := by
  rw [exit_context]
  congr 1
  exact frameAt_of_read (store_read _ _ _ (by simp [words]))

/-- For any code that is interrupted, in user or in kernel mode, and any vector:
`interrupt` is called with all of its registers in the frame, and what it
leaves in the frame is what the code goes on with, whatever else it changes.
The code goes on as it was if the frame is left as it was. -/
theorem trap_round_trip (c : Cpu) (rsp0 handler vector : UInt64) (errorCode : Option UInt64) :
    let e := enter c rsp0 handler vector errorCode
    frameAt e.mem (e.reg .rdi) = c.trapFrame vector (errorCode.getD 0) ∧
      (∀ left f, (exit (handled e left f)).context = context f) ∧
      ∀ left, (exit (handled e left (frameAt e.mem (e.reg .rdi)))).context = c.context := by
  obtain ⟨hrdi, hframe⟩ := enter_frame c rsp0 handler vector errorCode
  refine ⟨by rw [hrdi, hframe], fun left f => exit_handled _ left f, fun left => ?_⟩
  rw [exit_handled, hrdi, hframe, context_trapFrame]

end Crabos.Abi
