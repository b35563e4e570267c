import Crabos.Abi.Trap
import Crabos.Lib.Bytes

/-!
# The interrupt table (`kernel/src/isrs.asm`, `kernel/src/interrupt.rs`)

`isrs_init` writes the table that the processor reads when an interrupt comes
from the controllers, from a fault or from the instruction `int`. Through it
user code gets to the system calls and to nothing else.
-/
namespace Crabos.Abi

open Crabos.Bytes
open Crabos.Task (TrapFrame)

/-- The labels to which the gates point. -/
inductive Isr where
  | divideByZero | debug | nmi | breakpoint | overflow | boundRangeExceeded | invalidOpcode
  | deviceNotAvailable | doubleFault | invalidTss | segmentNotPresent | stackSegmentFault
  | generalProtectionFault | pageFault | x87Exception | alignmentCheck | machineCheck
  | simdException | virtualizationException | securityException
  | irq (n : Fin 16)
  | syscall
  deriving DecidableEq, Fintype, Repr

def IDT_SIZE : Nat := 0x1000
def IDT_PRESENT : Nat := 0x8000
def IDT_INT64 : Nat := 0x0e00
def IDT_DPL3 : Nat := 0x6000

/-- `ENTRY(vector, offset, segment, flags)`. -/
def ENTRY (m : Mem) (idt vector offset segment flags : Nat) : Mem :=
  let rbx := idt + vector * 16
  let m := store m rbx 2 offset
  let m := store m (rbx + 2) 2 segment
  let m := store m (rbx + 4) 2 flags
  let m := store m (rbx + 6) 2 (offset / 2 ^ 16)
  -- the upper half of this store is the reserved word
  store m (rbx + 8) 8 (offset / 2 ^ 32)

/-- The vectors with their labels and flags. -/
def entries : List (Nat × Isr × Nat) :=
  [(0x00, .divideByZero, IDT_PRESENT ||| IDT_INT64),
    (0x01, .debug, IDT_PRESENT ||| IDT_INT64),
    (0x02, .nmi, IDT_PRESENT ||| IDT_INT64),
    (0x03, .breakpoint, IDT_PRESENT ||| IDT_INT64),
    (0x04, .overflow, IDT_PRESENT ||| IDT_INT64),
    (0x05, .boundRangeExceeded, IDT_PRESENT ||| IDT_INT64),
    (0x06, .invalidOpcode, IDT_PRESENT ||| IDT_INT64),
    (0x07, .deviceNotAvailable, IDT_PRESENT ||| IDT_INT64),
    (0x08, .doubleFault, IDT_PRESENT ||| IDT_INT64),
    (0x0a, .invalidTss, IDT_PRESENT ||| IDT_INT64),
    (0x0b, .segmentNotPresent, IDT_PRESENT ||| IDT_INT64),
    (0x0c, .stackSegmentFault, IDT_PRESENT ||| IDT_INT64),
    (0x0d, .generalProtectionFault, IDT_PRESENT ||| IDT_INT64),
    (0x0e, .pageFault, IDT_PRESENT ||| IDT_INT64),
    (0x10, .x87Exception, IDT_PRESENT ||| IDT_INT64),
    (0x11, .alignmentCheck, IDT_PRESENT ||| IDT_INT64),
    (0x12, .machineCheck, IDT_PRESENT ||| IDT_INT64),
    (0x13, .simdException, IDT_PRESENT ||| IDT_INT64),
    (0x14, .virtualizationException, IDT_PRESENT ||| IDT_INT64),
    (0x1e, .securityException, IDT_PRESENT ||| IDT_INT64),
    (0x20, .irq 0, IDT_PRESENT ||| IDT_INT64),
    (0x21, .irq 1, IDT_PRESENT ||| IDT_INT64),
    (0x22, .irq 2, IDT_PRESENT ||| IDT_INT64),
    (0x23, .irq 3, IDT_PRESENT ||| IDT_INT64),
    (0x24, .irq 4, IDT_PRESENT ||| IDT_INT64),
    (0x25, .irq 5, IDT_PRESENT ||| IDT_INT64),
    (0x26, .irq 6, IDT_PRESENT ||| IDT_INT64),
    (0x27, .irq 7, IDT_PRESENT ||| IDT_INT64),
    (0x28, .irq 8, IDT_PRESENT ||| IDT_INT64),
    (0x29, .irq 9, IDT_PRESENT ||| IDT_INT64),
    (0x2a, .irq 10, IDT_PRESENT ||| IDT_INT64),
    (0x2b, .irq 11, IDT_PRESENT ||| IDT_INT64),
    (0x2c, .irq 12, IDT_PRESENT ||| IDT_INT64),
    (0x2d, .irq 13, IDT_PRESENT ||| IDT_INT64),
    (0x2e, .irq 14, IDT_PRESENT ||| IDT_INT64),
    (0x2f, .irq 15, IDT_PRESENT ||| IDT_INT64),
    (0x7f, .syscall, IDT_PRESENT ||| IDT_INT64 ||| IDT_DPL3)]

section table

variable (addr : Isr → UInt64) (idt : Nat)

def writeEntries (m : Mem) (rows : List (Nat × Isr × Nat)) : Mem :=
  rows.foldl (fun m row => ENTRY m idt row.1 (addr row.2.1).toNat SEG_KCODE.toNat row.2.2) m

/-- `isrs_init`, as far as it writes memory. -/
def isrsInit (m : Mem) : Mem := writeEntries addr idt m entries

/-- A gate, as the processor reads it in 64-bit mode. -/
structure IdtGate where
  offset : Nat
  segment : Nat
  ist : Nat
  type : Nat
  dpl : Nat
  present : Bool
  deriving DecidableEq

def IdtGate.ofFields (offset segment flags : Nat) : IdtGate :=
  ⟨offset, segment, flags % 2 ^ 3, flags / 2 ^ 8 % 2 ^ 4, flags / 2 ^ 13 % 2 ^ 2, flags / 2 ^ 15 % 2 = 1⟩

def readGate (m : Mem) (vector : Nat) : IdtGate :=
  let a := idt + vector * 16
  .ofFields (load m a 2 + 2 ^ 16 * load m (a + 6) 2 + 2 ^ 32 * load m (a + 8) 4) (load m (a + 2) 2)
    (load m (a + 4) 2)

variable {idt}

theorem readGate_ENTRY (m : Mem) (vector : Nat) {offset segment flags : Nat} (ho : offset < 2 ^ 64)
    (hs : segment < 2 ^ 16) (hf : flags < 2 ^ 16) :
    readGate idt (ENTRY m idt vector offset segment flags) vector = .ofFields offset segment flags := by
  have h₀ : load (ENTRY m idt vector offset segment flags) (idt + vector * 16) 2 = offset % 2 ^ 16 := by
    simp (disch := omega) only [ENTRY, load_store_apart, load_store]
    rfl
  have h₂ : load (ENTRY m idt vector offset segment flags) (idt + vector * 16 + 2) 2 = segment := by
    simp (disch := omega) only [ENTRY, load_store_apart, load_store]
    exact Nat.mod_eq_of_lt hs
  have h₄ : load (ENTRY m idt vector offset segment flags) (idt + vector * 16 + 4) 2 = flags := by
    simp (disch := omega) only [ENTRY, load_store_apart, load_store]
    exact Nat.mod_eq_of_lt hf
  have h₆ : load (ENTRY m idt vector offset segment flags) (idt + vector * 16 + 6) 2 =
      offset / 2 ^ 16 % 2 ^ 16 := by
    simp (disch := omega) only [ENTRY, load_store_apart, load_store]
    rfl
  have h₈ : load (ENTRY m idt vector offset segment flags) (idt + vector * 16 + 8) 4 =
      offset / 2 ^ 32 % 2 ^ 32 := by
    simp (disch := omega) only [ENTRY, load_store_le]
    rfl
  rw [readGate, h₀, h₂, h₄, h₆, h₈]
  congr 1
  omega

/-- A gate is not changed by the entry of another vector. -/
theorem readGate_ENTRY_of_ne (m : Mem) {v w : Nat} (h : v ≠ w) (offset segment flags : Nat) :
    readGate idt (ENTRY m idt v offset segment flags) w = readGate idt m w := by
  have happart : ∀ k b, k + b ≤ 16 → load (ENTRY m idt v offset segment flags) (idt + w * 16 + k) b =
      load m (idt + w * 16 + k) b := by
    intro k b hk
    simp (disch := omega) only [ENTRY, load_store_apart]
  have h₀ := happart 0 2 (by omega)
  rw [Nat.add_zero] at h₀
  rw [readGate, readGate, h₀, happart 2 2 (by omega), happart 4 2 (by omega), happart 6 2 (by omega),
    happart 8 4 (by omega)]

theorem readGate_writeEntries {rows : List (Nat × Isr × Nat)} (hnd : (rows.map Prod.fst).Nodup)
    (hf : ∀ row ∈ rows, row.2.2 < 2 ^ 16) (m : Mem) (v : Nat) :
    readGate idt (writeEntries addr idt m rows) v =
      match rows.lookup v with
      | some (isr, flags) => .ofFields (addr isr).toNat SEG_KCODE.toNat flags
      | none => readGate idt m v := by
  induction rows generalizing m with
  | nil => rfl
  | cons row rows ih =>
    obtain ⟨w, isr, flags⟩ := row
    simp only [List.map_cons, List.nodup_cons] at hnd
    rw [writeEntries, List.foldl_cons]
    refine (ih hnd.2 (fun r hr => hf r (List.mem_cons_of_mem _ hr)) _).trans ?_
    by_cases h : v = w
    · subst h
      have hnone : rows.lookup v = none := by
        rw [List.lookup_eq_none_iff]
        intro p hp
        rw [bne_iff_ne]
        intro he
        exact hnd.1 (List.mem_map.mpr ⟨p, hp, he.symm⟩)
      rw [hnone, List.lookup_cons_self]
      exact readGate_ENTRY m v (UInt64.toNat_lt _) (by decide) (hf _ List.mem_cons_self)
    · rw [List.lookup_cons, beq_false_of_ne h]
      cases rows.lookup v with
      | none => exact readGate_ENTRY_of_ne m (Ne.symm h) _ _ _
      | some _ => rfl

end table

/-- What can ask for an interrupt: the instruction `int`, one of the controllers
(with the vector offsets of `pic_init`), or a fault. -/
inductive Request where
  | int (n : UInt8)
  | irq (k : Fin 16)
  | invalidOpcode
  | generalProtection (errorCode : UInt64)
  | pageFault (errorCode : UInt64)

def IdtGate.valid (g : IdtGate) : Prop := g.type = 14 ∧ g.present

instance (g : IdtGate) : Decidable g.valid := inferInstanceAs (Decidable (_ ∧ _))

/-- The processor goes through a gate. -/
def IdtGate.enter (g : IdtGate) (c : Cpu) (rsp0 : UInt64) (errorCode : Option UInt64) : Cpu :=
  { c.interrupt rsp0 errorCode (.ofNat g.offset) with cs := .ofNat g.segment }

/-- The processor takes a vector; without a gate there is a further fault. -/
def raise (m : Mem) (idt : Nat) (rsp0 : UInt64) (c : Cpu) (vector : Nat) (errorCode : Option UInt64) :
    Option Cpu :=
  let g := readGate idt m vector
  if g.valid then some (g.enter c rsp0 errorCode) else none

/-- The processor takes a request. Only for `int` it compares the levels of privilege;
the error code of the fault that it raises then names the gate. -/
def deliver (m : Mem) (idt : Nat) (rsp0 : UInt64) (c : Cpu) : Request → Option Cpu
  | .int n =>
    let g := readGate idt m n.toNat
    if g.type = 14 ∧ (c.cs &&& 3).toNat ≤ g.dpl then
      if g.present then some (g.enter c rsp0 none)
      else raise m idt rsp0 c 0x0b (some (.ofNat (n.toNat * 8 + 2)))
    else raise m idt rsp0 c 0x0d (some (.ofNat (n.toNat * 8 + 2)))
  | .irq k => raise m idt rsp0 c (0x20 + k) none
  | .invalidOpcode => raise m idt rsp0 c 0x06 none
  | .generalProtection errorCode => raise m idt rsp0 c 0x0d (some errorCode)
  | .pageFault errorCode => raise m idt rsp0 c 0x0e (some errorCode)

def PIC1 : Nat := 0x20
def PIC2 : Nat := 0xa0

/-- The code at a label, up to the jump to `interrupt_common`; the other labels
lead to `panic`. -/
def code : Isr → Option (List Instr)
  | .invalidOpcode => some (dispatch0 0x06)
  | .generalProtectionFault => some (dispatchE 0x0d)
  | .pageFault => some (dispatchE 0x0e)
  | .irq n => some (dispatch0 (.ofNat (0x20 + n)))
  | .syscall => some (dispatch0 0x7f)
  | _ => none

/-- The controller whose in-service register `irq7` and `irq15` read first. -/
def asks : Isr → Option Nat
  | .irq n => if n = 7 then some PIC1 else if n = 15 then some PIC2 else none
  | _ => none

def Cpu.setAl (c : Cpu) (v : UInt8) : Cpu :=
  { c with reg := Function.update c.reg .rax (c.reg .rax / 0x100 * 0x100 + v.toUInt64) }

/-- `push ax` stores the upper two bytes of the word below an aligned stack. -/
def Cpu.pushAx (c : Cpu) : Cpu :=
  let below := c.mem (c.rsp - 8)
  { c with
    mem := Function.update c.mem (c.rsp - 8)
      (below % 0x1000000000000 + c.reg .rax % 0x10000 * 0x1000000000000)
    rsp := c.rsp - 2 }

def Cpu.popAx (c : Cpu) : Cpu :=
  { c with
    reg := Function.update c.reg .rax (c.reg .rax / 0x10000 * 0x10000 + c.mem (c.rsp - 6) / 0x1000000000000)
    rsp := c.rsp + 2 }

/-- `bt ax, 7` puts the bit into the carry flag. -/
def Cpu.btAx7 (c : Cpu) : Cpu :=
  { c with rflags := c.rflags / 2 * 2 + c.reg .rax / 0x80 % 2 }

/-- `irq7` and `irq15` up to the branch, with the answer of the controller, and the
`pop ax` with which both ways go on. -/
def Cpu.inService (c : Cpu) (answer : UInt8) : Cpu :=
  -- the command 0x0b goes out through AL, in which the answer comes back
  ((c.pushAx.setAl 0x0b).setAl answer).btAx7.popAx

/-- What comes of the code at a label. -/
inductive Outcome where
  | call (f : TrapFrame)
  | back (c : Context)
  deriving DecidableEq

/-- From a label to the call of `interrupt`. -/
def dispatched (s : Cpu) (is : List Instr) : Outcome :=
  let e := execs s (is ++ interruptCommon)
  .call (frameAt e.mem (e.reg .rdi))

def labels : List Isr := entries.map fun row => row.2.1

/-- What the code does where the processor is now; `ports` is what the controllers answer
about their in-service registers. -/
def reaches (addr : Isr → UInt64) (ports : Nat → UInt8) (s : Cpu) : Option Outcome :=
  (labels.find? fun e => addr e = s.rip).bind fun isr =>
    (code isr).map fun is =>
      match asks isr with
      | none => dispatched s is
      | some pic =>
        let s := s.inService (ports pic)
        if s.rflags % 2 = 1 then dispatched s is else .back s.iretq.context

inductive Interrupt where
  | divideByZero | debug | nmi | breakpoint | overflow | boundRangeExceeded | invalidOpcode
  | deviceNotAvailable | doubleFault | invalidTss | segmentNotPresent | stackSegmentFault
  | generalProtectionFault | pageFault | x87Exception | alignmentCheck | machineCheck
  | simdException | virtualizationException | securityException | syscall
  | irq (n : UInt8)
  | other (vector : UInt8)
  deriving DecidableEq, Repr

/-- `From<u8>`. -/
def Interrupt.fromU8 (vector : UInt8) : Interrupt :=
  match vector.toNat with
  | 0x00 => .divideByZero
  | 0x01 => .debug
  | 0x02 => .nmi
  | 0x03 => .breakpoint
  | 0x04 => .overflow
  | 0x05 => .boundRangeExceeded
  | 0x06 => .invalidOpcode
  | 0x07 => .deviceNotAvailable
  | 0x08 => .doubleFault
  | 0x0a => .invalidTss
  | 0x0b => .segmentNotPresent
  | 0x0c => .stackSegmentFault
  | 0x0d => .generalProtectionFault
  | 0x0e => .pageFault
  | 0x10 => .x87Exception
  | 0x11 => .alignmentCheck
  | 0x12 => .machineCheck
  | 0x13 => .simdException
  | 0x14 => .virtualizationException
  | 0x1e => .securityException
  | 0x7f => .syscall
  | n => if 0x20 ≤ n ∧ n < 0x20 + 0x10 then .irq (vector - 0x20) else .other vector

inductive TrapOrigin where
  | user
  | kernel
  deriving DecidableEq, Repr

/-- `TrapFrame::origin`; `none` is its panic. -/
def origin (f : TrapFrame) : Option TrapOrigin :=
  if f.cs &&& 3 = 0 then some .kernel else if f.cs &&& 3 = 3 then some .user else none

/-- What `interrupt` hands a frame to. -/
inductive Work where
  | ignore
  | switch
  | keyboard
  | dispatchSyscall
  deriving DecidableEq, Repr

/-- `interrupt`: what is done with the frame, and the controllers that are
told of it afterwards. `none` is a panic, in which page faults end as well. -/
def interrupt (f : TrapFrame) : Option (Work × List Nat) :=
  match Interrupt.fromU8 f.interruptVector.toUInt8 with
  | .irq irq =>
    let acks := 0x20 :: if 0x08 ≤ irq then [0xa0] else []
    if irq = 0 then
      (origin f).map fun o =>
        match o with
        | .user => (.switch, acks)
        | .kernel => (.ignore, acks)
    else some (if irq = 1 then .keyboard else .ignore, acks)
  | .syscall =>
    (origin f).bind fun o =>
      match o with
      | .user => some (.dispatchSyscall, [])
      | .kernel => none
  | _ => none

/-- The controller has IRQ 7 or 15 not in service. -/
def Spurious (ports : Nat → UInt8) (k : Fin 16) : Prop :=
  k = 7 ∧ ports PIC1 < 0x80 ∨ k = 15 ∧ ports PIC2 < 0x80

instance (ports : Nat → UInt8) (k : Fin 16) : Decidable (Spurious ports k) :=
  inferInstanceAs (Decidable (_ ∨ _))

/-- What is due for a request: the call with the frame of the interrupted code, or
for a spurious interrupt that the code goes on as it was. -/
def Request.due (ports : Nat → UInt8) (c : Cpu) : Request → Outcome
  | .int n => .call (if n = 0x7f then c.trapFrame 0x7f 0 else c.trapFrame 0x0d (.ofNat (n.toNat * 8 + 2)))
  | .irq k => if Spurious ports k then .back c.context else .call (c.trapFrame (.ofNat (0x20 + k)) 0)
  | .invalidOpcode => .call (c.trapFrame 0x06 0)
  | .generalProtection errorCode => .call (c.trapFrame 0x0d errorCode)
  | .pageFault errorCode => .call (c.trapFrame 0x0e errorCode)

/-- The work that is due in the call. -/
def Request.work (c : Cpu) : Request → Option (Work × List Nat)
  | .int n => if n = 0x7f then some (.dispatchSyscall, []) else none
  | .irq k =>
    some (if k = 0 then if c.cs &&& 3 = 3 then .switch else .ignore
      else if k = 1 then .keyboard else .ignore, if k.val < 8 then [0x20] else [0x20, 0xa0])
  | _ => none

section kernel

variable {addr : Isr → UInt64} {idt : Nat} {m : Mem}

theorem isrsInit_gate {v : Nat} {isr : Isr} {flags : Nat} (h : entries.lookup v = some (isr, flags)) :
    readGate idt (isrsInit addr idt m) v = .ofFields (addr isr).toNat SEG_KCODE.toNat flags := by
  rw [isrsInit, readGate_writeEntries addr (by decide) (by decide), h]

theorem isrsInit_no_gate (hbss : ∀ x, idt ≤ x → x < idt + IDT_SIZE → m x = 0) {v : Nat} (hv : v < 256)
    (h : entries.lookup v = none) : (readGate idt (isrsInit addr idt m) v).type = 0 := by
  rw [isrsInit, readGate_writeEntries addr (by decide) (by decide), h]
  have hflags : load m (idt + v * 16 + 4) 2 = 0 := by
    have hsize : IDT_SIZE = 4096 := rfl
    simp [load, hbss (idt + v * 16 + 4) (by omega) (by omega),
      hbss (idt + v * 16 + 4 + 1) (by omega) (by omega)]
  simp [readGate, IdtGate.ofFields, hflags]

theorem gate_enter (addr : Isr → UInt64) (isr : Isr) (flags : Nat) (c : Cpu) (rsp0 : UInt64)
    (errorCode : Option UInt64) :
    (IdtGate.ofFields (addr isr).toNat SEG_KCODE.toNat flags).enter c rsp0 errorCode =
      c.interrupt rsp0 errorCode (addr isr) := by
  simp [IdtGate.ofFields, IdtGate.enter, Cpu.interrupt]

/-- All gates but the one for system calls are for the kernel alone. -/
theorem entries_flags {v : Nat} {isr : Isr} {flags : Nat} (h : entries.lookup v = some (isr, flags))
    (hv : v ≠ 0x7f) : flags = IDT_PRESENT ||| IDT_INT64 := by
  obtain ⟨l₁, l₂, he, -⟩ := List.lookup_eq_some_iff.mp h
  have hall : ∀ row ∈ entries, row.1 ≠ 0x7f → row.2.2 = IDT_PRESENT ||| IDT_INT64 := by decide
  have hmem : (v, isr, flags) ∈ entries := by simp [he]
  exact hall _ hmem hv

theorem raise_isrsInit {v : Nat} {isr : Isr} (c : Cpu) (rsp0 : UInt64) (errorCode : Option UInt64)
    (h : entries.lookup v = some (isr, IDT_PRESENT ||| IDT_INT64)) :
    raise (isrsInit addr idt m) idt rsp0 c v errorCode = some (c.interrupt rsp0 errorCode (addr isr)) := by
  simp only [raise, isrsInit_gate h, gate_enter]
  exact if_pos ⟨rfl, rfl⟩

theorem find_label (hinj : Function.Injective addr) {isr : Isr} {l : List Isr} (h : isr ∈ l) :
    l.find? (fun e => addr e = addr isr) = some isr := by
  induction l with
  | nil => cases h
  | cons e l ih =>
    by_cases he : e = isr
    · simp [he]
    · have hmem : isr ∈ l := by
        rcases List.mem_cons.mp h with h | h
        · exact absurd h.symm he
        · exact h
      simp [hinj.ne he, ih hmem]

/-- The handler at a label, with the error code that the processor has pushed. -/
theorem reaches_label (hinj : Function.Injective addr) {isr : Isr} (hmem : isr ∈ labels) (ports : Nat → UInt8)
    (c : Cpu) (rsp0 : UInt64) (errorCode : Option UInt64) :
    reaches addr ports (c.interrupt rsp0 errorCode (addr isr)) = (code isr).map fun is =>
      match asks isr with
      | none => dispatched (c.interrupt rsp0 errorCode (addr isr)) is
      | some pic =>
        let s := (c.interrupt rsp0 errorCode (addr isr)).inService (ports pic)
        if s.rflags % 2 = 1 then dispatched s is else .back s.iretq.context := by
  have hrip : (c.interrupt rsp0 errorCode (addr isr)).rip = addr isr := rfl
  rw [reaches, hrip, find_label hinj hmem]
  rfl

theorem dispatched_dispatch0 (c : Cpu) (rsp0 handler v : UInt64) :
    dispatched (c.interrupt rsp0 none handler) (dispatch0 v) = .call (c.trapFrame v 0) := by
  have h := enter_frame c rsp0 handler v none
  simp only [enter, entry] at h
  simp only [dispatched, h.1, h.2]
  rfl

theorem dispatched_dispatchE (c : Cpu) (rsp0 handler v errorCode : UInt64) :
    dispatched (c.interrupt rsp0 (some errorCode) handler) (dispatchE v) =
      .call (c.trapFrame v errorCode) := by
  have h := enter_frame c rsp0 handler v (some errorCode)
  simp only [enter, entryE] at h
  simp only [dispatched, h.1, h.2]
  rfl

/-- The first push after the look at the controller is over the two bytes of AX, and
the flags that are left are not in the frame. -/
theorem execs_rflags (c : Cpu) (flags : UInt64) (is : List Instr) :
    execs { c with rflags := flags } is = { execs c is with rflags := flags } := by
  induction is generalizing c with
  | nil => rfl
  | cons i is ih =>
    cases i with
    | push r => exact ih (exec c (.push r))
    | pushImm v => exact ih (exec c (.pushImm v))
    | pop r => exact ih (exec c (.pop r))
    | movRsp r => exact ih (exec c (.movRsp r))
    | addRsp n => exact ih (exec c (.addRsp n))

theorem ax_restored (a m : UInt64) (v w : UInt8) :
    ((a / 0x100 * 0x100 + v.toUInt64) / 0x100 * 0x100 + w.toUInt64) / 0x10000 * 0x10000 +
      (m % 0x1000000000000 + a % 0x10000 * 0x1000000000000) / 0x1000000000000 = a := by
  apply UInt64.toNat_inj.mp
  have ha := a.toNat_lt
  have hv := v.toNat_lt
  have hw := w.toNat_lt
  simp
  omega

/-- The carry flag is the bit of the answer. -/
theorem carry_iff (flags a : UInt64) (v w : UInt8) :
    (flags / 2 * 2 + ((a / 0x100 * 0x100 + v.toUInt64) / 0x100 * 0x100 + w.toUInt64) / 0x80 % 2) % 2 = 1 ↔
      ¬ w < 0x80 := by
  rw [← UInt64.toNat_inj, UInt8.lt_iff_toNat_lt]
  have hflags := flags.toNat_lt
  have ha := a.toNat_lt
  have hv := v.toNat_lt
  have hw := w.toNat_lt
  simp
  omega

/-- Two bytes below the stack and the flags are not as they were. -/
def Cpu.scratch (c : Cpu) (w flags : UInt64) : Cpu :=
  { c with mem := Function.update c.mem (c.rsp - 8) w, rflags := flags }

/-- The look at the controller restores AX. -/
theorem inService_scratch (c : Cpu) (answer : UInt8) :
    ∃ w flags, c.inService answer = c.scratch w flags ∧ (flags % 2 = 1 ↔ ¬ answer < 0x80) := by
  have hslot : c.rsp - 2 - 6 = c.rsp - 8 := by
    rw [sub_sub]
    rfl
  have hback : c.rsp - 2 + 2 = c.rsp := sub_add_cancel _ _
  refine ⟨c.mem (c.rsp - 8) % 0x1000000000000 + c.reg .rax % 0x10000 * 0x1000000000000, _, ?_,
    carry_iff c.rflags (c.reg .rax) 0x0b answer⟩
  simp [Cpu.inService, Cpu.pushAx, Cpu.popAx, Cpu.setAl, Cpu.btAx7, Cpu.scratch, hslot, hback]
  exact ax_restored (c.reg .rax) (c.mem (c.rsp - 8)) 0x0b answer

theorem exec_scratch (c : Cpu) (w flags v : UInt64) :
    exec (c.scratch w flags) (.pushImm v) = { exec c (.pushImm v) with rflags := flags } := by
  simp [exec, Cpu.push, Cpu.scratch]

theorem execs_dispatch0 (c : Cpu) (v : UInt64) (is : List Instr) :
    execs c (dispatch0 v ++ is) = execs (exec c (.pushImm 0)) (.pushImm v :: is) := rfl

/-- The next push is over them, and a genuine interrupt goes on as the others do. -/
theorem dispatched_scratch (c : Cpu) (w flags v : UInt64) :
    dispatched (c.scratch w flags) (dispatch0 v) = dispatched c (dispatch0 v) := by
  simp only [dispatched, execs_dispatch0, exec_scratch, execs_rflags]

/-- The words that the processor pushed are above the stack pointer. -/
theorem iretq_scratch (c : Cpu) (w flags : UInt64) :
    (c.scratch w flags).iretq.context = c.iretq.context := by
  have happart : ∀ k, k + 8 ≠ 0 → c.rsp + k ≠ c.rsp - 8 := by
    intro k hk h
    exact hk (by grind)
  have h₀ := happart 0 (by decide)
  rw [add_zero] at h₀
  simp [Cpu.scratch, Cpu.iretq, Cpu.context, h₀, happart 8 (by decide), happart 16 (by decide),
    happart 24 (by decide), happart 32 (by decide)]

/-- `iretq` right after the interrupt. -/
theorem iretq_interrupt (c : Cpu) (rsp0 handler : UInt64) :
    (c.interrupt rsp0 none handler).iretq.context = c.context := by
  obtain ⟨hmem, hrsp⟩ := Prod.mk.inj ((interrupt_stack c rsp0 handler none).trans (Prod.eta _).symm)
  have hread := Stack.pushes_read c.mem (c.top rsp0) [c.ss, c.rsp, c.rflags, c.cs, c.rip] (by simp)
  rw [Option.toList_none, List.append_nil] at hmem hrsp
  rw [← hmem, ← hrsp] at hread
  simp [Stack.read, UInt64.add_assoc] at hread
  obtain ⟨hrip, hcs, hrflags, hsp, hss⟩ := hread
  have hreg : (c.interrupt rsp0 none handler).reg = c.reg := rfl
  simp only [Cpu.iretq, Cpu.context, hreg, hrip, hcs, hrflags, hsp, hss]

theorem irq_entry (k : Fin 16) : entries.lookup (0x20 + k.val) = some (.irq k, IDT_PRESENT ||| IDT_INT64) := by
  revert k
  decide

theorem irq_label (k : Fin 16) : Isr.irq k ∈ labels := by
  revert k
  decide

/-- From user mode, `int` gets through the gate for system calls only. -/
theorem deliver_int (hbss : ∀ x, idt ≤ x → x < idt + IDT_SIZE → m x = 0) {c : Cpu} (hc : c.cs &&& 3 = 3)
    (rsp0 : UInt64) (n : UInt8) :
    deliver (isrsInit addr idt m) idt rsp0 c (.int n) =
      some (if n = 0x7f then c.interrupt rsp0 none (addr .syscall)
        else c.interrupt rsp0 (some (.ofNat (n.toNat * 8 + 2))) (addr .generalProtectionFault)) := by
  rw [deliver, hc]
  by_cases hn : n = 0x7f
  · subst hn
    have hgate : readGate idt (isrsInit addr idt m) (0x7f : UInt8).toNat = _ :=
      isrsInit_gate (show entries.lookup 0x7f = some (.syscall, IDT_PRESENT ||| IDT_INT64 ||| IDT_DPL3) from rfl)
    rw [hgate, gate_enter, if_pos ⟨rfl, Nat.le_refl 3⟩, if_pos rfl]
    exact if_pos rfl
  · rw [if_neg hn, raise_isrsInit c rsp0 _ (show entries.lookup 0x0d = _ from rfl), if_neg]
    rintro ⟨htype, hdpl⟩
    cases h : entries.lookup n.toNat with
    | none =>
      rw [isrsInit_no_gate hbss n.toNat_lt h] at htype
      cases htype
    | some row =>
      have hne : n.toNat ≠ 0x7f := fun he => hn (UInt8.toNat_inj.mp he)
      rw [isrsInit_gate h, entries_flags h hne] at hdpl
      have hdpl' : (3 : UInt64).toNat ≤ 0 := hdpl
      exact absurd hdpl' (by decide)

theorem inService_branch (c : Cpu) (rsp0 handler v : UInt64) (answer : UInt8) :
    let s := (c.interrupt rsp0 none handler).inService answer
    (if s.rflags % 2 = 1 then dispatched s (dispatch0 v) else .back s.iretq.context) =
      if answer < 0x80 then .back c.context else .call (c.trapFrame v 0) := by
  obtain ⟨w, flags, heq, hcarry⟩ := inService_scratch (c.interrupt rsp0 none handler) answer
  have hflags : ((c.interrupt rsp0 none handler).scratch w flags).rflags = flags := rfl
  simp only [heq, hflags, hcarry, dispatched_scratch, dispatched_dispatch0, iretq_scratch, iretq_interrupt]
  by_cases h : answer < 0x80
  · simp only [h, not_true, if_true, if_false]
  · simp only [h, not_false_eq_true, if_true, if_false]

theorem reaches_irq (hinj : Function.Injective addr) (ports : Nat → UInt8) (k : Fin 16) (c : Cpu)
    (rsp0 : UInt64) :
    reaches addr ports (c.interrupt rsp0 none (addr (.irq k))) = some ((Request.irq k).due ports c) := by
  rw [reaches_label hinj (irq_label k), code, Option.map_some, Request.due]
  by_cases h₇ : k = 7
  · subst h₇
    have hasks : asks (.irq 7) = some PIC1 := rfl
    simp only [hasks, inService_branch]
    simp [Spurious]
  · by_cases h₁₅ : k = 15
    · subst h₁₅
      have hasks : asks (.irq 15) = some PIC2 := rfl
      simp only [hasks, inService_branch]
      simp [Spurious]
    · simp [asks, Spurious, h₇, h₁₅, dispatched_dispatch0]

theorem reaches_dispatch0 (hinj : Function.Injective addr) {isr : Isr} (hmem : isr ∈ labels) {v : UInt64}
    (hcode : code isr = some (dispatch0 v)) (hasks : asks isr = none) (ports : Nat → UInt8) (c : Cpu)
    (rsp0 : UInt64) :
    reaches addr ports (c.interrupt rsp0 none (addr isr)) = some (.call (c.trapFrame v 0)) := by
  simp only [reaches_label hinj hmem, hcode, hasks, Option.map_some, dispatched_dispatch0]

theorem reaches_dispatchE (hinj : Function.Injective addr) {isr : Isr} (hmem : isr ∈ labels) {v : UInt64}
    (hcode : code isr = some (dispatchE v)) (hasks : asks isr = none) (ports : Nat → UInt8) (c : Cpu)
    (rsp0 errorCode : UInt64) :
    reaches addr ports (c.interrupt rsp0 (some errorCode) (addr isr)) =
      some (.call (c.trapFrame v errorCode)) := by
  simp only [reaches_label hinj hmem, hcode, hasks, Option.map_some, dispatched_dispatchE]

theorem deliver_reaches (hinj : Function.Injective addr) (ports : Nat → UInt8)
    (hbss : ∀ x, idt ≤ x → x < idt + IDT_SIZE → m x = 0) (c : Cpu) (rsp0 : UInt64) (r : Request)
    (hr : ∀ n, r = .int n → c.cs &&& 3 = 3) :
    (deliver (isrsInit addr idt m) idt rsp0 c r).bind (reaches addr ports) = some (r.due ports c) := by
  cases r with
  | int n =>
    rw [deliver_int hbss (hr n rfl), Option.bind_some, Request.due]
    by_cases hn : n = 0x7f
    · simp only [hn, if_true]
      exact reaches_dispatch0 hinj (by decide) rfl rfl ports c rsp0
    · simp only [hn, if_false]
      exact reaches_dispatchE hinj (by decide) rfl rfl ports c rsp0 _
  | irq k =>
    rw [deliver, raise_isrsInit c rsp0 none (irq_entry k), Option.bind_some]
    exact reaches_irq hinj ports k c rsp0
  | invalidOpcode =>
    rw [deliver, raise_isrsInit c rsp0 none (show entries.lookup 0x06 = _ from rfl), Option.bind_some]
    exact reaches_dispatch0 hinj (by decide) rfl rfl ports c rsp0
  | generalProtection errorCode =>
    rw [deliver, raise_isrsInit c rsp0 _ (show entries.lookup 0x0d = _ from rfl), Option.bind_some]
    exact reaches_dispatchE hinj (by decide) rfl rfl ports c rsp0 errorCode
  | pageFault errorCode =>
    rw [deliver, raise_isrsInit c rsp0 _ (show entries.lookup 0x0e = _ from rfl), Option.bind_some]
    exact reaches_dispatchE hinj (by decide) rfl rfl ports c rsp0 errorCode

theorem fromU8_irq (k : Fin 16) :
    Interrupt.fromU8 (UInt64.ofNat (0x20 + k.val)).toUInt8 = .irq (.ofNat k.val) := by
  revert k
  decide

theorem interrupt_irq {c : Cpu} (hmode : c.cs &&& 3 = 0 ∨ c.cs &&& 3 = 3) (k : Fin 16) :
    interrupt (c.trapFrame (.ofNat (0x20 + k.val)) 0) =
      some (if k = 0 then if c.cs &&& 3 = 3 then .switch else .ignore
        else if k = 1 then .keyboard else .ignore, if k.val < 8 then [0x20] else [0x20, 0xa0]) := by
  have hzero : UInt8.ofNat k.val = 0 ↔ k = 0 := by
    revert k
    decide
  have hone : UInt8.ofNat k.val = 1 ↔ k = 1 := by
    revert k
    decide
  have hack : (0x20 :: if 0x08 ≤ UInt8.ofNat k.val then [0xa0] else []) =
      if k.val < 8 then [0x20] else [0x20, 0xa0] := by
    revert k
    decide
  have hvector : (c.trapFrame (.ofNat (0x20 + k.val)) 0).interruptVector = .ofNat (0x20 + k.val) := rfl
  have horigin : (c.trapFrame (.ofNat (0x20 + k.val)) 0).cs = c.cs := rfl
  simp only [interrupt, hvector, fromU8_irq, hzero, hone, hack, origin, horigin]
  rcases hmode with h | h
  · by_cases hk : k = 0 <;> by_cases hk' : k = 1 <;> simp [h, hk, hk']
  · by_cases hk : k = 0 <;> by_cases hk' : k = 1 <;> simp [h, hk, hk']

theorem due_work {c : Cpu} (hmode : c.cs &&& 3 = 0 ∨ c.cs &&& 3 = 3) (ports : Nat → UInt8) (r : Request)
    (hr : ∀ n, r = .int n → c.cs &&& 3 = 3) {f : TrapFrame} (hf : r.due ports c = .call f) :
    interrupt f = r.work c := by
  cases r with
  | int n =>
    rw [Request.work]
    by_cases hn : n = 0x7f
    · have hcs : (c.trapFrame 0x7f 0).cs &&& 3 = 3 := hr n rfl
      have horigin : origin (c.trapFrame 0x7f 0) = some .user := by
        simp [origin, hcs]
      rw [Request.due, if_pos hn] at hf
      cases hf
      rw [if_pos hn]
      exact congrArg (fun o => Option.bind o _) horigin
    · rw [Request.due, if_neg hn] at hf
      cases hf
      rw [if_neg hn]
      rfl
  | irq k =>
    rw [Request.due] at hf
    split at hf
    · cases hf
    · cases hf
      exact interrupt_irq hmode k
  | invalidOpcode =>
    cases hf
    rfl
  | generalProtection errorCode =>
    cases hf
    rfl
  | pageFault errorCode =>
    cases hf
    rfl

/-- The vectors with a gate are those that `interrupt` has a name for. -/
theorem gate_iff_named (hbss : ∀ x, idt ≤ x → x < idt + IDT_SIZE → m x = 0) (v : UInt8) :
    (readGate idt (isrsInit addr idt m) v.toNat).valid ↔ Interrupt.fromU8 v ≠ .other v := by
  have hall : ∀ n : Fin 256, (entries.lookup n.val).isSome =
      decide (Interrupt.fromU8 (.ofNat n.val) ≠ .other (.ofNat n.val)) := by
    decide +kernel
  have hv := hall ⟨v.toNat, v.toNat_lt⟩
  simp only [UInt8.ofNat_toNat] at hv
  cases h : entries.lookup v.toNat with
  | none =>
    have hnot : ¬ Interrupt.fromU8 v ≠ .other v := by
      simpa [h] using hv
    simp [IdtGate.valid, isrsInit_no_gate hbss v.toNat_lt h, hnot]
  | some row =>
    have hnamed : Interrupt.fromU8 v ≠ .other v := by
      simpa [h] using hv
    rw [IdtGate.valid, isrsInit_gate h]
    by_cases hn : v.toNat = 0x7f
    · rw [hn] at h
      cases h
      simp [IdtGate.ofFields, hnamed]
      decide
    · rw [entries_flags h hn]
      simp [IdtGate.ofFields, hnamed]
      decide

end kernel

/-- With the table of `isrs_init`, wherever the labels are in memory: a request
that comes in user or in kernel mode calls `interrupt` with the registers of the
interrupted code and with its own vector, and `interrupt` does what is due for it.
IRQ 7 and 15 do so if their controller has them in service; if not, the interrupted
code goes on as it was. User code gets nowhere with `int` but to the system calls:
any other vector is a protection fault, in which the kernel panics. And no gate
leads to a vector that `interrupt` does not expect. -/
theorem interrupts_reach_kernel (addr : Isr → UInt64) (hinj : Function.Injective addr) (idt : Nat) (m : Mem)
    (hbss : ∀ x, idt ≤ x → x < idt + IDT_SIZE → m x = 0) (c : Cpu)
    (hmode : c.cs &&& 3 = 0 ∨ c.cs &&& 3 = 3) (rsp0 : UInt64) (ports : Nat → UInt8) (r : Request)
    (hr : ∀ n, r = .int n → c.cs &&& 3 = 3) :
    let table := isrsInit addr idt m
    (deliver table idt rsp0 c r).bind (reaches addr ports) = some (r.due ports c) ∧
      (∀ f, r.due ports c = .call f → interrupt f = r.work c) ∧
      ∀ v, (readGate idt table v.toNat).valid ↔ Interrupt.fromU8 v ≠ .other v :=
  ⟨deliver_reaches hinj ports hbss c rsp0 r hr, fun _ hf => due_work hmode ports r hr hf,
    fun v => gate_iff_named hbss v⟩

/-- Sixteen bytes for each label. -/
def labelAt (e : Isr) : UInt64 := 0xffff800000001000 + 16 * .ofNat (labels.idxOf e)

def interruptedCpu : Cpu := ⟨fun _ => 7, 0x1000, 0x2000, 0x200, 0x1b, 0x23, fun _ => 0⟩

/-- The timer in user mode, and IRQ 15 while the second controller has nothing in service. -/
theorem interrupts_reach_kernel_irqs :
    (∀ f, (Request.irq 0).due (fun _ => 0x40) interruptedCpu = .call f → interrupt f = some (.switch, [0x20])) ∧
      (deliver (isrsInit labelAt 0x8000 fun _ => 0) 0x8000 0x9000 interruptedCpu (.irq 15)).bind
        (reaches labelAt fun _ => 0x40) = some (.back interruptedCpu.context) :=
  have h := interrupts_reach_kernel labelAt (by decide +kernel) 0x8000 (fun _ => 0) (fun _ _ _ => rfl)
    interruptedCpu (.inr (by decide)) 0x9000 fun _ => 0x40
  ⟨(h (.irq 0) (by simp)).2.1, (h (.irq 15) (by simp)).1⟩

end Crabos.Abi
