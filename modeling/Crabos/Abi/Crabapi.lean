import Crabos.Abi.Switch

/-!
# The system call stubs of user code (`userland/crabapi/src/syscall.rs`)

A stub loads the number of the call and its arguments into registers and
raises interrupt `0x7f`. The kernel decodes the frame that this makes, and
leaves its result in `rax`, where the stub finds it again.
-/
namespace Crabos.Abi

open Crabos.Interface
open Crabos.Task (TrapFrame View)

/-- The discriminants. -/
def vector : Interface.Syscall → UInt64
  | .allocPage => 1
  | .releasePage => 2
  | .modifyPage => 3
  | .releaseHandle => 4
  | .cloneHandle => 5
  | .createPageContext => 6
  | .debug => 7
  | .setPageContext => 8
  | .getPageContext => 9
  | .createTask => 10
  | .exit => 11
  | .mapPhysicalMemory => 12
  | .readStream => 13
  | .writeStream => 14
  | .openFile => 15

def Cpu.set (c : Cpu) (r : Reg) (v : UInt64) : Cpu := { c with reg := Function.update c.reg r v }

def syscall0 (n : Interface.Syscall) (c : Cpu) : Cpu := c.set .rax (vector n)

def syscall1 (n : Interface.Syscall) (a : UInt64) (c : Cpu) : Cpu := (syscall0 n c).set .rdi a

def syscall2 (n : Interface.Syscall) (a b : UInt64) (c : Cpu) : Cpu := (syscall1 n a c).set .rsi b

def syscall3 (n : Interface.Syscall) (a b d : UInt64) (c : Cpu) : Cpu := (syscall2 n a b c).set .rdx d

def syscall4 (n : Interface.Syscall) (a b d x : UInt64) (c : Cpu) : Cpu :=
  (syscall3 n a b d c).set .rcx x

/-- A call of one of the stubs. -/
inductive UserCall where
  | allocPage (baseAddr pageCount flags : UInt64)
  | releasePage (baseAddr pageCount : UInt64)
  | modifyPage (baseAddr pageCount flags : UInt64)
  | mapPhysicalMemory (baseAddr physicalAddr pageCount flags : UInt64)
  | cloneHandle (handle : UInt64)
  | releaseHandle (handle : UInt64)
  | createPageContext
  | debug
  | setPageContext (pageCtx : UInt64)
  | getPageContext
  | createTask (pageCtx rip rsp : UInt64)
  | exit (status : UInt64)
  | readStream (file buff buffLen : UInt64)
  | writeStream (file buff buffLen : UInt64)
  | openFile (path pathLen flags : UInt64)
  deriving DecidableEq

/-- The registers when the stub raises the interrupt. -/
def UserCall.stub : UserCall → Cpu → Cpu
  | .allocPage baseAddr pageCount flags => syscall3 .allocPage baseAddr pageCount flags
  | .releasePage baseAddr pageCount => syscall2 .releasePage baseAddr pageCount
  | .modifyPage baseAddr pageCount flags => syscall3 .modifyPage baseAddr pageCount flags
  | .mapPhysicalMemory baseAddr physicalAddr pageCount flags =>
    syscall4 .mapPhysicalMemory baseAddr physicalAddr pageCount flags
  | .cloneHandle handle => syscall1 .cloneHandle handle
  | .releaseHandle handle => syscall1 .releaseHandle handle
  | .createPageContext => syscall0 .createPageContext
  | .debug => syscall0 .debug
  | .setPageContext pageCtx => syscall1 .setPageContext pageCtx
  | .getPageContext => syscall0 .getPageContext
  | .createTask pageCtx rip rsp => syscall3 .createTask pageCtx rip rsp
  | .exit status => syscall1 .exit status
  | .readStream file buff buffLen => syscall3 .readStream file buff buffLen
  | .writeStream file buff buffLen => syscall3 .writeStream file buff buffLen
  | .openFile path pathLen flags => syscall3 .openFile path pathLen flags

/-- The kernel's side of the call, with the arguments of the stub. -/
def UserCall.served (v : View Syscall.Env) (i : Syscall.Input) : UserCall → Syscall.Served
  | .allocPage baseAddr pageCount flags =>
    Syscall.allocPage v baseAddr.toNat pageCount.toNat flags.toNat i
  | .releasePage baseAddr pageCount => Syscall.releasePage v baseAddr.toNat pageCount.toNat i
  | .modifyPage baseAddr pageCount flags =>
    Syscall.modifyPage v baseAddr.toNat pageCount.toNat flags.toNat i
  | .mapPhysicalMemory baseAddr physicalAddr pageCount flags =>
    Syscall.mapPhysicalMemory v baseAddr.toNat physicalAddr.toNat pageCount.toNat flags.toNat i
  | .cloneHandle handle => Syscall.cloneHandle v handle.toNat i
  | .releaseHandle handle => Syscall.releaseHandle v handle.toNat
  | .createPageContext => Syscall.createPageContext v i
  | .debug => some (Syscall.finish v.env (.ok OK))
  | .setPageContext pageCtx => Syscall.setPageContext v pageCtx.toNat
  | .getPageContext => Syscall.getPageContext v i
  | .createTask pageCtx rip rsp => Syscall.createTask v pageCtx.toNat rip rsp i
  | .exit _ => none
  | .readStream file buff buffLen => Syscall.readStream v file.toNat buff.toNat buffLen.toNat i
  | .writeStream file buff buffLen => Syscall.writeStream v file.toNat buff.toNat buffLen.toNat i
  | .openFile path pathLen flags => Syscall.openFile v path.toNat pathLen.toNat flags.toNat i

def ERR_FLAG : UInt64 := 0x8000000000000000

/-- `TryFrom<u64>` of `SysError`. -/
def sysErrorFrom : Nat → Option SysError
  | 0xffffffff00000001 => some .badSyscall
  | 0xffffffff00000002 => some .badPointer
  | 0xffffffff00000003 => some .alreadyMapped
  | 0xffffffff00000004 => some .memoryExhausted
  | 0xffffffff00000005 => some .illegalValue
  | 0xffffffff00000006 => some .wrongObjectKind
  | 0xffffffff00000007 => some .badHandle
  | 0xffffffff00000008 => some .ioError
  | 0xffffffff00000009 => some .noFile
  | 0xffffffff00000010 => some .invalidOperation
  | _ => none

/-- `From<SyscallResult>`; `none` is the panic on a number that is no error. -/
def fromSyscallResult (raw : UInt64) : Option (SysResult Nat) :=
  if raw &&& ERR_FLAG = 0 then some (.ok raw.toNat) else (sysErrorFrom raw.toNat).map .error

theorem tryFrom_vector (n : Interface.Syscall) : Interface.Syscall.tryFrom (vector n).toNat = some n := by
  cases n <;> rfl

theorem sysErrorFrom_code (e : SysError) : sysErrorFrom e.code = some e := by
  cases e <;> rfl

theorem code_lt (e : SysError) : e.code < 2 ^ 64 ∧ 2 ^ 63 ≤ e.code := by
  cases e <;> decide

theorem errFlag_and (raw : UInt64) : raw &&& ERR_FLAG = 0 ↔ raw.toNat < 2 ^ 63 := by
  have hflag : ERR_FLAG.toNat = 2 ^ 63 := rfl
  rw [← UInt64.toNat_inj, UInt64.toNat_and, hflag, Nat.and_two_pow]
  have hlt := raw.toNat_lt
  rw [Nat.testBit_eq_decide_div_mod_eq]
  by_cases h : raw.toNat / 2 ^ 63 % 2 = 1
  · simp
    omega
  · simp
    omega

/-- User code gets back the result of the kernel, if a number in it keeps clear of the error flag. -/
theorem fromSyscallResult_rax {r : SysResult Nat} (h : ∀ n, r = .ok n → n < 2 ^ 63) :
    fromSyscallResult r.rax = some r := by
  cases r with
  | ok n =>
    have hn := h n rfl
    have hto : (UInt64.ofNat n).toNat = n := by
      rw [UInt64.toNat_ofNat', Nat.mod_eq_of_lt (by omega)]
    rw [SysResult.rax, fromSyscallResult, if_pos ((errFlag_and _).mpr (by rw [hto]; exact hn)), hto]
  | error e =>
    obtain ⟨hlt, hge⟩ := code_lt e
    have hto : (UInt64.ofNat e.code).toNat = e.code := by
      rw [UInt64.toNat_ofNat', Nat.mod_eq_of_lt hlt]
    rw [SysResult.rax, fromSyscallResult, if_neg fun h => absurd ((errFlag_and _).mp h) (by rw [hto]; omega),
      hto, sysErrorFrom_code]
    rfl

/-- The frame of a stub is served as the call with the arguments of the stub. -/
theorem serve_stub (u : UserCall) (c : Cpu) (v : View Syscall.Env) (i : Syscall.Input) :
    Syscall.serve v ((u.stub c).trapFrame SYSCALL 0) .entry i = u.served v i := by
  cases u <;> rfl

/-- A system call from user code to the kernel and back, for every stub, every
state of the processor and every state of the kernel: the call is served with
the arguments of the stub, and when the kernel has a result, user code goes on
after the stub with that result, and with all other registers as they were. -/
theorem user_call_is_kernel_call (u : UserCall) (c : Cpu) (g : Gate) :
    let e := entry (u.stub c) g.rsp0 g.handler SYSCALL
    (∀ v i, Syscall.serve v (arrived e) .entry i = u.served v i) ∧
      ∀ left (r : SysResult Nat), (∀ n, r = .ok n → n < 2 ^ 63) →
        let after := exit (handled e left ((arrived e).withRax r.rax))
        fromSyscallResult (after.reg .rax) = some r ∧
          after.context = (u.stub c).context.withRax r.rax := by
  simp only [arrived_entry]
  refine ⟨fun v i => serve_stub u c v i, fun left r hr => ?_⟩
  have hcontext : (exit (handled (entry (u.stub c) g.rsp0 g.handler SYSCALL) left
      (((u.stub c).trapFrame SYSCALL 0).withRax r.rax))).context = (u.stub c).context.withRax r.rax := by
    rw [exit_handled]
    rfl
  refine ⟨?_, hcontext⟩
  have hrax := congrArg (fun x => x.regs.rax) hcontext
  simp only [Cpu.context, Context.withRax] at hrax
  rw [hrax, fromSyscallResult_rax hr]

theorem user_call_is_kernel_call_clone :
    let e := entry ((UserCall.cloneHandle 1).stub userCpu) kernelGate.rsp0 kernelGate.handler SYSCALL
    let after := exit (handled e userCpu ((arrived e).withRax (SysResult.rax (.ok 2))))
    fromSyscallResult (after.reg .rax) = some (.ok 2) ∧
      after.context = ((UserCall.cloneHandle 1).stub userCpu).context.withRax 2 := by
  apply (user_call_is_kernel_call (.cloneHandle 1) userCpu kernelGate).2 userCpu (.ok 2)
  intro n hn
  cases hn
  decide

end Crabos.Abi
