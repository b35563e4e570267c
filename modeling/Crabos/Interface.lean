import Mathlib

/-!
# The system call interface (`interface/src/syscall.rs`)

The numbers of the calls and of the errors, as user code sees them.
-/
namespace Crabos.Interface

inductive Syscall where
  | allocPage
  | releasePage
  | modifyPage
  | releaseHandle
  | cloneHandle
  | createPageContext
  | debug
  | setPageContext
  | getPageContext
  | createTask
  | exit
  | mapPhysicalMemory
  | readStream
  | writeStream
  | openFile
  deriving DecidableEq, Repr

/-- `TryFrom<u64>`. -/
def Syscall.tryFrom : Nat → Option Syscall
  | 1 => some .allocPage
  | 2 => some .releasePage
  | 3 => some .modifyPage
  | 4 => some .releaseHandle
  | 5 => some .cloneHandle
  | 6 => some .createPageContext
  | 7 => some .debug
  | 8 => some .setPageContext
  | 9 => some .getPageContext
  | 10 => some .createTask
  | 11 => some .exit
  | 12 => some .mapPhysicalMemory
  | 13 => some .readStream
  | 14 => some .writeStream
  | 15 => some .openFile
  | _ => none

inductive SysError where
  | badSyscall
  | badPointer
  | alreadyMapped
  | memoryExhausted
  | illegalValue
  | wrongObjectKind
  | badHandle
  | ioError
  | noFile
  | invalidOperation
  deriving DecidableEq, Repr

def SysError.code : SysError → Nat
  | .badSyscall => 0xffffffff00000001
  | .badPointer => 0xffffffff00000002
  | .alreadyMapped => 0xffffffff00000003
  | .memoryExhausted => 0xffffffff00000004
  | .illegalValue => 0xffffffff00000005
  | .wrongObjectKind => 0xffffffff00000006
  | .badHandle => 0xffffffff00000007
  | .ioError => 0xffffffff00000008
  | .noFile => 0xffffffff00000009
  | .invalidOperation => 0xffffffff00000010

def OK : Nat := 0

abbrev SysResult (α : Type) := Except SysError α

/-- What `dispatch` leaves in `rax`. -/
def SysResult.rax (r : SysResult Nat) : UInt64 :=
  match r with
  | .ok u => UInt64.ofNat u
  | .error e => UInt64.ofNat e.code

end Crabos.Interface
