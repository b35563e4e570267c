import Crabos.Lib.Radix
import Crabos.Lib.Run
import Crabos.Mem.User
import Crabos.PageCalls

/-!
# Page tables (`kernel/src/mem/page.rs`)

The page tables are words of the physical memory, and the kernel reaches them
by virtual addresses only: the last entry of every PML4 points to the PML4
itself. Loads and stores go through a walk of the tables in `CR3`; the kernel
may write to read-only pages (`CR0.WP` is off), large pages are gone once the
boot code has unmapped low memory, and the TLB is left out. A `none` is a
panic or a page fault in the kernel.
-/
namespace Crabos.Page

open Crabos.Words Crabos.Radix Crabos.Interface Crabos.User Crabos.Run

structure Machine where
  phys : Phys.PhysMem
  cr3 : Nat
  tempPage : Nat

def Machine.mem (m : Machine) : Mem := m.phys.mem

def Machine.setMem (m : Machine) (mem : Mem) : Machine := { m with phys := { m.phys with mem := mem } }

/-- The address in an entry. -/
def frame (entry : Nat) : Nat := entry / PAGE_SIZE * PAGE_SIZE

/-- The processor follows an entry that is present. -/
def next (entry : Nat) : Option Nat := if entry % 2 = 1 then some (frame entry) else none

/-! The indices of an address into the four levels of tables. -/

def pml4Index (virt : Nat) : Nat := virt / 2 ^ 39 % 512

def pml3Index (virt : Nat) : Nat := virt / 2 ^ 30 % 512

def pml2Index (virt : Nat) : Nat := virt / 2 ^ 21 % 512

def pml1Index (virt : Nat) : Nat := virt / 2 ^ 12 % 512

def indices (virt : Nat) : List Nat :=
  [pml4Index virt, pml3Index virt, pml2Index virt, pml1Index virt]

def walk (mem : Mem) (cr3 virt : Nat) : Option Nat :=
  (find next mem cr3 (indices virt)).map fun f => f + virt % PAGE_SIZE

def load (m : Machine) (virt : Nat) : Option Nat := (walk m.mem m.cr3 virt).map m.mem

def store (m : Machine) (virt value : Nat) : Option Machine :=
  (walk m.mem m.cr3 virt).map fun a => m.setMem (Function.update m.mem a value)

/-! Entries. -/

def rawPhys (entry : Nat) : Option Nat := if frame entry ≠ 0 then some (frame entry) else none

def setFlags (entry flags : Nat) : Nat := frame entry ||| flags

def CURRENT_PML : Nat := 0xffffff8000000000

def pml4Entry (virt : Nat) : Nat := CURRENT_PML + 0x7ffffff000 + 8 * (virt / 2 ^ 39 % 2 ^ 9)

def pml3Entry (virt : Nat) : Nat := CURRENT_PML + 0x7fffe00000 + 8 * (virt / 2 ^ 30 % 2 ^ 18)

def pml2Entry (virt : Nat) : Nat := CURRENT_PML + 0x7fc0000000 + 8 * (virt / 2 ^ 21 % 2 ^ 27)

def pml1Entry (virt : Nat) : Nat := CURRENT_PML + 8 * (virt / 2 ^ 12 % 2 ^ 36)

/-! Frames, which are reached through the temporary page. -/

/-- The allocator has worked on a frame through `temp_page`: its entry was
zero before (`temp_map` panics otherwise) and is zero again (`temp_reset`). -/
def viaTemp (m : Machine) (p : Phys.PhysMem) : Option Machine :=
  (walk m.mem m.cr3 (pml1Entry m.tempPage)).bind fun a =>
    if m.mem a ≠ 0 then none
    else some { m with phys := { p with mem := Function.update p.mem a 0 } }

/-- `phys::alloc`; the inner `none` is `MemoryExhausted`. -/
def alloc (m : Machine) : Option (Option Nat × Machine) :=
  match Phys.alloc m.phys with
  | .error _ => none
  | .ok (.error _, p) => some (none, { m with phys := p })
  | .ok (.ok f, p) => (viaTemp m p).map fun m => (some f, m)

/-- The drop of a `Phys`; only a frame that is freed is touched. -/
def drop (m : Machine) (f : Nat) : Option Machine :=
  match Phys.decRef m.phys f, Phys.drop m.phys f with
  | .ok (.inUse, _), .ok p => some { m with phys := p }
  | .ok (.shouldFree, _), .ok p => viaTemp m p
  | _, _ => none

/-! Mapping. -/

inductive MapError where
  | alreadyMapped
  | cannotAllocatePageTable
  deriving DecidableEq, Repr

structure NotMapped where
  deriving DecidableEq, Repr

def tableFlags : Nat := PageFlags.PRESENT ||| PageFlags.WRITE ||| PageFlags.USER

/-- A new table at the entry if there is none; `false` if memory is exhausted. -/
def ensureTable (m : Machine) (ent : Nat) : Option (Bool × Machine) :=
  (load m ent).bind fun e =>
    if e = 0 then
      (alloc m).bind fun
        | (none, m) => some (false, m)
        | (some tab, m) => (store m ent (Phys.intoRaw tab ||| tableFlags)).map fun m => (true, m)
    else some (true, m)

/-- An early return drops the frame. -/
def mapFails (m : Machine) (phys : Nat) (e : MapError) : Option (Except MapError Unit × Machine) :=
  (drop m phys).map fun m => (.error e, m)

def mapLast (m : Machine) (phys virt flags : Nat) : Option (Except MapError Unit × Machine) :=
  (load m (pml1Entry virt)).bind fun e =>
    if e ≠ 0 then mapFails m phys .alreadyMapped
    else (store m (pml1Entry virt) (Phys.intoRaw phys ||| flags)).map fun m => (.ok (), m)

/-- All tables exist after this, or memory is exhausted. -/
def ensureTables (m : Machine) : List Nat → Option (Bool × Machine)
  | [] => some (true, m)
  | ent :: ents =>
    (ensureTable m ent).bind fun
      | (true, m) => ensureTables m ents
      | (false, m) => some (false, m)

def map (m : Machine) (phys virt flags : Nat) : Option (Except MapError Unit × Machine) :=
  (ensureTables m [pml4Entry virt, pml3Entry virt, pml2Entry virt]).bind fun
    | (true, m) => mapLast m phys virt flags
    | (false, m) => mapFails m phys .cannotAllocatePageTable

/-- The last level entry, if all four levels are nonzero. -/
def checkedPml1Entry (m : Machine) (virt : Nat) : Option (Except NotMapped Nat) :=
  (load m (pml4Entry virt)).bind fun e₄ =>
  if e₄ = 0 then some (.error ⟨⟩) else
  (load m (pml3Entry virt)).bind fun e₃ =>
  if e₃ = 0 then some (.error ⟨⟩) else
  (load m (pml2Entry virt)).bind fun e₂ =>
  if e₂ = 0 then some (.error ⟨⟩) else
  (load m (pml1Entry virt)).bind fun e₁ =>
  if e₁ = 0 then some (.error ⟨⟩) else some (.ok (pml1Entry virt))

/-- The entry that `checked_pml1_entry` points to. -/
def entry (m : Machine) (virt : Nat) : Option (Except NotMapped Nat) :=
  (checkedPml1Entry m virt).bind fun
    | .error e => some (.error e)
    | .ok ent => (load m ent).map .ok

/-- The frame is given up before its entry is cleared. -/
def unmap (m : Machine) (virt : Nat) : Option (Except NotMapped Unit × Machine) :=
  (checkedPml1Entry m virt).bind fun
    | .error e => some (.error e, m)
    | .ok ent =>
      (load m ent).bind fun e =>
        match rawPhys e with
        | none => some (.error ⟨⟩, m)
        | some raw =>
          (drop m (Phys.fromRaw raw)).bind fun m => (store m ent 0).map fun m => (.ok (), m)

def modify (m : Machine) (virt flags : Nat) : Option (Except NotMapped Unit × Machine) :=
  (checkedPml1Entry m virt).bind fun
    | .error e => some (.error e, m)
    | .ok ent =>
      (load m ent).bind fun e => (store m ent (setFlags e flags)).map fun m => (.ok (), m)

/-! Page contexts. -/

/-- Slot `i` of the current PML4, in the window. -/
def currentSlot (i : Nat) : Nat := 0xfffffffffffff000 + 8 * i

/-- The slots of the kernel, without the window. -/
def kernelSlots : List Nat := List.range' 256 255

def initKernelPml4Entry (m : Machine) (i : Nat) : Option Machine :=
  (ensureTable m (currentSlot i)).bind fun
    | (true, m) => some m
    | (false, _) => none

def initKernelPml4Entries (m : Machine) : Option Machine := run initKernelPml4Entry m kernelSlots

/-- One word of the copy in `PageCtx::new`. -/
def copySlot (pml4 : Nat) (m : Machine) (i : Nat) : Option Machine :=
  (load m (currentSlot i)).map fun e => m.setMem (Function.update m.mem (slot pml4 i) e)

/-- `PageCtx::new` writes the new PML4 through the temporary page. -/
def newCtx (m : Machine) : Option (Option Nat × Machine) :=
  (alloc m).bind fun
    | (none, m) => some (none, m)
    | (some pml4, m) =>
      (run (copySlot pml4) m kernelSlots).bind fun m' =>
      (viaTemp m { m'.phys with
        mem := Function.update m'.mem (slot pml4 511) (pml4 ||| PageFlags.PRESENT) }).map
        fun m => (some pml4, m)

def currentCtx (m : Machine) : Option (Nat × Machine) :=
  (Phys.new m.phys m.cr3).toOption.map fun (c, p) => (c, { m with phys := p })

def setCtx (m : Machine) (c : Nat) : Option Machine := drop { m with cr3 := c } m.cr3

/-! The page calls on these tables. -/

def pageEntry (m : Machine) (virt : Nat) : Option Nat :=
  (entry m virt).map fun
    | .ok e => e
    | .error _ => 0

def allocMap (m : Machine) (virt flags : Nat) : Option (SysResult Unit × Machine) :=
  (alloc m).bind fun
    | (none, m) => some (.error .memoryExhausted, m)
    | (some phys, m) =>
      (map m phys virt flags).bind fun
        | (.ok _, m) => some (.ok (), m)
        | (.error .alreadyMapped, _) => none
        | (.error .cannotAllocatePageTable, m) => some (.error .memoryExhausted, m)

def expect {ε : Type} : Except ε Unit × Machine → Option Machine
  | (.ok _, m) => some m
  | (.error _, _) => none

def mapPhys (m : Machine) (phys virt flags : Nat) : Option Machine :=
  (Phys.new m.phys phys).toOption.bind fun (phys, p) =>
    (map { m with phys := p } phys virt flags).bind expect

def tables : PageCalls.Tables Machine where
  entry := pageEntry
  allocMap := allocMap
  mapPhys := mapPhys
  unmap m virt := (unmap m virt).bind expect
  modify m virt flags := (modify m virt flags).bind expect

end Crabos.Page
