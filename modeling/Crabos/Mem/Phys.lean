import Crabos.Lib.Words

/-!
# Physical frames (`kernel/src/mem/phys.rs`)

Frames come from the bump pointers of the managed regions or from a free list
threaded through the freed frames themselves. A side table counts the owners
of each frame. A frame is reached through the temporary mapping, so its words
are read and written at their physical addresses here.
-/
namespace Crabos

open Crabos.Words

def PAGE_SIZE : Nat := 0x1000

structure MemoryExhausted where
  deriving DecidableEq, Repr

namespace Phys

def MAX_PHYS_PAGE : Nat := 2 ^ 48

inductive Panic where
  | addrAboveMax
  | rcAboveEnd
  | decRefUnderflowed
  deriving DecidableEq, Repr

structure PhysRegion where
  beginAddr : Nat
  endAddr : Nat
  deriving DecidableEq, Repr

/-- The statics of the allocator with the physical memory; `rc` is the table
from `_phys_rc` to `_phys_rc_end`, one counter for each page number. -/
structure PhysMem where
  regions : List PhysRegion
  bumpAlloc : List Nat
  refCountEnabled : Bool
  nextFree : Option Nat
  rc : Nat → Nat
  mem : Mem

/-- The frame lies in a region that the allocator manages. -/
def Managed (regions : List PhysRegion) (raw : Nat) : Prop :=
  ∃ r ∈ regions, r.beginAddr ≤ raw ∧ raw < r.endAddr

instance (regions : List PhysRegion) (raw : Nat) : Decidable (Managed regions raw) :=
  inferInstanceAs (Decidable (∃ r ∈ regions, r.beginAddr ≤ raw ∧ raw < r.endAddr))

/-- The index of the counter of a frame; memory outside the regions has none. -/
def refCount (p : PhysMem) (raw : Nat) : Except Panic (Option Nat) :=
  if ¬ Managed p.regions raw then .ok none
  else if MAX_PHYS_PAGE < raw then .error .addrAboveMax
  else if MAX_PHYS_PAGE / PAGE_SIZE < raw / PAGE_SIZE then .error .rcAboveEnd
  else .ok (some (raw / PAGE_SIZE))

def incRefForInit (p : PhysMem) (raw : Nat) : Except Panic PhysMem :=
  (refCount p raw).map fun
    | some n => { p with rc := Function.update p.rc n (p.rc n + 1) }
    | none => p

def incRef (p : PhysMem) (raw : Nat) : Except Panic PhysMem :=
  if p.refCountEnabled then incRefForInit p raw else .ok p

inductive PhysStatus where
  | inUse
  | shouldFree
  deriving DecidableEq, Repr

def decRef (p : PhysMem) (raw : Nat) : Except Panic (PhysStatus × PhysMem) :=
  if p.refCountEnabled then
    (refCount p raw).bind fun
      | some n =>
        if p.rc n = 0 then .error .decRefUnderflowed
        else
          .ok (if p.rc n = 1 then .shouldFree else .inUse,
            { p with rc := Function.update p.rc n (p.rc n - 1) })
      | none => .ok (.inUse, p)
  else .ok (.inUse, p)

/-- `Phys::new`; a `Phys` is the address of its frame. -/
def new (p : PhysMem) (raw : Nat) : Except Panic (Nat × PhysMem) :=
  (incRef p raw).map fun q => (raw, q)

def clone (p : PhysMem) (phys : Nat) : Except Panic (Nat × PhysMem) := new p phys

/-- `into_raw` forgets the `Phys`: the count stays as it is. -/
def intoRaw (phys : Nat) : Nat := phys

def fromRaw (raw : Nat) : Nat := raw

/-- The `Option<RawPhys>` stored in a free frame: a tag word, then the address. -/
def readLink (m : Mem) (f : Nat) : Option Nat := if m f = 0 then none else some (m (f + 8))

def writeLink (m : Mem) (f : Nat) : Option Nat → Mem
  | none => Function.update m f 0
  | some g => Function.update (Function.update m f 1) (f + 8) g

def allocFreelist (p : PhysMem) : Except Panic (Option Nat × PhysMem) :=
  match p.nextFree with
  | none => .ok (none, p)
  | some raw =>
    (new { p with nextFree := none } raw).map fun (phys, q) =>
      (some phys, { q with
        nextFree := readLink q.mem phys
        mem := zero (writeLink q.mem phys none) phys PAGE_SIZE })

/-- The first region with room gives its bump pointer and moves it on. -/
def bumpNext : List PhysRegion → List Nat → Option (Nat × List Nat)
  | region :: regions, alloc :: bump =>
    if region.endAddr ≤ alloc then
      (bumpNext regions bump).map fun (raw, bump') => (raw, alloc :: bump')
    else some (alloc, (alloc + PAGE_SIZE) :: bump)
  | _, _ => none

def allocNew (p : PhysMem) : Except Panic (Except MemoryExhausted Nat × PhysMem) :=
  match bumpNext p.regions p.bumpAlloc with
  | none => .ok (.error ⟨⟩, p)
  | some (raw, bump) =>
    (new { p with bumpAlloc := bump } raw).map fun (phys, q) =>
      (.ok phys, { q with mem := zero q.mem raw PAGE_SIZE })

def alloc (p : PhysMem) : Except Panic (Except MemoryExhausted Nat × PhysMem) :=
  (allocFreelist p).bind fun
    | (some phys, q) => .ok (.ok phys, q)
    | (none, q) => allocNew q

def drop (p : PhysMem) (phys : Nat) : Except Panic PhysMem :=
  (decRef p phys).map fun
    | (.inUse, q) => q
    | (.shouldFree, q) =>
      { q with mem := writeLink q.mem phys q.nextFree, nextFree := some phys }

/-- `init_ref_counts`: one count for each physical page that `each_phys`
yields, and one more for the page in `cr3`. -/
def initRefCounts (p : PhysMem) (eachPhys : List Nat) (cr3 : Nat) : Except Panic PhysMem :=
  ((eachPhys ++ [cr3]).foldlM incRefForInit p).map fun q => { q with refCountEnabled := true }

end Phys

end Crabos
