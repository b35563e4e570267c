import Mathlib
import Crabos.Mem.Phys

/-!
# The size-class heap (`kernel/src/mem/kalloc.rs`)

Nine free lists, one for each class size, are threaded through the free blocks
themselves: the first word of a free block is the `next` pointer of its
`FreeObject`. A class whose list is empty asks `kvirt::alloc_page` for a page
and cuts it into blocks; the outcome of that call is an input of the model.
A result of `none` stands for a kernel panic.
-/
namespace Crabos.Kalloc

open Crabos.Words

/-- `core::alloc::Layout`: the alignment is always a power of two. -/
structure Layout where
  size : Nat
  align : Nat
  align_pow2 : ∃ k, align = 2 ^ k
  deriving DecidableEq

/-- `free` is the `next` field of the `FreeObject` at the head of the class. -/
structure SizeClass where
  size : Nat
  free : Option Nat
  deriving DecidableEq, Repr

/-- The static `ALLOCATOR` together with the kernel memory it lives in. -/
structure Heap where
  classes : Fin 9 → SizeClass
  mem : Mem

/-- The class sizes 16, 32, .., 4096 listed by `Allocator::new`. -/
def classSize (i : Fin 9) : Nat := 16 * 2 ^ i.val

/-- `Allocator::new`, over whatever the memory holds. -/
def new (mem : Mem) : Heap := ⟨fun i => ⟨classSize i, none⟩, mem⟩

def setFree (h : Heap) (i : Fin 9) (f : Option Nat) (mem : Mem) : Heap :=
  ⟨Function.update h.classes i ⟨(h.classes i).size, f⟩, mem⟩

/-- `FreeObject::take`: pop the first block and clear its link. -/
def take (h : Heap) (i : Fin 9) : Option Nat × Heap :=
  match (h.classes i).free with
  | none => (none, h)
  | some p => (some p, setFree h i (link h.mem p) (Function.update h.mem p 0))

/-- `SizeClass::add_free`: the old head goes into the block, the block becomes the head. -/
def addFree (h : Heap) (i : Fin 9) (p : Nat) : Heap :=
  setFree h i (some p) (Function.update h.mem p ((h.classes i).free.getD 0))

/-- `(0..PAGE_SIZE).step_by(size)` -/
def offsets (size : Nat) : List Nat := List.range' 0 ((PAGE_SIZE + size - 1) / size) size

/-- Every offset of a fresh page is pushed on the free list. -/
def carve (h : Heap) (i : Fin 9) (page : Nat) : Heap :=
  (offsets (h.classes i).size).foldl (fun h offset => addFree h i (page + offset)) h

def allocUninitialized (h : Heap) (i : Fin 9) (page : Option Nat) :
    Option (Except MemoryExhausted Nat × Heap) :=
  match take h i with
  | (some p, h') => some (.ok p, h')
  | (none, h') =>
    match page with
    | none => some (.error ⟨⟩, h')
    | some q =>
      match take (carve h' i q) i with
      | (some p, h'') => some (.ok p, h'')
      | (none, _) => none

/-- `SizeClass::alloc`: the block is cleared over the whole class size. -/
def alloc (h : Heap) (i : Fin 9) (page : Option Nat) : Option (Except MemoryExhausted Nat × Heap) :=
  match allocUninitialized h i page with
  | none => none
  | some (.error e, h') => some (.error e, h')
  | some (.ok p, h') => some (.ok p, ⟨h'.classes, zero h'.mem p (h'.classes i).size⟩)

def fits (c : SizeClass) (layout : Layout) : Bool :=
  decide (c.size ≥ layout.size) && decide (c.size ≥ layout.align)

/-- `Allocator::class`: the first class that fits; none of them is a panic. -/
def classOf (h : Heap) (layout : Layout) : Option (Fin 9) :=
  (List.finRange 9).find? fun i => fits (h.classes i) layout

def allocLayout (h : Heap) (layout : Layout) (page : Option Nat) :
    Option (Except MemoryExhausted Nat × Heap) :=
  (classOf h layout).bind fun i => alloc h i page

def freeLayout (h : Heap) (layout : Layout) (p : Nat) : Option Heap :=
  (classOf h layout).map fun i => addFree h i p

end Crabos.Kalloc
