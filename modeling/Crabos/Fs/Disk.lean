import Mathlib

/-!
# Sectors (`kernel/src/device/ide.rs`, `kernel/src/device/mbr.rs`)

The contents of a drive do not change: nothing in this kernel writes to it.
Whether a read succeeds depends on when it is made. Requests are numbered, and
the drive answers each of them with the sector or with an error.
-/
namespace Crabos.Disk

def SECTOR_SIZE : Nat := 512

abbrev Sector := Vector UInt8 SECTOR_SIZE

/-- The error register. -/
abbrev AtaError := UInt8

/-- The places where reading a file system panics; `underflow` is the check of
a subtraction in the debug build. -/
inductive Panic where
  | lbaTooLarge
  | beyondPartition
  | clusterOutOfBounds
  | badCluster
  | underflow
  | notUtf8
  deriving DecidableEq, Repr

/-- A `FatError`, or a panic. -/
inductive Fault where
  | memoryExhausted
  | ata (e : AtaError)
  | panic (p : Panic)
  deriving DecidableEq, Repr

abbrev Io (α : Type) := Except Fault α

structure IdeDrive where
  sector : Nat → Sector
  fault : Nat → Option AtaError

def MAX_LBA : Nat := 0x00fffffe

/-- All callers pass one buffer. -/
def IdeDrive.readSectors (drive : IdeDrive) (request lba : Nat) : Io Sector :=
  if MAX_LBA < lba then .error (.panic .lbaTooLarge)
  else
    match drive.fault request with
    | some e => .error (.ata e)
    | none => .ok (drive.sector lba)

structure Partition where
  drive : IdeDrive
  lba : Nat
  sectors : Nat

def Partition.readSectors (part : Partition) (request lba : Nat) : Io Sector :=
  if part.sectors < lba + 1 then .error (.panic .beyondPartition)
  else part.drive.readSectors request (lba + part.lba)

/-- The byte at an index of a buffer. -/
def byte (s : Sector) (i : Nat) : UInt8 := s.toList.getD i 0

/-- Two bytes in little endian order. -/
def le16 (lo hi : UInt8) : UInt16 := UInt16.ofNat (lo.toNat + 256 * hi.toNat)

def word (s : Sector) (i : Nat) : UInt16 := le16 (byte s i) (byte s (i + 1))

@[simp] theorem sector_length (s : Sector) : s.toList.length = SECTOR_SIZE := Vector.length_toList

/-- A sector that starts with the given bytes. -/
def sectorOf (bytes : List UInt8) (pad : UInt8) : Sector :=
  ⟨((bytes ++ List.replicate SECTOR_SIZE pad).take SECTOR_SIZE).toArray, by simp⟩

theorem byte_pad {bytes : List UInt8} {pad : UInt8} {i : Nat} (hi : bytes.length ≤ i)
    (hlt : i < SECTOR_SIZE) : byte (sectorOf bytes pad) i = pad := by
  have hrep : i - bytes.length < SECTOR_SIZE := by omega
  rw [byte, sectorOf, Vector.toList_mk, List.getD_eq_getElem?_getD, List.getElem?_take_of_lt hlt,
    List.getElem?_append_right hi, List.getElem?_replicate, if_pos hrep]
  rfl

/-- A sector that the drive can be asked for. -/
def Partition.InReach (part : Partition) (lba : Nat) : Prop :=
  lba < part.sectors ∧ lba + part.lba ≤ MAX_LBA

instance (part : Partition) (lba : Nat) : Decidable (part.InReach lba) :=
  inferInstanceAs (Decidable (_ ∧ _))

theorem Partition.readSectors_inReach {part : Partition} {lba : Nat} (h : part.InReach lba)
    (request : Nat) : part.readSectors request lba =
      match part.drive.fault request with
      | some e => .error (.ata e)
      | none => .ok (part.drive.sector (lba + part.lba)) := by
  rw [readSectors, IdeDrive.readSectors, if_neg (Nat.not_lt.mpr h.1), if_neg (Nat.not_lt.mpr h.2)]

/-- No request fails. -/
def Partition.ErrorFree (part : Partition) : Prop := ∀ request, part.drive.fault request = none

end Crabos.Disk
