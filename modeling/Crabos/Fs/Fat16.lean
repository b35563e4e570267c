import Crabos.Fs.Disk

/-!
# FAT16 (`kernel/src/fs/fat16.rs`)

Geometry, the links of the FAT, and reading of files. Numbers on the disk have
their own widths; the `usize` values that are computed from them stay far below
the end of their range. `request` counts the requests made to the drive, and
those for memory.
-/
namespace Crabos.Fat16

open Crabos.Disk

def DIR_ENTRY_SIZE : Nat := 32

def FAT_ENTRY_SIZE : Nat := 2

/-- The fields that are used. -/
structure BiosParameterBlock where
  sectorsPerCluster : UInt8
  reservedSectorCount : UInt16
  fatCount : UInt8
  rootDirectoryEntryCount : UInt16
  sectorsPerFat : UInt16
  deriving DecidableEq

namespace BiosParameterBlock

variable (b : BiosParameterBlock)

def firstFatSector : Nat := b.reservedSectorCount.toNat

def fatSectorCount : Nat := b.sectorsPerFat.toNat

def allFatsSectorCount : Nat := b.fatCount.toNat * b.fatSectorCount

def firstRootDirSector : Nat := b.firstFatSector + b.allFatsSectorCount

def rootDirSectorCount : Nat := b.rootDirectoryEntryCount.toNat * DIR_ENTRY_SIZE / SECTOR_SIZE

/-- `sectors_per_cluster()`. -/
def spc : Nat := b.sectorsPerCluster.toNat

def clustersBase : Nat := b.firstRootDirSector + b.rootDirSectorCount

/-- Cluster numbers are 2-indexed. -/
def firstClusterSector (cluster : Nat) : Io Nat :=
  if cluster < 2 then .error (.panic .underflow)
  else .ok (b.clustersBase + (cluster - 2) * b.spc)

def clusterSectors (cluster : Nat) : Io (List Nat) :=
  (b.firstClusterSector cluster).map fun first => List.range' first b.spc

end BiosParameterBlock

/-- `transmute`: the block as it is laid out in the first sector. -/
def BiosParameterBlock.ofSector (s : Sector) : BiosParameterBlock where
  sectorsPerCluster := byte s 0x0d
  reservedSectorCount := word s 0x0e
  fatCount := byte s 0x10
  rootDirectoryEntryCount := word s 0x11
  sectorsPerFat := word s 0x16

def BiosParameterBlock.read (part : Partition) (request : Nat) : Io BiosParameterBlock :=
  (part.readSectors request 0).map BiosParameterBlock.ofSector

/-- Requests for memory are numbered with those to the drive; `alloc` tells which
of them are met. -/
structure Filesystem where
  part : Partition
  bpb : BiosParameterBlock
  alloc : Nat → Bool

namespace Filesystem

variable (fs : Filesystem)

/-- The same volume when other requests are refused. -/
def under (fault : Nat → Option AtaError) (alloc : Nat → Bool) : Filesystem :=
  { fs with part := { fs.part with drive := { fs.part.drive with fault := fault } }, alloc := alloc }

def maxCluster : Nat := fs.bpb.fatSectorCount * SECTOR_SIZE / FAT_ENTRY_SIZE

/-- The sector of the FAT with the entry of a cluster. -/
def fatSector (cluster : Nat) : Nat :=
  fs.bpb.firstFatSector + cluster * FAT_ENTRY_SIZE / SECTOR_SIZE

def nextCluster (request cluster : Nat) : Io (Option Nat) :=
  if fs.maxCluster ≤ cluster then .error (.panic .clusterOutOfBounds)
  else
    match fs.part.readSectors request (fs.fatSector cluster) with
    | .error e => .error e
    | .ok buff =>
      let next := (word buff (cluster * FAT_ENTRY_SIZE % SECTOR_SIZE)).toNat
      if 0xfff8 ≤ next then .ok none
      else if next = 0xfff7 then .error (.panic .badCluster)
      else .ok (some next)

end Filesystem

/-- The place in a file; both moves to the next sector and to the next cluster
are left for the read that needs them. -/
structure Seek where
  cluster : Option Nat
  sector : Nat
  offset : Nat
  deriving DecidableEq, Repr

/-- A call of `File::read`: what it returns, the buffer, and where the file
and the drive stand after it. -/
structure ReadCall where
  result : Io Nat
  buf : List UInt8
  seek : Seek
  request : Nat

namespace Filesystem

variable (fs : Filesystem)

/-- A sector that has been read to its end is left. -/
def leaveSector (s : Seek) : Seek :=
  if s.offset = SECTOR_SIZE then { s with offset := 0, sector := s.sector + 1 } else s

/-- A cluster that has been read to its end is left. The sector is set before
the link is read. -/
def leaveCluster (request : Nat) (s : Seek) : Io Unit × Seek × Nat :=
  if s.sector = fs.bpb.spc then
    match s.cluster with
    | none => (.ok (), { s with sector := 0 }, request)
    | some c =>
      match fs.nextCluster request c with
      | .error e => (.error e, { s with sector := 0 }, request + 1)
      | .ok next => (.ok (), { s with sector := 0, cluster := next }, request + 1)
  else (.ok (), s, request)

/-- The sector at the position, read from the disk. -/
def sectorAt (request cluster sector : Nat) : Io Sector :=
  match fs.bpb.firstClusterSector cluster with
  | .error e => .error e
  | .ok first => fs.part.readSectors request (first + sector)

/-- The loop of `File::read`. Every turn that goes on has filled at least one
byte of the buffer, so its length bounds the number of turns. -/
def readLoop : Nat → Nat → Seek → List UInt8 → Nat → ReadCall
  | 0, request, seek, buf, total => ⟨.ok total, buf, seek, request⟩
  | turns + 1, request, seek, buf, total =>
    if buf.length = 0 then ⟨.ok total, buf, seek, request⟩
    else
      match fs.leaveCluster request (leaveSector seek) with
      | (.error e, seek, request) => ⟨.error e, buf, seek, request⟩
      | (.ok _, seek, request) =>
        match seek.cluster with
        | none => ⟨.ok total, buf, seek, request⟩
        | some cluster =>
          match fs.sectorAt request cluster seek.sector with
          | .error e => ⟨.error e, buf, seek, request + 1⟩
          | .ok sector =>
            if SECTOR_SIZE < seek.offset then ⟨.error (.panic .underflow), buf, seek, request + 1⟩
            else
              let byteCount := min (SECTOR_SIZE - seek.offset) buf.length
              let rest := readLoop turns (request + 1)
                { seek with offset := seek.offset + byteCount }
                (buf.drop byteCount) (total + byteCount)
              { rest with buf := (sector.toList.drop seek.offset).take byteCount ++ rest.buf }

/-- `File::read` with the lock of its seek held. -/
def read (request : Nat) (seek : Seek) (buf : List UInt8) : ReadCall :=
  fs.readLoop buf.length request seek buf 0

end Filesystem

/-- `DirEntry::open` for a file. -/
def Seek.start (firstCluster : Nat) : Seek := ⟨some firstCluster, 0, 0⟩

/-- The fields of a directory entry that are used. -/
structure RawDirEntry where
  basename : Vector UInt8 8
  extension : Vector UInt8 3
  attributes : UInt8
  clusterHi : UInt16
  clusterLo : UInt16
  size : Nat
  deriving DecidableEq

namespace RawDirEntry

/-- `transmute`: the entry at an index of a sector. -/
def ofSector (s : Sector) (i : Nat) : RawDirEntry :=
  let at_ := DIR_ENTRY_SIZE * i
  { basename := Vector.ofFn fun k => byte s (at_ + k)
    extension := Vector.ofFn fun k => byte s (at_ + 8 + k)
    attributes := byte s (at_ + 11)
    clusterHi := word s (at_ + 20)
    clusterLo := word s (at_ + 26)
    size := (word s (at_ + 28)).toNat + 65536 * (word s (at_ + 30)).toNat }

def toAsciiLowercase (b : UInt8) : UInt8 := if 0x41 ≤ b ∧ b ≤ 0x5a then b + 0x20 else b

/-- Trailing spaces are popped. -/
def trim (name : List UInt8) : List UInt8 := (name.reverse.dropWhile (· == 0x20)).reverse

variable (e : RawDirEntry)

def filename : List UInt8 :=
  let name := trim (e.basename.toList.map toAsciiLowercase)
  if e.extension.toList.head? = some 0x20 then name
  else trim (name ++ [0x2e] ++ e.extension.toList.map toAsciiLowercase)

def isDir : Bool := e.attributes &&& 0x10 != 0

def firstCluster : Nat := e.clusterLo.toNat ||| e.clusterHi.toNat <<< 16

def firstByte : UInt8 := e.basename.toList.headD 0

end RawDirEntry

/-- `DirectoryKind`. -/
inductive Directory where
  | root
  | sub (dirent : RawDirEntry)
  deriving DecidableEq

inductive Open where
  | file (dirent : RawDirEntry) (seek : Seek)
  | dir (directory : Directory)
  deriving DecidableEq

/-- `DirEntry::open`. -/
def RawDirEntry.opened (e : RawDirEntry) : Open :=
  if e.isDir then .dir (.sub e) else .file e (Seek.start e.firstCluster)

end Crabos.Fat16
