import Crabos.Device.Ide

/-!
# Partitions (`kernel/src/device/mbr.rs`)

The table of partitions is in the first sector of a drive. A partition passes
reads on to the drive, but none that goes beyond its end. What the file system
takes for a partition is refined by this one, over the ports of its drive.
-/
namespace Crabos.Mbr

open Crabos.Device Crabos.Ide
open Crabos.Disk (Sector AtaError byte word sectorOf SECTOR_SIZE)

/-- An entry of the table, which is packed. -/
structure MbrEntry where
  status : UInt8
  chsFirst : UInt8 × UInt8 × UInt8
  type_ : UInt8
  chsLast : UInt8 × UInt8 × UInt8
  lba : Nat
  sectors : Nat
  deriving DecidableEq, Repr

def PAD : Nat := 0x1be

def ENTRY_SIZE : Nat := 16

def le32 (s : Sector) (i : Nat) : Nat := (word s i).toNat + 2 ^ 16 * (word s (i + 2)).toNat

/-- `transmute`: the entry at an index. -/
def MbrEntry.ofSector (s : Sector) (idx : Nat) : MbrEntry :=
  let at_ := PAD + ENTRY_SIZE * idx
  { status := byte s at_
    chsFirst := (byte s (at_ + 1), byte s (at_ + 2), byte s (at_ + 3))
    type_ := byte s (at_ + 4)
    chsLast := (byte s (at_ + 5), byte s (at_ + 6), byte s (at_ + 7))
    lba := le32 s (at_ + 8)
    sectors := le32 s (at_ + 12) }

structure Partition where
  drive : Drive
  number : Nat
  lba : Nat
  sectors : Nat
  deriving DecidableEq, Repr

/-- The loop over the entries, of which those that are marked as active count. -/
def parts (drive : Drive) (s : Sector) : List (Option Partition) := (List.range 4).map fun idx =>
  let part := MbrEntry.ofSector s idx
  if part.status &&& 0x80 ≠ 0 then some ⟨drive, idx, part.lba, part.sectors⟩ else none

def zeroed : Sector := .replicate SECTOR_SIZE 0

def partitions (io : IdeIo) (drive : Drive) : M (Except Ide.ReadFault (List (Option Partition))) := do
  let r ← Ide.readSectors io drive 0 [zeroed]
  pure (r.1.map fun _ => parts drive (r.2.headD zeroed))

inductive ReadFault where
  | drive (e : Ide.ReadFault)
  | beyondPartition
  deriving DecidableEq, Repr

abbrev Reply := Except ReadFault Unit × List Sector

def Partition.readSectors (part : Partition) (io : IdeIo) (lba : Nat) (buffs : List Sector) : M Reply :=
  if part.sectors < lba + buffs.length then pure (.error .beyondPartition, buffs)
  else do
    let r ← Ide.readSectors io part.drive (lba + part.lba) buffs
    pure (r.1.mapError .drive, r.2)

section table

def le32Bytes (n : Nat) : List UInt8 := [.ofNat n, .ofNat (n / 2 ^ 8), .ofNat (n / 2 ^ 16), .ofNat (n / 2 ^ 24)]

/-- An entry as it stands on the drive. -/
def MbrEntry.toBytes (e : MbrEntry) : List UInt8 :=
  [e.status, e.chsFirst.1, e.chsFirst.2.1, e.chsFirst.2.2, e.type_, e.chsLast.1, e.chsLast.2.1, e.chsLast.2.2] ++
    le32Bytes e.lba ++ le32Bytes e.sectors

def MbrEntry.Fits (e : MbrEntry) : Prop := e.lba < 2 ^ 32 ∧ e.sectors < 2 ^ 32

instance (e : MbrEntry) : Decidable e.Fits := inferInstanceAs (Decidable (_ ∧ _))

/-- A first sector with a loader, a table and the signature. -/
def bootSector (code : List UInt8) (table : List MbrEntry) : Sector :=
  sectorOf (code ++ table.flatMap MbrEntry.toBytes ++ [0x55, 0xaa]) 0

theorem byte_sectorOf {bytes : List UInt8} {pad : UInt8} {i : Nat} (h : i < bytes.length)
    (hi : i < SECTOR_SIZE) : byte (sectorOf bytes pad) i = bytes.getD i 0 := by
  rw [byte, sectorOf, Vector.toList_mk, List.getD_eq_getElem?_getD, List.getD_eq_getElem?_getD,
    List.getElem?_take_of_lt hi, List.getElem?_append_left h]

/-- A byte in a row of records of one size. -/
theorem getElem?_records {α : Type} {f : α → List UInt8} {n : Nat} (hf : ∀ a, (f a).length = n) {l : List α}
    {i k : Nat} (hk : k < n) : (l.flatMap f)[n * i + k]? = l[i]?.bind fun a => (f a)[k]? := by
  induction l generalizing i with
  | nil => rfl
  | cons a l ih =>
    rw [List.flatMap_cons]
    cases i with
    | zero =>
      rw [Nat.mul_zero, Nat.zero_add, List.getElem?_append_left (by rw [hf]; exact hk)]
      rfl
    | succ i =>
      have hidx : n * (i + 1) + k - n = n * i + k := by
        rw [Nat.mul_add_one]
        omega
      rw [List.getElem?_append_right (by rw [hf, Nat.mul_add_one]; omega), hf, hidx, ih]
      rfl

variable {code : List UInt8} {table : List MbrEntry}

@[simp] theorem length_toBytes (e : MbrEntry) : e.toBytes.length = ENTRY_SIZE := rfl

theorem byte_table (hcode : code.length = PAD) (htable : table.length = 4) {i k : Nat} (hi : i < table.length)
    (hk : k < ENTRY_SIZE) :
    byte (bootSector code table) (PAD + ENTRY_SIZE * i + k) = (table[i].toBytes).getD k 0 := by
  have hrecords : (table.flatMap MbrEntry.toBytes).length = 64 := by
    simp [List.length_flatMap, htable, ENTRY_SIZE]
  have hend : ENTRY_SIZE * i + k < 64 := by
    simp only [ENTRY_SIZE] at hk ⊢
    omega
  have hpad : PAD = 446 := rfl
  have hsector : SECTOR_SIZE = 512 := rfl
  have hidx : PAD + ENTRY_SIZE * i + k - code.length = ENTRY_SIZE * i + k := by omega
  rw [bootSector, byte_sectorOf (by rw [List.length_append, List.length_append]; omega) (by omega),
    List.getD_eq_getElem?_getD, List.getD_eq_getElem?_getD,
    List.getElem?_append_left (by rw [List.length_append]; omega),
    List.getElem?_append_right (by omega), hidx, getElem?_records length_toBytes hk,
    List.getElem?_eq_getElem hi]
  rfl

theorem le32_eq (s : Sector) (i : Nat) : le32 s i = (byte s i).toNat + 2 ^ 8 * (byte s (i + 1)).toNat +
    2 ^ 16 * (byte s (i + 2)).toNat + 2 ^ 24 * (byte s (i + 3)).toNat := by
  have h₀ := (byte s i).toNat_lt
  have h₁ := (byte s (i + 1)).toNat_lt
  have h₂ := (byte s (i + 2)).toNat_lt
  have h₃ := (byte s (i + 3)).toNat_lt
  have hlast : byte s (i + 2 + 1) = byte s (i + 3) := rfl
  rw [le32, word, word, hlast, Disk.le16, Disk.le16, UInt16.toNat_ofNat', UInt16.toNat_ofNat',
    Nat.mod_eq_of_lt (by omega), Nat.mod_eq_of_lt (by omega)]
  omega

theorem le32_table (hcode : code.length = PAD) (htable : table.length = 4) {i k n : Nat} (hi : i < table.length)
    (hk : k + 3 < ENTRY_SIZE) (hn : n < 2 ^ 32)
    (hbytes : ∀ j < 4, (table[i].toBytes).getD (k + j) 0 = (le32Bytes n).getD j 0) :
    le32 (bootSector code table) (PAD + ENTRY_SIZE * i + k) = n := by
  have hbyte : ∀ j < 4, byte (bootSector code table) (PAD + ENTRY_SIZE * i + k + j) =
      (le32Bytes n).getD j 0 := by
    intro j hj
    rw [Nat.add_assoc _ k j, byte_table hcode htable hi (by omega), hbytes j hj]
  rw [le32_eq, hbyte 1 (by omega), hbyte 2 (by omega), hbyte 3 (by omega),
    show byte _ (PAD + ENTRY_SIZE * i + k) = _ from hbyte 0 (by omega)]
  simp only [le32Bytes, List.getD_cons_zero, List.getD_cons_succ, UInt8.toNat_ofNat']
  omega

/-- Entries are read as they were written. -/
theorem ofSector_bootSector (hcode : code.length = PAD) (htable : table.length = 4) {i : Nat}
    (hi : i < table.length) (hfits : table[i].Fits) :
    MbrEntry.ofSector (bootSector code table) i = table[i] := by
  have hbyte : ∀ k < ENTRY_SIZE, byte (bootSector code table) (PAD + ENTRY_SIZE * i + k) =
      (table[i].toBytes).getD k 0 := fun k hk => byte_table hcode htable hi hk
  have hlba := le32_table hcode htable hi (k := 8) (by decide) hfits.1 (by
    intro j hj
    interval_cases j <;> rfl)
  have hsectors := le32_table hcode htable hi (k := 12) (by decide) hfits.2 (by
    intro j hj
    interval_cases j <;> rfl)
  have hstatus : byte (bootSector code table) (PAD + ENTRY_SIZE * i) = table[i].status :=
    hbyte 0 (by decide)
  simp only [MbrEntry.ofSector, hlba, hsectors, hstatus, hbyte 1 (by decide), hbyte 2 (by decide),
    hbyte 3 (by decide), hbyte 4 (by decide), hbyte 5 (by decide), hbyte 6 (by decide), hbyte 7 (by decide)]
  rfl

/-- The partitions of a table. -/
def active (drive : Drive) (table : List MbrEntry) : List (Option Partition) := table.mapIdx fun idx part =>
  if part.status &&& 0x80 ≠ 0 then some ⟨drive, idx, part.lba, part.sectors⟩ else none

theorem parts_bootSector (hcode : code.length = PAD) (htable : table.length = 4)
    (hfits : ∀ e ∈ table, e.Fits) (drive : Drive) : parts drive (bootSector code table) = active drive table := by
  apply List.ext_getElem
  · simp [parts, active, htable]
  · intro i h₁ h₂
    have hi : i < table.length := by simpa [active] using h₂
    simp only [parts, active, List.getElem_map, List.getElem_range, List.getElem_mapIdx,
      ofSector_bootSector hcode htable hi (hfits _ (List.getElem_mem hi))]

end table

section session

theorem partitions_spec (regs : Regs) (drive : Drive) :
    Triple see (Kept regs [] []) (partitions PRIMARY drive) fun r h =>
      (∀ q ∈ h.requests, q = some ⟨drive, 0, 1⟩) ∧ ∀ s, h.data <+: wordsOf s →
        r = .ok (parts drive s) ∨ ∃ e, r = .error (.ata e) ∧ h.failed = some e := by
  apply (readSectors_spec regs drive (Nat.zero_le _) (List.cons_ne_nil zeroed []) (by simp)).bind
  intro r
  apply Triple.pure
  intro s hend
  refine ⟨hend.requests, fun sector hdata => ?_⟩
  rcases hend.one hdata with hok | ⟨e, herror, hfailed⟩
  · left
    rw [hok]
    rfl
  · right
    refine ⟨e, ?_, hfailed⟩
    rw [herror]
    rfl

/-- Whatever a device replies: if `partitions` returns, it has asked for the
first sector only, and if this has a table, the partitions are the active
entries of it. -/
theorem partitions_found (drive : Drive) (code : List UInt8) (table : List MbrEntry) (hcode : code.length = PAD)
    (htable : table.length = 4) (hfits : ∀ e ∈ table, e.Fits) (replies rest : List UInt16) (io : List Io)
    (r : Except Ide.ReadFault (List (Option Partition))) (h : Host) (hfresh : h.Fresh)
    (hrun : partitions PRIMARY drive ⟨replies, []⟩ = some (r, ⟨rest, io⟩)) :
    ∃ h', io.foldlM see h = some h' ∧ (∀ q ∈ h'.requests, q = some ⟨drive, 0, 1⟩) ∧
      (h'.data <+: wordsOf (bootSector code table) →
        r = .ok (active drive table) ∨ ∃ e, r = .error (.ata e) ∧ h'.failed = some e) := by
  obtain ⟨h', hwatch, hrequests, hfound⟩ := (partitions_spec h.regs drive).run hrun hfresh.kept
  refine ⟨h', hwatch, hrequests, fun hdata => ?_⟩
  rw [← parts_bootSector hcode htable hfits drive]
  exact hfound _ hdata

def noLoader : List UInt8 := .replicate 0x1be 0

def oneActive : List MbrEntry :=
  [⟨0x80, (0, 0, 0), 6, (0, 0, 0), 63, 70000⟩, ⟨0, (0, 0, 0), 0, (0, 0, 0), 0, 0⟩,
    ⟨0, (0, 0, 0), 0, (0, 0, 0), 0, 0⟩, ⟨0, (0, 0, 0), 0, (0, 0, 0), 0, 0⟩]

/-- A drive that sends this table. -/
def bootReplies : List UInt16 :=
  sevens.take 19 ++ .replicate 223 0 ++ [0x80, 0, 6, 0, 63, 0, 0x1170, 1] ++ .replicate 24 0 ++ [0xaa55]

/-- The data that came is the sector with this table. -/
theorem bootReplies_data :
    ((partitions PRIMARY .a ⟨bootReplies, []⟩).bind fun p => (p.2.log.foldlM see freshHost).map fun h =>
      p.1.isOk && h.data.isPrefixOf (wordsOf (bootSector noLoader oneActive))) = some true := by
  decide +kernel

theorem partitions_found_one :
    ∃ b, partitions PRIMARY .a ⟨bootReplies, []⟩ = some (.ok [some ⟨.a, 0, 63, 70000⟩, none, none, none], b) := by
  obtain ⟨⟨r, b⟩, hrun, hrest⟩ := Option.bind_eq_some_iff.mp bootReplies_data
  obtain ⟨h, hwatch, hall⟩ := Option.map_eq_some_iff.mp hrest
  rw [Bool.and_eq_true, List.isPrefixOf_iff_prefix] at hall
  obtain ⟨hok, hdata⟩ := hall
  obtain ⟨h', hwatch', -, hfound⟩ := partitions_found .a noLoader oneActive List.length_replicate rfl (by decide)
    bootReplies b.replies b.log r freshHost ⟨rfl, rfl⟩ hrun
  have hsame : h = h' := Option.some.inj (hwatch.symm.trans hwatch')
  subst hsame
  rcases hfound hdata with hparts | ⟨e, herror, -⟩
  · subst hparts
    exact ⟨b, hrun⟩
  · rw [herror] at hok
    cases hok

/-- A drive of the file system's model behind the partition. -/
def Partition.over (part : Partition) (sector : Nat → Sector) (fault : Nat → Option AtaError) :
    Disk.Partition := ⟨⟨sector, fault⟩, part.lba, part.sectors⟩

def ReadFault.toFault : ReadFault → Disk.Fault
  | .drive e => e.toFault
  | .beyondPartition => .panic .beyondPartition

/-- A reply as the file system sees it, which passes one buffer. -/
def Reply.outcome (r : Reply) : Disk.Io Sector := match r.1 with
  | .error e => .error e.toFault
  | .ok () => .ok (r.2.headD zeroed)

theorem readSectors_refines (regs : Regs) (part : Partition) (lba : Nat) (buff : Sector) :
    Triple see (Kept regs [] []) (part.readSectors PRIMARY lba [buff]) fun r h =>
      (∀ q ∈ h.requests, lba < part.sectors ∧ q = some ⟨part.drive, lba + part.lba, 1⟩) ∧
        ∀ sector, h.data <+: wordsOf (sector (lba + part.lba)) → ∃ e, ∀ fault request, fault request = e →
          Reply.outcome r = (part.over sector fault).readSectors request lba := by
  rw [Partition.readSectors, List.length_singleton]
  split
  · rename_i hbeyond
    apply Triple.pure
    rintro s ⟨hregs, hcommands, hdata⟩
    refine ⟨by simp [Host.requests, hcommands], fun sector hprefix => ⟨none, fun fault request hfault => ?_⟩⟩
    exact (if_pos hbeyond).symm
  · rename_i hwithin
    have hlba : lba < part.sectors := by omega
    by_cases hmax : Disk.MAX_LBA < lba + part.lba
    · rw [Ide.readSectors, if_pos hmax]
      apply Triple.pure
      rintro s ⟨hregs, hcommands, hdata⟩
      refine ⟨by simp [Host.requests, hcommands], fun sector hprefix => ⟨none, fun fault request hfault => ?_⟩⟩
      have habstract : (part.over sector fault).readSectors request lba = .error (.panic .lbaTooLarge) :=
        (if_neg hwithin).trans (if_pos hmax)
      rw [habstract]
      rfl
    · apply (readSectors_spec regs part.drive (Nat.le_of_not_lt hmax) (List.cons_ne_nil buff []) (by simp)).bind
      intro r
      apply Triple.pure
      intro s hend
      refine ⟨fun q hq => ⟨hlba, hend.requests q hq⟩, fun sector hdata => ?_⟩
      have hreach : ∀ fault, (part.over sector fault).InReach lba := fun fault =>
        ⟨hlba, Nat.le_of_not_lt hmax⟩
      rcases hend.one hdata with hok | ⟨e, herror, hfailed⟩
      · refine ⟨none, fun fault request hfault => ?_⟩
        have hdrive : (part.over sector fault).drive.fault request = none := hfault
        rw [Disk.Partition.readSectors_inReach (hreach fault), hdrive, hok]
        rfl
      · refine ⟨some e, fun fault request hfault => ?_⟩
        have hdrive : (part.over sector fault).drive.fault request = some e := hfault
        rw [Disk.Partition.readSectors_inReach (hreach fault), hdrive, Reply.outcome, herror]
        rfl

/-- Reads one after the other, each with a buffer and a log of its own. -/
def Partition.reads (part : Partition) (io : IdeIo) : List Nat → List UInt16 → Option (List (Reply × List Io))
  | [], _ => some []
  | lba :: lbas, replies => do
    let r ← part.readSectors io lba [zeroed] ⟨replies, []⟩
    let rest ← part.reads io lbas r.2.replies
    pure ((r.1, r.2.log) :: rest)

/-- The data that was read is what a drive has there. -/
def Sends (part : Partition) (sector : Nat → Sector) (h : Host) (lba : Nat) (read : Reply × List Io) : Prop :=
  ∀ h' ∈ (read.2.foldlM see h : Option Host), h'.data <+: wordsOf (sector (lba + part.lba))

/-- Whatever a device replies, for any reads that return: each keeps to the
protocol, and asks for nothing outside the partition. If the data is what a
drive has, the file system's model of a partition, with some faults, has the
same outcomes. -/
theorem reads_refine_partition (part : Partition) (h : Host) (hfresh : h.Fresh) (lbas : List Nat)
    (replies : List UInt16) (reads : List (Reply × List Io))
    (hrun : part.reads PRIMARY lbas replies = some reads) :
    (∀ read ∈ reads, ∃ h', read.2.foldlM see h = some h' ∧
      ∀ q ∈ h'.requests, ∃ lba < part.sectors, q = some ⟨part.drive, lba + part.lba, 1⟩) ∧
    ∀ sector : Nat → Sector, List.Forall₂ (Sends part sector h) lbas reads →
      ∃ fault, reads.map (fun read => read.1.outcome) =
        lbas.mapIdx fun request lba => (part.over sector fault).readSectors request lba := by
  induction lbas generalizing replies reads with
  | nil =>
    cases hrun
    exact ⟨by simp, fun _ _ => ⟨fun _ => none, rfl⟩⟩
  | cons lba lbas ih =>
    simp only [Partition.reads, Option.bind_eq_bind, Option.bind_eq_some_iff] at hrun
    obtain ⟨⟨r, b⟩, hread, rest, hrest, hreads⟩ := hrun
    cases hreads
    obtain ⟨hkept, hothers⟩ := ih b.replies rest hrest
    obtain ⟨h', hwatch, hrequests, hrefines⟩ :=
      (readSectors_refines h.regs part lba zeroed).run hread hfresh.kept
    constructor
    · intro read hmem
      cases hmem with
      | head =>
        exact ⟨h', hwatch, fun q hq => ⟨lba, hrequests q hq⟩⟩
      | tail _ hmem => exact hkept read hmem
    · intro sector hsends
      obtain ⟨hfirst, hafter⟩ := List.forall₂_cons.mp hsends
      obtain ⟨faults, hsame⟩ := hothers sector hafter
      obtain ⟨e, houtcome⟩ := hrefines sector (hfirst h' hwatch)
      -- the first request has the fault of this read
      refine ⟨fun request => if request = 0 then e else faults (request - 1), ?_⟩
      rw [List.map_cons, List.mapIdx_cons, hsame]
      exact congrArg₂ List.cons (houtcome _ 0 rfl) rfl

/-- A drive that is full of sevens, and sends one sector. -/
def oneSector : List UInt16 := sevens.take 19 ++ .replicate 256 0x0707

theorem wordsOf_replicate (v : UInt8) : wordsOf (.replicate SECTOR_SIZE v) = .replicate 256 (Disk.le16 v v) := by
  have hbyte : ∀ i < SECTOR_SIZE, byte (.replicate SECTOR_SIZE v) i = v := by
    intro i hi
    rw [byte, Vector.toList_replicate, List.getD_eq_getElem?_getD, List.getElem?_replicate, if_pos hi]
    rfl
  have hsector : SECTOR_SIZE = 512 := rfl
  apply List.ext_getElem
  · rw [length_wordsOf, List.length_replicate]
  · intro i h₁ h₂
    rw [length_wordsOf] at h₁
    simp only [wordsOf, List.getElem_map, List.getElem_range, List.getElem_replicate, word]
    rw [hbyte _ (by omega), hbyte _ (by omega)]

/-- A read in the partition, and one behind it. -/
theorem reads_refine_partition_behind :
    ∃ reads fault, Partition.reads ⟨.a, 0, 63, 70000⟩ PRIMARY [2, 70000] oneSector = some reads ∧
      reads.map (fun read => read.1.outcome) = [2, 70000].mapIdx fun request lba =>
        (Partition.over ⟨.a, 0, 63, 70000⟩ (fun _ => .replicate SECTOR_SIZE 7) fault).readSectors request lba := by
  have hsome : (Partition.reads ⟨.a, 0, 63, 70000⟩ PRIMARY [2, 70000] oneSector).isSome = true := by decide +kernel
  have hdata : ∀ reads ∈ Partition.reads ⟨.a, 0, 63, 70000⟩ PRIMARY [2, 70000] oneSector,
      List.Forall₂ (fun _ read => ∀ h' ∈ (read.2.foldlM see freshHost : Option Host),
        h'.data <+: .replicate 256 (Disk.le16 7 7)) [2, 70000] reads := by
    decide +kernel
  obtain ⟨reads, hrun⟩ := Option.isSome_iff_exists.mp hsome
  have hsends : List.Forall₂ (Sends ⟨.a, 0, 63, 70000⟩ (fun _ => .replicate SECTOR_SIZE 7) freshHost)
      [2, 70000] reads := by
    apply (hdata reads hrun).imp
    intro lba read hread h' hh'
    rw [wordsOf_replicate]
    exact hread h' hh'
  obtain ⟨-, hsame⟩ := reads_refine_partition ⟨.a, 0, 63, 70000⟩ freshHost ⟨rfl, rfl⟩ [2, 70000] oneSector
    reads hrun
  obtain ⟨fault, hsame⟩ := hsame (fun _ => .replicate SECTOR_SIZE 7) hsends
  exact ⟨reads, fault, hrun, hsame⟩

end session

end Crabos.Mbr
