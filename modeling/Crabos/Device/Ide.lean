import Crabos.Lib.Device
import Crabos.Fs.Disk

/-!
# The driver of the IDE drives (`kernel/src/device/ide.rs`)

`read_sectors` at its ports, for any device at the other end. The host side of
the protocol is a monitor: registers are written only when the last status was
neither busy nor an error, a command only when the drive was ready, and data is
read only as far as a status has announced it.
-/
namespace Crabos.Ide

open Crabos.Device
open Crabos.Disk (Sector AtaError byte word le16 MAX_LBA)

inductive Drive where
  | a
  | b
  deriving DecidableEq, Repr

/-- What `select` writes. -/
def Drive.selector : Drive → UInt8
  | .a => 0xe0
  | .b => 0xf0

/-- What goes over the bus, with the port. -/
inductive Io where
  | in8 (port : Nat) (v : UInt8)
  | in16 (port : Nat) (v : UInt16)
  | out8 (port : Nat) (v : UInt8)
  deriving DecidableEq, Repr

abbrev M := Prog UInt16 Io

/-- A port of one byte gets the low byte of a reply. -/
def read8 (port : Nat) : M UInt8 := do
  let r ← ask fun r => .in8 port r.toUInt8
  pure r.toUInt8

def read16 (port : Nat) : M UInt16 := ask (.in16 port)

def write8 (port : Nat) (v : UInt8) : M Unit := tell (.out8 port v)

structure IdeIo where
  base : Nat
  controlBase : Nat

def PRIMARY : IdeIo := ⟨0x1f0, 0x3f6⟩

def BUSY : UInt8 := 0x80
def DRIVE_READY : UInt8 := 0x40
def DATA_REQUEST_READY : UInt8 := 0x08
def ERROR : UInt8 := 0x01

def READ_PIO : UInt8 := 0x20

/-- `bitflags`: all bits of `f` are in `s`. -/
def contains (s f : UInt8) : Bool := s &&& f == f

namespace IdeIo

variable (io : IdeIo)

def data : Nat := io.base + 0
def errorFeatures : Nat := io.base + 1
def seccount0 : Nat := io.base + 2
def lba0 : Nat := io.base + 3
def lba1 : Nat := io.base + 4
def lba2 : Nat := io.base + 5
def deviceSelect : Nat := io.base + 6
def commandStatus : Nat := io.base + 7
def alternateStatusControl : Nat := io.controlBase + 2

/-- What is read here is not looked at. -/
def wait : M Unit := (List.range 4).foldlM (fun _ _ => do
  let _ ← read8 io.alternateStatusControl
  pure ()) ()

/-- `None` while the loop goes on. -/
def decideStatus (required : UInt8) (r : UInt16) : Option UInt8 :=
  let status := r.toUInt8
  if contains status BUSY then none
  else if contains status ERROR ∨ contains status required then some status
  else none

def waitCommand (required : UInt8) : M (Except AtaError UInt8) := do
  io.wait
  let status ← poll (fun r => .in8 io.commandStatus r.toUInt8) (decideStatus required)
  if contains status ERROR then do
    let e ← read8 io.errorFeatures
    pure (.error e)
  else pure (.ok status)

def readPioData (buff : Sector) : M Sector := (List.range 256).foldlM (fun buff i => do
  let w ← read16 io.data
  pure ((buff.setIfInBounds (i * 2 + 0) ((w >>> 0) &&& 0xff).toUInt8).setIfInBounds (i * 2 + 1)
    ((w >>> 8) &&& 0xff).toUInt8)) buff

def select (drive : Drive) : M Unit := do
  write8 io.deviceSelect drive.selector
  io.wait

/-- The loop over the buffers, which are returned as it leaves them. -/
def readBuffs : List Sector → M (Except AtaError Unit × List Sector)
  | [] => pure (.ok (), [])
  | buff :: buffs => do
    let r ← io.waitCommand DATA_REQUEST_READY
    match r with
    | .error e => pure (.error e, buff :: buffs)
    | .ok _ => do
      let buff ← io.readPioData buff
      let rest ← readBuffs buffs
      pure (rest.1, buff :: rest.2)

end IdeIo

inductive ReadFault where
  | ata (e : AtaError)
  | lbaTooLarge
  | tooManySectors
  deriving DecidableEq, Repr

/-- What the model of a drive by its sectors has for a fault: there one buffer is
passed, which is never too many. -/
def ReadFault.toFault : ReadFault → Disk.Fault
  | .ata e => .ata e
  | .lbaTooLarge | .tooManySectors => .panic .lbaTooLarge

/-- `IdeDrive::read_sectors`, under the mutex of the channel. -/
def readSectors (io : IdeIo) (drive : Drive) (lba : Nat) (buffs : List Sector) :
    M (Except ReadFault Unit × List Sector) :=
  if MAX_LBA < lba then pure (.error .lbaTooLarge, buffs)
  else if 255 < buffs.length then pure (.error .tooManySectors, buffs)
  else do
    io.select drive
    let r ← io.waitCommand 0
    match r with
    | .error e => pure (.error (.ata e), buffs)
    | .ok _ => do
      write8 io.errorFeatures 0
      write8 io.seccount0 (.ofNat buffs.length)
      write8 io.lba0 (.ofNat lba)
      write8 io.lba1 (.ofNat (lba / 2 ^ 8))
      write8 io.lba2 (.ofNat (lba / 2 ^ 16))
      let r ← io.waitCommand DRIVE_READY
      match r with
      | .error e => pure (.error (.ata e), buffs)
      | .ok _ => do
        write8 io.commandStatus READ_PIO
        let r ← io.readBuffs buffs
        pure (r.1.mapError .ata, r.2)

/-- The registers of the drive. -/
structure Regs where
  device : UInt8
  features : UInt8
  count : UInt8
  lba0 : UInt8
  lba1 : UInt8
  lba2 : UInt8
  deriving DecidableEq, Repr

structure Command where
  code : UInt8
  regs : Regs
  deriving DecidableEq, Repr

/-- What the log of a host has come to: the registers, the last status since a
command, the words that it has announced and that are not read yet, and all the
commands and data so far. -/
structure Host where
  regs : Regs
  status : Option UInt8
  words : Nat
  commands : List Command
  data : List UInt16
  failed : Option AtaError
  deriving DecidableEq, Repr

/-- Neither busy nor an error. -/
def Free (s : UInt8) : Prop := contains s BUSY = false ∧ contains s ERROR = false

instance (s : UInt8) : Decidable (Free s) := inferInstanceAs (Decidable (_ ∧ _))

def Host.free (h : Host) : Bool := h.status.any fun s => Free s

def Host.ready (h : Host) : Bool := h.status.any fun s => Free s ∧ contains s DRIVE_READY

def Host.failing (h : Host) : Bool := h.status.any fun s => contains s BUSY = false ∧ contains s ERROR

def Host.setRegs (h : Host) (regs : Regs) : Option Host := if h.free then some { h with regs := regs } else none

/-- The host side of the protocol. -/
def see (h : Host) : Io → Option Host
  | .in8 port v =>
    if port = PRIMARY.commandStatus then
      some { h with status := some v, words := if Free v ∧ contains v DATA_REQUEST_READY then 256 else 0 }
    else if port = PRIMARY.errorFeatures then if h.failing then some { h with failed := some v } else none
    else if port = PRIMARY.alternateStatusControl then some h
    else none
  | .in16 port v =>
    if port = PRIMARY.data ∧ 0 < h.words then some { h with words := h.words - 1, data := h.data ++ [v] }
    else none
  | .out8 port v =>
    if port = PRIMARY.deviceSelect then some { h with regs := { h.regs with device := v }, status := none }
    else if port = PRIMARY.errorFeatures then h.setRegs { h.regs with features := v }
    else if port = PRIMARY.seccount0 then h.setRegs { h.regs with count := v }
    else if port = PRIMARY.lba0 then h.setRegs { h.regs with lba0 := v }
    else if port = PRIMARY.lba1 then h.setRegs { h.regs with lba1 := v }
    else if port = PRIMARY.lba2 then h.setRegs { h.regs with lba2 := v }
    else if port = PRIMARY.commandStatus then
      if h.ready then some { h with commands := h.commands ++ [⟨v, h.regs⟩], status := none, words := 0 }
      else none
    else none

/-- A request to read, as a drive finds it in its registers: with 28 bits of
the address, and with a count of zero for 256 sectors. -/
structure Request where
  drive : Drive
  lba : Nat
  count : Nat
  deriving DecidableEq, Repr

def Command.request (c : Command) : Option Request :=
  if c.code = READ_PIO ∧ contains c.regs.device 0x40 then
    some
      { drive := if contains c.regs.device 0x10 then .b else .a
        lba := c.regs.lba0.toNat + 2 ^ 8 * c.regs.lba1.toNat + 2 ^ 16 * c.regs.lba2.toNat +
          2 ^ 24 * (c.regs.device &&& 0x0f).toNat
        count := if c.regs.count = 0 then 256 else c.regs.count.toNat }
  else none

/-- The words of a sector, as they come from the drive. -/
def wordsOf (s : Sector) : List UInt16 := (List.range 256).map fun i => word s (i * 2)

section words

theorem byte_set (s : Sector) {i : Nat} (hi : i < 512) (v : UInt8) (j : Nat) :
    byte (s.setIfInBounds i v) j = if i = j then v else byte s j := by
  rw [byte, byte, List.getD_eq_getElem?_getD, List.getD_eq_getElem?_getD, Vector.getElem?_toList,
    Vector.getElem?_toList, Vector.getElem?_setIfInBounds]
  by_cases h : i = j
  · simp [h, h ▸ hi, Disk.SECTOR_SIZE]
  · simp [h]

theorem le16_bytes (w : UInt16) :
    le16 ((w >>> 0) &&& 0xff).toUInt8 ((w >>> 8) &&& 0xff).toUInt8 = w := by
  apply UInt16.toNat_inj.mp
  have hlt := w.toNat_lt
  have hmask : ∀ n, n &&& 255 = n % 256 := fun n => Nat.and_two_pow_sub_one_eq_mod n 8
  have hlo : ((w >>> 0) &&& 0xff).toUInt8.toNat = w.toNat % 256 := by
    simp [hmask]
  have hhi : ((w >>> 8) &&& 0xff).toUInt8.toNat = w.toNat / 256 := by
    simp [hmask, Nat.shiftRight_eq_div_pow]
    omega
  rw [le16, hlo, hhi, UInt16.toNat_ofNat']
  omega

@[simp] theorem length_wordsOf (s : Sector) : (wordsOf s).length = 256 := by simp [wordsOf]

theorem le16_inj {a b c d : UInt8} (h : le16 a b = le16 c d) : a = c ∧ b = d := by
  have ht := congrArg UInt16.toNat h
  have := a.toNat_lt
  have := b.toNat_lt
  have := c.toNat_lt
  have := d.toNat_lt
  rw [le16, le16, UInt16.toNat_ofNat', UInt16.toNat_ofNat', Nat.mod_eq_of_lt (by omega),
    Nat.mod_eq_of_lt (by omega)] at ht
  exact ⟨UInt8.toNat_inj.mp (by omega), UInt8.toNat_inj.mp (by omega)⟩

/-- A sector is known from its words. -/
theorem wordsOf_inj {s t : Sector} (h : wordsOf s = wordsOf t) : s = t := by
  have hword : ∀ i < 256, word s (i * 2) = word t (i * 2) := by
    intro i hi
    have := congrArg (fun l => l[i]?) h
    simpa [wordsOf, hi] using this
  apply Vector.toList_inj.mp
  apply List.ext_getElem
  · simp
  · intro j hs ht
    have hj : j < 512 := by rwa [Disk.sector_length s] at hs
    obtain ⟨hlo, hhi⟩ := le16_inj (hword (j / 2) (by omega))
    have hbyte : byte s j = byte t j := by
      rcases Nat.mod_two_eq_zero_or_one j with hmod | hmod
      · rwa [show j / 2 * 2 = j by omega] at hlo
      · rwa [show j / 2 * 2 + 1 = j by omega] at hhi
    rw [byte, byte, List.getD_eq_getElem?_getD, List.getD_eq_getElem?_getD, List.getElem?_eq_getElem hs,
      List.getElem?_eq_getElem ht] at hbyte
    exact hbyte

/-- Buffers whose words are the first words of a row of sectors are those sectors. -/
theorem sectors_of_words {buffs : List Sector} {sector : Nat → Sector} {n : Nat}
    (h : buffs.flatMap wordsOf <+: (List.range n).flatMap fun i => wordsOf (sector i)) :
    buffs = (List.range buffs.length).map sector := by
  induction buffs generalizing sector n with
  | nil => rfl
  | cons b bs ih =>
    obtain ⟨rest, he⟩ := h
    cases n with
    | zero =>
      have hlen := congrArg List.length he
      simp at hlen
    | succ n =>
      rw [List.range_succ_eq_map, List.flatMap_cons, List.flatMap_cons, List.flatMap_map,
        List.append_assoc] at he
      obtain ⟨hb, hrest⟩ := List.append_inj he (by simp)
      have hbs : bs = (List.range bs.length).map fun i => sector (i + 1) := ih ⟨rest, hrest⟩
      rw [List.length_cons, List.range_succ_eq_map, List.map_cons, List.map_map]
      exact congrArg₂ List.cons (wordsOf_inj hb) hbs

end words

section session

theorem read8_spec {P : Host → Prop} {Q : UInt8 → Host → Prop} {port : Nat}
    (h : ∀ v s, P s → ∃ s', see s (.in8 port v) = some s' ∧ Q v s') : Triple see P (read8 port) Q := by
  have hask : Triple see P (ask fun r : UInt16 => Io.in8 port r.toUInt8) fun r => Q r.toUInt8 :=
    Triple.ask fun r s hs => h r.toUInt8 s hs
  exact hask.bind fun r => Triple.pure fun s hs => hs

/-- Waiting leaves everything as it is. -/
theorem wait_spec (P : Host → Prop) : Triple see P PRIMARY.wait fun _ => P := by
  have hread : ∀ s v, see s (.in8 PRIMARY.alternateStatusControl v) = some s := fun s v => rfl
  apply Triple.foldRange (I := fun _ _ => P)
  intro k hk x
  exact (read8_spec fun v s hs => ⟨s, hread s v, hs⟩).bind fun v => Triple.pure fun s hs => hs

/-- A host with given registers, commands and data. -/
def Kept (regs : Regs) (commands : List Command) (data : List UInt16) (h : Host) : Prop :=
  h.regs = regs ∧ h.commands = commands ∧ h.data = data

/-- What is known when `wait_command` returns. -/
def Waited (regs : Regs) (commands : List Command) (data : List UInt16) (required : UInt8) :
    Except AtaError UInt8 → Host → Prop
  | .ok status, h => Kept regs commands data h ∧ h.status = some status ∧ Free status ∧
      contains status required ∧ (contains status DATA_REQUEST_READY → h.words = 256)
  | .error e, h => Kept regs commands data h ∧ h.failed = some e

theorem decideStatus_some {required : UInt8} {r : UInt16} {status : UInt8}
    (h : IdeIo.decideStatus required r = some status) : status = r.toUInt8 ∧ contains status BUSY = false ∧
      (contains status ERROR = false → contains status required) := by
  simp only [IdeIo.decideStatus] at h
  split at h
  · cases h
  · rename_i hbusy
    split at h
    · rename_i hgood
      cases h
      refine ⟨rfl, by simpa using hbusy, fun herror => ?_⟩
      simpa [herror] using hgood
    · cases h

theorem waitCommand_spec (regs : Regs) (commands : List Command) (data : List UInt16) (required : UInt8) :
    Triple see (Kept regs commands data) (PRIMARY.waitCommand required)
      (Waited regs commands data required) := by
  have hstatus : ∀ s v, see s (.in8 PRIMARY.commandStatus v) = some { s with
      status := some v, words := if Free v ∧ contains v DATA_REQUEST_READY then 256 else 0 } :=
    fun s v => rfl
  apply (wait_spec _).bind
  intro _
  apply Triple.bind (Q := fun status h => Kept regs commands data h ∧ h.status = some status ∧
    contains status BUSY = false ∧ (contains status ERROR = false → contains status required) ∧
    h.words = if Free status ∧ contains status DATA_REQUEST_READY then 256 else 0)
  · apply Triple.poll
    · intro r s hr hs
      exact ⟨_, hstatus s _, hs⟩
    · intro r status s hr hs
      obtain ⟨rfl, hbusy, hgood⟩ := decideStatus_some hr
      exact ⟨_, hstatus s _, hs, rfl, hbusy, hgood, rfl⟩
  · intro status
    by_cases herror : contains status ERROR = true
    · rw [if_pos herror]
      have hread : Triple see (fun h => Kept regs commands data h ∧ h.status = some status ∧
          contains status BUSY = false) (read8 PRIMARY.errorFeatures)
          fun e h => Kept regs commands data h ∧ h.failed = some e := by
        apply read8_spec
        rintro v s ⟨hkept, hs, hbusy⟩
        refine ⟨{ s with failed := some v }, ?_, hkept, rfl⟩
        have hfailing : s.failing = true := by simp [Host.failing, hs, hbusy, herror]
        have hport : see s (.in8 PRIMARY.errorFeatures v) =
            if s.failing then some { s with failed := some v } else none := rfl
        rw [hport, if_pos hfailing]
      apply Triple.bind (hread.weaken (fun s hs => ⟨hs.1, hs.2.1, hs.2.2.1⟩) fun _ _ h => h)
      exact fun e => Triple.pure fun s hs => hs
    · rw [if_neg herror]
      apply Triple.pure
      rintro s ⟨hkept, hs, hbusy, hgood, hwords⟩
      have hfalse : contains status ERROR = false := by simpa using herror
      exact ⟨hkept, hs, ⟨hbusy, hfalse⟩, hgood hfalse, fun hd => by rw [hwords, if_pos ⟨⟨hbusy, hfalse⟩, hd⟩]⟩

theorem word_set (b : Sector) {k : Nat} (hk : k < 256) (w : UInt16) (j : Nat) :
    word ((b.setIfInBounds (k * 2 + 0) ((w >>> 0) &&& 0xff).toUInt8).setIfInBounds (k * 2 + 1)
      ((w >>> 8) &&& 0xff).toUInt8) (j * 2) = if j = k then w else word b (j * 2) := by
  simp only [word, byte_set _ (show k * 2 + 1 < 512 by omega), byte_set _ (show k * 2 + 0 < 512 by omega)]
  by_cases h : j = k
  · subst h
    rw [if_neg (by omega), if_pos (by omega), if_pos rfl, if_pos rfl, le16_bytes]
  · rw [if_neg (by omega), if_neg (by omega), if_neg (by omega), if_neg (by omega), if_neg h]

variable (regs : Regs) (commands : List Command)

/-- The words that were announced fill the buffer. -/
theorem readPioData_spec (data : List UInt16) (buff : Sector) :
    Triple see (fun h => Kept regs commands data h ∧ h.words = 256) (PRIMARY.readPioData buff)
      fun b => Kept regs commands (data ++ wordsOf b) := by
  have hloop : Triple see (fun h => Kept regs commands (data ++ (List.range 0).map fun i => word buff (i * 2)) h ∧
      h.words = 256 - 0) (PRIMARY.readPioData buff) fun b h =>
        Kept regs commands (data ++ (List.range 256).map fun i => word b (i * 2)) h ∧ h.words = 256 - 256 := by
    apply Triple.foldRange (I := fun k b h =>
      Kept regs commands (data ++ (List.range k).map fun i => word b (i * 2)) h ∧ h.words = 256 - k)
    intro k hk b
    apply Triple.bind (Q := fun w h =>
      Kept regs commands (data ++ (List.range k).map (fun i => word b (i * 2)) ++ [w]) h ∧
        h.words = 256 - (k + 1))
    · apply Triple.ask
      rintro w s ⟨⟨hregs, hcommands, hdata⟩, hwords⟩
      have hsee : see s (.in16 PRIMARY.data w) =
          if 0 < s.words then some { s with words := s.words - 1, data := s.data ++ [w] } else none := by
        simp [see]
      rw [hsee, if_pos (by omega)]
      exact ⟨_, rfl, ⟨hregs, hcommands, by simp [hdata]⟩, by simp only [hwords]; omega⟩
    · intro w
      apply Triple.pure
      rintro s ⟨hkept, hwords⟩
      refine ⟨?_, hwords⟩
      have hold : (List.range k).map (fun i => word ((b.setIfInBounds (k * 2 + 0)
          ((w >>> 0) &&& 0xff).toUInt8).setIfInBounds (k * 2 + 1) ((w >>> 8) &&& 0xff).toUInt8) (i * 2)) =
          (List.range k).map fun i => word b (i * 2) := by
        apply List.map_congr_left
        intro i hi
        have hlt := List.mem_range.mp hi
        rw [word_set b hk, if_neg (by omega)]
      rw [List.range_succ, List.map_append, hold, List.map_singleton, word_set b hk, if_pos rfl,
        ← List.append_assoc]
      exact hkept
  exact hloop.weaken (fun s hs => ⟨by simpa using hs.1, hs.2⟩) fun b s hs => hs.1

/-- The loop has filled the first buffers with the data that came, and has left the others. -/
def Filled (data : List UInt16) (buffs : List Sector) (r : Except AtaError Unit × List Sector) (h : Host) :
    Prop :=
  h.commands = commands ∧ ∃ done, r.2 = done ++ buffs.drop done.length ∧ h.data = data ++ done.flatMap wordsOf ∧
    (r.1 = .ok () ∧ done.length = buffs.length ∨
      ∃ e, r.1 = .error e ∧ h.failed = some e ∧ done.length < buffs.length)

theorem readBuffs_spec (data : List UInt16) (buffs : List Sector) :
    Triple see (Kept regs commands data) (PRIMARY.readBuffs buffs) (Filled commands data buffs) := by
  induction buffs generalizing data with
  | nil =>
    apply Triple.pure
    intro s hs
    exact ⟨hs.2.1, [], rfl, by simpa using hs.2.2, .inl ⟨rfl, rfl⟩⟩
  | cons buff buffs ih =>
    apply (waitCommand_spec regs commands data DATA_REQUEST_READY).bind
    intro r
    cases r with
    | error e =>
      apply Triple.pure
      rintro s ⟨hkept, hfailed⟩
      exact ⟨hkept.2.1, [], rfl, by simpa using hkept.2.2, .inr ⟨e, rfl, hfailed, by simp⟩⟩
    | ok status =>
      apply Triple.bind ((readPioData_spec regs commands data buff).weaken
        (fun s hs => ⟨hs.1, hs.2.2.2.2 hs.2.2.2.1⟩) fun _ _ h => h)
      intro b
      apply (ih (data ++ wordsOf b)).bind
      intro rest
      apply Triple.pure
      rintro s ⟨hcommands, done, hbuffs, hdata, hend⟩
      refine ⟨hcommands, b :: done, by simp [hbuffs], by simp [hdata], ?_⟩
      rcases hend with ⟨hok, hlen⟩ | ⟨e, herror, hfailed, hlen⟩
      · exact .inl ⟨hok, by simp [hlen]⟩
      · exact .inr ⟨e, herror, hfailed, by simpa using hlen⟩

/-- A host that may write to the registers. -/
def Standing (data : List UInt16) (status : UInt8) (h : Host) : Prop :=
  Kept regs commands data h ∧ h.status = some status ∧ Free status

theorem writeReg_spec (f : Regs → Regs) {data : List UInt16} {status : UInt8} {port : Nat} {v : UInt8}
    (hsee : ∀ s, see s (.out8 port v) = s.setRegs (f s.regs)) :
    Triple see (Standing regs commands data status) (write8 port v)
      fun _ => Standing (f regs) commands data status := by
  apply Triple.tell
  rintro s ⟨⟨hregs, hkept⟩, hstatus, hfree⟩
  have hs : s.free = true := by simp [Host.free, hstatus, hfree]
  rw [hsee, Host.setRegs, if_pos hs]
  exact ⟨_, rfl, ⟨by rw [hregs], hkept⟩, hstatus, hfree⟩

theorem select_spec (drive : Drive) :
    Triple see (Kept regs commands []) (PRIMARY.select drive) fun _ =>
      Kept { regs with device := drive.selector } commands [] := by
  apply Triple.bind (Q := fun _ => Kept { regs with device := drive.selector } commands [])
  · apply Triple.tell
    rintro s ⟨rfl, hkept⟩
    exact ⟨_, rfl, rfl, hkept⟩
  · exact fun _ => wait_spec _

/-- The requests that the drives have found in their registers. -/
def Host.requests (h : Host) : List (Option Request) := h.commands.map Command.request

/-- How a session ends: the data of a drive in the first buffers, and an error
of the drive where it is not in all of them. -/
def Ended (drive : Drive) (lba : Nat) (buffs : List Sector) (r : Except ReadFault Unit × List Sector)
    (h : Host) : Prop :=
  ∃ done, r.2 = done ++ buffs.drop done.length ∧ h.data = done.flatMap wordsOf ∧
    (r.1 = .ok () ∧ done.length = buffs.length ∧ h.requests = [some ⟨drive, lba, buffs.length⟩] ∨
      ∃ e, r.1 = .error (.ata e) ∧ h.failed = some e ∧ done.length < buffs.length ∧
        (h.requests = [] ∨ h.requests = [some ⟨drive, lba, buffs.length⟩]))

theorem Ended.requests {drive : Drive} {lba : Nat} {buffs : List Sector} {h : Host}
    {r : Except ReadFault Unit × List Sector}
    (hend : Ended drive lba buffs r h) : ∀ q ∈ h.requests, q = some ⟨drive, lba, buffs.length⟩ := by
  intro q hq
  obtain ⟨done, hbuffs, hdata, ⟨hok, hdone, hall⟩ | ⟨e, herror, hfailed, hfew, hnone | hall⟩⟩ := hend
  · simpa [hall] using hq
  · simp [hnone] at hq
  · simpa [hall] using hq

/-- With one buffer it is all or nothing. -/
theorem Ended.one {drive : Drive} {lba : Nat} {buff s : Sector} {h : Host} {r : Except ReadFault Unit × List Sector}
    (hend : Ended drive lba [buff] r h) (hdata : h.data <+: wordsOf s) :
    r = (.ok (), [s]) ∨ ∃ e, r.1 = .error (.ata e) ∧ h.failed = some e := by
  obtain ⟨done, hbuffs, hdone, ⟨hok, hlen, hall⟩ | ⟨e, herror, hfailed, hfew, hall⟩⟩ := hend
  · left
    have hsector : done = (List.range done.length).map fun _ => s := by
      apply sectors_of_words (n := 1)
      simpa [hdone] using hdata
    have hone : done = [s] := by
      rw [hsector, hlen]
      rfl
    apply Prod.ext hok
    rw [hbuffs, hone]
    rfl
  · exact .inr ⟨e, herror, hfailed⟩

/-- An error before the command. -/
theorem Ended.early (drive : Drive) (lba : Nat) {buffs : List Sector} {regs : Regs} {h : Host} {e : AtaError}
    (hpos : buffs ≠ []) (hkept : Kept regs [] [] h) (hfailed : h.failed = some e) :
    Ended drive lba buffs (.error (.ata e), buffs) h := by
  have hrequests : h.requests = [] := by
    rw [Host.requests, hkept.2.1]
    rfl
  exact ⟨[], rfl, hkept.2.2, .inr ⟨e, rfl, hfailed, List.length_pos_iff.mpr hpos, .inl hrequests⟩⟩

/-- The registers as the driver writes them. -/
def written (drive : Drive) (lba n : Nat) : Regs :=
  ⟨drive.selector, 0, .ofNat n, .ofNat lba, .ofNat (lba / 2 ^ 8), .ofNat (lba / 2 ^ 16)⟩

/-- The drive decodes what the driver has put into its registers. -/
theorem request_written (drive : Drive) {lba n : Nat} (hlba : lba ≤ MAX_LBA) (hpos : 0 < n) (hn : n ≤ 255) :
    Command.request { code := READ_PIO, regs := written drive lba n } = some ⟨drive, lba, n⟩ := by
  have hmax : MAX_LBA = 0x00fffffe := rfl
  have hselect : contains drive.selector 0x40 = true ∧ (drive.selector &&& 0x0f).toNat = 0 ∧
      (if contains drive.selector 0x10 then Drive.b else .a) = drive := by
    cases drive <;> decide
  have hcount : (UInt8.ofNat n).toNat = n := by
    rw [UInt8.toNat_ofNat', Nat.mod_eq_of_lt (by omega)]
  have hne : UInt8.ofNat n ≠ 0 := by
    intro h
    rw [h] at hcount
    have : (0 : UInt8).toNat = 0 := rfl
    omega
  have haddress : (UInt8.ofNat lba).toNat + 2 ^ 8 * (UInt8.ofNat (lba / 2 ^ 8)).toNat +
      2 ^ 16 * (UInt8.ofNat (lba / 2 ^ 16)).toNat + 2 ^ 24 * 0 = lba := by
    simp only [UInt8.toNat_ofNat']
    omega
  rw [Command.request, if_pos ⟨rfl, hselect.1⟩]
  apply congrArg some
  rw [Request.mk.injEq]
  refine ⟨hselect.2.2, ?_, ?_⟩
  · simp only [written, hselect.2.1]
    exact haddress
  · simp only [written, if_neg hne, hcount]

theorem readSectors_spec (regs : Regs) (drive : Drive) {lba : Nat} {buffs : List Sector}
    (hlba : lba ≤ MAX_LBA) (hpos : buffs ≠ []) (hlen : buffs.length ≤ 255) :
    Triple see (Kept regs [] []) (readSectors PRIMARY drive lba buffs) (Ended drive lba buffs) := by
  have hbuffs : 0 < buffs.length := List.length_pos_iff.mpr hpos
  rw [readSectors, if_neg (by omega), if_neg (by omega)]
  apply (select_spec regs [] drive).bind
  intro _
  apply (waitCommand_spec _ [] [] 0).bind
  intro r
  cases r with
  | error e =>
    apply Triple.pure
    exact fun s hs => Ended.early drive lba hpos hs.1 hs.2
  | ok status =>
    apply Triple.bind ((writeReg_spec _ [] (fun g => { g with features := 0 }) fun s => rfl).weaken
      (fun s hs => ⟨hs.1, hs.2.1, hs.2.2.1⟩) fun _ _ h => h)
    intro _
    apply (writeReg_spec _ [] (fun g => { g with count := .ofNat buffs.length }) fun s => rfl).bind
    intro _
    apply (writeReg_spec _ [] (fun g => { g with lba0 := .ofNat lba }) fun s => rfl).bind
    intro _
    apply (writeReg_spec _ [] (fun g => { g with lba1 := .ofNat (lba / 2 ^ 8) }) fun s => rfl).bind
    intro _
    apply (writeReg_spec _ [] (fun g => { g with lba2 := .ofNat (lba / 2 ^ 16) }) fun s => rfl).bind
    intro _
    apply Triple.bind ((waitCommand_spec _ [] [] DRIVE_READY).weaken (fun s hs => hs.1) fun _ _ h => h)
    intro r
    cases r with
    | error e =>
      apply Triple.pure
      exact fun s hs => Ended.early drive lba hpos hs.1 hs.2
    | ok status =>
      have hrequest := request_written drive hlba hbuffs hlen
      have hcommand : Triple see (Waited (written drive lba buffs.length) [] [] DRIVE_READY (.ok status))
          (write8 PRIMARY.commandStatus READ_PIO) fun _ => Kept (written drive lba buffs.length)
            [{ code := READ_PIO, regs := written drive lba buffs.length }] [] := by
        apply Triple.tell
        rintro s ⟨⟨hregs, hcommands, hdata⟩, hstatus, hfree, hready, -⟩
        have hs : s.ready = true := by simp [Host.ready, hstatus, hfree, hready]
        have hsee : see s (.out8 PRIMARY.commandStatus READ_PIO) = if s.ready then
            some { s with commands := s.commands ++ [{ code := READ_PIO, regs := s.regs }], status := none, words := 0 }
            else none := rfl
        rw [hsee, if_pos hs]
        exact ⟨_, rfl, hregs, by simp [hcommands, hregs], hdata⟩
      apply hcommand.bind
      intro _
      apply (readBuffs_spec _ _ [] buffs).bind
      intro r
      apply Triple.pure
      rintro s ⟨hcommands, done, hfilled, hdata, hend⟩
      have hrequests : s.requests = [some ⟨drive, lba, buffs.length⟩] := by
        rw [Host.requests, hcommands, List.map_singleton, hrequest]
      refine ⟨done, hfilled, by simpa using hdata, ?_⟩
      rcases hend with ⟨hok, hdone⟩ | ⟨e, herror, hfailed, hdone⟩
      · exact .inl ⟨by rw [hok]; rfl, hdone, hrequests⟩
      · exact .inr ⟨e, by rw [herror]; rfl, hfailed, hdone, .inr hrequests⟩

end session

/-- A host before a session. -/
def Host.Fresh (h : Host) : Prop := h.commands = [] ∧ h.data = []

theorem Host.Fresh.kept {h : Host} (hfresh : h.Fresh) : Kept h.regs [] [] h := ⟨rfl, hfresh.1, hfresh.2⟩

/-- Whatever a device replies: if `read_sectors` returns, it has kept to the
protocol of the drives, and has asked for its sectors once, or not at all if
there was an error before that. The buffers have the data that came, in order,
and if this is what a drive has at the address, they have these sectors. -/
theorem session_reads_sectors (drive : Drive) (lba : Nat) (buffs : List Sector) (hlba : lba ≤ MAX_LBA)
    (hpos : buffs ≠ []) (hlen : buffs.length ≤ 255) (replies rest : List UInt16) (io : List Io)
    (r : Except ReadFault Unit × List Sector) (h : Host) (hfresh : h.Fresh)
    (hrun : readSectors PRIMARY drive lba buffs ⟨replies, []⟩ = some (r, ⟨rest, io⟩)) :
    ∃ h', io.foldlM see h = some h' ∧ Ended drive lba buffs r h' ∧
      ∀ sector : Nat → Sector,
        (h'.data <+: (List.range buffs.length).flatMap fun i => wordsOf (sector (lba + i))) →
          ∃ k, r.2 = (List.range k).map (fun i => sector (lba + i)) ++ buffs.drop k ∧
            (r.1 = .ok () ↔ k = buffs.length) := by
  obtain ⟨h', hwatch, hended⟩ := (readSectors_spec h.regs drive hlba hpos hlen).run hrun hfresh.kept
  refine ⟨h', hwatch, hended, fun sector hdrive => ?_⟩
  obtain ⟨done, hbuffs, hdata, hend⟩ := hended
  rw [hdata] at hdrive
  have hdone : done = (List.range done.length).map fun i => sector (lba + i) := sectors_of_words hdrive
  refine ⟨done.length, by rw [← hdone]; exact hbuffs, ?_⟩
  rcases hend with ⟨hok, hall, -⟩ | ⟨e, herror, -, hfew, -⟩
  · simp [hok, hall]
  · simp only [herror, reduceCtorEq, false_iff]
    omega

/-- A drive that sends sevens. -/
def sevens : List UInt16 :=
  .replicate 8 0 ++ [0x40] ++ .replicate 4 0 ++ [0x40] ++ .replicate 4 0 ++ [0x48] ++ .replicate 256 7

def blank : Sector := .replicate 512 0

def freshHost : Host := ⟨⟨0, 0, 0, 0, 0, 0⟩, none, 0, [], [], none⟩

theorem session_reads_sectors_sevens :
    ∃ r b h', readSectors PRIMARY .a 0x12345 [blank] ⟨sevens, []⟩ = some (r, b) ∧
      b.log.foldlM see freshHost = some h' ∧ Ended .a 0x12345 [blank] r h' := by
  have hsome : (readSectors PRIMARY .a 0x12345 [blank] ⟨sevens, []⟩).isSome = true := by decide +kernel
  obtain ⟨⟨r, b⟩, hrun⟩ := Option.isSome_iff_exists.mp hsome
  obtain ⟨h', hwatch, hended, -⟩ := session_reads_sectors .a 0x12345 [blank] (by decide) (by simp) (by simp)
    sevens b.replies b.log r freshHost ⟨rfl, rfl⟩ hrun
  exact ⟨r, b, h', hrun, hwatch, hended⟩

end Crabos.Ide
