import Crabos.Fs.Fat16
import Crabos.Lib.Linked
import Crabos.Lib.Lists

/-!
# Reading files

A file is the bytes of the sectors of its clusters, in the order of the chain.
A position stands for the bytes from there on, and every turn of the loop takes
a piece from their front.
-/
namespace Crabos.Fat16

open Crabos.Disk Crabos.Linked

namespace Filesystem

variable (fs : Filesystem)

/-- The entry of the FAT, as it stands on the disk. -/
def fatEntry (cluster : Nat) : Nat :=
  (word (fs.part.drive.sector (fs.fatSector cluster + fs.part.lba))
    (cluster * FAT_ENTRY_SIZE % SECTOR_SIZE)).toNat

def link (cluster : Nat) : Option Nat :=
  if 0xfff8 ≤ fs.fatEntry cluster then none else some (fs.fatEntry cluster)

/-- The first sector of a cluster. -/
def dataSector (cluster : Nat) : Nat := fs.bpb.clustersBase + (cluster - 2) * fs.bpb.spc

/-- The clusters from `head` on, with all that they need on the partition. -/
structure ChainOf (head : Option Nat) (cs : List Nat) : Prop where
  chain : Chain fs.link head cs
  valid : ∀ c ∈ cs, 2 ≤ c ∧ c < fs.maxCluster
  fat : ∀ c ∈ cs, fs.part.InReach (fs.fatSector c)
  data : ∀ c ∈ cs, ∀ i < fs.bpb.spc, fs.part.InReach (fs.dataSector c + i)

/-- No cluster is linked to the mark of a bad one. -/
def NoBad (cs : List Nat) : Prop := ∀ c ∈ cs, fs.fatEntry c ≠ 0xfff7

def sectorBytes (sector : Nat) : List UInt8 := (fs.part.drive.sector (sector + fs.part.lba)).toList

def clusterBytes (cluster : Nat) : List UInt8 :=
  (List.range fs.bpb.spc).flatMap fun i => fs.sectorBytes (fs.dataSector cluster + i)

def chainBytes (cs : List Nat) : List UInt8 := cs.flatMap fs.clusterBytes

end Filesystem

variable {fs : Filesystem}

@[simp] theorem sectorBytes_length (sector : Nat) :
    (fs.sectorBytes sector).length = SECTOR_SIZE := sector_length _

theorem clusterBytes_length (c : Nat) :
    (fs.clusterBytes c).length = fs.bpb.spc * SECTOR_SIZE := by
  simp [Filesystem.clusterBytes, List.length_flatMap]

theorem chainBytes_cons (c : Nat) (cs : List Nat) :
    fs.chainBytes (c :: cs) = fs.clusterBytes c ++ fs.chainBytes cs := List.flatMap_cons

theorem chainBytes_length (cs : List Nat) :
    (fs.chainBytes cs).length = cs.length * (fs.bpb.spc * SECTOR_SIZE) := by
  induction cs with
  | nil => rw [List.length_nil, Nat.zero_mul]; rfl
  | cons c cs ih =>
    rw [chainBytes_cons, List.length_append, clusterBytes_length, ih, List.length_cons,
      Nat.succ_mul, Nat.add_comm]

theorem clusterBytes_drop {c i : Nat} (hi : i < fs.bpb.spc) :
    (fs.clusterBytes c).drop (i * SECTOR_SIZE) =
      fs.sectorBytes (fs.dataSector c + i) ++ (fs.clusterBytes c).drop ((i + 1) * SECTOR_SIZE) :=
  Lists.drop_blocks (fun _ => sectorBytes_length _) hi

theorem nextCluster_inReach {c : Nat} (hc : c < fs.maxCluster)
    (hr : fs.part.InReach (fs.fatSector c)) (request : Nat) :
    fs.nextCluster request c =
      match fs.part.drive.fault request with
      | some e => .error (.ata e)
      | none =>
        if 0xfff8 ≤ fs.fatEntry c then .ok none
        else if fs.fatEntry c = 0xfff7 then .error (.panic .badCluster)
        else .ok (some (fs.fatEntry c)) := by
  rw [Filesystem.nextCluster, if_neg (Nat.not_le.mpr hc), Partition.readSectors_inReach hr]
  cases fs.part.drive.fault request with
  | some e => rfl
  | none => rfl

/-- The link of a cluster, or the error of the drive. -/
theorem nextCluster_link {c : Nat} (hc : c < fs.maxCluster) (hr : fs.part.InReach (fs.fatSector c))
    (hb : fs.fatEntry c ≠ 0xfff7) (request : Nat) : fs.nextCluster request c =
      match fs.part.drive.fault request with
      | some e => .error (.ata e)
      | none => .ok (fs.link c) := by
  rw [nextCluster_inReach hc hr, if_neg hb, Filesystem.link]
  split
  · rfl
  · split
    · rfl
    · rfl

theorem firstClusterSector_ok {c : Nat} (h : 2 ≤ c) :
    fs.bpb.firstClusterSector c = .ok (fs.dataSector c) := if_neg (Nat.not_lt.mpr h)

/-- A position in a file whose clusters from there on are `cs`. -/
structure At (fs : Filesystem) (s : Seek) (cs : List Nat) : Prop where
  file : fs.ChainOf s.cluster cs
  good : fs.NoBad cs
  sector : s.sector < fs.bpb.spc
  offset : s.offset ≤ SECTOR_SIZE

/-- The bytes from the position on. -/
def remaining (fs : Filesystem) (s : Seek) : List Nat → List UInt8
  | [] => []
  | c :: cs => (fs.clusterBytes c).drop (s.sector * SECTOR_SIZE + s.offset) ++ fs.chainBytes cs

theorem ChainOf.tail {c : Nat} {cs : List Nat} {head : Option Nat} (h : fs.ChainOf head (c :: cs)) :
    fs.ChainOf (fs.link c) cs where
  chain := h.chain.2
  valid x hx := h.valid x (List.mem_cons_of_mem _ hx)
  fat x hx := h.fat x (List.mem_cons_of_mem _ hx)
  data x hx := h.data x (List.mem_cons_of_mem _ hx)

theorem NoBad.tail {c : Nat} {cs : List Nat} (h : fs.NoBad (c :: cs)) : fs.NoBad cs :=
  fun x hx => h x (List.mem_cons_of_mem _ hx)

theorem sectorSize_pos : 0 < SECTOR_SIZE := by decide

theorem At.spc_pos {s : Seek} {cs : List Nat} (h : At fs s cs) : 0 < fs.bpb.spc :=
  Nat.lt_of_le_of_lt (Nat.zero_le _) h.sector

/-- The next read begins with a move to the next cluster. -/
def AtEnd (fs : Filesystem) (s : Seek) : Prop := s.offset = SECTOR_SIZE ∧ s.sector + 1 = fs.bpb.spc

instance (s : Seek) : Decidable (AtEnd fs s) := inferInstanceAs (Decidable (_ ∧ _))

/-- Without a move to the next cluster nothing is read, and the position stands
for the same bytes. -/
theorem leaveCluster_stay {s : Seek} {cs : List Nat} (h : At fs s cs) (hend : AtEnd fs s → cs = [])
    (request : Nat) : ∃ s', fs.leaveCluster request (Filesystem.leaveSector s) = (.ok (), s', request) ∧
      At fs s' cs ∧ s'.offset < SECTOR_SIZE ∧ remaining fs s' cs = remaining fs s cs ∧
      (cs ≠ [] → s'.sector * SECTOR_SIZE + s'.offset = s.sector * SECTOR_SIZE + s.offset) := by
  by_cases hoff : s.offset = SECTOR_SIZE
  · have hleave : Filesystem.leaveSector s = { s with offset := 0, sector := s.sector + 1 } :=
      if_pos hoff
    rw [hleave, Filesystem.leaveCluster]
    by_cases hlast : s.sector + 1 = fs.bpb.spc
    · obtain rfl := hend ⟨hoff, hlast⟩
      have hnone : s.cluster = none := h.file.chain
      rw [if_pos hlast]
      simp only [hnone]
      exact ⟨_, rfl, ⟨hnone ▸ h.file, h.good, h.spc_pos, Nat.zero_le _⟩, sectorSize_pos, rfl,
        fun hne => absurd rfl hne⟩
    · rw [if_neg hlast]
      have hplace : (s.sector + 1) * SECTOR_SIZE + 0 = s.sector * SECTOR_SIZE + s.offset := by
        rw [Nat.add_zero, Nat.succ_mul, hoff]
      refine ⟨_, rfl, ⟨h.file, h.good, ?_, Nat.zero_le _⟩, sectorSize_pos, ?_, fun _ => hplace⟩
      · have := h.sector
        change s.sector + 1 < _
        omega
      · cases cs with
        | nil => rfl
        | cons c cs =>
          rw [remaining, remaining]
          exact congrArg (fun n => (fs.clusterBytes c).drop n ++ _) hplace
  · have hleave : Filesystem.leaveSector s = s := if_neg hoff
    rw [hleave, Filesystem.leaveCluster, if_neg (Nat.ne_of_lt h.sector)]
    exact ⟨s, rfl, h, lt_of_le_of_ne h.offset hoff, rfl, fun _ => rfl⟩

/-- The move to the next cluster. If the link cannot be read, the position is
back at the beginning of the old one. -/
theorem leaveCluster_move {s : Seek} {c : Nat} {cs : List Nat} (h : At fs s (c :: cs))
    (hend : AtEnd fs s) (request : Nat) :
    fs.leaveCluster request (Filesystem.leaveSector s) =
      match fs.part.drive.fault request with
      | some e => (.error (.ata e), ⟨some c, 0, 0⟩, request + 1)
      | none => (.ok (), ⟨fs.link c, 0, 0⟩, request + 1) := by
  have hsome : s.cluster = some c := h.file.chain.1
  have hleave : Filesystem.leaveSector s = { s with offset := 0, sector := s.sector + 1 } :=
    if_pos hend.1
  rw [hleave, Filesystem.leaveCluster, if_pos hend.2]
  simp only [hsome, nextCluster_link (h.file.valid c List.mem_cons_self).2
    (h.file.fat c List.mem_cons_self) (h.good c List.mem_cons_self)]
  cases fs.part.drive.fault request with
  | none => rfl
  | some e => rfl

/-- The beginning of a cluster. -/
theorem at_cluster {head : Option Nat} {cs : List Nat} (hspc : 0 < fs.bpb.spc)
    (h : fs.ChainOf head cs) (hg : fs.NoBad cs) :
    At fs ⟨head, 0, 0⟩ cs ∧ remaining fs ⟨head, 0, 0⟩ cs = fs.chainBytes cs := by
  refine ⟨⟨h, hg, hspc, Nat.zero_le _⟩, ?_⟩
  cases cs with
  | nil => rfl
  | cons c cs =>
    change (fs.clusterBytes c).drop (0 * SECTOR_SIZE + 0) ++ _ = _
    rw [Nat.zero_mul, List.drop_zero]
    rfl

/-- Behind the last sector of a cluster remain the other clusters. -/
theorem remaining_atEnd {s : Seek} {c : Nat} {cs : List Nat} (hend : AtEnd fs s) :
    remaining fs s (c :: cs) = fs.chainBytes cs := by
  have hdrop : (fs.clusterBytes c).drop (s.sector * SECTOR_SIZE + s.offset) = [] := by
    refine List.drop_eq_nil_of_le ?_
    rw [clusterBytes_length, hend.1, ← hend.2, Nat.succ_mul]
  rw [remaining, hdrop]
  rfl

/-- The moves that were left for this read do not change what remains. -/
theorem leaveCluster_ok {s : Seek} {cs : List Nat} (he : fs.part.ErrorFree) (h : At fs s cs)
    (request : Nat) : ∃ s' cs' request', fs.leaveCluster request (Filesystem.leaveSector s) =
      (.ok (), s', request') ∧ At fs s' cs' ∧ s'.offset < SECTOR_SIZE ∧
      remaining fs s' cs' = remaining fs s cs := by
  by_cases hend : AtEnd fs s
  · cases cs with
    | nil =>
      obtain ⟨s', hleave, h', hoff, hsame, -⟩ := leaveCluster_stay h (fun _ => rfl) request
      exact ⟨s', [], request, hleave, h', hoff, hsame⟩
    | cons c cs =>
      obtain ⟨h', hsame⟩ := at_cluster h.spc_pos (ChainOf.tail h.file) (NoBad.tail h.good)
      refine ⟨⟨fs.link c, 0, 0⟩, cs, request + 1, ?_, h', sectorSize_pos, ?_⟩
      · rw [leaveCluster_move h hend, he request]
      · rw [hsame, remaining_atEnd hend]
  · obtain ⟨s', hleave, h', hoff, hsame, -⟩ := leaveCluster_stay h (fun h => absurd h hend) request
    exact ⟨s', cs, request, hleave, h', hoff, hsame⟩

/-- A sector holds the next bytes, as many as it has left. -/
theorem sectorAt_cases {s : Seek} {c : Nat} {cs : List Nat} (h : At fs s (c :: cs)) (request : Nat) :
    ∃ sector, (fs.sectorAt request c s.sector =
        match fs.part.drive.fault request with
        | some e => .error (.ata e)
        | none => .ok sector) ∧
      remaining fs s (c :: cs) = sector.toList.drop s.offset ++
        remaining fs { s with offset := SECTOR_SIZE } (c :: cs) := by
  have hmem : c ∈ c :: cs := List.mem_cons_self
  refine ⟨fs.part.drive.sector (fs.dataSector c + s.sector + fs.part.lba), ?_, ?_⟩
  · rw [Filesystem.sectorAt, firstClusterSector_ok (h.file.valid c hmem).1]
    exact Partition.readSectors_inReach (h.file.data c hmem _ h.sector) request
  · rw [remaining, remaining, ← List.drop_drop, clusterBytes_drop h.sector, ← List.append_assoc]
    have hle : s.offset ≤ (fs.sectorBytes (fs.dataSector c + s.sector)).length := by
      rw [sectorBytes_length]
      exact h.offset
    rw [List.drop_append_of_le_length hle, Nat.succ_mul]
    rfl

/-- The rest of a sector and the other clusters are still to come. -/
theorem room_le {s : Seek} {c : Nat} {cs : List Nat} (h : At fs s (c :: cs)) :
    SECTOR_SIZE - s.offset + (fs.chainBytes cs).length ≤ (remaining fs s (c :: cs)).length := by
  obtain ⟨sector, -, hfront⟩ := sectorAt_cases h 0
  rw [hfront, List.length_append, List.length_drop, sector_length, remaining, List.length_append]
  omega

theorem remaining_offset {s : Seek} {c : Nat} {cs : List Nat} (k : Nat)
    (hk : k ≤ (remaining fs s (c :: cs)).length - (fs.chainBytes cs).length) :
    remaining fs { s with offset := s.offset + k } (c :: cs) = (remaining fs s (c :: cs)).drop k := by
  rw [remaining, List.length_append, Nat.add_sub_cancel] at hk
  rw [remaining, remaining, List.drop_append_of_le_length hk, List.drop_drop, ← Nat.add_assoc]

/-- What a turn copies is the front of what remains. -/
theorem take_front {s : Seek} {c : Nat} {cs : List Nat} {sector : Sector} (k : Nat)
    (h : remaining fs s (c :: cs) = sector.toList.drop s.offset ++
      remaining fs { s with offset := SECTOR_SIZE } (c :: cs))
    (hk : k ≤ SECTOR_SIZE - s.offset) :
    (sector.toList.drop s.offset).take k = (remaining fs s (c :: cs)).take k := by
  rw [h, List.take_append_of_le_length]
  rw [List.length_drop, sector_length]
  exact hk

/-- The rest of a call behind the bytes that have been copied. -/
def ReadCall.after (call : ReadCall) (copied : List UInt8) : ReadCall :=
  { call with buf := copied ++ call.buf }

/-- A turn that copies. -/
theorem readLoop_copy {s s₁ : Seek} {c turns request request₁ total : Nat} {sector : Sector}
    {buf : List UInt8} (hbuf : buf.length ≠ 0)
    (hleave : fs.leaveCluster request (Filesystem.leaveSector s) = (.ok (), s₁, request₁))
    (hsome : s₁.cluster = some c) (hsector : fs.sectorAt request₁ c s₁.sector = .ok sector)
    (hoff : s₁.offset ≤ SECTOR_SIZE) {k : Nat}
    (hk : min (SECTOR_SIZE - s₁.offset) buf.length = k) :
    fs.readLoop (turns + 1) request s buf total =
      (fs.readLoop turns (request₁ + 1) { s₁ with offset := s₁.offset + k } (buf.drop k)
        (total + k)).after ((sector.toList.drop s₁.offset).take k) := by
  obtain ⟨cluster, sec, off⟩ := s₁
  subst hsome hk
  rw [Filesystem.readLoop, if_neg hbuf, hleave]
  simp only [hsector, if_neg (Nat.not_lt.mpr hoff)]
  rfl

theorem readLoop_ok {s : Seek} {cs : List Nat} (he : fs.part.ErrorFree) (h : At fs s cs)
    {turns : Nat} {buf : List UInt8} (hbuf : buf.length ≤ turns) (request total : Nat) :
    ∃ s' cs' request', fs.readLoop turns request s buf total =
        ⟨.ok (total + min buf.length (remaining fs s cs).length),
          (remaining fs s cs).take buf.length ++ buf.drop (remaining fs s cs).length, s', request'⟩ ∧
      At fs s' cs' ∧ remaining fs s' cs' = (remaining fs s cs).drop buf.length := by
  induction turns generalizing s cs buf request total with
  | zero =>
    obtain rfl := List.eq_nil_of_length_eq_zero (Nat.le_zero.mp hbuf)
    refine ⟨s, cs, request, ?_, h, rfl⟩
    rw [Filesystem.readLoop]
    simp
  | succ turns ih =>
    by_cases hnil : buf.length = 0
    · obtain rfl := List.eq_nil_of_length_eq_zero hnil
      refine ⟨s, cs, request, ?_, h, rfl⟩
      rw [Filesystem.readLoop]
      simp
    · obtain ⟨s₁, cs₁, request₁, hleave, h₁, hoff, hsame⟩ := leaveCluster_ok he h request
      rw [← hsame]
      cases cs₁ with
      | nil =>
        -- the end of the chain
        have hnone : s₁.cluster = none := h₁.file.chain
        refine ⟨s₁, [], request₁, ?_, h₁, by simp [remaining]⟩
        rw [Filesystem.readLoop, if_neg hnil, hleave]
        simp only [hnone]
        simp [remaining]
      | cons c cs₁ =>
        have hsome : s₁.cluster = some c := h₁.file.chain.1
        obtain ⟨sector, hsector, hfront⟩ := sectorAt_cases h₁ request₁
        rw [he request₁] at hsector
        generalize hk : min (SECTOR_SIZE - s₁.offset) buf.length = k
        have hk₁ : k ≤ SECTOR_SIZE - s₁.offset := hk ▸ Nat.min_le_left _ _
        have hk₂ : k ≤ buf.length := hk ▸ Nat.min_le_right _ _
        have hk₀ : 0 < k := by omega
        have hlen := room_le h₁
        have h₂ : At fs { s₁ with offset := s₁.offset + k } (c :: cs₁) := by
          refine ⟨h₁.file, h₁.good, h₁.sector, ?_⟩
          change s₁.offset + k ≤ _
          omega
        have hturns : (buf.drop k).length ≤ turns := by
          rw [List.length_drop]
          omega
        obtain ⟨s', cs', request', hrun, h', hrest⟩ := ih h₂ hturns (request₁ + 1) (total + k)
        rw [remaining_offset k (by omega)] at hrun hrest
        refine ⟨s', cs', request', ?_, h', ?_⟩
        · rw [readLoop_copy hnil hleave hsome hsector h₁.offset hk, hrun, take_front k hfront hk₁]
          have hresult : total + k + min (buf.drop k).length
              ((remaining fs s₁ (c :: cs₁)).drop k).length =
                total + min buf.length (remaining fs s₁ (c :: cs₁)).length := by
            rw [List.length_drop, List.length_drop]
            omega
          rw [ReadCall.after, hresult, List.length_drop, List.length_drop, List.drop_drop,
            ← List.append_assoc, ← List.take_add, Nat.add_sub_cancel' hk₂,
            Nat.add_sub_cancel' (by omega)]
        · rw [hrest, List.drop_drop, List.length_drop, Nat.add_sub_cancel' hk₂]

theorem read_ok {s : Seek} {cs : List Nat} (he : fs.part.ErrorFree) (h : At fs s cs)
    (request : Nat) (buf : List UInt8) :
    ∃ s' cs' request', fs.read request s buf =
        ⟨.ok (min buf.length (remaining fs s cs).length),
          (remaining fs s cs).take buf.length ++ buf.drop (remaining fs s cs).length, s', request'⟩ ∧
      At fs s' cs' ∧ remaining fs s' cs' = (remaining fs s cs).drop buf.length := by
  have hloop := readLoop_ok he h (Nat.le_refl buf.length) request 0
  rwa [Nat.zero_add] at hloop

/-- Calls of `File::read` one after the other. -/
def Filesystem.reads (fs : Filesystem) : Nat → Seek → List (List UInt8) → List ReadCall
  | _, _, [] => []
  | request, s, buf :: bufs =>
    let call := fs.read request s buf
    call :: fs.reads call.request call.seek bufs

/-- The bytes that a call returns. -/
def ReadCall.returned (call : ReadCall) : List UInt8 :=
  match call.result with
  | .ok n => call.buf.take n
  | .error _ => []

def lengths (bufs : List (List UInt8)) : Nat := (bufs.map List.length).sum

theorem reads_length (request : Nat) (s : Seek) (bufs : List (List UInt8)) :
    (fs.reads request s bufs).length = bufs.length := by
  induction bufs generalizing request s with
  | nil => rfl
  | cons buf bufs ih => exact congrArg Nat.succ (ih _ _)

theorem lengths_take_le (bufs : List (List UInt8)) (i : Nat) :
    lengths (bufs.take i) ≤ lengths bufs := by
  have hsplit := congrArg lengths (List.take_append_drop i bufs)
  rw [lengths, List.map_append, List.sum_append] at hsplit
  exact Nat.le.intro hsplit

theorem reads_at {s : Seek} {cs : List Nat} (he : fs.part.ErrorFree) (h : At fs s cs)
    (request : Nat) (bufs : List (List UInt8)) :
    (∀ i buf, bufs[i]? = some buf → ∃ call : ReadCall, (fs.reads request s bufs)[i]? = some call ∧
      call.result =
        .ok (min buf.length ((remaining fs s cs).length - lengths (bufs.take i)))) ∧
      (fs.reads request s bufs).flatMap ReadCall.returned =
        (remaining fs s cs).take (lengths bufs) := by
  induction bufs generalizing s cs request with
  | nil => exact ⟨nofun, rfl⟩
  | cons b bufs ih =>
    obtain ⟨s', cs', request', hread, h', hrest⟩ := read_ok he h request b
    obtain ⟨hresults, hreturned⟩ := ih h' request'
    rw [hrest, List.length_drop] at hresults
    rw [hrest] at hreturned
    rw [Filesystem.reads, hread]
    refine ⟨fun i buf hi => ?_, ?_⟩
    · cases i with
      | zero =>
        cases hi
        exact ⟨_, rfl, rfl⟩
      | succ i =>
        obtain ⟨call, hcall, hresult⟩ := hresults i buf hi
        refine ⟨call, hcall, ?_⟩
        rw [hresult, List.take_succ_cons, lengths, lengths, List.map_cons, List.sum_cons,
          Nat.sub_sub]
    · rw [List.flatMap_cons, hreturned]
      have hfirst : ((remaining fs s cs).take b.length ++ b.drop (remaining fs s cs).length).take
          (min b.length (remaining fs s cs).length) = (remaining fs s cs).take b.length := by
        rw [List.take_left']
        exact List.length_take
      change List.take _ (_ ++ _) ++ _ = _
      rw [hfirst, ← List.take_add]
      rfl

/-- However a file is cut into reads, they return its bytes in order, each as
many as it asks for and are left. -/
theorem reads_chain {start : Nat} {cs : List Nat} (he : fs.part.ErrorFree) (hspc : 1 ≤ fs.bpb.spc)
    (hfile : fs.ChainOf (some start) cs) (hgood : fs.NoBad cs) (request : Nat)
    (bufs : List (List UInt8)) :
    (∀ i buf, bufs[i]? = some buf →
      ∃ call : ReadCall, (fs.reads request (Seek.start start) bufs)[i]? = some call ∧
        call.result = .ok (min buf.length ((fs.chainBytes cs).length - lengths (bufs.take i)))) ∧
      (fs.reads request (Seek.start start) bufs).flatMap ReadCall.returned =
        (fs.chainBytes cs).take (lengths bufs) := by
  obtain ⟨hat, hbytes⟩ := at_cluster hspc hfile hgood
  rw [← hbytes]
  exact reads_at he hat request bufs

/-- The calls return the file: as many bytes as its entry says, from the front of
its chain. -/
structure ReturnsFile (fs : Filesystem) (e : RawDirEntry) (cs : List Nat)
    (calls : List ReadCall) : Prop where
  total : (calls.flatMap ReadCall.returned).length = e.size
  bytes : calls.flatMap ReadCall.returned = (fs.chainBytes cs).take e.size

/-- Reads that go on until one returns nothing have returned the whole chain. -/
theorem reads_until_zero {start : Nat} {cs : List Nat} (he : fs.part.ErrorFree)
    (hspc : 1 ≤ fs.bpb.spc) (hfile : fs.ChainOf (some start) cs) (hgood : fs.NoBad cs)
    {request : Nat} {bufs : List (List UInt8)} (hbufs : ∀ buf ∈ bufs, buf ≠ []) {call : ReadCall}
    (hlast : (fs.reads request (Seek.start start) bufs).getLast? = some call)
    (hzero : call.result = .ok 0) :
    (fs.reads request (Seek.start start) bufs).flatMap ReadCall.returned = fs.chainBytes cs := by
  obtain ⟨hresults, hreturned⟩ := reads_chain he hspc hfile hgood request bufs
  rw [List.getLast?_eq_getElem?, reads_length] at hlast
  have hne : bufs ≠ [] := by
    rintro rfl
    cases hlast
  have hlt : bufs.length - 1 < bufs.length := Nat.sub_lt (List.length_pos_iff.mpr hne) Nat.one_pos
  obtain ⟨call', hcall, hresult⟩ := hresults _ _ (List.getElem?_eq_getElem hlt)
  obtain rfl : call' = call := Option.some.inj (hcall.symm.trans hlast)
  -- a buffer with room has been left empty, so nothing was left
  have hmin := Except.ok.inj (hresult.symm.trans hzero)
  have hroom := List.length_pos_iff.mpr (hbufs _ (List.getElem_mem hlt))
  have hle := lengths_take_le bufs (bufs.length - 1)
  rw [hreturned, List.take_of_length_le (by omega)]

/-- The size is not looked at: a file is read as it should be just when it fills its
clusters. -/
theorem returnsFile_iff {e : RawDirEntry} {seek : Seek} {cs : List Nat} (he : fs.part.ErrorFree)
    (hspc : 1 ≤ fs.bpb.spc) (hopen : e.opened = .file e seek)
    (hfile : fs.ChainOf (some e.firstCluster) cs) (hgood : fs.NoBad cs)
    {request : Nat} {bufs : List (List UInt8)} (hbufs : ∀ buf ∈ bufs, buf ≠ []) {call : ReadCall}
    (hlast : (fs.reads request seek bufs).getLast? = some call) (hzero : call.result = .ok 0) :
    ReturnsFile fs e cs (fs.reads request seek bufs) ↔
      e.size = cs.length * (fs.bpb.spc * SECTOR_SIZE) := by
  obtain rfl : Seek.start e.firstCluster = seek := by
    rw [RawDirEntry.opened] at hopen
    split at hopen
    · cases hopen
    · exact (Open.file.inj hopen).2
  have hall := reads_until_zero he hspc hfile hgood hbufs hlast hzero
  rw [← chainBytes_length]
  constructor
  · intro h
    rw [← h.total, hall]
  · intro h
    refine ⟨?_, ?_⟩
    · rw [hall, h]
    · rw [hall, h, List.take_length]

/-- A volume with a FAT of `spf` sectors, in which cluster `2` has the entry
`next`; all other bytes are ones. -/
def smallVolume (next spf : UInt16) : Filesystem where
  part := {
    drive := {
      sector := fun lba =>
        if lba = 1 then sectorOf [0xff, 0xff, 0xff, 0xff, next.toUInt8, (next >>> 8).toUInt8] 0xff
        else sectorOf [] 0xff
      fault := fun _ => none }
    lba := 0
    sectors := 70000 }
  bpb := ⟨1, 1, 1, 0, spf⟩
  alloc := fun _ => true

theorem smallVolume_two : (smallVolume 3 1).fatEntry 2 = 3 := by decide +kernel

theorem smallVolume_three : (smallVolume 3 1).fatEntry 3 = 0xffff := by decide +kernel

theorem smallVolume_file : (smallVolume 3 1).ChainOf (some 2) [2, 3] := by
  refine ⟨⟨rfl, ?_, ?_⟩, by decide, by decide, by decide⟩
  · rw [Filesystem.link, smallVolume_two]
    rfl
  · rw [Filesystem.link, smallVolume_three]
    rfl

theorem smallVolume_noBad : (smallVolume 3 1).NoBad [2, 3] := by
  intro c hc
  rcases List.mem_pair.mp hc with rfl | rfl
  · rw [smallVolume_two]
    decide
  · rw [smallVolume_three]
    decide

theorem reads_chain_small :
    (smallVolume 3 1).part.ErrorFree ∧ (smallVolume 3 1).ChainOf (some 2) [2, 3] ∧
      ((smallVolume 3 1).reads 0 (Seek.start 2)
        [List.replicate 500 0, List.replicate 600 0, [0]]).flatMap ReadCall.returned =
          ((smallVolume 3 1).chainBytes [2, 3]).take 1101 := by
  have hlen : lengths [List.replicate 500 0, List.replicate 600 0, [0]] = 1101 := by
    rw [lengths, List.map_cons, List.map_cons, List.length_replicate, List.length_replicate]
    rfl
  refine ⟨fun _ => rfl, smallVolume_file, ?_⟩
  rw [← hlen]
  exact (reads_chain (fun _ => rfl) (by decide) smallVolume_file smallVolume_noBad 0 _).2

/-- A file in cluster `2`. -/
def smallEntry (size : Nat) : RawDirEntry where
  basename := #v[0x61, 0x20, 0x20, 0x20, 0x20, 0x20, 0x20, 0x20]
  extension := #v[0x20, 0x20, 0x20]
  attributes := 0
  clusterHi := 0
  clusterLo := 2
  size := size

def wholeBufs : List (List UInt8) := [List.replicate 1024 0, [0]]

theorem smallVolume_reads :
    ∃ call : ReadCall,
      ((smallVolume 3 1).reads 0 (Seek.start 2) wholeBufs).getLast? = some call ∧
        call.result = .ok 0 := by
  have hresults :=
    (reads_chain (fun _ => rfl) (by decide) smallVolume_file smallVolume_noBad 0 wholeBufs).1
  obtain ⟨call, hcall, hresult⟩ := hresults 1 [0] rfl
  refine ⟨call, ?_, ?_⟩
  · rw [List.getLast?_eq_getElem?, reads_length]
    exact hcall
  · have hfirst : lengths (wholeBufs.take 1) = 1024 := by
      rw [wholeBufs, List.take_succ_cons, List.take_zero, lengths, List.map_singleton,
        List.length_replicate, List.sum_singleton]
    rw [hresult, chainBytes_length, hfirst]
    exact congrArg Except.ok (by decide)

theorem wholeBufs_nonempty : ∀ buf ∈ wholeBufs, buf ≠ [] := by
  intro buf hbuf
  rcases List.mem_pair.mp hbuf with rfl | rfl
  · exact List.cons_ne_nil _ _
  · exact List.cons_ne_nil _ _

theorem returnsFile_full :
    (smallEntry 1024).opened = .file (smallEntry 1024) (Seek.start 2) ∧
      ReturnsFile (smallVolume 3 1) (smallEntry 1024) [2, 3]
        ((smallVolume 3 1).reads 0 (Seek.start 2) wholeBufs) := by
  obtain ⟨call, hlast, hzero⟩ := smallVolume_reads
  refine ⟨by decide, ?_⟩
  rw [returnsFile_iff (fun _ => rfl) (by decide) (by decide) smallVolume_file smallVolume_noBad
    wholeBufs_nonempty hlast hzero]
  decide

/-- A file of 100 bytes in two clusters: both clusters are returned. -/
theorem slack_is_returned :
    (smallVolume 3 1).part.ErrorFree ∧ (smallVolume 3 1).ChainOf (some 2) [2, 3] ∧
      (smallEntry 100).opened = .file (smallEntry 100) (Seek.start 2) ∧
      (∃ call : ReadCall, ((smallVolume 3 1).reads 0 (Seek.start 2) wholeBufs).getLast? = some call ∧
        call.result = .ok 0) ∧
      ¬ ReturnsFile (smallVolume 3 1) (smallEntry 100) [2, 3]
        ((smallVolume 3 1).reads 0 (Seek.start 2) wholeBufs) := by
  refine ⟨fun _ => rfl, smallVolume_file, by decide, smallVolume_reads, fun h => ?_⟩
  obtain ⟨call, hlast, hzero⟩ := smallVolume_reads
  have htotal := h.total
  rw [reads_until_zero (fun _ => rfl) (by decide) smallVolume_file smallVolume_noBad
    wholeBufs_nonempty hlast hzero, chainBytes_length] at htotal
  revert htotal
  decide

/-- A chain through the number that marks a bad cluster. -/
theorem bad_mark_panics :
    (smallVolume 0xfff7 256).part.ErrorFree ∧ 1 ≤ (smallVolume 0xfff7 256).bpb.spc ∧
      (smallVolume 0xfff7 256).ChainOf (some 2) [2, 0xfff7] ∧
      ((smallVolume 0xfff7 256).read 0 (Seek.start 2) (List.replicate 513 0)).result =
        .error (.panic .badCluster) := by
  have h₂ : (smallVolume 0xfff7 256).fatEntry 2 = 0xfff7 := by decide +kernel
  have h₇ : (smallVolume 0xfff7 256).fatEntry 0xfff7 = 0xffff := by decide +kernel
  refine ⟨fun _ => rfl, by decide, ⟨⟨rfl, ?_, ?_⟩, by decide, by decide, by decide⟩, ?_⟩
  · rw [Filesystem.link, h₂]
    rfl
  · rw [Filesystem.link, h₇]
    rfl
  · decide +kernel

end Crabos.Fat16
