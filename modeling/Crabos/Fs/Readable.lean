import Crabos.Fs.ClusterArea

/-!
# Reads that do not panic

On a volume whose links may lead anywhere a read panics if it comes to a number
that is no cluster, or to a sector that the drive cannot be asked for. Which
ones it comes to depends on where it begins, and on how many bytes it asks for.
-/
namespace Crabos.Fat16

open Crabos.Disk

namespace Filesystem

variable (fs : Filesystem)

/-- The cluster that so many links lead to. -/
def follow : Nat → Option Nat → Option Nat
  | 0, head => head
  | j + 1, head => follow j (head.bind fs.link)

def clusterSize : Nat := fs.bpb.spc * SECTOR_SIZE

/-- A cluster whose link can be read. -/
structure LinkOk (c : Nat) : Prop where
  valid : c < fs.maxCluster
  fat : fs.part.InReach (fs.fatSector c)
  good : fs.fatEntry c ≠ 0xfff7

/-- A sector of a cluster that can be read. -/
structure SectorOk (c i : Nat) : Prop where
  valid : 2 ≤ c
  data : fs.part.InReach (fs.dataSector c + i)

/-- Each of the next `n` bytes that the file has lies in a sector that can be read, and the
links lead there. -/
def Readable (s : Seek) (n : Nat) : Prop :=
  ∀ k < n, (∀ j < (s.place + k) / fs.clusterSize, ∀ c, fs.follow j s.cluster = some c →
      fs.LinkOk c) ∧
    ∀ c, fs.follow ((s.place + k) / fs.clusterSize) s.cluster = some c →
      fs.SectorOk c ((s.place + k) % fs.clusterSize / SECTOR_SIZE)

/-- A place within a cluster. -/
structure InPlace (s : Seek) : Prop where
  sector : s.sector < fs.bpb.spc
  offset : s.offset ≤ SECTOR_SIZE

end Filesystem

variable {fs : Filesystem}

theorem follow_none (j : Nat) : fs.follow j none = none := by
  induction j with
  | zero => rfl
  | succ j ih => exact ih

/-- Behind the end of a file nothing is needed. -/
theorem readable_end {s : Seek} (h : s.cluster = none) (n : Nat) : fs.Readable s n := by
  intro k _
  rw [h]
  refine ⟨fun j _ c hc => ?_, fun c hc => ?_⟩
  · rw [follow_none] at hc
    cases hc
  · rw [follow_none] at hc
    cases hc

theorem readable_zero (s : Seek) : fs.Readable s 0 := fun _ hk => absurd hk (Nat.not_lt_zero _)

theorem readable_congr {s s' : Seek} (hc : s'.cluster = s.cluster) (hp : s'.place = s.place) (n : Nat) :
    fs.Readable s' n ↔ fs.Readable s n := by
  rw [Filesystem.Readable, Filesystem.Readable, hc, hp]

theorem clusterSize_pos {s : Seek} (h : fs.InPlace s) : 0 < fs.clusterSize :=
  Nat.mul_pos (Nat.lt_of_le_of_lt (Nat.zero_le _) h.sector) sectorSize_pos

theorem place_atEnd {s : Seek} (h : AtEnd fs s) : s.place = fs.clusterSize := by
  rw [Seek.place, h.1, Filesystem.clusterSize, ← h.2, Nat.succ_mul]

/-- At the end of a cluster its link is needed first. -/
theorem readable_link {s : Seek} {c n : Nat} (h : fs.InPlace s) (hend : AtEnd fs s)
    (hc : s.cluster = some c) (hn : n ≠ 0) :
    fs.Readable s n ↔ fs.LinkOk c ∧ fs.Readable ⟨fs.link c, 0, 0⟩ n := by
  have hpos := clusterSize_pos h
  have hdiv : ∀ k, (s.place + k) / fs.clusterSize = k / fs.clusterSize + 1 := by
    intro k
    rw [place_atEnd hend, Nat.add_comm, Nat.add_div_right _ hpos]
  have hmod : ∀ k, (s.place + k) % fs.clusterSize = k % fs.clusterSize := by
    intro k
    rw [place_atEnd hend, Nat.add_mod_left]
  simp only [Filesystem.Readable, hdiv, hmod, hc, place_start, Nat.zero_add]
  constructor
  · intro hread
    refine ⟨(hread 0 (by omega)).1 0 (Nat.succ_pos _) c rfl, fun k hk => ⟨?_, (hread k hk).2⟩⟩
    exact fun j hj d hd => (hread k hk).1 (j + 1) (Nat.succ_lt_succ hj) d hd
  · rintro ⟨hlink, hread⟩ k hk
    refine ⟨fun j hj d hd => ?_, (hread k hk).2⟩
    cases j with
    | zero =>
      cases hd
      exact hlink
    | succ j => exact (hread k hk).1 j (Nat.lt_of_succ_lt_succ hj) d hd

/-- Within a cluster a sector is needed first. -/
theorem readable_sector {s : Seek} {c n k : Nat} (h : fs.InPlace s) (hoff : s.offset < SECTOR_SIZE)
    (hc : s.cluster = some c) (hn : n ≠ 0) (hk : min (SECTOR_SIZE - s.offset) n = k) :
    fs.Readable s n ↔
      fs.SectorOk c s.sector ∧ fs.Readable { s with offset := s.offset + k } (n - k) := by
  have hplace : Seek.place { s with offset := s.offset + k } = s.place + k :=
    (Nat.add_assoc _ _ _).symm
  have hhere : ∀ i < k, (s.place + i) / fs.clusterSize = 0 ∧
      (s.place + i) % fs.clusterSize / SECTOR_SIZE = s.sector := by
    intro i hi
    have hlt : s.place + i < (s.sector + 1) * SECTOR_SIZE := by
      rw [Seek.place, Nat.succ_mul]
      omega
    have hle : (s.sector + 1) * SECTOR_SIZE ≤ fs.clusterSize :=
      Nat.mul_le_mul_right _ h.sector
    rw [Nat.div_eq_of_lt (hlt.trans_le hle), Nat.mod_eq_of_lt (hlt.trans_le hle)]
    refine ⟨rfl, ?_⟩
    rw [Seek.place, Nat.add_assoc, Nat.mul_comm, Nat.mul_add_div sectorSize_pos,
      Nat.div_eq_of_lt (by omega), Nat.add_zero]
  have hkpos : 0 < k := by omega
  constructor
  · intro hread
    refine ⟨?_, fun i hi => ?_⟩
    · have hfirst := (hread 0 (by omega)).2
      rw [(hhere 0 hkpos).1, (hhere 0 hkpos).2] at hfirst
      exact hfirst c hc
    · have hlater := hread (k + i) (by omega)
      rw [← Nat.add_assoc, ← hplace] at hlater
      exact hlater
  · rintro ⟨hsector, hread⟩ i hi
    by_cases hik : i < k
    · rw [(hhere i hik).1, (hhere i hik).2]
      refine ⟨fun j hj => absurd hj (Nat.not_lt_zero j), fun d hd => ?_⟩
      obtain rfl : c = d := Option.some.inj (hc.symm.trans hd)
      exact hsector
    · have hlater := hread (i - k) (by omega)
      rw [hplace, Nat.add_assoc, Nat.add_sub_cancel' (Nat.not_lt.mp hik)] at hlater
      exact hlater

theorem inReach_not {part : Partition} {lba : Nat} (h : ¬ part.InReach lba) (request : Nat) :
    ∃ p, part.readSectors request lba = .error (.panic p) := by
  rw [Partition.readSectors]
  by_cases hend : part.sectors < lba + 1
  · exact ⟨_, if_pos hend⟩
  · have hmax : MAX_LBA < lba + part.lba := by
      by_contra hle
      exact h ⟨by omega, Nat.not_lt.mp hle⟩
    rw [if_neg hend, IdeDrive.readSectors, if_pos hmax]
    exact ⟨_, rfl⟩

theorem nextCluster_fails {c : Nat} (h : ¬ fs.LinkOk c) (request : Nat) :
    ∃ e, fs.nextCluster request c = .error e ∧ (fs.part.ErrorFree → ∃ p, e = .panic p) := by
  by_cases hvalid : c < fs.maxCluster
  · by_cases hfat : fs.part.InReach (fs.fatSector c)
    · have hbad : fs.fatEntry c = 0xfff7 := by_contra fun hgood => h ⟨hvalid, hfat, hgood⟩
      rw [nextCluster_inReach hvalid hfat, hbad]
      cases hfault : fs.part.drive.fault request with
      | some a =>
        refine ⟨_, rfl, fun he => ?_⟩
        rw [he request] at hfault
        cases hfault
      | none => exact ⟨_, rfl, fun _ => ⟨_, rfl⟩⟩
    · obtain ⟨p, hp⟩ := inReach_not hfat request
      rw [Filesystem.nextCluster, if_neg (Nat.not_le.mpr hvalid), hp]
      exact ⟨_, rfl, fun _ => ⟨p, rfl⟩⟩
  · rw [Filesystem.nextCluster, if_pos (Nat.not_lt.mp hvalid)]
    exact ⟨_, rfl, fun _ => ⟨_, rfl⟩⟩

theorem sectorAt_ok {c i : Nat} (h : fs.SectorOk c i) (request : Nat) :
    fs.sectorAt request c i =
      match fs.part.drive.fault request with
      | some e => .error (.ata e)
      | none => .ok (fs.part.drive.sector (fs.dataSector c + i + fs.part.lba)) := by
  rw [Filesystem.sectorAt, firstClusterSector_ok h.valid]
  exact Partition.readSectors_inReach h.data request

theorem sectorAt_panics {c i : Nat} (h : ¬ fs.SectorOk c i) (request : Nat) :
    ∃ p, fs.sectorAt request c i = .error (.panic p) := by
  rw [Filesystem.sectorAt]
  by_cases hvalid : 2 ≤ c
  · rw [firstClusterSector_ok hvalid]
    exact inReach_not (fun hdata => h ⟨hvalid, hdata⟩) request
  · have hunder : fs.bpb.firstClusterSector c = .error (.panic .underflow) :=
      if_pos (Nat.not_le.mp hvalid)
    rw [hunder]
    exact ⟨_, rfl⟩

/-- The moves before a sector is read: none of them leaves the cluster, or its link is read. -/
theorem leaveCluster_cases {s : Seek} (h : fs.InPlace s) (request : Nat) :
    (∃ s', fs.leaveCluster request (Filesystem.leaveSector s) = (.ok (), s', request) ∧
        fs.InPlace s' ∧ s'.offset < SECTOR_SIZE ∧ ∀ n, fs.Readable s' n ↔ fs.Readable s n) ∨
      ∃ c, s.cluster = some c ∧ AtEnd fs s ∧
        fs.leaveCluster request (Filesystem.leaveSector s) =
          match fs.nextCluster request c with
          | .error e => (.error e, ⟨some c, 0, 0⟩, request + 1)
          | .ok next => (.ok (), ⟨next, 0, 0⟩, request + 1) := by
  have hspc : 0 < fs.bpb.spc := Nat.lt_of_le_of_lt (Nat.zero_le _) h.sector
  by_cases hoff : s.offset = SECTOR_SIZE
  · have hleave : Filesystem.leaveSector s = { s with offset := 0, sector := s.sector + 1 } :=
      if_pos hoff
    rw [hleave, Filesystem.leaveCluster]
    by_cases hlast : s.sector + 1 = fs.bpb.spc
    · rw [if_pos hlast]
      cases hc : s.cluster with
      | none =>
        refine .inl ⟨_, rfl, ⟨hspc, Nat.zero_le _⟩, sectorSize_pos, fun n => ?_⟩
        exact ⟨fun _ => readable_end hc n, fun _ => readable_end rfl n⟩
      | some c =>
        refine .inr ⟨c, rfl, ⟨hoff, hlast⟩, ?_⟩
        cases hnext : fs.nextCluster request c with
        | error e => simp only [hnext]
        | ok next => simp only [hnext]
    · rw [if_neg hlast]
      have hplace : Seek.place { s with offset := 0, sector := s.sector + 1 } = s.place := by
        rw [Seek.place, Seek.place, Nat.add_zero, Nat.succ_mul, hoff]
      have hsector := h.sector
      refine .inl ⟨_, rfl, ⟨?_, Nat.zero_le _⟩, sectorSize_pos, readable_congr rfl hplace⟩
      change s.sector + 1 < _
      omega
  · have hleave : Filesystem.leaveSector s = s := if_neg hoff
    rw [hleave, Filesystem.leaveCluster, if_neg (Nat.ne_of_lt h.sector)]
    exact .inl ⟨s, rfl, h, lt_of_le_of_ne h.offset hoff, fun _ => Iff.rfl⟩

/-- A call of `File::read` with a file that can be read as far as `readable` says. -/
structure Safe (fs : Filesystem) (readable : Prop) (call : ReadCall) : Prop where
  place : fs.InPlace call.seek
  calm : readable → ∀ p, call.result ≠ .error (.panic p)
  panics : fs.part.ErrorFree → ¬ readable → ∃ p, call.result = .error (.panic p)

theorem safe_ok {readable : Prop} {call : ReadCall} {n : Nat} (hok : call.result = .ok n)
    (hread : readable) (h : fs.InPlace call.seek) : Safe fs readable call := by
  refine ⟨h, fun _ p hp => ?_, fun _ hnot => absurd hread hnot⟩
  rw [hok] at hp
  cases hp

theorem safe_ata {readable : Prop} {call : ReadCall} {a b : AtaError} {request : Nat}
    (herror : call.result = .error (.ata a)) (hfault : fs.part.drive.fault request = some b)
    (h : fs.InPlace call.seek) : Safe fs readable call := by
  refine ⟨h, fun _ p hp => ?_, fun he _ => ?_⟩
  · rw [herror] at hp
    cases hp
  · rw [he request] at hfault
    cases hfault

/-- The rest of a turn after the moves to the next sector and cluster. -/
theorem readLoop_turn {s s₁ : Seek} {turns request request₁ total : Nat} {buf : List UInt8}
    (hnil : buf.length ≠ 0)
    (hleave : fs.leaveCluster request (Filesystem.leaveSector s) = (.ok (), s₁, request₁))
    (h : fs.InPlace s₁) (hoff : s₁.offset < SECTOR_SIZE)
    (ih : ∀ {s : Seek}, fs.InPlace s → ∀ {buf : List UInt8}, buf.length ≤ turns →
      ∀ request total, Safe fs (fs.Readable s buf.length) (fs.readLoop turns request s buf total))
    (hbuf : buf.length ≤ turns + 1) :
    Safe fs (fs.Readable s₁ buf.length) (fs.readLoop (turns + 1) request s buf total) := by
  cases hc : s₁.cluster with
  | none =>
    rw [Filesystem.readLoop, if_neg hnil, hleave]
    simp only [hc]
    exact safe_ok rfl (readable_end hc _) h
  | some c =>
    generalize hk : min (SECTOR_SIZE - s₁.offset) buf.length = k
    rw [readable_sector h hoff hc hnil hk]
    cases hsector : fs.sectorAt request₁ c s₁.sector with
    | error e =>
      rw [Filesystem.readLoop, if_neg hnil, hleave]
      simp only [hc, hsector]
      by_cases hok : fs.SectorOk c s₁.sector
      · rw [sectorAt_ok hok] at hsector
        cases hfault : fs.part.drive.fault request₁ with
        | some a =>
          rw [hfault] at hsector
          cases hsector
          exact safe_ata rfl hfault h
        | none =>
          rw [hfault] at hsector
          cases hsector
      · obtain ⟨p, hp⟩ := sectorAt_panics hok request₁
        obtain rfl : e = .panic p := Except.error.inj (hsector.symm.trans hp)
        exact ⟨h, fun hread => absurd hread.1 hok, fun _ _ => ⟨p, rfl⟩⟩
    | ok sector =>
      have hok : fs.SectorOk c s₁.sector := by
        by_contra hnot
        obtain ⟨p, hp⟩ := sectorAt_panics hnot request₁
        rw [hsector] at hp
        cases hp
      have hplace : fs.InPlace { s₁ with offset := s₁.offset + k } := by
        refine ⟨h.sector, ?_⟩
        change s₁.offset + k ≤ SECTOR_SIZE
        omega
      have hturns : (buf.drop k).length ≤ turns := by
        rw [List.length_drop]
        omega
      have hrest := ih hplace hturns (request₁ + 1) (total + k)
      rw [List.length_drop] at hrest
      rw [readLoop_copy hnil hleave hc hsector h.offset hk, and_iff_right hok]
      exact ⟨hrest.place, hrest.calm, hrest.panics⟩

theorem readLoop_safe {s : Seek} (h : fs.InPlace s) {turns : Nat} {buf : List UInt8}
    (hbuf : buf.length ≤ turns) (request total : Nat) :
    Safe fs (fs.Readable s buf.length) (fs.readLoop turns request s buf total) := by
  induction turns generalizing s buf request total with
  | zero =>
    obtain rfl := List.eq_nil_of_length_eq_zero (Nat.le_zero.mp hbuf)
    exact safe_ok rfl (readable_zero s) h
  | succ turns ih =>
    by_cases hnil : buf.length = 0
    · rw [hnil, Filesystem.readLoop, if_pos hnil]
      exact safe_ok rfl (readable_zero s) h
    · rcases leaveCluster_cases h request with ⟨s₁, hleave, h₁, hoff, hsame⟩ | ⟨c, hc, hend, hleave⟩
      · rw [← hsame]
        exact readLoop_turn hnil hleave h₁ hoff ih hbuf
      · have hstart : ∀ head, fs.InPlace ⟨head, 0, 0⟩ := fun head =>
          ⟨Nat.lt_of_le_of_lt (Nat.zero_le _) h.sector, Nat.zero_le _⟩
        rw [readable_link h hend hc hnil]
        by_cases hlink : fs.LinkOk c
        · rw [nextCluster_link hlink.valid hlink.fat hlink.good] at hleave
          rw [and_iff_right hlink]
          cases hfault : fs.part.drive.fault request with
          | some e =>
            rw [hfault] at hleave
            rw [Filesystem.readLoop, if_neg hnil, hleave]
            exact safe_ata rfl hfault (hstart _)
          | none =>
            rw [hfault] at hleave
            exact readLoop_turn hnil hleave (hstart _) sectorSize_pos ih hbuf
        · obtain ⟨e, hnext, hpanic⟩ := nextCluster_fails hlink request
          rw [hnext] at hleave
          rw [Filesystem.readLoop, if_neg hnil, hleave]
          refine ⟨hstart _, fun hread => absurd hread.1 hlink, fun he _ => ?_⟩
          obtain ⟨p, rfl⟩ := hpanic he
          exact ⟨p, rfl⟩

/-- With no request refused a read panics exactly if the file cannot be read that far; and
otherwise it does not panic, whichever requests are refused. -/
theorem read_safe {s : Seek} (h : fs.InPlace s) (request : Nat) (buf : List UInt8) :
    Safe fs (fs.Readable s buf.length) (fs.read request s buf) :=
  readLoop_safe h (Nat.le_refl _) request 0

theorem follow_under (fault : Nat → Option AtaError) (alloc : Nat → Bool) (j : Nat)
    (head : Option Nat) : (fs.under fault alloc).follow j head = fs.follow j head := by
  induction j generalizing head with
  | zero => rfl
  | succ j ih => exact ih _

/-- What is on the volume does not depend on the requests that are refused. -/
theorem readable_under {s : Seek} {n : Nat} (fault : Nat → Option AtaError) (alloc : Nat → Bool) :
    (fs.under fault alloc).Readable s n ↔ fs.Readable s n := by
  have hlink : ∀ c, (fs.under fault alloc).LinkOk c ↔ fs.LinkOk c := fun c =>
    ⟨fun h => ⟨h.valid, h.fat, h.good⟩, fun h => ⟨h.valid, h.fat, h.good⟩⟩
  have hsector : ∀ c i, (fs.under fault alloc).SectorOk c i ↔ fs.SectorOk c i := fun c i =>
    ⟨fun h => ⟨h.valid, h.data⟩, fun h => ⟨h.valid, h.data⟩⟩
  simp only [Filesystem.Readable, follow_under, hlink, hsector]
  exact Iff.rfl

/-- A file of a well-formed volume can be read. -/
theorem readable_at {s : Seek} {cs : List Nat} (h : At fs s cs) (n : Nat) : fs.Readable s n := by
  by_contra hnot
  have hcalm := (read_at (at_under h (fun _ => none) fs.alloc) 0 (List.replicate n 0)).1
  have hplace : fs.cleared.InPlace s := ⟨h.sector, h.offset⟩
  have hsafe := read_safe hplace 0 (List.replicate n 0)
  rw [List.length_replicate] at hsafe
  obtain ⟨p, hp⟩ := hsafe.panics (fun _ => rfl) fun hread => hnot ((readable_under _ _).mp hread)
  exact hcalm p hp

end Crabos.Fat16
