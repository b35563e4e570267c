import Crabos.Fs.ReadFaults
import Crabos.Fs.Directory

/-!
# The cluster area

Clusters are numbered from two on, and both walkers take a number below that to
`first_cluster_sector` if they meet one. Files without contents have the first
cluster zero, and so has the entry of a parent that is the root directory.
-/
namespace Crabos.Fat16

open Crabos.Disk Crabos.Linked Crabos.Utf8

namespace Filesystem

variable (fs : Filesystem)

/-- The sectors behind the root directory. -/
def InClusters (sector : Nat) : Prop := fs.bpb.clustersBase ≤ sector ∧ sector < fs.part.sectors

/-- The data sectors that the loop of `File::read` asks for. -/
def loopSectors : Nat → Nat → Seek → Nat → List Nat
  | 0, _, _, _ => []
  | turns + 1, request, seek, len =>
    if len = 0 then []
    else
      match fs.leaveCluster request (leaveSector seek) with
      | (.error _, _, _) => []
      | (.ok _, seek, request) =>
        match seek.cluster with
        | none => []
        | some cluster =>
          match fs.bpb.firstClusterSector cluster with
          | .error _ => []
          | .ok first =>
            let byteCount := min (SECTOR_SIZE - seek.offset) len
            (first + seek.sector) ::
              match fs.part.readSectors request (first + seek.sector) with
              | .error _ => []
              | .ok _ => loopSectors turns (request + 1)
                { seek with offset := seek.offset + byteCount } (len - byteCount)

/-- The data sectors that calls of `File::read` ask for. -/
def readsSectors : Nat → Seek → List (List UInt8) → List Nat
  | _, _, [] => []
  | request, s, buf :: bufs =>
    let call := fs.read request s buf
    fs.loopSectors buf.length request s buf.length ++ readsSectors call.request call.seek bufs

/-- The sectors that `sector_chain` yields. -/
def chainSectors : Nat → Nat → Option Nat → List Nat
  | 0, _, _ => []
  | fuel + 1, request, cursor =>
    match fs.clusterChain request cursor with
    | .finished => []
    | .failed _ => []
    | .item cluster rest =>
      match fs.bpb.clusterSectors cluster with
      | .error _ => []
      | .ok sectors => sectors ++ chainSectors fuel (request + 1) rest

/-- All entries of a directory. -/
def list (fuel request : Nat) (d : Directory) : Option Stop :=
  fs.entries (fun _ _ => .ok ()) fuel request d

/-- Reading what has been opened never takes a number below two for a cluster, and asks
for no data outside of the cluster area, whichever requests are refused. -/
def StaysInside : Open → Prop
  | .file _ seek => ∀ fault alloc request bufs,
    (∀ call ∈ (fs.under fault alloc).reads request seek bufs,
      call.result ≠ .error (.panic .underflow)) ∧
      ∀ sector ∈ (fs.under fault alloc).readsSectors request seek bufs, fs.InClusters sector
  | .dir .root => True
  | .dir (.sub dirent) => ∀ fault alloc request fuel,
    (fs.under fault alloc).list fuel request (.sub dirent) ≠ some (.error (.panic .underflow)) ∧
      ∀ sector ∈ (fs.under fault alloc).chainSectors fuel request (some dirent.firstCluster),
        fs.InClusters sector

end Filesystem

/-- An entry of a well-formed volume: it has a chain, or it has no cluster at all. -/
inductive Placed (fs : Filesystem) (e : RawDirEntry) : Prop where
  | chain {cs : List Nat} (hchain : fs.ChainOf (some e.firstCluster) cs) (hgood : fs.NoBad cs)
  | zero (hzero : e.firstCluster = 0) (hmax : 0 < fs.maxCluster)
    (hfat : fs.part.InReach (fs.fatSector 0))

section area

variable {fs : Filesystem}

/-- The sectors of a chain lie in the cluster area. -/
theorem data_inClusters {head : Option Nat} {cs : List Nat} (h : fs.ChainOf head cs) {c i : Nat}
    (hc : c ∈ cs) (hi : i < fs.bpb.spc) : fs.InClusters (fs.dataSector c + i) := by
  refine ⟨?_, (h.data c hc i hi).1⟩
  rw [Filesystem.dataSector, Nat.add_assoc]
  exact Nat.le_add_right _ _

/-- A call that begins at a position in a file ends at one, and does not panic. -/
theorem read_at {s : Seek} {cs : List Nat} (h : At fs s cs) (request : Nat) (buf : List UInt8) :
    (∀ p, (fs.read request s buf).result ≠ .error (.panic p)) ∧
      ∃ cs', At fs (fs.read request s buf).seek cs' := by
  have hout := readLoop_failing h (Nat.le_refl buf.length) request 0
  change Outcome fs s cs 0 (fs.read request s buf) _ at hout
  cases hfail : fs.failing request s cs buf.length 0 with
  | none =>
    rw [hfail] at hout
    obtain ⟨⟨n, hok⟩, hat⟩ := hout
    refine ⟨fun p => ?_, hat⟩
    rw [hok]
    nofun
  | some a =>
    rw [hfail] at hout
    obtain ⟨⟨e, herror⟩, cs', hat, -⟩ := hout
    refine ⟨fun p => ?_, cs', hat⟩
    rw [herror]
    nofun

/-- The moves before a sector is read, if they succeed. -/
theorem leaveCluster_at {s : Seek} {cs : List Nat} (h : At fs s cs) (request : Nat) :
    (∃ e rest, fs.leaveCluster request (Filesystem.leaveSector s) = (.error e, rest)) ∨
      ∃ s' cs' request', fs.leaveCluster request (Filesystem.leaveSector s) =
        (.ok (), s', request') ∧ At fs s' cs' ∧ s'.offset < SECTOR_SIZE := by
  by_cases hmove : AtEnd fs s ∧ cs ≠ []
  · obtain ⟨hend, hne⟩ := hmove
    obtain ⟨c, cs, rfl⟩ := List.exists_cons_of_ne_nil hne
    rw [leaveCluster_move h hend]
    cases fs.part.drive.fault request with
    | some e => exact .inl ⟨_, _, rfl⟩
    | none =>
      have h' := (at_cluster h.spc_pos (ChainOf.tail h.file) (NoBad.tail h.good)).1
      exact .inr ⟨_, cs, _, rfl, h', sectorSize_pos⟩
  · obtain ⟨s', hleave, h', hoff, -⟩ := leaveCluster_stay h
      (fun hend => by_contra fun hne => hmove ⟨hend, hne⟩) request
    exact .inr ⟨s', cs, request, hleave, h', hoff⟩

theorem loopSectors_inside {s : Seek} {cs : List Nat} (h : At fs s cs) (turns request len : Nat) :
    ∀ sector ∈ fs.loopSectors turns request s len, fs.InClusters sector := by
  induction turns generalizing s cs request len with
  | zero => exact fun _ hm => absurd hm List.not_mem_nil
  | succ turns ih =>
    rw [Filesystem.loopSectors]
    by_cases hlen : len = 0
    · rw [if_pos hlen]
      exact fun _ hm => absurd hm List.not_mem_nil
    rw [if_neg hlen]
    rcases leaveCluster_at h request with ⟨e, rest, hleave⟩ | ⟨s', cs', request', hleave, h', hoff⟩
    · rw [hleave]
      exact fun _ hm => absurd hm List.not_mem_nil
    · rw [hleave]
      cases cs' with
      | nil =>
        have hnone : s'.cluster = none := h'.file.chain
        simp only [hnone]
        exact fun _ hm => absurd hm List.not_mem_nil
      | cons c cs' =>
        have hsome : s'.cluster = some c := h'.file.chain.1
        have hmem : c ∈ c :: cs' := List.mem_cons_self
        have hnext : At fs { s' with offset := s'.offset + min (SECTOR_SIZE - s'.offset) len }
            (c :: cs') := by
          refine ⟨h'.file, h'.good, h'.sector, ?_⟩
          change s'.offset + min (SECTOR_SIZE - s'.offset) len ≤ SECTOR_SIZE
          omega
        simp only [hsome, firstClusterSector_ok (h'.file.valid c hmem).1]
        intro sector hsector
        rcases List.mem_cons.mp hsector with rfl | hrest
        · exact data_inClusters h'.file hmem h'.sector
        · revert hrest
          cases fs.part.readSectors request' (fs.dataSector c + s'.sector) with
          | error e => exact fun hm => absurd hm List.not_mem_nil
          | ok buff =>
            rw [hsome] at hnext
            exact ih hnext (request' + 1) _ sector

theorem reads_inside {s : Seek} {cs : List Nat} (h : At fs s cs) (request : Nat)
    (bufs : List (List UInt8)) :
    (∀ call ∈ fs.reads request s bufs, call.result ≠ .error (.panic .underflow)) ∧
      ∀ sector ∈ fs.readsSectors request s bufs, fs.InClusters sector := by
  induction bufs generalizing s cs request with
  | nil => exact ⟨nofun, nofun⟩
  | cons buf bufs ih =>
    obtain ⟨hresult, cs', h'⟩ := read_at h request buf
    obtain ⟨hcalls, hsectors⟩ := ih h' (fs.read request s buf).request
    refine ⟨fun call hcall => ?_, fun sector hsector => ?_⟩
    · rcases List.mem_cons.mp hcall with rfl | hcall
      · exact hresult _
      · exact hcalls call hcall
    · rcases List.mem_append.mp hsector with hsector | hsector
      · exact loopSectors_inside h _ _ _ sector hsector
      · exact hsectors sector hsector

/-- Of a chain only clusters with a number are walked over. -/
theorem chainSectors_inside {c : Nat} {cs : List Nat} (h : fs.ChainOf (some c) cs)
    (hg : fs.NoBad cs) (fuel request : Nat) :
    ∀ sector ∈ fs.chainSectors fuel request (some c), fs.InClusters sector := by
  induction fuel generalizing c cs request with
  | zero => exact fun _ hm => absurd hm List.not_mem_nil
  | succ fuel ih =>
    cases cs with
    | nil => cases h.chain
    | cons d cs =>
      obtain rfl : c = d := Option.some.inj h.chain.1
      have hmem : c ∈ c :: cs := List.mem_cons_self
      have htail := ChainOf.tail h
      rw [Filesystem.chainSectors, Filesystem.clusterChain,
        nextCluster_link (h.valid c hmem).2 (h.fat c hmem) (hg c hmem)]
      cases fs.part.drive.fault request with
      | some e => exact fun _ hm => absurd hm List.not_mem_nil
      | none =>
        cases hlink : fs.link c with
        | none => exact fun _ hm => absurd hm List.not_mem_nil
        | some d =>
          rw [hlink] at htail
          simp only [clusterSectors_ok (h.valid c hmem).1]
          intro sector hsector
          rcases List.mem_append.mp hsector with hsector | hsector
          · obtain ⟨hlo, hhi⟩ := List.mem_range'_1.mp hsector
            obtain ⟨i, rfl⟩ := Nat.exists_eq_add_of_le hlo
            exact data_inClusters h hmem (Nat.lt_of_add_lt_add_left hhi)
          · exact ih htail (NoBad.tail hg) (request + 1) sector hsector

/-- Listing the entries of sectors in reach ends with no panic. -/
theorem useEntry_calm (es : List RawDirEntry) :
    Blind (fun stop => ∀ p, stop ≠ .error (.panic p)) dropRequest
      (fs.useEntry fun _ _ => .ok ()) (fun _ s => .ok s) es := by
  rintro e - ⟨request, _⟩
  rw [Filesystem.useEntry]
  split
  · exact .inl rfl
  split
  · exact .inr ⟨_, rfl, fun p hp => by cases hp⟩
  split
  · exact .inl rfl
  · exact .inr ⟨_, rfl, fun p hp => by cases hp⟩

theorem useSector_calm {sectors : List Nat}
    (hreach : ∀ sector ∈ sectors, fs.part.InReach sector) :
    Blind (fun stop => ∀ p, stop ≠ .error (.panic p)) dropRequest
      (fs.useSector fun _ _ => .ok ()) (fun _ s => .ok s) sectors := by
  rintro sector hsector ⟨request, _⟩
  rw [Filesystem.useSector, Partition.readSectors_inReach (hreach sector hsector)]
  cases fs.part.drive.fault request with
  | some e => exact .inr ⟨_, rfl, fun p hp => by cases hp⟩
  | none =>
    have hall : UpTo _ dropRequest (forAll (fs.useEntry fun _ _ => .ok ()) _ (request + 1, ())) _ :=
      forAll_upTo (useEntry_calm (rawEntries (fs.part.drive.sector (sector + fs.part.lba)))) _
    rw [fold_pure] at hall
    exact hall

/-- A directory with a chain can be listed. -/
theorem list_calm {e : RawDirEntry} {cs : List Nat} (h : fs.ChainOf (some e.firstCluster) cs)
    (hg : fs.NoBad cs) (fuel request : Nat) (p : Panic) :
    fs.list fuel request (.sub e) ≠ some (.error (.panic p)) := by
  intro hpanic
  obtain ⟨x, hwalk, hx⟩ := Option.map_eq_some_iff.mp hpanic
  have hmore := forClusters_mono hwalk (Nat.le_max_left fuel cs.length)
  obtain ⟨y, hy, hupTo⟩ : ∃ y, fs.forSectors .error (fs.useSector fun _ _ => .ok ())
      (max fuel cs.length) (some e.firstCluster) (request, ()) = some y ∧ _ :=
    forSectors_upTo (useSector_calm (sectorsOf_inReach h)) (by intro _ _ _ p; exact nofun) h hg
      (Nat.le_max_right fuel cs.length) (request, ())
  obtain rfl : x = y := Option.some.inj (hmore.symm.trans hy)
  rw [fold_pure] at hupTo
  rcases hupTo with hok | ⟨r, rfl, hcalm⟩
  · obtain ⟨_, rfl⟩ := forget_ok hok
    cases hx
  · exact hcalm p hx

/-- Behind the number zero the FAT has no link, or the walk panics. -/
theorem list_zero (fs : Filesystem) {e : RawDirEntry} (hzero : e.firstCluster = 0) (hmax : 0 < fs.maxCluster)
    (hfat : fs.part.InReach (fs.fatSector 0)) (fuel request : Nat) :
    fs.list (fuel + 1) request (.sub e) =
      match fs.part.drive.fault request with
      | some e => some (.error (.ata e))
      | none =>
        if 0xfff8 ≤ fs.fatEntry 0 then some (.ok none)
        else if fs.fatEntry 0 = 0xfff7 then some (.error (.panic .badCluster))
        else some (.error (.panic .underflow)) := by
  rw [Filesystem.list, Filesystem.entries, hzero, Filesystem.forSectors, Filesystem.forClusters,
    Filesystem.clusterChain, nextCluster_inReach hmax hfat]
  cases fs.part.drive.fault request with
  | some e => rfl
  | none =>
    by_cases hend : 0xfff8 ≤ fs.fatEntry 0
    · rw [if_pos hend, if_pos hend]
      rfl
    rw [if_neg hend, if_neg hend]
    by_cases hbad : fs.fatEntry 0 = 0xfff7
    · rw [if_pos hbad, if_pos hbad]
      rfl
    · rw [if_neg hbad, if_neg hbad]
      rfl

theorem chainSectors_zero (fs : Filesystem) (hmax : 0 < fs.maxCluster) (hfat : fs.part.InReach (fs.fatSector 0))
    (fuel request : Nat) : fs.chainSectors fuel request (some 0) = [] := by
  cases fuel with
  | zero => rfl
  | succ fuel =>
    rw [Filesystem.chainSectors, Filesystem.clusterChain, nextCluster_inReach hmax hfat]
    cases fs.part.drive.fault request with
    | some e => rfl
    | none =>
      by_cases hend : 0xfff8 ≤ fs.fatEntry 0
      · rw [if_pos hend]
      rw [if_neg hend]
      by_cases hbad : fs.fatEntry 0 = 0xfff7
      · rw [if_pos hbad]
      · rw [if_neg hbad]
        rfl

/-- A file without a cluster cannot be read. -/
theorem read_zero (fs : Filesystem) (hspc : 1 ≤ fs.bpb.spc) (request : Nat) :
    (fs.read request (Seek.start 0) [0]).result = .error (.panic .underflow) := by
  have hstay : fs.leaveCluster request (Filesystem.leaveSector (Seek.start 0)) =
      (.ok (), Seek.start 0, request) := by
    have hleave : Filesystem.leaveSector (Seek.start 0) = Seek.start 0 := rfl
    rw [hleave, Filesystem.leaveCluster]
    exact if_neg (by change ¬ 0 = fs.bpb.spc; omega)
  rw [Filesystem.read, List.length_singleton, Filesystem.readLoop,
    if_neg (by decide : ¬ [(0 : UInt8)].length = 0), hstay]
  rfl

theorem placed_zero {e : RawDirEntry} (hplaced : Placed fs e) (h : ¬ 2 ≤ e.firstCluster) :
    e.firstCluster = 0 ∧ 0 < fs.maxCluster ∧ fs.part.InReach (fs.fatSector 0) := by
  cases hplaced with
  | @chain cs hchain hgood =>
    cases cs with
    | nil => cases hchain.chain
    | cons c cs =>
      obtain rfl : e.firstCluster = c := Option.some.inj hchain.chain.1
      exact absurd (hchain.valid _ List.mem_cons_self).1 h
  | zero hzero hmax hfat => exact ⟨hzero, hmax, hfat⟩

theorem placed_chain {e : RawDirEntry} (hplaced : Placed fs e) (h : 2 ≤ e.firstCluster) :
    ∃ cs, fs.ChainOf (some e.firstCluster) cs ∧ fs.NoBad cs := by
  cases hplaced with
  | chain hchain hgood => exact ⟨_, hchain, hgood⟩
  | zero hzero hmax hfat =>
    rw [hzero] at h
    exact absurd h (by decide)

/-- An entry can be read without a number below two just when it has a first cluster, or it
is a directory and the FAT ends the walk behind the number zero. -/
theorem staysInside_iff (hspc : 1 ≤ fs.bpb.spc) {e : RawDirEntry} (hplaced : Placed fs e) :
    fs.StaysInside e.opened ↔
      2 ≤ e.firstCluster ∨ (e.isDir = true ∧ 0xfff7 ≤ fs.fatEntry 0) := by
  by_cases hfirst : 2 ≤ e.firstCluster
  · refine ⟨fun _ => .inl hfirst, fun _ => ?_⟩
    obtain ⟨cs, hchain, hgood⟩ := placed_chain hplaced hfirst
    rw [RawDirEntry.opened]
    split
    · intro fault alloc request fuel
      have hunder : (fs.under fault alloc).ChainOf (some e.firstCluster) cs :=
        ⟨hchain.chain, hchain.valid, hchain.fat, hchain.data⟩
      exact ⟨list_calm hunder hgood fuel request _, chainSectors_inside hunder hgood fuel request⟩
    · intro fault alloc request bufs
      exact reads_inside (at_under (at_cluster hspc hchain hgood).1 fault alloc) request bufs
  · obtain ⟨hzero, hmax, hfat⟩ := placed_zero hplaced hfirst
    rw [or_iff_right hfirst, RawDirEntry.opened]
    by_cases hdir : e.isDir = true
    · rw [if_pos hdir, and_iff_right hdir]
      constructor
      · intro h
        by_contra hlt
        refine (h (fun _ => none) (fun _ => true) 0 1).1 ?_
        rw [list_zero (fs.under (fun _ => none) fun _ => true) hzero hmax hfat 0 0]
        change (if 0xfff8 ≤ fs.fatEntry 0 then _ else if fs.fatEntry 0 = 0xfff7 then _ else _) = _
        rw [if_neg (by omega), if_neg (by omega)]
      · intro hge fault alloc request fuel
        refine ⟨?_, ?_⟩
        · cases fuel with
          | zero =>
            intro hp
            cases hp
          | succ fuel =>
            rw [list_zero (fs.under fault alloc) hzero hmax hfat fuel request]
            cases (fs.under fault alloc).part.drive.fault request with
            | some e =>
              intro hp
              cases hp
            | none =>
              change (if 0xfff8 ≤ fs.fatEntry 0 then _ else if fs.fatEntry 0 = 0xfff7 then _ else _) ≠ _
              by_cases hend : 0xfff8 ≤ fs.fatEntry 0
              · rw [if_pos hend]
                intro hp
                cases hp
              · rw [if_neg hend, if_pos (by omega)]
                intro hp
                cases hp
        · rw [hzero, chainSectors_zero (fs.under fault alloc) hmax hfat]
          exact fun _ hm => absurd hm List.not_mem_nil
    · rw [if_neg hdir]
      refine ⟨fun h => ?_, fun h => absurd h.1 hdir⟩
      have hread := (h (fun _ => none) (fun _ => true) 0 [[0]]).1 _ List.mem_cons_self
      rw [hzero] at hread
      exact absurd (read_zero (fs.under (fun _ => none) fun _ => true) hspc 0) hread

end area

theorem staysInside_small :
    Placed (smallVolume 3 1) (smallEntry 100) ∧
      (smallVolume 3 1).StaysInside (smallEntry 100).opened := by
  have hplaced : Placed (smallVolume 3 1) (smallEntry 100) :=
    .chain smallVolume_file smallVolume_noBad
  exact ⟨hplaced, (staysInside_iff (by decide) hplaced).mpr (.inl (by decide))⟩

/-- An empty file. -/
def emptyEntry : RawDirEntry := { smallEntry 0 with clusterLo := 0 }

/-- One byte is read from an empty file. -/
theorem empty_file_underflows :
    Placed (smallVolume 3 1) emptyEntry ∧
      emptyEntry.opened = .file emptyEntry (Seek.start 0) ∧
      ((smallVolume 3 1).read 0 (Seek.start 0) [0]).result = .error (.panic .underflow) ∧
      ¬ (smallVolume 3 1).StaysInside emptyEntry.opened := by
  have hopen : emptyEntry.opened = .file emptyEntry (Seek.start 0) := by decide
  have hread := read_zero (smallVolume 3 1) (by decide) 0
  refine ⟨.zero (by decide) (by decide) (by decide), hopen, hread, fun h => ?_⟩
  rw [hopen] at h
  exact (h (fun _ => none) (fun _ => true) 0 [[0]]).1 _ List.mem_cons_self hread

end Crabos.Fat16
