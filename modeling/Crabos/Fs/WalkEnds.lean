import Crabos.Fs.Directory

/-!
# Walks that end

The links of the FAT are followed without a count and without a note of where
the walk has been. It ends at a cluster without a link, or where the search has
its answer; on a cycle without such a cluster it goes on for ever.
-/
namespace Crabos.Fat16

open Crabos.Disk Crabos.Linked Crabos.Utf8

/-- A search for `name` does not go on behind this entry. -/
def Ends (name : List UInt8) (e : RawDirEntry) : Prop :=
  e.firstByte ≠ 0xef ∧ (e.firstByte = 0 ∨ (fromUtf8 e.filename).isOk = false ∨
    (fromUtf8 name).isOk = false ∨ e.filename = name)

instance (name : List UInt8) (e : RawDirEntry) : Decidable (Ends name e) :=
  inferInstanceAs (Decidable (_ ∧ _))

namespace Filesystem

variable (fs : Filesystem)

/-- The entries in a cluster. -/
def clusterEntries (c : Nat) : List RawDirEntry := fs.entriesOf (fs.sectorsOf c)

/-- The cluster that a search for `name` goes on with behind this one. -/
def goesOn (name : List UInt8) (c : Nat) : Option Nat :=
  if ∃ e ∈ fs.clusterEntries c, Ends name e then none else fs.link c

/-- A cluster whose entry of the FAT and whose sectors can be read. -/
structure InRange (c : Nat) : Prop where
  valid : 2 ≤ c ∧ c < fs.maxCluster
  fat : fs.part.InReach (fs.fatSector c)
  data : ∀ i < fs.bpb.spc, fs.part.InReach (fs.dataSector c + i)

/-- All links are to such clusters. -/
def LinksInRange : Prop :=
  ∀ c, fs.InRange c → fs.fatEntry c ≠ 0xfff7 ∧ ∀ d, fs.link c = some d → fs.InRange d

end Filesystem

section ends

variable {fs : Filesystem} {name : List UInt8} {cut : Stop → Prop}

theorem goesOn_some {c d : Nat} (h : fs.goesOn name c = some d) :
    (¬ ∃ e ∈ fs.clusterEntries c, Ends name e) ∧ fs.link c = some d := by
  rw [Filesystem.goesOn] at h
  split at h
  · cases h
  · rename_i hon
    exact ⟨hon, h⟩

theorem see_ok {e : RawDirEntry} (h : ¬ Ends name e) : see name e () = .ok () := by
  rw [see]
  by_cases hef : e.firstByte = 0xef
  · rw [if_pos hef]
  · have hnot : ¬ (e.firstByte = 0 ∨ (fromUtf8 e.filename).isOk = false ∨
        (fromUtf8 name).isOk = false ∨ e.filename = name) := fun hor => h ⟨hef, hor⟩
    rw [not_or, not_or, not_or] at hnot
    rw [if_neg hef, if_neg hnot.1, if_neg (not_or.mpr ⟨hnot.2.1, hnot.2.2.1⟩), if_neg hnot.2.2.2]

theorem see_error {e : RawDirEntry} (h : Ends name e) : ∃ r, see name e () = .error r := by
  rw [see, if_neg h.1]
  by_cases hend : e.firstByte = 0
  · rw [if_pos hend]
    exact ⟨_, rfl⟩
  rw [if_neg hend]
  by_cases hprint : (fromUtf8 e.filename).isOk = false ∨ (fromUtf8 name).isOk = false
  · rw [if_pos hprint]
    exact ⟨_, rfl⟩
  rw [if_neg hprint]
  have hmatch : e.filename = name := by
    rcases h.2 with h | h | h | h
    · exact absurd h hend
    · exact absurd (Or.inl h) hprint
    · exact absurd (Or.inr h) hprint
    · exact h
  rw [if_pos hmatch]
  exact ⟨_, rfl⟩

theorem fold_see_ok {es : List RawDirEntry} (h : ¬ ∃ e ∈ es, Ends name e) :
    fold (see name) es () = .ok () := by
  induction es with
  | nil => rfl
  | cons e es ih =>
    rw [fold_cons, see_ok fun he => h ⟨e, List.mem_cons_self, he⟩]
    exact ih fun ⟨e', hmem, he⟩ => h ⟨e', List.mem_cons_of_mem _ hmem, he⟩

theorem fold_see_error {es : List RawDirEntry} (h : ∃ e ∈ es, Ends name e) :
    ∃ r, fold (see name) es () = .error r := by
  induction es with
  | nil =>
    obtain ⟨e, hmem, -⟩ := h
    cases hmem
  | cons e es ih =>
    rw [fold_cons]
    by_cases he : Ends name e
    · obtain ⟨r, hr⟩ := see_error he
      rw [hr]
      exact ⟨r, rfl⟩
    · rw [see_ok he]
      obtain ⟨e', hmem, he'⟩ := h
      rcases List.mem_cons.mp hmem with rfl | hmem
      · exact absurd he' he
      · exact ih ⟨e', hmem, he'⟩

/-- The search in one cluster. -/
theorem cluster_upTo (hcuts : Cuts fs cut) {c : Nat} (h : fs.InRange c) (name : List UInt8)
    (s : Nat × Unit) :
    UpTo cut dropRequest (forAll (fs.useSector (look name)) (fs.sectorsOf c) s)
      (fold (see name) (fs.clusterEntries c) ()) := by
  rw [Filesystem.clusterEntries, Filesystem.entriesOf, fold_flatMap]
  refine forAll_upTo (useSector_blind hcuts fun sector hsector => ?_) s
  obtain ⟨hlo, hhi⟩ := List.mem_range'_1.mp hsector
  obtain ⟨i, rfl⟩ := Nat.exists_eq_add_of_le hlo
  exact h.data i (Nat.lt_of_add_lt_add_left hhi)

/-- A chain of clusters that a search comes to an end on, whatever the drive does, bounds
the number of clusters that it visits. -/
theorem forSectors_ends (hlinks : fs.LinksInRange) {c : Nat} {cs : List Nat}
    (h : Chain (fs.goesOn name) (some c) cs) (hc : fs.InRange c) {fuel : Nat}
    (hf : cs.length ≤ fuel) (s : Nat × Unit) :
    ∃ x, fs.forSectors .error (fs.useSector (look name)) fuel (some c) s = some x := by
  induction cs generalizing c fuel s with
  | nil => cases h
  | cons d cs ih =>
    obtain rfl : c = d := Option.some.inj h.1
    obtain ⟨fuel, rfl⟩ := Nat.exists_eq_add_of_le' (Nat.le_trans (Nat.le_add_left 1 cs.length) hf)
    obtain ⟨request, s⟩ := s
    rw [Filesystem.forSectors, Filesystem.forClusters, Filesystem.clusterChain,
      nextCluster_link hc.valid.2 hc.fat (hlinks c hc).1]
    cases fs.part.drive.fault request with
    | some e => exact ⟨_, rfl⟩
    | none =>
      cases hlink : fs.link c with
      | none => exact ⟨_, rfl⟩
      | some d =>
        simp only [clusterSectors_ok hc.valid.1]
        have hcluster : UpTo (fun _ => True) dropRequest
            (forAll (fs.useSector (look name)) (fs.sectorsOf c) (request + 1, s)) _ :=
          cluster_upTo ⟨fun _ _ _ => trivial, fun _ _ => trivial⟩ hc name _
        cases hbody : forAll (fs.useSector (look name)) (fs.sectorsOf c) (request + 1, s) with
        | error r => exact ⟨_, rfl⟩
        | ok s =>
          -- nothing in this cluster ends the search
          have hon : ¬ ∃ e ∈ fs.clusterEntries c, Ends name e := by
            intro hends
            obtain ⟨r, hr⟩ := fold_see_error hends
            rw [hbody, hr] at hcluster
            rcases hcluster with hc | ⟨_, hc, -⟩
            · cases hc
            · cases hc
          have hnext : fs.goesOn name c = some d := by
            rw [Filesystem.goesOn, if_neg hon, hlink]
          exact ih (hnext ▸ h.2) ((hlinks c hc).2 d hlink) (Nat.le_of_succ_le_succ hf) s

/-- Without such a chain the search never ends. -/
theorem forSectors_endless (he : fs.part.ErrorFree) (hmem : ∀ request, fs.alloc request = true)
    (hlinks : fs.LinksInRange) {c : Nat} (hc : fs.InRange c)
    (h : ¬ ∃ cs, Chain (fs.goesOn name) (some c) cs) (fuel : Nat) (s : Nat × Unit) :
    fs.forSectors .error (fs.useSector (look name)) fuel (some c) s = none := by
  induction fuel generalizing c s with
  | zero => rfl
  | succ fuel ih =>
    obtain ⟨request, s⟩ := s
    obtain ⟨d, hnext⟩ : ∃ d, fs.goesOn name c = some d := by
      cases hnext : fs.goesOn name c with
      | none => exact absurd ⟨[c], rfl, hnext⟩ h
      | some d => exact ⟨d, rfl⟩
    have hrest : ¬ ∃ cs, Chain (fs.goesOn name) (some d) cs :=
      fun ⟨cs, hcs⟩ => h ⟨c :: cs, rfl, hnext ▸ hcs⟩
    obtain ⟨hon, hlink⟩ := goesOn_some hnext
    have hcluster := (cluster_upTo (cuts_never he hmem) hc name (request + 1, s)).eq
    rw [fold_see_ok hon] at hcluster
    obtain ⟨request', hbody⟩ := forget_ok hcluster
    rw [Filesystem.forSectors, Filesystem.forClusters, Filesystem.clusterChain,
      nextCluster_link hc.valid.2 hc.fat (hlinks c hc).1, he request, hlink]
    simp only [clusterSectors_ok hc.valid.1, hbody]
    exact ih ((hlinks c hc).2 d hlink) hrest (request', ())

theorem chain_inRange (hlinks : fs.LinksInRange) {c : Nat} {cs : List Nat}
    (h : Chain (fs.goesOn name) (some c) cs) (hc : fs.InRange c) : ∀ d ∈ cs, fs.InRange d := by
  induction cs generalizing c with
  | nil => exact fun _ hd => nomatch hd
  | cons d cs ih =>
    obtain rfl : c = d := Option.some.inj h.1
    intro x hx
    rcases List.mem_cons.mp hx with rfl | hx
    · exact hc
    · cases hnext : fs.goesOn name c with
      | none =>
        have hrest := h.2
        rw [hnext] at hrest
        cases cs with
        | nil => cases hx
        | cons d cs => cases hrest.1
      | some d =>
        have hrest := h.2
        rw [hnext] at hrest
        exact ih hrest ((hlinks c hc).2 d (goesOn_some hnext).2) x hx

/-- A chain in range visits no more clusters than the FAT has entries. -/
theorem chain_length_le (hlinks : fs.LinksInRange) {c : Nat} {cs : List Nat}
    (h : Chain (fs.goesOn name) (some c) cs) (hc : fs.InRange c) : cs.length ≤ fs.maxCluster := by
  have hsub : cs.toFinset ⊆ Finset.range fs.maxCluster := fun d hd =>
    Finset.mem_range.mpr (chain_inRange hlinks h hc d (List.mem_toFinset.mp hd)).valid.2
  have hcard := Finset.card_le_card hsub
  rwa [List.toFinset_card_of_nodup (chain_nodup h), Finset.card_range] at hcard

theorem inRange_under (fault : Nat → Option AtaError) (alloc : Nat → Bool) (c : Nat) :
    (fs.under fault alloc).InRange c ↔ fs.InRange c :=
  ⟨fun h => ⟨h.valid, h.fat, h.data⟩, fun h => ⟨h.valid, h.fat, h.data⟩⟩

theorem linksInRange_under (h : fs.LinksInRange) (fault : Nat → Option AtaError)
    (alloc : Nat → Bool) : (fs.under fault alloc).LinksInRange := by
  intro c hc
  obtain ⟨hbad, hnext⟩ := h c ((inRange_under fault alloc c).mp hc)
  exact ⟨hbad, fun d hd => (inRange_under fault alloc d).mpr (hnext d hd)⟩

/-- A search in a directory ends, within as many clusters as the FAT has entries, just when
the links lead to a cluster without a link or to an entry at which it ends. -/
theorem entry_ends_iff (hlinks : fs.LinksInRange) {e : RawDirEntry}
    (hstart : fs.InRange e.firstCluster) (name : List UInt8) :
    (∀ fault alloc request, ∃ stop,
        (fs.under fault alloc).entry fs.maxCluster request (.sub e) name = some stop) ↔
      ∃ cs, Chain (fs.goesOn name) (some e.firstCluster) cs := by
  constructor
  · intro h
    obtain ⟨stop, hstop⟩ := h (fun _ => none) (fun _ => true) 0
    by_contra hno
    have hfree : (fs.under (fun _ => none) fun _ => true).part.ErrorFree := fun _ => rfl
    rw [Filesystem.entry, Filesystem.entries, forSectors_endless hfree (fun _ => rfl)
      (linksInRange_under hlinks _ _) ((inRange_under _ _ _).mpr hstart) hno] at hstop
    cases hstop
  · rintro ⟨cs, hcs⟩ fault alloc request
    obtain ⟨x, hx⟩ := forSectors_ends (linksInRange_under hlinks fault alloc) hcs
      ((inRange_under fault alloc _).mpr hstart) (chain_length_le hlinks hcs hstart) (request, ())
    refine ⟨answer x, ?_⟩
    rw [Filesystem.entry, Filesystem.entries, hx]
    rfl

end ends

/-- The entry of a directory in cluster `2`. -/
def subEntry : RawDirEntry :=
  { smallEntry 0 with attributes := 0x10 }

/-- A volume on which the cluster `2` is full of files and has the entry `next`; all
other clusters end a chain. -/
def fullVolume (next : UInt16) : Filesystem where
  part := {
    drive := {
      sector := fun lba =>
        if lba = 1 then sectorOf [0xf8, 0xff, 0xff, 0xff, next.toUInt8, (next >>> 8).toUInt8] 0xff
        else sectorOf (List.replicate 16 (rawFile 0x41)).flatten 0
      fault := fun _ => none }
    lba := 0
    sectors := 1000 }
  bpb := ⟨1, 1, 1, 16, 1⟩
  alloc := fun _ => true

theorem fullVolume_loop : (fullVolume 2).fatEntry 2 = 2 := by decide +kernel

theorem fullVolume_others {c : Nat} (hlo : 2 < c) (hhi : c < 256) :
    (fullVolume 2).fatEntry c = 0xffff := by
  have hsector : (fullVolume 2).fatSector c + (fullVolume 2).part.lba = 1 := by
    change 1 + c * 2 / 512 + 0 = 1
    omega
  have hplace : c * FAT_ENTRY_SIZE % SECTOR_SIZE = c * 2 := by
    change c * 2 % 512 = c * 2
    omega
  have hpad : ∀ i, 6 ≤ i → i < SECTOR_SIZE →
      byte ((fullVolume 2).part.drive.sector 1) i = 0xff := fun i hle hlt => byte_pad hle hlt
  have hroom : c * 2 + 1 < SECTOR_SIZE := by
    change c * 2 + 1 < 512
    omega
  rw [Filesystem.fatEntry, word, hplace, hsector, hpad _ (by omega) (by omega),
    hpad _ (by omega) hroom]
  rfl

theorem fullVolume_goesOn : (fullVolume 2).goesOn [0x7a] 2 = some 2 := by decide +kernel

theorem fullVolume_inRange {c : Nat} (hlo : 2 ≤ c) (hhi : c < 256) : (fullVolume 2).InRange c := by
  refine ⟨⟨hlo, hhi⟩, ?_, fun i hi => ?_⟩
  · change 1 + c * 2 / 512 < 1000 ∧ 1 + c * 2 / 512 + 0 ≤ 0x00fffffe
    omega
  · have hone : i < 1 := hi
    change 3 + (c - 2) * 1 + i < 1000 ∧ 3 + (c - 2) * 1 + i + 0 ≤ 0x00fffffe
    omega

theorem fullVolume_links : (fullVolume 2).LinksInRange := by
  intro c hc
  have hhi : c < 256 := hc.valid.2
  rcases Nat.eq_or_lt_of_le hc.valid.1 with rfl | hlo
  · refine ⟨by rw [fullVolume_loop]; decide, fun d hd => ?_⟩
    rw [Filesystem.link, fullVolume_loop] at hd
    cases hd
    exact hc
  · refine ⟨by rw [fullVolume_others hlo hhi]; decide, fun d hd => ?_⟩
    rw [Filesystem.link, fullVolume_others hlo hhi] at hd
    cases hd

/-- From another cluster the search ends. -/
theorem fullVolume_ends :
    (fullVolume 2).LinksInRange ∧ (fullVolume 2).InRange 3 ∧
      ∀ fault alloc request, ∃ stop, ((fullVolume 2).under fault alloc).entry 256 request
        (.sub { subEntry with clusterLo := 3 }) [0x7a] = some stop := by
  refine ⟨fullVolume_links, fullVolume_inRange (by decide) (by decide), ?_⟩
  refine (entry_ends_iff fullVolume_links (fullVolume_inRange (by decide) (by decide)) _).mpr ?_
  refine ⟨[3], rfl, ?_⟩
  have hlink : (fullVolume 2).link 3 = none := by
    rw [Filesystem.link, fullVolume_others (by decide) (by decide)]
    rfl
  change (fullVolume 2).goesOn [0x7a] 3 = none
  rw [Filesystem.goesOn, hlink]
  exact ite_self _

/-- A directory that is linked to itself. -/
theorem loop_never_ends :
    (fullVolume 2).LinksInRange ∧ (fullVolume 2).InRange subEntry.firstCluster ∧
      ∀ fuel, (fullVolume 2).entry fuel 0 (.sub subEntry) [0x7a] = none := by
  have hstart : (fullVolume 2).InRange 2 := fullVolume_inRange (by decide) (by decide)
  refine ⟨fullVolume_links, hstart, fun fuel => ?_⟩
  have hno : ¬ ∃ cs, Chain ((fullVolume 2).goesOn [0x7a]) (some 2) cs := by
    rintro ⟨cs, hcs⟩
    cases cs with
    | nil => cases hcs
    | cons c cs =>
      have hrest : Chain ((fullVolume 2).goesOn [0x7a]) (some 2) cs := by
        have hnext := hcs.2
        rw [← Option.some.inj hcs.1, fullVolume_goesOn] at hnext
        exact hnext
      have hlen := congrArg List.length (chain_unique hcs hrest)
      rw [List.length_cons] at hlen
      omega
  rw [Filesystem.entry, Filesystem.entries, show subEntry.firstCluster = 2 from rfl,
    forSectors_endless (fun _ => rfl) (fun _ => rfl) fullVolume_links hstart hno]
  rfl


end Crabos.Fat16
