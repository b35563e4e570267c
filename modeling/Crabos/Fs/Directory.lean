import Crabos.Fs.Walk
import Crabos.Lib.Utf8

/-!
# Directories (`kernel/src/fs/fat16.rs`)

The entries of a directory are a stream over the sectors of the directory. It is
consumed one entry at a time, and what comes behind the entry at which the
consumer stops is never read. The search for a name prints both the name of the
entry and the name it looks for, and printing takes them for UTF-8.
-/
namespace Crabos.Fat16

open Crabos.Disk Crabos.Linked Crabos.Utf8

/-- `transmute`: a sector as an array of entries. -/
def rawEntries (s : Sector) : List RawDirEntry := (List.range 16).map (RawDirEntry.ofSector s)

/-- How the consumption of a stream of entries is ended: by an error, or by an
answer, with the number of requests at that point. -/
abbrev Stop := Io (Option (RawDirEntry × Nat))

abbrev Use := RawDirEntry → Nat → Except Stop Unit

def BiosParameterBlock.rootSectors (b : BiosParameterBlock) : List Nat :=
  List.range' b.firstRootDirSector b.rootDirSectorCount

/-- A stream that has ended has no more answers. -/
def answer : Except Stop (Nat × Unit) → Stop
  | .error stop => stop
  | .ok _ => .ok none

namespace Filesystem

variable (fs : Filesystem)

/-- The filters of `read_entries`, the new `DirEntry`, and then the consumer. -/
def useEntry (use : Use) : Body RawDirEntry Unit Stop := fun e (request, _) =>
  if e.firstByte = 0xef then .ok (request, ())
  else if e.firstByte = 0 then .error (.ok none)
  else if fs.alloc request then
    match use e (request + 1) with
    | .error stop => .error stop
    | .ok _ => .ok (request + 1, ())
  else .error (.error .memoryExhausted)

/-- `read_raw_entries_from_sector`, and the entries that it returns. -/
def useSector (use : Use) : Body Nat Unit Stop := fun sector (request, _) =>
  match fs.part.readSectors request sector with
  | .error e => .error (.error e)
  | .ok s => forAll (fs.useEntry use) (rawEntries s) (request + 1, ())

/-- `Directory::entries` over `directory_sectors`. -/
def entries (use : Use) (fuel request : Nat) : Directory → Option Stop
  | .root => some (answer (forAll (fs.useSector use) fs.bpb.rootSectors (request, ())))
  | .sub dirent =>
    (fs.forSectors .error (fs.useSector use) fuel (some dirent.firstCluster) (request, ())).map answer

end Filesystem

/-- The filter of `Directory::entry`. -/
def look (name : List UInt8) : Use := fun e request =>
  if (fromUtf8 e.filename).isOk = false then .error (.error (.panic .notUtf8))
  else if (fromUtf8 name).isOk = false then .error (.error (.panic .notUtf8))
  else if e.filename = name then .error (.ok (some (e, request)))
  else .ok ()

/-- `Directory::entry`. -/
def Filesystem.entry (fs : Filesystem) (fuel request : Nat) (d : Directory) (name : List UInt8) :
    Option Stop :=
  fs.entries (look name) fuel request d

/-! What a search comes to, from the entries alone. -/

/-- An entry that is met by a search for `name`. -/
def see (name : List UInt8) (e : RawDirEntry) (_ : Unit) : Except (Io (Option RawDirEntry)) Unit :=
  if e.firstByte = 0xef then .ok ()
  else if e.firstByte = 0 then .error (.ok none)
  else if (fromUtf8 e.filename).isOk = false ∨ (fromUtf8 name).isOk = false then
    .error (.error (.panic .notUtf8))
  else if e.filename = name then .error (.ok (some e))
  else .ok ()

/-- The entries that are looked at: of each the name is printed, together with the
name that is looked for. -/
def examined (name : List UInt8) : List RawDirEntry → List RawDirEntry
  | [] => []
  | e :: es =>
    if e.firstByte = 0xef then examined name es
    else if e.firstByte = 0 then []
    else e :: if e.filename = name then [] else examined name es

/-- All that is printed is UTF-8. -/
def Clean (name : List UInt8) (es : List RawDirEntry) : Prop :=
  ∀ e ∈ examined name es, (fromUtf8 e.filename).isOk = true ∧ (fromUtf8 name).isOk = true

instance (name : List UInt8) (es : List RawDirEntry) : Decidable (Clean name es) :=
  inferInstanceAs (Decidable (∀ e ∈ examined name es, _ ∧ _))

/-- What a search for `name` finds. -/
def find (name : List UInt8) (es : List RawDirEntry) : Option RawDirEntry :=
  (es.takeWhile (·.firstByte ≠ 0)).find? fun e => e.firstByte ≠ 0xef ∧ e.filename = name

def search (name : List UInt8) (es : List RawDirEntry) : Io (Option RawDirEntry) :=
  match fold (see name) es () with
  | .error r => r
  | .ok _ => .ok none

/-- The cases of an entry. -/
theorem search_cons (name : List UInt8) (e : RawDirEntry) (es : List RawDirEntry) :
    search name (e :: es) =
      if e.firstByte = 0xef then search name es
      else if e.firstByte = 0 then .ok none
      else if (fromUtf8 e.filename).isOk = false ∨ (fromUtf8 name).isOk = false then
        .error (.panic .notUtf8)
      else if e.filename = name then .ok (some e)
      else search name es := by
  rw [search, fold_cons, see]
  by_cases hef : e.firstByte = 0xef
  · simp only [if_pos hef]
    rfl
  by_cases hend : e.firstByte = 0
  · simp only [if_neg hef, if_pos hend]
    rfl
  by_cases hprint : (fromUtf8 e.filename).isOk = false ∨ (fromUtf8 name).isOk = false
  · simp only [if_neg hef, if_neg hend, if_pos hprint]
    rfl
  simp only [if_neg hef, if_neg hend, if_neg hprint]
  by_cases hmatch : e.filename = name
  · simp only [if_pos hmatch]
    rfl
  · simp only [if_neg hmatch]
    rfl

theorem find_cons (name : List UInt8) (e : RawDirEntry) (es : List RawDirEntry) :
    find name (e :: es) =
      if e.firstByte = 0 then none
      else if e.firstByte ≠ 0xef ∧ e.filename = name then some e
      else find name es := by
  rw [find, List.takeWhile_cons]
  by_cases hend : e.firstByte = 0
  · simp [hend]
  · by_cases hmatch : e.firstByte ≠ 0xef ∧ e.filename = name
    · simp [hend, hmatch]
    · simp [hend, hmatch, find]

theorem search_clean {name : List UInt8} {es : List RawDirEntry} (h : Clean name es) :
    search name es = .ok (find name es) := by
  induction es with
  | nil => rfl
  | cons e es ih =>
    rw [search_cons, find_cons]
    rw [Clean, examined] at h
    by_cases hef : e.firstByte = 0xef
    · rw [if_pos hef] at h
      rw [if_pos hef, if_neg (by rw [hef]; decide), if_neg (fun hc => hc.1 hef)]
      exact ih h
    rw [if_neg hef] at h ⊢
    by_cases hend : e.firstByte = 0
    · rw [if_pos hend, if_pos hend]
    rw [if_neg hend] at h ⊢
    have hthis := h e List.mem_cons_self
    rw [if_neg (by simp [hthis.1, hthis.2]), if_neg hend]
    by_cases hmatch : e.filename = name
    · rw [if_pos hmatch, if_pos ⟨hef, hmatch⟩]
    · rw [if_neg hmatch] at h ⊢
      rw [if_neg (fun hc => hmatch hc.2)]
      exact ih fun e' he' => h e' (List.mem_cons_of_mem _ he')

theorem search_dirty {name : List UInt8} {es : List RawDirEntry} (h : ¬ Clean name es) :
    search name es = .error (.panic .notUtf8) := by
  induction es with
  | nil => exact absurd (fun _ he => nomatch he) h
  | cons e es ih =>
    rw [search_cons]
    rw [Clean, examined] at h
    by_cases hef : e.firstByte = 0xef
    · rw [if_pos hef] at h ⊢
      exact ih h
    rw [if_neg hef] at h ⊢
    by_cases hend : e.firstByte = 0
    · rw [if_pos hend] at h
      exact absurd (fun _ he => nomatch he) h
    rw [if_neg hend] at h ⊢
    by_cases hprint : (fromUtf8 e.filename).isOk = false ∨ (fromUtf8 name).isOk = false
    · rw [if_pos hprint]
    rw [if_neg hprint]
    have hthis : (fromUtf8 e.filename).isOk = true ∧ (fromUtf8 name).isOk = true := by
      simpa using hprint
    by_cases hmatch : e.filename = name
    · rw [if_pos hmatch] at h
      exact absurd (fun e' he' => List.mem_singleton.mp he' ▸ hthis) h
    · rw [if_neg hmatch] at h ⊢
      refine ih fun hclean => h fun e' he' => ?_
      rcases List.mem_cons.mp he' with rfl | he'
      · exact hthis
      · exact hclean e' he'

/-! Directories on the disk. -/

section disk

variable {fs : Filesystem} {name : List UInt8} {cut : Stop → Prop}

/-- The entries in some sectors. -/
def Filesystem.entriesOf (fs : Filesystem) (sectors : List Nat) : List RawDirEntry :=
  sectors.flatMap fun sector => rawEntries (fs.part.drive.sector (sector + fs.part.lba))

/-- A directory, the sectors that it is made of, and those that `directory_sectors`
yields. The root directory is cluster zero when it is the parent of a directory;
without the mark of an end in the first entry of the FAT nothing can be yielded
then. -/
inductive Listing (fs : Filesystem) : Directory → List Nat → Option (List Nat) → Prop where
  | root (hreach : ∀ sector ∈ fs.bpb.rootSectors, fs.part.InReach sector) :
    Listing fs .root fs.bpb.rootSectors (some fs.bpb.rootSectors)
  | sub {e : RawDirEntry} {cs : List Nat} (hchain : fs.ChainOf (some e.firstCluster) cs)
    (hgood : fs.NoBad cs) :
    Listing fs (.sub e) (cs.flatMap fs.sectorsOf) (some (cs.dropLast.flatMap fs.sectorsOf))
  | up {e : RawDirEntry} (hzero : e.firstCluster = 0) (hmax : 0 < fs.maxCluster)
    (hfat : fs.part.InReach (fs.fatSector 0)) :
    Listing fs (.sub e) fs.bpb.rootSectors (if 0xfff8 ≤ fs.fatEntry 0 then some [] else none)

/-- Walks that a refused request ends are cut short. -/
structure Cuts (fs : Filesystem) (cut : Stop → Prop) : Prop where
  drive : ∀ request e, fs.part.drive.fault request = some e → cut (.error (.ata e))
  memory : ∀ request, fs.alloc request = false → cut (.error .memoryExhausted)

/-- The answer of a search without the number of the request. -/
def dropRequest : Stop → Io (Option RawDirEntry) := Except.map (Option.map Prod.fst)

theorem useEntry_blind (hcuts : Cuts fs cut) (es : List RawDirEntry) :
    Blind cut dropRequest (fs.useEntry (look name)) (see name) es := by
  rintro e - ⟨request, _⟩
  rw [Filesystem.useEntry, see]
  by_cases hef : e.firstByte = 0xef
  · rw [if_pos hef, if_pos hef]
    exact .inl rfl
  by_cases hend : e.firstByte = 0
  · rw [if_neg hef, if_neg hef, if_pos hend, if_pos hend]
    exact .inl rfl
  rw [if_neg hef, if_neg hef, if_neg hend, if_neg hend]
  by_cases hmem : fs.alloc request = true
  · rw [if_pos hmem, look]
    left
    by_cases hentry : (fromUtf8 e.filename).isOk = false
    · simp only [if_pos hentry, if_pos (Or.inl hentry)]
      rfl
    by_cases hname : (fromUtf8 name).isOk = false
    · simp only [if_neg hentry, if_pos hname, if_pos (Or.inr hname)]
      rfl
    simp only [if_neg hentry, if_neg hname, if_neg (not_or.mpr ⟨hentry, hname⟩)]
    by_cases hmatch : e.filename = name
    · simp only [if_pos hmatch]
      rfl
    · simp only [if_neg hmatch]
      rfl
  · rw [if_neg hmem]
    exact .inr ⟨_, rfl, hcuts.memory request (by simpa using hmem)⟩

theorem useSector_blind (hcuts : Cuts fs cut) {sectors : List Nat}
    (hreach : ∀ sector ∈ sectors, fs.part.InReach sector) :
    Blind cut dropRequest (fs.useSector (look name))
      (fun sector => fold (see name) (rawEntries (fs.part.drive.sector (sector + fs.part.lba))))
      sectors := by
  rintro sector hsector ⟨request, _⟩
  rw [Filesystem.useSector, Partition.readSectors_inReach (hreach sector hsector)]
  cases hfault : fs.part.drive.fault request with
  | some e => exact .inr ⟨_, rfl, hcuts.drive request e hfault⟩
  | none => exact forAll_upTo (useEntry_blind hcuts _) _

/-- The answer of the walk is that of the search. -/
theorem answer_upTo {sectors : List Nat} {x : Except Stop (Nat × Unit)}
    (h : UpTo cut dropRequest x
      (fold (fun sector =>
        fold (see name) (rawEntries (fs.part.drive.sector (sector + fs.part.lba)))) sectors ())) :
    dropRequest (answer x) = search name (fs.entriesOf sectors) ∨ cut (answer x) := by
  rcases h with h | ⟨r, rfl, hr⟩
  · left
    rw [search, Filesystem.entriesOf, fold_flatMap, ← h]
    cases x with
    | error r => rfl
    | ok s => rfl
  · exact .inr hr

/-- A search looks at the entries in the sectors that are yielded. -/
theorem entry_upTo (hcuts : Cuts fs cut) {d : Directory} {all seen : List Nat}
    (h : Listing fs d all (some seen)) (name : List UInt8) (request : Nat) :
    ∃ n stop, (∀ fuel, n ≤ fuel → fs.entry fuel request d name = some stop) ∧
      (dropRequest stop = search name (fs.entriesOf seen) ∨ cut stop) := by
  generalize hs : some seen = seen' at h
  cases h with
  | root hreach =>
    obtain rfl := Option.some.inj hs
    refine ⟨0, _, fun _ _ => rfl, ?_⟩
    exact answer_upTo (forAll_upTo (useSector_blind hcuts hreach) (request, ()))
  | @sub e cs hchain hgood =>
    obtain rfl := Option.some.inj hs
    obtain ⟨x, hwalk, hx⟩ := forSectors_upTo (useSector_blind hcuts (sectorsOf_inReach hchain))
      hcuts.drive hchain hgood (Nat.le_refl cs.length) (request, ())
    refine ⟨cs.length, answer x, fun fuel hfuel => ?_, answer_upTo hx⟩
    rw [Filesystem.entry, Filesystem.entries, Filesystem.forSectors, forClusters_mono hwalk hfuel]
    rfl
  | @up e hzero hmax hfat =>
    split at hs
    · rename_i hend
      obtain rfl := Option.some.inj hs
      cases hfault : fs.part.drive.fault request with
      | some a =>
        refine ⟨1, .error (.ata a), fun fuel hfuel => ?_, .inr (hcuts.drive request a hfault)⟩
        obtain ⟨fuel, rfl⟩ := Nat.exists_eq_add_of_le' hfuel
        rw [Filesystem.entry, Filesystem.entries, hzero, Filesystem.forSectors,
          Filesystem.forClusters, Filesystem.clusterChain, nextCluster_inReach hmax hfat, hfault]
        rfl
      | none =>
        refine ⟨1, .ok none, fun fuel hfuel => ?_, .inl rfl⟩
        obtain ⟨fuel, rfl⟩ := Nat.exists_eq_add_of_le' hfuel
        rw [Filesystem.entry, Filesystem.entries, hzero, Filesystem.forSectors,
          Filesystem.forClusters, Filesystem.clusterChain, nextCluster_inReach hmax hfat,
          if_pos hend, hfault]
        rfl
    · cases hs

/-- Without the mark of an end, the walk from cluster zero panics. -/
theorem entry_panics (hcuts : Cuts fs cut) {d : Directory} {all : List Nat}
    (h : Listing fs d all none) (request : Nat) :
    ∀ fuel, 1 ≤ fuel → ∃ stop, fs.entry fuel request d name = some stop ∧
      ((∃ p, stop = .error (.panic p)) ∨ cut stop) := by
  generalize hs : none = seen' at h
  cases h with
  | root hreach => cases hs
  | sub hchain hgood => cases hs
  | @up e hzero hmax hfat =>
    intro fuel hfuel
    obtain ⟨fuel, rfl⟩ := Nat.exists_eq_add_of_le' hfuel
    rw [Filesystem.entry, Filesystem.entries, hzero, Filesystem.forSectors,
      Filesystem.forClusters, Filesystem.clusterChain, nextCluster_inReach hmax hfat]
    split at hs
    · cases hs
    · rename_i hend
      rw [if_neg hend]
      cases hfault : fs.part.drive.fault request with
      | some e => exact ⟨_, rfl, .inr (hcuts.drive request e hfault)⟩
      | none =>
        by_cases hbad : fs.fatEntry 0 = 0xfff7
        · rw [if_pos hbad]
          exact ⟨_, rfl, .inl ⟨_, rfl⟩⟩
        · rw [if_neg hbad]
          exact ⟨_, rfl, .inl ⟨.underflow, rfl⟩⟩

/-! What a search should find. -/

/-- The entry with this name among those that are in use, up to the first that has
never been. -/
def lookup (name : List UInt8) (es : List RawDirEntry) : Option RawDirEntry :=
  (es.takeWhile (·.firstByte ≠ 0)).find? fun e => e.firstByte ≠ 0xe5 ∧ e.filename = name

/-- With enough fuel the search comes to this answer. -/
def Answers (fs : Filesystem) (request : Nat) (d : Directory) (name : List UInt8)
    (r : Io (Option RawDirEntry)) : Prop :=
  ∃ n, ∀ fuel, n ≤ fuel → ∃ stop, fs.entry fuel request d name = some stop ∧ dropRequest stop = r

theorem trim_cons {b : UInt8} (hb : b ≠ 0x20) (l : List UInt8) :
    ∃ l', RawDirEntry.trim (b :: l) = b :: l' := by
  have hlast : [b].dropWhile (· == 0x20) = [b] := by simp [hb]
  rw [RawDirEntry.trim, List.reverse_cons, List.dropWhile_append, hlast]
  split
  · exact ⟨[], rfl⟩
  · exact ⟨_, List.reverse_concat⟩

/-- A first byte that is not ASCII is the first byte of the name. -/
theorem filename_head {e : RawDirEntry} (h : 0x80 ≤ e.firstByte) :
    ∃ l, e.filename = e.firstByte :: l := by
  obtain ⟨b, rest, hlist⟩ := List.exists_cons_of_length_eq_add_one e.basename.length_toList
  have hfirst : e.firstByte = b := by
    rw [RawDirEntry.firstByte, hlist]
    rfl
  rw [hfirst] at h ⊢
  have hlower : RawDirEntry.toAsciiLowercase b = b :=
    if_neg fun hc => absurd (UInt8.le_trans h hc.2) (by decide)
  have hspace : b ≠ 0x20 := by
    rintro rfl
    exact absurd h (by decide)
  obtain ⟨base, hbase⟩ := trim_cons hspace (rest.map RawDirEntry.toAsciiLowercase)
  rw [RawDirEntry.filename, hlist, List.map_cons, hlower, hbase]
  split
  · exact ⟨base, rfl⟩
  · exact trim_cons hspace _

theorem ascii_first {e : RawDirEntry} (hname : ∀ b ∈ name, b < 0x80) (h : e.filename = name) :
    e.firstByte < 0x80 := by
  by_contra hge
  obtain ⟨l, hl⟩ := filename_head (UInt8.not_lt.mp hge)
  exact hge (hname e.firstByte (h ▸ hl ▸ List.mem_cons_self))

theorem find_eq_lookup (hname : ∀ b ∈ name, b < 0x80) (es : List RawDirEntry) :
    find name es = lookup name es := by
  rw [find, lookup]
  congr 1
  funext e
  refine decide_eq_decide.mpr (and_congr_left fun hmatch => ?_)
  have hlt := ascii_first hname hmatch
  refine ⟨fun _ he => ?_, fun _ he => ?_⟩
  · rw [he] at hlt
    exact absurd hlt (by decide)
  · rw [he] at hlt
    exact absurd hlt (by decide)

/-- More sectors do not hide an entry. -/
theorem lookup_front {es es' : List RawDirEntry} (h : es <+: es') {e : RawDirEntry}
    (he : lookup name es = some e) : lookup name es' = some e := by
  obtain ⟨rest, rfl⟩ := h
  refine List.IsPrefix.find?_eq_some ?_ he
  rw [List.takeWhile_append]
  split
  · exact List.prefix_append_of_prefix (List.takeWhile_prefix _)
  · exact List.prefix_refl _

theorem listing_front {d : Directory} {all seen : List Nat} (h : Listing fs d all (some seen)) :
    fs.entriesOf seen <+: fs.entriesOf all := by
  generalize hs : some seen = seen' at h
  cases h with
  | root hreach =>
    obtain rfl := Option.some.inj hs
    exact List.prefix_refl _
  | @sub e cs hchain hgood =>
    obtain rfl := Option.some.inj hs
    exact ((List.dropLast_prefix cs).flatMap _).flatMap _
  | up hzero hmax hfat =>
    split at hs
    · obtain rfl := Option.some.inj hs
      exact List.nil_prefix
    · cases hs

theorem cuts_never (he : fs.part.ErrorFree) (hmem : ∀ request, fs.alloc request = true) :
    Cuts fs (fun _ => False) := by
  refine ⟨fun request e h => ?_, fun request h => ?_⟩
  · rw [he request] at h
    cases h
  · rw [hmem request] at h
    cases h

/-- A search has one answer. -/
theorem answers_iff (he : fs.part.ErrorFree) (hmem : ∀ request, fs.alloc request = true)
    {d : Directory} {all seen : List Nat} (h : Listing fs d all (some seen)) (name : List UInt8)
    (request : Nat) (r : Io (Option RawDirEntry)) :
    Answers fs request d name r ↔ search name (fs.entriesOf seen) = r := by
  obtain ⟨n, stop, hstop, hsearch⟩ := entry_upTo (cuts_never he hmem) h name request
  have hstop_eq := hsearch.resolve_right id
  constructor
  · rintro ⟨m, hm⟩
    obtain ⟨stop', hstop', hr⟩ := hm (max n m) (Nat.le_max_right _ _)
    have hsame := (hstop (max n m) (Nat.le_max_left _ _)).symm.trans hstop'
    rw [← hr, ← Option.some.inj hsame, hstop_eq]
  · intro hr
    exact ⟨n, fun fuel hfuel => ⟨stop, hstop fuel hfuel, hstop_eq.trans hr⟩⟩

/-- A search finds what it should just when no name on the way is anything but UTF-8,
and the entry does not lie in a sector that is not yielded. -/
theorem entry_lookup_iff (he : fs.part.ErrorFree) (hmem : ∀ request, fs.alloc request = true)
    {d : Directory} {all : List Nat} {seen : Option (List Nat)} (h : Listing fs d all seen)
    (hname : ∀ b ∈ name, b < 0x80) (request : Nat) :
    Answers fs request d name (.ok (lookup name (fs.entriesOf all))) ↔
      ∃ sectors, seen = some sectors ∧
        (∀ e ∈ examined name (fs.entriesOf sectors), (fromUtf8 e.filename).isOk = true) ∧
        ∀ e, lookup name (fs.entriesOf all) = some e →
          lookup name (fs.entriesOf sectors) = some e := by
  cases seen with
  | none =>
    refine ⟨?_, fun ⟨_, h, _⟩ => nomatch h⟩
    rintro ⟨n, hn⟩
    obtain ⟨stop, hstop, hr⟩ := hn (n + 1) (Nat.le_succ n)
    obtain ⟨stop', hstop', hpanic⟩ :=
      entry_panics (cuts_never he hmem) h request (n + 1) (Nat.le_add_left 1 n)
    obtain rfl : stop = stop' := Option.some.inj (hstop.symm.trans hstop')
    obtain ⟨p, rfl⟩ := hpanic.resolve_right id
    cases hr
  | some sectors =>
    rw [answers_iff he hmem h]
    have hclean : Clean name (fs.entriesOf sectors) ↔
        ∀ e ∈ examined name (fs.entriesOf sectors), (fromUtf8 e.filename).isOk = true := by
      have hok : (fromUtf8 name).isOk = true := by
        rw [fromUtf8_ascii hname]
        rfl
      exact forall₂_congr fun e _ => and_iff_left hok
    constructor
    · intro hsearch
      by_cases hc : Clean name (fs.entriesOf sectors)
      · rw [search_clean hc, find_eq_lookup hname] at hsearch
        refine ⟨sectors, rfl, hclean.mp hc, fun e hfound => ?_⟩
        rw [Except.ok.inj hsearch, hfound]
      · rw [search_dirty hc] at hsearch
        cases hsearch
    · rintro ⟨_, hs, hprint, hall⟩
      obtain rfl := Option.some.inj hs
      rw [search_clean (hclean.mpr hprint), find_eq_lookup hname]
      congr 1
      cases hfound : lookup name (fs.entriesOf all) with
      | some e => exact hall e hfound
      | none =>
        cases hseen : lookup name (fs.entriesOf sectors) with
        | none => rfl
        | some e => exact absurd (lookup_front (listing_front h) hseen) (by rw [hfound]; nofun)

end disk

/-- A file without an extension in cluster `2`, as it lies in a directory. -/
def rawFile (b : UInt8) : List UInt8 :=
  [b, 0x41, 0x20, 0x20, 0x20, 0x20, 0x20, 0x20, 0x20, 0x20, 0x20] ++ List.replicate 15 0 ++
    [2, 0, 1, 0, 0, 0]

/-- A volume with these bytes in the only sector of its root directory. -/
def rootVolume (bytes : List UInt8) : Filesystem where
  part := {
    drive := {
      sector := fun lba => if lba = 2 then sectorOf bytes 0 else sectorOf [] 0xff
      fault := fun _ => none }
    lba := 0
    sectors := 1000 }
  bpb := ⟨1, 1, 1, 16, 1⟩
  alloc := fun _ => true

theorem rootVolume_listing (bytes : List UInt8) :
    Listing (rootVolume bytes) .root [2] (some [2]) := by
  have hsectors : (rootVolume bytes).bpb.rootSectors = [2] := by
    change BiosParameterBlock.rootSectors ⟨1, 1, 1, 16, 1⟩ = [2]
    decide
  have hreach : ∀ sector ∈ (rootVolume bytes).bpb.rootSectors,
      (rootVolume bytes).part.InReach sector := by
    intro sector hsector
    rw [hsectors] at hsector
    rw [List.mem_singleton.mp hsector]
    change 2 < 1000 ∧ 2 + 0 ≤ MAX_LBA
    decide
  rw [← hsectors]
  exact .root hreach

theorem entry_lookup_live :
    Listing (rootVolume (rawFile 0x41)) .root [2] (some [2]) ∧
      Answers (rootVolume (rawFile 0x41)) 0 .root [0x61, 0x61]
        (.ok (lookup [0x61, 0x61] ((rootVolume (rawFile 0x41)).entriesOf [2]))) := by
  have hname : ∀ b ∈ [0x61, 0x61], b < (0x80 : UInt8) := by decide +kernel
  have hprint : ∀ e ∈ examined [0x61, 0x61] ((rootVolume (rawFile 0x41)).entriesOf [2]),
      (fromUtf8 e.filename).isOk = true := by decide +kernel
  refine ⟨rootVolume_listing _, ?_⟩
  rw [entry_lookup_iff (fun _ => rfl) (fun _ => rfl) (rootVolume_listing _) hname]
  exact ⟨[2], rfl, hprint, fun _ h => h⟩

/-- A deleted file in front of the one that is looked for: its first byte and what
follows are not UTF-8. -/
theorem deleted_entry_panics :
    Listing (rootVolume (rawFile 0xe5 ++ rawFile 0x41)) .root [2] (some [2]) ∧
      (∀ b ∈ [0x61, 0x61], b < (0x80 : UInt8)) ∧
      Answers (rootVolume (rawFile 0xe5 ++ rawFile 0x41)) 0 .root [0x61, 0x61]
        (.error (.panic .notUtf8)) ∧
      ¬ Answers (rootVolume (rawFile 0xe5 ++ rawFile 0x41)) 0 .root [0x61, 0x61]
        (.ok (lookup [0x61, 0x61] ((rootVolume (rawFile 0xe5 ++ rawFile 0x41)).entriesOf [2]))) := by
  have hdirty : ¬ Clean [0x61, 0x61] ((rootVolume (rawFile 0xe5 ++ rawFile 0x41)).entriesOf [2]) := by
    decide +kernel
  have hsearch := search_dirty hdirty
  have hanswers := answers_iff (fun _ => rfl) (fun _ => rfl)
    (rootVolume_listing (rawFile 0xe5 ++ rawFile 0x41)) [0x61, 0x61] 0
  refine ⟨rootVolume_listing _, by decide +kernel, (hanswers _).mpr hsearch, fun hlookup => ?_⟩
  have hok := (hanswers _).mp hlookup
  rw [hsearch] at hok
  cases hok

end Crabos.Fat16
