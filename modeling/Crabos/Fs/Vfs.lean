import Crabos.Fs.Directory

/-!
# Opening files (`kernel/src/fs/vfs.rs`)

A path is followed segment by segment, from the root directory on. The segments
are bytes that a user program has chosen.
-/
namespace Crabos.Fat16

open Crabos.Disk Crabos.Linked Crabos.Utf8

/-- An `OpenError`, or a panic. -/
inductive OpenError where
  | notFound
  | fat (e : Fault)
  deriving DecidableEq

/-- The rest of a turn of the loop, with the answer of `Directory::entry`. -/
def turn (next : Nat → Directory → Option (Except OpenError Open)) (segments : List (List UInt8)) :
    Stop → Option (Except OpenError Open)
  | .error e => some (.error (.fat e))
  | .ok none => some (.error .notFound)
  | .ok (some (entry, request)) =>
    match entry.opened with
    | .dir d => next request d
    | .file e seek => if segments = [] then some (.ok (.file e seek)) else some (.error .notFound)

namespace Filesystem

variable (fs : Filesystem)

/-- The loop of `Filesystem::open`. -/
def openSegments (fuel : Nat) : Nat → Directory → List (List UInt8) → Option (Except OpenError Open)
  | _, container, [] => some (.ok (.dir container))
  | request, container, segment :: segments =>
    if segment = [] then openSegments fuel request container segments
    else
      (fs.entry fuel request container segment).bind
        (turn (fun request d => openSegments fuel request d segments) segments)

/-- `Filesystem::open`. -/
def openPath (fuel request : Nat) (path : List UInt8) : Option (Except OpenError Open) :=
  match path.splitOn 0x2f with
  | [] :: segments => fs.openSegments fuel request .root segments
  | _ => some (.error .notFound)

end Filesystem

/-- The call returns. -/
def Returns (r : Option (Except OpenError Open)) : Prop :=
  ∃ x, r = some x ∧ ∀ p, x ≠ .error (.fat (.panic p))

/-- The directories that a path leads to. -/
inductive Leads (fs : Filesystem) : Directory → Prop where
  | root : Leads fs .root
  | sub {d : Directory} {all seen : List Nat} {name : List UInt8} {e : RawDirEntry}
    (hparent : Leads fs d) (hlisting : Listing fs d all (some seen))
    (hfound : find name (fs.entriesOf seen) = some e) (hdir : e.isDir = true) : Leads fs (.sub e)

/-- All that is printed on the way is UTF-8, and every directory on the way can be walked. -/
def SafePath (fs : Filesystem) : Directory → List (List UInt8) → Prop
  | _, [] => True
  | d, segment :: segments =>
    if segment = [] then SafePath fs d segments
    else
      ∃ all seen, Listing fs d all (some seen) ∧ Clean segment (fs.entriesOf seen) ∧
        ∀ e, find segment (fs.entriesOf seen) = some e → e.isDir = true →
          SafePath fs (.sub e) segments

section opens

variable {fs : Filesystem}

/-- The answer of a walk that the drive or the memory has refused to go on with. -/
def Refused (stop : Stop) : Prop := stop = .error .memoryExhausted ∨ ∃ e, stop = .error (.ata e)

theorem cuts_refused (fs : Filesystem) : Cuts fs Refused :=
  ⟨fun _ e _ => .inr ⟨e, rfl⟩, fun _ _ => .inl rfl⟩

theorem listing_under {d : Directory} {all : List Nat} {seen : Option (List Nat)}
    (h : Listing fs d all seen) (fault : Nat → Option AtaError) (alloc : Nat → Bool) :
    Listing (fs.under fault alloc) d all seen := by
  cases h with
  | root hreach => exact .root hreach
  | sub hchain hgood =>
    exact .sub ⟨hchain.chain, hchain.valid, hchain.fat, hchain.data⟩ hgood
  | up hzero hmax hfat => exact .up hzero hmax hfat

theorem openSegments_stop {fuel request : Nat} {d : Directory} {segment : List UInt8} {stop : Stop}
    (segments : List (List UInt8)) (hne : segment ≠ [])
    (hstop : fs.entry fuel request d segment = some stop) :
    fs.openSegments fuel request d (segment :: segments) =
      turn (fun request d => fs.openSegments fuel request d segments) segments stop := by
  rw [Filesystem.openSegments, if_neg hne, hstop]
  rfl

theorem turn_dir {next : Nat → Directory → Option (Except OpenError Open)}
    {segments : List (List UInt8)} {e : RawDirEntry} {request : Nat} (h : e.isDir = true) :
    turn next segments (.ok (some (e, request))) = next request (.sub e) := by
  have hopen : e.opened = .dir (.sub e) := if_pos h
  simp only [turn, hopen]

theorem turn_file {next : Nat → Directory → Option (Except OpenError Open)}
    {segments : List (List UInt8)} {e : RawDirEntry} {request : Nat} (h : e.isDir ≠ true) :
    Returns (turn next segments (.ok (some (e, request)))) := by
  have hopen : e.opened = .file e (Seek.start e.firstCluster) := if_neg h
  simp only [turn, hopen]
  split
  · exact ⟨_, rfl, nofun⟩
  · exact ⟨_, rfl, nofun⟩

/-- What a clean search comes to, whatever is refused on the way. -/
theorem entry_clean {d : Directory} {all seen : List Nat} {segment : List UInt8}
    (h : Listing fs d all (some seen)) (hclean : Clean segment (fs.entriesOf seen))
    (fault : Nat → Option AtaError) (alloc : Nat → Bool) (request : Nat) :
    ∃ n stop, (∀ fuel, n ≤ fuel → (fs.under fault alloc).entry fuel request d segment = some stop) ∧
      (Refused stop ∨ stop = .ok none ∨ ∃ e request', stop = .ok (some (e, request')) ∧
        find segment (fs.entriesOf seen) = some e) := by
  obtain ⟨n, stop, hstop, hsearch⟩ :=
    entry_upTo (cuts_refused _) (listing_under h fault alloc) segment request
  refine ⟨n, stop, hstop, ?_⟩
  rcases hsearch with hsearch | hcut
  · right
    change dropRequest stop = search segment (fs.entriesOf seen) at hsearch
    rw [search_clean hclean] at hsearch
    cases stop with
    | error e => cases hsearch
    | ok found =>
      have hfind := Except.ok.inj hsearch
      cases found with
      | none => exact .inl rfl
      | some found => exact .inr ⟨found.1, found.2, rfl, hfind.symm⟩
  · exact .inl hcut

/-- A safe path can be opened, or an error is returned. -/
theorem openSegments_safe {d : Directory} {segments : List (List UInt8)}
    (h : SafePath fs d segments) (fault : Nat → Option AtaError) (alloc : Nat → Bool)
    (request : Nat) :
    ∃ n, ∀ fuel, n ≤ fuel → Returns ((fs.under fault alloc).openSegments fuel request d segments) := by
  induction segments generalizing d request with
  | nil => exact ⟨0, fun _ _ => ⟨_, rfl, nofun⟩⟩
  | cons segment segments ih =>
    rw [SafePath] at h
    by_cases hempty : segment = []
    · rw [if_pos hempty] at h
      obtain ⟨n, hn⟩ := ih h request
      refine ⟨n, fun fuel hfuel => ?_⟩
      rw [Filesystem.openSegments, if_pos hempty]
      exact hn fuel hfuel
    rw [if_neg hempty] at h
    obtain ⟨all, seen, hlisting, hclean, hrest⟩ := h
    obtain ⟨n, stop, hstop, hcases⟩ := entry_clean hlisting hclean fault alloc request
    have hstep := fun fuel hfuel => openSegments_stop segments hempty (hstop fuel hfuel)
    rcases hcases with (rfl | ⟨e, rfl⟩) | rfl | ⟨e, request', rfl, hfound⟩
    · exact ⟨n, fun fuel hfuel => ⟨_, hstep fuel hfuel, nofun⟩⟩
    · exact ⟨n, fun fuel hfuel => ⟨_, hstep fuel hfuel, nofun⟩⟩
    · exact ⟨n, fun fuel hfuel => ⟨_, hstep fuel hfuel, nofun⟩⟩
    · by_cases hdir : e.isDir = true
      · obtain ⟨m, hm⟩ := ih (hrest e hfound hdir) request'
        refine ⟨max n m, fun fuel hfuel => ?_⟩
        rw [hstep fuel (Nat.le_trans (Nat.le_max_left n m) hfuel), turn_dir hdir]
        exact hm fuel (Nat.le_trans (Nat.le_max_right n m) hfuel)
      · refine ⟨n, fun fuel hfuel => ?_⟩
        rw [hstep fuel hfuel]
        exact turn_file hdir

/-- Where nothing is refused, a path that is not safe panics. -/
theorem openSegments_unsafe (htree : ∀ d, Leads fs d → ∃ all seen, Listing fs d all seen)
    {d : Directory} (hd : Leads fs d) {segments : List (List UInt8)}
    (h : ¬ SafePath fs d segments) (request : Nat) :
    ∃ n, ∀ fuel, n ≤ fuel → ∃ p, (fs.under (fun _ => none) fun _ => true).openSegments fuel request
      d segments = some (.error (.fat (.panic p))) := by
  induction segments generalizing d request with
  | nil => exact absurd trivial h
  | cons segment segments ih =>
    rw [SafePath] at h
    by_cases hempty : segment = []
    · rw [if_pos hempty] at h
      obtain ⟨n, hn⟩ := ih hd h request
      refine ⟨n, fun fuel hfuel => ?_⟩
      rw [Filesystem.openSegments, if_pos hempty]
      exact hn fuel hfuel
    rw [if_neg hempty] at h
    have hserved : Cuts (fs.under (fun _ => none) fun _ => true) fun _ => False :=
      cuts_never (fun _ => rfl) fun _ => rfl
    obtain ⟨all, seen, hlisting⟩ := htree d hd
    have hlisting' := listing_under hlisting (fun _ => none) fun _ => true
    cases seen with
    | none =>
      refine ⟨1, fun fuel hfuel => ?_⟩
      obtain ⟨stop, hstop, hpanic⟩ := entry_panics hserved hlisting' request fuel hfuel
      obtain ⟨p, rfl⟩ := hpanic.resolve_right id
      exact ⟨p, openSegments_stop segments hempty hstop⟩
    | some seen =>
      obtain ⟨n, stop, hstop, hsearch⟩ := entry_upTo hserved hlisting' segment request
      have hanswer : dropRequest stop = search segment (fs.entriesOf seen) :=
        hsearch.resolve_right id
      by_cases hclean : Clean segment (fs.entriesOf seen)
      · -- the panic comes further down the path
        obtain ⟨e, hfound, hdir, hrest⟩ : ∃ e, find segment (fs.entriesOf seen) = some e ∧
            e.isDir = true ∧ ¬ SafePath fs (.sub e) segments := by
          by_contra hno
          refine h ⟨all, seen, hlisting, hclean, fun e hfound hdir => ?_⟩
          by_contra hrest
          exact hno ⟨e, hfound, hdir, hrest⟩
        rw [search_clean hclean, hfound] at hanswer
        obtain ⟨request', rfl⟩ : ∃ request', stop = .ok (some (e, request')) := by
          cases stop with
          | error e => cases hanswer
          | ok found =>
            cases found with
            | none => cases hanswer
            | some found =>
              have heq : found.1 = e := Option.some.inj (Except.ok.inj hanswer)
              exact ⟨found.2, by rw [← heq]⟩
        obtain ⟨m, hm⟩ := ih (.sub hd hlisting hfound hdir) hrest request'
        refine ⟨max n m, fun fuel hfuel => ?_⟩
        rw [openSegments_stop segments hempty
          (hstop fuel (Nat.le_trans (Nat.le_max_left n m) hfuel)), turn_dir hdir]
        exact hm fuel (Nat.le_trans (Nat.le_max_right n m) hfuel)
      · rw [search_dirty hclean] at hanswer
        obtain rfl : stop = .error (.panic .notUtf8) := by
          cases stop with
          | error e => exact congrArg Except.error (Except.error.inj hanswer)
          | ok found => cases hanswer
        exact ⟨n, fun fuel hfuel => ⟨_, openSegments_stop segments hempty (hstop fuel hfuel)⟩⟩

/-- The path is not absolute, or it is safe from the root directory on. -/
def SafeOpen (fs : Filesystem) (path : List UInt8) : Prop :=
  match path.splitOn 0x2f with
  | [] :: segments => SafePath fs .root segments
  | _ => True

/-- A path can be opened without a panic, whatever is refused on the way, just when it is
safe. -/
theorem openPath_iff (htree : ∀ d, Leads fs d → ∃ all seen, Listing fs d all seen)
    (path : List UInt8) :
    (∀ fault alloc request, ∃ n, ∀ fuel, n ≤ fuel →
      Returns ((fs.under fault alloc).openPath fuel request path)) ↔ SafeOpen fs path := by
  simp only [SafeOpen, Filesystem.openPath]
  split
  · rename_i segments hsplit
    constructor
    · intro h
      by_contra hunsafe
      obtain ⟨n, hn⟩ := h (fun _ => none) (fun _ => true) 0
      obtain ⟨m, hm⟩ := openSegments_unsafe htree .root hunsafe 0
      obtain ⟨x, hx, hpanic⟩ := hn (max n m) (Nat.le_max_left n m)
      obtain ⟨p, hp⟩ := hm (max n m) (Nat.le_max_right n m)
      exact hpanic p (Option.some.inj (hx.symm.trans hp))
    · intro hsafe fault alloc request
      exact openSegments_safe hsafe fault alloc request
  · refine ⟨fun _ => trivial, fun _ _ _ _ => ⟨0, fun _ _ => ⟨_, rfl, nofun⟩⟩⟩

end opens

theorem find_mem {name : List UInt8} {es : List RawDirEntry} {e : RawDirEntry}
    (h : find name es = some e) : e ∈ es :=
  (List.takeWhile_sublist _).subset (List.mem_of_find?_eq_some h)

theorem rootVolume_files :
    ∀ e ∈ (rootVolume (rawFile 0x41)).entriesOf [2], e.isDir ≠ true := by decide +kernel

/-- There is no directory but the root. -/
theorem rootVolume_tree (d : Directory) (h : Leads (rootVolume (rawFile 0x41)) d) :
    ∃ all seen, Listing (rootVolume (rawFile 0x41)) d all seen := by
  have hroot : d = .root := by
    induction h with
    | root => rfl
    | sub hparent hlisting hfound hdir ih =>
      subst ih
      cases hlisting with
      | root hreach => exact absurd hdir (rootVolume_files _ (find_mem hfound))
  subst hroot
  exact ⟨_, _, rootVolume_listing _⟩

theorem openPath_live :
    (∀ d, Leads (rootVolume (rawFile 0x41)) d → ∃ all seen,
        Listing (rootVolume (rawFile 0x41)) d all seen) ∧
      ∀ fault alloc request, ∃ n, ∀ fuel, n ≤ fuel →
        Returns (((rootVolume (rawFile 0x41)).under fault alloc).openPath fuel request
          [0x2f, 0x61, 0x61]) := by
  refine ⟨rootVolume_tree, (openPath_iff rootVolume_tree _).mpr ?_⟩
  have hclean : Clean [0x61, 0x61] ((rootVolume (rawFile 0x41)).entriesOf [2]) := by
    decide +kernel
  exact ⟨_, _, rootVolume_listing _, hclean, fun _ _ _ => trivial⟩

/-- A path of a slash and a byte that is not UTF-8. -/
theorem bytes_path_panics :
    (∀ e ∈ (rootVolume (rawFile 0x41)).entriesOf [2], e.firstByte ≠ 0 →
        ∀ b ∈ e.filename, b < 0x80) ∧
      (rootVolume (rawFile 0x41)).openPath 0 0 [0x2f, 0xff] =
        some (.error (.fat (.panic .notUtf8))) ∧
      ¬ ∀ fault alloc request, ∃ n, ∀ fuel, n ≤ fuel →
        Returns (((rootVolume (rawFile 0x41)).under fault alloc).openPath fuel request
          [0x2f, 0xff]) := by
  refine ⟨by decide +kernel, by decide +kernel, fun h => ?_⟩
  have hdirty : ¬ Clean [0xff] ((rootVolume (rawFile 0x41)).entriesOf [2]) := by decide +kernel
  have hunsafe : ¬ SafePath (rootVolume (rawFile 0x41)) .root [[0xff]] := by
    rintro ⟨all, seen, hlisting, hclean, -⟩
    cases hlisting with
    | root hreach => exact hdirty hclean
  obtain ⟨n, hn⟩ := h (fun _ => none) (fun _ => true) 0
  obtain ⟨m, hm⟩ := openSegments_unsafe rootVolume_tree .root hunsafe 0
  obtain ⟨x, hx, hpanic⟩ := hn (max n m) (Nat.le_max_left n m)
  obtain ⟨p, hp⟩ := hm (max n m) (Nat.le_max_right n m)
  exact hpanic p (Option.some.inj (hx.symm.trans hp))

end Crabos.Fat16
