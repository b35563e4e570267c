import Crabos.Fs.Vfs

/-!
# What a path stands for (`kernel/src/fs/vfs.rs`)

A tree of directories is a function from a directory and a name to an entry. A
path that starts with a slash is resolved in it by its names alone, and the loop
of `Filesystem::open` comes to the same. The test for the slash lets one other
path through: the empty one.
-/
namespace Crabos.Fat16

open Crabos.Disk Crabos.Linked Crabos.Utf8

/-- What is in a directory under a name. -/
abbrev Tree := Directory → List UInt8 → Option RawDirEntry

namespace Tree

variable (tree : Tree)

/-- The directory under a name. -/
def subdir (d : Directory) (name : List UInt8) : Option Directory :=
  (tree d name).bind fun e => if e.isDir = true then some (.sub e) else none

/-- The file under a name. -/
def file (d : Directory) (name : List UInt8) : Option Open :=
  (tree d name).bind fun e =>
    if e.isDir = true then none else some (.file e (Seek.start e.firstCluster))

/-- From one directory to the next, by their names. -/
def descend (d : Directory) (names : List (List UInt8)) : Option Directory :=
  names.foldlM tree.subdir d

/-- The segments that are not empty. -/
def namesOf (segments : List (List UInt8)) : List (List UInt8) := segments.filter (· ≠ [])

/-- A directory if all names are those of directories; a file if the last segment is the name
of a file, in the directory that the other ones lead to. -/
def resolveFrom (d : Directory) (segments : List (List UInt8)) : Option Open :=
  match tree.descend d (namesOf segments) with
  | some found => some (.dir found)
  | none =>
    match segments.getLast? with
    | none => none
    | some [] => none
    | some last =>
      (tree.descend d (namesOf segments).dropLast).bind fun parent => tree.file parent last

/-- What a path stands for. -/
def resolve (path : List UInt8) : Option Open := tree.resolveFrom .root (path.splitOn 0x2f)

/-- The directories of the tree. -/
inductive Within : Directory → Prop where
  | root : Within .root
  | sub {d : Directory} {name : List UInt8} {e : RawDirEntry} (hparent : Within d)
    (hentry : tree d name = some e) (hdir : e.isDir = true) : Within (.sub e)

end Tree

/-- A search for a name that can be printed finds what the tree has. -/
def Serves (fs : Filesystem) (tree : Tree) : Prop :=
  ∀ d, tree.Within d → ∀ name, name ≠ [] → (fromUtf8 name).isOk = true → ∀ request,
    ∃ n request', ∀ fuel, n ≤ fuel →
      fs.entry fuel request d name = some (.ok ((tree d name).map (·, request')))

/-- What is returned for a path. -/
def found : Option Open → Except OpenError Open
  | some x => .ok x
  | none => .error .notFound

section resolve

variable {fs : Filesystem} {tree : Tree}

theorem namesOf_cons {segment : List UInt8} (h : segment ≠ []) (segments : List (List UInt8)) :
    Tree.namesOf (segment :: segments) = segment :: Tree.namesOf segments := by
  simp [Tree.namesOf, h]

theorem namesOf_empty (segments : List (List UInt8)) :
    Tree.namesOf ([] :: segments) = Tree.namesOf segments := by
  simp [Tree.namesOf]

theorem descend_cons (d : Directory) (name : List UInt8) (names : List (List UInt8)) :
    tree.descend d (name :: names) = (tree.subdir d name).bind fun d => tree.descend d names := by
  simp [Tree.descend]

/-- An empty segment says nothing. -/
theorem resolveFrom_empty (d : Directory) (segments : List (List UInt8)) :
    tree.resolveFrom d ([] :: segments) = tree.resolveFrom d segments := by
  simp only [Tree.resolveFrom, namesOf_empty]
  cases hd : tree.descend d (Tree.namesOf segments) with
  | some d' => rfl
  | none =>
    cases segments with
    | nil => cases hd
    | cons s rest => rw [List.getLast?_cons_cons]

/-- The name of a file is not one of those that lead to it. -/
theorem dropLast_names {segments : List (List UInt8)} {b : UInt8} {bs : List UInt8}
    (h : segments.getLast? = some (b :: bs)) (segment : List UInt8) :
    (segment :: Tree.namesOf segments).dropLast =
      segment :: (Tree.namesOf segments).dropLast := by
  have hmem : b :: bs ∈ Tree.namesOf segments := by
    rw [Tree.namesOf, List.mem_filter]
    exact ⟨List.mem_of_getLast? h, by simp⟩
  exact List.dropLast_cons_of_ne_nil (List.ne_nil_of_mem hmem)

/-- Behind a name the rest is resolved in its directory. -/
theorem resolveFrom_dir {d d' : Directory} {segment : List UInt8} (hne : segment ≠ [])
    (h : tree.subdir d segment = some d') (segments : List (List UInt8)) :
    tree.resolveFrom d (segment :: segments) = tree.resolveFrom d' segments := by
  simp only [Tree.resolveFrom, namesOf_cons hne, descend_cons, h, Option.bind_some]
  cases hd : tree.descend d' (Tree.namesOf segments) with
  | some found => rfl
  | none =>
    cases segments with
    | nil => cases hd
    | cons s rest =>
      rw [List.getLast?_cons_cons]
      cases hlast : (s :: rest).getLast? with
      | none => rfl
      | some last =>
        cases last with
        | nil => rfl
        | cons b bs =>
          rw [dropLast_names hlast, descend_cons, h]
          rfl

/-- Behind a name that is not one of a directory there is nothing. -/
theorem resolveFrom_stop {d : Directory} {segment : List UInt8} (hne : segment ≠ [])
    (h : tree.subdir d segment = none) (segments : List (List UInt8)) :
    tree.resolveFrom d (segment :: segments) =
      if segments = [] then tree.file d segment else none := by
  simp only [Tree.resolveFrom, namesOf_cons hne, descend_cons, h, Option.bind_none]
  cases segments with
  | nil =>
    obtain ⟨b, bs, rfl⟩ := List.exists_cons_of_ne_nil hne
    simp [Tree.namesOf, Tree.descend]
  | cons s rest =>
    rw [List.getLast?_cons_cons, if_neg (List.cons_ne_nil _ _)]
    cases hlast : (s :: rest).getLast? with
    | none => rfl
    | some last =>
      cases last with
      | nil => rfl
      | cons b bs =>
        rw [dropLast_names hlast, descend_cons, h]
        rfl

/-- The loop of `Filesystem::open` resolves the rest of the path. -/
theorem openSegments_resolve (hserves : Serves fs tree) {d : Directory} (hd : tree.Within d)
    {segments : List (List UInt8)} (hvalid : ∀ s ∈ segments, (fromUtf8 s).isOk = true)
    (request : Nat) :
    ∃ n, ∀ fuel, n ≤ fuel →
      fs.openSegments fuel request d segments = some (found (tree.resolveFrom d segments)) := by
  induction segments generalizing d request with
  | nil => exact ⟨0, fun _ _ => rfl⟩
  | cons segment segments ih =>
    have hrest : ∀ s ∈ segments, (fromUtf8 s).isOk = true := fun s hs =>
      hvalid s (List.mem_cons_of_mem _ hs)
    by_cases hempty : segment = []
    · subst hempty
      obtain ⟨n, hn⟩ := ih hd hrest request
      refine ⟨n, fun fuel hfuel => ?_⟩
      rw [Filesystem.openSegments, if_pos rfl, resolveFrom_empty]
      exact hn fuel hfuel
    obtain ⟨n, request', hentry⟩ :=
      hserves d hd segment hempty (hvalid segment List.mem_cons_self) request
    have hstep := fun fuel hfuel => openSegments_stop segments hempty (hentry fuel hfuel)
    cases htree : tree d segment with
    | none =>
      have hsub : tree.subdir d segment = none := by rw [Tree.subdir, htree]; rfl
      have hfile : tree.file d segment = none := by rw [Tree.file, htree]; rfl
      refine ⟨n, fun fuel hfuel => ?_⟩
      rw [hstep fuel hfuel, htree, resolveFrom_stop hempty hsub, hfile, ite_self]
      rfl
    | some e =>
      by_cases hdir : e.isDir = true
      · have hsub : tree.subdir d segment = some (.sub e) := by
          rw [Tree.subdir, htree, Option.bind_some, if_pos hdir]
        obtain ⟨m, hm⟩ := ih (.sub hd htree hdir) hrest request'
        refine ⟨max n m, fun fuel hfuel => ?_⟩
        rw [hstep fuel (Nat.le_trans (Nat.le_max_left n m) hfuel), htree, Option.map_some,
          turn_dir hdir, resolveFrom_dir hempty hsub]
        exact hm fuel (Nat.le_trans (Nat.le_max_right n m) hfuel)
      · have hsub : tree.subdir d segment = none := by
          rw [Tree.subdir, htree, Option.bind_some, if_neg hdir]
        have hfile : tree.file d segment = some (.file e (Seek.start e.firstCluster)) := by
          rw [Tree.file, htree, Option.bind_some, if_neg hdir]
        have hopen : e.opened = .file e (Seek.start e.firstCluster) := if_neg hdir
        refine ⟨n, fun fuel hfuel => ?_⟩
        rw [hstep fuel hfuel, htree, resolveFrom_stop hempty hsub, hfile]
        simp only [Option.map_some, turn, hopen]
        by_cases hlast : segments = []
        · rw [if_pos hlast, if_pos hlast]
          rfl
        · rw [if_neg hlast, if_neg hlast]
          rfl

/-- A path that starts with a slash, or with another byte. -/
theorem openPath_slash (fuel request : Nat) (rest : List UInt8) :
    fs.openPath fuel request (0x2f :: rest) =
      fs.openSegments fuel request .root (rest.splitOn 0x2f) := by
  have hsplit : (0x2f :: rest).splitOn 0x2f = [] :: rest.splitOn 0x2f := by
    rw [List.splitOn_cons_eq_if_modifyHead, if_pos (beq_self_eq_true _)]
  rw [Filesystem.openPath, hsplit]

theorem openPath_other {b : UInt8} (hb : b ≠ 0x2f) (fuel request : Nat) (rest : List UInt8) :
    fs.openPath fuel request (b :: rest) = some (.error .notFound) := by
  obtain ⟨segment, segments, hrest⟩ := List.exists_cons_of_ne_nil (List.splitOn_ne_nil 0x2f rest)
  have hsplit : (b :: rest).splitOn 0x2f = (b :: segment) :: segments := by
    rw [List.splitOn_cons_eq_if_modifyHead, if_neg (by simpa using hb), hrest]
    rfl
  rw [Filesystem.openPath, hsplit]

theorem resolve_slash (rest : List UInt8) :
    tree.resolve (0x2f :: rest) = tree.resolveFrom .root (rest.splitOn 0x2f) := by
  rw [Tree.resolve, List.splitOn_cons_eq_if_modifyHead, if_pos (beq_self_eq_true _),
    resolveFrom_empty]

/-- A path is opened only if it starts with a slash, and then it is what it stands for. -/
def Resolved (tree : Tree) (path : List UInt8) (r : Except OpenError Open) : Prop :=
  ((∃ x, r = .ok x) → path.head? = some 0x2f) ∧
    (path.head? = some 0x2f → r = found (tree.resolve path))

/-- The empty path passes for one that starts with a slash, and no other. -/
theorem openPath_resolved_iff (hserves : Serves fs tree) (path : List UInt8)
    (hutf8 : (fromUtf8 path).isOk = true) :
    (∀ request, ∃ n, ∀ fuel, n ≤ fuel →
      ∃ r, fs.openPath fuel request path = some r ∧ Resolved tree path r) ↔ path ≠ [] := by
  constructor
  · intro h hempty
    subst hempty
    obtain ⟨n, hn⟩ := h 0
    obtain ⟨r, hr, honly, -⟩ := hn n (Nat.le_refl n)
    cases honly ⟨.dir .root, (Option.some.inj hr).symm⟩
  · intro hne request
    obtain ⟨b, rest, rfl⟩ := List.exists_cons_of_ne_nil hne
    by_cases hb : b = 0x2f
    · subst hb
      have hpath : Valid ([] ++ 0x2f :: rest) := fromUtf8_valid.mp hutf8
      have hrest : Valid rest := (hpath.split (by decide)).2
      have hvalid : ∀ s ∈ rest.splitOn 0x2f, (fromUtf8 s).isOk = true := fun s hs =>
        fromUtf8_valid.mpr (hrest.splitOn (by decide) s hs)
      obtain ⟨n, hn⟩ := openSegments_resolve hserves .root hvalid request
      refine ⟨n, fun fuel hfuel => ⟨_, ?_, fun _ => rfl, fun _ => rfl⟩⟩
      rw [openPath_slash, hn fuel hfuel, resolve_slash]
    · refine ⟨0, fun fuel _ => ⟨_, openPath_other hb fuel request rest, ?_, ?_⟩⟩
      · rintro ⟨x, hx⟩
        cases hx
      · intro hhead
        exact absurd (Option.some.inj hhead) hb

/-- The tree that is stored on a volume. -/
def Stored (fs : Filesystem) (tree : Tree) : Prop :=
  ∀ d, tree.Within d → ∃ all seen, Listing fs d all (some seen) ∧
    (∀ e ∈ fs.entriesOf seen, e.firstByte ≠ 0 → (fromUtf8 e.filename).isOk = true) ∧
    ∀ name, tree d name = find name (fs.entriesOf seen)

theorem examined_live {name : List UInt8} {es : List RawDirEntry} {e : RawDirEntry}
    (h : e ∈ examined name es) : e ∈ es ∧ e.firstByte ≠ 0 := by
  induction es with
  | nil => exact absurd h List.not_mem_nil
  | cons e' es ih =>
    have hrest : e ∈ examined name es → e ∈ e' :: es ∧ e.firstByte ≠ 0 := fun h =>
      ⟨List.mem_cons_of_mem _ (ih h).1, (ih h).2⟩
    rw [examined] at h
    by_cases hef : e'.firstByte = 0xef
    · rw [if_pos hef] at h
      exact hrest h
    rw [if_neg hef] at h
    by_cases hend : e'.firstByte = 0
    · rw [if_pos hend] at h
      exact absurd h List.not_mem_nil
    rw [if_neg hend] at h
    cases h with
    | head => exact ⟨List.mem_cons_self, hend⟩
    | tail _ h =>
      by_cases hmatch : e'.filename = name
      · rw [if_pos hmatch] at h
        exact absurd h List.not_mem_nil
      · rw [if_neg hmatch] at h
        exact hrest h

/-- On a drive without errors, and with memory, a volume serves its tree. -/
theorem stored_serves (he : fs.part.ErrorFree) (hmem : ∀ request, fs.alloc request = true)
    (h : Stored fs tree) : Serves fs tree := by
  intro d hd name _ hname request
  obtain ⟨all, seen, hlisting, hprint, htree⟩ := h d hd
  have hclean : Clean name (fs.entriesOf seen) := fun e hexamined =>
    ⟨hprint e (examined_live hexamined).1 (examined_live hexamined).2, hname⟩
  obtain ⟨n, stop, hstop, hsearch⟩ := entry_upTo (cuts_never he hmem) hlisting name request
  have hanswer : dropRequest stop = search name (fs.entriesOf seen) := hsearch.resolve_right id
  rw [search_clean hclean, ← htree name] at hanswer
  cases stop with
  | error e => cases hanswer
  | ok answer =>
    have hfind : answer.map Prod.fst = tree d name := Except.ok.inj hanswer
    refine ⟨n, (answer.map Prod.snd).getD 0, fun fuel hfuel => ?_⟩
    rw [hstop fuel hfuel, ← hfind]
    cases answer with
    | none => rfl
    | some found => rfl

end resolve

/-- A tree of one directory. -/
def rootTree : Tree
  | .root, name => find name ((rootVolume (rawFile 0x41)).entriesOf [2])
  | .sub _, _ => none

theorem rootTree_stored : Stored (rootVolume (rawFile 0x41)) rootTree := by
  intro d hd
  have hroot : d = .root := by
    induction hd with
    | root => rfl
    | sub hparent hentry hdir ih =>
      subst ih
      exact absurd hdir (rootVolume_files _ (find_mem hentry))
  subst hroot
  refine ⟨[2], [2], rootVolume_listing _, ?_, fun _ => rfl⟩
  decide +kernel

theorem rootTree_serves : Serves (rootVolume (rawFile 0x41)) rootTree :=
  stored_serves (fun _ => rfl) (fun _ => rfl) rootTree_stored

theorem openPath_resolved_file :
    Serves (rootVolume (rawFile 0x41)) rootTree ∧
      (fromUtf8 [0x2f, 0x61, 0x61]).isOk = true ∧
      ∀ request, ∃ n, ∀ fuel, n ≤ fuel →
        ∃ r, (rootVolume (rawFile 0x41)).openPath fuel request [0x2f, 0x61, 0x61] = some r ∧
          Resolved rootTree [0x2f, 0x61, 0x61] r :=
  ⟨rootTree_serves, by decide +kernel,
    (openPath_resolved_iff rootTree_serves [0x2f, 0x61, 0x61] (by decide +kernel)).mpr
      (List.cons_ne_nil _ _)⟩

/-- The empty path is the root directory. -/
theorem empty_path_opens :
    Serves (rootVolume (rawFile 0x41)) rootTree ∧ (fromUtf8 []).isOk = true ∧
      (rootVolume (rawFile 0x41)).openPath 0 0 [] = some (.ok (.dir .root)) ∧
      ¬ ∃ n, ∀ fuel, n ≤ fuel →
        ∃ r, (rootVolume (rawFile 0x41)).openPath fuel 0 [] = some r ∧ Resolved rootTree [] r := by
  refine ⟨rootTree_serves, rfl, rfl, ?_⟩
  rintro ⟨n, hn⟩
  obtain ⟨r, hr, honly, -⟩ := hn n (Nat.le_refl n)
  cases honly ⟨.dir .root, (Option.some.inj hr).symm⟩

end Crabos.Fat16
