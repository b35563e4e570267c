import Crabos.Fs.Readable
import Crabos.Object
import Crabos.Syscall
import Crabos.Util

/-!
# Calls on handles (`kernel/src/syscall.rs`, `kernel/src/fs/vfs.rs`)

A task makes one call at a time, and its table is changed by its own calls only.
So the table is the same when a read gets the lock of its file as it was when
the read was called, and calls are single steps in the order in which they get
at the files. Additions are checked, as in the debug build. The wakers of the lock
of a file are freed twice, and what a heap gives that has a block twice is left
open: any later call may come upon it.
-/
namespace Crabos.HandleCalls

open Crabos.Interface Crabos.User Crabos.Disk Crabos.Fat16 Crabos.Run Crabos.Util
open Crabos.Syscall (Object)

/-- User memory as a call finds it. -/
structure Memory where
  entry : Nat → Nat
  byte : Nat → UInt8

def Memory.bytes (mem : Memory) (addr len : Nat) : List UInt8 := (List.range' addr len).map mem.byte

/-- The answers of the allocator and of the drive during a call: for the two insertions of
`object::put`, for the box and the three insertions of `task::spawn`, for a waker, and to the
requests for sectors; and whether the call comes upon a block that the heap has twice. -/
structure Input where
  table : Bool
  entry : Bool
  box : Bool
  state : Bool
  future : Bool
  task : Bool
  lock : Bool
  fault : Nat → Option AtaError
  crash : Bool

/-- No memory is missing. -/
def plenty : Input := ⟨true, true, true, true, true, true, true, fun _ => none, false⟩

inductive Call where
  | cloneHandle (handle : UInt64)
  | releaseHandle (handle : UInt64)
  | setPageContext (pageCtx : UInt64)
  | createTask (pageCtx rip rsp : UInt64)
  | readStream (file buf nbyte : UInt64)
  | writeStream (file buf nbyte : UInt64)
  deriving DecidableEq, Repr

/-- Why a call has no result: a panic, or an iterator that is called more often. -/
inductive Halt where
  | panic
  | turning
  deriving DecidableEq, Repr

/-- The tables of handles, the positions of the files that they stand for, and whether the
heap has a block twice. -/
structure Kernel where
  tables : Object.Tables Object
  files : Nat → Seek
  nextFile : Nat
  twice : Bool

abbrev Outcome := Except Halt (SysResult Nat × Kernel)

/-- `UserArg::from_reg`, then `object::get`. -/
def Kernel.object (s : Kernel) (t : Nat) (handle : UInt64) : Option Object :=
  if handle = 0 then none else Object.get s.tables t handle.toNat

def withObject (s : Kernel) (t : Nat) (handle : UInt64) (k : Object → Outcome) : Outcome :=
  match s.object t handle with
  | none => .ok (.error .badHandle, s)
  | some o => k o

def withPageCtx (s : Kernel) (t : Nat) (handle : UInt64) (k : Outcome) : Outcome :=
  withObject s t handle fun
    | .pageCtx _ => k
    | _ => .ok (.error .wrongObjectKind, s)

/-- `borrow_slice` and `borrow_slice_mut` of bytes. -/
def borrowSlice (mem : Memory) (addr len f : Nat) : Option (SysResult Unit) :=
  (PageRange.containingChecked addr len).bind fun
    | .error e => some (.error e)
    | .ok r => validateMap (fun a => some (mem.entry a)) f r.pages

def withSlice (mem : Memory) (s : Kernel) (addr len f : Nat) (k : Outcome) : Outcome :=
  match borrowSlice mem addr len f with
  | none => .error .panic
  | some (.error e) => .ok (.error e, s)
  | some (.ok _) => k

/-- `object::put`, with the table that it leaves. -/
def putObject (s : Kernel) (t : Nat) (o : Object) (table entry : Bool) : Outcome :=
  match Object.put s.tables t o table entry with
  | none => .error .panic
  | some (.handle h, tables) => .ok (.ok h, { s with tables := tables })
  | some (_, tables) => .ok (.error .memoryExhausted, { s with tables := tables })

def cloneHandle (s : Kernel) (t : Nat) (handle : UInt64) (i : Input) : Outcome :=
  withObject s t handle fun o => putObject s t o i.table i.entry

def releaseHandle (s : Kernel) (t : Nat) (handle : UInt64) : Outcome :=
  if handle = 0 then .ok (.error .badHandle, s)
  else
    match Object.release s.tables t handle.toNat with
    | (none, tables) => .ok (.error .badHandle, { s with tables := tables })
    | (some _, tables) => .ok (.ok OK, { s with tables := tables })

/-- The page context of the processor is not seen by the calls on handles. -/
def setPageContext (s : Kernel) (t : Nat) (pageCtx : UInt64) : Outcome :=
  withPageCtx s t pageCtx (.ok (.ok OK, s))

/-- `task::spawn`. Without a block for the `Arc` of the future `kalloc::alloc` drops the future,
whose box is freed while the allocator is locked. -/
def spawn (arc : Bool) (i : Input) : Except Halt (SysResult Nat) :=
  if ¬ i.box ∨ ¬ i.state then .ok (.error .memoryExhausted)
  else if ¬ arc then .error .panic
  else if ¬ i.future ∨ ¬ i.task then .ok (.error .memoryExhausted)
  else .ok (.ok OK)

def createTask (arc : Bool) (s : Kernel) (t : Nat) (pageCtx : UInt64) (i : Input) : Outcome :=
  withPageCtx s t pageCtx ((spawn arc i).map fun r => (r, s))

/-- `fat16::File::read`, with its error as a `SysError`. Dropping the guard takes the waker of
this task out of the list, which frees its node twice. -/
def readFile (fs : Filesystem) (s : Kernel) (m : Nat) (buf : List UInt8) (i : Input) : Outcome :=
  if i.lock then
    let read := (fs.under i.fault fs.alloc).read 0 (s.files m) buf
    let s := { s with files := Function.update s.files m read.seek, twice := true }
    match read.result with
    | .ok n => .ok (.ok n, s)
    | .error .memoryExhausted => .ok (.error .memoryExhausted, s)
    | .error (.ata _) => .ok (.error .ioError, s)
    | .error (.panic _) => .error .panic
  else .ok (.error .memoryExhausted, s)

/-- `File::read`. From the console comes one scancode, when there is one. -/
def readStream (fs : Filesystem) (mem : Memory) (s : Kernel) (t : Nat) (file : UInt64)
    (buf nbyte : Nat) (i : Input) : Outcome :=
  withObject s t file fun
    | .pageCtx _ => .ok (.error .wrongObjectKind, s)
    | .console =>
      withSlice mem s buf nbyte PageFlags.WRITE (.ok (.ok (if nbyte = 0 then 0 else 1), s))
    | .file m => withSlice mem s buf nbyte PageFlags.WRITE (readFile fs s m (mem.bytes buf nbyte) i)
    | .dir => withSlice mem s buf nbyte PageFlags.WRITE (.ok (.error .invalidOperation, s))

/-- `File::write`: there is no arm for files of the disk but a panic. -/
def writeStream (mem : Memory) (turns : Nat) (s : Kernel) (t : Nat) (file : UInt64)
    (buf nbyte : Nat) : Outcome :=
  withObject s t file fun
    | .pageCtx _ => .ok (.error .wrongObjectKind, s)
    | .console => withSlice mem s buf nbyte 0 <|
      match writeConsole (mem.bytes buf nbyte) turns with
      | none => .error .turning
      | some (_, n) => .ok (.ok n, s)
    | .file _ => withSlice mem s buf nbyte 0 (.error .panic)
    | .dir => withSlice mem s buf nbyte 0 (.error .panic)

/-- A call in a heap that has each block once; `arc` is whether it has one for the `Arc` of a
future. -/
def serve (fs : Filesystem) (mem : Memory) (arc : Bool) (i : Input) (turns : Nat) (s : Kernel)
    (t : Nat) : Call → Outcome
  | .cloneHandle handle => cloneHandle s t handle i
  | .releaseHandle handle => releaseHandle s t handle
  | .setPageContext pageCtx => setPageContext s t pageCtx
  | .createTask pageCtx _ _ => createTask arc s t pageCtx i
  | .readStream file buf nbyte => readStream fs mem s t file buf.toNat nbyte.toNat i
  | .writeStream file buf nbyte => writeStream mem turns s t file buf.toNat nbyte.toNat

def call (fs : Filesystem) (mem : Memory) (arc : Bool) (i : Input) (turns : Nat) (s : Kernel)
    (t : Nat) (c : Call) : Outcome :=
  if s.twice ∧ i.crash then .error .panic else serve fs mem arc i turns s t c

/-- What changes tables: the calls, and the objects that other calls make, which are an
opened entry or the root directory, a page context, and the console of the first task. -/
inductive Op where
  | call (t : Nat) (c : Call) (mem : Memory) (arc : Bool) (i : Input) (turns : Nat)
  | openFile (t : Nat) (e : Option RawDirEntry) (table entry : Bool)
  | pageContext (t : Nat) (c : Nat) (table entry : Bool)
  | console (t : Nat) (table entry : Bool)
  | dropAllForTask (t : Nat)

def openFile (s : Kernel) (t : Nat) (e : Option RawDirEntry) (table entry : Bool) : Outcome :=
  match e.map RawDirEntry.opened with
  | some (.file _ seek) =>
    putObject { s with files := Function.update s.files s.nextFile seek, nextFile := s.nextFile + 1 }
      t (.file s.nextFile) table entry
  | _ => putObject s t .dir table entry

def Outcome.next : Outcome → Option Kernel
  | .ok (_, s) => some s
  | .error _ => none

def step (fs : Filesystem) (s : Kernel) : Op → Option Kernel
  | .call t c mem arc i turns => (call fs mem arc i turns s t c).next
  | .openFile t e table entry => (openFile s t e table entry).next
  | .pageContext t c table entry => (putObject s t (.pageCtx c) table entry).next
  | .console t table entry => (putObject s t .console table entry).next
  | .dropAllForTask t => some { s with tables := s.tables.erase t }

def boot : Kernel := ⟨∅, fun _ => Seek.start 0, 0, false⟩

/-- No answer ends in a panic, and all of them come to a result. -/
structure Settles (f : Input → Nat → Outcome) : Prop where
  calm : ∀ i turns, f i turns ≠ .error .panic
  ends : ∀ i, ∃ turns r s', f i turns = .ok (r, s')

def Returns (fs : Filesystem) (mem : Memory) (arc : Bool) (s : Kernel) (t : Nat) (c : Call) : Prop :=
  Settles fun i turns => call fs mem arc i turns s t c

/-- A slice in user space whose pages are mapped. -/
def Borrowable (mem : Memory) (addr len f : Nat) : Prop :=
  ∃ r, PageRange.containing addr len = .ok r ∧ ∀ p ∈ r.pages, Mapped (mem.entry p) f

/-- The check of a slice comes to an entry with bits that are no flags. -/
def Undefined (mem : Memory) (addr len f : Nat) : Prop :=
  ∃ r, PageRange.containing addr len = .ok r ∧ Unnamed mem.entry f r.pages

/-- The check of a slice comes to a result. -/
def Checked (mem : Memory) (addr len f : Nat) : Prop :=
  ¬ SliceWraps addr len ∧ ¬ Undefined mem addr len f

/-- The last handle of a task. -/
def Kernel.lastHandle (s : Kernel) (t : Nat) : Option Nat :=
  (s.tables[t]?).bind fun handles => handles.maxKey?

/-- The calls that come to a result while the heap has each block once. -/
def Serves (fs : Filesystem) (mem : Memory) (arc : Bool) (s : Kernel) (t : Nat) : Call → Prop
  | .cloneHandle handle =>
    s.object t handle ≠ none → ∀ last, s.lastHandle t = some last → last + 1 < 2 ^ 64
  | .releaseHandle _ => True
  | .setPageContext _ => True
  | .createTask pageCtx _ _ =>
    match s.object t pageCtx with
    | some (.pageCtx _) => arc = true
    | _ => True
  | .readStream file buf nbyte =>
    match s.object t file with
    | none => True
    | some (.pageCtx _) => True
    | some .console => Checked mem buf.toNat nbyte.toNat PageFlags.WRITE
    | some (.file m) => Checked mem buf.toNat nbyte.toNat PageFlags.WRITE ∧
      (Borrowable mem buf.toNat nbyte.toNat PageFlags.WRITE → nbyte ≠ 0 →
        1 ≤ fs.bpb.spc ∧ fs.Readable (s.files m) nbyte.toNat)
    | some .dir => Checked mem buf.toNat nbyte.toNat PageFlags.WRITE
  | .writeStream file buf nbyte =>
    match s.object t file with
    | none => True
    | some (.pageCtx _) => True
    | some .console => Checked mem buf.toNat nbyte.toNat 0 ∧
      (Borrowable mem buf.toNat nbyte.toNat 0 → ¬ EndsWithin (mem.bytes buf.toNat nbyte.toNat))
    | some (.file _) =>
      Checked mem buf.toNat nbyte.toNat 0 ∧ ¬ Borrowable mem buf.toNat nbyte.toNat 0
    | some .dir =>
      Checked mem buf.toNat nbyte.toNat 0 ∧ ¬ Borrowable mem buf.toNat nbyte.toNat 0

/-- The calls that come to a result. -/
def Fine (fs : Filesystem) (mem : Memory) (arc : Bool) (s : Kernel) (t : Nat) (c : Call) : Prop :=
  s.twice = false ∧ Serves fs mem arc s t c

/-! When the parts of a call come to a result. -/

section settles

variable {fs : Filesystem} {mem : Memory} {s : Kernel} {t : Nat} {f : Input → Nat → Outcome}

theorem settles_of_ok {g : Input → Outcome} (h : ∀ i, ∃ r, g i = .ok r) : Settles fun i _ => g i := by
  refine ⟨fun i _ hpanic => ?_, fun i => ?_⟩
  · obtain ⟨r, hr⟩ := h i
    rw [hr] at hpanic
    cases hpanic
  · obtain ⟨r, hr⟩ := h i
    exact ⟨0, r.1, r.2, hr⟩

theorem settles_ok {r : Input → SysResult Nat × Kernel} : Settles fun i _ => .ok (r i) :=
  settles_of_ok fun i => ⟨r i, rfl⟩

theorem not_settles_panic : ¬ Settles fun _ _ => .error .panic := fun h =>
  h.calm plenty 0 rfl

theorem bytes_length (mem : Memory) (addr len : Nat) : (mem.bytes addr len).length = len := by
  rw [Memory.bytes, List.length_map, List.length_range']

theorem borrowSlice_wraps {addr len : Nat} (h : SliceWraps addr len) (fl : Nat) :
    borrowSlice mem addr len fl = none := by
  rw [borrowSlice, PageRange.containingChecked_none.mpr h, Option.bind_none]

theorem borrowSlice_undefined {addr len fl : Nat} (h : ¬ SliceWraps addr len)
    (hu : Undefined mem addr len fl) : borrowSlice mem addr len fl = none := by
  obtain ⟨r, hr, hu⟩ := hu
  rw [borrowSlice, PageRange.containingChecked_some h, Option.bind_some, hr]
  exact validateMap_unnamed hu

open Classical in
theorem borrowSlice_eq (mem : Memory) {addr len fl : Nat} (h : Checked mem addr len fl) :
    ∃ e, borrowSlice mem addr len fl =
      some (if Borrowable mem addr len fl then .ok () else .error e) := by
  rw [borrowSlice, PageRange.containingChecked_some h.1, Option.bind_some]
  cases hr : PageRange.containing addr len with
  | error e =>
    refine ⟨e, ?_⟩
    rw [if_neg]
    rintro ⟨r, hr', -⟩
    rw [hr] at hr'
    cases hr'
  | ok r =>
    have hborrow : Borrowable mem addr len fl ↔ ∀ p ∈ r.pages, Mapped (mem.entry p) fl := by
      constructor
      · rintro ⟨r', hr', hall⟩
        obtain rfl : r = r' := Except.ok.inj (hr.symm.trans hr')
        exact hall
      · exact fun hall => ⟨r, hr, hall⟩
    refine ⟨.badPointer, ?_⟩
    change validateMap (fun a => some (mem.entry a)) fl r.pages = _
    rw [validateMap_named fun hu => h.2 ⟨r, hr, hu⟩]
    by_cases hall : ∀ p ∈ r.pages, Mapped (mem.entry p) fl
    · rw [if_pos hall, if_pos (hborrow.mpr hall)]
    · rw [if_neg hall, if_neg fun hb => hall (hborrow.mp hb)]

/-- A call with a slice: the check must come to a result, and the rest matters only for a slice
that can be borrowed. -/
theorem settles_slice {addr len fl : Nat} :
    (Settles fun i turns => withSlice mem s addr len fl (f i turns)) ↔
      Checked mem addr len fl ∧ (Borrowable mem addr len fl → Settles f) := by
  classical
  by_cases hc : Checked mem addr len fl
  · obtain ⟨e, he⟩ := borrowSlice_eq mem hc
    simp only [withSlice, he]
    by_cases hb : Borrowable mem addr len fl
    · rw [if_pos hb]
      exact ⟨fun h => ⟨hc, fun _ => h⟩, fun h => h.2 hb⟩
    · rw [if_neg hb]
      exact ⟨fun _ => ⟨hc, fun h => absurd h hb⟩, fun _ => settles_ok⟩
  · have hnone : borrowSlice mem addr len fl = none := by
      by_cases hw : SliceWraps addr len
      · exact borrowSlice_wraps hw fl
      · exact borrowSlice_undefined hw (not_not.mp fun hu => hc ⟨hw, hu⟩)
    simp only [withSlice, hnone]
    exact ⟨fun h => absurd h not_settles_panic, fun h => absurd h.1 hc⟩

theorem put_none {tables : Object.Tables Object} {o : Object} {table entry : Bool} :
    Object.put tables t o table entry = none ↔
      ∃ last, (tables[t]?).bind (fun handles => handles.maxKey?) = some last ∧ 2 ^ 64 ≤ last + 1 := by
  rw [Object.put]
  cases htable : tables[t]? with
  | none =>
    simp only [Option.bind_none]
    refine ⟨fun h => ?_, fun h => absurd h.choose_spec.1 (Option.some_ne_none _).symm⟩
    have hfirst : Object.newId (∅ : Maps.Map Object) = some 1 := by
      rw [Object.newId, Std.ExtTreeMap.maxKey?_empty]
    rw [Object.putIn, hfirst] at h
    cases table with
    | false => cases h
    | true => cases h
  | some handles =>
    simp only [Option.bind_some, Object.putIn, Option.map_eq_none_iff, Object.newId]
    cases hlast : handles.maxKey? with
    | none =>
      exact ⟨fun h => absurd h (Option.some_ne_none _),
        fun h => absurd h.choose_spec.1 (Option.some_ne_none _).symm⟩
    | some last =>
      by_cases hwrap : 2 ^ 64 ≤ last + 1
      · simp only [if_pos hwrap]
        exact ⟨fun _ => ⟨last, rfl, hwrap⟩, fun _ => trivial⟩
      · simp only [if_neg hwrap]
        refine ⟨fun h => absurd h (Option.some_ne_none _), ?_⟩
        rintro ⟨_, h, hle⟩
        cases h
        exact absurd hle hwrap

theorem settles_put (o : Object) :
    (Settles fun i _ => putObject s t o i.table i.entry) ↔
      ∀ last, s.lastHandle t = some last → last + 1 < 2 ^ 64 := by
  constructor
  · intro h last hlast
    by_contra hle
    refine h.calm plenty 0 ?_
    rw [putObject, put_none.mpr ⟨last, hlast, Nat.not_lt.mp hle⟩]
  · intro h
    refine settles_of_ok fun i => ?_
    rw [putObject]
    cases hp : Object.put s.tables t o i.table i.entry with
    | none =>
      obtain ⟨last, hlast, hle⟩ := put_none.mp hp
      exact absurd (h last hlast) (Nat.not_lt.mpr hle)
    | some p =>
      obtain ⟨a, tables⟩ := p
      cases a with
      | handle h' => exact ⟨_, rfl⟩
      | memoryExhausted => exact ⟨_, rfl⟩
      | object o => exact ⟨_, rfl⟩
      | released o => exact ⟨_, rfl⟩
      | dropped => exact ⟨_, rfl⟩

/-- The console is written to as long as the iterator yields parts. -/
theorem settles_console (buf : List UInt8) :
    (Settles fun _ turns =>
      match writeConsole buf turns with
      | none => .error .turning
      | some (_, n) => .ok (.ok n, s)) ↔ ¬ EndsWithin buf := by
  constructor
  · rintro h ⟨p, hp, hcut⟩
    obtain ⟨turns, r, s', hok⟩ := h.ends plenty
    rw [writeConsole, parts_cut hp hcut turns (Nat.zero_le p)] at hok
    cases hok
  · intro h
    obtain ⟨turns, parts, hparts, -⟩ := parts_end h (Nat.zero_le _)
    refine ⟨fun _ turns hpanic => ?_, fun _ => ⟨turns, .ok buf.length, s, ?_⟩⟩
    · split at hpanic
      · cases hpanic
      · cases hpanic
    · rw [writeConsole, hparts]
      rfl

theorem settles_file {m : Nat} {buf : List UInt8} (h : fs.InPlace (s.files m)) :
    (Settles fun i _ => readFile fs s m buf i) ↔ fs.Readable (s.files m) buf.length := by
  have hsafe : ∀ fault, Safe (fs.under fault fs.alloc)
      ((fs.under fault fs.alloc).Readable (s.files m) buf.length)
      ((fs.under fault fs.alloc).read 0 (s.files m) buf) := fun fault =>
    read_safe (⟨h.sector, h.offset⟩ : (fs.under fault fs.alloc).InPlace (s.files m)) 0 buf
  constructor
  · intro hs
    by_contra hnot
    obtain ⟨p, hp⟩ := (hsafe fun _ => none).panics (fun _ => rfl)
      fun hread => hnot ((readable_under _ _).mp hread)
    refine hs.calm plenty 0 ?_
    simp only [readFile, plenty, if_true, hp]
  · intro hread
    refine settles_of_ok fun i => ?_
    rw [readFile]
    cases i.lock with
    | false => exact ⟨_, rfl⟩
    | true =>
      have hp := (hsafe i.fault).calm ((readable_under _ _).mpr hread)
      simp only [if_true]
      cases hresult : ((fs.under i.fault fs.alloc).read 0 (s.files m) buf).result with
      | ok n => exact ⟨_, rfl⟩
      | error e =>
        cases e with
        | memoryExhausted => exact ⟨_, rfl⟩
        | ata a => exact ⟨_, rfl⟩
        | panic p => exact absurd hresult (hp p)

/-- A read that asks for nothing does not look at the position. -/
theorem settles_empty (m : Nat) : Settles fun i _ => readFile fs s m [] i := by
  refine settles_of_ok fun i => ?_
  rw [readFile]
  cases i.lock with
  | false => exact ⟨_, rfl⟩
  | true => exact ⟨_, rfl⟩

theorem settles_read {m : Nat} {buf : List UInt8}
    (h : 1 ≤ fs.bpb.spc → fs.InPlace (s.files m)) :
    ((buf.length ≠ 0 → 1 ≤ fs.bpb.spc ∧ fs.Readable (s.files m) buf.length) →
        Settles fun i _ => readFile fs s m buf i) ∧
      (1 ≤ fs.bpb.spc → (Settles fun i _ => readFile fs s m buf i) →
        fs.Readable (s.files m) buf.length) := by
  refine ⟨fun hread => ?_, fun hspc hs => (settles_file (h hspc)).mp hs⟩
  by_cases hnil : buf.length = 0
  · obtain rfl := List.eq_nil_of_length_eq_zero hnil
    exact settles_empty m
  · obtain ⟨hspc, hread⟩ := hread hnil
    exact (settles_file (h hspc)).mpr hread

/-- A future that is dropped under the lock of the allocator is the only end of `spawn`. -/
theorem settles_spawn (arc : Bool) :
    (Settles fun i _ => (spawn arc i).map fun r => (r, s)) ↔ arc = true := by
  cases arc with
  | false =>
    refine ⟨fun h => absurd ?_ (h.calm plenty 0), Bool.noConfusion⟩
    rfl
  | true =>
    refine ⟨fun _ => rfl, fun _ => settles_of_ok fun i => ?_⟩
    rw [spawn]
    split
    · exact ⟨_, rfl⟩
    · split
      · exact ⟨_, rfl⟩
      · exact ⟨_, rfl⟩

end settles

/-! The positions of files in all states that are reached. -/

section runs

variable {fs : Filesystem} {s s' : Kernel}

/-- All files are at a place within a cluster. -/
def Placed (fs : Filesystem) (s : Kernel) : Prop := 1 ≤ fs.bpb.spc → ∀ m, fs.InPlace (s.files m)

theorem placed_update {m n : Nat} {seek : Seek} {tables : Object.Tables Object} {twice : Bool} (h : Placed fs s)
    (hseek : 1 ≤ fs.bpb.spc → fs.InPlace seek) :
    Placed fs ⟨tables, Function.update s.files m seek, n, twice⟩ := by
  intro hspc x
  change fs.InPlace (Function.update s.files m seek x)
  rw [Function.update_apply]
  split
  · exact hseek hspc
  · exact h hspc x

/-- The state that an outcome leaves, if there is one, has its files in place. -/
def Keeps (fs : Filesystem) (o : Outcome) : Prop := ∀ s', o.next = some s' → Placed fs s'

theorem keeps_ok {r : SysResult Nat} (h : Placed fs s) : Keeps fs (.ok (r, s)) := by
  rintro s' hs
  cases hs
  exact h

theorem keeps_error (e : Halt) : Keeps fs (.error e) := nofun

theorem keeps_object {t : Nat} {handle : UInt64} {k : Object → Outcome} (h : Placed fs s)
    (hk : ∀ o, Keeps fs (k o)) : Keeps fs (withObject s t handle k) := by
  rw [withObject]
  split
  · exact keeps_ok h
  · exact hk _

theorem keeps_pageCtx {t : Nat} {handle : UInt64} {k : Outcome} (h : Placed fs s) (hk : Keeps fs k) :
    Keeps fs (withPageCtx s t handle k) := by
  refine keeps_object h fun o => ?_
  split
  · exact hk
  · exact keeps_ok h

theorem keeps_spawn {arc : Bool} {i : Input} (h : Placed fs s) :
    Keeps fs ((spawn arc i).map fun r => (r, s)) := by
  cases hs : spawn arc i with
  | error e => exact keeps_error e
  | ok r => exact keeps_ok h

theorem keeps_slice {mem : Memory} {addr len fl : Nat} {k : Outcome} (h : Placed fs s)
    (hk : Keeps fs k) : Keeps fs (withSlice mem s addr len fl k) := by
  rw [withSlice]
  split
  · exact keeps_error _
  · exact keeps_ok h
  · exact hk

theorem keeps_put {t : Nat} {o : Object} {table entry : Bool} (h : Placed fs s) :
    Keeps fs (putObject s t o table entry) := by
  rw [putObject]
  split
  · exact keeps_error _
  · exact keeps_ok h
  · exact keeps_ok h

/-- A read moves its own file, and leaves it within a cluster. -/
theorem keeps_read {m : Nat} {buf : List UInt8} {i : Input} (h : Placed fs s) :
    Keeps fs (readFile fs s m buf i) := by
  have hread : Placed fs ⟨s.tables, Function.update s.files m
      ((fs.under i.fault fs.alloc).read 0 (s.files m) buf).seek, s.nextFile, true⟩ := by
    refine placed_update h fun hspc => ?_
    have hplace : (fs.under i.fault fs.alloc).InPlace (s.files m) :=
      ⟨(h hspc m).sector, (h hspc m).offset⟩
    have hafter := (read_safe hplace 0 buf).place
    exact ⟨hafter.sector, hafter.offset⟩
  rw [readFile]
  split
  · simp only
    split
    · exact keeps_ok hread
    · exact keeps_ok hread
    · exact keeps_ok hread
    · exact keeps_error _
  · exact keeps_ok h

theorem keeps_serve {mem : Memory} {arc : Bool} {i : Input} {turns t : Nat} (c : Call)
    (h : Placed fs s) : Keeps fs (serve fs mem arc i turns s t c) := by
  cases c with
  | cloneHandle handle => exact keeps_object h fun o => keeps_put h
  | releaseHandle handle =>
    rw [serve, releaseHandle]
    split
    · exact keeps_ok h
    · split
      · exact keeps_ok h
      · exact keeps_ok h
  | setPageContext pageCtx => exact keeps_pageCtx h (keeps_ok h)
  | createTask pageCtx rip rsp => exact keeps_pageCtx h (keeps_spawn h)
  | readStream file buf nbyte =>
    refine keeps_object h fun o => ?_
    cases o with
    | pageCtx c => exact keeps_ok h
    | console => exact keeps_slice h (keeps_ok h)
    | file m => exact keeps_slice h (keeps_read h)
    | dir => exact keeps_slice h (keeps_ok h)
  | writeStream file buf nbyte =>
    refine keeps_object h fun o => ?_
    cases o with
    | pageCtx c => exact keeps_ok h
    | console =>
      refine keeps_slice h ?_
      split
      · exact keeps_error _
      · exact keeps_ok h
    | file m => exact keeps_slice h (keeps_error _)
    | dir => exact keeps_slice h (keeps_error _)

theorem keeps_call {mem : Memory} {arc : Bool} {i : Input} {turns t : Nat} (c : Call)
    (h : Placed fs s) : Keeps fs (call fs mem arc i turns s t c) := by
  rw [call]
  split
  · exact keeps_error _
  · exact keeps_serve c h

theorem keeps_openFile {t : Nat} {e : Option RawDirEntry} {table entry : Bool} (h : Placed fs s) :
    Keeps fs (openFile s t e table entry) := by
  rw [openFile]
  split
  · rename_i dirent seek hopened
    refine keeps_put (placed_update h fun hspc => ?_)
    obtain ⟨e, -, he⟩ := Option.map_eq_some_iff.mp hopened
    rw [RawDirEntry.opened] at he
    split at he
    · cases he
    · cases he
      exact ⟨hspc, Nat.zero_le _⟩
  · exact keeps_put h

theorem step_placed {op : Op} (h : Placed fs s) (hs : step fs s op = some s') : Placed fs s' := by
  cases op with
  | call t c mem arc i turns => exact keeps_call c h s' hs
  | openFile t e table entry => exact keeps_openFile h s' hs
  | pageContext t c table entry => exact keeps_put h s' hs
  | console t table entry => exact keeps_put h s' hs
  | dropAllForTask t =>
    cases hs
    exact h

theorem run_placed {ops : List Op} (hr : run (step fs) boot ops = some s) : Placed fs s :=
  Run.invariant (I := Placed fs) (fun _ _ _ h hs => step_placed h hs)
    (fun hspc _ => (⟨hspc, Nat.zero_le _⟩ : fs.InPlace (Seek.start 0))) hr

end runs

/-- With an object the call goes on. -/
theorem withObject_some {s : Kernel} {t : Nat} {handle : UInt64} {o : Object}
    (h : s.object t handle = some o) (k : Object → Outcome) : withObject s t handle k = k o := by
  rw [withObject, h]

theorem withObject_none {s : Kernel} {t : Nat} {handle : UInt64} (h : s.object t handle = none)
    (k : Object → Outcome) : withObject s t handle k = .ok (.error .badHandle, s) := by
  rw [withObject, h]

section serve

variable {fs : Filesystem} {mem : Memory} {arc : Bool} {s : Kernel} {t : Nat}

/-- A call on a page context: what it does with the object is all that matters. -/
theorem settles_pageCtx {handle : UInt64} {k : Input → Outcome} :
    (Settles fun i _ => withPageCtx s t handle (k i)) ↔
      match s.object t handle with
      | some (.pageCtx _) => Settles fun i _ => k i
      | _ => True := by
  cases ho : s.object t handle with
  | none =>
    simp only [withPageCtx, withObject_none ho]
    exact ⟨fun _ => trivial, fun _ => settles_ok⟩
  | some o =>
    simp only [withPageCtx, withObject_some ho]
    cases o with
    | pageCtx c => exact Iff.rfl
    | console => exact ⟨fun _ => trivial, fun _ => settles_ok⟩
    | file m => exact ⟨fun _ => trivial, fun _ => settles_ok⟩
    | dir => exact ⟨fun _ => trivial, fun _ => settles_ok⟩

/-- In a heap that has each block once. -/
theorem settles_serve (hplaced : Placed fs s) (c : Call) :
    (Serves fs mem arc s t c → Settles fun i turns => serve fs mem arc i turns s t c) ∧
      (1 ≤ fs.bpb.spc → (Settles fun i turns => serve fs mem arc i turns s t c) →
        Serves fs mem arc s t c) := by
  cases c with
  | cloneHandle handle =>
    simp only [serve, cloneHandle, Serves]
    cases ho : s.object t handle with
    | none =>
      simp only [withObject_none ho]
      exact ⟨fun _ => settles_ok, fun _ _ h => absurd rfl h⟩
    | some o =>
      simp only [withObject_some ho, settles_put]
      exact ⟨fun h => h nofun, fun _ h _ => h⟩
  | releaseHandle handle =>
    simp only [serve, Serves]
    refine ⟨fun _ => settles_of_ok fun i => ?_, fun _ _ => trivial⟩
    rw [releaseHandle]
    split
    · exact ⟨_, rfl⟩
    · split
      · exact ⟨_, rfl⟩
      · exact ⟨_, rfl⟩
  | setPageContext pageCtx =>
    simp only [serve, setPageContext, Serves, settles_pageCtx]
    refine ⟨fun _ => ?_, fun _ _ => trivial⟩
    split
    · exact settles_ok
    · trivial
  | createTask pageCtx rip rsp =>
    simp only [serve, createTask, Serves, settles_pageCtx]
    cases ho : s.object t pageCtx with
    | none => exact ⟨fun _ => trivial, fun _ _ => trivial⟩
    | some o =>
      cases o with
      | pageCtx c => exact ⟨(settles_spawn arc).mpr, fun _ => (settles_spawn arc).mp⟩
      | console => exact ⟨fun _ => trivial, fun _ _ => trivial⟩
      | file m => exact ⟨fun _ => trivial, fun _ _ => trivial⟩
      | dir => exact ⟨fun _ => trivial, fun _ _ => trivial⟩
  | readStream file buf nbyte =>
    simp only [serve, readStream, Serves]
    cases ho : s.object t file with
    | none =>
      simp only [withObject_none ho]
      exact ⟨fun _ => settles_ok, fun _ _ => trivial⟩
    | some o =>
      simp only [withObject_some ho]
      cases o with
      | pageCtx c => exact ⟨fun _ => settles_ok, fun _ _ => trivial⟩
      | console =>
        simp only [settles_slice]
        exact ⟨fun h => ⟨h, fun _ => settles_ok⟩, fun _ h => h.1⟩
      | file m =>
        obtain ⟨hreturns, hneeds⟩ := @settles_read fs s m (mem.bytes buf.toNat nbyte.toNat)
          fun hspc => hplaced hspc m
        have hzero : nbyte.toNat = 0 ↔ nbyte = 0 := by
          rw [← UInt64.toNat_inj]
          rfl
        rw [bytes_length, Ne, hzero] at hreturns
        rw [bytes_length] at hneeds
        simp only [settles_slice]
        exact ⟨fun h => ⟨h.1, fun hb => hreturns (h.2 hb)⟩,
          fun hspc h => ⟨h.1, fun hb _ => ⟨hspc, hneeds hspc (h.2 hb)⟩⟩⟩
      | dir =>
        simp only [settles_slice]
        exact ⟨fun h => ⟨h, fun _ => settles_ok⟩, fun _ h => h.1⟩
  | writeStream file buf nbyte =>
    simp only [serve, writeStream, Serves]
    cases ho : s.object t file with
    | none =>
      simp only [withObject_none ho]
      exact ⟨fun _ => settles_ok, fun _ _ => trivial⟩
    | some o =>
      simp only [withObject_some ho]
      cases o with
      | pageCtx c => exact ⟨fun _ => settles_ok, fun _ _ => trivial⟩
      | console =>
        simp only [settles_slice, settles_console]
        exact ⟨id, fun _ => id⟩
      | file m =>
        simp only [settles_slice]
        exact ⟨fun h => ⟨h.1, fun hb => absurd hb h.2⟩,
          fun _ h => ⟨h.1, fun hb => not_settles_panic (h.2 hb)⟩⟩
      | dir =>
        simp only [settles_slice]
        exact ⟨fun h => ⟨h.1, fun hb => absurd hb h.2⟩,
          fun _ h => ⟨h.1, fun hb => not_settles_panic (h.2 hb)⟩⟩

end serve

/-- A writable page of zeros. -/
def onePage : Memory where
  entry a := if a = 0x1000 then 0x200007 else 0
  byte _ := 0

/-- The first task has opened a file of two clusters. -/
def opening : List Op := [.openFile 1 (some (smallEntry 100)) true true]

theorem opening_reached : ∃ s, run (step (smallVolume 3 1)) boot opening = some s ∧
    s.object 1 1 = some (.file 0) ∧ s.files 0 = Seek.start 2 ∧ s.twice = false := by
  have hopen : (smallEntry 100).opened = .file (smallEntry 100) (Seek.start 2) := by decide
  simp [opening, run, step, openFile, hopen, putObject, boot, Object.put, Object.putIn,
    Object.newId, Outcome.next, Kernel.object, Object.get]

theorem onePage_checked : Checked onePage 0x1000 100 PageFlags.WRITE := by
  refine ⟨by decide, ?_⟩
  rintro ⟨r, hr, hu⟩
  have hpages : PageRange.containing 0x1000 100 = .ok ⟨0x1000, 1⟩ := by decide
  rw [hpages] at hr
  cases hr
  have hnone := validateMap_unnamed hu
  revert hnone
  decide

end Crabos.HandleCalls
