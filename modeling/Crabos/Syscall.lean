import Crabos.PageCalls
import Crabos.Sync.AsyncMutex
import Crabos.Task.Sched

/-!
# System calls (`kernel/src/syscall.rs`, `kernel/src/object.rs`, `kernel/src/fs/vfs.rs`)

The calls as the scheduler polls them. Page tables are seen through the
lookups of `page::entry`; what the allocator and the devices answer within a
poll is an input, so every pattern of failures and of awaited disk reads is
covered. The bytes of user memory are left out: an access to a borrowed slice
is recorded with the page context it went through.
-/
namespace Crabos.Syscall

open Crabos.Task Crabos.User Crabos.Interface Crabos.Run

/-- The last level entry of a page: the page tables of the upper half are
shared by all page contexts. -/
def pageKey (c : Ctx) (virt : Nat) : Option Ctx × Nat :=
  let page := virt / PAGE_SIZE % 2 ^ 36
  (if page < 2 ^ 35 then some c else none, page)

inductive Object where
  | pageCtx (c : Ctx)
  | console
  | file (m : Nat)
  | dir
  deriving DecidableEq, Repr

/-- A slice of user memory with the pages on which it was validated. -/
structure Slice where
  len : Nat
  pages : List Nat
  write : Bool
  deriving DecidableEq, Repr

/-- An access to a slice by a task, and if all its pages were mapped then in
the page context that was loaded. -/
structure Access where
  task : TaskId
  slice : Slice
  mapped : Bool
  deriving DecidableEq, Repr

structure Env where
  entries : Option Ctx × Nat → Nat
  handles : TaskId → List (Nat × Object)
  files : Nat → AsyncMutex TaskId
  keyboard : List UInt8
  nextCtx : Ctx
  nextFile : Nat
  accesses : List Access

/-- What a call keeps across an await. -/
inductive Susp where
  | console (sl : Slice)
  | waiting (m : Nat) (sl : Slice)
  | holding (m : Nat) (sl : Slice) (total : Nat)
  | opening (sl : Slice)
  deriving DecidableEq, Repr

def Susp.slice : Susp → Slice
  | .console sl => sl
  | .waiting _ sl => sl
  | .holding _ sl _ => sl
  | .opening sl => sl

def Susp.mutex : Susp → Option Nat
  | .waiting m _ => some m
  | .holding m _ _ => some m
  | _ => none

/-- What the disk futures that a read awaits come to in this poll. -/
inductive Io where
  | pending
  | eof
  | failed
  deriving DecidableEq, Repr

/-- What `Filesystem::open` comes to in this poll. -/
inductive Opened where
  | pending
  | notFound
  | failed
  | exhausted
  | notUtf8
  | dir
  | file
  deriving DecidableEq, Repr

/-- The answers of the allocator and of the devices during one poll: the
frames for new pages, the memory for a new object, the entries kept by a
failing `object::put` and by a failing `task::spawn`, the memory for a waker,
and the progress of the disk. -/
structure Input where
  frames : List Nat := []
  object : Bool := true
  put : Option (TaskId → Nat → Bool) := none
  spawn : Option Kept := none
  push : Bool := true
  copied : Nat := 0
  io : Io := .pending
  opened : Opened := .pending

def Env.entry (env : Env) (c : Ctx) (virt : Nat) : Nat := env.entries (pageKey c virt)

/-- `page::entry`, which never faults on these tables. -/
def Env.pageEntry (env : Env) (c : Ctx) (virt : Nat) : Option Nat := some (env.entry c virt)

def Env.setEntry (env : Env) (c : Ctx) (virt value : Nat) : Env :=
  { env with entries := Function.update env.entries (pageKey c virt) value }

theorem setEntry_key (env : Env) {c d : Ctx} {v virt : Nat} (e : Nat) (h : pageKey d v = pageKey c virt) :
    (env.setEntry c virt e).entry d v = e := by
  simp [Env.setEntry, Env.entry, h]

theorem setEntry_other (env : Env) {c d : Ctx} {v virt : Nat} (e : Nat) (h : pageKey d v ≠ pageKey c virt) :
    (env.setEntry c virt e).entry d v = env.entry d v := by
  simp [Env.setEntry, Env.entry, h]

def Slice.flags (sl : Slice) : Nat := if sl.write then PageFlags.WRITE else 0

/-- Every page of the slice is mapped in the page context, with `WRITE` if
the slice is mutable. -/
def Slice.MappedIn (sl : Slice) (env : Env) (c : Ctx) : Prop :=
  ∀ p ∈ sl.pages, Mapped (env.entry c p) sl.flags

instance (sl : Slice) (env : Env) (c : Ctx) : Decidable (sl.MappedIn env c) :=
  inferInstanceAs (Decidable (∀ p ∈ sl.pages, _))

/-- The kernel reads or writes the slice. -/
def touch (v : View Env) (sl : Slice) : Env :=
  { v.env with accesses := v.env.accesses ++ [⟨v.task, sl, sl.MappedIn v.env v.cr3⟩] }

abbrev Served := Option (Effect Env Susp)

def finish (env : Env) (r : SysResult Nat) : Effect Env Susp :=
  { env := env, outcome := .ready r.rax }

def suspend (env : Env) (susp : Susp) : Effect Env Susp :=
  { env := env, outcome := .pending susp }

/-- The early return of `?`. -/
def orFail {α : Type} (env : Env) (r : SysResult α) (k : α → Served) : Served :=
  match r with
  | .error e => some (finish env (.error e))
  | .ok a => k a

/-- The page tables of a context with the frames that are left for this poll. An
entry changes by the calls for its own page alone. The tables in memory show such a
map as long as no frame of the allocator without an owner has been mapped
(`calls_refine_map`); when one is released again, the allocator hands it out twice,
and entries are lost with a table that is cleared. -/
structure Pages where
  env : Env
  frames : List Nat

/-- A frame is taken for the page and for the tables on its way together; it is none
of the tables. -/
def Pages.allocMap (c : Ctx) (s : Pages) (virt fl : Nat) : Option (SysResult Unit × Pages) :=
  match s.frames with
  | [] => some (.error .memoryExhausted, s)
  | frame :: frames =>
    if s.env.entry c virt ≠ 0 then none
    else some (.ok (), ⟨s.env.setEntry c virt (frame ||| fl), frames⟩)

/-- The frame that is taken is for the tables. The page that is mapped is any: to be
left out are those of the allocator that have no owner. -/
def Pages.mapPhys (c : Ctx) (s : Pages) (phys virt fl : Nat) : Option Pages :=
  match s.frames with
  | [] => none
  | _ :: frames =>
    if s.env.entry c virt ≠ 0 then none
    else some ⟨s.env.setEntry c virt (phys ||| fl), frames⟩

/-- An entry without a physical page is `NotMapped`. -/
def Pages.unmap (c : Ctx) (s : Pages) (virt : Nat) : Option Pages :=
  if s.env.entry c virt / PAGE_SIZE = 0 then none
  else some { s with env := s.env.setEntry c virt 0 }

def Pages.modify (c : Ctx) (s : Pages) (virt fl : Nat) : Option Pages :=
  let entry := s.env.entry c virt
  if entry = 0 then none
  else some { s with env := s.env.setEntry c virt (entry / PAGE_SIZE * PAGE_SIZE ||| fl) }

/-- The page tables as the calls of this kernel see them. -/
def tables (c : Ctx) : PageCalls.Tables Pages where
  entry s := s.env.pageEntry c
  allocMap := Pages.allocMap c
  mapPhys := Pages.mapPhys c
  unmap := Pages.unmap c
  modify := Pages.modify c

def paged (r : Option (SysResult Nat × Pages)) : Served := r.map fun (r, s) => finish s.env r

def allocPage (v : View Env) (virtualAddr pageCount bits : Nat) (i : Input) : Served :=
  paged (PageCalls.allocPage (tables v.cr3) ⟨v.env, i.frames⟩ virtualAddr pageCount bits)

def releasePage (v : View Env) (virtualAddr pageCount : Nat) (i : Input) : Served :=
  paged (PageCalls.releasePage (tables v.cr3) ⟨v.env, i.frames⟩ virtualAddr pageCount)

def modifyPage (v : View Env) (virtualAddr pageCount bits : Nat) (i : Input) : Served :=
  paged (PageCalls.modifyPage (tables v.cr3) ⟨v.env, i.frames⟩ virtualAddr pageCount bits)

def mapPhysicalMemory (v : View Env) (virtualAddr physicalAddr pageCount bits : Nat) (i : Input) :
    Served :=
  paged (PageCalls.mapPhysicalMemory (tables v.cr3) ⟨v.env, i.frames⟩ virtualAddr physicalAddr
    pageCount bits)

/-- `object::get`. -/
def getObject (env : Env) (t : TaskId) (handle : Nat) : Option Object := (env.handles t).lookup handle

def maxHandle (handles : List (Nat × Object)) : Nat := handles.foldr (fun h m => max h.1 m) 0

/-- `object::put`: the next handle after the largest one. A failing insertion
may lose handles. -/
def put (env : Env) (t : TaskId) (o : Object) (i : Input) : Option (SysResult Nat × Env) :=
  let newId := maxHandle (env.handles t) + 1
  if WORD ≤ newId then none
  else
    match i.put with
    | none =>
      some (.ok newId, { env with
        handles := Function.update env.handles t (env.handles t ++ [(newId, o)]) })
    | some keep =>
      some (.error .memoryExhausted, { env with
        handles := fun x => (env.handles x).filter fun h => keep x h.1 })

/-- `UserArg::from_reg` for a handle, then `object::get`. -/
def handleArg (v : View Env) (reg : Nat) (k : Object → Served) : Served :=
  if reg = 0 then some (finish v.env (.error .badHandle))
  else
    match getObject v.env v.task reg with
    | none => some (finish v.env (.error .badHandle))
    | some o => k o

def pageCtxArg (v : View Env) (reg : Nat) (k : Ctx → Served) : Served :=
  handleArg v reg fun
    | .pageCtx c => k c
    | _ => some (finish v.env (.error .wrongObjectKind))

def putting (env : Env) (t : TaskId) (o : Object) (i : Input) : Served :=
  (put env t o i).map fun (r, env) => finish env r

def cloneHandle (v : View Env) (reg : Nat) (i : Input) : Served :=
  handleArg v reg fun o => putting v.env v.task o i

def releaseHandle (v : View Env) (reg : Nat) : Served :=
  handleArg v reg fun _ =>
    some (finish { v.env with
      handles := Function.update v.env.handles v.task
        ((v.env.handles v.task).filter fun h => h.1 ≠ reg) } (.ok OK))

/-- The lower half of a page context that had no number yet is empty. -/
def createPageContext (v : View Env) (i : Input) : Served :=
  if i.object then
    putting { v.env with nextCtx := v.env.nextCtx + 1 } v.task (.pageCtx v.env.nextCtx) i
  else some (finish v.env (.error .memoryExhausted))

/-- Only `CR3` is set. -/
def setPageContext (v : View Env) (reg : Nat) : Served :=
  pageCtxArg v reg fun c => some { finish v.env (.ok OK) with setCtx := some c }

/-- `task::get_page_ctx` reads the entry of `TASKS`. -/
def getPageContext (v : View Env) (i : Input) : Served :=
  putting v.env v.task (.pageCtx v.ctx) i

def createTask (v : View Env) (reg : Nat) (rip rsp : UInt64) (i : Input) : Served :=
  pageCtxArg v reg fun c =>
    some { finish v.env (if i.spawn.isSome then .error .memoryExhausted else .ok OK) with
      spawned := some (c, TrapFrame.new rip rsp, i.spawn) }

/-- `borrow_slice` and `borrow_slice_mut`. -/
def borrowSlice (v : View Env) (addr len : Nat) (write : Bool) (k : Slice → Served) : Served :=
  let fl := if write then PageFlags.WRITE else 0
  (validateSlice (v.env.pageEntry v.cr3) addr len fl).bind fun r =>
    orFail v.env r fun pages => k ⟨len, pages, write⟩

/-- The guard of the file is dropped on every way out of `File::read`. -/
def dropSeek (env : Env) (m : Nat) (r : SysResult Nat) : Effect Env Susp :=
  { finish { env with files := Function.update env.files m (env.files m).dropGuard.2 } r with
    wakes := (env.files m).dropGuard.1 }

/-- `fat16::File::read` with the guard of its seek, up to the next await. -/
def readSectors (v : View Env) (m : Nat) (sl : Slice) (total : Nat) (i : Input) : Effect Env Susp :=
  let n := min i.copied (sl.len - total)
  let env := if n = 0 then v.env else touch v sl
  if sl.len ≤ total + n then dropSeek env m (.ok (total + n))
  else
    match i.io with
    | .eof => dropSeek env m (.ok (total + n))
    | .failed => dropSeek env m (.error .ioError)
    | .pending => suspend env (.holding m sl (total + n))

/-- `fat16::File::read` polls the lock of its seek. -/
def lockSeek (v : View Env) (m : Nat) (sl : Slice) (i : Input) : Effect Env Susp :=
  match (v.env.files m).lock v.task i.push with
  | (.exhausted, _) => finish v.env (.error .memoryExhausted)
  | (.pending, mu) =>
    suspend { v.env with files := Function.update v.env.files m mu } (.waiting m sl)
  | (.guard, mu) =>
    readSectors { v with env := { v.env with files := Function.update v.env.files m mu } } m sl 0 i

def readScancode (v : View Env) (sl : Slice) : Effect Env Susp :=
  if sl.len = 0 then finish v.env (.ok 0)
  else
    match v.env.keyboard with
    | [] => suspend v.env (.console sl)
    | _ :: rest => finish { touch v sl with keyboard := rest } (.ok 1)

def readStream (v : View Env) (reg buf nbyte : Nat) (i : Input) : Served :=
  handleArg v reg fun
    | .pageCtx _ => some (finish v.env (.error .wrongObjectKind))
    | .console => borrowSlice v buf nbyte true fun sl => some (readScancode v sl)
    | .file m => borrowSlice v buf nbyte true fun sl => some (lockSeek v m sl i)
    | .dir => borrowSlice v buf nbyte true fun _ => some (finish v.env (.error .invalidOperation))

/-- Files of the disk cannot be written: that is a panic. -/
def writeStream (v : View Env) (reg buf nbyte : Nat) (i : Input) : Served :=
  handleArg v reg fun
    | .pageCtx _ => some (finish v.env (.error .wrongObjectKind))
    | .console => borrowSlice v buf nbyte false fun sl =>
      some (finish (touch v sl) (if i.io = .failed then .error .ioError else .ok sl.len))
    | _ => borrowSlice v buf nbyte false fun _ => none

def putFile (v : View Env) (env : Env) (o : Object) (i : Input) : Served :=
  if i.object then putting env v.task o i else some (finish env (.error .memoryExhausted))

/-- `Filesystem::open` reads the path up to the next await. -/
def openPath (v : View Env) (sl : Slice) (i : Input) : Served :=
  let env := touch v sl
  match i.opened with
  | .pending => some (suspend env (.opening sl))
  | .notFound => some (finish env (.error .noFile))
  | .failed => some (finish env (.error .ioError))
  | .exhausted => some (finish env (.error .memoryExhausted))
  | .notUtf8 => none
  | .dir => putFile v env .dir i
  | .file => putFile v { env with nextFile := env.nextFile + 1 } (.file env.nextFile) i

def openFile (v : View Env) (path pathLen bits : Nat) (i : Input) : Served :=
  borrowSlice v path pathLen false fun sl =>
    if bits ||| 1 = 1 then openPath v sl i else some (finish v.env (.error .illegalValue))

def dispatch0 (v : View Env) (regs : Registers) (i : Input) : Interface.Syscall → Served
  | .allocPage => allocPage v regs.rdi.toNat regs.rsi.toNat regs.rdx.toNat i
  | .releasePage => releasePage v regs.rdi.toNat regs.rsi.toNat i
  | .modifyPage => modifyPage v regs.rdi.toNat regs.rsi.toNat regs.rdx.toNat i
  | .cloneHandle => cloneHandle v regs.rdi.toNat i
  | .releaseHandle => releaseHandle v regs.rdi.toNat
  | .createPageContext => createPageContext v i
  | .debug => some (finish v.env (.ok OK))
  | .setPageContext => setPageContext v regs.rdi.toNat
  | .getPageContext => getPageContext v i
  | .createTask => createTask v regs.rdi.toNat regs.rsi regs.rdx i
  | .exit => none
  | .mapPhysicalMemory =>
    mapPhysicalMemory v regs.rdi.toNat regs.rsi.toNat regs.rdx.toNat regs.rcx.toNat i
  | .readStream => readStream v regs.rdi.toNat regs.rsi.toNat regs.rdx.toNat i
  | .writeStream => writeStream v regs.rdi.toNat regs.rsi.toNat regs.rdx.toNat i
  | .openFile => openFile v regs.rdi.toNat regs.rsi.toNat regs.rdx.toNat i

/-- A call that goes on after its await. -/
def resume (v : View Env) (i : Input) : Susp → Served
  | .console sl => some (readScancode v sl)
  | .waiting m sl => some (lockSeek v m sl i)
  | .holding m sl total => some (readSectors v m sl total i)
  | .opening sl => openPath v sl i

def serve (v : View Env) (f : TrapFrame) (call : Call Susp) (i : Input) : Served :=
  match call with
  | .entry =>
    match Interface.Syscall.tryFrom f.regs.rax.toNat with
    | none => some (finish v.env (.error .badSyscall))
    | some c => dispatch0 v f.regs i c
  | .resumed susp => resume v i susp

/-- The capacity of the scancode buffer. -/
def BUFF_CAPACITY : Nat := 32

/-- `keyboard::interrupt`: a scancode that does not fit is dropped. -/
def keyboardInterrupt (env : Env) (code : UInt8) : Env :=
  if env.keyboard.length < BUFF_CAPACITY then { env with keyboard := env.keyboard ++ [code] } else env

def kernel : Kernel Env Susp Input := ⟨serve, keyboardInterrupt⟩

/-- The kernel when its first task starts. The page tables in use and the
handles are arbitrary: tasks may share files and page contexts from the start. -/
def Env.start (entries : Option Ctx × Nat → Nat) (handles : TaskId → List (Nat × Object))
    (nextCtx : Ctx) (nextFile : Nat) : Env where
  entries := fun key => if nextCtx ≤ key.1.getD 0 then 0 else entries key
  handles := handles
  files := fun _ => AsyncMutex.new
  keyboard := []
  nextCtx := nextCtx
  nextFile := nextFile
  accesses := []

/-- A frame that makes a call, for short runs. -/
def callFrame (rax rdi rsi rdx : UInt64) : TrapFrame :=
  { TrapFrame.new 0x10000000 0 with regs := { rax := rax, rdi := rdi, rsi := rsi, rdx := rdx } }

/-- The first task in page context 0, with one writable page and the console at handle 1. -/
def oneTask : Watched Env Susp :=
  initial
    (Env.start (fun key => if key = (some 0, 0x10000) then 0x200007 else 0)
      (fun t => if t = 1 then [(1, .console)] else []) 1 0)
    0 (TrapFrame.new 0x10000000 0)

/-! Rules for the effects of calls, one for each way in which they are put together. -/

/-- Every effect that the call can have is a `P`. -/
def Ensures (r : Served) (P : Effect Env Susp → Prop) : Prop := ∀ e, r = some e → P e

section rules

variable {P : Effect Env Susp → Prop} {v : View Env}

theorem ensures_some {e : Effect Env Susp} (h : P e) : Ensures (some e) P := by
  intro e' he
  cases he
  exact h

theorem ensures_none : Ensures none P := fun _ he => by cases he

theorem ensures_map {α : Type} {o : Option α} {g : α → Effect Env Susp}
    (h : ∀ a, o = some a → P (g a)) : Ensures (o.map g) P := by
  intro e he
  obtain ⟨a, ha, rfl⟩ := Option.map_eq_some_iff.mp he
  exact h a ha

theorem ensures_bind {α : Type} {o : Option α} {k : α → Served}
    (h : ∀ a, o = some a → Ensures (k a) P) : Ensures (o.bind k) P := by
  intro e he
  obtain ⟨a, ha, hk⟩ := Option.bind_eq_some_iff.mp he
  exact h a ha e hk

theorem ensures_orFail {α : Type} {env : Env} {r : SysResult α} {k : α → Served}
    (herr : ∀ e, P (finish env (.error e))) (h : ∀ a, r = .ok a → Ensures (k a) P) :
    Ensures (orFail env r k) P := by
  cases r with
  | error e => exact ensures_some (herr e)
  | ok a => exact h a rfl

theorem ensures_handleArg {reg : Nat} {k : Object → Served}
    (herr : ∀ e, P (finish v.env (.error e)))
    (h : ∀ o, reg ≠ 0 → getObject v.env v.task reg = some o → Ensures (k o) P) :
    Ensures (handleArg v reg k) P := by
  rw [handleArg]
  split
  · exact ensures_some (herr _)
  · rename_i hreg
    split
    · exact ensures_some (herr _)
    · rename_i o ho
      exact h o hreg ho

theorem ensures_pageCtxArg {reg : Nat} {k : Ctx → Served}
    (herr : ∀ e, P (finish v.env (.error e)))
    (h : ∀ c, reg ≠ 0 → getObject v.env v.task reg = some (.pageCtx c) → Ensures (k c) P) :
    Ensures (pageCtxArg v reg k) P := by
  refine ensures_handleArg herr fun o hreg ho => ?_
  cases o with
  | pageCtx c => exact h c hreg ho
  | _ => exact ensures_some (herr _)

theorem ensures_borrowSlice {addr len : Nat} {write : Bool} {k : Slice → Served}
    (herr : ∀ e, P (finish v.env (.error e)))
    (h : ∀ sl : Slice, sl.MappedIn v.env v.cr3 → Ensures (k sl) P) :
    Ensures (borrowSlice v addr len write k) P := by
  refine ensures_bind fun r hr => ensures_orFail herr fun pages hp => ?_
  subst hp
  refine h ⟨len, pages, write⟩ fun p hp => ?_
  obtain ⟨e, he, hm⟩ := validateSlice_ok hr p hp
  cases he
  exact hm

/-- `put` touches the handles only. -/
theorem ensures_putting {env : Env} {t : TaskId} {o : Object} {i : Input}
    (h : ∀ r handles, P (finish { env with handles := handles } r)) :
    Ensures (putting env t o i) P := by
  refine ensures_map fun x hx => ?_
  obtain ⟨r, env'⟩ := x
  rw [put] at hx
  split at hx
  · cases hx
  split at hx
  · cases hx
    exact h _ _
  · cases hx
    exact h _ _

end rules

/-- Mutexes and accesses are as before, and no entry that was there has changed. -/
structure Grown (env env' : Env) : Prop where
  files : env'.files = env.files
  accesses : env'.accesses = env.accesses
  entries : ∀ key, env.entries key ≠ 0 → env'.entries key = env.entries key

theorem Grown.refl (env : Env) : Grown env env := ⟨rfl, rfl, fun _ _ => rfl⟩

/-- Everything that a call can do in its first poll. -/
inductive Entered (v : View Env) (regs : Registers) (i : Input) :
    Option Interface.Syscall → Effect Env Susp → Prop where
  | grown {c : Option Interface.Syscall} (env : Env) (r : SysResult Nat) (h : Grown v.env env) :
      Entered v regs i c (finish env r)
  | released (range : PageRange) (s : Pages)
      (hn : PageRange.new regs.rdi.toNat regs.rsi.toNat = .ok range)
      (hv : validateMap (v.env.pageEntry v.cr3) 0 range.pages = some (.ok ()))
      (hr : run (tables v.cr3).unmap ⟨v.env, i.frames⟩ range.pages = some s) :
      Entered v regs i (some .releasePage) (finish s.env (.ok OK))
  | modified (range : PageRange) (fl : Nat) (s : Pages)
      (hn : PageRange.new regs.rdi.toNat regs.rsi.toNat = .ok range)
      (hv : validateMap (v.env.pageEntry v.cr3) 0 range.pages = some (.ok ()))
      (hf : PageCalls.userPageFlags regs.rdx.toNat = .ok fl)
      (hm : run (PageCalls.modifyAs (tables v.cr3) fl) ⟨v.env, i.frames⟩ range.pages = some s) :
      Entered v regs i (some .modifyPage) (finish s.env (.ok OK))
  | setCtx (c : Ctx) (hreg : regs.rdi.toNat ≠ 0)
      (ho : getObject v.env v.task regs.rdi.toNat = some (.pageCtx c)) :
      Entered v regs i (some .setPageContext) { finish v.env (.ok OK) with setCtx := some c }
  | spawned (r : SysResult Nat) (x : Option (Ctx × TrapFrame × Option Kept)) :
      Entered v regs i (some .createTask) { finish v.env r with spawned := x }
  | console (sl : Slice) (hm : sl.MappedIn v.env v.cr3) :
      Entered v regs i (some .readStream) (readScancode v sl)
  | file (m : Nat) (sl : Slice) (hm : sl.MappedIn v.env v.cr3) :
      Entered v regs i (some .readStream) (lockSeek v m sl i)
  | written (sl : Slice) (r : SysResult Nat) (hm : sl.MappedIn v.env v.cr3) :
      Entered v regs i (some .writeStream) (finish (touch v sl) r)
  | opened (sl : Slice) (e : Effect Env Susp) (hm : sl.MappedIn v.env v.cr3)
      (he : openPath v sl i = some e) : Entered v regs i (some .openFile) e

section entered

variable {v : View Env} {regs : Registers} {i : Input} {c : Option Interface.Syscall}

theorem Entered.fails (e : SysError) : Entered v regs i c (finish v.env (.error e)) :=
  .grown v.env _ (.refl _)

theorem Grown.trans {e₁ e₂ e₃ : Env} (h : Grown e₁ e₂) (h' : Grown e₂ e₃) : Grown e₁ e₃ where
  files := h'.files.trans h.files
  accesses := h'.accesses.trans h.accesses
  entries key hk := by
    have he := h.entries key hk
    rw [h'.entries key (he ▸ hk), he]

theorem Grown.setEntry {env : Env} {ctx : Ctx} {virt : Nat} (value : Nat)
    (h0 : ¬ env.entry ctx virt ≠ 0) : Grown env (env.setEntry ctx virt value) where
  files := rfl
  accesses := rfl
  entries key hk := by
    refine Function.update_of_ne ?_ _ _
    rintro rfl
    exact h0 hk

theorem allocMap_grown {ctx : Ctx} {s s' : Pages} {x : SysResult Unit} {addr fl : Nat}
    (h : Pages.allocMap ctx s addr fl = some (x, s')) : Grown s.env s'.env := by
  rw [Pages.allocMap] at h
  split at h
  · cases h
    exact .refl _
  split at h
  · cases h
  · rename_i h0
    cases h
    exact .setEntry _ h0

theorem mapPhys_grown {ctx : Ctx} {s s' : Pages} {addr phys fl : Nat}
    (h : Pages.mapPhys ctx s phys addr fl = some s') : Grown s.env s'.env := by
  rw [Pages.mapPhys] at h
  split at h
  · cases h
  split at h
  · cases h
  · rename_i h0
    cases h
    exact .setEntry _ h0

/-- Releasing pages touches their entries only. -/
theorem releasePages_keeps {s s' : Pages} {ctx : Ctx} {pages : List Nat}
    (h : run (tables ctx).unmap s pages = some s') :
    s'.env.files = s.env.files ∧ s'.env.accesses = s.env.accesses ∧
      ∀ key, key ∉ pages.map (pageKey ctx) → s'.env.entries key = s.env.entries key := by
  induction pages generalizing s with
  | nil =>
    cases h
    exact ⟨rfl, rfl, fun _ _ => rfl⟩
  | cons addr rest ih =>
    rw [run_cons] at h
    obtain ⟨s₁, h₁, h⟩ := Option.bind_eq_some_iff.mp h
    change Pages.unmap ctx s addr = some s₁ at h₁
    rw [Pages.unmap] at h₁
    split at h₁
    · cases h₁
    cases h₁
    obtain ⟨hf, ha, he⟩ := ih h
    refine ⟨hf, ha, fun key hk => ?_⟩
    rw [List.map_cons, List.mem_cons, not_or] at hk
    rw [he key hk.2]
    exact Function.update_of_ne hk.1 _ _

/-- A modified entry has the new flags. -/
theorem modifyPages_keeps {s s' : Pages} {ctx : Ctx} {fl : Nat} {pages : List Nat}
    (h : run (PageCalls.modifyAs (tables ctx) fl) s pages = some s') :
    s'.env.files = s.env.files ∧ s'.env.accesses = s.env.accesses ∧
      ∀ key, s'.env.entries key = s.env.entries key ∨
        key ∈ pages.map (pageKey ctx) ∧ ∃ frame, s'.env.entries key = frame * PAGE_SIZE ||| fl := by
  induction pages generalizing s with
  | nil =>
    cases h
    exact ⟨rfl, rfl, fun _ => .inl rfl⟩
  | cons addr rest ih =>
    rw [run_cons] at h
    obtain ⟨s₁, h₁, h⟩ := Option.bind_eq_some_iff.mp h
    change Pages.modify ctx s addr fl = some s₁ at h₁
    rw [Pages.modify] at h₁
    split at h₁
    · cases h₁
    cases h₁
    obtain ⟨hf, ha, he⟩ := ih h
    refine ⟨hf, ha, fun key => ?_⟩
    rcases he key with hk | ⟨hk, hx⟩
    · by_cases hkey : key = pageKey ctx addr
      · refine .inr ⟨by rw [hkey]; exact List.mem_cons_self, s.env.entry ctx addr / PAGE_SIZE, ?_⟩
        rw [hk, hkey]
        exact Function.update_self _ _ _
      · exact .inl (hk.trans (Function.update_of_ne hkey _ _))
    · exact .inr ⟨List.mem_cons_of_mem _ hk, hx⟩

theorem allocPage_entered {virtualAddr pageCount bits : Nat} :
    Ensures (allocPage v virtualAddr pageCount bits i) (Entered v regs i c) := by
  refine ensures_map fun x hx => .grown _ _ ?_
  rcases PageCalls.allocPage_cases hx with ⟨e, -, hs⟩ | ⟨range, fl, -, -, -, hr⟩
  · rw [hs]
    exact .refl _
  · exact PageCalls.allocPages_rel (R := fun s s' : Pages => Grown s.env s'.env) (fun _ => .refl _)
      (fun _ _ _ h h' => h.trans h') (fun _ _ _ _ _ h => allocMap_grown h) hr

theorem mapPhysicalMemory_entered {virtualAddr physicalAddr pageCount bits : Nat} :
    Ensures (mapPhysicalMemory v virtualAddr physicalAddr pageCount bits i) (Entered v regs i c) := by
  refine ensures_map fun x hx => .grown _ _ ?_
  rcases PageCalls.mapPhysicalMemory_cases hx with ⟨e, -, hs⟩ | ⟨range, fl, -, -, -, hr, -⟩
  · rw [hs]
    exact .refl _
  · exact run_rel (R := fun s s' : Pages => Grown s.env s'.env) (fun _ => .refl _)
      (fun _ _ _ h h' => h.trans h') (fun _ _ _ _ h => mapPhys_grown h) hr

theorem releasePage_entered :
    Ensures (releasePage v regs.rdi.toNat regs.rsi.toNat i)
      (Entered v regs i (some .releasePage)) := by
  refine ensures_map fun x hx => ?_
  obtain ⟨r, s⟩ := x
  rcases PageCalls.releasePage_cases hx with ⟨e, rfl, rfl⟩ | ⟨range, hn, hv, hr, rfl⟩
  · exact .fails _
  · exact .released range s hn hv hr

theorem modifyPage_entered :
    Ensures (modifyPage v regs.rdi.toNat regs.rsi.toNat regs.rdx.toNat i)
      (Entered v regs i (some .modifyPage)) := by
  refine ensures_map fun x hx => ?_
  obtain ⟨r, s⟩ := x
  rcases PageCalls.modifyPage_cases hx with ⟨e, rfl, rfl⟩ | ⟨range, fl, hn, hv, hf, hr, rfl⟩
  · exact .fails _
  · exact .modified range fl s hn hv hf hr

/-- The first poll of a call, taken apart once. -/
theorem dispatch0_entered (c : Interface.Syscall) :
    Ensures (dispatch0 v regs i c) (Entered v regs i (some c)) := by
  cases c with
  | allocPage => exact allocPage_entered
  | releasePage => exact releasePage_entered
  | modifyPage => exact modifyPage_entered
  | releaseHandle =>
    exact ensures_handleArg .fails fun o _ _ => ensures_some (.grown _ _ ⟨rfl, rfl, fun _ _ => rfl⟩)
  | cloneHandle =>
    exact ensures_handleArg .fails fun o _ _ => ensures_putting fun r handles =>
      .grown _ _ ⟨rfl, rfl, fun _ _ => rfl⟩
  | createPageContext =>
    rw [dispatch0, createPageContext]
    split
    · exact ensures_putting fun r handles => .grown _ _ ⟨rfl, rfl, fun _ _ => rfl⟩
    · exact ensures_some (.fails _)
  | debug => exact ensures_some (.grown _ _ (.refl _))
  | setPageContext =>
    exact ensures_pageCtxArg .fails fun c hreg ho => ensures_some (.setCtx c hreg ho)
  | getPageContext => exact ensures_putting fun r handles => .grown _ _ ⟨rfl, rfl, fun _ _ => rfl⟩
  | createTask => exact ensures_pageCtxArg .fails fun c _ _ => ensures_some (.spawned _ _)
  | exit => exact ensures_none
  | mapPhysicalMemory => exact mapPhysicalMemory_entered
  | readStream =>
    refine ensures_handleArg .fails fun o _ _ => ?_
    cases o with
    | pageCtx c => exact ensures_some (.fails _)
    | console => exact ensures_borrowSlice .fails fun sl hm => ensures_some (.console sl hm)
    | file m => exact ensures_borrowSlice .fails fun sl hm => ensures_some (.file m sl hm)
    | dir => exact ensures_borrowSlice .fails fun sl hm => ensures_some (.fails _)
  | writeStream =>
    refine ensures_handleArg .fails fun o _ _ => ?_
    cases o with
    | pageCtx c => exact ensures_some (.fails _)
    | console => exact ensures_borrowSlice .fails fun sl hm => ensures_some (.written sl _ hm)
    | file m => exact ensures_borrowSlice .fails fun sl hm => ensures_none
    | dir => exact ensures_borrowSlice .fails fun sl hm => ensures_none
  | openFile =>
    rw [dispatch0, openFile]
    refine ensures_borrowSlice .fails fun sl hm => ?_
    split
    · exact fun e he => .opened sl e hm he
    · exact ensures_some (.fails _)

theorem serve_entered {f : TrapFrame} {e : Effect Env Susp} (h : serve v f .entry i = some e) :
    Entered v f.regs i (Interface.Syscall.tryFrom f.regs.rax.toNat) e := by
  rw [serve] at h
  split at h
  · rename_i hn
    cases h
    exact .fails _
  · rename_i c hc
    rw [hc]
    exact dispatch0_entered c e h

end entered

end Crabos.Syscall
