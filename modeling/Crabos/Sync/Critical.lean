import Crabos.Lib.Run

/-!
# Critical sections and mutexes (`kernel/src/critical.rs`, `kernel/src/sync/mutex.rs`)

Kernel code on one processor, with interrupts wherever they are enabled. `begin`
reads the flags and clears the interrupt flag in two instructions, and a guard
sets it again only if it was set before. The handler of an interrupt enables
interrupts at its start, so that handlers are interrupted themselves.
-/
namespace Crabos.Critical

open Crabos.Run

variable {μ : Type}

/-- The guards that code holds, with the flag of their `Critical`. -/
inductive Guard (μ : Type) where
  | critical (if_ : Bool)
  | mutex (m : μ) (if_ : Bool)
  deriving DecidableEq, Repr

def Guard.flag : Guard μ → Bool
  | .critical if_ => if_
  | .mutex _ if_ => if_

def Guard.mutex? : Guard μ → Option μ
  | .critical _ => none
  | .mutex m _ => some m

def held (guards : List (Guard μ)) : List μ := guards.filterMap Guard.mutex?

@[simp] theorem held_nil : held ([] : List (Guard μ)) = [] := rfl

@[simp] theorem held_critical (if_ : Bool) (guards : List (Guard μ)) :
    held (.critical if_ :: guards) = held guards := rfl

@[simp] theorem held_mutex (m : μ) (if_ : Bool) (guards : List (Guard μ)) :
    held (.mutex m if_ :: guards) = m :: held guards := rfl

/-- Where code is in `begin`, in `lock` and in the drop of a guard. -/
inductive Pc (μ : Type) where
  | code
  -- `begin` has read the flags, for a mutex or for itself
  | flags (goal : Option μ) (if_ : Bool)
  -- `lock` has its `Critical`
  | began (m : μ) (if_ : Bool)
  -- of a guard only the `Critical` is left to drop
  | dropping (if_ : Bool)
  deriving DecidableEq, Repr

/-- Code that runs or is interrupted. The guard taken last comes first. -/
structure Activation (μ : Type) where
  guards : List (Guard μ)
  pc : Pc μ
  deriving DecidableEq, Repr

/-- The interrupted activations have the interrupt flag that `iretq` restores.
A future that waits keeps its `Critical`s apart from any activation. -/
structure State (μ : Type) where
  iflag : Bool
  locked : μ → Bool
  running : Activation μ
  interrupted : List (Bool × Activation μ)
  suspended : List Bool
  panicked : Bool

inductive Act (μ : Type) where
  | readFlags (goal : Option μ)
  | cli
  | check
  | drop
  | sti
  | enable
  | interrupt
  | iret
  | suspend
  | resume (i : Nat)
  deriving DecidableEq, Repr

def State.at (s : State μ) (guards : List (Guard μ)) (pc : Pc μ) : State μ :=
  { s with running := ⟨guards, pc⟩ }

def cli (s : State μ) : Option (State μ) :=
  match s.running.pc with
  | .flags none if_ => some { s.at (.critical if_ :: s.running.guards) .code with iflag := false }
  | .flags (some m) if_ => some { s.at s.running.guards (.began m if_) with iflag := false }
  | _ => none

/-- Drop of a `Critical`. -/
def sti (s : State μ) : Option (State μ) :=
  match s.running.pc with
  | .dropping if_ => some { s.at s.running.guards .code with iflag := s.iflag || if_ }
  | _ => none

def iret (s : State μ) : Option (State μ) :=
  match s.interrupted with
  | (iflag, a) :: rest =>
    if s.running.guards = [] then some { s with iflag := iflag, running := a, interrupted := rest }
    else none
  | [] => none

/-- A future that waits with a `Critical`, under the mutex of its poll. -/
def suspend (s : State μ) : Option (State μ) :=
  match s.running.guards with
  | .critical if_ :: g :: guards =>
    some { s.at (g :: guards) .code with suspended := if_ :: s.suspended }
  | _ => none

def resume (s : State μ) (i : Nat) : Option (State μ) :=
  match s.running.guards, s.suspended[i]? with
  | g :: guards, some if_ =>
    some { s.at (.critical if_ :: g :: guards) .code with suspended := s.suspended.eraseIdx i }
  | _, _ => none

def enabled (s : State μ) : Act μ → Prop
  | .readFlags _ => s.running.pc = .code
  | .drop => s.running.pc = .code
  | .iret => s.running.pc = .code
  | .suspend => s.running.pc = .code
  | .resume _ => s.running.pc = .code
  -- the first call of a handler
  | .enable => s.running = ⟨[], .code⟩
  | .interrupt => s.iflag = true
  | .cli => True
  | .check => True
  | .sti => True

def initial (iflag : Bool) : State μ := ⟨iflag, fun _ => false, ⟨[], .code⟩, [], [], false⟩

/-- Only the first guard can have found interrupts enabled. -/
def Nested : List (Guard μ) → Prop
  | [] => True
  | g :: guards => (g.flag = true → guards = []) ∧ Nested guards

/-- What the place of the running code says about the flag. -/
def Placed (iflag : Bool) (guards : List (Guard μ)) : Pc μ → Prop
  | .code => True
  | .flags _ if_ => if_ = iflag
  | .began _ if_ => iflag = false ∧ (if_ = true → guards = [])
  | .dropping if_ => iflag = false ∧ (if_ = true → guards = [])

structure Inv (s : State μ) : Prop where
  quiet : s.iflag = true → s.running.guards = []
  placed : Placed s.iflag s.running.guards s.running.pc
  nested : Nested s.running.guards
  locked : ∀ m, s.locked m = true ↔ m ∈ held s.running.guards
  once : (held s.running.guards).Nodup
  interrupted : ∀ p ∈ s.interrupted, p.1 = true ∧ p.2.guards = [] ∧ Placed true [] p.2.pc
  suspended : ∀ if_ ∈ s.suspended, if_ = false
  panicked : s.panicked = true → ∃ m if_, s.running.pc = .began m if_ ∧ s.locked m = true

theorem inv_initial (iflag : Bool) : Inv (initial iflag : State μ) := by
  constructor <;> simp [initial, Placed, Nested]

variable {s s' : State μ}

theorem Inv.off (h : Inv s) {g : Guard μ} {guards : List (Guard μ)} (hg : s.running.guards = g :: guards) :
    s.iflag = false := by
  cases hi : s.iflag with
  | false => rfl
  | true =>
    have := h.quiet hi
    simp [hg] at this

theorem inv_cli (h : Inv s) (hp : s.panicked = false) (hs : cli s = some s') : Inv s' := by
  rw [cli] at hs
  have hplaced := h.placed
  split at hs
  · rename_i if_ hpc
    cases hs
    rw [hpc] at hplaced
    refine ⟨by simp, trivial, ⟨fun hflag => h.quiet (hplaced ▸ hflag), h.nested⟩, ?_, ?_, h.interrupted,
      h.suspended, by simp [State.at, hp]⟩
    · simpa [State.at] using h.locked
    · simpa [State.at] using h.once
  · rename_i m if_ hpc
    cases hs
    rw [hpc] at hplaced
    exact ⟨by simp, ⟨rfl, fun hflag => h.quiet (hplaced ▸ hflag)⟩, h.nested, h.locked, h.once, h.interrupted,
      h.suspended, by simp [State.at, hp]⟩
  · cases hs

theorem inv_sti (h : Inv s) (hp : s.panicked = false) (hs : sti s = some s') : Inv s' := by
  rw [sti] at hs
  have hplaced := h.placed
  split at hs
  · rename_i if_ hpc
    cases hs
    rw [hpc] at hplaced
    obtain ⟨hoff, houter⟩ := hplaced
    refine ⟨fun hi => houter ?_, trivial, h.nested, h.locked, h.once, h.interrupted, h.suspended,
      by simp [State.at, hp]⟩
    simpa [State.at, hoff] using hi
  · cases hs

theorem inv_iret (h : Inv s) (hp : s.panicked = false) (hs : iret s = some s') : Inv s' := by
  rw [iret] at hs
  split at hs
  · rename_i iflag a rest hin
    split at hs
    · rename_i hg
      cases hs
      obtain ⟨hon, hguards, hplaced⟩ := h.interrupted (iflag, a) (by simp [hin])
      obtain ⟨guards, pc⟩ := a
      have hfree := h.locked
      rw [hg] at hfree
      simp only at hon hguards hplaced
      subst hon hguards
      exact ⟨fun _ => rfl, hplaced, trivial, hfree, by simp,
        fun p hmem => h.interrupted p (by simp [hin, hmem]), h.suspended, by simp [hp]⟩
    · cases hs
  · cases hs

theorem inv_suspend (h : Inv s) (hp : s.panicked = false) (hs : suspend s = some s') : Inv s' := by
  rw [suspend] at hs
  have hnested := h.nested
  have honce := h.once
  have hlocked := h.locked
  split at hs
  · rename_i if_ g guards hg
    cases hs
    rw [hg] at hnested honce hlocked
    have hfalse : if_ = false := by
      cases if_ with
      | false => rfl
      | true => cases hnested.1 rfl
    refine ⟨by simp [State.at, h.off hg], trivial, hnested.2, hlocked, honce, h.interrupted, ?_,
      by simp [State.at, hp]⟩
    simpa [State.at, hfalse] using h.suspended
  · cases hs

theorem inv_resume (h : Inv s) (hp : s.panicked = false) {i : Nat} (hs : resume s i = some s') : Inv s' := by
  rw [resume] at hs
  have hnested := h.nested
  have honce := h.once
  have hlocked := h.locked
  split at hs
  · rename_i g guards if_ hg hi
    cases hs
    rw [hg] at hnested honce hlocked
    have hfalse : if_ = false := h.suspended if_ (List.mem_of_getElem? hi)
    refine ⟨by simp [State.at, h.off hg], trivial, ⟨by simp [Guard.flag, hfalse], hnested⟩, hlocked, honce,
      h.interrupted, fun b hb => h.suspended b (List.mem_of_mem_eraseIdx hb), by simp [State.at, hp]⟩
  · cases hs

section locks

variable [DecidableEq μ]

instance (s : State μ) : (a : Act μ) → Decidable (enabled s a)
  | .readFlags _ => inferInstanceAs (Decidable (_ = _))
  | .drop => inferInstanceAs (Decidable (_ = _))
  | .iret => inferInstanceAs (Decidable (_ = _))
  | .suspend => inferInstanceAs (Decidable (_ = _))
  | .resume _ => inferInstanceAs (Decidable (_ = _))
  | .enable => inferInstanceAs (Decidable (_ = _))
  | .interrupt => inferInstanceAs (Decidable (_ = _))
  | .cli => inferInstanceAs (Decidable True)
  | .check => inferInstanceAs (Decidable True)
  | .sti => inferInstanceAs (Decidable True)

/-- The rest of `lock`. -/
def check (s : State μ) : Option (State μ) :=
  match s.running.pc with
  | .began m if_ =>
    if s.locked m then some { s with panicked := true }
    else some { s.at (.mutex m if_ :: s.running.guards) .code with
      locked := Function.update s.locked m true }
  | _ => none

/-- Drop of the guard that was taken last: a mutex is free before its `Critical` goes. -/
def dropGuard (s : State μ) : Option (State μ) :=
  match s.running.guards with
  | .critical if_ :: guards => some (s.at guards (.dropping if_))
  | .mutex m if_ :: guards =>
    some { s.at guards (.dropping if_) with locked := Function.update s.locked m false }
  | [] => none

def perform (s : State μ) : Act μ → Option (State μ)
  | .readFlags goal => some (s.at s.running.guards (.flags goal s.iflag))
  | .cli => cli s
  | .check => check s
  | .drop => dropGuard s
  | .sti => sti s
  | .enable => some { s with iflag := true }
  | .interrupt =>
    some { s with
      iflag := false, running := ⟨[], .code⟩, interrupted := (s.iflag, s.running) :: s.interrupted }
  | .iret => iret s
  | .suspend => suspend s
  | .resume i => resume s i

/-- One instruction; after a panic there is none. -/
def step (s : State μ) (a : Act μ) : Option (State μ) :=
  if s.panicked = false ∧ enabled s a then perform s a else none

theorem inv_check (h : Inv s) (hp : s.panicked = false) (hs : check s = some s') : Inv s' := by
  rw [check] at hs
  have hplaced := h.placed
  split at hs
  · rename_i m if_ hpc
    rw [hpc] at hplaced
    obtain ⟨hoff, houter⟩ := hplaced
    split at hs
    · rename_i hlocked
      cases hs
      exact ⟨h.quiet, h.placed, h.nested, h.locked, h.once, h.interrupted, h.suspended,
        fun _ => ⟨m, if_, hpc, hlocked⟩⟩
    · rename_i hfree
      cases hs
      have hnot : m ∉ held s.running.guards := fun hm => hfree ((h.locked m).mpr hm)
      refine ⟨by simp [State.at, hoff], trivial, ⟨houter, h.nested⟩, fun x => ?_, ?_, h.interrupted,
        h.suspended, by simp [State.at, hp]⟩
      · by_cases hx : x = m
        · simp [State.at, hx]
        · simp [State.at, hx, h.locked]
      · simpa [State.at] using ⟨hnot, h.once⟩
  · cases hs

theorem inv_dropGuard (h : Inv s) (hp : s.panicked = false) (hs : dropGuard s = some s') : Inv s' := by
  rw [dropGuard] at hs
  have hnested := h.nested
  have honce := h.once
  have hlocked := h.locked
  split at hs
  · rename_i if_ guards hg
    cases hs
    rw [hg] at hnested honce hlocked
    exact ⟨by simp [State.at, h.off hg], ⟨h.off hg, hnested.1⟩, hnested.2, hlocked, honce, h.interrupted,
      h.suspended, by simp [State.at, hp]⟩
  · rename_i m if_ guards hg
    cases hs
    rw [hg] at hnested honce hlocked
    simp only [held_mutex, List.nodup_cons, List.mem_cons] at honce hlocked
    refine ⟨by simp [State.at, h.off hg], ⟨h.off hg, hnested.1⟩, hnested.2, fun x => ?_, honce.2,
      h.interrupted, h.suspended, by simp [State.at, hp]⟩
    by_cases hx : x = m
    · subst hx
      simpa [State.at] using honce.1
    · simp [State.at, hx, hlocked]
  · cases hs

theorem inv_step {a : Act μ} (h : Inv s) (hs : step s a = some s') : Inv s' := by
  rw [step] at hs
  split at hs
  · rename_i hcond
    obtain ⟨hp, hen⟩ := hcond
    cases a with
    | readFlags goal =>
      cases hs
      exact ⟨h.quiet, rfl, h.nested, h.locked, h.once, h.interrupted, h.suspended, by simp [State.at, hp]⟩
    | cli => exact inv_cli h hp hs
    | check => exact inv_check h hp hs
    | drop => exact inv_dropGuard h hp hs
    | sti => exact inv_sti h hp hs
    | enable =>
      cases hs
      have hrun : s.running = ⟨[], .code⟩ := hen
      refine ⟨fun _ => by simp [hrun], by simp [hrun, Placed], h.nested, h.locked, h.once, h.interrupted,
        h.suspended, by simp [hp]⟩
    | interrupt =>
      cases hs
      have hon : s.iflag = true := hen
      have hguards := h.quiet hon
      have hplaced := h.placed
      have hfree := h.locked
      rw [hguards] at hfree hplaced
      rw [hon] at hplaced
      refine ⟨by simp, trivial, trivial, hfree, by simp, ?_, h.suspended, by simp [hp]⟩
      intro p hmem
      rcases List.mem_cons.mp hmem with rfl | hmem
      · exact ⟨hon, hguards, hplaced⟩
      · exact h.interrupted p hmem
    | iret => exact inv_iret h hp hs
    | suspend => exact inv_suspend h hp hs
    | resume i => exact inv_resume h hp hs
  · cases hs

/-- In every run, with interrupts at any instruction at which they are enabled:
while they are enabled no mutex is locked, and no code has a guard but the code
that runs now. So a handler finds every mutex free that the code which it
interrupts uses, and `lock` panics only where the code that runs has the guard
of that mutex itself. A `Critical` that a waiting future keeps never enables
interrupts. -/
theorem guards_exclude_interrupts (iflag : Bool) (acts : List (Act μ)) (s : State μ)
    (hr : run step (initial iflag) acts = some s) :
    (s.iflag = true → s.running.guards = [] ∧ ∀ m, s.locked m = false) ∧
      (∀ p ∈ s.interrupted, p.2.guards = []) ∧
      (∀ m, s.locked m = true ↔ m ∈ held s.running.guards) ∧ (held s.running.guards).Nodup ∧
      (s.panicked = true → ∃ m if_, s.running.pc = .began m if_ ∧ m ∈ held s.running.guards) ∧
      ∀ if_ ∈ s.suspended, if_ = false := by
  have h : Inv s := invariant (fun _ _ _ h hs => inv_step h hs) (inv_initial iflag) hr
  refine ⟨fun hon => ⟨h.quiet hon, fun m => ?_⟩, fun p hp => (h.interrupted p hp).2.1, h.locked, h.once,
    fun hp => ?_, h.suspended⟩
  · have hfree := h.locked m
    rw [h.quiet hon] at hfree
    simpa using hfree
  · obtain ⟨m, if_, hpc, hlocked⟩ := h.panicked hp
    exact ⟨m, if_, hpc, (h.locked m).mp hlocked⟩

/-- A handler comes between the two instructions of `begin`, and locks the same mutex. -/
def interruptedLock : List (Act Bool) :=
  [.readFlags (some true), .interrupt, .enable, .readFlags (some true), .cli, .check, .drop, .sti, .iret,
    .cli, .check]

theorem guards_exclude_interrupts_handler :
    ∃ s, run step (initial true) interruptedLock = some s ∧ (∀ p ∈ s.interrupted, p.2.guards = []) ∧
      ∀ m, s.locked m = true ↔ m ∈ held s.running.guards := by
  obtain ⟨s, hs, -⟩ := exists_of_any (p := fun s : State Bool => s.panicked = false)
    (show (run step (initial true) interruptedLock).any _ = true by decide)
  have h := guards_exclude_interrupts true interruptedLock s hs
  exact ⟨s, hs, h.2.1, h.2.2.1⟩

end locks

end Crabos.Critical
