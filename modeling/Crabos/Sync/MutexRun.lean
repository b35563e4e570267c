import Crabos.Lib.Run
import Crabos.Sync.AsyncMutex

/-!
# The mutex of asynchronous code, step by step

Polls of `lock` and drops of guards by any number of tasks, interleaved at
their accesses to the flag and to the list of wakers: a poll pushes its waker
and then swaps the flag, a drop clears the flag, then takes the list and then
invokes the wakers one by one. Each push has a ticket, so that the invocation
of a waker is the invocation of what one poll has pushed.
-/
namespace Crabos.MutexRun

open Crabos.Run

variable {τ : Type}

/-- A guard that is being dropped: the flag is cleared, then the list is taken. -/
inductive Drop (τ : Type) where
  | cleared
  | waking (rest : List (τ × Nat))

inductive Note (τ : Type) where
  | pushed (waker : τ × Nat)
  | woke (waker : τ × Nat)

/-- The mutex with the tasks that use it: the ticket of the push of a poll that
has not swapped the flag yet, the ticket of the last poll if it has returned
`Pending`, the guards, the drops under way, and all pushes and invocations, the
last one first. -/
structure State (τ : Type) where
  mutex : AsyncMutex (τ × Nat)
  tickets : Nat
  polling : τ → Option Nat
  pending : τ → Option Nat
  guards : List τ
  drops : List (Drop τ)
  log : List (Note τ)

inductive Act (τ : Type) where
  | pushFront (t : τ) (ok : Bool)
  | swap (t : τ)
  | clear (t : τ)
  | takeIter (i : Nat)
  | wake (i : Nat)

section steps

variable [DecidableEq τ]

/-- The first part of a poll. Without memory it returns an error. -/
def pushFront (s : State τ) (t : τ) (ok : Bool) : State τ :=
  if ok then
    { s with
      mutex := { s.mutex with wakers := (t, s.tickets) :: s.mutex.wakers }
      tickets := s.tickets + 1
      polling := Function.update s.polling t (some s.tickets)
      log := .pushed (t, s.tickets) :: s.log }
  else { s with pending := Function.update s.pending t none }

/-- The second part of a poll: a guard if the flag was clear, else `Pending`. -/
def swap (s : State τ) (t : τ) (n : Nat) : State τ :=
  if s.mutex.locked then
    { s with
      polling := Function.update s.polling t none
      pending := Function.update s.pending t (some n) }
  else
    { s with
      mutex := { s.mutex with locked := true }
      polling := Function.update s.polling t none
      pending := Function.update s.pending t none
      guards := t :: s.guards }

def step (s : State τ) : Act τ → Option (State τ)
  | .pushFront t ok => if s.polling t = none then some (pushFront s t ok) else none
  | .swap t => (s.polling t).map fun n => swap s t n
  | .clear t =>
    if t ∈ s.guards then
      some { s with
        mutex := { s.mutex with locked := false }
        guards := s.guards.erase t
        drops := .cleared :: s.drops }
    else none
  | .takeIter i =>
    match s.drops[i]? with
    | some .cleared =>
      some { s with
        mutex := { s.mutex with wakers := [] }
        drops := s.drops.set i (.waking s.mutex.wakers) }
    | _ => none
  | .wake i =>
    match s.drops[i]? with
    | some (.waking (x :: rest)) =>
      some { s with drops := s.drops.set i (.waking rest), log := .woke x :: s.log }
    | some (.waking []) => some { s with drops := s.drops.eraseIdx i }
    | _ => none

end steps

def initial (τ : Type) : State τ := ⟨.new, 0, fun _ => none, fun _ => none, [], [], []⟩

/-- The waker was invoked after it was pushed. -/
def Woken (log : List (Note τ)) (x : τ × Nat) : Prop :=
  ∃ later earlier, log = later ++ .woke x :: earlier ∧ .pushed x ∈ earlier

/-- A drop is going to invoke the waker. -/
def Taken (s : State τ) (x : τ × Nat) : Prop := ∃ rest, .waking rest ∈ s.drops ∧ x ∈ rest

/-- The list of wakers is going to be taken. -/
def Due (s : State τ) : Prop := s.guards ≠ [] ∨ .cleared ∈ s.drops

structure Inv (s : State τ) : Prop where
  flag : s.guards.length = s.mutex.locked.toNat
  pushed : ∀ x, x ∈ s.mutex.wakers ∨ Taken s x → .pushed x ∈ s.log
  polling : ∀ t n, s.polling t = some n →
    (t, n) ∈ s.mutex.wakers ∨ Taken s (t, n) ∨ Woken s.log (t, n)
  pending : ∀ t n, s.pending t = some n →
    ((t, n) ∈ s.mutex.wakers ∧ Due s) ∨ Taken s (t, n) ∨ Woken s.log (t, n)

theorem initial_inv (τ : Type) : Inv (initial τ) where
  flag := rfl
  pushed x hx := by
    rcases hx with hx | ⟨rest, hr, -⟩
    · exact absurd hx List.not_mem_nil
    · exact absurd hr List.not_mem_nil
  polling t n h := by cases h
  pending t n h := by cases h

theorem Woken.later {log : List (Note τ)} {x : τ × Nat} (h : Woken log x) (note : Note τ) :
    Woken (note :: log) x := by
  obtain ⟨later, earlier, rfl, hp⟩ := h
  exact ⟨note :: later, earlier, rfl, hp⟩

section lists

variable {α : Type} {l : List α} {i : Nat} {a b c : α}

theorem mem_set_of_ne (ha : a ∈ l) (hi : l[i]? = some b) (hne : a ≠ b) : a ∈ l.set i c := by
  obtain ⟨j, hj⟩ := List.mem_iff_getElem?.mp ha
  refine List.mem_iff_getElem?.mpr ⟨j, ?_⟩
  rw [List.getElem?_set_ne]
  · exact hj
  · rintro rfl
    rw [hi] at hj
    cases hj
    exact hne rfl

theorem mem_set_self (hi : l[i]? = some b) : c ∈ l.set i c := by
  obtain ⟨hlt, -⟩ := List.getElem?_eq_some_iff.mp hi
  exact List.mem_iff_getElem?.mpr ⟨i, List.getElem?_set_self hlt⟩

theorem mem_eraseIdx_of_ne (ha : a ∈ l) (hi : l[i]? = some b) (hne : a ≠ b) : a ∈ l.eraseIdx i := by
  obtain ⟨j, hj⟩ := List.mem_iff_getElem?.mp ha
  refine List.mem_eraseIdx_iff_getElem?.mpr ⟨j, ?_, hj⟩
  rintro rfl
  rw [hi] at hj
  cases hj
  exact hne rfl

end lists

variable [DecidableEq τ] {s s' : State τ}

theorem inv_pushFront (hi : Inv s) (t : τ) (ok : Bool) : Inv (pushFront s t ok) := by
  cases ok with
  | false =>
    refine ⟨hi.flag, hi.pushed, hi.polling, fun u n h => ?_⟩
    change Function.update s.pending t none u = some n at h
    by_cases hu : u = t
    · subst hu
      rw [Function.update_self] at h
      cases h
    · rw [Function.update_of_ne hu] at h
      exact hi.pending u n h
  | true =>
    refine ⟨hi.flag, fun x hx => ?_, fun u n h => ?_, fun u n h => ?_⟩
    · rcases hx with hx | hx
      · rcases List.mem_cons.mp hx with rfl | hx
        · exact List.mem_cons_self
        · exact List.mem_cons_of_mem _ (hi.pushed x (.inl hx))
      · exact List.mem_cons_of_mem _ (hi.pushed x (.inr hx))
    · change Function.update s.polling t (some s.tickets) u = some n at h
      by_cases hu : u = t
      · subst hu
        rw [Function.update_self] at h
        cases h
        exact .inl List.mem_cons_self
      · rw [Function.update_of_ne hu] at h
        rcases hi.polling u n h with hw | hw | hw
        · exact .inl (List.mem_cons_of_mem _ hw)
        · exact .inr (.inl hw)
        · exact .inr (.inr (hw.later _))
    · rcases hi.pending u n h with ⟨hw, hd⟩ | hw | hw
      · exact .inl ⟨List.mem_cons_of_mem _ hw, hd⟩
      · exact .inr (.inl hw)
      · exact .inr (.inr (hw.later _))

theorem inv_swap (hi : Inv s) {t : τ} {n : Nat} (hp : s.polling t = some n) : Inv (swap s t n) := by
  have hother : ∀ u k, Function.update s.polling t none u = some k → s.polling u = some k := by
    intro u k h
    by_cases hu : u = t
    · subst hu
      rw [Function.update_self] at h
      cases h
    · rwa [Function.update_of_ne hu] at h
  rw [swap]
  split
  · rename_i hlocked
    -- somebody holds the guard, and will take the list
    have hguard : s.guards ≠ [] := by
      intro h0
      have hf := hi.flag
      rw [h0, hlocked] at hf
      cases hf
    refine ⟨hi.flag, hi.pushed, fun u k h => hi.polling u k (hother u k h), fun u k h => ?_⟩
    change Function.update s.pending t (some n) u = some k at h
    by_cases hu : u = t
    · subst hu
      rw [Function.update_self] at h
      cases h
      rcases hi.polling u n hp with hw | hw
      · exact .inl ⟨hw, .inl hguard⟩
      · exact .inr hw
    · rw [Function.update_of_ne hu] at h
      exact hi.pending u k h
  · rename_i hlocked
    have hflag : s.guards.length = 0 := by
      rw [hi.flag, Bool.eq_false_iff.mpr hlocked]
      rfl
    refine ⟨congrArg Nat.succ hflag, hi.pushed, fun u k h => hi.polling u k (hother u k h),
      fun u k h => ?_⟩
    change Function.update s.pending t none u = some k at h
    by_cases hu : u = t
    · subst hu
      rw [Function.update_self] at h
      cases h
    · rw [Function.update_of_ne hu] at h
      rcases hi.pending u k h with ⟨hw, -⟩ | hw
      · exact .inl ⟨hw, .inl (List.cons_ne_nil _ _)⟩
      · exact .inr hw

theorem inv_clear (hi : Inv s) {t : τ} (h : step s (.clear t) = some s') : Inv s' := by
  rw [step] at h
  split at h
  · rename_i ht
    cases h
    have hlen : s.guards.length = 1 := by
      have hpos := List.length_pos_of_mem ht
      have hf := hi.flag
      cases hl : s.mutex.locked with
      | false =>
        rw [hl] at hf
        rw [hf] at hpos
        cases hpos
      | true =>
        rw [hl] at hf
        exact hf
    have hrest : ∀ x, Taken s x → Taken { s with
        mutex := { s.mutex with locked := false }
        guards := s.guards.erase t
        drops := .cleared :: s.drops } x := by
      rintro x ⟨rest, hr, hx⟩
      exact ⟨rest, List.mem_cons_of_mem _ hr, hx⟩
    refine ⟨?_, fun x hx => ?_, fun u n hu => ?_, fun u n hu => ?_⟩
    · change (s.guards.erase t).length = 0
      rw [List.length_erase_of_mem ht, hlen]
    · refine hi.pushed x (hx.imp id ?_)
      rintro ⟨rest, hr, hx⟩
      rcases List.mem_cons.mp hr with hc | hr
      · cases hc
      · exact ⟨rest, hr, hx⟩
    · exact (hi.polling u n hu).imp id (Or.imp (hrest _) id)
    · rcases hi.pending u n hu with ⟨hw, -⟩ | hw | hw
      · exact .inl ⟨hw, .inr List.mem_cons_self⟩
      · exact .inr (.inl (hrest _ hw))
      · exact .inr (.inr hw)
  · cases h

theorem inv_takeIter (hi : Inv s) {i : Nat} (h : step s (.takeIter i) = some s') : Inv s' := by
  rw [step] at h
  split at h
  · rename_i hd
    cases h
    have hrest : ∀ x, x ∈ s.mutex.wakers ∨ Taken s x → Taken { s with
        mutex := { s.mutex with wakers := [] }
        drops := s.drops.set i (.waking s.mutex.wakers) } x := by
      rintro x (hx | ⟨rest, hr, hx⟩)
      · exact ⟨_, mem_set_self hd, hx⟩
      · exact ⟨rest, mem_set_of_ne hr hd (by rintro ⟨⟩), hx⟩
    refine ⟨hi.flag, fun x hx => ?_, fun u n hu => ?_, fun u n hu => ?_⟩
    · rcases hx with hx | ⟨rest, hr, hx⟩
      · exact absurd hx List.not_mem_nil
      · rcases List.mem_or_eq_of_mem_set hr with hr | hr
        · exact hi.pushed x (.inr ⟨rest, hr, hx⟩)
        · cases hr
          exact hi.pushed x (.inl hx)
    · rcases hi.polling u n hu with hw | hw | hw
      · exact .inr (.inl (hrest _ (.inl hw)))
      · exact .inr (.inl (hrest _ (.inr hw)))
      · exact .inr (.inr hw)
    · rcases hi.pending u n hu with ⟨hw, -⟩ | hw | hw
      · exact .inr (.inl (hrest _ (.inl hw)))
      · exact .inr (.inl (hrest _ (.inr hw)))
      · exact .inr (.inr hw)
  · cases h

theorem inv_wake (hi : Inv s) {i : Nat} (h : step s (.wake i) = some s') : Inv s' := by
  rw [step] at h
  split at h
  · rename_i x rest hd
    cases h
    have hx : .pushed x ∈ s.log :=
      hi.pushed x (.inr ⟨_, List.mem_of_getElem? hd, List.mem_cons_self⟩)
    have hmove : ∀ y, Taken s y → Taken { s with
        drops := s.drops.set i (.waking rest), log := .woke x :: s.log } y ∨
        Woken (.woke x :: s.log) y := by
      rintro y ⟨r, hr, hy⟩
      by_cases he : r = x :: rest
      · subst he
        rcases List.mem_cons.mp hy with rfl | hy
        · exact .inr ⟨[], s.log, rfl, hx⟩
        · exact .inl ⟨rest, mem_set_self hd, hy⟩
      · refine .inl ⟨r, mem_set_of_ne hr hd ?_, hy⟩
        rintro hc
        cases hc
        exact he rfl
    have hdue : Due s → Due { s with
        drops := s.drops.set i (.waking rest), log := .woke x :: s.log } :=
      Or.imp id fun hc => mem_set_of_ne hc hd (by rintro ⟨⟩)
    refine ⟨hi.flag, fun y hy => ?_, fun u n hu => ?_, fun u n hu => ?_⟩
    · refine List.mem_cons_of_mem _ (hi.pushed y (hy.imp id ?_))
      rintro ⟨r, hr, hy⟩
      rcases List.mem_or_eq_of_mem_set hr with hr | hr
      · exact ⟨r, hr, hy⟩
      · cases hr
        exact ⟨_, List.mem_of_getElem? hd, List.mem_cons_of_mem _ hy⟩
    · rcases hi.polling u n hu with hw | hw | hw
      · exact .inl hw
      · exact .inr (hmove _ hw)
      · exact .inr (.inr (hw.later _))
    · rcases hi.pending u n hu with ⟨hw, hd⟩ | hw | hw
      · exact .inl ⟨hw, hdue hd⟩
      · exact .inr (hmove _ hw)
      · exact .inr (.inr (hw.later _))
  · rename_i hd
    cases h
    have hmove : ∀ y, Taken s y → Taken { s with drops := s.drops.eraseIdx i } y := by
      rintro y ⟨r, hr, hy⟩
      refine ⟨r, mem_eraseIdx_of_ne hr hd ?_, hy⟩
      rintro hc
      cases hc
      exact absurd hy List.not_mem_nil
    have hdue : Due s → Due { s with drops := s.drops.eraseIdx i } :=
      Or.imp id fun hc => mem_eraseIdx_of_ne hc hd (by rintro ⟨⟩)
    refine ⟨hi.flag, fun y hy => ?_, fun u n hu => ?_, fun u n hu => ?_⟩
    · refine hi.pushed y (hy.imp id ?_)
      rintro ⟨r, hr, hy⟩
      exact ⟨r, List.mem_of_mem_eraseIdx hr, hy⟩
    · exact (hi.polling u n hu).imp id (Or.imp (hmove _) id)
    · exact (hi.pending u n hu).imp (And.imp id hdue) (Or.imp (hmove _) id)
  · cases h

theorem step_inv {a : Act τ} (hi : Inv s) (h : step s a = some s') : Inv s' := by
  cases a with
  | pushFront t ok =>
    rw [step] at h
    split at h
    · cases h
      exact inv_pushFront hi t ok
    · cases h
  | swap t =>
    obtain ⟨n, hn, rfl⟩ := Option.map_eq_some_iff.mp h
    exact inv_swap hi hn
  | clear t => exact inv_clear hi h
  | takeIter i => exact inv_takeIter hi h
  | wake i => exact inv_wake hi h

/-! Steps that nobody comes between are the functions of `AsyncMutex`. -/

theorem lock_alone {t : τ} (h : s.polling t = none) :
    ∃ s', run step s [.pushFront t true, .swap t] = some s' ∧
      s'.mutex = (s.mutex.lock (t, s.tickets) true).2 ∧
      (s'.pending t = some s.tickets ↔ (s.mutex.lock (t, s.tickets) true).1 = .pending) := by
  have hpush : step s (.pushFront t true) = some (pushFront s t true) := if_pos h
  have hpoll : (pushFront s t true).polling t = some s.tickets := Function.update_self _ _ _
  refine ⟨swap (pushFront s t true) t s.tickets, ?_, ?_⟩
  · rw [run_cons, hpush, Option.bind_some, run_cons, step, hpoll]
    rfl
  · have hsame : (pushFront s t true).mutex.locked = s.mutex.locked := rfl
    rw [swap, hsame, AsyncMutex.lock, if_pos rfl]
    cases hl : s.mutex.locked with
    | false =>
      refine ⟨rfl, ?_⟩
      simp only [Bool.false_eq_true, if_false, Function.update_self, reduceCtorEq]
    | true =>
      refine ⟨?_, ?_⟩
      · simp only [if_true, pushFront, hl]
      · simp only [if_true, Function.update_self]

theorem dropGuard_alone {t : τ} (h : t ∈ s.guards) :
    ∃ s', run step s [.clear t, .takeIter 0] = some s' ∧ s'.mutex = s.mutex.dropGuard.2 ∧
      s'.drops = .waking s.mutex.dropGuard.1 :: s.drops := by
  have hclear : step s (.clear t) = some { s with
      mutex := { s.mutex with locked := false }
      guards := s.guards.erase t
      drops := .cleared :: s.drops } := if_pos h
  refine ⟨{ s with
    mutex := ⟨false, []⟩
    guards := s.guards.erase t
    drops := .waking s.mutex.wakers :: s.drops }, ?_, rfl, rfl⟩
  rw [run_cons, hclear]
  rfl

/-- There is at most one guard, and when there is none and no drop is under way,
the waker of each poll that returned `Pending` last was invoked after its push. -/
theorem no_waiter_asleep {acts : List (Act τ)} (hrun : run step (initial τ) acts = some s) :
    s.guards.length ≤ 1 ∧
    (s.guards = [] → s.drops = [] → ∀ t n, s.pending t = some n → Woken s.log (t, n)) := by
  have hi : Inv s := invariant (fun _ _ _ => step_inv) (initial_inv τ) hrun
  refine ⟨?_, fun hg hd t n ht => ?_⟩
  · rw [hi.flag]
    exact Bool.toNat_le s.mutex.locked
  · rcases hi.pending t n ht with ⟨-, hdue | hdue⟩ | ⟨rest, hr, -⟩ | hw
    · exact absurd hg hdue
    · rw [hd] at hdue
      exact absurd hdue List.not_mem_nil
    · rw [hd] at hr
      exact absurd hr List.not_mem_nil
    · exact hw

/-- Task 1 finds the mutex locked and is woken by the drop of the guard of task 0. -/
def contended : List (Act Nat) :=
  [.pushFront 0 true, .pushFront 1 true, .swap 0, .swap 1, .clear 0, .takeIter 0, .wake 0, .wake 0,
    .wake 0]

theorem no_waiter_asleep_contended :
    ∃ s, run step (initial Nat) contended = some s ∧ s.pending 1 = some 1 ∧ Woken s.log (1, 1) := by
  have hrun : (run step (initial Nat) contended).any (fun s =>
      decide (s.pending 1 = some 1) && s.guards.isEmpty && s.drops.isEmpty) = true := by decide
  obtain ⟨s, hs, hx⟩ := exists_of_any hrun
  obtain ⟨hx, hd⟩ := Bool.and_eq_true_iff.mp hx
  obtain ⟨hp, hg⟩ := Bool.and_eq_true_iff.mp hx
  have hp : s.pending 1 = some 1 := of_decide_eq_true hp
  exact ⟨s, hs, hp, (no_waiter_asleep hs).2 (List.isEmpty_iff.mp hg) (List.isEmpty_iff.mp hd) 1 1 hp⟩

end Crabos.MutexRun
