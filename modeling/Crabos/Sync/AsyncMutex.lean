import Mathlib

/-!
# The mutex of asynchronous code (`kernel/src/sync/async_mutex.rs`)

A poll of `lock` always leaves the waker of its task in the list, also when it
gets the lock. Dropping the guard takes the whole list and invokes it. The
list is an `AtomicList`: the last pushed waker comes first.
-/
namespace Crabos

/-- A mutex whose wakers belong to the tasks of type `τ`. -/
structure AsyncMutex (τ : Type) where
  locked : Bool
  wakers : List τ

namespace AsyncMutex

variable {τ : Type}

def new : AsyncMutex τ := ⟨false, []⟩

inductive LockPoll where
  | exhausted
  | guard
  | pending
  deriving DecidableEq, Repr

/-- One poll of the future of `lock`; `push` says if `push_front` finds memory. -/
def lock (m : AsyncMutex τ) (task : τ) (push : Bool) : LockPoll × AsyncMutex τ :=
  if push then
    (if m.locked then .pending else .guard, ⟨true, task :: m.wakers⟩)
  else (.exhausted, m)

/-- `AsyncMutexGuard::drop`, with the wakers that it invokes. -/
def dropGuard (m : AsyncMutex τ) : List τ × AsyncMutex τ := (m.wakers, ⟨false, []⟩)

end AsyncMutex

end Crabos
