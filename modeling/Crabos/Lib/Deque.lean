import Mathlib

/-!
# Lists taken apart from both ends

What an iterator yields when it is called in any order at its two ends. An
iterator of any other state type yields the same as the list that it stands
for, if each single call does.
-/
namespace Crabos.Deque

inductive Side where
  | front
  | back
  deriving DecidableEq, Repr

variable {α σ : Type}

/-- Take the element at one end, if there is one. -/
def pull (l : List α) : Side → Option α × List α
  | .front => (l.head?, l.tail)
  | .back => (l.getLast?, l.dropLast)

/-- What a row of calls takes from the list. -/
def pulls : List α → List Side → List (Option α)
  | _, [] => []
  | l, s :: ss => (pull l s).1 :: pulls (pull l s).2 ss

/-- A row of calls of an iterator; `none` is a call that goes wrong. -/
def calls (next : σ → Side → Option (Option α × σ)) : σ → List Side → Option (List (Option α))
  | _, [] => some []
  | s, side :: sides => (next s side).bind fun (a, s') => (calls next s' sides).map (a :: ·)

@[simp] theorem pull_nil (s : Side) : pull ([] : List α) s = (none, []) := by
  cases s <;> rfl

@[simp] theorem pull_front (a : α) (l : List α) : pull (a :: l) .front = (some a, l) := rfl

@[simp] theorem pull_back (l : List α) (a : α) : pull (l ++ [a]) .back = (some a, l) := by
  simp [pull]

/-- An iterator whose calls follow those of a list yields what the list does. -/
theorem calls_eq_pulls {next : σ → Side → Option (Option α × σ)} {R : σ → List α → Prop}
    (hnext : ∀ s l side, R s l →
      ∃ s', next s side = some ((pull l side).1, s') ∧ R s' (pull l side).2)
    {s : σ} {l : List α} (h : R s l) (sides : List Side) :
    calls next s sides = some (pulls l sides) := by
  induction sides generalizing s l with
  | nil => rfl
  | cons side sides ih =>
    obtain ⟨s', hs, hr⟩ := hnext s l side h
    simp [calls, pulls, hs, ih hr]

end Crabos.Deque
