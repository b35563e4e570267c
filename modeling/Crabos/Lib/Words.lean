import Mathlib

/-!
# Word-addressed memory

A memory gives the 64-bit word stored at each (eight-byte aligned) address.
A stored pointer is the word itself, and the null word stands for no pointer.
-/
namespace Crabos.Words

abbrev Mem := Nat → Nat

/-- Clear the words of `bytes` bytes from `a` on. -/
def zero (m : Mem) (a bytes : Nat) : Mem := fun x => if a ≤ x ∧ x < a + bytes then 0 else m x

/-- The nullable pointer stored at `a`. -/
def link (m : Mem) (a : Nat) : Option Nat := if m a = 0 then none else some (m a)

theorem zero_inside (m : Mem) (a n x : Nat) (h₁ : a ≤ x) (h₂ : x < a + n) : zero m a n x = 0 := by
  simp [zero, h₁, h₂]

theorem zero_outside (m : Mem) (a n x : Nat) (h : ¬ (a ≤ x ∧ x < a + n)) : zero m a n x = m x := by
  simp [zero, h]

theorem link_update_same (m : Mem) (a : Nat) (v : Option Nat) (h : v ≠ some 0) :
    link (Function.update m a (v.getD 0)) a = v := by
  cases v with
  | none => simp [link]
  | some p =>
    have hp : p ≠ 0 := by simpa using h
    simp [link, hp]

theorem link_congr {m m' : Mem} {a : Nat} (h : m' a = m a) : link m' a = link m a := by
  simp [link, h]

end Crabos.Words
