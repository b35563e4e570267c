import Mathlib

/-!
# Maps with fallible insertion

A map in the order of its keys; two maps with the same contents are equal. The
insertion of a new key needs memory, and one that fails leaves the map as it is.
-/
namespace Crabos.Maps

abbrev Map (V : Type) : Type := Std.ExtTreeMap Nat V

variable {V : Type} {t : Map V} {k a : Nat} {v : V}

/-- Whether an insertion can be made: a key that is there gets another value. -/
def fits (t : Map V) (k : Nat) (ok : Bool) : Bool := t.contains k || ok

def tryInsert (t : Map V) (k : Nat) (v : V) (ok : Bool) : Map V :=
  if fits t k ok then t.insert k v else t

theorem get_insert : (t.insert k v)[a]? = if k = a then some v else t[a]? := by
  rw [Std.ExtTreeMap.getElem?_insert]
  simp only [Nat.compare_eq_eq]

theorem get_erase : (t.erase k)[a]? = if k = a then none else t[a]? := by
  rw [Std.ExtTreeMap.getElem?_erase]
  simp only [Nat.compare_eq_eq]

theorem mem_insert : a ∈ t.insert k v ↔ k = a ∨ a ∈ t := by
  rw [Std.ExtTreeMap.mem_insert, Nat.compare_eq_eq]

theorem mem_erase : a ∈ t.erase k ↔ k ≠ a ∧ a ∈ t := by
  rw [Std.ExtTreeMap.mem_erase, ne_eq, Nat.compare_eq_eq]

theorem mem_iff : k ∈ t ↔ ∃ v, t[k]? = some v := by
  rw [Std.ExtTreeMap.mem_iff_isSome_getElem?, Option.isSome_iff_exists]

theorem get_none (h : k ∉ t) : t[k]? = none := Std.ExtTreeMap.getElem?_eq_none h

/-- An entry that was there gets another value. -/
theorem mem_insert_of_mem (h : k ∈ t) : a ∈ t.insert k v ↔ a ∈ t := by
  rw [mem_insert]
  refine ⟨?_, .inr⟩
  rintro (rfl | ha)
  · exact h
  · exact ha

theorem fits_of_mem (h : k ∈ t) (ok : Bool) : fits t k ok = true := by
  rw [fits, Std.ExtTreeMap.mem_iff_contains.mp h]
  rfl

theorem fits_of_not_mem (h : k ∉ t) (ok : Bool) : fits t k ok = ok := by
  have hno : t.contains k = false := by
    rw [← Bool.not_eq_true, ← Std.ExtTreeMap.mem_iff_contains]
    exact h
  rw [fits, hno]
  rfl

theorem get_tryInsert_ne (h : k ≠ a) (v : V) (ok : Bool) : (tryInsert t k v ok)[a]? = t[a]? := by
  rw [tryInsert]
  split
  · exact get_insert.trans (if_neg h)
  · rfl

theorem mem_tryInsert (h : a ∈ t) (v : V) (ok : Bool) : a ∈ tryInsert t k v ok := by
  rw [tryInsert]
  split
  · exact mem_insert.mpr (.inr h)
  · exact h

/-- An insertion that can be made is made. -/
theorem mem_tryInsert_self {ok : Bool} (h : fits t k ok = true) (v : V) : k ∈ tryInsert t k v ok := by
  rw [tryInsert, if_pos h]
  exact mem_insert.mpr (.inl rfl)

theorem tryInsert_full {ok : Bool} (h : fits t k ok = false) (v : V) : tryInsert t k v ok = t := by
  rw [tryInsert, h]
  rfl

end Crabos.Maps
