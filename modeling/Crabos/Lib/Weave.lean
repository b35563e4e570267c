import Mathlib

/-!
# Lists woven from subtree contents and separators

The contents of a search tree node in key order: the contents of the children
with one separator between each two of them. Looking at one child splits the
weave in what comes before it and what comes after it.
-/
namespace Crabos.Weave

variable {α : Type}

/-- The lists in order, with the separators between them. -/
def weave : List (List α) → List α → List α
  | l :: ls, x :: xs => l ++ x :: weave ls xs
  | l :: _, [] => l
  | [], _ => []

/-- Lists, each with the separator to its right. -/
def before (ls : List (List α)) (xs : List α) : List α :=
  (ls.zip xs).flatMap fun p => p.1 ++ [p.2]

/-- Separators, each with the list to its right. -/
def after (xs : List α) (ls : List (List α)) : List α :=
  (xs.zip ls).flatMap fun p => p.1 :: p.2

@[simp] theorem after_nil (ls : List (List α)) : after [] ls = [] := rfl

@[simp] theorem after_cons (x : α) (xs : List α) (l : List α) (ls : List (List α)) :
    after (x :: xs) (l :: ls) = x :: l ++ after xs ls := rfl

@[simp] theorem before_nil (xs : List α) : before [] xs = [] := rfl

@[simp] theorem before_cons (l : List α) (ls : List (List α)) (x : α) (xs : List α) :
    before (l :: ls) (x :: xs) = l ++ [x] ++ before ls xs := rfl

theorem weave_cons (l : List α) {rs : List (List α)} {ys : List α} (h : rs.length = ys.length) :
    weave (l :: rs) ys = l ++ after ys rs := by
  induction ys generalizing l rs with
  | nil => simp [weave]
  | cons y ys ih =>
    cases rs with
    | nil => cases h
    | cons r rs => rw [weave, ih r (by simpa using h), after_cons, List.cons_append]

/-- One child of the weave, with everything to its left and to its right. -/
theorem weave_focus {ls rs : List (List α)} {xs ys : List α} (l : List α)
    (h₁ : ls.length = xs.length) (h₂ : rs.length = ys.length) :
    weave (ls ++ l :: rs) (xs ++ ys) = before ls xs ++ l ++ after ys rs := by
  induction ls generalizing xs with
  | nil =>
    cases xs with
    | nil => simpa using weave_cons l h₂
    | cons x xs => cases h₁
  | cons l' ls ih =>
    cases xs with
    | nil => cases h₁
    | cons x xs =>
      rw [List.cons_append, List.cons_append, weave, ih (by simpa using h₁), before_cons]
      simp

/-- A separator splits the weave in two weaves. -/
theorem weave_split {ls : List (List α)} (rs : List (List α)) {xs : List α} (x : α) (ys : List α)
    (h : ls.length = xs.length + 1) :
    weave (ls ++ rs) (xs ++ x :: ys) = weave ls xs ++ x :: weave rs ys := by
  induction xs generalizing ls with
  | nil =>
    match ls, h with
    | [l], _ => simp [weave]
  | cons x' xs ih =>
    cases ls with
    | nil => cases h
    | cons l ls =>
      rw [List.cons_append, List.cons_append, weave, weave, ih (by simpa using h)]
      simp

/-- In an ordered weave everything before a child is at most some separator before it. -/
theorem before_bound {r : α → α → Prop} {ls : List (List α)} {xs : List α}
    (h : (before ls xs).Pairwise r) : ∀ a ∈ before ls xs, ∃ x ∈ xs, a = x ∨ r a x := by
  induction ls generalizing xs with
  | nil => simp
  | cons l ls ih =>
    cases xs with
    | nil => simp [before]
    | cons x xs =>
      rw [before_cons] at h ⊢
      obtain ⟨hl, hr, -⟩ := List.pairwise_append.mp h
      intro a ha
      rcases List.mem_append.mp ha with ha | ha
      · refine ⟨x, by simp, ?_⟩
        rcases List.mem_append.mp ha with ha | ha
        · exact .inr ((List.pairwise_append.mp hl).2.2 a ha x (by simp))
        · exact .inl (by simpa using ha)
      · obtain ⟨y, hy, hay⟩ := ih hr a ha
        exact ⟨y, by simp [hy], hay⟩

theorem after_bound {r : α → α → Prop} {xs : List α} {ls : List (List α)}
    (h : (after xs ls).Pairwise r) : ∀ a ∈ after xs ls, ∃ x ∈ xs, a = x ∨ r x a := by
  induction xs generalizing ls with
  | nil => simp
  | cons x xs ih =>
    cases ls with
    | nil => simp [after]
    | cons l ls =>
      rw [after_cons] at h ⊢
      obtain ⟨hl, hr, -⟩ := List.pairwise_append.mp h
      intro a ha
      rcases List.mem_append.mp ha with ha | ha
      · refine ⟨x, by simp, ?_⟩
        rcases List.mem_cons.mp ha with ha | ha
        · exact .inl ha
        · exact .inr ((List.pairwise_cons.mp hl).1 a ha)
      · obtain ⟨y, hy, hay⟩ := ih hr a ha
        exact ⟨y, by simp [hy], hay⟩

/-- The separators alone are part of the weave, in order. -/
theorem sublist_weave {ls : List (List α)} {xs : List α} (h : ls.length = xs.length + 1) :
    xs.Sublist (weave ls xs) := by
  induction xs generalizing ls with
  | nil => simp
  | cons x xs ih =>
    cases ls with
    | nil => cases h
    | cons l ls =>
      rw [weave]
      exact (List.Sublist.cons_cons x (ih (by simpa using h))).trans (List.sublist_append_right _ _)

/-- Putting a new element where it belongs keeps an ordered list ordered. -/
theorem pairwise_insert {r : α → α → Prop} {xs ys : List α} {a : α} (h : (xs ++ ys).Pairwise r)
    (hx : ∀ x ∈ xs, r x a) (hy : ∀ y ∈ ys, r a y) : (xs ++ a :: ys).Pairwise r := by
  obtain ⟨h₁, h₂, h₃⟩ := List.pairwise_append.mp h
  refine List.pairwise_append.mpr ⟨h₁, List.pairwise_cons.mpr ⟨hy, h₂⟩, ?_⟩
  intro x hxm y hym
  rcases List.mem_cons.mp hym with rfl | hym
  · exact hx x hxm
  · exact h₃ x hxm y hym

theorem insertIdx_append_left {xs : List α} (ys : List α) (a : α) {i : Nat} (h : i ≤ xs.length) :
    (xs ++ ys).insertIdx i a = xs.insertIdx i a ++ ys := by
  induction xs generalizing i with
  | nil =>
    have hi : i = 0 := by simpa using h
    simp [hi]
  | cons x xs ih =>
    cases i with
    | zero => simp
    | succ i => simpa using ih (by simpa using h)

theorem insertIdx_append_right (xs ys : List α) (a : α) (i : Nat) :
    (xs ++ ys).insertIdx (xs.length + i) a = xs ++ ys.insertIdx i a := by
  induction xs with
  | nil => simp
  | cons x xs ih =>
    rw [List.length_cons, Nat.add_right_comm, List.cons_append, List.insertIdx_succ_cons, ih,
      List.cons_append]

/-- A list that is long enough has an element at the index, between the two rests. -/
theorem exists_split {l : List α} {i : Nat} (h : i < l.length) :
    ∃ xs a ys, l = xs ++ a :: ys ∧ xs.length = i :=
  ⟨l.take i, l[i], l.drop (i + 1), by simp, by simp; omega⟩

end Crabos.Weave
