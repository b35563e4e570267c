import Mathlib

/-!
# Cyclic order

The elements of an ascending list, taken in turn: first those behind a given
one, then the others up to it. Whoever takes the first of them again and again
meets every element before he meets one twice.
-/
namespace Crabos.Cyclic

variable {α : Type} [LinearOrder α]

def after (l : List α) (p : α) : List α :=
  l.filter (fun x => p < x) ++ l.filter (fun x => x ≤ p)

theorem mem_after {l : List α} {p x : α} (h : x ∈ after l p) : x ∈ l := by
  cases List.mem_append.mp h with
  | inl h => exact (List.mem_filter.mp h).1
  | inr h => exact (List.mem_filter.mp h).1

/-- In an ascending list the elements up to a given one come first. -/
theorem filter_ascending {l : List α} (h : l.Pairwise (· < ·)) (p : α) :
    l.filter (fun x => x ≤ p) = l.take (l.countP fun x => x ≤ p) ∧
      l.filter (fun x => p < x) = l.drop (l.countP fun x => x ≤ p) := by
  induction l with
  | nil => exact ⟨rfl, rfl⟩
  | cons a l ih =>
    obtain ⟨hbelow, hrest⟩ := List.pairwise_cons.mp h
    obtain ⟨htake, hdrop⟩ := ih hrest
    by_cases ha : a ≤ p
    · have ha' : ¬ p < a := not_lt.mpr ha
      simp [ha, ha', htake, hdrop]
    · have ha' : p < a := not_le.mp ha
      have hall : ∀ x ∈ l, p < x := fun x hx => ha'.trans (hbelow x hx)
      have hcount : (l.countP fun x => x ≤ p) = 0 := by
        rw [List.countP_eq_zero]
        intro x hx
        simpa using hall x hx
      rw [hcount] at htake hdrop
      simp [ha, ha', hcount, htake, hdrop]

theorem after_eq_rotate {l : List α} (h : l.Pairwise (· < ·)) (p : α) :
    after l p = l.rotate (l.countP fun x => x ≤ p) := by
  obtain ⟨htake, hdrop⟩ := filter_ascending h p
  rw [after, htake, hdrop, List.rotate_eq_drop_append_take List.countP_le_length]

theorem countP_getElem {l : List α} (h : l.Pairwise (· < ·)) {i : Nat} (hi : i < l.length) :
    (l.countP fun x => x ≤ l[i]) = i + 1 := by
  induction l generalizing i with
  | nil => cases hi
  | cons a l ih =>
    obtain ⟨hbelow, hrest⟩ := List.pairwise_cons.mp h
    cases i with
    | zero =>
      have hcount : (l.countP fun x => x ≤ a) = 0 := by
        rw [List.countP_eq_zero]
        intro x hx
        simpa using hbelow x hx
      simp [hcount]
    | succ i =>
      have hi' : i < l.length := Nat.lt_of_succ_lt_succ hi
      have ha : a ≤ l[i] := (hbelow _ (List.getElem_mem hi')).le
      simp [ha, ih hrest hi']

/-- The order that starts behind `p`: every element once, in ascending order from the first one
above `p` on, and `p` itself at the end. -/
structure CyclicFrom (l : List α) (p : α) (order : List α) : Prop where
  rotated : order = l.rotate (l.countP fun x => x ≤ p)
  once : order.Nodup ∧ order.Perm l
  first : ∀ y ∈ l, p < y → ∃ x, order.head? = some x ∧ p < x ∧ x ≤ y
  last : p ∈ l → order.getLast? = some p

theorem cyclicFrom_after {l : List α} (h : l.Pairwise (· < ·)) (p : α) :
    CyclicFrom l p (after l p) where
  rotated := after_eq_rotate h p
  once := by
    rw [after_eq_rotate h p, List.nodup_rotate]
    exact ⟨h.imp ne_of_lt, List.rotate_perm l _⟩
  first := by
    intro y hy hpy
    have hmem : y ∈ l.filter fun x => p < x := by
      rw [List.mem_filter]
      exact ⟨hy, by simpa using hpy⟩
    have hsorted : (l.filter fun x => p < x).Pairwise (· < ·) := h.filter _
    rw [after]
    cases hf : l.filter fun x => p < x with
    | nil =>
      rw [hf] at hmem
      cases hmem
    | cons x rest =>
      have hx : x ∈ l.filter fun x => p < x := by
        rw [hf]
        exact List.mem_cons_self
      rw [hf] at hmem hsorted
      refine ⟨x, rfl, by simpa using (List.mem_filter.mp hx).2, ?_⟩
      cases hmem with
      | head => exact le_refl _
      | tail _ hin => exact ((List.pairwise_cons.mp hsorted).1 y hin).le
  last := by
    intro hp
    obtain ⟨i, hi, rfl⟩ := List.getElem_of_mem hp
    obtain ⟨htake, -⟩ := filter_ascending h l[i]
    rw [after, htake, countP_getElem h hi, List.take_succ_eq_append_getElem hi, ← List.append_assoc]
    exact List.getLast?_concat

/-- One turn later. -/
theorem head?_after_getElem {l : List α} (h : l.Pairwise (· < ·)) {i : Nat} (hi : i < l.length) :
    (after l l[i]).head? = l[(i + 1) % l.length]? := by
  rw [after_eq_rotate h, countP_getElem h hi, List.head?_eq_getElem?,
    List.getElem?_rotate (Nat.zero_lt_of_lt hi), Nat.zero_add]

/-- Each element is the first one behind its predecessor. -/
def InTurn (l picks : List α) : Prop :=
  picks.IsChain fun a b => (after l a).head? = some b

theorem InTurn.getElem? {l picks : List α} (h : l.Pairwise (· < ·)) (hp : InTurn l picks) {i : Nat}
    (hi : i < l.length) (hfirst : picks.head? = some l[i]) {j : Nat} (hj : j < picks.length) :
    picks[j]? = l[(i + j) % l.length]? := by
  induction j generalizing picks i with
  | zero =>
    rw [← List.head?_eq_getElem?, hfirst, Nat.add_zero, Nat.mod_eq_of_lt hi, List.getElem?_eq_getElem hi]
  | succ j ih =>
    cases picks with
    | nil => cases hj
    | cons a rest =>
      cases rest with
      | nil => simp at hj
      | cons b rest =>
        cases hfirst
        obtain ⟨hab, hrest⟩ := List.isChain_cons_cons.mp hp
        have hmod : (i + 1) % l.length < l.length := Nat.mod_lt _ (Nat.zero_lt_of_lt hi)
        rw [head?_after_getElem h hi, List.getElem?_eq_getElem hmod] at hab
        have hnext := ih hrest hmod hab.symm (Nat.lt_of_succ_lt_succ hj)
        rw [List.getElem?_cons_succ, hnext, Nat.mod_add_mod, Nat.add_assoc, Nat.add_comm 1 j]

/-- As many elements in turn as there are, are all different. -/
theorem InTurn.nodup {l picks : List α} (h : l.Pairwise (· < ·)) (hp : InTurn l picks)
    (hmem : ∀ a ∈ picks, a ∈ l) (hlen : picks.length ≤ l.length) : picks.Nodup := by
  cases picks with
  | nil => exact List.nodup_nil
  | cons a rest =>
    obtain ⟨i, hi, ha⟩ := List.getElem_of_mem (hmem a List.mem_cons_self)
    have hget : ∀ j < (a :: rest).length, (a :: rest)[j]? = l[(i + j) % l.length]? := fun j hj =>
      hp.getElem? h hi (congrArg some ha.symm) hj
    rw [List.nodup_iff_getElem?_ne_getElem?]
    intro j k hjk hk heq
    have hnodup : l.Nodup := h.imp ne_of_lt
    have hpos : 0 < l.length := Nat.zero_lt_of_lt hi
    rw [hget j (hjk.trans hk), hget k hk] at heq
    have hmod := (List.getElem?_inj (Nat.mod_lt _ hpos) hnodup).mp heq
    have hdvd := (Nat.modEq_iff_dvd' (by omega)).mp (show i + j ≡ i + k [MOD l.length] from hmod)
    have hle := Nat.le_of_dvd (by omega) hdvd
    omega

end Crabos.Cyclic
