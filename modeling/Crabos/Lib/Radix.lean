import Crabos.Lib.Words

/-!
# Tables of tables in memory

A table is a row of words, and `next` reads a word as the address of another
table. A list of indices leads from one table to the next. Tables are told
apart by the indices that lead to them, and the lemmas say which words have to
stay as they are for a way through the tables not to change.
-/
namespace Crabos.Radix

open Crabos.Words

section

variable (next : Nat → Option Nat)

/-- Index `i` of the table at `t`. -/
def slot (t i : Nat) : Nat := t + 8 * i

/-- The table that the indices lead to. -/
def find (mem : Mem) : Nat → List Nat → Option Nat
  | t, [] => some t
  | t, i :: is => (next (mem (slot t i))).bind fun u => find mem u is

/-- The words that are read on the way, up to the first that leads nowhere. -/
def entries (mem : Mem) : Nat → List Nat → List Nat
  | _, [] => []
  | t, i :: is => mem (slot t i) ::
    match next (mem (slot t i)) with
    | some u => entries mem u is
    | none => []

/-- How many tables are missing on the way. -/
def missing (mem : Mem) : Nat → List Nat → Nat
  | _, [] => 0
  | t, i :: is =>
    match next (mem (slot t i)) with
    | some u => missing mem u is
    | none => is.length + 1

/-- Word `j` of the table that the indices lead to, or zero if an entry on the
way is zero. The way is broken at any other entry that leads nowhere. -/
def lookup (mem : Mem) : Nat → List Nat → Nat → Option Nat
  | t, [], j => some (mem (slot t j))
  | t, i :: is, j =>
    if mem (slot t i) = 0 then some 0
    else (next (mem (slot t i))).bind fun u => lookup mem u is j

end

variable {next : Nat → Option Nat} {mem mem' : Mem} {width : Nat}

/-- Words of distinct tables are distinct. -/
theorem slot_inj {size t u i j : Nat} (hs : size = 8 * width) (ht : size ∣ t) (hu : size ∣ u)
    (hi : i < width) (hj : j < width) (h : slot t i = slot u j) : t = u ∧ i = j := by
  obtain ⟨k, rfl⟩ := ht
  obtain ⟨n, rfl⟩ := hu
  subst hs
  have hw : width * k + i = width * n + j := by
    have h8 : 8 * (width * k + i) = 8 * (width * n + j) := by
      rw [slot, slot, Nat.mul_assoc, Nat.mul_assoc] at h
      omega
    omega
  have hk : k = n := by
    have hdiv := congrArg (· / width) hw
    simp only [Nat.mul_add_div (by omega : 0 < width), Nat.div_eq_of_lt hi,
      Nat.div_eq_of_lt hj] at hdiv
    omega
  subst hk
  exact ⟨rfl, by omega⟩

theorem find_append (t : Nat) (is js : List Nat) :
    find next mem t (is ++ js) = (find next mem t is).bind fun u => find next mem u js := by
  induction is generalizing t with
  | nil => rfl
  | cons i is ih =>
    rw [List.cons_append, find, find]
    cases next (mem (slot t i)) with
    | none => rfl
    | some u => exact ih u

theorem find_snoc {t u w : Nat} {is : List Nat} {i : Nat} (h : find next mem t is = some u)
    (hw : next (mem (slot u i)) = some w) : find next mem t (is ++ [i]) = some w := by
  rw [find_append, h]
  simp [find, hw]

theorem find_concat (t : Nat) (is : List Nat) (i : Nat) :
    find next mem t (is ++ [i]) =
      (find next mem t is).bind fun u => next (mem (slot u i)) := by
  rw [find_append]
  congr
  funext u
  exact Option.bind_fun_some _

/-- A way is decided by the words of the tables on it. -/
theorem find_congr {t : Nat} {is : List Nat}
    (h : ∀ js i u, js ++ [i] <+: is → find next mem t js = some u →
      mem' (slot u i) = mem (slot u i)) : find next mem' t is = find next mem t is := by
  induction is using List.reverseRecOn with
  | nil => rfl
  | append_singleton is i ih =>
    have hway : find next mem' t is = find next mem t is :=
      ih fun js j u hjs => h js j u (hjs.trans (List.prefix_append is [i]))
    rw [find_concat, find_concat, hway]
    cases hf : find next mem t is with
    | none => rfl
    | some u =>
      rw [Option.bind_some, Option.bind_some, h is i u (List.prefix_refl _) hf]

theorem entries_append {t u : Nat} {is : List Nat} (h : find next mem t is = some u) (js : List Nat) :
    entries next mem t (is ++ js) = entries next mem t is ++ entries next mem u js := by
  induction is generalizing t with
  | nil =>
    cases h
    rfl
  | cons i is ih =>
    rw [find] at h
    obtain ⟨v, hv, h⟩ := Option.bind_eq_some_iff.mp h
    rw [List.cons_append, entries, entries, hv, List.cons_append]
    exact congrArg _ (ih h)

theorem entries_snoc {t u : Nat} {is : List Nat} (h : find next mem t is = some u) (i : Nat) :
    entries next mem t (is ++ [i]) = entries next mem t is ++ [mem (slot u i)] := by
  rw [entries_append h, entries]
  cases next (mem (slot u i)) with
  | none => rfl
  | some v => rfl

/-- Each table has one place, the indices that lead to it. At the admissible
places an entry leads to the table that is placed there. -/
structure Placed (next : Nat → Option Nat) (place : Nat → Option (List Nat)) (W : List Nat → Prop)
    (mem : Mem) : Prop where
  left : ∀ p q, W (p ++ q) → W p
  child : ∀ t p i u, place t = some p → W (p ++ [i]) → next (mem (slot t i)) = some u →
    place u = some (p ++ [i])

section placed

variable {place : Nat → Option (List Nat)} {W : List Nat → Prop} {t u : Nat} {p is : List Nat}

theorem Placed.step (hp : Placed next place W mem) {i : Nat} (ht : place t = some p)
    (hw : W (p ++ i :: is)) (hu : next (mem (slot t i)) = some u) :
    place u = some (p ++ [i]) ∧ W ((p ++ [i]) ++ is) := by
  rw [List.append_cons] at hw
  exact ⟨hp.child t p i u ht (hp.left _ _ hw) hu, hw⟩

theorem Placed.place_find (hp : Placed next place W mem) (ht : place t = some p) (hw : W (p ++ is))
    (h : find next mem t is = some u) : place u = some (p ++ is) := by
  induction is generalizing t p with
  | nil =>
    cases h
    rwa [List.append_nil]
  | cons i is ih =>
    rw [find] at h
    obtain ⟨v, hv, h⟩ := Option.bind_eq_some_iff.mp h
    obtain ⟨hpv, hwv⟩ := hp.step ht hw hv
    rw [List.append_cons]
    exact ih hpv hwv h

/-- A way is still there when the entries that led on are unchanged. -/
theorem Placed.find_mono (hp : Placed next place W mem)
    (hsame : ∀ t p i u, place t = some p → W (p ++ [i]) → next (mem (slot t i)) = some u →
      mem' (slot t i) = mem (slot t i)) (ht : place t = some p) (hw : W (p ++ is))
    (h : find next mem t is = some u) : find next mem' t is = some u := by
  induction is generalizing t p with
  | nil => exact h
  | cons i is ih =>
    rw [find] at h
    obtain ⟨v, hv, h⟩ := Option.bind_eq_some_iff.mp h
    obtain ⟨hpv, hwv⟩ := hp.step ht hw hv
    rw [find, hsame t p i v ht (hp.left _ _ hwv) hv, hv]
    exact ih hpv hwv h

theorem Placed.find_congr (hp : Placed next place W mem)
    (hsame : ∀ t p i, place t = some p → W (p ++ [i]) → mem' (slot t i) = mem (slot t i))
    (ht : place t = some p) (hw : W (p ++ is)) : find next mem' t is = find next mem t is := by
  induction is generalizing t p with
  | nil => rfl
  | cons i is ih =>
    have hwi : W (p ++ [i]) := by
      rw [List.append_cons] at hw
      exact hp.left _ _ hw
    rw [find, find, hsame t p i ht hwi]
    cases hv : next (mem (slot t i)) with
    | none => rfl
    | some v =>
      obtain ⟨hpv, hwv⟩ := hp.step ht hw hv
      exact ih hpv hwv

/-- Where every entry is zero or leads on, a lookup gives a word or zero. -/
theorem Placed.lookup_eq (hp : Placed next place W mem)
    (hzero : ∀ t p i, place t = some p → W (p ++ [i]) →
      mem (slot t i) = 0 ∨ ∃ u, next (mem (slot t i)) = some u) (h0 : next 0 = none)
    (ht : place t = some p) (hw : W (p ++ is)) (j : Nat) :
    lookup next mem t is j = some ((find next mem t is).elim 0 fun u => mem (slot u j)) := by
  induction is generalizing t p with
  | nil => rfl
  | cons i is ih =>
    have hwi : W (p ++ [i]) := by
      rw [List.append_cons] at hw
      exact hp.left _ _ hw
    rw [lookup, find]
    rcases hzero t p i ht hwi with hz | ⟨v, hv⟩
    · rw [hz, if_pos rfl, h0]
      rfl
    · have hne : mem (slot t i) ≠ 0 := by
        intro hz
        rw [hz, h0] at hv
        cases hv
      obtain ⟨hpv, hwv⟩ := hp.step ht hw hv
      rw [if_neg hne, hv]
      exact ih hpv hwv

/-- A way and the words on it are unchanged if its words are. -/
theorem Placed.way_congr (hp : Placed next place W mem) {full : List Nat}
    (hsame : ∀ t p i js, place t = some p → p ++ i :: js = full →
      mem' (slot t i) = mem (slot t i)) (ht : place t = some p) (hfull : p ++ is = full)
    (hw : W (p ++ is.dropLast)) :
    find next mem' t is = find next mem t is ∧ entries next mem' t is = entries next mem t is := by
  induction is generalizing t p with
  | nil => exact ⟨rfl, rfl⟩
  | cons i is ih =>
    have hword := hsame t p i is ht hfull
    rw [find, find, entries, entries, hword]
    cases hu : next (mem (slot t i)) with
    | none => exact ⟨rfl, rfl⟩
    | some u =>
      cases is with
      | nil => exact ⟨rfl, rfl⟩
      | cons j is =>
        obtain ⟨hpu, hwu⟩ := hp.step ht hw hu
        obtain ⟨hf, he⟩ := ih hpu (by rw [List.append_assoc]; exact hfull) hwu
        exact ⟨hf, congrArg _ he⟩

end placed

/-- A way is still there, with the same words, if the words that lead on are. -/
theorem way_mono (hsame : ∀ a u, next (mem a) = some u → mem' a = mem a) {t u : Nat} {is : List Nat}
    (h : find next mem t is = some u) :
    find next mem' t is = some u ∧ entries next mem' t is = entries next mem t is := by
  induction is generalizing t with
  | nil => exact ⟨h, rfl⟩
  | cons i is ih =>
    rw [find] at h
    obtain ⟨v, hv, h⟩ := Option.bind_eq_some_iff.mp h
    obtain ⟨hf, he⟩ := ih h
    rw [find, entries, entries, hsame _ v hv, hv]
    exact ⟨hf, congrArg _ he⟩

theorem find_of_lookup {t j e : Nat} {is : List Nat} (h : lookup next mem t is j = some e)
    (h0 : e ≠ 0) : ∃ u, find next mem t is = some u ∧ mem (slot u j) = e := by
  induction is generalizing t with
  | nil => exact ⟨t, rfl, Option.some.inj h⟩
  | cons i is ih =>
    rw [lookup] at h
    split at h
    · cases h
      exact absurd rfl h0
    · obtain ⟨v, hv, h⟩ := Option.bind_eq_some_iff.mp h
      rw [find, hv]
      exact ih h

theorem lookup_of_find {t u j : Nat} {is : List Nat} (h0 : next 0 = none)
    (h : find next mem t is = some u) : lookup next mem t is j = some (mem (slot u j)) := by
  induction is generalizing t with
  | nil =>
    cases h
    rfl
  | cons i is ih =>
    obtain ⟨v, hv, h⟩ := Option.bind_eq_some_iff.mp h
    have hne : mem (slot t i) ≠ 0 := by
      intro hz
      rw [hz, h0] at hv
      cases hv
    rw [lookup, if_neg hne, hv, Option.bind_some]
    exact ih h

/-- What a lookup finds is decided by the words on its way. -/
theorem lookup_congr {t j : Nat} {is : List Nat}
    (h : entries next mem' t (is ++ [j]) = entries next mem t (is ++ [j])) :
    lookup next mem' t is j = lookup next mem t is j := by
  induction is generalizing t with
  | nil => rw [lookup, lookup, (List.cons.inj h).1]
  | cons i is ih =>
    obtain ⟨he, htail⟩ := List.cons.inj h
    rw [he] at htail
    rw [lookup, lookup, he]
    cases hw : next (mem (slot t i)) with
    | none => rfl
    | some w =>
      rw [hw] at htail
      simp only [Option.bind_some]
      rw [ih htail]

theorem missing_of_next {t u i : Nat} (h : next (mem (slot t i)) = some u) (is : List Nat) :
    missing next mem t (i :: is) = missing next mem u is := by
  rw [missing, h]

theorem missing_of_none {t i : Nat} (h : next (mem (slot t i)) = none) (is : List Nat) :
    missing next mem t (i :: is) = is.length + 1 := by
  rw [missing, h]

/-- The ways to the tables decide which of them are missing. -/
theorem missing_congr {t : Nat} {is : List Nat}
    (h : ∀ js, js <+: is → find next mem' t js = find next mem t js) :
    missing next mem' t is = missing next mem t is := by
  induction is generalizing t with
  | nil => rfl
  | cons i is ih =>
    have hfind : ∀ mem : Mem, find next mem t [i] = next (mem (slot t i)) := by
      intro mem
      exact Option.bind_fun_some _
    have hnext : next (mem' (slot t i)) = next (mem (slot t i)) := by
      rw [← hfind, ← hfind]
      exact h [i] ⟨is, rfl⟩
    cases hu : next (mem (slot t i)) with
    | none => rw [missing_of_none (hnext.trans hu), missing_of_none hu]
    | some u =>
      rw [missing_of_next (hnext.trans hu), missing_of_next hu]
      apply ih
      intro js hjs
      have hway := h (i :: js) ((List.cons_prefix_cons).mpr ⟨rfl, hjs⟩)
      simp only [find, hnext, hu, Option.bind_some] at hway
      exact hway

/-- An empty table has no other one behind it. -/
theorem missing_empty {t : Nat} {is : List Nat} (h0 : next 0 = none)
    (h : ∀ i ∈ is, mem (slot t i) = 0) : missing next mem t is = is.length := by
  cases is with
  | nil => rfl
  | cons i is =>
    rw [missing_of_none, List.length_cons]
    rw [h i List.mem_cons_self, h0]

end Crabos.Radix
