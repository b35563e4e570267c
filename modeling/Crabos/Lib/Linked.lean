import Mathlib

/-!
# Linked lists threaded through a memory

`next a` is the link stored at address `a`. A chain from a head is the list of
addresses met by following the links until there is none; it exists only when
the links do not run into a cycle, so it has no duplicates.
-/
namespace Crabos.Linked

variable {α : Type}

/-- Following `next` from `head` visits exactly the addresses of the list. -/
def Chain (next : α → Option α) : Option α → List α → Prop
  | head, [] => head = none
  | head, a :: l => head = some a ∧ Chain next (next a) l

@[simp] theorem chain_nil (next : α → Option α) (head : Option α) :
    Chain next head [] ↔ head = none := Iff.rfl

@[simp] theorem chain_cons (next : α → Option α) (head : Option α) (a : α) (l : List α) :
    Chain next head (a :: l) ↔ head = some a ∧ Chain next (next a) l := Iff.rfl

/-- The list is determined by the head and the links. -/
theorem chain_unique {next : α → Option α} {head : Option α} {l m : List α}
    (hl : Chain next head l) (hm : Chain next head m) : l = m := by
  induction l generalizing head m with
  | nil =>
    cases m with
    | nil => rfl
    | cons b m => simp_all
  | cons a l ih =>
    cases m with
    | nil => simp_all
    | cons b m =>
      have hab : a = b := by
        have h := hl.1.symm.trans hm.1
        simpa using h
      subst hab
      rw [ih hl.2 hm.2]

/-- Only the links of the listed addresses matter. -/
theorem chain_congr {next next' : α → Option α} {head : Option α} {l : List α}
    (h : ∀ a ∈ l, next' a = next a) (hl : Chain next head l) : Chain next' head l := by
  induction l generalizing head with
  | nil => exact hl
  | cons a l ih =>
    refine ⟨hl.1, ?_⟩
    rw [h a (by simp)]
    exact ih (fun b hb => h b (by simp [hb])) hl.2

/-- Every suffix of a chain is the chain of the link in front of it. -/
theorem chain_suffix {next : α → Option α} {head : Option α} {l m : List α} {a : α}
    (h : Chain next head (l ++ a :: m)) : Chain next (next a) m := by
  induction l generalizing head with
  | nil => exact h.2
  | cons b l ih => exact ih h.2

theorem chain_nodup {next : α → Option α} {head : Option α} {l : List α}
    (h : Chain next head l) : l.Nodup := by
  induction l generalizing head with
  | nil => exact List.nodup_nil
  | cons a l ih =>
    refine List.nodup_cons.mpr ⟨?_, ih h.2⟩
    intro ha
    -- a second visit to `a` would make its own tail a proper suffix of itself
    obtain ⟨p, q, he⟩ := List.append_of_mem ha
    subst he
    have hq := chain_unique h.2 (chain_suffix h.2)
    have hlen := congrArg List.length hq
    simp at hlen
    omega

end Crabos.Linked
