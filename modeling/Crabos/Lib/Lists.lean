import Mathlib

/-!
# Facts about lists
-/
namespace Crabos.Lists

variable {α β : Type}

/-- Every element has its partner. -/
theorem forall₂_mem {R : α → β → Prop} {l : List α} {m : List β}
    (h : List.Forall₂ R l m) {a : α} (ha : a ∈ l) : ∃ b ∈ m, R a b := by
  induction h with
  | nil => exact absurd ha List.not_mem_nil
  | cons hab _ ih =>
    cases ha with
    | head => exact ⟨_, List.mem_cons_self, hab⟩
    | tail _ ha =>
      obtain ⟨b, hb, hr⟩ := ih ha
      exact ⟨b, List.mem_cons_of_mem _ hb, hr⟩

/-- Blocks of one size: what follows the first `i` of them. -/
theorem drop_blocks {f : Nat → List α} {m n i : Nat} (hf : ∀ j, (f j).length = m)
    (hi : i < n) : ((List.range n).flatMap f).drop (i * m) =
      f i ++ ((List.range n).flatMap f).drop ((i + 1) * m) := by
  induction i generalizing f n with
  | zero =>
    obtain ⟨n, rfl⟩ := Nat.exists_eq_succ_of_ne_zero (by omega : n ≠ 0)
    rw [List.range_succ_eq_map, List.flatMap_cons, Nat.zero_mul, List.drop_zero, Nat.zero_add,
      Nat.one_mul, List.drop_left' (hf 0)]
  | succ i ih =>
    obtain ⟨n, rfl⟩ := Nat.exists_eq_succ_of_ne_zero (by omega : n ≠ 0)
    have hskip : ∀ k, (f 0 ++ (List.range n).flatMap (f ∘ Nat.succ)).drop ((k + 1) * m) =
        ((List.range n).flatMap (f ∘ Nat.succ)).drop (k * m) := by
      intro k
      rw [Nat.succ_mul, Nat.add_comm, ← List.drop_drop, List.drop_left' (hf 0)]
    rw [List.range_succ_eq_map, List.flatMap_cons, List.flatMap_map]
    change (f 0 ++ (List.range n).flatMap (f ∘ Nat.succ)).drop _ =
      _ ++ (f 0 ++ (List.range n).flatMap (f ∘ Nat.succ)).drop _
    rw [hskip, hskip]
    exact ih (fun j => hf _) (by omega)

variable [BEq α] [LawfulBEq α] [BEq β] [LawfulBEq β]

/-- Erasing commutes with a map that is injective on the list. -/
theorem map_erase_of_nodup (f : α → β) {l : List α} {b : α} (hn : (l.map f).Nodup)
    (hb : b ∈ l) : (l.erase b).map f = (l.map f).erase (f b) := by
  induction l with
  | nil => cases hb
  | cons c l ih =>
    rw [List.map_cons, List.nodup_cons] at hn
    by_cases he : c = b
    · subst he
      simp
    · have hb' : b ∈ l := by
        rcases List.mem_cons.mp hb with h | h
        · exact absurd h.symm he
        · exact h
      have hne : f c ≠ f b := by
        intro hs
        exact hn.1 (hs ▸ List.mem_map_of_mem hb')
      rw [List.erase_cons_tail (by simpa using he), List.map_cons, List.map_cons,
        List.erase_cons_tail (by simpa using hne), ih hn.2 hb']

end Crabos.Lists
