import Crabos.Mem.PageInv

/-!
# The window in the hardware (`kernel/src/mem/page.rs`)

The translation of the processor with all it looks at: addresses are canonical
or fault, an entry has 40 bits of address, and above the last level it may map a
large page. An address in the window goes round through the PML4 before it goes
down, so that the entry of some level is taken for the page that it ends in.
-/
namespace Crabos.Page

open Crabos.Words Crabos.Radix Crabos.Interface Crabos.User

def Present (e : Nat) : Prop := e % 2 = 1

instance (e : Nat) : Decidable (Present e) := inferInstanceAs (Decidable (_ = _))

/-- `PAGE_HUGE`; in an entry of the last level the bit has another meaning. -/
def Large (e : Nat) : Prop := e / 2 ^ 7 % 2 = 1

instance (e : Nat) : Decidable (Large e) := inferInstanceAs (Decidable (_ = _))

/-- The address in an entry with `n` levels of tables left out below it. -/
def pageAddress (n e : Nat) : Nat := e / 2 ^ (12 + 9 * n) % 2 ^ (40 - 9 * n) * 2 ^ (12 + 9 * n)

/-- The table that an entry refers to. -/
def refers (e : Nat) : Option Nat :=
  if Present e ∧ ¬ Large e then some (pageAddress 0 e) else none

/-- The index of an address into a table with `n` levels of tables below it. -/
def digit (virt n : Nat) : Nat := virt / 2 ^ (12 + 9 * n) % 512

def digits (virt : Nat) : Nat → List Nat
  | 0 => []
  | n + 1 => digit virt n :: digits virt n

/-- Down from a table of level `n`; the bit of a large page is reserved in a PML4. -/
def descend (mem : Mem) (virt : Nat) : Nat → Nat → Option Nat
  | 0, t => some (t + virt % PAGE_SIZE)
  | n + 1, t =>
    let e := mem (slot t (digit virt n))
    if ¬ Present e then none
    else if n ≠ 0 ∧ Large e then
      if n = 3 then none else some (pageAddress n e + virt % 2 ^ (12 + 9 * n))
    else descend mem virt n (pageAddress 0 e)

/-- The upper bits of an address are all the same. -/
def Canonical (virt : Nat) : Prop := virt < 2 ^ 47 ∨ 2 ^ 64 - 2 ^ 47 ≤ virt ∧ virt < 2 ^ 64

instance (virt : Nat) : Decidable (Canonical virt) := inferInstanceAs (Decidable (_ ∨ _ ∧ _))

def translate (mem : Mem) (cr3 virt : Nat) : Option Nat :=
  if Canonical virt then descend mem virt 4 cr3 else none

/-- The word of a level that the translation consults, if there are the tables above it. -/
def consulted (mem : Mem) (cr3 virt level : Nat) : Option Nat :=
  (find refers mem cr3 ((digits virt 4).take (4 - level))).map fun t => slot t (digit virt (level - 1))

/-- `pml4_entry` to `pml1_entry` with `CURRENT_PML`. -/
def pmlEntry (virt : Nat) : Nat → Nat
  | 4 => pml4Entry virt
  | 3 => pml3Entry virt
  | 2 => pml2Entry virt
  | _ => pml1Entry virt

/-! The addresses that `each_phys` reads. -/

def eachPml4 (i₄ : Nat) : Nat := 0xfffffffffffff000 + 8 * i₄

def eachPml3 (i₄ i₃ : Nat) : Nat := 0xffffffffffe00000 + 8 * (i₄ <<< 9 ||| i₃)

def eachPml2 (i₄ i₃ i₂ : Nat) : Nat := 0xffffffffc0000000 + 8 * (i₄ <<< 18 ||| i₃ <<< 9 ||| i₂)

def eachPml1 (i₄ i₃ i₂ i₁ : Nat) : Nat :=
  0xffffff8000000000 + 8 * (i₄ <<< 27 ||| i₃ <<< 18 ||| i₂ <<< 9 ||| i₁)

theorem digits_indices (virt : Nat) : digits virt 4 = indices virt := rfl

section hardware

variable {mem : Mem} {virt cr3 t u : Nat}

theorem refers_some {e : Nat} (h : refers e = some u) : Present e ∧ ¬ Large e ∧ u = pageAddress 0 e := by
  rw [refers] at h
  split at h
  · rename_i hp
    cases h
    exact ⟨hp.1, hp.2, rfl⟩
  · cases h

/-- As far as entries refer to tables, the translation follows them. -/
theorem descend_find (n k : Nat) (h : find refers mem t ((digits virt (n + k)).take k) = some u) :
    descend mem virt (n + k) t = descend mem virt n u := by
  induction k generalizing t with
  | zero =>
    cases h
    rfl
  | succ k ih =>
    rw [← Nat.add_assoc, digits, List.take_succ_cons, find] at h
    obtain ⟨v, hv, hrest⟩ := Option.bind_eq_some_iff.mp h
    obtain ⟨hpresent, hlarge, rfl⟩ := refers_some hv
    rw [← Nat.add_assoc, descend]
    simp only [hpresent, not_true_eq_false, if_false, hlarge, and_false]
    exact ih hrest

/-- An address through the window ends at the slot that it is made for. -/
theorem Through.translate {ent n i : Nat} {is : List Nat} (h : Through ent n is i)
    (hc : Canonical ent) (hself : refers (mem (slot cr3 511)) = some cr3)
    (hfind : find refers mem cr3 is = some t) : translate mem cr3 ent = some (slot t i) := by
  have hall : find refers mem cr3 ((digits ent 4).take 4) = some t := by
    have hlen : (digits ent 4).take 4 = digits ent 4 := List.take_of_length_le (Nat.le_refl 4)
    rw [hlen, digits_indices, h.indices, find_window hself]
    exact hfind
  rw [Page.translate, if_pos hc, descend_find 0 4 hall, descend, h.offset]
  rfl

theorem canonical_upper {ent : Nat} (h₁ : CURRENT_PML ≤ ent) (h₂ : ent < 2 ^ 64) : Canonical ent := by
  right
  rw [CURRENT_PML] at h₁
  omega

theorem canonical_pmlEntry (virt level : Nat) : Canonical (pmlEntry virt level) := by
  apply canonical_upper
  · rw [pmlEntry.eq_def]
    split
    · rw [pml4Entry]
      omega
    · rw [pml3Entry]
      omega
    · rw [pml2Entry]
      omega
    · rw [pml1Entry]
      omega
  · rw [pmlEntry.eq_def]
    split
    · rw [pml4Entry, CURRENT_PML]
      omega
    · rw [pml3Entry, CURRENT_PML]
      omega
    · rw [pml2Entry, CURRENT_PML]
      omega
    · rw [pml1Entry, CURRENT_PML]
      omega

/-- The entry of each level has its address in the window. -/
theorem through_pmlEntry (virt : Nat) {level : Nat} (h₁ : 1 ≤ level) (h₂ : level ≤ 4) :
    Through (pmlEntry virt level) level ((digits virt 4).take (4 - level)) (digit virt (level - 1)) := by
  obtain rfl | rfl | rfl | rfl : level = 1 ∨ level = 2 ∨ level = 3 ∨ level = 4 := by omega
  · exact through_pml1Entry virt
  · exact through_pml2Entry virt
  · exact through_pml3Entry virt
  · exact through_pml4Entry virt

/-- The entry that `PageCtx::new` writes into the last slot refers to its own PML4. -/
theorem refers_self {pml4 : Nat} (ha : PAGE_SIZE ∣ pml4) (hlt : pml4 < 2 ^ 52) :
    refers (pml4 ||| PageFlags.PRESENT) = some pml4 := by
  obtain ⟨k, rfl⟩ := ha
  have hor : PAGE_SIZE * k ||| PageFlags.PRESENT = PAGE_SIZE * k + 1 := by
    have hadd := Nat.two_pow_add_eq_or_of_lt (show 1 < 2 ^ 12 by decide) k
    exact hadd.symm
  rw [hor, refers, if_pos, pageAddress]
  · rw [PAGE_SIZE] at hlt ⊢
    congr 1
    omega
  · rw [Present, Large, PAGE_SIZE]
    omega

end hardware

theorem shift_or (a b k : Nat) (hb : b < 2 ^ k) : a <<< k ||| b = a * 2 ^ k + b := by
  rw [← Nat.shiftLeft_add_eq_or_of_lt hb, Nat.shiftLeft_eq]

/-- What `each_phys` reads for some indices is what the entries of an address with these indices
are found at. -/
theorem each_pmlEntry {virt i₄ i₃ i₂ i₁ : Nat} (h : indices virt = [i₄, i₃, i₂, i₁]) :
    eachPml4 i₄ = pmlEntry virt 4 ∧ eachPml3 i₄ i₃ = pmlEntry virt 3 ∧
      eachPml2 i₄ i₃ i₂ = pmlEntry virt 2 ∧ eachPml1 i₄ i₃ i₂ i₁ = pmlEntry virt 1 := by
  simp only [indices, List.cons.injEq, and_true] at h
  obtain ⟨rfl, rfl, rfl, rfl⟩ := h
  have h₃ := pml3Index_lt virt
  have h₂ := pml2Index_lt virt
  have h₁ := pml1Index_lt virt
  have hor₃ : pml4Index virt <<< 9 ||| pml3Index virt = virt / 2 ^ 30 % 2 ^ 18 := by
    rw [shift_or _ _ 9 h₃, pml4Index, pml3Index]
    omega
  have hor₂ : pml4Index virt <<< 18 ||| pml3Index virt <<< 9 ||| pml2Index virt =
      virt / 2 ^ 21 % 2 ^ 27 := by
    have hsplit : pml4Index virt <<< 18 ||| pml3Index virt <<< 9 =
        (pml4Index virt <<< 9 ||| pml3Index virt) <<< 9 := by
      rw [Nat.shiftLeft_or_distrib, ← Nat.shiftLeft_add]
    rw [hsplit, hor₃, shift_or _ _ 9 h₂, pml2Index]
    omega
  have hor₁ : pml4Index virt <<< 27 ||| pml3Index virt <<< 18 ||| pml2Index virt <<< 9 |||
      pml1Index virt = virt / 2 ^ 12 % 2 ^ 36 := by
    have hsplit : pml4Index virt <<< 27 ||| pml3Index virt <<< 18 ||| pml2Index virt <<< 9 =
        (pml4Index virt <<< 18 ||| pml3Index virt <<< 9 ||| pml2Index virt) <<< 9 := by
      rw [Nat.shiftLeft_or_distrib, Nat.shiftLeft_or_distrib, ← Nat.shiftLeft_add,
        ← Nat.shiftLeft_add]
    rw [hsplit, hor₂, shift_or _ _ 9 h₁, pml1Index]
    omega
  refine ⟨rfl, ?_, ?_, ?_⟩
  · rw [eachPml3, hor₃]
    rfl
  · rw [eachPml2, hor₂]
    rfl
  · rw [eachPml1, hor₁]
    rfl

/-- Through the window the processor reaches the very word of each level from which its own
translation of an address goes on; and `each_phys` reads at the same addresses. -/
theorem window_reaches_entry {mem : Mem} {cr3 : Nat}
    (hself : refers (mem (slot cr3 511)) = some cr3) {virt level a : Nat} (h₁ : 1 ≤ level)
    (h₂ : level ≤ 4) (hpath : consulted mem cr3 virt level = some a) :
    (∃ t, a = slot t (digit virt (level - 1)) ∧
      descend mem virt 4 cr3 = descend mem virt level t) ∧
    translate mem cr3 (pmlEntry virt level) = some a ∧
    ∀ i₄ i₃ i₂ i₁, indices virt = [i₄, i₃, i₂, i₁] →
      eachPml4 i₄ = pmlEntry virt 4 ∧ eachPml3 i₄ i₃ = pmlEntry virt 3 ∧
        eachPml2 i₄ i₃ i₂ = pmlEntry virt 2 ∧ eachPml1 i₄ i₃ i₂ i₁ = pmlEntry virt 1 := by
  obtain ⟨t, ht, rfl⟩ := Option.map_eq_some_iff.mp hpath
  refine ⟨⟨t, rfl, ?_⟩, ?_, ?_⟩
  · have hsum : level + (4 - level) = 4 := by omega
    have hdown := @descend_find mem virt cr3 t level (4 - level)
    rw [hsum] at hdown
    exact hdown ht
  · exact (through_pmlEntry virt h₁ h₂).translate (canonical_pmlEntry virt level) hself ht
  · intro i₄ i₃ i₂ i₁ h
    exact each_pmlEntry h

/-- Tables at 0x1000 to 0x4000 for the page 0x7fffffe00000. -/
def chainMem (a : Nat) : Nat :=
  if a = slot 0x1000 511 then 0x1001
  else if a = slot 0x1000 255 then 0x2007
  else if a = slot 0x2000 511 then 0x3007
  else if a = slot 0x3000 511 then 0x4007
  else 0

/-- The entry of the last level, in an address of the lower half. -/
theorem window_reaches_last :
    consulted chainMem 0x1000 0x7fffffe00000 1 = some 0x4000 ∧
      translate chainMem 0x1000 (pmlEntry 0x7fffffe00000 1) = some 0x4000 := by
  have hself : refers (chainMem (slot 0x1000 511)) = some 0x1000 := by decide
  have hpath : consulted chainMem 0x1000 0x7fffffe00000 1 = some 0x4000 := by decide
  exact ⟨hpath, (window_reaches_entry hself (by decide) (by decide) hpath).2.1⟩

end Crabos.Page
