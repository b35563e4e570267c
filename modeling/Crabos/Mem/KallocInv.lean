import Mathlib
import Crabos.Lib.Linked
import Crabos.Mem.Kalloc

/-!
# The invariant of the size-class heap

The nine lists are finite chains of blocks, every block was cut from a page
that belongs to its class alone, and no block is both free and in use. Each
primitive of the heap keeps this; alignment and disjointness follow from it.
-/
namespace Crabos.Kalloc

open Crabos.Linked Crabos.Words

/-- Block `p` is one of the blocks that page `q` was cut into for class `i`. -/
structure Slot (q : Nat) (i : Fin 9) (p : Nat) : Prop where
  ge : q ≤ p
  inside : p + classSize i ≤ q + PAGE_SIZE
  step : classSize i ∣ p - q

/-- The nine lists, the blocks in use and the pages they were cut from. Every
page belongs to one class, so blocks of different classes never share a page. -/
structure Inv (h : Heap) (free : Fin 9 → List Nat) (live : List (Fin 9 × Nat))
    (pages : List (Nat × Fin 9)) : Prop where
  size : ∀ i, (h.classes i).size = classSize i
  chain : ∀ i, Chain (link h.mem) (h.classes i).free (free i)
  aligned : ∀ q ∈ pages, PAGE_SIZE ∣ q.1 ∧ 0 < q.1
  distinct : (pages.map Prod.fst).Nodup
  free_slot : ∀ i, ∀ p ∈ free i, ∃ q, (q, i) ∈ pages ∧ Slot q i p
  live_slot : ∀ b ∈ live, ∃ q, (q, b.1) ∈ pages ∧ Slot q b.1 b.2
  nodup : live.Nodup
  apart : ∀ i, ∀ p ∈ free i, (i, p) ∉ live

def Apart (i : Fin 9) (p : Nat) (j : Fin 9) (r : Nat) : Prop :=
  p + classSize i ≤ r ∨ r + classSize j ≤ p

theorem classSize_pos (i : Fin 9) : 0 < classSize i := by
  have : 0 < 2 ^ i.val := Nat.two_pow_pos _
  simp only [classSize]
  omega

theorem classSize_pow (i : Fin 9) : classSize i = 2 ^ (4 + i.val) := by
  rw [classSize, pow_add]
  norm_num

theorem classSize_dvd_page (i : Fin 9) : classSize i ∣ PAGE_SIZE := by
  have hi := i.isLt
  have hp : PAGE_SIZE = 2 ^ 12 := by decide
  rw [classSize_pow, hp]
  exact pow_dvd_pow 2 (by omega)

theorem classSize_le_page (i : Fin 9) : classSize i ≤ PAGE_SIZE :=
  Nat.le_of_dvd (by decide) (classSize_dvd_page i)

/-- Distinct multiples of the class size are at least a block apart. -/
theorem slots_apart {q p r : Nat} {i : Fin 9} (hp : Slot q i p) (hr : Slot q i r) (hne : p ≠ r) :
    Apart i p i r := by
  obtain ⟨a, ha⟩ := hp.step
  obtain ⟨b, hb⟩ := hr.step
  have hp₁ := hp.ge
  have hr₁ := hr.ge
  rcases Nat.lt_trichotomy a b with h | h | h
  · have hm : classSize i * (a + 1) ≤ classSize i * b := Nat.mul_le_mul_left _ h
    rw [Nat.mul_succ] at hm
    left; omega
  · subst h; omega
  · have hm : classSize i * (b + 1) ≤ classSize i * a := Nat.mul_le_mul_left _ h
    rw [Nat.mul_succ] at hm
    right; omega

/-- Blocks of different pages cannot overlap, because pages are aligned. -/
theorem pages_apart {q q' p r : Nat} {i j : Fin 9} (hp : Slot q i p) (hr : Slot q' j r)
    (hq : PAGE_SIZE ∣ q) (hq' : PAGE_SIZE ∣ q') (hne : q ≠ q') : Apart i p j r := by
  obtain ⟨a, rfl⟩ := hq
  obtain ⟨b, rfl⟩ := hq'
  have h₁ := hp.ge
  have h₂ := hp.inside
  have h₃ := hr.ge
  have h₄ := hr.inside
  rcases Nat.lt_trichotomy a b with h | h | h
  · have hm : PAGE_SIZE * (a + 1) ≤ PAGE_SIZE * b := Nat.mul_le_mul_left _ h
    rw [Nat.mul_succ] at hm
    left; omega
  · subst h; exact absurd rfl hne
  · have hm : PAGE_SIZE * (b + 1) ≤ PAGE_SIZE * a := Nat.mul_le_mul_left _ h
    rw [Nat.mul_succ] at hm
    right; omega

section Inv

variable {h : Heap} {free : Fin 9 → List Nat} {live : List (Fin 9 × Nat)}
  {pages : List (Nat × Fin 9)}

theorem page_class {pages : List (Nat × Fin 9)} (hd : (pages.map Prod.fst).Nodup) {q : Nat}
    {i j : Fin 9} (hi : (q, i) ∈ pages) (hj : (q, j) ∈ pages) : i = j := by
  have he := List.inj_on_of_nodup_map hd hi hj rfl
  exact congrArg Prod.snd he

theorem blocks_apart (hd : (pages.map Prod.fst).Nodup)
    (ha : ∀ q ∈ pages, PAGE_SIZE ∣ q.1 ∧ 0 < q.1) {i j : Fin 9} {p r : Nat}
    (hp : ∃ q, (q, i) ∈ pages ∧ Slot q i p) (hr : ∃ q, (q, j) ∈ pages ∧ Slot q j r)
    (hne : (i, p) ≠ (j, r)) : Apart i p j r := by
  obtain ⟨q, hq, hs⟩ := hp
  obtain ⟨q', hq', hs'⟩ := hr
  by_cases he : q = q'
  · subst he
    have hij := page_class hd hq hq'
    subst hij
    exact slots_apart hs hs' (by intro e; subst e; exact hne rfl)
  · exact pages_apart hs hs' (ha _ hq).1 (ha _ hq').1 he

theorem slot_pos (hi : Inv h free live pages) {i : Fin 9} {p : Nat}
    (hp : ∃ q, (q, i) ∈ pages ∧ Slot q i p) : 0 < p := by
  obtain ⟨q, hq, hs⟩ := hp
  have h₁ := (hi.aligned _ hq).2
  have h₂ := hs.ge
  simp only at h₁
  omega

theorem initial_inv (mem : Mem) : Inv (new mem) (fun _ => []) [] [] := by
  constructor <;> simp [new]

/-- The heap only depends on the links of the free blocks: a memory that agrees
there keeps the invariant. -/
theorem inv_mem (hi : Inv h free live pages) {mem : Mem}
    (hm : ∀ i, ∀ p ∈ free i, mem p = h.mem p) : Inv ⟨h.classes, mem⟩ free live pages where
  size := hi.size
  chain := fun i => chain_congr (fun p hp => link_congr (hm i p hp)) (hi.chain i)
  aligned := hi.aligned
  distinct := hi.distinct
  free_slot := hi.free_slot
  live_slot := hi.live_slot
  nodup := hi.nodup
  apart := hi.apart

/-- No free block lies inside a block in use. -/
theorem free_outside (hi : Inv h free live pages) {i j : Fin 9} {p r : Nat}
    (hp : p ∈ free i) (hr : (j, r) ∈ live) : ¬ (r ≤ p ∧ p < r + classSize j) := by
  have hne : (i, p) ≠ (j, r) := by
    intro he
    exact hi.apart i p hp (he ▸ hr)
  have hslot : ∃ q, (q, j) ∈ pages ∧ Slot q j r := hi.live_slot _ hr
  have hpos := classSize_pos i
  rcases blocks_apart hi.distinct hi.aligned (hi.free_slot i p hp) hslot hne with ha | ha
  · omega
  · omega

theorem inv_zero (hi : Inv h free live pages) {i : Fin 9} {p : Nat} (hp : (i, p) ∈ live) :
    Inv ⟨h.classes, zero h.mem p (classSize i)⟩ free live pages :=
  inv_mem hi fun _ _ hr => zero_outside _ _ _ _ (free_outside hi hr hp)

theorem inv_write (hi : Inv h free live pages) {i : Fin 9} {p a : Nat} (v : Nat)
    (hp : (i, p) ∈ live) (h₁ : p ≤ a) (h₂ : a < p + classSize i) :
    Inv ⟨h.classes, Function.update h.mem a v⟩ free live pages := by
  refine inv_mem hi fun j r hr => ?_
  have hne : r ≠ a := by
    intro he
    subst he
    exact free_outside hi hr hp ⟨h₁, h₂⟩
  simp [hne]

theorem take_eq (hi : Inv h free live pages) {i : Fin 9} {p : Nat} {l : List Nat}
    (hl : free i = p :: l) :
    take h i = (some p, setFree h i (link h.mem p) (Function.update h.mem p 0)) := by
  have hc := hi.chain i
  rw [hl] at hc
  simp [take, hc.1]

/-- `take` moves the first block of the list into use. -/
theorem inv_take (hi : Inv h free live pages) {i : Fin 9} {p : Nat} {l : List Nat}
    (hl : free i = p :: l) :
    Inv (take h i).2 (Function.update free i l) ((i, p) :: live) pages := by
  have hc := hi.chain i
  rw [hl] at hc
  have hp : p ∈ free i := by simp [hl]
  have hnd : (p :: l).Nodup := hl ▸ chain_nodup (hi.chain i)
  have hsub : ∀ j, ∀ r ∈ Function.update free i l j, r ∈ free j := by
    intro j r hr
    by_cases hj : j = i
    · subst hj
      rw [Function.update_self] at hr
      rw [hl]
      exact List.mem_cons_of_mem _ hr
    · rwa [Function.update_of_ne hj] at hr
  have hnp : ∀ j, ∀ r ∈ Function.update free i l j, (j, r) ≠ (i, p) := by
    intro j r hr he
    cases he
    rw [Function.update_self] at hr
    exact (List.nodup_cons.mp hnd).1 hr
  -- the cleared link belongs to `p`, which no remaining chain visits
  have hmem : ∀ j, ∀ r ∈ Function.update free i l j, r ≠ p := by
    intro j r hr he
    subst he
    have hj := blocks_apart hi.distinct hi.aligned (hi.free_slot j r (hsub j r hr))
      (hi.free_slot i r hp) (hnp j r hr)
    have h₁ := classSize_pos i
    have h₂ := classSize_pos j
    rcases hj with hj | hj <;> omega
  rw [take_eq hi hl]
  constructor
  · intro j
    by_cases hj : j = i
    · subst hj
      simp [setFree, hi.size]
    · simp [setFree, hj, hi.size]
  · intro j
    have hl' : Chain (link h.mem) (if j = i then link h.mem p else (h.classes j).free)
        (Function.update free i l j) := by
      by_cases hj : j = i
      · subst hj
        simpa using hc.2
      · simpa [hj] using hi.chain j
    have hlink : ∀ r ∈ Function.update free i l j,
        link (Function.update h.mem p 0) r = link h.mem r :=
      fun r hr => link_congr (by simp [hmem j r hr])
    have hc' := chain_congr hlink hl'
    by_cases hj : j = i
    · subst hj
      simpa [setFree] using hc'
    · simpa [setFree, hj] using hc'
  · exact hi.aligned
  · exact hi.distinct
  · exact fun j r hr => hi.free_slot j r (hsub j r hr)
  · intro b hb
    rcases List.mem_cons.mp hb with he | hb
    · subst he
      exact hi.free_slot i p hp
    · exact hi.live_slot b hb
  · exact List.nodup_cons.mpr ⟨hi.apart i p hp, hi.nodup⟩
  · intro j r hr hb
    rcases List.mem_cons.mp hb with he | hb
    · exact hnp j r hr he
    · exact hi.apart j r (hsub j r hr) hb

/-- `add_free` moves a block in use to the front of its list. -/
theorem inv_addFree (hi : Inv h free live pages) {i : Fin 9} {p : Nat} (hp : (i, p) ∈ live) :
    Inv (addFree h i p) (Function.update free i (p :: free i)) (live.erase (i, p)) pages := by
  have hslot := hi.live_slot _ hp
  have hnp : ∀ j, ∀ r ∈ free j, r ≠ p := by
    intro j r hr he
    subst he
    exact free_outside hi hr hp ⟨Nat.le_refl _, Nat.lt_add_of_pos_right (classSize_pos i)⟩
  have hcongr : ∀ j, Chain (link (Function.update h.mem p ((h.classes i).free.getD 0)))
      (h.classes j).free (free j) := fun j =>
    chain_congr (fun r hr => link_congr (by simp [hnp j r hr])) (hi.chain j)
  have hhead : (h.classes i).free ≠ some 0 := by
    intro he
    have hc := hi.chain i
    rw [he] at hc
    cases hf : free i with
    | nil => rw [hf] at hc; simp at hc
    | cons r l =>
      rw [hf] at hc
      have hr : r ∈ free i := by simp [hf]
      have hpos := slot_pos hi (hi.free_slot i r hr)
      have h0 : r = 0 := by simpa using hc.1.symm
      omega
  constructor
  · intro j
    by_cases hj : j = i
    · subst hj
      simp [addFree, setFree, hi.size]
    · simp [addFree, setFree, hj, hi.size]
  · intro j
    by_cases hj : j = i
    · subst hj
      have hc : Chain (link (Function.update h.mem p ((h.classes j).free.getD 0))) (some p)
          (p :: free j) := by
        refine ⟨rfl, ?_⟩
        rw [link_update_same _ _ _ hhead]
        exact hcongr j
      simpa [addFree, setFree] using hc
    · simpa [addFree, setFree, hj] using hcongr j
  · exact hi.aligned
  · exact hi.distinct
  · intro j r hr
    by_cases hj : j = i
    · subst hj
      rw [Function.update_self] at hr
      rcases List.mem_cons.mp hr with he | hr
      · subst he
        exact hslot
      · exact hi.free_slot j r hr
    · rw [Function.update_of_ne hj] at hr
      exact hi.free_slot j r hr
  · exact fun b hb => hi.live_slot b (List.mem_of_mem_erase hb)
  · exact hi.nodup.erase _
  · intro j r hr hb
    by_cases hj : j = i
    · subst hj
      rw [Function.update_self] at hr
      rcases List.mem_cons.mp hr with he | hr
      · subst he
        exact (hi.nodup.mem_erase_iff.mp hb).1 rfl
      · exact hi.apart j r hr (List.mem_of_mem_erase hb)
    · rw [Function.update_of_ne hj] at hr
      exact hi.apart j r hr (List.mem_of_mem_erase hb)

/-- A page that was never handed out before can be cut up: all of its blocks
start in use. -/
theorem inv_page (hi : Inv h free live pages) {i : Fin 9} {q : Nat} {l : List Nat}
    (hq : PAGE_SIZE ∣ q) (hpos : 0 < q) (hnew : q ∉ pages.map Prod.fst) (hl : l.Nodup)
    (hs : ∀ p ∈ l, Slot q i p) :
    Inv h free (l.map (Prod.mk i) ++ live) ((q, i) :: pages) := by
  have haligned : ∀ r ∈ (q, i) :: pages, PAGE_SIZE ∣ r.1 ∧ 0 < r.1 := by
    intro r hr
    rcases List.mem_cons.mp hr with he | hr
    · subst he
      exact ⟨hq, hpos⟩
    · exact hi.aligned r hr
  -- a block that was there before lies on an older page, hence on another one
  have hold : ∀ j p, (∃ r, (r, j) ∈ pages ∧ Slot r j p) → ∀ x ∈ l, (j, p) ≠ (i, x) := by
    intro j p hp x hx he
    cases he
    obtain ⟨r, hr, hslot⟩ := hp
    have hne : r ≠ q := by
      intro he
      subst he
      exact hnew (List.mem_map_of_mem (f := Prod.fst) hr)
    have hap := pages_apart hslot (hs _ hx) (hi.aligned _ hr).1 hq hne
    have hsz := classSize_pos i
    rcases hap with hap | hap <;> omega
  have hmk : Function.Injective (Prod.mk i : Nat → Fin 9 × Nat) := by
    intro a b he
    cases he
    rfl
  constructor
  · exact hi.size
  · exact hi.chain
  · exact haligned
  · rw [List.map_cons]
    exact List.nodup_cons.mpr ⟨hnew, hi.distinct⟩
  · intro j p hp
    obtain ⟨r, hr, hslot⟩ := hi.free_slot j p hp
    exact ⟨r, List.mem_cons_of_mem _ hr, hslot⟩
  · intro b hb
    rcases List.mem_append.mp hb with hb | hb
    · obtain ⟨x, hx, he⟩ := List.mem_map.mp hb
      subst he
      exact ⟨q, by simp, hs x hx⟩
    · obtain ⟨r, hr, hslot⟩ := hi.live_slot b hb
      exact ⟨r, List.mem_cons_of_mem _ hr, hslot⟩
  · refine List.nodup_append.mpr ⟨hl.map hmk, hi.nodup, ?_⟩
    intro a ha b hb he
    subst he
    obtain ⟨x, hx, rfl⟩ := List.mem_map.mp ha
    exact hold i x (hi.live_slot _ hb) x hx rfl
  · intro j p hp hb
    rcases List.mem_append.mp hb with hb | hb
    · obtain ⟨x, hx, he⟩ := List.mem_map.mp hb
      exact hold j p (hi.free_slot j p hp) x hx he.symm
    · exact hi.apart j p hp hb

/-- Pushing the blocks of a list one after another frees all of them. -/
theorem inv_foldl (hi : Inv h free live pages) {i : Fin 9} {l : List Nat}
    (he : ∃ old, live = l.map (Prod.mk i) ++ old) :
    Inv (l.foldl (fun h p => addFree h i p) h) (Function.update free i (l.reverse ++ free i))
      (live.drop l.length) pages := by
  obtain ⟨old, rfl⟩ := he
  induction l generalizing h free with
  | nil => simpa using hi
  | cons p l ih =>
    have hp : (i, p) ∈ (p :: l).map (Prod.mk i) ++ old := by simp
    have hi' := inv_addFree hi hp
    have hrest : ((p :: l).map (Prod.mk i) ++ old).erase (i, p) = l.map (Prod.mk i) ++ old := by
      simp
    rw [hrest] at hi'
    have h' := ih hi'
    simpa [List.append_assoc] using h'

theorem offsets_slot {i : Fin 9} {q x : Nat} (hx : x ∈ offsets (classSize i)) :
    Slot q i (q + x) := by
  obtain ⟨k, hk, rfl⟩ := List.mem_range'.mp hx
  have hpos := classSize_pos i
  have hle : (k + 1) * classSize i ≤ PAGE_SIZE + classSize i - 1 :=
    (Nat.le_div_iff_mul_le hpos).mp hk
  obtain ⟨c, hc⟩ := classSize_dvd_page i
  have hkc : classSize i * k < classSize i * c := by
    rw [← hc, Nat.mul_comm]
    rw [Nat.succ_mul] at hle
    have : 0 < PAGE_SIZE := by decide
    omega
  have hstep : classSize i * (k + 1) ≤ classSize i * c :=
    Nat.mul_le_mul_left _ (Nat.lt_of_mul_lt_mul_left hkc)
  rw [Nat.mul_succ] at hstep
  exact ⟨by omega, by omega, by simp⟩

theorem offsets_nodup (i : Fin 9) : (offsets (classSize i)).Nodup :=
  List.nodup_range' _ (classSize_pos i)

theorem offsets_ne_nil (i : Fin 9) : offsets (classSize i) ≠ [] := by
  have hpos := classSize_pos i
  have hle := classSize_le_page i
  have hc : 0 < (PAGE_SIZE + classSize i - 1) / classSize i :=
    Nat.div_pos (by omega) hpos
  intro he
  have hlen := congrArg List.length he
  simp only [offsets, List.length_range', List.length_nil] at hlen
  omega

/-- Cutting up a new page for an empty class fills the list of that class only. -/
theorem inv_carve (hi : Inv h free live pages) {i : Fin 9} {q : Nat} (hempty : free i = [])
    (hq : PAGE_SIZE ∣ q) (hpos : 0 < q) (hnew : q ∉ pages.map Prod.fst) :
    ∃ p l, Inv (carve h i q) (Function.update free i (p :: l)) live ((q, i) :: pages) := by
  have hinj : Function.Injective fun x => q + x := fun a b he => Nat.add_left_cancel he
  have hnd : ((offsets (classSize i)).map fun x => q + x).Nodup := (offsets_nodup i).map hinj
  have hslot : ∀ p ∈ (offsets (classSize i)).map fun x => q + x, Slot q i p := by
    intro p hp
    obtain ⟨x, hx, rfl⟩ := List.mem_map.mp hp
    exact offsets_slot hx
  have hpage := inv_foldl (inv_page hi hq hpos hnew hnd hslot) ⟨live, rfl⟩
  rw [List.drop_left' (by simp), hempty, List.append_nil, List.foldl_map, ← hi.size i] at hpage
  cases hr : ((offsets (h.classes i).size).map fun x => q + x).reverse with
  | nil =>
    have he : offsets (classSize i) = [] := by simpa [hi.size i] using hr
    exact absurd he (offsets_ne_nil i)
  | cons p l =>
    rw [hr] at hpage
    exact ⟨p, l, hpage⟩

theorem head_none (hi : Inv h free live pages) (i : Fin 9) :
    (h.classes i).free = none ↔ free i = [] := by
  have hc := hi.chain i
  cases hf : free i with
  | nil => rw [hf] at hc; simpa using hc
  | cons p l =>
    rw [hf] at hc
    simp [hc.1]

end Inv

/-- The page list after an allocation: a page is only taken for an empty class. -/
def grown (h : Heap) (i : Fin 9) (page : Option Nat) (pages : List (Nat × Fin 9)) :
    List (Nat × Fin 9) :=
  match (h.classes i).free, page with
  | none, some q => (q, i) :: pages
  | _, _ => pages

/-- What `kvirt::alloc_page` promises about a page it returns. -/
def FreshPage (pages : List (Nat × Fin 9)) : Option Nat → Prop
  | none => True
  | some q => PAGE_SIZE ∣ q ∧ 0 < q ∧ q ∉ pages.map Prod.fst

instance (pages : List (Nat × Fin 9)) : (page : Option Nat) → Decidable (FreshPage pages page)
  | none => inferInstanceAs (Decidable True)
  | some _ => inferInstanceAs (Decidable (_ ∧ _ ∧ _))

/-- An allocation that hands out `p`: it is cleared, and of the free lists only
the one of its class changes, losing at most `p`. -/
structure Handed (h : Heap) (free : Fin 9 → List Nat) (live : List (Fin 9 × Nat))
    (pages : List (Nat × Fin 9)) (i : Fin 9) (p : Nat) (h' : Heap) : Prop where
  cleared : ∀ a, p ≤ a → a < p + classSize i → h'.mem a = 0
  inv : ∃ free', Inv h' free' ((i, p) :: live) pages ∧ (∀ j, j ≠ i → free' j = free j) ∧
    ∀ r ∈ free i, r = p ∨ r ∈ free' i

section Alloc

variable {h : Heap} {free : Fin 9 → List Nat} {live : List (Fin 9 × Nat)}
  {pages : List (Nat × Fin 9)}

/-- Popping and clearing the first block of a list. -/
theorem handed_take (hi : Inv h free live pages) {i : Fin 9} {p : Nat} {l : List Nat}
    (hl : free i = p :: l) :
    Handed h free live pages i p
      ⟨(take h i).2.classes, zero (take h i).2.mem p ((take h i).2.classes i).size⟩ := by
  have hi' := inv_take hi hl
  constructor
  · intro a h₁ h₂
    rw [hi'.size i]
    exact zero_inside _ _ _ _ h₁ h₂
  · refine ⟨Function.update free i l, ?_, ?_, ?_⟩
    · rw [hi'.size i]
      exact inv_zero hi' (by simp)
    · intro j hj
      simp [hj]
    · intro r hr
      rw [hl] at hr
      simpa using hr

theorem take_pair (hi : Inv h free live pages) {i : Fin 9} {p : Nat} {l : List Nat}
    (hl : free i = p :: l) : take h i = (some p, (take h i).2) := by
  rw [take_eq hi hl]

theorem alloc_of_take {i : Fin 9} {p : Nat} {h' : Heap} (page : Option Nat)
    (ht : take h i = (some p, h')) :
    alloc h i page = some (.ok p, ⟨h'.classes, zero h'.mem p (h'.classes i).size⟩) := by
  simp [alloc, allocUninitialized, ht]

theorem alloc_of_carve {i : Fin 9} {p q : Nat} {h' : Heap} (hn : take h i = (none, h))
    (ht : take (carve h i q) i = (some p, h')) :
    alloc h i (some q) = some (.ok p, ⟨h'.classes, zero h'.mem p (h'.classes i).size⟩) := by
  simp [alloc, allocUninitialized, hn, ht]

/-- `SizeClass::alloc` fails only when the class is empty and no page is to be
had, and then it changes nothing. -/
theorem alloc_cases (hi : Inv h free live pages) (i : Fin 9) (page : Option Nat)
    (hpage : FreshPage pages page) :
    (page = none ∧ free i = [] ∧ alloc h i page = some (.error ⟨⟩, h)) ∨
    ∃ p h', alloc h i page = some (.ok p, h') ∧
      Handed h free live (grown h i page pages) i p h' := by
  cases hf : free i with
  | cons p l =>
    right
    have hg : grown h i page pages = pages := by
      cases hh : (h.classes i).free with
      | none =>
        rw [(head_none hi i).mp hh] at hf
        cases hf
      | some r => simp [grown, hh]
    rw [hg]
    exact ⟨p, _, alloc_of_take page (take_pair hi hf), handed_take hi hf⟩
  | nil =>
    have hn := (head_none hi i).mpr hf
    have ht : take h i = (none, h) := by simp [take, hn]
    cases page with
    | none =>
      left
      exact ⟨rfl, rfl, by simp [alloc, allocUninitialized, ht]⟩
    | some q =>
      right
      obtain ⟨hq, hpos, hnew⟩ := hpage
      obtain ⟨p, l, hc⟩ := inv_carve hi hf hq hpos hnew
      have hl : Function.update free i (p :: l) i = p :: l := by simp
      have hd := handed_take hc hl
      obtain ⟨free', hi', hother, hkeep⟩ := hd.inv
      have hg : grown h i (some q) pages = (q, i) :: pages := by simp [grown, hn]
      rw [hg]
      refine ⟨p, _, alloc_of_carve ht (take_pair hc hl), hd.cleared, free', hi', ?_, ?_⟩
      · intro j hj
        rw [hother j hj, Function.update_of_ne hj]
      · intro r hr
        rw [hf] at hr
        cases hr

end Alloc

/-! ## Choice of the class -/

/-- The class that `Allocator::class` picks; it depends on the sizes only. -/
def classFor (layout : Layout) : Option (Fin 9) :=
  (List.finRange 9).find? fun i => fits ⟨classSize i, none⟩ layout

theorem classOf_eq {h : Heap} (hs : ∀ i, (h.classes i).size = classSize i) (layout : Layout) :
    classOf h layout = classFor layout := by
  simp [classOf, classFor, fits, hs]

theorem classFor_fits {layout : Layout} {i : Fin 9} (h : classFor layout = some i) :
    layout.size ≤ classSize i ∧ layout.align ≤ classSize i := by
  have hf := List.find?_some h
  simpa [fits] using hf

/-- Every layout of at most a page has a class. -/
theorem classFor_isSome {layout : Layout} (hs : layout.size ≤ PAGE_SIZE)
    (ha : layout.align ≤ PAGE_SIZE) : ∃ i, classFor layout = some i := by
  rw [← Option.isSome_iff_exists, classFor, List.find?_isSome]
  refine ⟨8, List.mem_finRange _, ?_⟩
  have h8 : classSize 8 = PAGE_SIZE := by decide
  simp [fits, h8, hs, ha]

/-- A block of a class is aligned to every alignment the class fits. -/
theorem slot_aligned {q : Nat} {i : Fin 9} {p : Nat} {layout : Layout} (hs : Slot q i p)
    (hq : PAGE_SIZE ∣ q) (hl : layout.align ≤ classSize i) : layout.align ∣ p := by
  obtain ⟨k, hk⟩ := layout.align_pow2
  have hdvd : layout.align ∣ classSize i := by
    rw [hk, classSize_pow] at hl ⊢
    exact pow_dvd_pow 2 ((Nat.pow_le_pow_iff_right (by decide)).mp hl)
  have hbase : classSize i ∣ q := (classSize_dvd_page i).trans hq
  have hp : classSize i ∣ p := by
    have hsum := Nat.dvd_add hs.step hbase
    rwa [Nat.sub_add_cancel hs.ge] at hsum
  exact hdvd.trans hp

end Crabos.Kalloc
