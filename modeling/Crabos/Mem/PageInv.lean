import Crabos.Mem.Page
import Crabos.Mem.PhysInv

/-!
# Well-formed page tables

Every table has its place: the indices that lead to it from a PML4. Nonzero
entries lead to tables in the place below, all PML4s share the kernel half,
and the last one of their entries leads back. Every table, every entry that
maps a frame of the allocator and `CR3` have an owner of their own among the
raw addresses, and every page context has one among the `Phys` values.
-/
namespace Crabos.Page

open Crabos.Words Crabos.Radix Crabos.Interface Crabos.User Crabos.Run

/-! The recursive window. -/

/-- A virtual address leads to slot `i` of the table at `is`, in every PML4
whose last entry leads back to it. -/
def Points (ent : Nat) (is : List Nat) (i : Nat) : Prop :=
  ∀ mem cr3, next (mem (slot cr3 511)) = some cr3 →
    walk mem cr3 ent = (find next mem cr3 is).map fun t => slot t i

theorem find_self {nx : Nat → Option Nat} {mem : Mem} {t : Nat} (h : nx (mem (slot t 511)) = some t)
    (is : List Nat) : find nx mem t (511 :: is) = find nx mem t is := by
  rw [find, h]
  rfl

theorem find_window {nx : Nat → Option Nat} {mem : Mem} {t : Nat}
    (h : nx (mem (slot t 511)) = some t) (n : Nat) (is : List Nat) :
    find nx mem t (List.replicate n 511 ++ is) = find nx mem t is := by
  induction n with
  | zero => rfl
  | succ n ih => rw [List.replicate_succ, List.cons_append, find_self h, ih]

/-- The first indices of the address lead back to the PML4, the others are those of a table. -/
structure Through (ent n : Nat) (is : List Nat) (i : Nat) : Prop where
  indices : indices ent = List.replicate n 511 ++ is
  offset : ent % PAGE_SIZE = 8 * i

theorem Through.points {ent n i : Nat} {is : List Nat} (h : Through ent n is i) :
    Points ent is i := by
  intro mem cr3 hself
  rw [walk, h.indices, find_window hself, h.offset]
  rfl

theorem through_pml4Entry (virt : Nat) : Through (pml4Entry virt) 4 [] (pml4Index virt) := by
  constructor
  · simp [Page.indices, pml4Index, pml3Index, pml2Index, pml1Index, pml4Entry, CURRENT_PML,
      List.replicate]
    omega
  · simp [pml4Entry, pml4Index, CURRENT_PML, PAGE_SIZE]
    omega

theorem through_pml3Entry (virt : Nat) :
    Through (pml3Entry virt) 3 [pml4Index virt] (pml3Index virt) := by
  constructor
  · simp [Page.indices, pml4Index, pml3Index, pml2Index, pml1Index, pml3Entry, CURRENT_PML,
      List.replicate]
    omega
  · simp [pml3Entry, pml3Index, CURRENT_PML, PAGE_SIZE]
    omega

theorem through_pml2Entry (virt : Nat) :
    Through (pml2Entry virt) 2 [pml4Index virt, pml3Index virt] (pml2Index virt) := by
  constructor
  · simp [Page.indices, pml4Index, pml3Index, pml2Index, pml1Index, pml2Entry, CURRENT_PML,
      List.replicate]
    omega
  · simp [pml2Entry, pml2Index, CURRENT_PML, PAGE_SIZE]
    omega

theorem through_pml1Entry (virt : Nat) :
    Through (pml1Entry virt) 1 [pml4Index virt, pml3Index virt, pml2Index virt]
      (pml1Index virt) := by
  constructor
  · simp [Page.indices, pml4Index, pml3Index, pml2Index, pml1Index, pml1Entry, CURRENT_PML,
      List.replicate]
    omega
  · simp [pml1Entry, pml1Index, CURRENT_PML, PAGE_SIZE]
    omega

theorem points_pml4Entry (virt : Nat) : Points (pml4Entry virt) [] (pml4Index virt) :=
  (through_pml4Entry virt).points

theorem points_pml3Entry (virt : Nat) :
    Points (pml3Entry virt) [pml4Index virt] (pml3Index virt) :=
  (through_pml3Entry virt).points

theorem points_pml2Entry (virt : Nat) :
    Points (pml2Entry virt) [pml4Index virt, pml3Index virt] (pml2Index virt) :=
  (through_pml2Entry virt).points

theorem points_pml1Entry (virt : Nat) :
    Points (pml1Entry virt) [pml4Index virt, pml3Index virt, pml2Index virt] (pml1Index virt) :=
  (through_pml1Entry virt).points

theorem points_currentSlot {i : Nat} (hi : i < 512) : Points (currentSlot i) [] i := by
  have hthrough : Through (currentSlot i) 4 [] i := by
    constructor
    · simp [Page.indices, pml4Index, pml3Index, pml2Index, pml1Index, currentSlot, List.replicate]
      omega
    · simp [currentSlot, PAGE_SIZE]
      omega
  exact hthrough.points

/-! Places of tables. -/

inductive Half where
  | user
  | kernel
  deriving DecidableEq, Repr

/-- The half of the address space in which the indices end. -/
def half : List Nat → Half
  | [] => .user
  | i :: _ => if i < 256 then .user else .kernel

/-- Indices that lead from a PML4 to a table, without the window. -/
def Way (is : List Nat) : Prop := is.length ≤ 3 ∧ (∀ i ∈ is, i < 512) ∧ is.head? ≠ some 511

/-- The entries that lead from table to table. -/
structure Linked (place : Nat → Option (List Nat)) (mem : Mem) : Prop where
  way : ∀ t p, place t = some p → Way p
  child : ∀ t p i, place t = some p → Way (p ++ [i]) →
    mem (slot t i) = 0 ∨ ∃ u, next (mem (slot t i)) = some u ∧ place u = some (p ++ [i])
  self : ∀ t, place t = some [] → next (mem (slot t 511)) = some t
  agree : ∀ t u i, place t = some [] → place u = some [] → 256 ≤ i → i < 511 →
    mem (slot t i) = mem (slot u i)

/-- The entry maps a frame of the allocator. -/
def Maps (regions : List Phys.PhysRegion) (e : Nat) : Prop := e ≠ 0 ∧ Phys.Managed regions (frame e)

/-- Slot `i` of a last level table. -/
def LastSlot (place : Nat → Option (List Nat)) (t i : Nat) : Prop :=
  ∃ p, place t = some p ∧ p.length = 3 ∧ i < 512

/-- The indices of the table with the last entry of a page. -/
def lastTable (virt : Nat) : List Nat := [pml4Index virt, pml3Index virt, pml2Index virt]

/-- The last level entry of a page in the tables of a PML4, zero if there is none. -/
def pageWord (mem : Mem) (r virt : Nat) : Option Nat :=
  lookup next mem r (lastTable virt) (pml1Index virt)

/-- A machine with the owners of its frames, the places of its tables, the
page contexts that exist, and the last level slots that map frames of the
allocator. -/
structure World where
  m : Machine
  s : Phys.State
  place : Nat → Option (List Nat)
  ctxs : List Nat
  tables : List Nat
  slots : List (Nat × Nat)

def leafFrames (mem : Mem) (slots : List (Nat × Nat)) : List Nat :=
  slots.map fun x => frame (mem (slot x.1 x.2))

/-- What the raw addresses are for. -/
def World.raws (w : World) : List Nat := w.m.cr3 :: (w.tables ++ leafFrames w.m.mem w.slots)

structure Inv (w : World) : Prop where
  same : w.s.p = w.m.phys
  phys : ∃ free, Phys.Inv w.s free
  aligned : ∀ r ∈ w.m.phys.regions, PAGE_SIZE ∣ r.beginAddr ∧ PAGE_SIZE ∣ r.endAddr
  bounded : ∀ f, PAGE_SIZE ∣ f → Phys.Managed w.m.phys.regions f → f ≤ Phys.MAX_PHYS_PAGE
  upper : 256 ≤ pml4Index w.m.tempPage ∧ pml4Index w.m.tempPage < 511
  linked : Linked w.place w.m.mem
  loaded : w.place w.m.cr3 = some []
  root : ∀ r, w.place r = some [] → r ∈ w.m.cr3 :: w.ctxs
  ctx : ∀ c ∈ w.ctxs, w.place c = some []
  table : ∀ t p, w.place t = some p → p ≠ [] → t ∈ w.tables
  once : w.slots.Nodup
  mapped : ∀ t i, (t, i) ∈ w.slots ↔
    LastSlot w.place t i ∧ Maps w.m.phys.regions (w.m.mem (slot t i))
  held : w.ctxs.Subperm w.s.live
  backed : w.raws.Subperm w.s.raws

/-- The words of the kernel: its tables and the upper half of each PML4. -/
def Zone (place : Nat → Option (List Nat)) (a : Nat) : Prop :=
  ∃ t p i, place t = some p ∧ i < 512 ∧ half (p ++ [i]) = .kernel ∧ a = slot t i

/-! Facts about entries and ways. -/

theorem next_zero : next 0 = none := rfl

theorem next_some {e u : Nat} (h : next e = some u) : e ≠ 0 ∧ u = frame e := by
  rw [next] at h
  split at h
  · rename_i hp
    cases h
    refine ⟨?_, rfl⟩
    rintro rfl
    cases hp
  · cases h

/-- The entry made of a frame and flags that say it is present. -/
theorem next_or {f fl : Nat} (hf : PAGE_SIZE ∣ f) (hfl : fl < PAGE_SIZE) (hpresent : fl % 2 = 1) :
    next (f ||| fl) = some f := by
  obtain ⟨k, rfl⟩ := hf
  have hor : PAGE_SIZE * k ||| fl = PAGE_SIZE * k + fl :=
    (Nat.two_pow_add_eq_or_of_lt (i := 12) hfl k).symm
  simp only [PAGE_SIZE] at hor hfl ⊢
  rw [hor, next, if_pos (by omega), frame]
  simp only [PAGE_SIZE, Option.some.injEq]
  omega

theorem pml1Index_lt (virt : Nat) : pml1Index virt < 512 := Nat.mod_lt _ (by decide)

theorem pml2Index_lt (virt : Nat) : pml2Index virt < 512 := Nat.mod_lt _ (by decide)

theorem pml3Index_lt (virt : Nat) : pml3Index virt < 512 := Nat.mod_lt _ (by decide)

theorem pml4Index_lt (virt : Nat) : pml4Index virt < 512 := Nat.mod_lt _ (by decide)

theorem indices_lt (virt : Nat) : ∀ i ∈ indices virt, i < 512 := by
  intro i hi
  simp only [indices, List.mem_cons, List.not_mem_nil, or_false] at hi
  rcases hi with rfl | rfl | rfl | rfl
  · exact pml4Index_lt _
  · exact pml3Index_lt _
  · exact pml2Index_lt _
  · exact pml1Index_lt _

theorem way_nil : Way [] := ⟨by simp, by simp, by simp⟩

theorem way_left (p q : List Nat) (h : Way (p ++ q)) : Way p := by
  obtain ⟨h₁, h₂, h₃⟩ := h
  rw [List.length_append] at h₁
  refine ⟨by omega, fun i hi => h₂ i (List.mem_append_left _ hi), ?_⟩
  cases p with
  | nil => simp
  | cons i p => exact h₃

theorem way_snoc {p : List Nat} {i : Nat} (h : Way (p ++ [i])) : p.length < 3 ∧ i < 512 := by
  obtain ⟨h₁, h₂, -⟩ := h
  rw [List.length_append, List.length_singleton] at h₁
  exact ⟨by omega, h₂ i (by simp)⟩

theorem way_lastTable {virt : Nat} (h : pml4Index virt < 511) : Way (lastTable virt) := by
  refine ⟨Nat.le_refl _, ?_, ?_⟩
  · intro i hi
    rw [lastTable, List.mem_cons, List.mem_pair] at hi
    rcases hi with rfl | rfl | rfl
    · omega
    · exact pml3Index_lt _
    · exact pml2Index_lt _
  · simp only [lastTable, List.head?_cons, ne_eq, Option.some.injEq]
    omega

theorem indices_inj {v virt : Nat} (h₁ : lastTable v = lastTable virt)
    (h₂ : pml1Index v = pml1Index virt) : indices v = indices virt := by
  have h : lastTable v ++ [pml1Index v] = lastTable virt ++ [pml1Index virt] := by rw [h₁, h₂]
  exact h

/-- The entry of a page is found by its indices. -/
theorem pageWord_indices {v virt : Nat} (h : indices v = indices virt) (mem : Mem) (r : Nat) :
    pageWord mem r v = pageWord mem r virt := by
  simp only [indices, List.cons.injEq] at h
  obtain ⟨h₄, h₃, h₂, h₁, -⟩ := h
  rw [pageWord, pageWord, lastTable, lastTable, h₄, h₃, h₂, h₁]

section links

variable {place : Nat → Option (List Nat)} {mem mem' : Mem}

theorem Linked.placed (hl : Linked place mem) : Placed next place Way mem where
  left := way_left
  child t p i u ht hw hu := by
    rcases hl.child t p i ht hw with h0 | ⟨v, hv, hpv⟩
    · exact absurd h0 (next_some hu).1
    · rw [hu] at hv
      cases hv
      exact hpv

theorem Linked.congr (hl : Linked place mem)
    (hsame : ∀ t p i, place t = some p → p.length < 3 → i < 512 →
      mem' (slot t i) = mem (slot t i)) : Linked place mem' where
  way := hl.way
  child t p i ht hw := by
    rw [hsame t p i ht (way_snoc hw).1 (way_snoc hw).2]
    exact hl.child t p i ht hw
  self t ht := by
    rw [hsame t [] 511 ht (by decide) (by decide)]
    exact hl.self t ht
  agree t u i ht hu h₁ h₂ := by
    rw [hsame t [] i ht (by decide) (by omega), hsame u [] i hu (by decide) (by omega)]
    exact hl.agree t u i ht hu h₁ h₂

/-- The last table of a page is placed at its indices. -/
theorem Linked.place_last (hl : Linked place mem) {r t virt : Nat} (hr : place r = some [])
    (hv : pml4Index virt < 511) (h : find next mem r (lastTable virt) = some t) :
    place t = some (lastTable virt) :=
  hl.placed.place_find hr (way_lastTable hv) h

theorem Linked.pageWord_eq (hl : Linked place mem) {r virt : Nat} (hr : place r = some [])
    (hv : pml4Index virt < 511) :
    pageWord mem r virt =
      some ((find next mem r (lastTable virt)).elim 0 fun t => mem (slot t (pml1Index virt))) := by
  refine hl.placed.lookup_eq ?_ next_zero hr (way_lastTable hv) _
  intro t p i ht hw
  rcases hl.child t p i ht hw with h0 | ⟨u, hu, -⟩
  · exact .inl h0
  · exact .inr ⟨u, hu⟩

/-- A page has the same entry where the tables on the way to it are linked the same, and the last
one has it. -/
theorem Linked.pageWord_congr {mem' : Mem} (hl : Linked place mem) (hl' : Linked place mem')
    {r virt : Nat} (hr : place r = some []) (hv : pml4Index virt < 511)
    (hfind : find next mem' r (lastTable virt) = find next mem r (lastTable virt))
    (hlast : ∀ t, place t = some (lastTable virt) →
      mem' (slot t (pml1Index virt)) = mem (slot t (pml1Index virt))) :
    pageWord mem' r virt = pageWord mem r virt := by
  rw [hl.pageWord_eq hr hv, hl'.pageWord_eq hr hv, hfind]
  cases hf : find next mem r (lastTable virt) with
  | none => rfl
  | some t => exact congrArg some (hlast t (hl.place_last hr hv hf))

end links

theorem leafFrames_congr {mem mem' : Mem} {slots : List (Nat × Nat)}
    (h : ∀ t i, (t, i) ∈ slots → mem' (slot t i) = mem (slot t i)) :
    leafFrames mem' slots = leafFrames mem slots :=
  List.map_congr_left fun x hx => by rw [h x.1 x.2 hx]

section facts

variable {w w' : World}

/-- Every table has an owner. -/
theorem Inv.owned (hi : Inv w) {t : Nat} {p : List Nat} (hp : w.place t = some p) :
    t ∈ w.s.owners := by
  by_cases h0 : p = []
  · subst h0
    rcases List.mem_cons.mp (hi.root t hp) with rfl | hc
    · exact List.mem_append_right _ (hi.backed.subset List.mem_cons_self)
    · exact List.mem_append_left _ (hi.held.subset hc)
  · refine List.mem_append_right _ (hi.backed.subset (List.mem_cons_of_mem _ ?_))
    exact List.mem_append_left _ (hi.table t p hp h0)

theorem Inv.unowned_no_table (hi : Inv w) {f : Nat} (h : f ∉ w.s.owners) : w.place f = none := by
  cases hp : w.place f with
  | none => rfl
  | some p => exact absurd (hi.owned hp) h

theorem Inv.table_aligned (hi : Inv w) {t : Nat} {p : List Nat} (hp : w.place t = some p) :
    PAGE_SIZE ∣ t := by
  obtain ⟨free, hphys⟩ := hi.phys
  exact (hphys.frame t (hi.owned hp)).1

/-- Words of tables are told apart by table and index. -/
theorem Inv.slot_inj (hi : Inv w) {t u i j : Nat} {p q : List Nat} (ht : w.place t = some p)
    (hu : w.place u = some q) (hit : i < 512) (hju : j < 512) (h : slot t i = slot u j) :
    t = u ∧ i = j :=
  Radix.slot_inj (show PAGE_SIZE = 8 * 512 from rfl) (hi.table_aligned ht) (hi.table_aligned hu) hit hju h

theorem slot_in_frame {t i : Nat} (hi : i < 512) : t ≤ slot t i ∧ slot t i < t + PAGE_SIZE := by
  simp only [slot, PAGE_SIZE]
  omega

/-- A frame that is no table holds no word of one. -/
theorem Inv.slot_outside (hi : Inv w) {f t i : Nat} {p : List Nat} (hf : PAGE_SIZE ∣ f)
    (hn : w.place f = none) (ht : w.place t = some p) (hlt : i < 512) :
    ¬ (f ≤ slot t i ∧ slot t i < f + PAGE_SIZE) := by
  have hne : t ≠ f := by
    rintro rfl
    rw [hn] at ht
    cases ht
  exact Phys.frame_apart hf (hi.table_aligned ht) hne (slot_in_frame hlt).1 (slot_in_frame hlt).2

/-- `w'` has the tables of `w`, with the same words in them. -/
structure SameTables (w w' : World) : Prop where
  place : w'.place = w.place
  tables : w'.tables = w.tables
  slots : w'.slots = w.slots
  regions : w'.m.phys.regions = w.m.phys.regions
  tempPage : w'.m.tempPage = w.m.tempPage
  mem : ∀ t p i, w.place t = some p → i < 512 → w'.m.mem (slot t i) = w.m.mem (slot t i)

theorem SameTables.leafFrames (h : SameTables w w') (hi : Inv w) :
    leafFrames w'.m.mem w'.slots = leafFrames w.m.mem w.slots := by
  rw [h.slots]
  refine leafFrames_congr fun t i hm => ?_
  obtain ⟨⟨p, hp, -, hlt⟩, -⟩ := (hi.mapped t i).mp hm
  exact h.mem t p i hp hlt

theorem SameTables.find (h : SameTables w w') (hi : Inv w) {r : Nat} {is : List Nat}
    (hr : w.place r = some []) (hw : Way is) : find next w'.m.mem r is = find next w.m.mem r is :=
  hi.linked.placed.find_congr (fun t p i ht hwi => h.mem t p i ht (way_snoc hwi).2) hr hw

theorem SameTables.linked (h : SameTables w w') (hi : Inv w) : Linked w'.place w'.m.mem := by
  rw [h.place]
  exact hi.linked.congr fun t p i ht _ hlt => h.mem t p i ht hlt

theorem SameTables.pageWord (h : SameTables w w') (hi : Inv w) {r virt : Nat}
    (hr : w.place r = some []) (hv : pml4Index virt < 511) :
    pageWord w'.m.mem r virt = pageWord w.m.mem r virt := by
  have hlinked : Linked w.place w'.m.mem := h.place ▸ h.linked hi
  refine hi.linked.pageWord_congr hlinked hr hv (h.find hi hr (way_lastTable hv)) ?_
  intro t ht
  exact h.mem t _ _ ht (pml1Index_lt _)

/-- Frames may change hands and contents as long as no table does. -/
theorem Inv.touch (hi : Inv w) (h : SameTables w w') (hsame : w'.s.p = w'.m.phys)
    (hphys : ∃ free, Phys.Inv w'.s free) (hcr3 : w'.m.cr3 = w.m.cr3)
    (hctx : ∀ c ∈ w'.ctxs, w.place c = some []) (hctxs : ∀ c ∈ w.ctxs, c ∈ w'.ctxs)
    (hheld : w'.ctxs.Subperm w'.s.live) (hraws : w'.s.raws = w.s.raws) : Inv w' where
  same := hsame
  phys := hphys
  aligned := by
    rw [h.regions]
    exact hi.aligned
  bounded := by
    rw [h.regions]
    exact hi.bounded
  upper := by
    rw [h.tempPage]
    exact hi.upper
  linked := h.linked hi
  loaded := by
    rw [h.place, hcr3]
    exact hi.loaded
  root r hr := by
    rw [h.place] at hr
    rw [hcr3]
    rcases List.mem_cons.mp (hi.root r hr) with rfl | hc
    · exact List.mem_cons_self
    · exact List.mem_cons_of_mem _ (hctxs r hc)
  ctx := by
    rw [h.place]
    exact hctx
  table := by
    rw [h.place, h.tables]
    exact hi.table
  once := by
    rw [h.slots]
    exact hi.once
  mapped t i := by
    rw [h.slots, hi.mapped t i, h.place, h.regions]
    refine and_congr_right fun hl => ?_
    obtain ⟨p, hp, -, hlt⟩ := hl
    rw [h.mem t p i hp hlt]
  held := hheld
  backed := by
    rw [World.raws, h.leafFrames hi, hcr3, h.tables, hraws]
    exact hi.backed

end facts

end Crabos.Page
