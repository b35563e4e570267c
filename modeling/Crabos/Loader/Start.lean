import Mathlib

/-!
# The mapping of the kernel (`kernel/src/start.asm`)

`map_kernel` fills the page table `pt_k`, one entry for each page from `_base`
to `_bss_end`. The entry is built in `RAX`, which is stored whether or not this
turn of the loop has built one.
-/
namespace Crabos.Start

def KERNEL_PHYS_BASE : BitVec 64 := 0x00100000
def KERNEL_BASE : BitVec 64 := 0xffff800000000000
def PAGE_SIZE : BitVec 64 := 4096#64
def PAGE_PRESENT : BitVec 64 := 1 <<< 0
def PAGE_WRITABLE : BitVec 64 := 1 <<< 1

/-- What the linker has laid out, with the physical address of `pt_k`. -/
structure Layout where
  base : BitVec 64
  rodataEnd : BitVec 64
  stackguard : BitVec 64
  bssEnd : BitVec 64
  ptK : BitVec 64
  base_aligned : base.toNat % 4096 = 0
  rodataEnd_aligned : rodataEnd.toNat % 4096 = 0
  stackguard_aligned : stackguard.toNat % 4096 = 0
  bssEnd_aligned : bssEnd.toNat % 4096 = 0
  ptK_aligned : ptK.toNat % 4096 = 0
  base_lt : base.toNat < rodataEnd.toNat
  rodataEnd_le : rodataEnd.toNat ≤ stackguard.toNat
  stackguard_lt : stackguard.toNat < bssEnd.toNat
  one_table : bssEnd.toNat ≤ base.toNat + 512 * 4096

/-- The registers that are carried around the loop, and the memory by quadwords. -/
structure State where
  rax : BitVec 64
  rsi : BitVec 64
  rdi : BitVec 64
  mem : Nat → BitVec 64

variable (layout : Layout)

/-- From `cmp rsi, r10` to `.commit`: what is in `RAX` then. -/
def buildEntry (s : State) : BitVec 64 :=
  if s.rsi = layout.stackguard then s.rax
  else
    let rax := s.rsi
    let rbx := KERNEL_BASE - KERNEL_PHYS_BASE
    let rax := rax - rbx
    let rax := rax ||| PAGE_PRESENT
    if s.rsi < layout.rodataEnd then rax else rax ||| PAGE_WRITABLE

/-- `stosq`, and on to the next page. -/
def commit (s : State) (rax : BitVec 64) : State where
  rax := rax
  rsi := s.rsi + PAGE_SIZE
  rdi := s.rdi + 8#64
  mem := Function.update s.mem s.rdi.toNat rax

/-- The loop; `none` if the turns do not suffice. -/
def mapKernel : Nat → State → Option State
  | 0, _ => none
  | turns + 1, s =>
    let s := commit s (buildEntry layout s)
    if s.rsi < layout.bssEnd then mapKernel turns s else some s

/-- `RAX` still has the entry for `pt_k` itself. -/
def enter (mem : Nat → BitVec 64) : State where
  rax := layout.ptK ||| (PAGE_PRESENT ||| PAGE_WRITABLE)
  rsi := layout.base
  rdi := layout.ptK
  mem := mem

/-- The number of pages. -/
def Layout.pages : Nat := (layout.bssEnd.toNat - layout.base.toNat) / 4096

/-- The number of the stack guard page. -/
def Layout.guard : Nat := (layout.stackguard.toNat - layout.base.toNat) / 4096

/-- The address of a page. -/
def Layout.page (i : Nat) : BitVec 64 := BitVec.ofNat 64 (layout.base.toNat + 4096 * i)

/-- The address of its entry. -/
def Layout.slot (i : Nat) : Nat := layout.ptK.toNat + 8 * i

/-- The entry that a page should have. -/
def Layout.entry (v : BitVec 64) : BitVec 64 :=
  (v - KERNEL_BASE + KERNEL_PHYS_BASE) ||| PAGE_PRESENT |||
    if layout.rodataEnd ≤ v then PAGE_WRITABLE else 0

/-- Every page has its entry, except for the stack guard page, which has none. -/
def MapsKernel (mem : Nat → BitVec 64) : Prop :=
  ∃ turns s, mapKernel layout turns (enter layout mem) = some s ∧
    ∀ i < layout.pages, s.mem (layout.slot i) =
      if layout.page i = layout.stackguard then 0 else layout.entry (layout.page i)

variable {layout}

theorem page_toNat {i : Nat} (hi : i < layout.pages) :
    (layout.page i).toNat = layout.base.toNat + 4096 * i := by
  have hend := layout.bssEnd.isLt
  rw [Layout.pages] at hi
  rw [Layout.page, BitVec.toNat_ofNat]
  exact Nat.mod_eq_of_lt (by omega)

theorem pages_le (layout : Layout) : layout.pages ≤ 512 := by
  have hone := layout.one_table
  rw [Layout.pages]
  omega

theorem guard_lt (layout : Layout) : 0 < layout.guard ∧ layout.guard < layout.pages := by
  have h₁ := layout.base_aligned
  have h₂ := layout.stackguard_aligned
  have h₃ := layout.bssEnd_aligned
  have h₄ := layout.base_lt
  have h₅ := layout.rodataEnd_le
  have h₆ := layout.stackguard_lt
  rw [Layout.guard, Layout.pages]
  omega

/-- There is a next page just when its address is below the end. -/
theorem lt_pages {i : Nat} :
    layout.base.toNat + 4096 * i < layout.bssEnd.toNat ↔ i < layout.pages := by
  have h₁ := layout.base_aligned
  have h₂ := layout.bssEnd_aligned
  rw [Layout.pages]
  omega

theorem page_guard {i : Nat} (hi : i < layout.pages) :
    layout.page i = layout.stackguard ↔ i = layout.guard := by
  have h₁ := layout.base_aligned
  have h₂ := layout.stackguard_aligned
  have h₄ := layout.base_lt
  have h₅ := layout.rodataEnd_le
  rw [← BitVec.toNat_inj, page_toNat hi, Layout.guard]
  omega

/-- What is in `RAX` when the entry of a page is stored. -/
def stored (layout : Layout) (i : Nat) : BitVec 64 :=
  layout.entry (layout.page (if i = layout.guard then i - 1 else i))

/-- The entries of the first pages have been stored. -/
structure Filled (layout : Layout) (i : Nat) (s : State) : Prop where
  rax : 0 < i → s.rax = stored layout (i - 1)
  rsi : s.rsi.toNat = layout.base.toNat + 4096 * i
  rdi : s.rdi.toNat = layout.slot i % 2 ^ 64
  filled : ∀ j < i, s.mem (layout.slot j) = stored layout j

theorem filled_enter (layout : Layout) (mem : Nat → BitVec 64) : Filled layout 0 (enter layout mem) where
  rax := fun h => absurd h (Nat.lt_irrefl 0)
  rsi := rfl
  rdi := (Nat.mod_eq_of_lt layout.ptK.isLt).symm
  filled := fun j hj => absurd hj (Nat.not_lt_zero j)

theorem entry_built (v : BitVec 64) :
    (if v < layout.rodataEnd then (v - (KERNEL_BASE - KERNEL_PHYS_BASE)) ||| PAGE_PRESENT
      else (v - (KERNEL_BASE - KERNEL_PHYS_BASE)) ||| PAGE_PRESENT ||| PAGE_WRITABLE) =
      layout.entry v := by
  have hsub : v - (KERNEL_BASE - KERNEL_PHYS_BASE) = v - KERNEL_BASE + KERNEL_PHYS_BASE := by
    simp only [KERNEL_BASE, KERNEL_PHYS_BASE]
    bv_omega
  rw [Layout.entry, hsub]
  by_cases h : v < layout.rodataEnd
  · rw [if_pos h, if_neg (BitVec.not_le.mpr h)]
    exact BitVec.or_zero.symm
  · rw [if_neg h, if_pos (BitVec.not_lt.mp h)]

/-- At the guard page nothing is built, and the last entry is still there. -/
theorem Filled.build {i : Nat} {s : State} (h : Filled layout i s) (hi : i < layout.pages) :
    buildEntry layout s = stored layout i := by
  have hpage : s.rsi = layout.page i := by
    rw [← BitVec.toNat_inj, h.rsi, page_toNat hi]
  have hguard := (guard_lt layout).1
  rw [buildEntry, hpage]
  by_cases hg : i = layout.guard
  · have hprev : ¬ i - 1 = layout.guard := by omega
    rw [if_pos ((page_guard hi).mpr hg), h.rax (by omega), stored, stored, if_pos hg, if_neg hprev]
  · rw [if_neg (fun hp => hg ((page_guard hi).mp hp)), stored, if_neg hg]
    exact entry_built _

theorem Filled.turn {i : Nat} {s : State} (h : Filled layout i s) (hi : i < layout.pages) :
    Filled layout (i + 1) (commit s (buildEntry layout s)) := by
  have hend := layout.bssEnd.isLt
  have haligned := layout.bssEnd_aligned
  have hpt := layout.ptK.isLt
  have hptAligned := layout.ptK_aligned
  have hle := pages_le layout
  have hslot : s.rdi.toNat = layout.slot i := by
    rw [h.rdi, Layout.slot]
    exact Nat.mod_eq_of_lt (by omega)
  rw [h.build hi]
  constructor
  · intro _
    rfl
  · rw [Layout.pages] at hi
    simp only [commit, BitVec.toNat_add, h.rsi, PAGE_SIZE, BitVec.toNat_ofNat]
    omega
  · simp only [commit, BitVec.toNat_add, hslot, BitVec.toNat_ofNat, Layout.slot]
    omega
  · intro j hj
    simp only [commit, hslot]
    by_cases hji : j = i
    · rw [hji, Function.update_self]
    · rw [Function.update_of_ne (by simp only [Layout.slot]; omega), h.filled j (by omega)]

/-- The loop ends behind the last page. -/
theorem mapKernel_filled {turns i : Nat} {s s' : State} (h : Filled layout i s)
    (hi : i < layout.pages) (hrun : mapKernel layout turns s = some s') :
    Filled layout layout.pages s' := by
  induction turns generalizing i s with
  | zero => cases hrun
  | succ turns ih =>
    have hnext := h.turn hi
    rw [mapKernel] at hrun
    simp only [BitVec.lt_def, hnext.rsi, lt_pages] at hrun
    split at hrun
    · rename_i hi'
      exact ih hnext hi' hrun
    · rename_i hge
      cases hrun
      have hpages : layout.pages = i + 1 := by omega
      rw [hpages]
      exact hnext

theorem mapKernel_ends (turns : Nat) {i : Nat} {s : State} (h : Filled layout i s)
    (hi : i < layout.pages) (ht : layout.pages ≤ turns + i) :
    ∃ s', mapKernel layout turns s = some s' := by
  induction turns generalizing i s with
  | zero => omega
  | succ turns ih =>
    have hnext := h.turn hi
    rw [mapKernel]
    simp only [BitVec.lt_def, hnext.rsi, lt_pages]
    split
    · rename_i hi'
      exact ih hnext hi' (by omega)
    · exact ⟨_, rfl⟩

theorem entry_present (layout : Layout) (v : BitVec 64) : (layout.entry v).getLsbD 0 = true := by
  simp [Layout.entry, PAGE_PRESENT]

/-- Whatever the layout, the stack guard page is mapped: it shares the frame, and the whole
entry, of the page below it. All other pages have their entries. -/
theorem stackguard_shares_frame (layout : Layout) (mem : Nat → BitVec 64) :
    ¬ MapsKernel layout mem ∧
      ∃ turns s, mapKernel layout turns (enter layout mem) = some s ∧
        (∀ i < layout.pages, i ≠ layout.guard →
          s.mem (layout.slot i) = layout.entry (layout.page i)) ∧
        s.mem (layout.slot layout.guard) = layout.entry (layout.page (layout.guard - 1)) ∧
        (s.mem (layout.slot layout.guard)).getLsbD 0 = true := by
  obtain ⟨hpos, hlt⟩ := guard_lt layout
  have hstart := filled_enter layout mem
  have hguard : ∀ turns s, mapKernel layout turns (enter layout mem) = some s →
      s.mem (layout.slot layout.guard) = layout.entry (layout.page (layout.guard - 1)) := by
    intro turns s hrun
    have hfill := (mapKernel_filled hstart (by omega) hrun).filled layout.guard hlt
    rw [hfill, stored, if_pos rfl]
  constructor
  · rintro ⟨turns, s, hrun, hall⟩
    have hzero := hall layout.guard hlt
    rw [if_pos ((page_guard hlt).mpr rfl), hguard turns s hrun] at hzero
    have hpresent := entry_present layout (layout.page (layout.guard - 1))
    rw [hzero] at hpresent
    exact absurd hpresent (by decide)
  · obtain ⟨s, hrun⟩ := mapKernel_ends layout.pages hstart (by omega) (by omega)
    have hfill := mapKernel_filled hstart (by omega) hrun
    refine ⟨layout.pages, s, hrun, ?_, hguard _ s hrun, ?_⟩
    · intro i hi hne
      rw [hfill.filled i hi, stored, if_neg hne]
    · rw [hguard _ s hrun]
      exact entry_present layout _

/-- One page of code, and the stack guard page. -/
def twoPages : Layout where
  base := 0xffff800000000000
  rodataEnd := 0xffff800000001000
  stackguard := 0xffff800000001000
  bssEnd := 0xffff800000002000
  ptK := 0x105000
  base_aligned := by decide
  rodataEnd_aligned := by decide
  stackguard_aligned := by decide
  bssEnd_aligned := by decide
  ptK_aligned := by decide
  base_lt := by decide
  rodataEnd_le := by decide
  stackguard_lt := by decide
  one_table := by decide

/-- Both of them get the entry of the first one. -/
theorem two_pages_one_frame :
    ¬ MapsKernel twoPages (fun _ => 0) ∧
      ((mapKernel twoPages 2 (enter twoPages fun _ => 0)).map fun s =>
        (s.mem (twoPages.slot 0), s.mem (twoPages.slot 1))) = some (0x100001, 0x100001) := by
  constructor
  · rintro ⟨turns, s, hrun, hall⟩
    have hguard := hall 1 (by decide)
    have hfill := (mapKernel_filled (filled_enter twoPages _) (by decide) hrun).filled 1 (by decide)
    rw [hfill] at hguard
    exact absurd hguard (by decide)
  · decide

end Crabos.Start
