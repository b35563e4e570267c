import Crabos.Mem.BootPages

/-!
# The table of counters (`kernel/src/mem/phys.rs`, `kernel/linker.ld`)

The linker reserves addresses for one counter of each page below 2^48, without
frames behind them. `phys_init` maps the pages of the table that hold a counter
of a managed page.
-/
namespace Crabos.RcPages

open Crabos.Words Crabos.Radix Crabos.Run Crabos.User Crabos.Page
open Crabos.BootPages

/-- The counters of all pages below `MAX_PHYS_PAGE`. -/
def COUNTERS : Nat := Phys.MAX_PHYS_PAGE / PAGE_SIZE

/-- The table lies behind the kernel, which begins at the upper half, and below
the window. -/
structure RcTable where
  physRc : Nat
  aligned : PAGE_SIZE ∣ physRc
  upper : 0xffff800000000000 ≤ physRc
  below : physRc + 8 * COUNTERS + PAGE_SIZE ≤ CURRENT_PML

def RcTable.physRcEnd (rc : RcTable) : Nat := rc.physRc + 8 * COUNTERS

/-- The address of a counter, `base.add(page_number)`. -/
def RcTable.counter (rc : RcTable) (n : Nat) : Nat := rc.physRc + 8 * n

/-- The page that a counter is on. -/
def RcTable.refCountPage (rc : RcTable) (n : Nat) : Nat := rc.counter n / PAGE_SIZE * PAGE_SIZE

def isMapped (m : Machine) (virt : Nat) : Option Bool :=
  (load m (pml4Entry virt)).bind fun e₄ =>
  if e₄ = 0 then some false else
  (load m (pml3Entry virt)).bind fun e₃ =>
  if e₃ = 0 then some false else
  (load m (pml2Entry virt)).bind fun e₂ =>
  if e₂ = 0 then some false else
  (load m (pml1Entry virt)).map fun e₁ => e₁ ≠ 0

def rcFlags : Nat := PageFlags.PRESENT ||| PageFlags.WRITE

/-- A new page of counters; both calls are expected to succeed. -/
def mapRcPage (m : Machine) (page : Nat) : Option Machine :=
  (alloc m).bind fun
    | (none, _) => none
    | (some phys, m) => (Page.map m phys page rcFlags).bind expect

def ensureRcPage (rc : RcTable) (m : Machine) (phys : Nat) : Option Machine :=
  match Phys.refCount m.phys phys with
  | .error _ => none
  | .ok none => some m
  | .ok (some n) =>
    (isMapped m (rc.refCountPage n)).bind fun mapped =>
      if mapped then some m else mapRcPage m (rc.refCountPage n)

/-- The pages from `phys` to the end of a region. -/
def ensureRcPages (rc : RcTable) (m : Machine) (phys endAddr : Nat) : Option Machine :=
  if phys < endAddr then
    (ensureRcPage rc m phys).bind fun m => ensureRcPages rc m (phys + PAGE_SIZE) endAddr
  else some m
termination_by endAddr - phys
decreasing_by
  simp only [PAGE_SIZE]
  omega

/-- The last two loops of `phys_init`. -/
def mapRcPages (rc : RcTable) (m : Machine) (boundary : Nat) : Option Machine :=
  (run (fun m region => ensureRcPages rc m region.beginAddr region.endAddr) m
    m.phys.regions).bind fun m =>
  run (fun m i => ensureRcPage rc m (i * PAGE_SIZE)) m (List.range (boundary / PAGE_SIZE))

/-- All counters that are ever used are in the table. -/
def SlotsInside (rc : RcTable) (p : Phys.PhysMem) : Prop :=
  ∀ raw n, Phys.refCount p raw = .ok (some n) →
    rc.physRc ≤ rc.counter n ∧ rc.counter n + 8 ≤ rc.physRcEnd

/-- The processor finds all eight bytes of the counter. -/
def Mapped (rc : RcTable) (m : Machine) (n : Nat) : Prop :=
  ∀ a, rc.counter n ≤ a → a < rc.counter n + 8 → walk m.mem m.cr3 a ≠ none

/-- The regions are made up of pages. -/
def Paged (regions : List Phys.PhysRegion) : Prop :=
  ∀ r ∈ regions, PAGE_SIZE ∣ r.beginAddr ∧ PAGE_SIZE ∣ r.endAddr

/-- After `phys_init` the counters of all managed pages are there. -/
def SlotsMapped (rc : RcTable) (m : Machine) : Prop :=
  Paged m.phys.regions → ∀ boundary m', mapRcPages rc m boundary = some m' →
    ∀ raw n, Phys.refCount m'.phys raw = .ok (some n) → Mapped rc m' n

def Safe (rc : RcTable) (m : Machine) : Prop := SlotsInside rc m.phys ∧ SlotsMapped rc m

/-- The frames of the regions, in the order in which they are handed out. -/
def frames (regions : List Phys.PhysRegion) : List Nat :=
  upcoming regions (regions.map Phys.PhysRegion.beginAddr)

/-- The ways to the counter of a page, from the first table on. -/
def RcTable.waysTo (rc : RcTable) (raw : Nat) : List (List Nat) :=
  [1, 2, 3, 4].map fun k => (indices (rc.counter (raw / PAGE_SIZE))).take k

def RcTable.ways (rc : RcTable) (regions : List Phys.PhysRegion) : Finset (List Nat) :=
  (((frames regions).filter (· ≤ Phys.MAX_PHYS_PAGE)).flatMap rc.waysTo).toFinset

/-- How many tables and pages the counters lack. -/
def RcTable.need (rc : RcTable) (m : Machine) : Nat := (missing (rc.ways m.phys.regions) m).card

/-- The frames that are taken for them are distinct. -/
def Distinct (rc : RcTable) (m : Machine) : Prop :=
  ((frames m.phys.regions).take (rc.need m)).Nodup

instance (rc : RcTable) (m : Machine) : Decidable (Distinct rc m) :=
  inferInstanceAs (Decidable (List.Nodup _))

/-- The loops of `phys_init` begin: the PML4 leads back to itself, and the tables
of the kernel, which hold no entry that is not present, are not managed. -/
structure Started (m : Machine) : Prop where
  disabled : m.phys.refCountEnabled = false
  empty : m.phys.nextFree = none
  bump : m.phys.bumpAlloc = m.phys.regions.map Phys.PhysRegion.beginAddr
  self : next (m.mem (slot m.cr3 511)) = some m.cr3
  tables : ∀ is t, KernelWay is → is.length ≤ 3 → find next m.mem m.cr3 is = some t →
    ¬ Phys.Managed m.phys.regions t
  entries : ∀ is t i, KernelWay (is ++ [i]) → is.length ≤ 3 → find next m.mem m.cr3 is = some t →
    m.mem (slot t i) ≠ 0 → next (m.mem (slot t i)) ≠ none

variable {m m' : Machine}

section virt

variable {virt n : Nat} {D : Finset (List Nat)}

/-- The ways of the set lead also to the pages. -/
structure HasPage (D : Finset (List Nat)) (virt : Nat) : Prop where
  page : indices virt ∈ D
  tables : HasTables D virt

theorem mapRcPage_builds (hb : Boot n m) (hD : KernelWays D) (hn : (missing D m).card ≤ n)
    (hv : HasPage D virt) (hnone : find next m.mem m.cr3 (indices virt) = none)
    (h : mapRcPage m virt = some m') :
    ∃ n', Boot n' m' ∧ (missing D m').card ≤ n' ∧ Grows m m' ∧
      ∃ f, find next m'.mem m'.cr3 (indices virt) = some f := by
  have hk := (hD _ hv.page).1
  have hmissing : indices virt ∈ missing D m := mem_missing.mpr ⟨hv.page, hnone⟩
  have hpos := Finset.card_pos.mpr ⟨_, hmissing⟩
  obtain ⟨k, rfl⟩ : ∃ k, n = k + 1 := ⟨n - 1, by omega⟩
  obtain ⟨⟨x, m₁⟩, ha, h⟩ := Option.bind_eq_some_iff.mp h
  cases x with
  | none => cases h
  | some f =>
    obtain ⟨bump, hnext, rfl⟩ := hb.alloc_some ha
    obtain ⟨⟨r, m₂⟩, hmap, h⟩ := Option.bind_eq_some_iff.mp h
    cases r with
    | error e => cases h
    | ok u =>
      cases h
      have hg := hb.takes_grows hnext
      -- the frame is for the page itself: what is left is for its tables and the other ways
      have hD' : KernelWays (D.erase (indices virt)) := fun is his => hD is (Finset.mem_of_mem_erase his)
      have hv' : HasTables (D.erase (indices virt)) virt := by
        intro is hp hne
        refine Finset.mem_erase.mpr ⟨?_, hv.tables is hp hne⟩
        rintro rfl
        have hlen := hp.length_le
        simp [indices, lastTable] at hlen
      have herase : ∀ m, missing (D.erase (indices virt)) m = (missing D m).erase (indices virt) :=
        fun m => Finset.filter_erase _ _ _
      have hcount : (missing (D.erase (indices virt)) (takes m f bump)).card ≤ k := by
        have hle := Finset.card_le_card (missing_grows hD' hg)
        rw [herase m, Finset.card_erase_of_mem hmissing] at hle
        omega
      obtain ⟨n', hb', hn', hg', hfind⟩ := map_builds (hb.takes_boot hnext) hD' hcount hv' hk
        (hb.takes_spare hnext) (by decide) (by decide) hmap
      have hfound : indices virt ∉ missing D m' := by
        intro his
        rw [(mem_missing.mp his).2] at hfind
        cases hfind
      rw [herase, Finset.erase_eq_of_notMem hfound] at hn'
      exact ⟨n', hb', hn', hg.trans hg', f, hfind⟩

/-- A page of the kernel that is said to be mapped is found by the processor. -/
theorem isMapped_found (hb : Boot n m) (hk : KernelWay (indices virt))
    (h : isMapped m virt = some true) : ∃ f, find next m.mem m.cr3 (indices virt) = some f := by
  have hk₄ : KernelWay ([] ++ [pml4Index virt]) := kernelWay_front hk ⟨_, rfl⟩
  have hk₃ : KernelWay ([pml4Index virt] ++ [pml3Index virt]) := kernelWay_front hk ⟨_, rfl⟩
  have hk₂ : KernelWay ([pml4Index virt, pml3Index virt] ++ [pml2Index virt]) :=
    kernelWay_front hk ⟨_, rfl⟩
  have hk₁ : KernelWay ([pml4Index virt, pml3Index virt, pml2Index virt] ++ [pml1Index virt]) := hk
  have hroot : find next m.mem m.cr3 [] = some m.cr3 := rfl
  rw [isMapped, load_points hb.self (points_pml4Entry virt), hroot, Option.map_some,
    Option.bind_some] at h
  split at h
  · cases h
  · rename_i h₄
    obtain ⟨t₃, ht₃⟩ := hb.follow hk₄ (by simp) hroot h₄
    rw [List.nil_append] at ht₃
    rw [load_points hb.self (points_pml3Entry virt), ht₃, Option.map_some, Option.bind_some] at h
    split at h
    · cases h
    · rename_i h₃
      obtain ⟨t₂, ht₂⟩ := hb.follow hk₃ (by simp) ht₃ h₃
      rw [List.cons_append, List.nil_append] at ht₂
      rw [load_points hb.self (points_pml2Entry virt), ht₂, Option.map_some, Option.bind_some] at h
      split at h
      · cases h
      · rename_i h₂
        obtain ⟨t₁, ht₁⟩ := hb.follow hk₂ (by simp) ht₂ h₂
        rw [List.cons_append, List.cons_append, List.nil_append] at ht₁
        rw [load_points hb.self (points_pml1Entry virt), ht₁, Option.map_some, Option.map_some] at h
        have h₁ : m.mem (slot t₁ (pml1Index virt)) ≠ 0 := of_decide_eq_true (Option.some.inj h)
        exact hb.follow hk₁ (by simp) ht₁ h₁

/-- A page that is said not to be mapped is one that the counters lack. -/
theorem isMapped_missing (hb : Boot n m) (h : isMapped m virt = some false) :
    find next m.mem m.cr3 (indices virt) = none := by
  cases hf : find next m.mem m.cr3 (indices virt) with
  | none => rfl
  | some f =>
    have hsplit : ∀ is i u, find next m.mem m.cr3 (is ++ [i]) = some u →
        ∃ t, find next m.mem m.cr3 is = some t ∧ m.mem (slot t i) ≠ 0 := by
      intro is i u hu
      rw [find_concat] at hu
      obtain ⟨t, ht, hu⟩ := Option.bind_eq_some_iff.mp hu
      exact ⟨t, ht, (next_some hu).1⟩
    obtain ⟨t₁, ht₁, h₁⟩ :=
      hsplit [pml4Index virt, pml3Index virt, pml2Index virt] (pml1Index virt) f hf
    obtain ⟨t₂, ht₂, h₂⟩ := hsplit [pml4Index virt, pml3Index virt] (pml2Index virt) t₁ ht₁
    obtain ⟨t₃, ht₃, h₃⟩ := hsplit [pml4Index virt] (pml3Index virt) t₂ ht₂
    obtain ⟨t₄, ht₄, h₄⟩ := hsplit [] (pml4Index virt) t₃ ht₃
    rw [isMapped, load_points hb.self (points_pml4Entry virt), ht₄, Option.map_some, Option.bind_some,
      if_neg h₄, load_points hb.self (points_pml3Entry virt), ht₃, Option.map_some, Option.bind_some,
      if_neg h₃, load_points hb.self (points_pml2Entry virt), ht₂, Option.map_some, Option.bind_some,
      if_neg h₂, load_points hb.self (points_pml1Entry virt), ht₁, Option.map_some, Option.map_some] at h
    exact absurd h (by simp [h₁])

end virt

/-! The frames of the regions. -/

theorem mem_frames {regions : List Phys.PhysRegion} {raw : Nat} :
    raw ∈ frames regions ↔
      ∃ r ∈ regions, ∃ k, raw = r.beginAddr + k * PAGE_SIZE ∧ raw < r.endAddr := by
  induction regions with
  | nil => simp [frames, upcoming]
  | cons r regions ih =>
    rw [frames, List.map_cons, upcoming, List.mem_append, mem_pagesFrom, ← frames, ih]
    simp

theorem frames_managed {regions : List Phys.PhysRegion} {raw : Nat} (h : raw ∈ frames regions) :
    Phys.Managed regions raw := by
  obtain ⟨r, hr, k, rfl, hlt⟩ := mem_frames.mp h
  exact ⟨r, hr, Nat.le_add_right _ _, hlt⟩

section paged

variable {regions : List Phys.PhysRegion} {raw : Nat} (hpaged : Paged regions)

include hpaged

theorem frames_aligned (h : raw ∈ frames regions) : PAGE_SIZE ∣ raw := by
  obtain ⟨r, hr, k, rfl, -⟩ := mem_frames.mp h
  exact (Nat.dvd_add_right (hpaged r hr).1).mpr (Nat.dvd_mul_left _ _)

theorem managed_frame (h : Phys.Managed regions raw) (ha : PAGE_SIZE ∣ raw) : raw ∈ frames regions := by
  obtain ⟨r, hr, hle, hlt⟩ := h
  obtain ⟨j, hj⟩ := (hpaged r hr).1
  obtain ⟨k, hk⟩ := ha
  refine mem_frames.mpr ⟨r, hr, k - j, ?_, hlt⟩
  rw [hj, hk] at hle ⊢
  rw [Nat.mul_comm, Nat.sub_mul]
  simp only [PAGE_SIZE] at *
  omega

end paged

/-! Counters and their pages. -/

theorem refCount_some {p : Phys.PhysMem} {raw n : Nat} :
    Phys.refCount p raw = .ok (some n) ↔
      Phys.Managed p.regions raw ∧ raw ≤ Phys.MAX_PHYS_PAGE ∧ n = raw / PAGE_SIZE := by
  have hdiv : raw ≤ Phys.MAX_PHYS_PAGE → raw / PAGE_SIZE ≤ Phys.MAX_PHYS_PAGE / PAGE_SIZE :=
    fun h => Nat.div_le_div_right h
  rw [Phys.refCount]
  split
  · simp_all
  · split
    · simp
      omega
    · split
      · simp
        omega
      · simp_all [eq_comm]

/-- Addresses from the upper half on, up to the window. -/
theorem kernelWay_indices {virt : Nat} (h₁ : 0xffff800000000000 ≤ virt) (h₂ : virt < CURRENT_PML) :
    KernelWay (indices virt) := by
  refine ⟨indices_lt virt, ?_⟩
  intro i hi
  have hi : pml4Index virt = i := Option.some.inj hi
  subst hi
  simp only [pml4Index, CURRENT_PML] at h₂ ⊢
  omega

/-- The four tables are the same for all addresses of a page. -/
theorem indices_page {a b : Nat} (h : a / PAGE_SIZE = b / PAGE_SIZE) : indices a = indices b := by
  simp only [PAGE_SIZE] at h
  simp only [indices, pml4Index, pml3Index, pml2Index, pml1Index, List.cons.injEq, and_true]
  omega

section table

variable {rc : RcTable} {raw n : Nat}

theorem indices_refCountPage : indices (rc.refCountPage n) = indices (rc.counter n) := by
  apply indices_page
  rw [RcTable.refCountPage, Nat.mul_div_cancel _ (by decide)]

theorem kernelWay_counter (h : n ≤ COUNTERS) : KernelWay (indices (rc.counter n)) := by
  have hupper := rc.upper
  have hbelow := rc.below
  apply kernelWay_indices
  · rw [RcTable.counter]
    omega
  · simp only [RcTable.counter, PAGE_SIZE] at *
    omega

theorem counter_le {p : Phys.PhysMem} (h : Phys.refCount p raw = .ok (some n)) : n ≤ COUNTERS := by
  obtain ⟨-, hmax, rfl⟩ := refCount_some.mp h
  exact Nat.div_le_div_right hmax

/-- The counter of the page, if there is one, is on a page that is mapped. -/
def Counted (rc : RcTable) (m : Machine) (raw : Nat) : Prop :=
  ∀ n, Phys.refCount m.phys raw = .ok (some n) →
    ∃ f, find next m.mem m.cr3 (indices (rc.counter n)) = some f

theorem counted_grows (hg : Grows m m') (h : Counted rc m raw) : Counted rc m' raw := by
  intro n hn
  have hn : Phys.refCount m.phys raw = .ok (some n) := by
    rw [refCount_some, hg.regions] at hn
    exact refCount_some.mpr hn
  obtain ⟨f, hf⟩ := h n hn
  exact ⟨f, hg.finds _ f (kernelWay_counter (counter_le hn)) (by simp [indices]) hf⟩

variable {regions : List Phys.PhysRegion}

theorem kernelWays_ways : KernelWays (rc.ways regions) := by
  intro is his
  rw [RcTable.ways, List.mem_toFinset, List.mem_flatMap] at his
  obtain ⟨f, hf, his⟩ := his
  obtain ⟨k, -, rfl⟩ := List.mem_map.mp his
  have hmax : f ≤ Phys.MAX_PHYS_PAGE := of_decide_eq_true (List.mem_filter.mp hf).2
  have hk : KernelWay (indices (rc.counter (f / PAGE_SIZE))) :=
    kernelWay_counter (Nat.div_le_div_right hmax)
  exact ⟨kernelWay_front hk (List.take_prefix _ _), List.length_take_le' _ _⟩

/-- The frames that are ahead are enough for the tables and pages that the counters lack. -/
structure Supplied (rc : RcTable) (regions : List Phys.PhysRegion) (m : Machine) : Prop where
  paged : Paged regions
  same : m.phys.regions = regions
  enough : ∃ n, Boot n m ∧ (missing (rc.ways regions) m).card ≤ n

theorem Supplied.hasPage (hs : Supplied rc regions m) (ha : PAGE_SIZE ∣ raw)
    (h : Phys.refCount m.phys raw = .ok (some n)) : HasPage (rc.ways regions) (rc.refCountPage n) := by
  obtain ⟨hmanaged, hmax, rfl⟩ := refCount_some.mp h
  rw [hs.same] at hmanaged
  have hway : ∀ k ∈ [1, 2, 3, 4],
      (indices (rc.refCountPage (raw / PAGE_SIZE))).take k ∈ rc.ways regions := by
    intro k hk
    rw [indices_refCountPage, RcTable.ways, List.mem_toFinset, List.mem_flatMap]
    refine ⟨raw, List.mem_filter.mpr ⟨managed_frame hs.paged hmanaged ha, decide_eq_true hmax⟩, ?_⟩
    exact List.mem_map.mpr ⟨k, hk, rfl⟩
  refine ⟨hway 4 (by simp), ?_⟩
  intro is hp hne
  have hlast : lastTable (rc.refCountPage (raw / PAGE_SIZE)) <+:
      indices (rc.refCountPage (raw / PAGE_SIZE)) := ⟨_, rfl⟩
  have hlen := hp.length_le
  have hpos := List.length_pos_iff.mpr hne
  rw [List.prefix_iff_eq_take.mp (hp.trans hlast)]
  apply hway
  simp only [lastTable, List.length_cons, List.length_nil] at hlen
  simp only [List.mem_cons, List.not_mem_nil, or_false]
  omega

theorem ensureRcPage_grows (hs : Supplied rc regions m) (ha : PAGE_SIZE ∣ raw)
    (h : ensureRcPage rc m raw = some m') :
    Supplied rc regions m' ∧ Grows m m' ∧ Counted rc m' raw := by
  rw [ensureRcPage] at h
  cases hr : Phys.refCount m.phys raw with
  | error e =>
    rw [hr] at h
    cases h
  | ok x =>
    cases x with
    | none =>
      rw [hr] at h
      cases h
      refine ⟨hs, .refl m, ?_⟩
      intro n hn
      rw [hr] at hn
      cases hn
    | some n =>
      have hv := hs.hasPage ha hr
      obtain ⟨k, hb, hk⟩ := hs.enough
      have hpage : ∃ k', Boot k' m' ∧ (missing (rc.ways regions) m').card ≤ k' ∧ Grows m m' ∧
          ∃ f, find next m'.mem m'.cr3 (indices (rc.refCountPage n)) = some f := by
        rw [hr] at h
        obtain ⟨mapped, hmapped, h⟩ := Option.bind_eq_some_iff.mp h
        cases mapped with
        | true =>
          cases h
          exact ⟨k, hb, hk, .refl m, isMapped_found hb (kernelWays_ways _ hv.page).1 hmapped⟩
        | false => exact mapRcPage_builds hb kernelWays_ways hk hv (isMapped_missing hb hmapped) h
      obtain ⟨k', hb', hk', hg, hfound⟩ := hpage
      refine ⟨⟨hs.paged, hg.regions.trans hs.same, k', hb', hk'⟩, hg, ?_⟩
      intro n' hn'
      rw [refCount_some, hg.regions, ← refCount_some, hr] at hn'
      cases hn'
      rw [← indices_refCountPage]
      exact hfound

/-- The loop over a region reaches each of its pages. -/
theorem ensureRcPages_grows {phys endAddr : Nat} (hs : Supplied rc regions m) (ha : PAGE_SIZE ∣ phys)
    (h : ensureRcPages rc m phys endAddr = some m') :
    Supplied rc regions m' ∧ Grows m m' ∧
      ∀ k, phys + k * PAGE_SIZE < endAddr → Counted rc m' (phys + k * PAGE_SIZE) := by
  induction m, phys using ensureRcPages.induct endAddr with
  | case1 m phys hlt ih =>
    rw [ensureRcPages, if_pos hlt] at h
    obtain ⟨m₁, hone, hrest⟩ := Option.bind_eq_some_iff.mp h
    obtain ⟨hs₁, hg, hc⟩ := ensureRcPage_grows hs ha hone
    have ha₁ : PAGE_SIZE ∣ phys + PAGE_SIZE := (Nat.dvd_add_right ha).mpr (Nat.dvd_refl _)
    obtain ⟨hs', hg', hc'⟩ := ih m₁ hs₁ ha₁ hrest
    refine ⟨hs', hg.trans hg', ?_⟩
    intro k hk
    cases k with
    | zero =>
      rw [Nat.zero_mul, Nat.add_zero]
      exact counted_grows hg' hc
    | succ k =>
      have hnext : phys + (k + 1) * PAGE_SIZE = phys + PAGE_SIZE + k * PAGE_SIZE := by
        rw [Nat.succ_mul]
        omega
      rw [hnext] at hk ⊢
      exact hc' k hk
  | case2 m phys hge =>
    rw [ensureRcPages, if_neg hge] at h
    cases h
    refine ⟨hs, .refl _, ?_⟩
    intro k hk
    omega

/-- All pages of all regions have their counters. -/
theorem mapRcPages_grows {boundary : Nat} (hs : Supplied rc regions m)
    (h : mapRcPages rc m boundary = some m') :
    Grows m m' ∧ ∀ r ∈ regions, ∀ k, r.beginAddr + k * PAGE_SIZE < r.endAddr →
      Counted rc m' (r.beginAddr + k * PAGE_SIZE) := by
  obtain ⟨m₁, hregions, hlow⟩ := Option.bind_eq_some_iff.mp h
  rw [hs.same] at hregions
  have hstep : ∀ r ∈ regions, ∀ m m', Supplied rc regions m →
      ensureRcPages rc m r.beginAddr r.endAddr = some m' → Supplied rc regions m' ∧ Grows m m' ∧
        ∀ k, r.beginAddr + k * PAGE_SIZE < r.endAddr →
          Counted rc m' (r.beginAddr + k * PAGE_SIZE) :=
    fun r hr m m' hs h => ensureRcPages_grows hs (hs.paged r hr).1 h
  obtain ⟨hs₁, hg, hc⟩ :=
    run_grows hstep (fun m m' r hg hc k hk => counted_grows hg (hc k hk)) hs hregions
  have hpage : ∀ i ∈ List.range (boundary / PAGE_SIZE), ∀ m m', Supplied rc regions m →
      ensureRcPage rc m (i * PAGE_SIZE) = some m' →
        Supplied rc regions m' ∧ Grows m m' ∧ Counted rc m' (i * PAGE_SIZE) :=
    fun i _ m m' hs h => ensureRcPage_grows hs (Nat.dvd_mul_left _ _) h
  obtain ⟨-, hg', -⟩ := run_grows hpage (fun m m' i hg hc => counted_grows hg hc) hs₁ hlow
  exact ⟨hg.trans hg', fun r hr k hk => counted_grows hg' (hc r hr k hk)⟩

end table

theorem Started.supplied {rc : RcTable} (hm : Started m) (hpaged : Paged m.phys.regions)
    (hdistinct : Distinct rc m) : Supplied rc m.phys.regions m := by
  have hup : upcoming m.phys.regions m.phys.bumpAlloc = frames m.phys.regions := by
    rw [hm.bump, frames]
  refine ⟨hpaged, rfl, rc.need m, ?_, Nat.le_refl _⟩
  constructor
  · exact hm.disabled
  · exact hm.empty
  · rw [hup]
    exact fun f hf => frames_aligned hpaged hf
  · rw [ahead, hup]
    exact hdistinct
  · exact hm.self
  · intro is t hw hlen ht hahead
    rw [ahead, hup] at hahead
    exact hm.tables is t hw hlen ht (frames_managed (List.mem_of_mem_take hahead))
  · exact hm.entries

/-- The page of an address is one of the pages of its region. -/
theorem page_of_region {r : Phys.PhysRegion} {raw : Nat} (ha : PAGE_SIZE ∣ r.beginAddr)
    (h : r.beginAddr ≤ raw) :
    r.beginAddr + (raw - r.beginAddr) / PAGE_SIZE * PAGE_SIZE = raw / PAGE_SIZE * PAGE_SIZE := by
  obtain ⟨k, hk⟩ := ha
  rw [hk] at h ⊢
  simp only [PAGE_SIZE] at *
  omega

theorem Started.slotsMapped {rc : RcTable} (hm : Started m) (hdistinct : Distinct rc m) :
    SlotsMapped rc m := by
  intro hpaged boundary m' h raw n hn
  obtain ⟨hg, hc⟩ := mapRcPages_grows (hm.supplied hpaged hdistinct) h
  obtain ⟨⟨r, hr, h₁, h₂⟩, hmax, hidx⟩ := refCount_some.mp hn
  have hr' : r ∈ m.phys.regions := hg.regions ▸ hr
  have hpage := page_of_region (hpaged r hr').1 h₁
  have hle : raw / PAGE_SIZE * PAGE_SIZE ≤ raw := Nat.div_mul_le_self _ _
  have hcounted := hc r hr' ((raw - r.beginAddr) / PAGE_SIZE) (by omega)
  rw [hpage] at hcounted
  have hsame : Phys.refCount m'.phys (raw / PAGE_SIZE * PAGE_SIZE) = .ok (some n) := by
    refine refCount_some.mpr ⟨⟨r, hr, by omega, by omega⟩, by omega, ?_⟩
    rw [Nat.mul_div_cancel _ (by decide), hidx]
  obtain ⟨f, hf⟩ := hcounted n hsame
  intro a h₁ h₂
  have hone : a / PAGE_SIZE = rc.counter n / PAGE_SIZE := by
    -- a counter does not reach into the next page
    obtain ⟨k, hk⟩ := rc.aligned
    simp only [RcTable.counter, hk, PAGE_SIZE] at *
    omega
  rw [walk, indices_page hone, hf]
  simp

theorem slotsInside_iff (rc : RcTable) (p : Phys.PhysMem) :
    SlotsInside rc p ↔ ¬ Phys.Managed p.regions Phys.MAX_PHYS_PAGE := by
  constructor
  · intro h hmanaged
    have hlast := (h Phys.MAX_PHYS_PAGE COUNTERS
      (refCount_some.mpr ⟨hmanaged, Nat.le_refl _, rfl⟩)).2
    rw [RcTable.counter, RcTable.physRcEnd] at hlast
    omega
  · intro h raw n hn
    obtain ⟨hmanaged, hmax, rfl⟩ := refCount_some.mp hn
    have hlt : raw < Phys.MAX_PHYS_PAGE := by
      apply Nat.lt_of_le_of_ne hmax
      rintro rfl
      exact h hmanaged
    rw [RcTable.counter, RcTable.physRcEnd]
    simp only [COUNTERS, Phys.MAX_PHYS_PAGE, PAGE_SIZE] at hlt ⊢
    omega

/-- One address is let through too many: the page at 2^48 has no counter in the table.
The counters of all other pages are there if no frame is handed out twice for them. -/
theorem counters_safe (rc : RcTable) {m : Machine} (hm : Started m) :
    (Safe rc m → ¬ Phys.Managed m.phys.regions Phys.MAX_PHYS_PAGE) ∧
      (¬ Phys.Managed m.phys.regions Phys.MAX_PHYS_PAGE → Distinct rc m → Safe rc m) := by
  constructor
  · intro h
    exact (slotsInside_iff rc m.phys).mp h.1
  · intro h hdistinct
    exact ⟨(slotsInside_iff rc m.phys).mpr h, hm.slotsMapped hdistinct⟩

/-! A kernel with the tables of its temporary page. -/

def bootMem : Mem := fun a =>
  if a = slot 0x1000 511 then 0x1003
  else if a = slot 0x1000 256 then 0x2003
  else if a = slot 0x2000 0 then 0x3003
  else if a = slot 0x3000 0 then 0x4003
  else 0

def bootMachine (regions : List Phys.PhysRegion) : Machine where
  phys :=
    { regions := regions
      bumpAlloc := regions.map Phys.PhysRegion.beginAddr
      refCountEnabled := false
      nextFree := none
      rc := fun _ => 0
      mem := bootMem }
  cr3 := 0x1000
  tempPage := 0xffff800000004000

theorem bootMachine_mem (regions : List Phys.PhysRegion) : (bootMachine regions).mem = bootMem := rfl

theorem bootMachine_cr3 (regions : List Phys.PhysRegion) : (bootMachine regions).cr3 = 0x1000 := rfl

def bootTables : List Nat := [0x1000, 0x2000, 0x3000, 0x4000]

theorem bootMem_next {a : Nat} (h0 : bootMem a ≠ 0) :
    ∃ t ∈ bootTables, next (bootMem a) = some t := by
  rw [bootMem] at h0 ⊢
  split_ifs at h0 ⊢
  · exact ⟨0x1000, by decide, by decide⟩
  · exact ⟨0x2000, by decide, by decide⟩
  · exact ⟨0x3000, by decide, by decide⟩
  · exact ⟨0x4000, by decide, by decide⟩
  · exact absurd rfl h0

theorem bootMem_find {is : List Nat} {t : Nat} (h : find next bootMem 0x1000 is = some t) :
    t ∈ bootTables := by
  induction is using List.reverseRecOn with
  | nil =>
    cases h
    decide
  | append_singleton is i _ =>
    rw [find_concat] at h
    obtain ⟨u, -, hu⟩ := Option.bind_eq_some_iff.mp h
    obtain ⟨t', ht', hnext⟩ := bootMem_next (next_some hu).1
    rw [hnext] at hu
    cases hu
    exact ht'

theorem bootMem_self : next (bootMem (slot 0x1000 511)) = some 0x1000 := by
  decide

theorem started_boot {regions : List Phys.PhysRegion}
    (h : ∀ t ∈ bootTables, ¬ Phys.Managed regions t) : Started (bootMachine regions) := by
  constructor
  · rfl
  · rfl
  · rfl
  · rw [bootMachine_mem, bootMachine_cr3, bootMem_self]
  · intro is t _ _ ht
    exact h t (bootMem_find ht)
  · intro is t i _ _ _ h0 hnone
    obtain ⟨u, -, hu⟩ := bootMem_next h0
    exact absurd (hu.symm.trans hnone) (by simp)

def lowTable : RcTable := ⟨0xffff800000a00000, by decide, by decide, by decide⟩

/-- The regions share a page, which is not among the two frames that are taken. -/
def twoRegions : List Phys.PhysRegion := [⟨0x200000, 0x210000⟩, ⟨0x20f000, 0x211000⟩]

theorem counters_safe_two :
    Started (bootMachine twoRegions) ∧ lowTable.need (bootMachine twoRegions) = 2 ∧
      Safe lowTable (bootMachine twoRegions) := by
  have hstarted : Started (bootMachine twoRegions) := started_boot (by decide)
  exact ⟨hstarted, by decide +kernel,
    (counters_safe lowTable hstarted).2 (by decide) (by decide +kernel)⟩

def lastRegion : List Phys.PhysRegion := [⟨0x1000000000000, 0x1000000001000⟩]

/-- The counter of the page at 2^48 begins where the table ends. -/
theorem last_counter_outside :
    Started (bootMachine lastRegion) ∧
      Phys.refCount (bootMachine lastRegion).phys 0x1000000000000 = .ok (some COUNTERS) ∧
      lowTable.counter COUNTERS = lowTable.physRcEnd ∧
      ¬ Safe lowTable (bootMachine lastRegion) := by
  refine ⟨started_boot (by decide), by decide, rfl, ?_⟩
  intro h
  exact (slotsInside_iff lowTable _).mp h.1 (by decide)

def overlapping : List Phys.PhysRegion :=
  [⟨0x200000, 0x202000⟩, ⟨0x200000, 0x202000⟩, ⟨0x400000, 0x401000⟩, ⟨0x600000, 0x601000⟩]

/-- Regions that overlap give a frame twice, here a table as a page of counters: the first of
these pages is lost. -/
example : ¬ Distinct lowTable (bootMachine overlapping) ∧
    (mapRcPages lowTable (bootMachine overlapping) 0).any fun m =>
      walk m.mem m.cr3 (lowTable.counter 0x200) = none := by
  decide +kernel

end Crabos.RcPages
