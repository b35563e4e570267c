import Crabos.Mem.Phys

/-!
# The regions of the frame allocator (`kernel/src/mem/phys.rs`)

`phys_init` takes the usable regions from the memory map of the BIOS, clipped to
the memory above the kernel, into two vectors of a fixed capacity. `alloc_new`
steps through each of these regions in pages.
-/
namespace Crabos.Phys

/-- An entry of the memory map; `kind` tells if it is usable. -/
structure BiosMemoryRegion where
  beginAddr : UInt64
  size : UInt64
  kind : UInt32
  deriving DecidableEq, Repr

def REGION_KIND_USABLE : UInt32 := 1

/-- The capacity of both vectors. -/
def CAPACITY : Nat := 8

inductive InitPanic where
  | overflow
  | capacity
  deriving DecidableEq, Repr

namespace BiosMemoryRegion

variable (region : BiosMemoryRegion)

def endAddr : Nat := region.beginAddr.toNat + region.size.toNat

def Usable : Prop := region.kind = REGION_KIND_USABLE

instance : Decidable region.Usable := inferInstanceAs (Decidable (_ = _))

/-- The region from the boundary on. -/
def clip (boundary : Nat) : PhysRegion where
  beginAddr := if region.beginAddr.toNat < boundary then boundary else region.beginAddr.toNat
  endAddr := region.endAddr

/-- A usable region whose end reaches the boundary. -/
def Reaches (boundary : Nat) : Prop := region.Usable ∧ boundary ≤ region.endAddr

instance (boundary : Nat) : Decidable (region.Reaches boundary) :=
  inferInstanceAs (Decidable (_ ∧ _))

end BiosMemoryRegion

/-- The loop of `phys_init` over the memory map. `ArrayVec::push` panics at a full vector,
`try_push` returns an error. -/
def regionLoop (boundary : Nat) :
    List BiosMemoryRegion → List PhysRegion → List Nat →
      Except InitPanic (List PhysRegion × List Nat)
  | [], regions, bump => .ok (regions, bump)
  | region :: rest, regions, bump =>
    if region.kind ≠ REGION_KIND_USABLE then regionLoop boundary rest regions bump
    else if 2 ^ 64 ≤ region.endAddr then .error .overflow
    else if region.endAddr < boundary then regionLoop boundary rest regions bump
    else if regions.length = CAPACITY then .error .capacity
    else if bump.length = CAPACITY then .ok (regions ++ [region.clip boundary], bump)
    else
      regionLoop boundary rest (regions ++ [region.clip boundary])
        (bump ++ [(region.clip boundary).beginAddr])

/-- `phys_init` as far as its regions. -/
def physInit (boundary : Nat) (map : List BiosMemoryRegion) :
    Except InitPanic (List PhysRegion × List Nat) := regionLoop boundary map [] []

/-- The usable regions that reach the boundary, in order. -/
def reaching (boundary : Nat) (map : List BiosMemoryRegion) : List BiosMemoryRegion :=
  map.filter fun region => region.Reaches boundary

/-- No end of a region wraps around. -/
def NoWrap (map : List BiosMemoryRegion) : Prop := ∀ region ∈ map, region.endAddr < 2 ^ 64

instance (map : List BiosMemoryRegion) : Decidable (NoWrap map) :=
  inferInstanceAs (Decidable (∀ region ∈ map, _))

/-- The first regions that reach the boundary are there, in both vectors. -/
def TakesRegions (boundary : Nat) (map : List BiosMemoryRegion) : Prop :=
  ∃ regions bump, physInit boundary map = .ok (regions, bump) ∧
    regions.length = bump.length ∧ regions.length ≤ CAPACITY ∧
    regions = ((reaching boundary map).take CAPACITY).map (·.clip boundary) ∧
    bump = regions.map PhysRegion.beginAddr

section init

variable {boundary : Nat} {map : List BiosMemoryRegion}

/-- The loop takes all regions that reach the boundary, as long as there is room. -/
theorem regionLoop_eq (hwrap : NoWrap map) (regions : List PhysRegion)
    (hroom : regions.length ≤ CAPACITY) :
    regionLoop boundary map regions (regions.map PhysRegion.beginAddr) =
      if regions.length + (reaching boundary map).length ≤ CAPACITY then
        .ok (regions ++ (reaching boundary map).map (·.clip boundary),
          (regions ++ (reaching boundary map).map (·.clip boundary)).map PhysRegion.beginAddr)
      else .error .capacity := by
  induction map generalizing regions with
  | nil => simp [regionLoop, reaching, hroom]
  | cons region rest ih =>
    have hrest : NoWrap rest := fun r hr => hwrap r (List.mem_cons_of_mem _ hr)
    have hend : ¬ 2 ^ 64 ≤ region.endAddr := Nat.not_le.mpr (hwrap region List.mem_cons_self)
    by_cases hreach : region.Reaches boundary
    · have hreaching : reaching boundary (region :: rest) = region :: reaching boundary rest := by
        simp [reaching, hreach]
      have husable : region.kind = REGION_KIND_USABLE := hreach.1
      rw [regionLoop, if_neg (not_not.mpr husable), if_neg hend,
        if_neg (Nat.not_lt.mpr hreach.2), hreaching]
      by_cases hfull : regions.length = CAPACITY
      · rw [if_pos hfull, if_neg]
        rw [List.length_cons]
        omega
      · have hlen : (regions ++ [region.clip boundary]).length ≤ CAPACITY := by
          rw [List.length_append, List.length_singleton]
          omega
        have hstep := ih hrest (regions ++ [region.clip boundary]) hlen
        rw [List.map_append, List.map_singleton] at hstep
        rw [if_neg hfull, List.length_map, if_neg hfull, hstep]
        simp only [List.length_append, List.length_cons, List.length_nil, List.map_cons,
          List.append_assoc, List.singleton_append, Nat.add_assoc, Nat.add_comm 1, Nat.zero_add]
    · have hreaching : reaching boundary (region :: rest) = reaching boundary rest := by
        simp [reaching, hreach]
      rw [hreaching, ← ih hrest regions hroom, regionLoop]
      by_cases husable : region.kind = REGION_KIND_USABLE
      · have hbelow : region.endAddr < boundary :=
          Nat.not_le.mp fun hle => hreach ⟨husable, hle⟩
        rw [if_neg (not_not.mpr husable), if_neg hend, if_pos hbelow]
      · rw [if_pos husable]

theorem physInit_eq (hwrap : NoWrap map) :
    physInit boundary map =
      if (reaching boundary map).length ≤ CAPACITY then
        .ok ((reaching boundary map).map (·.clip boundary),
          ((reaching boundary map).map (·.clip boundary)).map PhysRegion.beginAddr)
      else .error .capacity := by
  have h : regionLoop boundary map [] [] = _ := regionLoop_eq hwrap [] (Nat.zero_le _)
  rw [List.length_nil, Nat.zero_add, List.nil_append] at h
  exact h

/-- The regions are taken as they should be just when there are no more than fit. -/
theorem takesRegions_iff (boundary : UInt64) {map : List BiosMemoryRegion} (hwrap : NoWrap map) :
    TakesRegions boundary.toNat map ↔ (reaching boundary.toNat map).length ≤ CAPACITY := by
  constructor
  · rintro ⟨regions, bump, hinit, -⟩
    by_contra hmany
    rw [physInit_eq hwrap, if_neg hmany] at hinit
    cases hinit
  · intro hfit
    refine ⟨_, _, (physInit_eq hwrap).trans (if_pos hfit), ?_, ?_, ?_, rfl⟩
    · simp only [List.length_map]
    · rw [List.length_map]
      exact hfit
    · rw [List.take_of_length_le hfit]

end init

/-- Usable regions of one page with gaps between them. -/
def pagesMap (n : Nat) : List BiosMemoryRegion :=
  (List.range n).map fun i => ⟨UInt64.ofNat (0x200000 + 0x2000 * i), 0x1000, 1⟩

theorem takesRegions_eight :
    NoWrap (pagesMap 8) ∧ TakesRegions (UInt64.toNat 0x100000) (pagesMap 8) := by
  have hwrap : NoWrap (pagesMap 8) := by decide
  exact ⟨hwrap, (takesRegions_iff 0x100000 hwrap).mpr (by decide)⟩

/-- The ninth region is a panic, before the vector of bump pointers is found to be full. -/
theorem ninth_region_panics :
    NoWrap (pagesMap 9) ∧ physInit 0x100000 (pagesMap 9) = .error .capacity ∧
      ¬ TakesRegions 0x100000 (pagesMap 9) := by
  have hwrap : NoWrap (pagesMap 9) := by decide
  have hpanic : physInit 0x100000 (pagesMap 9) = .error .capacity := by
    rw [physInit_eq hwrap]
    decide
  refine ⟨hwrap, hpanic, ?_⟩
  rintro ⟨regions, bump, hinit, -⟩
  rw [hpanic] at hinit
  cases hinit

/-! The frames of the regions. -/

/-- `*alloc += PAGE_SIZE`, which panics in the debug build if it overflows. -/
def advance (debug : Bool) (alloc : Nat) : Option Nat :=
  if alloc + PAGE_SIZE < 2 ^ 64 then some (alloc + PAGE_SIZE)
  else if debug then none else some ((alloc + PAGE_SIZE) % 2 ^ 64)

/-- `alloc_new` on the bump pointers; `some none` is `MemoryExhausted`. -/
def allocNewFrame (debug : Bool) : List PhysRegion → List Nat → Option (Option (Nat × List Nat))
  | region :: regions, alloc :: bump =>
    if region.endAddr ≤ alloc then
      (allocNewFrame debug regions bump).map fun r => r.map fun (raw, bump) => (raw, alloc :: bump)
    else (advance debug alloc).map fun next => some (alloc, next :: bump)
  | _, _ => some none

/-- The frames that so many calls hand out, up to a panic. -/
def handed (debug : Bool) (regions : List PhysRegion) : Nat → List Nat → List Nat
  | 0, _ => []
  | n + 1, bump =>
    match allocNewFrame debug regions bump with
    | none => []
    | some none => handed debug regions n bump
    | some (some (raw, bump)) => raw :: handed debug regions n bump

/-- Below the last page of the address space nothing overflows, and this is what `allocNew`
does with the bump pointers. -/
theorem allocNewFrame_bumpNext {regions : List PhysRegion}
    (h : ∀ r ∈ regions, r.endAddr + PAGE_SIZE ≤ 2 ^ 64) (debug : Bool) (bump : List Nat) :
    allocNewFrame debug regions bump = some (bumpNext regions bump) := by
  induction regions generalizing bump with
  | nil => rfl
  | cons region regions ih =>
    cases bump with
    | nil => rfl
    | cons alloc bump =>
      rw [allocNewFrame, bumpNext]
      by_cases hend : region.endAddr ≤ alloc
      · rw [if_pos hend, if_pos hend, ih fun r hr => h r (List.mem_cons_of_mem _ hr)]
        rfl
      · have hregion := h region List.mem_cons_self
        have hadvance : advance debug alloc = some (alloc + PAGE_SIZE) := if_pos (by omega)
        rw [if_neg hend, if_neg hend, hadvance]
        rfl

/-- The frame lies in a usable region, above the boundary. -/
structure Inside (boundary : Nat) (map : List BiosMemoryRegion) (p : Nat) : Prop where
  aligned : PAGE_SIZE ∣ p
  above : boundary ≤ p
  usable : ∃ region ∈ map, region.Usable ∧ region.beginAddr.toNat ≤ p ∧
    p + PAGE_SIZE ≤ region.endAddr

def FramesApart (p q : Nat) : Prop := p + PAGE_SIZE ≤ q ∨ q + PAGE_SIZE ≤ p

/-- All frames are good ones, and no two of them overlap. -/
structure GoodFrames (boundary : Nat) (map : List BiosMemoryRegion) (frames : List Nat) : Prop where
  inside : ∀ p ∈ frames, Inside boundary map p
  apart : frames.Pairwise FramesApart

/-- Usable regions have no address in common. -/
def Distinct (map : List BiosMemoryRegion) : Prop :=
  (map.filter fun region => region.Usable).Pairwise fun a b =>
    a.endAddr ≤ b.beginAddr.toNat ∨ b.endAddr ≤ a.beginAddr.toNat

/-- A region that is empty, or made up of pages. -/
def PhysRegion.Paged (r : PhysRegion) : Prop :=
  r.beginAddr < r.endAddr → PAGE_SIZE ∣ r.beginAddr ∧ PAGE_SIZE ∣ r.endAddr

instance (r : PhysRegion) : Decidable r.Paged := inferInstanceAs (Decidable (_ → _))

/-- The frames that are still to come, if the regions are made up of pages. -/
def framesOf : List PhysRegion → List Nat → List Nat
  | region :: regions, alloc :: bump =>
    (List.range ((region.endAddr - alloc) / PAGE_SIZE)).map (fun i => alloc + i * PAGE_SIZE) ++
      framesOf regions bump
  | _, _ => []

/-- A bump pointer in a region: behind its end, or at a page of it. -/
def OnPage (region : PhysRegion) (alloc : Nat) : Prop :=
  region.endAddr < 2 ^ 64 ∧
    (alloc < region.endAddr → PAGE_SIZE ∣ alloc ∧ PAGE_SIZE ∣ region.endAddr)

section frames

variable {debug : Bool} {regions : List PhysRegion} {bump : List Nat}

/-- One call takes the next frame. -/
theorem allocNewFrame_paged (h : List.Forall₂ OnPage regions bump) :
    (framesOf regions bump = [] ∧ allocNewFrame debug regions bump = some none) ∨
      ∃ p bump', framesOf regions bump = p :: framesOf regions bump' ∧
        allocNewFrame debug regions bump = some (some (p, bump')) ∧
        List.Forall₂ OnPage regions bump' := by
  induction h with
  | nil => exact .inl ⟨rfl, rfl⟩
  | @cons region alloc regions bump hpage hrest ih =>
    rw [allocNewFrame, framesOf]
    by_cases hend : region.endAddr ≤ alloc
    · have hnone : (region.endAddr - alloc) / PAGE_SIZE = 0 := by
        rw [Nat.sub_eq_zero_of_le hend, Nat.zero_div]
      rw [if_pos hend, hnone, List.range_zero, List.map_nil, List.nil_append]
      rcases ih with ⟨hnil, hcall⟩ | ⟨p, bump', hcons, hcall, hbump⟩
      · rw [hnil, hcall]
        exact .inl ⟨rfl, rfl⟩
      · refine .inr ⟨p, alloc :: bump', ?_, ?_, .cons hpage hbump⟩
        · rw [hcons, framesOf, hnone, List.range_zero, List.map_nil, List.nil_append]
        · rw [hcall]
          rfl
    · rw [if_neg hend]
      obtain ⟨hword, hpaged⟩ := hpage
      obtain ⟨ha, he⟩ := hpaged (Nat.not_le.mp hend)
      have hroom : alloc + PAGE_SIZE ≤ region.endAddr := by
        simp only [PAGE_SIZE] at ha he ⊢
        omega
      have hcount : (region.endAddr - alloc) / PAGE_SIZE =
          (region.endAddr - (alloc + PAGE_SIZE)) / PAGE_SIZE + 1 := by
        simp only [PAGE_SIZE] at hroom ⊢
        omega
      have hadvance : advance debug alloc = some (alloc + PAGE_SIZE) := if_pos (by omega)
      refine .inr ⟨alloc, (alloc + PAGE_SIZE) :: bump, ?_, by rw [hadvance]; rfl, ?_⟩
      · have hlater : ∀ l : List Nat, l.map ((fun i => alloc + i * PAGE_SIZE) ∘ Nat.succ) =
            l.map fun i => alloc + PAGE_SIZE + i * PAGE_SIZE := by
          intro l
          apply List.map_congr_left
          intro i _
          simp only [Function.comp_apply, Nat.succ_mul]
          omega
        rw [hcount, List.range_succ_eq_map, List.map_cons, List.map_map, hlater, framesOf,
          Nat.zero_mul, Nat.add_zero, List.cons_append]
      · exact .cons ⟨hword, fun _ => ⟨Nat.dvd_add ha (Nat.dvd_refl _), he⟩⟩ hrest

theorem handed_paged (h : List.Forall₂ OnPage regions bump) (n : Nat) :
    handed debug regions n bump = (framesOf regions bump).take n := by
  induction n generalizing bump with
  | zero => rfl
  | succ n ih =>
    rw [handed]
    rcases @allocNewFrame_paged debug _ _ h with ⟨hnil, hcall⟩ | ⟨p, bump', hcons, hcall, hbump⟩
    · simp only [hcall]
      rw [ih h, hnil, List.take_nil, List.take_nil]
    · simp only [hcall]
      rw [ih hbump, hcons, List.take_succ_cons]

end frames

section paged

variable {regions : List PhysRegion}

/-- The bump pointers at the beginning of regions made up of pages. -/
theorem onPage_begin (h : ∀ r ∈ regions, r.Paged ∧ r.endAddr < 2 ^ 64) :
    List.Forall₂ OnPage regions (regions.map PhysRegion.beginAddr) := by
  rw [List.forall₂_map_right_iff, List.forall₂_same]
  intro r hr
  exact ⟨(h r hr).2, (h r hr).1⟩

theorem mem_framesOf (h : ∀ r ∈ regions, r.Paged ∧ r.endAddr < 2 ^ 64) {p : Nat}
    (hp : p ∈ framesOf regions (regions.map PhysRegion.beginAddr)) :
    ∃ r ∈ regions, PAGE_SIZE ∣ p ∧ r.beginAddr ≤ p ∧ p + PAGE_SIZE ≤ r.endAddr := by
  induction regions with
  | nil => cases hp
  | cons r regions ih =>
    rw [List.map_cons, framesOf] at hp
    rcases List.mem_append.mp hp with hp | hp
    · obtain ⟨i, hi, rfl⟩ := List.mem_map.mp hp
      have hi := List.mem_range.mp hi
      have hlt : r.beginAddr < r.endAddr := by
        simp only [PAGE_SIZE] at hi
        omega
      obtain ⟨ha, -⟩ := (h r List.mem_cons_self).1 hlt
      refine ⟨r, List.mem_cons_self, Nat.dvd_add ha (Nat.dvd_mul_left _ _), Nat.le_add_right _ _, ?_⟩
      simp only [PAGE_SIZE] at hi ⊢
      omega
    · obtain ⟨r', hr', hrest⟩ := ih (fun x hx => h x (List.mem_cons_of_mem _ hx)) hp
      exact ⟨r', List.mem_cons_of_mem _ hr', hrest⟩

theorem framesOf_apart (h : ∀ r ∈ regions, r.Paged ∧ r.endAddr < 2 ^ 64)
    (hapart : regions.Pairwise fun a b => a.endAddr ≤ b.beginAddr ∨ b.endAddr ≤ a.beginAddr) :
    (framesOf regions (regions.map PhysRegion.beginAddr)).Pairwise FramesApart := by
  induction regions with
  | nil => exact List.Pairwise.nil
  | cons r regions ih =>
    rw [List.pairwise_cons] at hapart
    have hrest : ∀ x ∈ regions, x.Paged ∧ x.endAddr < 2 ^ 64 :=
      fun x hx => h x (List.mem_cons_of_mem _ hx)
    rw [List.map_cons, framesOf, List.pairwise_append]
    refine ⟨?_, ih hrest hapart.2, fun p hp q hq => ?_⟩
    · rw [List.pairwise_map]
      apply List.pairwise_lt_range.imp
      intro i j hij
      left
      simp only [PAGE_SIZE]
      omega
    · obtain ⟨i, hi, rfl⟩ := List.mem_map.mp hp
      obtain ⟨r', hr', -, hbegin, hend⟩ := mem_framesOf hrest hq
      have hi := List.mem_range.mp hi
      have happ := hapart.1 r' hr'
      simp only [FramesApart, PAGE_SIZE] at hi hend ⊢
      omega

end paged

/-! A region that is not made up of pages. -/

section unpaged

variable {regions : List PhysRegion} {bump : List Nat} {r : PhysRegion} {alloc p : Nat}

/-- The frame is handed out by one of the calls. -/
def Hands (regions : List PhysRegion) (bump : List Nat) (p : Nat) : Prop :=
  ∃ n, p ∈ handed false regions n bump

theorem hands_first (h : alloc < r.endAddr) : Hands (r :: regions) (alloc :: bump) alloc := by
  have hadvance : ∃ next, advance false alloc = some next := by
    rw [advance]
    split
    · exact ⟨_, rfl⟩
    · exact ⟨_, rfl⟩
  obtain ⟨next, hnext⟩ := hadvance
  refine ⟨1, ?_⟩
  rw [handed, allocNewFrame, if_neg (Nat.not_le.mpr h), hnext]
  exact List.mem_cons_self

theorem hands_later (h : alloc < r.endAddr) (hword : alloc + PAGE_SIZE < 2 ^ 64)
    (hp : Hands (r :: regions) ((alloc + PAGE_SIZE) :: bump) p) :
    Hands (r :: regions) (alloc :: bump) p := by
  obtain ⟨n, hn⟩ := hp
  refine ⟨n + 1, ?_⟩
  rw [handed, allocNewFrame, if_neg (Nat.not_le.mpr h), advance, if_pos hword]
  exact List.mem_cons_of_mem _ hn

theorem handed_skip (h : r.endAddr ≤ alloc) (n : Nat) :
    handed false (r :: regions) n (alloc :: bump) = handed false regions n bump := by
  induction n generalizing bump with
  | zero => rfl
  | succ n ih =>
    rw [handed, handed, allocNewFrame, if_pos h]
    cases allocNewFrame false regions bump with
    | none => rfl
    | some x =>
      cases x with
      | none => exact ih
      | some x => exact congrArg (List.cons x.1) ih

theorem hands_skip (h : r.endAddr ≤ alloc) (hp : Hands regions bump p) :
    Hands (r :: regions) (alloc :: bump) p := by
  obtain ⟨n, hn⟩ := hp
  exact ⟨n, by rwa [handed_skip h]⟩

/-- A frame that begins or ends within a page, of one of the regions. -/
def Torn (regions : List PhysRegion) (p : Nat) : Prop :=
  ¬ PAGE_SIZE ∣ p ∨ ∃ r ∈ regions, r.beginAddr ≤ p ∧ p < r.endAddr ∧ r.endAddr < p + PAGE_SIZE

/-- A region made up of pages is used up. -/
theorem hands_behind (h : OnPage r alloc) (hp : Hands regions bump p) :
    Hands (r :: regions) (alloc :: bump) p := by
  induction hn : r.endAddr - alloc using Nat.strongRecOn generalizing alloc with
  | ind n ih =>
    by_cases hend : r.endAddr ≤ alloc
    · exact hands_skip hend hp
    · obtain ⟨hword, hpaged⟩ := h
      obtain ⟨ha, he⟩ := hpaged (Nat.not_le.mp hend)
      have hroom : alloc + PAGE_SIZE ≤ r.endAddr := by
        simp only [PAGE_SIZE] at ha he ⊢
        omega
      apply hands_later (Nat.not_le.mp hend) (by omega)
      refine ih (r.endAddr - (alloc + PAGE_SIZE)) ?_ ⟨hword, fun _ => ?_⟩ rfl
      · simp only [PAGE_SIZE] at hroom ⊢
        omega
      · exact ⟨Nat.dvd_add ha (Nat.dvd_refl _), he⟩

/-- Any other region hands out a torn frame. -/
theorem hands_unpaged (hbegin : r.beginAddr ≤ alloc) (hlt : alloc < r.endAddr)
    (hword : r.endAddr < 2 ^ 64) (h : ¬ (PAGE_SIZE ∣ alloc ∧ PAGE_SIZE ∣ r.endAddr)) :
    ∃ p, Hands (r :: regions) (alloc :: bump) p ∧ Torn (r :: regions) p := by
  induction hn : r.endAddr - alloc using Nat.strongRecOn generalizing alloc with
  | ind n ih =>
    by_cases ha : PAGE_SIZE ∣ alloc
    · have he : ¬ PAGE_SIZE ∣ r.endAddr := fun he => h ⟨ha, he⟩
      by_cases hroom : r.endAddr < alloc + PAGE_SIZE
      · exact ⟨alloc, hands_first hlt, .inr ⟨r, List.mem_cons_self, hbegin, hlt, hroom⟩⟩
      · have hmore : alloc + PAGE_SIZE < r.endAddr := by
          simp only [PAGE_SIZE] at ha he hroom ⊢
          omega
        have hless : r.endAddr - (alloc + PAGE_SIZE) < n := by
          simp only [PAGE_SIZE] at hmore ⊢
          omega
        obtain ⟨p, hp, htorn⟩ := ih _ hless (hbegin.trans (Nat.le_add_right _ _)) hmore
          (fun hboth => he hboth.2) rfl
        exact ⟨p, hands_later hlt (by omega) hp, htorn⟩
    · exact ⟨alloc, hands_first hlt, .inl ha⟩

theorem hands_torn (hword : ∀ x ∈ regions, x.endAddr < 2 ^ 64)
    (h : ∃ x ∈ regions, ¬ x.Paged) :
    ∃ p, Hands regions (regions.map PhysRegion.beginAddr) p ∧ Torn regions p := by
  induction regions with
  | nil =>
    obtain ⟨x, hx, -⟩ := h
    cases hx
  | cons r regions ih =>
    rw [List.map_cons]
    by_cases hpaged : r.Paged
    · obtain ⟨x, hx, hnot⟩ := h
      have hlater : x ∈ regions := by
        rcases List.mem_cons.mp hx with rfl | hx
        · exact absurd hpaged hnot
        · exact hx
      obtain ⟨p, hp, htorn⟩ :=
        ih (fun x hx => hword x (List.mem_cons_of_mem _ hx)) ⟨x, hlater, hnot⟩
      refine ⟨p, hands_behind ⟨hword r List.mem_cons_self, hpaged⟩ hp, ?_⟩
      rcases htorn with hp | ⟨y, hy, hp⟩
      · exact .inl hp
      · exact .inr ⟨y, List.mem_cons_of_mem _ hy, hp⟩
    · rw [PhysRegion.Paged, Classical.not_imp] at hpaged
      exact hands_unpaged (Nat.le_refl _) hpaged.1 (hword r List.mem_cons_self) hpaged.2

end unpaged

section goodFrames

variable {boundary : Nat} {map : List BiosMemoryRegion}

/-- The regions that are taken. -/
def clipped (boundary : Nat) (map : List BiosMemoryRegion) : List PhysRegion :=
  (reaching boundary map).map (·.clip boundary)

theorem clip_begin (boundary : Nat) (region : BiosMemoryRegion) :
    boundary ≤ (region.clip boundary).beginAddr ∧
      region.beginAddr.toNat ≤ (region.clip boundary).beginAddr := by
  simp only [BiosMemoryRegion.clip]
  split
  · omega
  · omega

theorem mem_clipped {r : PhysRegion} (h : r ∈ clipped boundary map) :
    ∃ region ∈ map, region.Reaches boundary ∧ r = region.clip boundary := by
  obtain ⟨region, hmem, rfl⟩ := List.mem_map.mp h
  obtain ⟨hmem, hreach⟩ := List.mem_filter.mp hmem
  exact ⟨region, hmem, of_decide_eq_true hreach, rfl⟩

theorem clipped_apart (h : Distinct map) :
    (clipped boundary map).Pairwise fun a b => a.endAddr ≤ b.beginAddr ∨ b.endAddr ≤ a.beginAddr := by
  have hsub : (reaching boundary map).Sublist (map.filter fun region => region.Usable) := by
    apply List.monotone_filter_right
    intro region hreach
    exact decide_eq_true (of_decide_eq_true hreach).1
  rw [clipped, List.pairwise_map]
  apply (h.sublist hsub).imp
  intro a b hab
  have ha := (clip_begin boundary a).2
  have hb := (clip_begin boundary b).2
  change a.endAddr ≤ _ ∨ b.endAddr ≤ _
  omega

theorem clipped_end (hwrap : NoWrap map) : ∀ r ∈ clipped boundary map, r.endAddr < 2 ^ 64 := by
  intro r hr
  obtain ⟨region, hmem, -, rfl⟩ := mem_clipped hr
  exact hwrap region hmem

/-- Two usable regions with an address in common are one. -/
theorem distinct_eq (h : Distinct map) {a b : BiosMemoryRegion} (ha : a ∈ map) (hb : b ∈ map)
    (hau : a.Usable) (hbu : b.Usable) {p : Nat} (hap : a.beginAddr.toNat ≤ p) (hap' : p < a.endAddr)
    (hbp : b.beginAddr.toNat ≤ p) (hbp' : p < b.endAddr) : a = b := by
  by_contra hne
  have hsym : Std.Symm fun x y : BiosMemoryRegion =>
      x.endAddr ≤ y.beginAddr.toNat ∨ y.endAddr ≤ x.beginAddr.toNat := ⟨fun _ _ => Or.symm⟩
  have ha' : a ∈ map.filter fun region => region.Usable :=
    List.mem_filter.mpr ⟨ha, decide_eq_true hau⟩
  have hb' : b ∈ map.filter fun region => region.Usable :=
    List.mem_filter.mpr ⟨hb, decide_eq_true hbu⟩
  have hapart := List.Pairwise.forall h ha' hb' hne
  omega

theorem goodFrames_paged (hwrap : NoWrap map) (hdistinct : Distinct map)
    (h : ∀ r ∈ clipped boundary map, r.Paged) (debug : Bool) (n : Nat) :
    GoodFrames boundary map
      (handed debug (clipped boundary map) n ((clipped boundary map).map PhysRegion.beginAddr)) := by
  have hpaged : ∀ r ∈ clipped boundary map, r.Paged ∧ r.endAddr < 2 ^ 64 :=
    fun r hr => ⟨h r hr, clipped_end hwrap r hr⟩
  rw [handed_paged (onPage_begin hpaged)]
  constructor
  · intro p hp
    obtain ⟨r, hr, ha, hbegin, hend⟩ := mem_framesOf hpaged (List.mem_of_mem_take hp)
    obtain ⟨region, hmem, hreach, rfl⟩ := mem_clipped hr
    have hclip := clip_begin boundary region
    exact ⟨ha, hclip.1.trans hbegin, region, hmem, hreach.1, hclip.2.trans hbegin, hend⟩
  · exact (framesOf_apart hpaged (clipped_apart hdistinct)).sublist (List.take_sublist n _)

/-- A torn frame does not lie in a usable region. -/
theorem not_inside_torn (hdistinct : Distinct map) {p : Nat} (h : Torn (clipped boundary map) p) :
    ¬ Inside boundary map p := by
  rintro ⟨ha, -, region, hmem, husable, hbegin, hend⟩
  rcases h with hp | ⟨r, hr, hrp, hrp', hrend⟩
  · exact hp ha
  · obtain ⟨region', hmem', hreach, rfl⟩ := mem_clipped hr
    have hclip := clip_begin boundary region'
    change p < region'.endAddr at hrp'
    change region'.endAddr < p + PAGE_SIZE at hrend
    have hlt : p < region.endAddr := lt_of_lt_of_le (by simp [PAGE_SIZE]) hend
    obtain rfl := distinct_eq hdistinct hmem hmem' husable hreach.1 hbegin hlt
      (hclip.2.trans hrp) hrp'
    omega

end goodFrames

/-- The frames that are handed out are good ones just when every region that is taken is made
up of pages; then they are in the debug build too, in which nothing overflows. -/
theorem goodFrames_iff (boundary : UInt64) {map : List BiosMemoryRegion}
    (hcount : (map.filter fun region => region.Usable).length ≤ CAPACITY) (hwrap : NoWrap map)
    (hdistinct : Distinct map) :
    ∃ regions bump, physInit boundary.toNat map = .ok (regions, bump) ∧
      ((∀ n, GoodFrames boundary.toNat map (handed false regions n bump)) ↔
        ∀ region ∈ map, region.Reaches boundary.toNat → (region.clip boundary.toNat).Paged) ∧
      ((∀ region ∈ map, region.Reaches boundary.toNat → (region.clip boundary.toNat).Paged) →
        ∀ n, GoodFrames boundary.toNat map (handed true regions n bump)) := by
  have hfit : (reaching boundary.toNat map).length ≤ CAPACITY := by
    refine le_trans (List.Sublist.length_le ?_) hcount
    apply List.monotone_filter_right
    intro region hreach
    exact decide_eq_true (of_decide_eq_true hreach).1
  have hclipped : (∀ region ∈ map, region.Reaches boundary.toNat →
      (region.clip boundary.toNat).Paged) ↔ ∀ r ∈ clipped boundary.toNat map, r.Paged := by
    constructor
    · intro h r hr
      obtain ⟨region, hmem, hreach, rfl⟩ := mem_clipped hr
      exact h region hmem hreach
    · intro h region hmem hreach
      apply h
      exact List.mem_map.mpr ⟨region, List.mem_filter.mpr ⟨hmem, decide_eq_true hreach⟩, rfl⟩
  rw [hclipped]
  refine ⟨clipped boundary.toNat map, _, (physInit_eq hwrap).trans (if_pos hfit), ⟨?_, ?_⟩, ?_⟩
  · intro h
    by_contra hnot
    rw [not_forall] at hnot
    obtain ⟨r, hnot⟩ := hnot
    rw [Classical.not_imp] at hnot
    obtain ⟨p, ⟨n, hn⟩, htorn⟩ := hands_torn (clipped_end hwrap) ⟨r, hnot⟩
    exact not_inside_torn hdistinct htorn ((h n).inside p hn)
  · exact fun h n => goodFrames_paged hwrap hdistinct h false n
  · exact fun h n => goodFrames_paged hwrap hdistinct h true n

instance (map : List BiosMemoryRegion) : Decidable (Distinct map) :=
  inferInstanceAs (Decidable (List.Pairwise _ _))

theorem goodFrames_eight :
    NoWrap (pagesMap 8) ∧ Distinct (pagesMap 8) ∧
      ∃ regions bump, physInit (UInt64.toNat 0x100000) (pagesMap 8) = .ok (regions, bump) ∧
        ∀ n, GoodFrames (UInt64.toNat 0x100000) (pagesMap 8) (handed true regions n bump) := by
  have hwrap : NoWrap (pagesMap 8) := by decide
  have hdistinct : Distinct (pagesMap 8) := by decide
  obtain ⟨regions, bump, hinit, -, hgood⟩ := goodFrames_iff 0x100000 (by decide) hwrap hdistinct
  refine ⟨hwrap, hdistinct, regions, bump, hinit, hgood ?_⟩
  decide

/-- A region that begins and ends within a page. -/
def tornMap : List BiosMemoryRegion := [⟨0x200800, 0x1000, 1⟩]

/-- The first frame is not aligned. -/
theorem torn_frames_handed :
    NoWrap tornMap ∧ Distinct tornMap ∧
      physInit 0x100000 tornMap = .ok ([⟨0x200800, 0x201800⟩], [0x200800]) ∧
      handed true [⟨0x200800, 0x201800⟩] 1 [0x200800] = [0x200800] ∧
      ¬ GoodFrames 0x100000 tornMap (handed true [⟨0x200800, 0x201800⟩] 1 [0x200800]) := by
  have hframe : handed true [⟨0x200800, 0x201800⟩] 1 [0x200800] = [0x200800] := by decide
  refine ⟨by decide, by decide, by decide, hframe, fun h => ?_⟩
  rw [hframe] at h
  exact absurd (h.inside 0x200800 List.mem_cons_self).aligned (by decide)

end Crabos.Phys
