import Crabos.Fs.Directory

/-!
# The layout of a volume

The reserved area, the FATs, the root directory and the clusters follow each
other. Where one of them begins is computed from the sizes of those before it.
-/
namespace Crabos.Fat16

open Crabos.Disk

namespace BiosParameterBlock

variable (b : BiosParameterBlock)

/-- The areas of a volume in order: the reserved sectors, the FATs, the root
directory, and the clusters from `2` on. -/
def area : Nat → Io (List Nat)
  | 0 => .ok (List.range' 0 b.firstFatSector)
  | 1 => .ok (List.range' b.firstFatSector b.allFatsSectorCount)
  | 2 => .ok b.rootSectors
  | k + 3 => b.clusterSectors (k + 2)

/-- The areas are laid end to end, and the root directory has room for its entries. -/
structure LaidOut : Prop where
  begins : ∃ n, b.area 0 = .ok (List.range' 0 n)
  meet : ∀ k, ∃ first n n', b.area k = .ok (List.range' first n) ∧
    b.area (k + 1) = .ok (List.range' (first + n) n')
  apart : ∀ j k s t, j ≠ k → b.area j = .ok s → b.area k = .ok t → s.Disjoint t
  entries : ∀ i < b.rootDirectoryEntryCount.toNat, ∀ byte, DIR_ENTRY_SIZE * i ≤ byte →
    byte < DIR_ENTRY_SIZE * (i + 1) → b.firstRootDirSector + byte / SECTOR_SIZE ∈ b.rootSectors

def areaSize : Nat → Nat
  | 0 => b.firstFatSector
  | 1 => b.allFatsSectorCount
  | 2 => b.rootDirSectorCount
  | _ + 3 => b.spc

/-- An area begins where the sizes of those before it end. -/
def areaStart : Nat → Nat
  | 0 => 0
  | k + 1 => areaStart k + b.areaSize k

end BiosParameterBlock

variable {b : BiosParameterBlock}

theorem areaStart_cluster (k : Nat) : b.areaStart (k + 3) = b.clustersBase + k * b.spc := by
  induction k with
  | zero =>
    simp [BiosParameterBlock.areaStart, BiosParameterBlock.areaSize,
      BiosParameterBlock.clustersBase, BiosParameterBlock.firstRootDirSector]
  | succ k ih =>
    rw [BiosParameterBlock.areaStart, ih, Nat.succ_mul, Nat.add_assoc]
    rfl

theorem area_eq (k : Nat) : b.area k = .ok (List.range' (b.areaStart k) (b.areaSize k)) := by
  match k with
  | 0 => rfl
  | 1 => simp [BiosParameterBlock.area, BiosParameterBlock.areaStart, BiosParameterBlock.areaSize]
  | 2 =>
    simp [BiosParameterBlock.area, BiosParameterBlock.areaStart, BiosParameterBlock.areaSize,
      BiosParameterBlock.rootSectors, BiosParameterBlock.firstRootDirSector]
  | k + 3 =>
    have hvalid : ¬ k + 2 < 2 := by omega
    rw [areaStart_cluster, BiosParameterBlock.area, BiosParameterBlock.clusterSectors,
      BiosParameterBlock.firstClusterSector, if_neg hvalid]
    rfl

theorem areaStart_mono {j k : Nat} (h : j < k) : b.areaStart j + b.areaSize j ≤ b.areaStart k := by
  induction k with
  | zero => exact absurd h (Nat.not_lt_zero j)
  | succ k ih =>
    rcases Nat.lt_succ_iff_lt_or_eq.mp h with hlt | rfl
    · exact (ih hlt).trans (Nat.le_add_right _ _)
    · exact Nat.le_refl _

theorem area_apart {j k : Nat} {s t : List Nat} (hne : j ≠ k) (hs : b.area j = .ok s)
    (ht : b.area k = .ok t) : s.Disjoint t := by
  rw [area_eq] at hs ht
  cases hs
  cases ht
  intro x hx hy
  obtain ⟨hx₁, hx₂⟩ := List.mem_range'_1.mp hx
  obtain ⟨hy₁, hy₂⟩ := List.mem_range'_1.mp hy
  rcases Nat.lt_or_gt_of_ne hne with hlt | hlt
  · have := areaStart_mono (b := b) hlt
    omega
  · have := areaStart_mono (b := b) hlt
    omega

/-- The entries fill whole sectors. -/
theorem entries_fit_iff :
    (∀ i < b.rootDirectoryEntryCount.toNat, ∀ byte, DIR_ENTRY_SIZE * i ≤ byte →
        byte < DIR_ENTRY_SIZE * (i + 1) →
          b.firstRootDirSector + byte / SECTOR_SIZE ∈ b.rootSectors) ↔
      16 ∣ b.rootDirectoryEntryCount.toNat := by
  simp only [BiosParameterBlock.rootSectors, List.mem_range'_1, BiosParameterBlock.rootDirSectorCount,
    DIR_ENTRY_SIZE, SECTOR_SIZE]
  generalize b.rootDirectoryEntryCount.toNat = n
  constructor
  · intro h
    by_contra hn
    -- the last entry
    have hlast := h (n - 1) (by omega) (32 * (n - 1)) (Nat.le_refl _) (by omega)
    omega
  · intro h i hi byte hlo hhi
    omega

/-- A volume is laid out as it should be just when the root directory fills its sectors. -/
theorem laidOut_iff (b : BiosParameterBlock) :
    b.LaidOut ↔ 16 ∣ b.rootDirectoryEntryCount.toNat := by
  rw [← entries_fit_iff]
  constructor
  · exact fun h => h.entries
  · intro h
    constructor
    · exact ⟨_, area_eq 0⟩
    · exact fun k => ⟨_, _, _, area_eq k, area_eq (k + 1)⟩
    · exact fun j k s t => area_apart
    · exact h

/-- A root directory of 17 entries. -/
def oddBlock : BiosParameterBlock := ⟨1, 1, 2, 17, 1⟩

/-- The last entry is in the first cluster. -/
theorem oddBlock_overlaps :
    oddBlock.rootSectors = [3] ∧ oddBlock.clusterSectors 2 = .ok [4] ∧
      oddBlock.firstRootDirSector + DIR_ENTRY_SIZE * 16 / SECTOR_SIZE = 4 ∧ ¬ oddBlock.LaidOut := by
  have hroot : oddBlock.rootSectors = [3] := by decide
  refine ⟨hroot, by decide, by decide, fun h => ?_⟩
  have hlast := h.entries 16 (by decide) (DIR_ENTRY_SIZE * 16) (Nat.le_refl _) (by decide)
  rw [hroot] at hlast
  revert hlast
  decide

end Crabos.Fat16
