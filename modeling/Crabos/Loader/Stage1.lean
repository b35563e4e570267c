import Crabos.Lib.Bytes

/-!
# The memory map (`kernel/loader/stage1.asm`)

The loader asks the BIOS for the descriptors of the memory, one with each call,
and counts them in the word right behind its buffer. `EAX`, `ECX` and `EDX` are
loaded anew before every call, so they are not kept here.
-/
namespace Crabos.Stage1

open Crabos.Bytes

def EARLY_MEMORY_MAP : Nat := 0x4000
def EARLY_MEMORY_MAP_END : Nat := 0x4ff0
def EARLY_MEMORY_MAP_LEN : Nat := 0x4ff0

/-- The service `0xe820`: call `k` stores descriptor `k`, and zero in `EBX` comes with the
last one. -/
structure Bios where
  descriptors : List (BitVec 192)
  ebx : Nat → BitVec 32
  carry : Nat → Bool
  nonempty : 1 ≤ descriptors.length
  clear : ∀ k < descriptors.length, carry k = false
  last : ∀ k < descriptors.length, ebx k = 0 ↔ k + 1 = descriptors.length

/-- The registers and the memory, with the addresses that the BIOS has written to. -/
structure State where
  di : BitVec 16
  ebx : BitVec 32
  mem : Mem
  written : List Nat

variable (bios : Bios)

def int15 (k : Nat) (s : State) : State where
  di := s.di
  ebx := bios.ebx k
  mem := store s.mem s.di.toNat 24 (bios.descriptors.getD k 0).toNat
  written := s.written ++ List.range' s.di.toNat 24

/-- `add di, 24` and `inc dword [EARLY_MEMORY_MAP_LEN]`. -/
def advance (s : State) : State where
  di := s.di + 24#16
  ebx := s.ebx
  mem := store s.mem EARLY_MEMORY_MAP_LEN 4 (load s.mem EARLY_MEMORY_MAP_LEN 4 + 1)
  written := s.written

/-- From call `k` on; `none` if the turns do not suffice. -/
def memoryMapLoop : Nat → Nat → State → Option State
  | 0, _, _ => none
  | turns + 1, k, s =>
    let s := int15 bios k s
    if bios.carry k then some s
    else if s.ebx = 0 then some s
    else
      let s := advance s
      if s.di < BitVec.ofNat 16 EARLY_MEMORY_MAP_END then memoryMapLoop turns (k + 1) s
      else some s

def start (mem : Mem) : State where
  di := BitVec.ofNat 16 EARLY_MEMORY_MAP
  ebx := 0
  mem := store mem EARLY_MEMORY_MAP_LEN 4 0
  written := []

def readMemoryMap (mem : Mem) (turns : Nat) : Option State :=
  memoryMapLoop bios turns 0 (start mem)

/-- The first descriptors are in the buffer, and they are counted. -/
def ReadsMap (mem : Mem) : Prop :=
  ∃ turns s, readMemoryMap bios mem turns = some s ∧
    load s.mem EARLY_MEMORY_MAP_LEN 4 = min bios.descriptors.length 170 ∧
    (∀ k < min bios.descriptors.length 170,
      load s.mem (EARLY_MEMORY_MAP + 24 * k) 24 = (bios.descriptors.getD k 0).toNat) ∧
    ∀ a ∈ s.written, a < EARLY_MEMORY_MAP_END

/-- `k` descriptors have been stored and counted. -/
structure Stored (k : Nat) (s : State) : Prop where
  di : s.di.toNat = EARLY_MEMORY_MAP + 24 * k
  len : load s.mem EARLY_MEMORY_MAP_LEN 4 = k
  kept : ∀ j < k, load s.mem (EARLY_MEMORY_MAP + 24 * j) 24 = (bios.descriptors.getD j 0).toNat
  inside : ∀ a ∈ s.written, a < EARLY_MEMORY_MAP_END

variable {bios}

theorem stored_start (mem : Mem) : Stored bios 0 (start mem) where
  di := rfl
  len := by
    rw [start, load_store]
    rfl
  kept := fun j hj => absurd hj (Nat.not_lt_zero j)
  inside := fun a ha => absurd ha List.not_mem_nil

/-- A call leaves the count and the descriptors before its own as they are. -/
theorem Stored.int15 {k : Nat} {s : State} (h : Stored bios k s) (hk : k < 170) :
    Stored bios k (int15 bios k s) ∧
      load (int15 bios k s).mem (EARLY_MEMORY_MAP + 24 * k) 24 =
        (bios.descriptors.getD k 0).toNat := by
  have hdi := h.di
  simp only [EARLY_MEMORY_MAP] at hdi
  constructor
  · constructor
    · exact h.di
    · rw [← h.len]
      exact load_store_apart _ _ (.inr (by simp only [EARLY_MEMORY_MAP_LEN]; omega))
    · intro j hj
      rw [← h.kept j hj]
      exact load_store_apart _ _ (.inl (by simp only [EARLY_MEMORY_MAP]; omega))
    · intro a ha
      simp only [Stage1.int15, List.mem_append] at ha
      cases ha with
      | inl ha => exact h.inside a ha
      | inr ha =>
        rw [List.mem_range'_1] at ha
        simp only [EARLY_MEMORY_MAP_END]
        omega
  · rw [← h.di, Stage1.int15, load_store]
    exact Nat.mod_eq_of_lt (bios.descriptors.getD k 0).isLt

/-- Then it is counted, and the next place in the buffer is free. -/
theorem Stored.advance {k : Nat} {s : State} (h : Stored bios k s) (hk : k < 170)
    (hkept : load s.mem (EARLY_MEMORY_MAP + 24 * k) 24 = (bios.descriptors.getD k 0).toNat) :
    Stored bios (k + 1) (advance s) := by
  have hdi := h.di
  simp only [EARLY_MEMORY_MAP] at hdi
  constructor
  · simp only [Stage1.advance, BitVec.toNat_add, BitVec.toNat_ofNat, EARLY_MEMORY_MAP]
    omega
  · rw [Stage1.advance, load_store, h.len]
    exact Nat.mod_eq_of_lt (by omega)
  · intro j hj
    have hsame : load s.mem (EARLY_MEMORY_MAP + 24 * j) 24 = (bios.descriptors.getD j 0).toNat := by
      by_cases hjk : j = k
      · rw [hjk]
        exact hkept
      · exact h.kept j (by omega)
    rw [← hsame]
    apply load_store_apart
    simp only [EARLY_MEMORY_MAP, EARLY_MEMORY_MAP_LEN]
    omega
  · exact h.inside

/-- What one turn does: it is the last one if its descriptor is, or if the buffer is full. -/
theorem memoryMapLoop_cases {k : Nat} {s : State} (turns : Nat) (h : Stored bios k s)
    (hk : k < 170) (hn : k < bios.descriptors.length) :
    (k + 1 = bios.descriptors.length ∧
        ∃ s', memoryMapLoop bios (turns + 1) k s = some s' ∧ Stored bios k s') ∨
      (k + 1 < bios.descriptors.length ∧ ∃ s', Stored bios (k + 1) s' ∧
        memoryMapLoop bios (turns + 1) k s =
          if k + 1 < 170 then memoryMapLoop bios turns (k + 1) s' else some s') := by
  obtain ⟨hcall, hkept⟩ := h.int15 hk
  have hebx : (int15 bios k s).ebx = bios.ebx k := rfl
  rw [memoryMapLoop]
  simp only [bios.clear k hn, Bool.false_eq_true, if_false, hebx]
  by_cases hlast : k + 1 = bios.descriptors.length
  · left
    rw [if_pos ((bios.last k hn).mpr hlast)]
    exact ⟨hlast, _, rfl, hcall⟩
  · right
    rw [if_neg (fun h0 => hlast ((bios.last k hn).mp h0))]
    have hnext := hcall.advance hk hkept
    have hdi := hnext.di
    have hcond : (advance (int15 bios k s)).di < BitVec.ofNat 16 EARLY_MEMORY_MAP_END ↔
        k + 1 < 170 := by
      rw [BitVec.lt_def, hdi]
      simp only [EARLY_MEMORY_MAP, EARLY_MEMORY_MAP_END, BitVec.toNat_ofNat]
      omega
    simp only [hcond]
    exact ⟨by omega, _, hnext, rfl⟩

/-- A descriptor is counted only when it is not the last one. -/
theorem memoryMapLoop_stored {turns k : Nat} {s s' : State} (h : Stored bios k s) (hk : k < 170)
    (hn : k < bios.descriptors.length) (hrun : memoryMapLoop bios turns k s = some s') :
    Stored bios (min (bios.descriptors.length - 1) 170) s' := by
  induction turns generalizing k s with
  | zero => cases hrun
  | succ turns ih =>
    cases memoryMapLoop_cases turns h hk hn with
    | inl hend =>
      obtain ⟨hlast, t, ht, hst⟩ := hend
      cases hrun.symm.trans ht
      have hmin : min (bios.descriptors.length - 1) 170 = k := by omega
      rw [hmin]
      exact hst
    | inr hgo =>
      obtain ⟨hmore, t, hst, ht⟩ := hgo
      rw [ht] at hrun
      split at hrun
      · rename_i hlt
        exact ih hst hlt hmore hrun
      · cases hrun
        have hmin : min (bios.descriptors.length - 1) 170 = k + 1 := by omega
        rw [hmin]
        exact hst

theorem memoryMapLoop_ends {turns k : Nat} {s : State} (h : Stored bios k s) (hk : k < 170)
    (hn : k < bios.descriptors.length) (ht : 170 ≤ turns + k) :
    ∃ s', memoryMapLoop bios turns k s = some s' := by
  induction turns generalizing k s with
  | zero => omega
  | succ turns ih =>
    cases memoryMapLoop_cases turns h hk hn with
    | inl hend =>
      obtain ⟨-, t, ht, -⟩ := hend
      exact ⟨t, ht⟩
    | inr hgo =>
      obtain ⟨hmore, t, hst, ht⟩ := hgo
      rw [ht]
      split
      · rename_i hlt
        exact ih hst hlt hmore (by omega)
      · exact ⟨t, rfl⟩

/-- The map always comes out, without its last descriptor unless the buffer is full before. -/
theorem readMemoryMap_stored (bios : Bios) (mem : Mem) : (∃ s, readMemoryMap bios mem 170 = some s) ∧
    ∀ turns s, readMemoryMap bios mem turns = some s →
      Stored bios (min (bios.descriptors.length - 1) 170) s := by
  have hn : 0 < bios.descriptors.length := bios.nonempty
  constructor
  · exact memoryMapLoop_ends (stored_start mem) (by omega) hn (by omega)
  · intro turns s hrun
    exact memoryMapLoop_stored (stored_start mem) (by omega) hn hrun

/-- The loader keeps the descriptors that it should exactly when they are more than fit into
the buffer. -/
theorem reads_map_iff (bios : Bios) (mem : Mem) :
    ReadsMap bios mem ↔ 170 < bios.descriptors.length := by
  obtain ⟨⟨s, hs⟩, hall⟩ := readMemoryMap_stored bios mem
  have hpos := bios.nonempty
  constructor
  · rintro ⟨turns, s', hrun, hlen, -⟩
    rw [(hall turns s' hrun).len] at hlen
    omega
  · intro hn
    have hst := hall 170 s hs
    have hmin : min (bios.descriptors.length - 1) 170 = min bios.descriptors.length 170 := by
      omega
    rw [hmin] at hst
    exact ⟨170, s, hs, hst.len, hst.kept, hst.inside⟩

/-- A machine with one region of memory: 640 KiB from address zero on. -/
def oneRegion : Bios where
  descriptors := [0x10000000100000000000a00000000000000000000]
  ebx := fun _ => 0
  carry := fun _ => false
  nonempty := by decide
  clear := fun _ _ => rfl
  last := by decide

/-- Its region is not counted. -/
theorem only_region_dropped : ¬ ReadsMap oneRegion fun _ => 0 := by
  rintro ⟨turns, s, hrun, hlen, -⟩
  rw [((readMemoryMap_stored oneRegion fun _ => 0).2 turns s hrun).len] at hlen
  exact absurd hlen (by decide)

end Crabos.Stage1
