import Crabos.Mem.PageInv

/-!
# Slices of user memory (`kernel/src/mem/user.rs`)

A slice is borrowed after its pages have been looked up in the page tables, one
after the other. Both builds are covered: `debug` checks the addition of
`PageRange::new`, which wraps around otherwise.
-/
namespace Crabos.Page

open Crabos.Words Crabos.Radix Crabos.Interface Crabos.User Crabos.Run

/-- The four entries of an address can be read, and none of them is zero. -/
structure Lookup (m : Machine) (virt e : Nat) : Prop where
  pml4 : ∃ e₄, load m (pml4Entry virt) = some e₄ ∧ e₄ ≠ 0
  pml3 : ∃ e₃, load m (pml3Entry virt) = some e₃ ∧ e₃ ≠ 0
  pml2 : ∃ e₂, load m (pml2Entry virt) = some e₂ ∧ e₂ ≠ 0
  pml1 : load m (pml1Entry virt) = some e ∧ e ≠ 0

/-- The entries of pages have only flags with a name. -/
def FlagsKnown (m : Machine) : Prop := ∀ virt e, Lookup m virt e → e % PAGE_SIZE ≤ PageFlags.all

/-- `PageRange::containing` in either build. -/
def containing (debug : Bool) (startAddr byteLen : Nat) : Option (SysResult PageRange) :=
  if debug then PageRange.containingChecked startAddr byteLen
  else some (PageRange.containing startAddr byteLen)

/-- `validate_read` and `validate_write`. -/
def validate (debug : Bool) (m : Machine) (addr len flags : Nat) : Option (SysResult Unit) :=
  (containing debug addr len).bind fun
    | .error e => some (.error e)
    | .ok r => validateMap (pageEntry m) flags r.pages

/-- `size` is the size of an element. -/
def borrow (debug : Bool) (m : Machine) (addr len size flags : Nat) : Option (SysResult Unit) :=
  let byteLen := len * size
  if WORD ≤ byteLen then some (.error .badPointer) else validate debug m addr byteLen flags

def borrowSlice (debug : Bool) (m : Machine) (addr len size : Nat) : Option (SysResult Unit) :=
  borrow debug m addr len size 0

def borrowSliceMut (debug : Bool) (m : Machine) (addr len size : Nat) : Option (SysResult Unit) :=
  borrow debug m addr len size PageFlags.WRITE

section lookups

variable {m : Machine} {virt e : Nat}

theorem lookup_entry (h : Lookup m virt e) : pageEntry m virt = some e := by
  obtain ⟨e₄, h₄, n₄⟩ := h.pml4
  obtain ⟨e₃, h₃, n₃⟩ := h.pml3
  obtain ⟨e₂, h₂, n₂⟩ := h.pml2
  obtain ⟨h₁, n₁⟩ := h.pml1
  simp [pageEntry, entry, checkedPml1Entry, h₄, h₃, h₂, h₁, n₄, n₃, n₂, n₁]

theorem checked_lookup {ent : Nat} (h : checkedPml1Entry m virt = some (.ok ent)) :
    ent = pml1Entry virt ∧ ∃ e, Lookup m virt e := by
  rw [checkedPml1Entry] at h
  obtain ⟨e₄, h₄, h⟩ := Option.bind_eq_some_iff.mp h
  split at h
  · cases h
  rename_i n₄
  obtain ⟨e₃, h₃, h⟩ := Option.bind_eq_some_iff.mp h
  split at h
  · cases h
  rename_i n₃
  obtain ⟨e₂, h₂, h⟩ := Option.bind_eq_some_iff.mp h
  split at h
  · cases h
  rename_i n₂
  obtain ⟨e₁, h₁, h⟩ := Option.bind_eq_some_iff.mp h
  split at h
  · cases h
  rename_i n₁
  cases h
  exact ⟨rfl, e₁, ⟨e₄, h₄, n₄⟩, ⟨e₃, h₃, n₃⟩, ⟨e₂, h₂, n₂⟩, h₁, n₁⟩

theorem entry_lookup (h : pageEntry m virt = some e) (h0 : e ≠ 0) : Lookup m virt e := by
  rw [pageEntry, entry] at h
  obtain ⟨r, hr, he⟩ := Option.map_eq_some_iff.mp h
  obtain ⟨c, hc, hr⟩ := Option.bind_eq_some_iff.mp hr
  cases c with
  | error n =>
    cases hr
    exact absurd he.symm h0
  | ok ent =>
    obtain ⟨rfl, e', hl⟩ := checked_lookup hc
    change (load m (pml1Entry virt)).map Except.ok = some r at hr
    rw [hl.pml1.1] at hr
    cases hr
    cases he
    exact hl

/-- Addresses on one page have the same entries. -/
theorem lookup_page {virt' : Nat} (h : virt' / PAGE_SIZE = virt / PAGE_SIZE) (hl : Lookup m virt e) :
    Lookup m virt' e := by
  change virt' / 4096 = virt / 4096 at h
  have h₄ : pml4Entry virt' = pml4Entry virt := by
    simp only [pml4Entry]
    omega
  have h₃ : pml3Entry virt' = pml3Entry virt := by
    simp only [pml3Entry]
    omega
  have h₂ : pml2Entry virt' = pml2Entry virt := by
    simp only [pml2Entry]
    omega
  have h₁ : pml1Entry virt' = pml1Entry virt := by
    simp only [pml1Entry]
    omega
  constructor
  · rw [h₄]
    exact hl.pml4
  · rw [h₃]
    exact hl.pml3
  · rw [h₂]
    exact hl.pml2
  · rw [h₁]
    exact hl.pml1

end lookups

/-! From the pages of the range to the bytes of the slice. -/

/-- Every byte of the slice lies on a page that is found, with the flags in its last entry.
Addresses wrap around. -/
def Borrowed (m : Machine) (addr byteLen flags : Nat) : Prop :=
  ∀ k < byteLen, ∃ e, Lookup m ((addr + k) % WORD) e ∧ User.contains (e % PAGE_SIZE) flags

section slices

variable {m : Machine} {addr byteLen flags : Nat} {debug : Bool}

theorem containing_ok {r : PageRange} (h : containing debug addr byteLen = some (.ok r)) :
    PageRange.containing addr byteLen = .ok r := by
  rw [containing] at h
  split at h
  · by_cases hw : SliceWraps addr byteLen
    · rw [PageRange.containingChecked_none.mpr hw] at h
      cases h
    · rw [PageRange.containingChecked_some hw] at h
      exact Option.some.inj h
  · exact Option.some.inj h

/-- The page of a byte is in the range. -/
theorem byte_page {r : PageRange} (h : PageRange.containing addr byteLen = .ok r) {k : Nat}
    (hk : k < byteLen) :
    ∃ p ∈ r.pages, ((addr + k) % WORD) / PAGE_SIZE = p / PAGE_SIZE := by
  rw [PageRange.containing_eq] at h
  split at h
  · cases h
  obtain ⟨rfl, -⟩ := PageRange.new_ok h
  refine ⟨_, List.mem_map.mpr ⟨(addr % PAGE_SIZE + k) / PAGE_SIZE, List.mem_range.mpr ?_, rfl⟩, ?_⟩
  · simp only [padded, PAGE_SIZE]
    omega
  · simp only [PAGE_SIZE, WORD]
    omega

theorem validate_borrowed (h : validate debug m addr byteLen flags = some (.ok ())) :
    Borrowed m addr byteLen flags := by
  obtain ⟨r, hr, h⟩ := Option.bind_eq_some_iff.mp h
  cases r with
  | error e => cases h
  | ok r =>
    intro k hk
    obtain ⟨p, hp, hpage⟩ := byte_page (containing_ok hr) hk
    obtain ⟨e, he, h0, hf⟩ := validateMap_ok h p hp
    exact ⟨e, lookup_page hpage (entry_lookup he h0), hf⟩

/-- A byte of the slice is on each page of the range. -/
theorem page_byte {r : PageRange} (h : PageRange.containing addr byteLen = .ok r)
    (hlen : 1 ≤ byteLen) {p : Nat} (hp : p ∈ r.pages) :
    ∃ k < byteLen, ((addr + k) % WORD) / PAGE_SIZE = p / PAGE_SIZE := by
  rw [PageRange.containing_eq] at h
  split at h
  · cases h
  obtain ⟨rfl, -⟩ := PageRange.new_ok h
  obtain ⟨i, hi, rfl⟩ := List.mem_map.mp hp
  have hi := List.mem_range.mp hi
  refine ⟨i * PAGE_SIZE - addr % PAGE_SIZE, ?_, ?_⟩
  · simp only [padded, PAGE_SIZE] at hi ⊢
    omega
  · simp only [padded, PAGE_SIZE, WORD] at hi ⊢
    omega

theorem validate_found (hm : FlagsKnown m) {r : PageRange}
    (hr : containing debug addr byteLen = some (.ok r)) (hlen : 1 ≤ byteLen)
    (h : Borrowed m addr byteLen flags) : validate debug m addr byteLen flags = some (.ok ()) := by
  rw [validate, hr, Option.bind_some]
  apply validateMap_mapped
  intro p hp
  obtain ⟨k, hk, hpage⟩ := page_byte (containing_ok hr) hlen hp
  obtain ⟨e, hl, hf⟩ := h k hk
  have hl := lookup_page hpage.symm hl
  exact ⟨e, lookup_entry hl, ⟨hl.pml1.2, hf⟩, hm _ e hl⟩

/-- There is a range for the span: it ends in user space, or it wraps around in a build that does
not check this. -/
def Fits (debug : Bool) (addr byteLen : Nat) : Prop :=
  addr + byteLen ≤ MAX_USER_ADDR ∨ debug = false ∧ SliceWraps addr byteLen

theorem containing_fits {r : PageRange} (h : containing debug addr byteLen = some (.ok r)) :
    Fits debug addr byteLen := by
  by_cases hw : SliceWraps addr byteLen
  · cases debug with
    | true =>
      rw [containing, if_pos rfl, PageRange.containingChecked_none.mpr hw] at h
      cases h
    | false => exact .inr ⟨rfl, hw⟩
  · obtain ⟨-, -, -, hmax⟩ := PageRange.containing_ok hw (containing_ok h)
    exact .inl ((le_padded _).trans hmax)

theorem fits_containing (h : Fits debug addr byteLen) :
    ∃ r, containing debug addr byteLen = some (.ok r) := by
  cases h with
  | inl hend =>
    obtain ⟨hw, hr⟩ := PageRange.containing_user hend
    cases debug with
    | true => exact ⟨_, (PageRange.containingChecked_some hw).trans (congrArg some hr)⟩
    | false => exact ⟨_, congrArg some hr⟩
  | inr h =>
    obtain ⟨rfl, hw⟩ := h
    have hlen : ¬ WORD ≤ padded (byteLen + addr % PAGE_SIZE) := Nat.not_le.mpr hw.1
    have hr : PageRange.containing addr byteLen =
        .ok ⟨addr - addr % PAGE_SIZE, padded (byteLen + addr % PAGE_SIZE) / PAGE_SIZE⟩ := by
      rw [PageRange.containing_eq, if_neg hlen]
      exact PageRange.new_sumWraps (sumWraps_slice.mpr hw)
    exact ⟨_, congrArg some hr⟩

theorem fits_lt (h : Fits debug addr byteLen) : byteLen < WORD := by
  cases h with
  | inl hend => exact lt_of_le_of_lt (Nat.le_of_add_left_le hend) (by decide)
  | inr hw => exact lt_of_le_of_lt ((Nat.le_add_right _ _).trans (le_padded _)) hw.2.1

/-- What it takes to borrow a slice that is not empty. -/
theorem borrow_iff (hm : FlagsKnown m) {len size : Nat} (hlen : 1 ≤ len * size) :
    borrow debug m addr len size flags = some (.ok ()) ↔
      Fits debug addr (len * size) ∧ Borrowed m addr (len * size) flags := by
  rw [borrow]
  constructor
  · intro h
    split at h
    · cases h
    · obtain ⟨r, hr, hmap⟩ := Option.bind_eq_some_iff.mp h
      cases r with
      | error e => cases hmap
      | ok r => exact ⟨containing_fits hr, validate_borrowed h⟩
  · rintro ⟨hfits, hfound⟩
    obtain ⟨r, hr⟩ := fits_containing hfits
    rw [if_neg (Nat.not_le.mpr (fits_lt hfits))]
    exact validate_found hm hr hlen hfound

theorem borrow_borrowed {len size : Nat} (h : borrow debug m addr len size flags = some (.ok ())) :
    Borrowed m addr (len * size) flags := by
  rw [borrow] at h
  split at h
  · cases h
  · exact validate_borrowed h

theorem borrowed_borrow (hm : FlagsKnown m) {len size : Nat} (hlen : 1 ≤ len * size)
    (hend : addr + len * size ≤ MAX_USER_ADDR) (h : Borrowed m addr (len * size) flags) :
    borrow debug m addr len size flags = some (.ok ()) :=
  (borrow_iff hm hlen).mpr ⟨.inl hend, h⟩

end slices

/-- A slice that is borrowed has all its bytes on pages that are found; and a slice of user
space that has them there can be borrowed. -/
theorem slices_found {m : Machine} (hm : FlagsKnown m) (debug : Bool) (addr len size : Nat) :
    ((borrowSlice debug m addr len size = some (.ok ()) → Borrowed m addr (len * size) 0) ∧
      (borrowSliceMut debug m addr len size = some (.ok ()) →
        Borrowed m addr (len * size) PageFlags.WRITE)) ∧
    (1 ≤ len * size → addr + len * size ≤ MAX_USER_ADDR →
      (Borrowed m addr (len * size) 0 → borrowSlice debug m addr len size = some (.ok ())) ∧
      (Borrowed m addr (len * size) PageFlags.WRITE →
        borrowSliceMut debug m addr len size = some (.ok ()))) := by
  constructor
  · exact ⟨borrow_borrowed, borrow_borrowed⟩
  · intro hlen hend
    exact ⟨borrowed_borrow hm hlen hend, borrowed_borrow hm hlen hend⟩

/-- A machine with one page of user memory, at `0x1000`. -/
def oneMapped : Machine where
  phys := {
    regions := []
    bumpAlloc := []
    refCountEnabled := false
    nextFree := none
    rc := fun _ => 0
    mem := fun a =>
      if a = 0x1000 then 0x2007 else if a = 0x1ff8 then 0x1003 else if a = 0x2000 then 0x3007
      else if a = 0x3000 then 0x4007 else if a = 0x4008 then 0x9007 else 0 }
  cr3 := 0x1000
  tempPage := 0

theorem oneMapped_flags : FlagsKnown oneMapped := by
  intro virt e hl
  obtain ⟨a, -, rfl⟩ := Option.map_eq_some_iff.mp hl.pml1.1
  simp only [Machine.mem, oneMapped]
  split
  · decide
  split
  · decide
  split
  · decide
  split
  · decide
  split
  · decide
  · decide

theorem slices_found_one :
    FlagsKnown oneMapped ∧ borrowSliceMut true oneMapped 0x1004 2 4 = some (.ok ()) ∧
      Borrowed oneMapped 0x1004 (2 * 4) PageFlags.WRITE ∧
      borrowSliceMut true oneMapped 0x1004 1 8 = some (.ok ()) := by
  have h : borrowSliceMut true oneMapped 0x1004 2 4 = some (.ok ()) := by decide +kernel
  have hb := (slices_found oneMapped_flags true 0x1004 2 4).1.2 h
  exact ⟨oneMapped_flags, h, hb,
    ((slices_found oneMapped_flags true 0x1004 1 8).2 (by decide) (by decide)).2 hb⟩

/-! Single objects. -/

/-- `user::borrow`: the size goes in as the number of elements. The index into a slice without
elements is a panic. -/
def borrowOne (debug : Bool) (m : Machine) (addr size : Nat) : Option (SysResult Unit) :=
  (borrowSlice debug m addr size size).bind fun
    | .error e => some (.error e)
    | .ok _ => if 0 < size then some (.ok ()) else none

/-- The bytes are mapped memory below the end of user space. -/
def MappedUser (m : Machine) (addr byteLen : Nat) : Prop :=
  addr + byteLen ≤ MAX_USER_ADDR ∧ Borrowed m addr byteLen 0

/-- An object is borrowed like a slice of one element, and just when its bytes are mapped. -/
def BorrowsObject (debug : Bool) (m : Machine) (addr size : Nat) : Prop :=
  (borrowOne debug m addr size = some (.ok ()) ↔
    borrowSlice debug m addr 1 size = some (.ok ())) ∧
  (borrowSlice debug m addr 1 size = some (.ok ()) ↔ MappedUser m addr size)

/-- As many bytes as the size times itself are mapped where the bytes of the object are, and where
these wrap around and are all mapped the object is in user space. -/
structure SquareMapped (debug : Bool) (m : Machine) (addr size : Nat) : Prop where
  mapped : MappedUser m addr size →
    Fits debug addr (size * size) ∧ Borrowed m addr (size * size) 0
  wraps : debug = false → SliceWraps addr (size * size) → Borrowed m addr (size * size) 0 →
    addr + size ≤ MAX_USER_ADDR

section objects

variable {debug : Bool} {m : Machine} {addr size : Nat}

theorem borrowOne_iff (hm : FlagsKnown m) (hsize : 1 ≤ size) :
    borrowOne debug m addr size = some (.ok ()) ↔
      Fits debug addr (size * size) ∧ Borrowed m addr (size * size) 0 := by
  have hslice : borrowOne debug m addr size = borrowSlice debug m addr size size := by
    rw [borrowOne]
    cases hr : borrowSlice debug m addr size size with
    | none => rfl
    | some r =>
      cases r with
      | error e => rfl
      | ok u => exact if_pos hsize
  rw [hslice]
  exact borrow_iff hm (Nat.mul_le_mul hsize hsize)

/-- No object is so large that it wraps around. -/
theorem fits_object (hmax : size < 2 ^ 63) : Fits debug addr size ↔ addr + size ≤ MAX_USER_ADDR := by
  constructor
  · intro h
    cases h with
    | inl hend => exact hend
    | inr hw =>
      obtain ⟨-, -, haddr, hword⟩ := hw
      simp only [padded, PAGE_SIZE, WORD, MAX_USER_ADDR] at haddr hword
      omega
  · exact .inl

theorem borrowSlice_one_iff (hm : FlagsKnown m) (hsize : 1 ≤ size) (hmax : size < 2 ^ 63) :
    borrowSlice debug m addr 1 size = some (.ok ()) ↔ MappedUser m addr size := by
  have hone : 1 ≤ 1 * size := by
    rw [Nat.one_mul]
    exact hsize
  have h : borrow debug m addr 1 size 0 = some (.ok ()) ↔
      Fits debug addr (1 * size) ∧ Borrowed m addr (1 * size) 0 := borrow_iff hm hone
  rw [Nat.one_mul, fits_object hmax] at h
  exact h

/-- The bytes of the object are the first of those that are looked at. -/
theorem borrowed_object (hsize : 1 ≤ size) (h : Borrowed m addr (size * size) 0) :
    Borrowed m addr size 0 := by
  intro k hk
  exact h k (Nat.lt_of_lt_of_le hk (Nat.le_mul_of_pos_left size hsize))

end objects

/-- The size is multiplied once more in `borrow_slice`, which counts in elements. No object has
more bytes than an `isize` can count. -/
theorem borrowsObject_iff {m : Machine} (hm : FlagsKnown m) (debug : Bool) (addr : Nat) {size : Nat}
    (hsize : 1 ≤ size) (hmax : size < 2 ^ 63) :
    BorrowsObject debug m addr size ↔ SquareMapped debug m addr size := by
  have hslice : borrowSlice debug m addr 1 size = some (.ok ()) ↔ MappedUser m addr size :=
    borrowSlice_one_iff hm hsize hmax
  have hone : borrowOne debug m addr size = some (.ok ()) ↔
      Fits debug addr (size * size) ∧ Borrowed m addr (size * size) 0 := borrowOne_iff hm hsize
  constructor
  · intro h
    have hboth : borrowOne debug m addr size = some (.ok ()) ↔ MappedUser m addr size :=
      h.1.trans hslice
    constructor
    · intro hmapped
      exact hone.mp (hboth.mpr hmapped)
    · rintro rfl hw hfound
      exact (hboth.mp (hone.mpr ⟨.inr ⟨rfl, hw⟩, hfound⟩)).1
  · intro h
    refine ⟨?_, hslice⟩
    rw [hone, hslice]
    constructor
    · rintro ⟨hfits, hfound⟩
      refine ⟨?_, borrowed_object hsize hfound⟩
      cases hfits with
      | inl hend => exact (Nat.add_le_add_left (Nat.le_mul_of_pos_left size hsize) addr).trans hend
      | inr hw => exact h.wraps hw.1 hw.2 hfound
    · exact h.mapped

/-- An object of eight bytes that is far enough from the end of its page. -/
theorem borrowsObject_inside :
    FlagsKnown oneMapped ∧ borrowOne true oneMapped 0x1008 8 = some (.ok ()) ∧
      BorrowsObject true oneMapped 0x1008 8 := by
  have hone : borrowOne true oneMapped 0x1008 8 = some (.ok ()) := by decide +kernel
  have hsquare : SquareMapped true oneMapped 0x1008 8 := by
    constructor
    · intro _
      exact (borrowOne_iff oneMapped_flags (by decide)).mp hone
    · intro hdebug
      cases hdebug
  exact ⟨oneMapped_flags, hone,
    (borrowsObject_iff oneMapped_flags true 0x1008 (by decide) (by decide)).mpr hsquare⟩

/-- The last eight bytes of the page: they are mapped, but not the sixty-four that are asked for. -/
theorem last_object_refused :
    borrowSlice true oneMapped 0x1ff8 1 8 = some (.ok ()) ∧
      borrowOne true oneMapped 0x1ff8 8 = some (.error .badPointer) ∧
      ¬ BorrowsObject true oneMapped 0x1ff8 8 := by
  have hslice : borrowSlice true oneMapped 0x1ff8 1 8 = some (.ok ()) := by decide +kernel
  have hone : borrowOne true oneMapped 0x1ff8 8 = some (.error .badPointer) := by decide +kernel
  refine ⟨hslice, hone, ?_⟩
  intro h
  have hok := h.1.mpr hslice
  rw [hone] at hok
  cases hok

end Crabos.Page
