import Crabos.Interface
import Crabos.Mem.Phys

/-!
# User ranges (`kernel/src/mem/user.rs`)

A range of pages is checked against the end of user space and then, page by
page, against the page tables. Addresses are 64-bit words: sums wrap around.
The page tables are a parameter here, a function from addresses to the last
level entries that `page::entry` finds, with zero for `NotMapped`. A `none` is
a panic.
-/
namespace Crabos.User

open Crabos.Interface

def WORD : Nat := 2 ^ 64

/-- Exclusive. -/
def MAX_USER_ADDR : Nat := 0x0000800000000000

namespace PageFlags

def PRESENT : Nat := 0x001
def WRITE : Nat := 0x002
def USER : Nat := 0x004

/-- All flags that `PageFlags` knows. -/
def all : Nat := 0x0ff

end PageFlags

/-- `PmlEntry::flags` panics on the bits that have no name. -/
def flags (entry : Nat) : Option Nat :=
  if entry % PAGE_SIZE ≤ PageFlags.all then some (entry % PAGE_SIZE) else none

def contains (flags f : Nat) : Bool := flags &&& f = f

def validatePageAlign (addr : Nat) : SysResult Unit :=
  if addr % PAGE_SIZE ≠ 0 then .error .badPointer else .ok ()

structure PageRange where
  basePage : Nat
  pageCount : Nat
  deriving DecidableEq, Repr

def PageRange.new (basePage pageCount : Nat) : SysResult PageRange :=
  let byteLen := pageCount * PAGE_SIZE
  if WORD ≤ byteLen then .error .memoryExhausted
  else (validatePageAlign basePage).bind fun _ =>
    if MAX_USER_ADDR < basePage then .error .badPointer
    else if MAX_USER_ADDR < (basePage + byteLen) % WORD then .error .badPointer
    else .ok ⟨basePage, pageCount⟩

/-- The smallest range that contains the addresses, which need not be aligned. -/
def PageRange.containing (startAddr byteLen : Nat) : SysResult PageRange :=
  let firstPageOffset := startAddr % PAGE_SIZE
  let basePage := startAddr - firstPageOffset
  let byteLen := byteLen + firstPageOffset
  if WORD ≤ byteLen then .error .memoryExhausted
  else
    let lastPageExtent := byteLen % PAGE_SIZE
    let lastPagePadding := if lastPageExtent = 0 then 0 else PAGE_SIZE - lastPageExtent
    let byteLen := byteLen + lastPagePadding
    if WORD ≤ byteLen then .error .memoryExhausted
    else PageRange.new basePage (byteLen / PAGE_SIZE)

def PageRange.pages (r : PageRange) : List Nat :=
  (List.range r.pageCount).map fun i => (r.basePage + i * PAGE_SIZE) % WORD

def validateMap (entry : Nat → Option Nat) (f : Nat) : List Nat → Option (SysResult Unit)
  | [] => some (.ok ())
  | addr :: rest =>
    (entry addr).bind fun e =>
      if e = 0 then some (.error .badPointer)
      else (flags e).bind fun fl =>
        if contains fl f then validateMap entry f rest else some (.error .badPointer)

def validateAvailable (entry : Nat → Option Nat) : List Nat → Option (SysResult Unit)
  | [] => some (.ok ())
  | addr :: rest =>
    (entry addr).bind fun e =>
      if e ≠ 0 then some (.error .alreadyMapped) else validateAvailable entry rest

/-- `validate_read` and `validate_write`: the pages of the range, if `f` is set in all. -/
def validateSlice (entry : Nat → Option Nat) (addr len f : Nat) : Option (SysResult (List Nat)) :=
  match PageRange.containing addr len with
  | .error e => some (.error e)
  | .ok r => (validateMap entry f r.pages).map fun v => v.map fun _ => r.pages

/-- A page whose entry is there, with the flag `f` if any is asked for. -/
def Mapped (e f : Nat) : Prop := e ≠ 0 ∧ contains (e % PAGE_SIZE) f

instance (e f : Nat) : Decidable (Mapped e f) := inferInstanceAs (Decidable (_ ∧ _))

theorem flags_eq {e fl : Nat} (h : flags e = some fl) : fl = e % PAGE_SIZE := by
  rw [flags] at h
  split at h
  · cases h
    rfl
  · cases h

theorem validateMap_ok {entry : Nat → Option Nat} {f : Nat} {pages : List Nat}
    (h : validateMap entry f pages = some (.ok ())) :
    ∀ addr ∈ pages, ∃ e, entry addr = some e ∧ Mapped e f := by
  induction pages with
  | nil => intro addr hm; cases hm
  | cons a rest ih =>
    rw [validateMap] at h
    obtain ⟨e, he, h⟩ := Option.bind_eq_some_iff.mp h
    split at h
    · cases h
    rename_i hne
    obtain ⟨fl, hfl, h⟩ := Option.bind_eq_some_iff.mp h
    split at h
    · rename_i hc
      intro addr hm
      rcases List.mem_cons.mp hm with rfl | hm
      · exact ⟨e, he, hne, flags_eq hfl ▸ hc⟩
      · exact ih h addr hm
    · cases h

theorem validateSlice_ok {entry : Nat → Option Nat} {addr len f : Nat} {pages : List Nat}
    (h : validateSlice entry addr len f = some (.ok pages)) :
    ∀ p ∈ pages, ∃ e, entry p = some e ∧ Mapped e f := by
  rw [validateSlice] at h
  split at h
  · cases h
  obtain ⟨v, hv, hmap⟩ := Option.map_eq_some_iff.mp h
  cases v with
  | error e => cases hmap
  | ok u =>
    cases hmap
    exact validateMap_ok hv

theorem validateAvailable_ok {entry : Nat → Option Nat} {pages : List Nat}
    (h : validateAvailable entry pages = some (.ok ())) : ∀ addr ∈ pages, entry addr = some 0 := by
  induction pages with
  | nil => intro addr hm; cases hm
  | cons a rest ih =>
    rw [validateAvailable] at h
    obtain ⟨e, he, h⟩ := Option.bind_eq_some_iff.mp h
    split at h
    · cases h
    rename_i hz
    intro addr hm
    rcases List.mem_cons.mp hm with rfl | hm
    · rw [he, not_not.mp hz]
    · exact ih h addr hm

/-- Pages that are mapped, with known flags, pass the check. -/
theorem validateMap_mapped {entry : Nat → Option Nat} {f : Nat} {pages : List Nat}
    (h : ∀ addr ∈ pages, ∃ e, entry addr = some e ∧ Mapped e f ∧ e % PAGE_SIZE ≤ PageFlags.all) :
    validateMap entry f pages = some (.ok ()) := by
  induction pages with
  | nil => rfl
  | cons a rest ih =>
    obtain ⟨e, he, ⟨h0, hc⟩, hfl⟩ := h a List.mem_cons_self
    rw [validateMap, he, Option.bind_some, if_neg h0, flags, if_pos hfl, Option.bind_some, if_pos hc]
    exact ih fun addr hx => h addr (List.mem_cons_of_mem _ hx)

/-- Without flags it is enough that they are mapped. -/
theorem validateMap_all {entry : Nat → Option Nat} {pages : List Nat}
    (h : ∀ addr ∈ pages, ∃ e, entry addr = some e ∧ e ≠ 0 ∧ e % PAGE_SIZE ≤ PageFlags.all) :
    validateMap entry 0 pages = some (.ok ()) := by
  apply validateMap_mapped
  intro addr hx
  obtain ⟨e, he, h0, hfl⟩ := h addr hx
  exact ⟨e, he, ⟨h0, by simp [contains]⟩, hfl⟩

/-- The check comes to an entry with bits that `PageFlags` does not name. -/
def Unnamed (entry : Nat → Nat) (f : Nat) (pages : List Nat) : Prop :=
  ∃ before p after, pages = before ++ p :: after ∧ (∀ q ∈ before, Mapped (entry q) f) ∧
    entry p ≠ 0 ∧ flags (entry p) = none

theorem unnamed_cons {entry : Nat → Nat} {f a : Nat} {rest : List Nat} {fl : Nat}
    (hfl : flags (entry a) = some fl) :
    Unnamed entry f (a :: rest) ↔ Mapped (entry a) f ∧ Unnamed entry f rest := by
  constructor
  · rintro ⟨before, p, after, heq, hall, h0, hnone⟩
    cases before with
    | nil =>
      cases heq
      rw [hfl] at hnone
      cases hnone
    | cons b before =>
      cases heq
      exact ⟨hall a List.mem_cons_self, before, p, after, rfl,
        fun q hq => hall q (List.mem_cons_of_mem _ hq), h0, hnone⟩
  · rintro ⟨hm, before, p, after, rfl, hall, h0, hnone⟩
    exact ⟨a :: before, p, after, rfl, List.forall_mem_cons.mpr ⟨hm, hall⟩, h0, hnone⟩

theorem validateMap_unnamed {entry : Nat → Nat} {f : Nat} {pages : List Nat}
    (h : Unnamed entry f pages) : validateMap (fun addr => some (entry addr)) f pages = none := by
  obtain ⟨before, p, after, rfl, hall, h0, hnone⟩ := h
  induction before with
  | nil => rw [List.nil_append, validateMap, Option.bind_some, if_neg h0, hnone, Option.bind_none]
  | cons b before ih =>
    obtain ⟨⟨hb, hc⟩, hall⟩ := List.forall_mem_cons.mp hall
    rw [List.cons_append, validateMap, Option.bind_some, if_neg hb]
    cases hfl : flags (entry b) with
    | none => rfl
    | some fl =>
      rw [← flags_eq hfl] at hc
      rw [Option.bind_some, if_pos hc]
      exact ih hall

/-- Otherwise it comes to a result, and this is whether all pages are mapped. -/
theorem validateMap_named {entry : Nat → Nat} {f : Nat} {pages : List Nat}
    (h : ¬ Unnamed entry f pages) :
    validateMap (fun addr => some (entry addr)) f pages =
      some (if ∀ addr ∈ pages, Mapped (entry addr) f then .ok () else .error .badPointer) := by
  induction pages with
  | nil => rw [if_pos nofun, validateMap]
  | cons a rest ih =>
    rw [validateMap, Option.bind_some]
    by_cases h0 : entry a = 0
    · rw [if_pos h0, if_neg fun hall => (hall a List.mem_cons_self).1 h0]
    cases hfl : flags (entry a) with
    | none => exact absurd ⟨[], a, rest, rfl, fun _ hq => absurd hq List.not_mem_nil, h0, hfl⟩ h
    | some fl =>
      have hmapped : Mapped (entry a) f ↔ contains fl f = true := by
        rw [Mapped, and_iff_right h0, flags_eq hfl]
      rw [unnamed_cons hfl] at h
      rw [if_neg h0, Option.bind_some]
      by_cases hc : contains fl f = true
      · rw [if_pos hc, ih fun hrest => h ⟨hmapped.mpr hc, hrest⟩]
        simp only [List.forall_mem_cons, hmapped, hc, true_and]
      · rw [if_neg hc, if_neg fun hall => hc (hmapped.mp (hall a List.mem_cons_self))]

/-! Ranges that pass the check of `PageRange::new`. -/

/-- The end of the range is beyond the last address. -/
def PageRange.Wraps (r : PageRange) : Prop := WORD ≤ r.basePage + r.pageCount * PAGE_SIZE

theorem PageRange.new_ok {basePage pageCount : Nat} {r : PageRange}
    (h : PageRange.new basePage pageCount = .ok r) :
    r = ⟨basePage, pageCount⟩ ∧ PAGE_SIZE ∣ basePage ∧ basePage ≤ MAX_USER_ADDR ∧
      pageCount * PAGE_SIZE < WORD ∧
      (basePage + pageCount * PAGE_SIZE ≤ MAX_USER_ADDR ∨ r.Wraps) := by
  simp only [PageRange.new, validatePageAlign] at h
  split at h
  · cases h
  rename_i hlen
  split at h
  · cases h
  rename_i halign
  simp only [Except.bind] at h
  split at h
  · cases h
  rename_i hbase
  split at h
  · cases h
  rename_i hend
  cases h
  refine ⟨rfl, Nat.dvd_of_mod_eq_zero (not_not.mp halign), Nat.not_lt.mp hbase,
    Nat.not_le.mp hlen, ?_⟩
  by_cases hw : WORD ≤ basePage + pageCount * PAGE_SIZE
  · exact .inr hw
  · rw [Nat.mod_eq_of_lt (Nat.not_le.mp hw)] at hend
    exact .inl (Nat.not_lt.mp hend)

theorem PageRange.page_lt {r : PageRange}
    (h : r.basePage + r.pageCount * PAGE_SIZE ≤ MAX_USER_ADDR) {i : Nat} (hi : i < r.pageCount) :
    r.basePage + i * PAGE_SIZE < MAX_USER_ADDR := by
  simp only [PAGE_SIZE] at h ⊢
  omega

theorem PageRange.pages_eq {r : PageRange}
    (h : r.basePage + r.pageCount * PAGE_SIZE ≤ MAX_USER_ADDR) :
    r.pages = (List.range r.pageCount).map fun i => r.basePage + i * PAGE_SIZE := by
  refine List.map_congr_left fun i hi => Nat.mod_eq_of_lt ?_
  exact (PageRange.page_lt h (List.mem_range.mp hi)).trans (by decide)

theorem PageRange.pages_ascending {r : PageRange}
    (h : r.basePage + r.pageCount * PAGE_SIZE ≤ MAX_USER_ADDR) : r.pages.Pairwise (· < ·) := by
  rw [PageRange.pages_eq h, List.pairwise_map]
  refine List.pairwise_lt_range.imp fun {i j} hij => ?_
  simp only [PAGE_SIZE]
  omega

/-- Without a wrap all pages are below the end of user space, and they are distinct. -/
theorem PageRange.pages_user {r : PageRange} (ha : PAGE_SIZE ∣ r.basePage)
    (h : r.basePage + r.pageCount * PAGE_SIZE ≤ MAX_USER_ADDR) :
    (∀ v ∈ r.pages, v < MAX_USER_ADDR ∧ PAGE_SIZE ∣ v) ∧ r.pages.Nodup := by
  refine ⟨fun v hv => ?_, (PageRange.pages_ascending h).imp fun {a b} hab => Nat.ne_of_lt hab⟩
  rw [PageRange.pages_eq h] at hv
  obtain ⟨i, hi, rfl⟩ := List.mem_map.mp hv
  exact ⟨PageRange.page_lt h (List.mem_range.mp hi), Nat.dvd_add ha (Nat.dvd_mul_left _ _)⟩

/-- A range that wraps around has all pages of the upper half. -/
theorem PageRange.mem_pages_of_wraps {r : PageRange} (ha : PAGE_SIZE ∣ r.basePage)
    (hb : r.basePage ≤ MAX_USER_ADDR) (h : r.Wraps) {v : Nat} (hv : PAGE_SIZE ∣ v)
    (h₁ : MAX_USER_ADDR ≤ v) (h₂ : v < WORD) : v ∈ r.pages := by
  obtain ⟨a, ha⟩ := ha
  obtain ⟨b, rfl⟩ := hv
  refine List.mem_map.mpr ⟨b - a, List.mem_range.mpr ?_, ?_⟩
  · simp only [PageRange.Wraps, PAGE_SIZE, WORD, MAX_USER_ADDR] at *
    omega
  · have hsum : r.basePage + (b - a) * PAGE_SIZE = PAGE_SIZE * b := by
      simp only [PAGE_SIZE] at *
      omega
    rw [hsum, Nat.mod_eq_of_lt h₂]

/-- `PageRange::new` with its additions checked; `none` is an overflow. -/
def PageRange.newChecked (basePage pageCount : Nat) : Option (SysResult PageRange) :=
  let byteLen := pageCount * PAGE_SIZE
  if WORD ≤ byteLen then some (.error .memoryExhausted)
  else
    match validatePageAlign basePage with
    | .error e => some (.error e)
    | .ok _ =>
      if MAX_USER_ADDR < basePage then some (.error .badPointer)
      else if WORD ≤ basePage + byteLen then none
      else if MAX_USER_ADDR < basePage + byteLen then some (.error .badPointer)
      else some (.ok ⟨basePage, pageCount⟩)

/-- The sum is reached, and it is beyond the last address. -/
def PageRange.SumWraps (basePage pageCount : Nat) : Prop :=
  pageCount * PAGE_SIZE < WORD ∧ PAGE_SIZE ∣ basePage ∧ basePage ≤ MAX_USER_ADDR ∧
    WORD ≤ basePage + pageCount * PAGE_SIZE

instance (basePage pageCount : Nat) : Decidable (PageRange.SumWraps basePage pageCount) :=
  inferInstanceAs (Decidable (_ ∧ _ ∧ _ ∧ _))

theorem PageRange.newChecked_none {basePage pageCount : Nat} :
    PageRange.newChecked basePage pageCount = none ↔ PageRange.SumWraps basePage pageCount := by
  rw [PageRange.SumWraps, Nat.dvd_iff_mod_eq_zero]
  simp only [PageRange.newChecked, validatePageAlign]
  constructor
  · intro h
    split at h
    · cases h
    rename_i hlen
    split at h
    · cases h
    rename_i halign
    split at halign
    · cases halign
    rename_i hmod
    split at h
    · cases h
    rename_i hbase
    split at h
    · rename_i hsum
      exact ⟨Nat.not_le.mp hlen, not_not.mp hmod, Nat.not_lt.mp hbase, hsum⟩
    · split at h
      · cases h
      · cases h
  · rintro ⟨hlen, hmod, hbase, hsum⟩
    rw [if_neg (Nat.not_le.mpr hlen), if_neg (not_not.mpr hmod)]
    simp only
    rw [if_neg (Nat.not_lt.mpr hbase), if_pos hsum]

/-- A sum that wraps around is small again, so that the range is accepted. -/
theorem PageRange.new_sumWraps {basePage pageCount : Nat} (h : PageRange.SumWraps basePage pageCount) :
    PageRange.new basePage pageCount = .ok ⟨basePage, pageCount⟩ := by
  obtain ⟨hlen, ha, hbase, hsum⟩ := h
  have hmod : (basePage + pageCount * PAGE_SIZE) % WORD ≤ MAX_USER_ADDR := by
    simp only [WORD, MAX_USER_ADDR] at hlen hbase hsum ⊢
    omega
  simp only [PageRange.new, validatePageAlign]
  rw [if_neg (Nat.not_le.mpr hlen), if_neg (not_not.mpr (Nat.mod_eq_zero_of_dvd ha))]
  simp only [Except.bind]
  rw [if_neg (Nat.not_lt.mpr hbase), if_neg (Nat.not_lt.mpr hmod)]

/-- Without an overflow both builds agree. -/
theorem PageRange.newChecked_some {basePage pageCount : Nat}
    (h : ¬ PageRange.SumWraps basePage pageCount) :
    PageRange.newChecked basePage pageCount = some (PageRange.new basePage pageCount) := by
  rw [PageRange.SumWraps, Nat.dvd_iff_mod_eq_zero] at h
  simp only [PageRange.newChecked, PageRange.new, validatePageAlign]
  split
  · rfl
  rename_i hlen
  by_cases hmod : basePage % PAGE_SIZE = 0
  · rw [if_neg (not_not.mpr hmod)]
    simp only [Except.bind]
    split
    · rfl
    rename_i hbase
    have hsum : ¬ WORD ≤ basePage + pageCount * PAGE_SIZE := fun hs =>
      h ⟨Nat.not_le.mp hlen, hmod, Nat.not_lt.mp hbase, hs⟩
    rw [if_neg hsum, Nat.mod_eq_of_lt (Nat.not_le.mp hsum)]
    split
    · rfl
    · rfl
  · rw [if_pos hmod]
    rfl

/-- What the callers of `PageRange::new` rely on. -/
structure PageRange.NewSound (basePage pageCount : Nat) : Prop where
  completes : PageRange.newChecked basePage pageCount ≠ none
  ok : (∃ r, PageRange.new basePage pageCount = .ok r) ↔
    PAGE_SIZE ∣ basePage ∧ basePage + PAGE_SIZE * pageCount ≤ MAX_USER_ADDR
  pages : ∀ r, PageRange.new basePage pageCount = .ok r →
    r.pages = (List.range pageCount).map (fun i => basePage + i * PAGE_SIZE) ∧
      r.pages.Pairwise (· < ·) ∧ ∀ v ∈ r.pages, v < MAX_USER_ADDR

theorem PageRange.new_eq_ok {basePage pageCount : Nat} (ha : PAGE_SIZE ∣ basePage)
    (h : basePage + PAGE_SIZE * pageCount ≤ MAX_USER_ADDR) :
    PageRange.new basePage pageCount = .ok ⟨basePage, pageCount⟩ := by
  rw [Nat.mul_comm] at h
  have hword : basePage + pageCount * PAGE_SIZE < WORD := lt_of_le_of_lt h (by decide)
  simp only [PageRange.new, validatePageAlign]
  rw [if_neg (by omega), if_neg (not_not.mpr (Nat.mod_eq_zero_of_dvd ha))]
  simp only [Except.bind]
  rw [if_neg (by omega), Nat.mod_eq_of_lt hword, if_neg (by omega)]

/-- `PageRange::new` is sound exactly when its sum does not wrap around. -/
theorem PageRange.newSound_iff (basePage pageCount : UInt64) :
    PageRange.NewSound basePage.toNat pageCount.toNat ↔
      ¬ PageRange.SumWraps basePage.toNat pageCount.toNat := by
  constructor
  · intro h hw
    exact h.completes (PageRange.newChecked_none.mpr hw)
  · intro hw
    have hsound : ∀ r, PageRange.new basePage.toNat pageCount.toNat = .ok r →
        r = ⟨basePage.toNat, pageCount.toNat⟩ ∧ PAGE_SIZE ∣ basePage.toNat ∧
          basePage.toNat + pageCount.toNat * PAGE_SIZE ≤ MAX_USER_ADDR := by
      intro r hr
      obtain ⟨rfl, ha, hb, hlen, hle | hwraps⟩ := PageRange.new_ok hr
      · exact ⟨rfl, ha, hle⟩
      · exact absurd ⟨hlen, ha, hb, hwraps⟩ hw
    refine ⟨fun hn => hw (PageRange.newChecked_none.mp hn), ⟨?_, ?_⟩, fun r hr => ?_⟩
    · rintro ⟨r, hr⟩
      obtain ⟨-, ha, hle⟩ := hsound r hr
      exact ⟨ha, by rwa [Nat.mul_comm]⟩
    · rintro ⟨ha, hle⟩
      exact ⟨_, PageRange.new_eq_ok ha hle⟩
    · obtain ⟨rfl, ha, hle⟩ := hsound r hr
      exact ⟨PageRange.pages_eq hle, PageRange.pages_ascending hle,
        fun v hv => ((PageRange.pages_user ha hle).1 v hv).1⟩

/-- The pages of almost the whole address space, from the second one on. -/
theorem PageRange.new_wraps :
    PageRange.newChecked 0x1000 0xfffffffffffff = none ∧
      PageRange.new 0x1000 0xfffffffffffff = .ok ⟨0x1000, 0xfffffffffffff⟩ ∧
      ¬ PageRange.NewSound 0x1000 0xfffffffffffff := by
  have hnone : PageRange.newChecked 0x1000 0xfffffffffffff = none := by decide
  exact ⟨hnone, by decide, fun h => h.completes hnone⟩

/-! The ranges of slices. -/

/-- The end of the page that `n` is in, or `n` if a page begins there. -/
def padded (n : Nat) : Nat := (n + (PAGE_SIZE - 1)) / PAGE_SIZE * PAGE_SIZE

theorem add_padding (n : Nat) :
    n + (if n % PAGE_SIZE = 0 then 0 else PAGE_SIZE - n % PAGE_SIZE) = padded n := by
  by_cases hn : n % PAGE_SIZE = 0
  · rw [if_pos hn]
    simp only [padded, PAGE_SIZE] at hn ⊢
    omega
  · rw [if_neg hn]
    simp only [padded, PAGE_SIZE] at hn ⊢
    omega

theorem le_padded (n : Nat) : n ≤ padded n := by
  simp only [padded, PAGE_SIZE]
  omega

theorem padded_div_mul (n : Nat) : padded n / PAGE_SIZE * PAGE_SIZE = padded n := by
  rw [padded, Nat.mul_div_cancel _ (by decide)]

/-- The base page and the padded length reach as far as the padded end. -/
theorem base_add_padded (startAddr byteLen : Nat) :
    startAddr - startAddr % PAGE_SIZE + padded (byteLen + startAddr % PAGE_SIZE) =
      padded (startAddr + byteLen) := by
  simp only [padded, PAGE_SIZE]
  omega

theorem PageRange.containing_eq (startAddr byteLen : Nat) :
    PageRange.containing startAddr byteLen =
      if WORD ≤ padded (byteLen + startAddr % PAGE_SIZE) then .error .memoryExhausted
      else PageRange.new (startAddr - startAddr % PAGE_SIZE)
        (padded (byteLen + startAddr % PAGE_SIZE) / PAGE_SIZE) := by
  simp only [PageRange.containing, add_padding]
  have hle := le_padded (byteLen + startAddr % PAGE_SIZE)
  by_cases hlen : WORD ≤ byteLen + startAddr % PAGE_SIZE
  · rw [if_pos hlen, if_pos (hlen.trans hle)]
  · rw [if_neg hlen]

/-- `PageRange::containing` with the addition of `PageRange::new` checked. -/
def PageRange.containingChecked (startAddr byteLen : Nat) : Option (SysResult PageRange) :=
  let firstPageOffset := startAddr % PAGE_SIZE
  let basePage := startAddr - firstPageOffset
  let byteLen := byteLen + firstPageOffset
  if WORD ≤ byteLen then some (.error .memoryExhausted)
  else
    let lastPageExtent := byteLen % PAGE_SIZE
    let lastPagePadding := if lastPageExtent = 0 then 0 else PAGE_SIZE - lastPageExtent
    let byteLen := byteLen + lastPagePadding
    if WORD ≤ byteLen then some (.error .memoryExhausted)
    else PageRange.newChecked basePage (byteLen / PAGE_SIZE)

theorem PageRange.containingChecked_eq (startAddr byteLen : Nat) :
    PageRange.containingChecked startAddr byteLen =
      if WORD ≤ padded (byteLen + startAddr % PAGE_SIZE) then some (.error .memoryExhausted)
      else PageRange.newChecked (startAddr - startAddr % PAGE_SIZE)
        (padded (byteLen + startAddr % PAGE_SIZE) / PAGE_SIZE) := by
  simp only [PageRange.containingChecked, add_padding]
  have hle := le_padded (byteLen + startAddr % PAGE_SIZE)
  by_cases hlen : WORD ≤ byteLen + startAddr % PAGE_SIZE
  · rw [if_pos hlen, if_pos (hlen.trans hle)]
  · rw [if_neg hlen]

/-- A slice that begins in user space and whose last page ends beyond the last address. -/
def SliceWraps (startAddr byteLen : Nat) : Prop :=
  padded (byteLen + startAddr % PAGE_SIZE) < WORD ∧ startAddr < MAX_USER_ADDR + PAGE_SIZE ∧
    WORD ≤ padded (startAddr + byteLen)

instance (startAddr byteLen : Nat) : Decidable (SliceWraps startAddr byteLen) :=
  inferInstanceAs (Decidable (_ ∧ _ ∧ _))

theorem sumWraps_slice {startAddr byteLen : Nat} :
    PageRange.SumWraps (startAddr - startAddr % PAGE_SIZE)
        (padded (byteLen + startAddr % PAGE_SIZE) / PAGE_SIZE) ↔ SliceWraps startAddr byteLen := by
  have halign : PAGE_SIZE ∣ startAddr - startAddr % PAGE_SIZE := Nat.dvd_sub_mod startAddr
  have hbase : startAddr - startAddr % PAGE_SIZE ≤ MAX_USER_ADDR ↔
      startAddr < MAX_USER_ADDR + PAGE_SIZE := by
    simp only [MAX_USER_ADDR, PAGE_SIZE]
    omega
  rw [PageRange.SumWraps, SliceWraps, padded_div_mul, base_add_padded, hbase]
  tauto

theorem PageRange.containingChecked_none {startAddr byteLen : Nat} :
    PageRange.containingChecked startAddr byteLen = none ↔ SliceWraps startAddr byteLen := by
  rw [PageRange.containingChecked_eq]
  by_cases hlen : WORD ≤ padded (byteLen + startAddr % PAGE_SIZE)
  · rw [if_pos hlen]
    exact ⟨nofun, fun h => absurd h.1 (Nat.not_lt.mpr hlen)⟩
  · rw [if_neg hlen, PageRange.newChecked_none, sumWraps_slice]

theorem PageRange.containingChecked_some {startAddr byteLen : Nat}
    (h : ¬ SliceWraps startAddr byteLen) :
    PageRange.containingChecked startAddr byteLen =
      some (PageRange.containing startAddr byteLen) := by
  rw [PageRange.containingChecked_eq, PageRange.containing_eq]
  by_cases hlen : WORD ≤ padded (byteLen + startAddr % PAGE_SIZE)
  · rw [if_pos hlen, if_pos hlen]
  · rw [if_neg hlen, if_neg hlen]
    rw [← sumWraps_slice] at h
    exact PageRange.newChecked_some h

/-- The range of a slice that does not wrap around ends at the padded end of the slice. -/
theorem PageRange.containing_ok {startAddr byteLen : Nat} {r : PageRange}
    (hw : ¬ SliceWraps startAddr byteLen) (h : PageRange.containing startAddr byteLen = .ok r) :
    r.basePage = startAddr - startAddr % PAGE_SIZE ∧ PAGE_SIZE ∣ r.basePage ∧
      r.basePage + r.pageCount * PAGE_SIZE = padded (startAddr + byteLen) ∧
      padded (startAddr + byteLen) ≤ MAX_USER_ADDR := by
  rw [PageRange.containing_eq] at h
  split at h
  · cases h
  obtain ⟨rfl, ha, hb, hlen, hend⟩ := PageRange.new_ok h
  have hsum : startAddr - startAddr % PAGE_SIZE +
      padded (byteLen + startAddr % PAGE_SIZE) / PAGE_SIZE * PAGE_SIZE =
        padded (startAddr + byteLen) := by
    rw [padded_div_mul, base_add_padded]
  refine ⟨rfl, ha, hsum, ?_⟩
  rcases hend with hend | hend
  · rwa [hsum] at hend
  · exact absurd (sumWraps_slice.mp ⟨hlen, ha, hb, hend⟩) hw

/-- A span within user space has a range. -/
theorem PageRange.containing_user {startAddr byteLen : Nat}
    (hend : startAddr + byteLen ≤ MAX_USER_ADDR) :
    ¬ SliceWraps startAddr byteLen ∧ PageRange.containing startAddr byteLen =
      .ok ⟨startAddr - startAddr % PAGE_SIZE,
        padded (byteLen + startAddr % PAGE_SIZE) / PAGE_SIZE⟩ := by
  have hmax : padded (startAddr + byteLen) ≤ MAX_USER_ADDR := by
    simp only [padded, PAGE_SIZE, MAX_USER_ADDR] at hend ⊢
    omega
  have hword : padded (startAddr + byteLen) < WORD := lt_of_le_of_lt hmax (by decide)
  have hsum := base_add_padded startAddr byteLen
  constructor
  · exact fun hw => absurd hw.2.2 (Nat.not_le.mpr hword)
  · rw [PageRange.containing_eq, if_neg (by omega)]
    apply PageRange.new_eq_ok
    · exact Nat.dvd_sub_mod startAddr
    · rw [Nat.mul_comm, padded_div_mul, hsum]
      exact hmax

/-- `containing` has exactly the pages that the span has a byte of, in order. -/
theorem PageRange.containing_exact {startAddr byteLen : Nat} (hlen : 1 ≤ byteLen)
    (hend : startAddr + byteLen ≤ MAX_USER_ADDR) :
    ∃ r, PageRange.containing startAddr byteLen = .ok r ∧
      PageRange.containingChecked startAddr byteLen = some (.ok r) ∧ r.pages.Pairwise (· < ·) ∧
      ∀ p, p ∈ r.pages ↔
        PAGE_SIZE ∣ p ∧ p < startAddr + byteLen ∧ startAddr < p + PAGE_SIZE := by
  obtain ⟨hw, hr⟩ := PageRange.containing_user hend
  obtain ⟨-, ha, hsum, hmax⟩ := PageRange.containing_ok hw hr
  rw [← hsum] at hmax
  refine ⟨_, hr, ?_, PageRange.pages_ascending hmax, fun p => ?_⟩
  · rw [PageRange.containingChecked_some hw, hr]
  · rw [PageRange.pages_eq hmax]
    simp only [List.mem_map, List.mem_range, padded, PAGE_SIZE]
    constructor
    · rintro ⟨i, hi, rfl⟩
      omega
    · rintro ⟨⟨n, rfl⟩, hlt, hgt⟩
      exact ⟨n - startAddr / 4096, by omega, by omega⟩

theorem PageRange.containing_exact_two :
    ∃ r, PageRange.containing 0x1fff 2 = .ok r ∧ r.pages = [0x1000, 0x2000] ∧
      ∀ p, p ∈ r.pages ↔ PAGE_SIZE ∣ p ∧ p < 0x2001 ∧ 0x1fff < p + PAGE_SIZE := by
  obtain ⟨r, hr, -, -, hpages⟩ :=
    PageRange.containing_exact (by decide : 1 ≤ 2) (by decide : 0x1fff + 2 ≤ MAX_USER_ADDR)
  refine ⟨r, hr, ?_, hpages⟩
  obtain rfl : ⟨0x1000, 2⟩ = r := Except.ok.inj (Eq.trans (by decide) hr)
  decide

end Crabos.User
