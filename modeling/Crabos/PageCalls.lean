import Crabos.Lib.Run
import Crabos.Mem.User

/-!
# Page calls (`kernel/src/syscall.rs`)

The four calls that change page tables, over any way to keep the tables: what
they check and in which order is the same whether the tables are seen as a
map of last level entries or as words in memory. A loop over pages that must
not fail is a run of its partial step.
-/
namespace Crabos.PageCalls

open Crabos.User Crabos.Interface Crabos.Run

/-- What the calls use of `phys` and `page`; `none` is a panic. `entry` gives
zero for `NotMapped`, `allocMap` maps a new frame, and `mapPhys` a given one. -/
structure Tables (σ : Type) where
  entry : σ → Nat → Option Nat
  allocMap : σ → Nat → Nat → Option (SysResult Unit × σ)
  mapPhys : σ → Nat → Nat → Nat → Option σ
  unmap : σ → Nat → Option σ
  modify : σ → Nat → Nat → Option σ

section calls

variable {σ : Type} (t : Tables σ)

/-- The early return of `?`. -/
def orFail {α : Type} (s : σ) (r : SysResult α) (k : α → Option (SysResult Nat × σ)) :
    Option (SysResult Nat × σ) :=
  match r with
  | .error e => some (.error e, s)
  | .ok a => k a

/-- `UserPageFlags::from_bits`, then the conversion to `PageFlags`. -/
def userPageFlags (bits : Nat) : SysResult Nat :=
  if bits ||| PageFlags.WRITE = PageFlags.WRITE then
    .ok (PageFlags.PRESENT ||| PageFlags.USER ||| bits)
  else .error .illegalValue

/-- The loop of `alloc_page`; the pages before a failure stay mapped. -/
def allocPages (fl : Nat) : List Nat → σ → Option (SysResult Nat × σ)
  | [], s => some (.ok OK, s)
  | addr :: rest, s =>
    (t.allocMap s addr fl).bind fun
      | (.ok _, s) => allocPages fl rest s
      | (.error e, s) => some (.error e, s)

def allocPage (s : σ) (virtualAddr pageCount bits : Nat) : Option (SysResult Nat × σ) :=
  orFail s (PageRange.new virtualAddr pageCount) fun range =>
  (validateAvailable (t.entry s) range.pages).bind fun available =>
  orFail s available fun _ =>
  orFail s (userPageFlags bits) fun fl =>
    allocPages t fl range.pages s

def releasePage (s : σ) (virtualAddr pageCount : Nat) : Option (SysResult Nat × σ) :=
  orFail s (PageRange.new virtualAddr pageCount) fun range =>
  (validateMap (t.entry s) 0 range.pages).bind fun valid =>
  orFail s valid fun _ =>
    (run t.unmap s range.pages).map fun s => (.ok OK, s)

def modifyAs (fl : Nat) (s : σ) (virt : Nat) : Option σ := t.modify s virt fl

def modifyPage (s : σ) (virtualAddr pageCount bits : Nat) : Option (SysResult Nat × σ) :=
  orFail s (PageRange.new virtualAddr pageCount) fun range =>
  (validateMap (t.entry s) 0 range.pages).bind fun valid =>
  orFail s valid fun _ =>
  orFail s (userPageFlags bits) fun fl =>
    (run (modifyAs t fl) s range.pages).map fun s => (.ok OK, s)

/-- `(physical_addr..).step_by(PAGE_SIZE)` as far as the pages go. -/
def physPages (physicalAddr pageCount : Nat) : List Nat :=
  (List.range pageCount).map fun i => (physicalAddr + i * PAGE_SIZE) % WORD

def mapPhysAs (fl : Nat) (s : σ) (page : Nat × Nat) : Option σ := t.mapPhys s page.2 page.1 fl

/-- Every mapping is expected to succeed. -/
def mapPhysicalMemory (s : σ) (virtualAddr physicalAddr pageCount bits : Nat) :
    Option (SysResult Nat × σ) :=
  orFail s (PageRange.new virtualAddr pageCount) fun range =>
  (validateAvailable (t.entry s) range.pages).bind fun available =>
  orFail s available fun _ =>
  orFail s (userPageFlags bits) fun fl =>
    (run (mapPhysAs t fl) s (range.pages.zip (physPages physicalAddr pageCount))).map fun s =>
      (.ok OK, s)

end calls

/-- The flags that user code can ask for. -/
theorem userPageFlags_ok {bits fl : Nat} (h : userPageFlags bits = .ok fl) :
    bits = 0 ∧ fl = 5 ∨ bits = 2 ∧ fl = 7 := by
  rw [userPageFlags] at h
  split at h
  · rename_i hb
    have hle : bits ≤ 2 := by
      rw [show (2 : Nat) = bits ||| PageFlags.WRITE from hb.symm]
      exact Nat.left_le_or
    cases h
    have hcases : bits = 0 ∨ bits = 1 ∨ bits = 2 := by omega
    rcases hcases with rfl | rfl | rfl
    · exact .inl ⟨rfl, rfl⟩
    · exact absurd hb (by decide)
    · exact .inr ⟨rfl, rfl⟩
  · cases h

/-! Each call either fails before it changes anything, or its checks have passed. -/

section cases

variable {σ : Type} {t : Tables σ} {s s' : σ} {r : SysResult Nat}

theorem orFail_cases {α : Type} {x : SysResult α} {k : α → Option (SysResult Nat × σ)}
    (h : orFail s x k = some (r, s')) :
    (∃ e, r = .error e ∧ s' = s) ∨ ∃ a, x = .ok a ∧ k a = some (r, s') := by
  cases x with
  | error e =>
    cases h
    exact .inl ⟨e, rfl, rfl⟩
  | ok a => exact .inr ⟨a, rfl, h⟩

theorem allocPage_cases {virtualAddr pageCount bits : Nat}
    (h : allocPage t s virtualAddr pageCount bits = some (r, s')) :
    (∃ e, r = .error e ∧ s' = s) ∨
    ∃ range fl, PageRange.new virtualAddr pageCount = .ok range ∧
      validateAvailable (t.entry s) range.pages = some (.ok ()) ∧ userPageFlags bits = .ok fl ∧
      allocPages t fl range.pages s = some (r, s') := by
  rcases orFail_cases h with he | ⟨range, hn, h⟩
  · exact .inl he
  obtain ⟨available, hv, h⟩ := Option.bind_eq_some_iff.mp h
  rcases orFail_cases h with he | ⟨u, rfl, hk⟩
  · exact .inl he
  rcases orFail_cases hk with he | ⟨fl, hf, h⟩
  · exact .inl he
  · exact .inr ⟨range, fl, hn, hv, hf, h⟩

theorem releasePage_cases {virtualAddr pageCount : Nat}
    (h : releasePage t s virtualAddr pageCount = some (r, s')) :
    (∃ e, r = .error e ∧ s' = s) ∨
    ∃ range, PageRange.new virtualAddr pageCount = .ok range ∧
      validateMap (t.entry s) 0 range.pages = some (.ok ()) ∧
      run t.unmap s range.pages = some s' ∧ r = .ok OK := by
  rcases orFail_cases h with he | ⟨range, hn, h⟩
  · exact .inl he
  obtain ⟨valid, hv, h⟩ := Option.bind_eq_some_iff.mp h
  rcases orFail_cases h with he | ⟨u, rfl, hk⟩
  · exact .inl he
  obtain ⟨s₁, hr, hs⟩ := Option.map_eq_some_iff.mp hk
  cases hs
  exact .inr ⟨range, hn, hv, hr, rfl⟩

theorem modifyPage_cases {virtualAddr pageCount bits : Nat}
    (h : modifyPage t s virtualAddr pageCount bits = some (r, s')) :
    (∃ e, r = .error e ∧ s' = s) ∨
    ∃ range fl, PageRange.new virtualAddr pageCount = .ok range ∧
      validateMap (t.entry s) 0 range.pages = some (.ok ()) ∧ userPageFlags bits = .ok fl ∧
      run (modifyAs t fl) s range.pages = some s' ∧ r = .ok OK := by
  rcases orFail_cases h with he | ⟨range, hn, h⟩
  · exact .inl he
  obtain ⟨valid, hv, h⟩ := Option.bind_eq_some_iff.mp h
  rcases orFail_cases h with he | ⟨u, rfl, hk⟩
  · exact .inl he
  rcases orFail_cases hk with he | ⟨fl, hf, h⟩
  · exact .inl he
  obtain ⟨s₁, hr, hs⟩ := Option.map_eq_some_iff.mp h
  cases hs
  exact .inr ⟨range, fl, hn, hv, hf, hr, rfl⟩

theorem mapPhysicalMemory_cases {virtualAddr physicalAddr pageCount bits : Nat}
    (h : mapPhysicalMemory t s virtualAddr physicalAddr pageCount bits = some (r, s')) :
    (∃ e, r = .error e ∧ s' = s) ∨
    ∃ range fl, PageRange.new virtualAddr pageCount = .ok range ∧
      validateAvailable (t.entry s) range.pages = some (.ok ()) ∧ userPageFlags bits = .ok fl ∧
      run (mapPhysAs t fl) s (range.pages.zip (physPages physicalAddr pageCount)) = some s' ∧
      r = .ok OK := by
  rcases orFail_cases h with he | ⟨range, hn, h⟩
  · exact .inl he
  obtain ⟨available, hv, h⟩ := Option.bind_eq_some_iff.mp h
  rcases orFail_cases h with he | ⟨u, rfl, hk⟩
  · exact .inl he
  rcases orFail_cases hk with he | ⟨fl, hf, h⟩
  · exact .inl he
  obtain ⟨s₁, hr, hs⟩ := Option.map_eq_some_iff.mp h
  cases hs
  exact .inr ⟨range, fl, hn, hv, hf, hr, rfl⟩

/-- A relation that every new mapping keeps is kept by the loop of `alloc_page`. -/
theorem allocPages_rel {R : σ → σ → Prop} {fl : Nat} {pages : List Nat} (hrefl : ∀ s, R s s)
    (htrans : ∀ s t u, R s t → R t u → R s u)
    (hmap : ∀ addr ∈ pages, ∀ s x s', t.allocMap s addr fl = some (x, s') → R s s')
    (h : allocPages t fl pages s = some (r, s')) : R s s' := by
  induction pages generalizing s with
  | nil =>
    cases h
    exact hrefl _
  | cons addr rest ih =>
    obtain ⟨⟨x, s₁⟩, hx, h⟩ := Option.bind_eq_some_iff.mp h
    have h₁ := hmap addr List.mem_cons_self s x s₁ hx
    cases x with
    | error e =>
      cases h
      exact h₁
    | ok u => exact htrans _ _ _ h₁ (ih (fun a ha => hmap a (List.mem_cons_of_mem _ ha)) h)

/-- As `run_follow`, for the loop of `alloc_page`. -/
theorem allocPages_follow {α : Type} {f : α → σ} {P : α → Prop} {R : α → α → Prop} {fl : Nat}
    {pages : List Nat} {w : α} (hrefl : ∀ w, R w w) (htrans : ∀ u v w, R u v → R v w → R u w)
    (hmap : ∀ addr ∈ pages, ∀ w x s', P w → t.allocMap (f w) addr fl = some (x, s') →
      ∃ w', f w' = s' ∧ P w' ∧ R w w')
    (hw : P w) (h : allocPages t fl pages (f w) = some (r, s')) :
    ∃ w', f w' = s' ∧ P w' ∧ R w w' := by
  induction pages generalizing w with
  | nil =>
    cases h
    exact ⟨w, rfl, hw, hrefl w⟩
  | cons addr rest ih =>
    obtain ⟨⟨x, s₁⟩, hx, h⟩ := Option.bind_eq_some_iff.mp h
    obtain ⟨w₁, rfl, hw₁, hr₁⟩ := hmap addr List.mem_cons_self w x s₁ hw hx
    cases x with
    | error e =>
      cases h
      exact ⟨w₁, rfl, hw₁, hr₁⟩
    | ok u =>
      obtain ⟨w₂, he, hw₂, hr₂⟩ := ih (fun a ha => hmap a (List.mem_cons_of_mem _ ha)) hw₁ h
      exact ⟨w₂, he, hw₂, htrans _ _ _ hr₁ hr₂⟩

end cases

end Crabos.PageCalls
