import Crabos.Mem.PageOps

/-!
# The kernel half at the start (`kernel/src/mem/page.rs`, `kernel/src/mem/phys.rs`)

Before `init_ref_counts` the counts are off, and nothing has been freed yet. Low
memory is still mapped by large pages, so that only the kernel half of the
address space is looked at here: what `alloc` and `map` add to its tables.
-/
namespace Crabos.BootPages

open Crabos.Words Crabos.Radix Crabos.Run Crabos.Page

/-- Indices of the kernel half, without the window. -/
def KernelWay (is : List Nat) : Prop :=
  (∀ i ∈ is, i < 512) ∧ ∀ i ∈ is.head?, 256 ≤ i ∧ i ≠ 511

/-- The pages from an address to the end of a region. -/
def pagesFrom (a endAddr : Nat) : List Nat :=
  List.range' a ((endAddr - a + (PAGE_SIZE - 1)) / PAGE_SIZE) PAGE_SIZE

/-- The frames that the bump pointers come to, in their order. -/
def upcoming : List Phys.PhysRegion → List Nat → List Nat
  | region :: regions, alloc :: bump => pagesFrom alloc region.endAddr ++ upcoming regions bump
  | _, _ => []

/-- The next `n` of them. -/
def ahead (n : Nat) (m : Machine) : List Nat := (upcoming m.phys.regions m.phys.bumpAlloc).take n

/-- The next `n` frames are distinct and none of them is a table of the kernel, whose
entries are present. -/
structure Boot (n : Nat) (m : Machine) : Prop where
  disabled : m.phys.refCountEnabled = false
  empty : m.phys.nextFree = none
  aligned : ∀ f ∈ upcoming m.phys.regions m.phys.bumpAlloc, PAGE_SIZE ∣ f
  nodup : (ahead n m).Nodup
  self : next (m.mem (slot m.cr3 511)) = some m.cr3
  tables : ∀ is t, KernelWay is → is.length ≤ 3 → find next m.mem m.cr3 is = some t → t ∉ ahead n m
  entries : ∀ is t i, KernelWay (is ++ [i]) → is.length ≤ 3 → find next m.mem m.cr3 is = some t →
    m.mem (slot t i) ≠ 0 → next (m.mem (slot t i)) ≠ none

/-- A frame that was taken, still cleared and not yet a table of the kernel. -/
structure Spare (n : Nat) (m : Machine) (f : Nat) : Prop where
  aligned : PAGE_SIZE ∣ f
  taken : f ∉ ahead n m
  zero : ∀ a, f ≤ a → a < f + PAGE_SIZE → m.mem a = 0
  unused : ∀ is t, KernelWay is → is.length ≤ 3 → find next m.mem m.cr3 is = some t → t ≠ f

/-- The ways of the kernel, down to its pages, only become more. -/
structure Grows (m m' : Machine) : Prop where
  cr3 : m'.cr3 = m.cr3
  regions : m'.phys.regions = m.phys.regions
  finds : ∀ is t, KernelWay is → is.length ≤ 4 → find next m.mem m.cr3 is = some t →
    find next m'.mem m'.cr3 is = some t

variable {m m' : Machine} {n : Nat}

theorem Grows.refl (m : Machine) : Grows m m := ⟨rfl, rfl, fun _ _ _ _ h => h⟩

theorem Grows.trans {m₁ m₂ m₃ : Machine} (h₁ : Grows m₁ m₂) (h₂ : Grows m₂ m₃) : Grows m₁ m₃ where
  cr3 := h₂.cr3.trans h₁.cr3
  regions := h₂.regions.trans h₁.regions
  finds is t hw hlen hf := h₂.finds is t hw hlen (h₁.finds is t hw hlen hf)

/-- The ways of a set that do not lead to a table or a page. -/
def missing (D : Finset (List Nat)) (m : Machine) : Finset (List Nat) :=
  D.filter fun is => find next m.mem m.cr3 is = none

theorem mem_missing {D : Finset (List Nat)} {is : List Nat} :
    is ∈ missing D m ↔ is ∈ D ∧ find next m.mem m.cr3 is = none := Finset.mem_filter

/-- Ways of the kernel, down to its pages. -/
def KernelWays (D : Finset (List Nat)) : Prop := ∀ is ∈ D, KernelWay is ∧ is.length ≤ 4

section missing

variable {D : Finset (List Nat)} (hD : KernelWays D)

include hD

theorem missing_grows (hg : Grows m m') : missing D m' ⊆ missing D m := by
  intro is his
  obtain ⟨hmem, hnone⟩ := mem_missing.mp his
  refine mem_missing.mpr ⟨hmem, ?_⟩
  cases hf : find next m.mem m.cr3 is with
  | none => rfl
  | some t =>
    obtain ⟨hw, hlen⟩ := hD is hmem
    rw [hg.finds is t hw hlen hf] at hnone
    cases hnone

/-- A way that was missing and is found is one less. -/
theorem missing_found (hg : Grows m m') {is : List Nat} {t : Nat} (his : is ∈ missing D m)
    (hf : find next m'.mem m'.cr3 is = some t) : (missing D m').card < (missing D m).card := by
  apply Finset.card_lt_card
  refine Finset.ssubset_iff_subset_ne.mpr ⟨missing_grows hD hg, ?_⟩
  rintro he
  rw [← he] at his
  rw [(mem_missing.mp his).2] at hf
  cases hf

end missing

theorem pagesFrom_of_le {a endAddr : Nat} (h : endAddr ≤ a) : pagesFrom a endAddr = [] := by
  have hnone : (endAddr - a + (PAGE_SIZE - 1)) / PAGE_SIZE = 0 := by
    simp only [PAGE_SIZE]
    omega
  rw [pagesFrom, hnone, List.range'_zero]

theorem pagesFrom_of_lt {a endAddr : Nat} (h : a < endAddr) :
    pagesFrom a endAddr = a :: pagesFrom (a + PAGE_SIZE) endAddr := by
  have hcount : (endAddr - a + (PAGE_SIZE - 1)) / PAGE_SIZE =
      (endAddr - (a + PAGE_SIZE) + (PAGE_SIZE - 1)) / PAGE_SIZE + 1 := by
    simp only [PAGE_SIZE]
    omega
  rw [pagesFrom, hcount, List.range'_succ, pagesFrom]

theorem mem_pagesFrom {a endAddr f : Nat} :
    f ∈ pagesFrom a endAddr ↔ ∃ k, f = a + k * PAGE_SIZE ∧ f < endAddr := by
  rw [pagesFrom, List.mem_range']
  constructor
  · rintro ⟨k, hk, rfl⟩
    refine ⟨k, by rw [Nat.mul_comm], ?_⟩
    simp only [PAGE_SIZE] at *
    omega
  · rintro ⟨k, rfl, hlt⟩
    refine ⟨k, ?_, by rw [Nat.mul_comm]⟩
    simp only [PAGE_SIZE] at *
    omega

/-- The bump allocator takes the first frame that is to come. -/
theorem bumpNext_upcoming {regions : List Phys.PhysRegion} {bump bump' : List Nat} {f : Nat}
    (h : Phys.bumpNext regions bump = some (f, bump')) :
    upcoming regions bump = f :: upcoming regions bump' := by
  induction regions generalizing bump bump' with
  | nil => cases h
  | cons r regions ih =>
    cases bump with
    | nil => cases h
    | cons b bump =>
      rw [Phys.bumpNext] at h
      split at h
      · rename_i hle
        obtain ⟨⟨f', bump₁⟩, hn, he⟩ := Option.map_eq_some_iff.mp h
        cases he
        rw [upcoming, upcoming, pagesFrom_of_le hle, List.nil_append, List.nil_append, ih hn]
      · rename_i hlt
        cases h
        rw [upcoming, upcoming, pagesFrom_of_lt (Nat.lt_of_not_le hlt), List.cons_append]

theorem kernelWay_left {is js : List Nat} (h : KernelWay (is ++ js)) : KernelWay is := by
  obtain ⟨hlt, hhead⟩ := h
  constructor
  · intro i hi
    exact hlt i (List.mem_append_left _ hi)
  · cases is with
    | nil => simp
    | cons i is => exact hhead

theorem kernelWay_front {is js : List Nat} (h : KernelWay is) (hp : js <+: is) : KernelWay js := by
  obtain ⟨ks, rfl⟩ := hp
  exact kernelWay_left h

theorem kernelWay_last {is : List Nat} {i : Nat} (h : KernelWay (is ++ [i])) : i < 512 :=
  h.1 i (List.mem_append_right _ (List.mem_singleton_self i))

theorem Boot.find_aligned (hb : Boot n m) {is : List Nat} {t : Nat}
    (h : find next m.mem m.cr3 is = some t) : PAGE_SIZE ∣ t := by
  have hframe : ∀ e u, next e = some u → PAGE_SIZE ∣ u := by
    intro e u he
    rw [(next_some he).2, frame]
    exact Nat.dvd_mul_left _ _
  induction is using List.reverseRecOn with
  | nil =>
    cases h
    exact hframe _ _ hb.self
  | append_singleton is i _ =>
    rw [find_concat] at h
    obtain ⟨u, -, hu⟩ := Option.bind_eq_some_iff.mp h
    exact hframe _ _ hu

/-- Words of a table lie outside of every frame that is not this table. -/
theorem Boot.slot_outside (hb : Boot n m) {is : List Nat} {t i f : Nat}
    (ht : find next m.mem m.cr3 is = some t) (hi : i < 512) (hf : PAGE_SIZE ∣ f) (hne : t ≠ f) :
    ¬ (f ≤ slot t i ∧ slot t i < f + PAGE_SIZE) :=
  Phys.frame_apart hf (hb.find_aligned ht) hne (slot_in_frame hi).1 (slot_in_frame hi).2

/-! Frames are taken. -/

/-- The machine after a frame was taken and cleared. -/
def takes (m : Machine) (f : Nat) (bump : List Nat) : Machine :=
  { m with phys := { m.phys with bumpAlloc := bump, mem := zero m.phys.mem f PAGE_SIZE } }

theorem Boot.physAlloc (hb : Boot n m) :
    Phys.alloc m.phys =
      match Phys.bumpNext m.phys.regions m.phys.bumpAlloc with
      | none => .ok (.error ⟨⟩, m.phys)
      | some (f, bump) => .ok (.ok f, (takes m f bump).phys) := by
  rw [Phys.alloc, Phys.allocFreelist, hb.empty]
  change Phys.allocNew m.phys = _
  rw [Phys.allocNew]
  cases hn : Phys.bumpNext m.phys.regions m.phys.bumpAlloc with
  | none => rfl
  | some x =>
    obtain ⟨f, bump⟩ := x
    have hnew : Phys.new { m.phys with bumpAlloc := bump } f =
        .ok (f, { m.phys with bumpAlloc := bump }) := by
      rw [Phys.new, Phys.incRef, if_neg (by simp [hb.disabled])]
      rfl
    simp only [hnew]
    rfl

/-- The entry of the temporary page is cleared once more, which changes nothing. -/
theorem Boot.alloc_some (hb : Boot n m) {f : Nat} (h : alloc m = some (some f, m')) :
    ∃ bump, Phys.bumpNext m.phys.regions m.phys.bumpAlloc = some (f, bump) ∧
      m' = takes m f bump := by
  rw [alloc, hb.physAlloc] at h
  cases hn : Phys.bumpNext m.phys.regions m.phys.bumpAlloc with
  | none =>
    simp only [hn] at h
    cases h
  | some x =>
    obtain ⟨g, bump⟩ := x
    simp only [hn] at h
    obtain ⟨m₁, hvia, hm⟩ := Option.map_eq_some_iff.mp h
    cases hm
    obtain ⟨a, -, ha⟩ := Option.bind_eq_some_iff.mp hvia
    split at ha
    · cases ha
    · rename_i h0
      have hzero : (takes m f bump).phys.mem a = 0 := by
        change zero m.mem f PAGE_SIZE a = 0
        rw [zero, not_not.mp h0, ite_self]
      have hsame : Function.update (takes m f bump).phys.mem a 0 = (takes m f bump).phys.mem := by
        rw [← hzero]
        exact Function.update_eq_self _ _
      rw [hsame] at ha
      cases ha
      exact ⟨bump, rfl, rfl⟩

section takes

variable {f : Nat} {bump : List Nat}

/-- The frame that is taken is the first of those ahead and not met again. -/
theorem Boot.ahead_next (hb : Boot (n + 1) m)
    (h : Phys.bumpNext m.phys.regions m.phys.bumpAlloc = some (f, bump)) :
    PAGE_SIZE ∣ f ∧ f ∈ ahead (n + 1) m ∧
      ∀ g ∈ ahead n (takes m f bump), g ∈ ahead (n + 1) m ∧ g ≠ f := by
  have hup := bumpNext_upcoming h
  have hahead : ahead (n + 1) m = f :: ahead n (takes m f bump) := by
    rw [ahead, hup, List.take_succ_cons]
    rfl
  have hnodup := hb.nodup
  rw [hahead] at hnodup ⊢
  refine ⟨hb.aligned f ?_, List.mem_cons_self, ?_⟩
  · rw [hup]
    exact List.mem_cons_self
  · intro g hg
    refine ⟨List.mem_cons_of_mem _ hg, ?_⟩
    rintro rfl
    exact (List.nodup_cons.mp hnodup).1 hg

/-- No table of the kernel is cleared. -/
theorem Boot.takes_word (hb : Boot (n + 1) m)
    (h : Phys.bumpNext m.phys.regions m.phys.bumpAlloc = some (f, bump)) {is : List Nat} {t i : Nat}
    (hw : KernelWay is) (hi : i < 512) (hlen : is.length ≤ 3) (ht : find next m.mem m.cr3 is = some t) :
    (takes m f bump).mem (slot t i) = m.mem (slot t i) := by
  obtain ⟨ha, hahead, -⟩ := hb.ahead_next h
  have hne : t ≠ f := by
    rintro rfl
    exact hb.tables is _ hw hlen ht hahead
  exact zero_outside _ _ _ _ (hb.slot_outside ht hi ha hne)

theorem Boot.takes_find (hb : Boot (n + 1) m)
    (h : Phys.bumpNext m.phys.regions m.phys.bumpAlloc = some (f, bump)) {is : List Nat}
    (hw : KernelWay is) (hlen : is.length ≤ 4) :
    find next (takes m f bump).mem m.cr3 is = find next m.mem m.cr3 is := by
  apply find_congr
  intro js i t hjs ht
  have hjlen := hjs.length_le
  rw [List.length_append, List.length_singleton] at hjlen
  have hway := kernelWay_front hw hjs
  exact hb.takes_word h (kernelWay_left hway) (kernelWay_last hway) (by omega) ht

theorem Boot.takes_grows (hb : Boot (n + 1) m)
    (h : Phys.bumpNext m.phys.regions m.phys.bumpAlloc = some (f, bump)) :
    Grows m (takes m f bump) := by
  refine ⟨rfl, rfl, ?_⟩
  intro is t hw hlen ht
  change find next (takes m f bump).mem m.cr3 is = some t
  rw [hb.takes_find h hw hlen, ht]

theorem Boot.takes_boot (hb : Boot (n + 1) m)
    (h : Phys.bumpNext m.phys.regions m.phys.bumpAlloc = some (f, bump)) :
    Boot n (takes m f bump) := by
  obtain ⟨-, -, hold⟩ := hb.ahead_next h
  have hup := bumpNext_upcoming h
  have hroot : find next m.mem m.cr3 [] = some m.cr3 := rfl
  have hself := hb.takes_word h (i := 511) ⟨by simp, by simp⟩ (by decide) (by simp) hroot
  constructor
  · exact hb.disabled
  · exact hb.empty
  · intro g hg
    exact hb.aligned g (by rw [hup]; exact List.mem_cons_of_mem _ hg)
  · have hnodup := hb.nodup
    rw [ahead, hup, List.take_succ_cons] at hnodup
    exact (List.nodup_cons.mp hnodup).2
  · change next ((takes m f bump).mem (slot m.cr3 511)) = some m.cr3
    rw [hself]
    exact hb.self
  · intro is t hw hlen ht hahead
    have ht : find next (takes m f bump).mem m.cr3 is = some t := ht
    rw [hb.takes_find h hw (by omega)] at ht
    exact hb.tables is t hw hlen ht (hold t hahead).1
  · intro is t i hw hlen ht
    have ht : find next (takes m f bump).mem m.cr3 is = some t := ht
    rw [hb.takes_find h (kernelWay_left hw) (by omega)] at ht
    rw [hb.takes_word h (kernelWay_left hw) (kernelWay_last hw) hlen ht]
    exact hb.entries is t i hw hlen ht

theorem Boot.takes_spare (hb : Boot (n + 1) m)
    (h : Phys.bumpNext m.phys.regions m.phys.bumpAlloc = some (f, bump)) :
    Spare n (takes m f bump) f := by
  obtain ⟨ha, hahead, hold⟩ := hb.ahead_next h
  constructor
  · exact ha
  · intro hf
    exact (hold f hf).2 rfl
  · intro a h₁ h₂
    exact zero_inside _ _ _ _ h₁ h₂
  · rintro is t hw hlen ht rfl
    have ht : find next (takes m t bump).mem m.cr3 is = some t := ht
    rw [hb.takes_find h hw (by omega)] at ht
    exact hb.tables is t hw hlen ht hahead

theorem Boot.takes_keeps (hb : Boot (n + 1) m)
    (h : Phys.bumpNext m.phys.regions m.phys.bumpAlloc = some (f, bump)) {g : Nat}
    (hg : Spare (n + 1) m g) : Spare n (takes m f bump) g ∧ f ≠ g := by
  obtain ⟨-, hahead, hold⟩ := hb.ahead_next h
  refine ⟨?_, ?_⟩
  · constructor
    · exact hg.aligned
    · intro hf
      exact hg.taken (hold g hf).1
    · intro a h₁ h₂
      change zero m.mem f PAGE_SIZE a = 0
      rw [zero, hg.zero a h₁ h₂, ite_self]
    · intro is t hw hlen ht
      have ht : find next (takes m f bump).mem m.cr3 is = some t := ht
      rw [hb.takes_find h hw (by omega)] at ht
      exact hg.unused is t hw hlen ht
  · rintro rfl
    exact hg.taken hahead

end takes

/-! A spare frame is put behind an empty entry. -/

/-- The word at slot `i` of `t`, a table of the kernel, is empty. -/
structure Empty (m : Machine) (is : List Nat) (t i : Nat) : Prop where
  way : KernelWay (is ++ [i])
  length : is.length ≤ 3
  find : Radix.find next m.mem m.cr3 is = some t
  empty : m.mem (slot t i) = 0

def linkTo (m : Machine) (t i e : Nat) : Machine := m.setMem (Function.update m.mem (slot t i) e)

section linkTo

variable {is : List Nat} {t i f fl : Nat}

theorem linkTo_other {a e : Nat} (h : a ≠ slot t i) : (linkTo m t i e).mem a = m.mem a :=
  Function.update_of_ne h _ _

theorem linkTo_self (e : Nat) : (linkTo m t i e).mem (slot t i) = e := Function.update_self _ _ _

/-- Every entry that leads on is as before. -/
theorem Empty.leads (h : Empty m is t i) (e : Nat) {a u : Nat} (ha : next (m.mem a) = some u) :
    (linkTo m t i e).mem a = m.mem a := by
  apply linkTo_other
  rintro rfl
  exact (next_some ha).1 h.empty

/-- Words of a spare frame are as before. -/
theorem Spare.word (hb : Boot n m) (hs : Spare n m f) (h : Empty m is t i) (e : Nat) {a : Nat}
    (h₁ : f ≤ a) (h₂ : a < f + PAGE_SIZE) : (linkTo m t i e).mem a = 0 := by
  have hne : a ≠ slot t i := by
    rintro rfl
    have ht := hs.unused is t (kernelWay_left h.way) h.length h.find
    exact hb.slot_outside h.find (kernelWay_last h.way) hs.aligned ht ⟨h₁, h₂⟩
  rw [linkTo_other hne, hs.zero a h₁ h₂]

/-- The new entry leads to the frame, and no entry of the frame leads on. -/
theorem Boot.find_linkTo (hb : Boot n m) (hs : Spare n m f) (h : Empty m is t i)
    (hfl : fl < PAGE_SIZE) (hpresent : fl % 2 = 1) {js : List Nat} {u : Nat} (hw : KernelWay js)
    (hu : find next (linkTo m t i (f ||| fl)).mem m.cr3 js = some u) :
    find next m.mem m.cr3 js = some u ∨ u = f := by
  induction js using List.reverseRecOn generalizing u with
  | nil => exact .inl hu
  | append_singleton js j ih =>
    rw [find_concat] at hu
    obtain ⟨v, hv, hu⟩ := Option.bind_eq_some_iff.mp hu
    rcases ih (kernelWay_left hw) hv with hold | rfl
    · by_cases hslot : slot v j = slot t i
      · rw [hslot, linkTo_self, next_or hs.aligned hfl hpresent] at hu
        cases hu
        exact .inr rfl
      · rw [linkTo_other hslot] at hu
        rw [find_concat, hold]
        exact .inl hu
    · obtain ⟨h₁, h₂⟩ := slot_in_frame (t := v) (kernelWay_last hw)
      rw [hs.word hb h _ h₁ h₂] at hu
      cases hu

theorem linkTo_grows (h : Empty m is t i) (e : Nat) : Grows m (linkTo m t i e) := by
  refine ⟨rfl, rfl, ?_⟩
  intro js u _ _ hu
  exact (way_mono (fun _ _ ha => h.leads _ ha) hu).1

theorem Boot.linkTo_boot (hb : Boot n m) (hs : Spare n m f) (h : Empty m is t i)
    (hfl : fl < PAGE_SIZE) (hpresent : fl % 2 = 1) : Boot n (linkTo m t i (f ||| fl)) := by
  constructor
  · exact hb.disabled
  · exact hb.empty
  · exact hb.aligned
  · exact hb.nodup
  · change next ((linkTo m t i (f ||| fl)).mem (slot m.cr3 511)) = some m.cr3
    rw [h.leads _ hb.self]
    exact hb.self
  · intro js u hw hlen hu
    rcases hb.find_linkTo hs h hfl hpresent hw hu with hold | rfl
    · exact hb.tables js u hw hlen hold
    · exact hs.taken
  · intro js v j hw hlen hv h0
    rcases hb.find_linkTo hs h hfl hpresent (kernelWay_left hw) hv with hold | rfl
    · by_cases hslot : slot v j = slot t i
      · rw [hslot, linkTo_self, next_or hs.aligned hfl hpresent]
        simp
      · rw [linkTo_other hslot] at h0 ⊢
        exact hb.entries js v j hw hlen hold h0
    · obtain ⟨h₁, h₂⟩ := slot_in_frame (t := v) (kernelWay_last hw)
      exact absurd (hs.word hb h _ h₁ h₂) h0

theorem linkTo_found (hs : Spare n m f) (h : Empty m is t i) (hfl : fl < PAGE_SIZE)
    (hpresent : fl % 2 = 1) :
    find next (linkTo m t i (f ||| fl)).mem m.cr3 (is ++ [i]) = some f := by
  rw [find_concat, (way_mono (fun _ _ ha => h.leads _ ha) h.find).1, Option.bind_some, linkTo_self,
    next_or hs.aligned hfl hpresent]

theorem Boot.linkTo_keeps (hb : Boot n m) (hs : Spare n m f) (h : Empty m is t i)
    (hfl : fl < PAGE_SIZE) (hpresent : fl % 2 = 1) {g : Nat} (hg : Spare n m g) (hne : f ≠ g) :
    Spare n (linkTo m t i (f ||| fl)) g := by
  constructor
  · exact hg.aligned
  · exact hg.taken
  · intro a h₁ h₂
    exact hg.word hb h _ h₁ h₂
  · intro js u hw hlen hu
    rcases hb.find_linkTo hs h hfl hpresent hw hu with hold | rfl
    · exact hg.unused js u hw hlen hold
    · exact hne

end linkTo

/-! The functions of `page.rs`. -/

/-- A nonzero entry of the kernel leads on. -/
theorem Boot.follow (hb : Boot n m) {is : List Nat} {t i : Nat} (hw : KernelWay (is ++ [i]))
    (hlen : is.length ≤ 3) (hf : find next m.mem m.cr3 is = some t) (h0 : m.mem (slot t i) ≠ 0) :
    ∃ u, find next m.mem m.cr3 (is ++ [i]) = some u := by
  obtain ⟨u, hu⟩ := Option.ne_none_iff_exists'.mp (hb.entries is t i hw hlen hf h0)
  exact ⟨u, find_snoc hf hu⟩

/-- A step that takes frames ahead of it for the ways of `D` that are missing: what is
left is enough for those that still are. -/
structure Builds (D : Finset (List Nat)) (n : Nat) (m : Machine) (n' : Nat) (m' : Machine) : Prop where
  boot : Boot n' m'
  enough : (missing D m').card ≤ n'
  grows : Grows m m'
  spares : ∀ g, Spare n m g → Spare n' m' g

section builds

variable {D : Finset (List Nat)}

theorem Boot.builds (hb : Boot n m) (hn : (missing D m).card ≤ n) : Builds D n m n m :=
  ⟨hb, hn, .refl m, fun _ h => h⟩

theorem Builds.trans {n₁ n₂ n₃ : Nat} {m₁ m₂ m₃ : Machine} (h₁ : Builds D n₁ m₁ n₂ m₂)
    (h₂ : Builds D n₂ m₂ n₃ m₃) : Builds D n₁ m₁ n₃ m₃ :=
  ⟨h₂.boot, h₂.enough, h₁.grows.trans h₂.grows, fun g hg => h₂.spares g (h₁.spares g hg)⟩

theorem ensureTable_builds (hb : Boot n m) (hD : KernelWays D) (hn : (missing D m).card ≤ n)
    {ent t i : Nat} {is : List Nat} (hp : Points ent is i) (hmem : is ++ [i] ∈ D)
    (hlen : is.length ≤ 3) (hf : find next m.mem m.cr3 is = some t)
    (h : ensureTable m ent = some (true, m')) :
    ∃ n', Builds D n m n' m' ∧ ∃ u, find next m'.mem m'.cr3 (is ++ [i]) = some u := by
  have hw := (hD _ hmem).1
  rw [ensureTable, load_points hb.self hp, hf] at h
  simp only [Option.map_some, Option.bind_some] at h
  split at h
  · rename_i h0
    have hmissing : is ++ [i] ∈ missing D m := by
      refine mem_missing.mpr ⟨hmem, ?_⟩
      rw [find_concat, hf, Option.bind_some, h0]
      rfl
    have hpos := Finset.card_pos.mpr ⟨_, hmissing⟩
    obtain ⟨k, rfl⟩ : ∃ k, n = k + 1 := ⟨n - 1, by omega⟩
    obtain ⟨⟨x, m₁⟩, ha, h⟩ := Option.bind_eq_some_iff.mp h
    cases x with
    | none => cases h
    | some f =>
      obtain ⟨bump, hnext, rfl⟩ := hb.alloc_some ha
      have hboot := hb.takes_boot hnext
      have hspare := hb.takes_spare hnext
      have hf₁ : find next (takes m f bump).mem (takes m f bump).cr3 is = some t := by
        change find next (takes m f bump).mem m.cr3 is = some t
        rw [hb.takes_find hnext (kernelWay_left hw) (by omega), hf]
      have hempty : Empty (takes m f bump) is t i := by
        refine ⟨hw, hlen, hf₁, ?_⟩
        rw [hb.takes_word hnext (kernelWay_left hw) (kernelWay_last hw) hlen hf, h0]
      obtain ⟨m₂, hst, h⟩ := Option.map_eq_some_iff.mp h
      cases h
      rw [store_points hboot.self hp, hf₁] at hst
      cases hst
      have hgrows := (hb.takes_grows hnext).trans (linkTo_grows hempty (Phys.intoRaw f ||| tableFlags))
      have hfound := linkTo_found hspare hempty (show tableFlags < PAGE_SIZE by decide) (by decide)
      have hless := missing_found hD hgrows hmissing hfound
      refine ⟨k, ⟨?_, Nat.le_of_lt_succ (Nat.lt_of_lt_of_le hless hn), hgrows, ?_⟩, f, hfound⟩
      · exact hboot.linkTo_boot hspare hempty (by decide) (by decide)
      · intro g hg
        obtain ⟨hg₁, hne⟩ := hb.takes_keeps hnext hg
        exact hboot.linkTo_keeps hspare hempty (by decide) (by decide) hg₁ hne
  · rename_i h0
    cases h
    exact ⟨n, hb.builds hn, hb.follow hw hlen hf h0⟩

theorem ensureTables_cons {ent : Nat} {ents : List Nat}
    (h : ensureTables m (ent :: ents) = some (true, m')) :
    ∃ m₁, ensureTable m ent = some (true, m₁) ∧ ensureTables m₁ ents = some (true, m') := by
  rw [ensureTables] at h
  obtain ⟨⟨ok, m₁⟩, hent, h⟩ := Option.bind_eq_some_iff.mp h
  cases ok with
  | true => exact ⟨m₁, hent, h⟩
  | false => cases h

variable {virt : Nat}

/-- The set has the ways to the tables of a page. -/
def HasTables (D : Finset (List Nat)) (virt : Nat) : Prop :=
  ∀ is, is <+: lastTable virt → is ≠ [] → is ∈ D

/-- All tables of a page of the kernel are there. -/
theorem ensureTables_builds (hb : Boot n m) (hD : KernelWays D) (hn : (missing D m).card ≤ n)
    (hv : HasTables D virt)
    (h : ensureTables m [pml4Entry virt, pml3Entry virt, pml2Entry virt] = some (true, m')) :
    ∃ n', Builds D n m n' m' ∧ ∃ t, find next m'.mem m'.cr3 (lastTable virt) = some t := by
  obtain ⟨m₁, h₁, h⟩ := ensureTables_cons h
  obtain ⟨m₂, h₂, h⟩ := ensureTables_cons h
  obtain ⟨m₃, h₃, h⟩ := ensureTables_cons h
  cases h
  have hm₄ : [] ++ [pml4Index virt] ∈ D := hv _ ⟨_, rfl⟩ (by simp)
  have hm₃ : [pml4Index virt] ++ [pml3Index virt] ∈ D := hv _ ⟨_, rfl⟩ (by simp)
  have hm₂ : [pml4Index virt, pml3Index virt] ++ [pml2Index virt] ∈ D := hv _ ⟨[], rfl⟩ (by simp)
  obtain ⟨n₁, hb₁, t₁, ht₁⟩ :=
    ensureTable_builds hb hD hn (points_pml4Entry virt) hm₄ (by simp) rfl h₁
  obtain ⟨n₂, hb₂, t₂, ht₂⟩ :=
    ensureTable_builds hb₁.boot hD hb₁.enough (points_pml3Entry virt) hm₃ (by simp) ht₁ h₂
  obtain ⟨n₃, hb₃, t₃, ht₃⟩ :=
    ensureTable_builds hb₂.boot hD hb₂.enough (points_pml2Entry virt) hm₂ (by simp) ht₂ h₃
  exact ⟨n₃, (hb₁.trans hb₂).trans hb₃, t₃, ht₃⟩

/-- A spare frame is mapped; it was not among those that the tables need. -/
theorem map_builds (hb : Boot n m) (hD : KernelWays D) (hn : (missing D m).card ≤ n)
    (hv : HasTables D virt) (hk : KernelWay (indices virt)) {f fl : Nat} (hs : Spare n m f)
    (hfl : fl < PAGE_SIZE) (hpresent : fl % 2 = 1)
    (h : Page.map m f virt fl = some (.ok (), m')) :
    ∃ n', Boot n' m' ∧ (missing D m').card ≤ n' ∧ Grows m m' ∧
      find next m'.mem m'.cr3 (indices virt) = some f := by
  rw [Page.map] at h
  obtain ⟨⟨ok, m₁⟩, htabs, h⟩ := Option.bind_eq_some_iff.mp h
  cases ok with
  | false =>
    obtain ⟨m₂, -, h⟩ := Option.map_eq_some_iff.mp h
    cases h
  | true =>
    obtain ⟨n', hbuilds, t, ht⟩ := ensureTables_builds hb hD hn hv htabs
    have hself := hbuilds.boot.self
    have hpoints := points_pml1Entry virt
    have hfind :
        find next m₁.mem m₁.cr3 [pml4Index virt, pml3Index virt, pml2Index virt] = some t := ht
    change mapLast m₁ f virt fl = some (.ok (), m') at h
    rw [mapLast, load_points hself hpoints, hfind] at h
    simp only [Option.map_some, Option.bind_some] at h
    split at h
    · obtain ⟨m₂, -, h⟩ := Option.map_eq_some_iff.mp h
      cases h
    · rename_i h0
      rw [store_points hself hpoints, hfind] at h
      cases h
      have hempty : Empty m₁ (lastTable virt) t (pml1Index virt) :=
        ⟨hk, by simp [lastTable], ht, not_not.mp h0⟩
      have hspare := hbuilds.spares f hs
      have hgrows := linkTo_grows hempty (f ||| fl)
      refine ⟨n', hbuilds.boot.linkTo_boot hspare hempty hfl hpresent, ?_, hbuilds.grows.trans hgrows,
        linkTo_found hspare hempty hfl hpresent⟩
      exact Nat.le_trans (Finset.card_le_card (missing_grows hD hgrows)) hbuilds.enough

end builds

/-- Steps that let the ways grow, and what each of them leaves behind for good. -/
theorem run_grows {ι : Type} {step : Machine → ι → Option Machine} {I : Machine → Prop}
    {P : Machine → ι → Prop} {as : List ι}
    (hstep : ∀ a ∈ as, ∀ m m', I m → step m a = some m' → I m' ∧ Grows m m' ∧ P m' a)
    (hkeep : ∀ m m' a, Grows m m' → P m a → P m' a) (hi : I m) (h : run step m as = some m') :
    I m' ∧ Grows m m' ∧ ∀ a ∈ as, P m' a := by
  induction as generalizing m with
  | nil =>
    cases h
    exact ⟨hi, .refl _, by simp⟩
  | cons a as ih =>
    rw [run_cons] at h
    obtain ⟨m₁, hone, hrest⟩ := Option.bind_eq_some_iff.mp h
    obtain ⟨hi₁, hg, hp⟩ := hstep a List.mem_cons_self m m₁ hi hone
    obtain ⟨hi', hg', hp'⟩ := ih (fun b hb => hstep b (List.mem_cons_of_mem _ hb)) hi₁ hrest
    refine ⟨hi', hg.trans hg', ?_⟩
    intro b hmem
    rcases List.mem_cons.mp hmem with rfl | hmem
    · exact hkeep _ _ _ hg' hp
    · exact hp' b hmem

end Crabos.BootPages
