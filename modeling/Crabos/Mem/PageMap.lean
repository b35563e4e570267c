import Crabos.Mem.PageOps

/-!
# Mapping and unmapping of pages

`map` first makes the tables on the way to a page and then sets its last
entry; `unmap` and `modify` change a last entry that is there. Each of them
changes the entry of its page and of no other page.
-/
namespace Crabos.Page

open Crabos.Words Crabos.Radix Crabos.Interface Crabos.User Crabos.Run

variable {w w' : World}

/-! The entry of a page, as the code finds it. -/

theorem checkedPml1Entry_eq {m : Machine} (hself : next (m.mem (slot m.cr3 511)) = some m.cr3)
    (virt : Nat) :
    checkedPml1Entry m virt = (pageWord m.mem m.cr3 virt).map fun e =>
      if e = 0 then .error ⟨⟩ else .ok (pml1Entry virt) := by
  rw [checkedPml1Entry, load_points hself (points_pml4Entry virt),
    load_points hself (points_pml3Entry virt), load_points hself (points_pml2Entry virt),
    load_points hself (points_pml1Entry virt), pageWord, lastTable]
  simp only [lookup, find, Option.map_some, Option.bind_some]
  by_cases h₄ : m.mem (slot m.cr3 (pml4Index virt)) = 0
  · simp [h₄]
  cases hn₄ : next (m.mem (slot m.cr3 (pml4Index virt))) with
  | none => simp [h₄]
  | some t₃ =>
    by_cases h₃ : m.mem (slot t₃ (pml3Index virt)) = 0
    · simp [h₄, h₃]
    cases hn₃ : next (m.mem (slot t₃ (pml3Index virt))) with
    | none => simp [h₄, h₃, hn₃]
    | some t₂ =>
      by_cases h₂ : m.mem (slot t₂ (pml2Index virt)) = 0
      · simp [h₄, h₃, h₂, hn₃]
      cases hn₂ : next (m.mem (slot t₂ (pml2Index virt))) with
      | none => simp [h₄, h₃, h₂, hn₃, hn₂]
      | some t₁ =>
        by_cases h₁ : m.mem (slot t₁ (pml1Index virt)) = 0
        · simp [h₄, h₃, h₂, h₁, hn₃, hn₂]
        · simp [h₄, h₃, h₂, h₁, hn₃, hn₂]

theorem Inv.checked_eq (hi : Inv w) (virt : Nat) :
    checkedPml1Entry w.m virt = (pageWord w.m.mem w.m.cr3 virt).map fun e =>
      if e = 0 then .error ⟨⟩ else .ok (pml1Entry virt) :=
  checkedPml1Entry_eq (hi.linked.self _ hi.loaded) virt

/-- The last table of a page whose entry is not zero. -/
theorem find_of_pageWord {mem : Mem} {r virt e : Nat} (h : pageWord mem r virt = some e)
    (h0 : e ≠ 0) :
    ∃ t, find next mem r (lastTable virt) = some t ∧ mem (slot t (pml1Index virt)) = e :=
  find_of_lookup h h0

theorem Inv.load_last (hi : Inv w) {virt t : Nat}
    (hf : find next w.m.mem w.m.cr3 (lastTable virt) = some t) :
    load w.m (pml1Entry virt) = some (w.m.mem (slot t (pml1Index virt))) := by
  have h := hi.load_eq (points_pml1Entry virt)
  rw [lastTable] at hf
  rw [h, hf]
  rfl

theorem Inv.store_last (hi : Inv w) {virt t : Nat}
    (hf : find next w.m.mem w.m.cr3 (lastTable virt) = some t) (v : Nat) :
    store w.m (pml1Entry virt) v = some (w.write (slot t (pml1Index virt)) v).m := by
  have h := hi.store_eq (points_pml1Entry virt) v
  rw [lastTable] at hf
  rw [h, hf]
  rfl

theorem Inv.entry_eq (hi : Inv w) (virt : Nat) :
    entry w.m virt = (pageWord w.m.mem w.m.cr3 virt).map fun e =>
      if e = 0 then .error ⟨⟩ else .ok e := by
  rw [entry, hi.checked_eq]
  cases hw : pageWord w.m.mem w.m.cr3 virt with
  | none => rfl
  | some e =>
    by_cases h0 : e = 0
    · simp [h0]
    · obtain ⟨t, hf, he⟩ := find_of_pageWord hw h0
      simp [h0, hi.load_last hf, he]

/-- `page::entry` finds the last level entry. -/
theorem Inv.pageEntry_eq (hi : Inv w) (virt : Nat) :
    pageEntry w.m virt = pageWord w.m.mem w.m.cr3 virt := by
  rw [pageEntry, hi.entry_eq]
  cases pageWord w.m.mem w.m.cr3 virt with
  | none => rfl
  | some e =>
    by_cases h0 : e = 0
    · simp [h0]
    · simp [h0]

/-! All tables on the way to a page. -/

theorem way_one {virt : Nat} (h : pml4Index virt < 511) : Way ([] ++ [pml4Index virt]) :=
  way_left _ [pml3Index virt, pml2Index virt] (way_lastTable h)

theorem way_two {virt : Nat} (h : pml4Index virt < 511) :
    Way ([pml4Index virt] ++ [pml3Index virt]) :=
  way_left _ [pml2Index virt] (way_lastTable h)

/-- An entry of the PML4 is made in the user half, or for the only PML4. -/
def TopReady (w : World) (virt : Nat) : Prop :=
  256 ≤ pml4Index virt → w.m.mem (slot w.m.cr3 (pml4Index virt)) = 0 →
    ∀ r, w.place r = some [] → r = w.m.cr3

theorem ensureTables_spec (hi : Inv w) {virt : Nat} {ok : Bool} {m' : Machine}
    (hv : pml4Index virt < 511) (htop : TopReady w virt)
    (h : ensureTables w.m [pml4Entry virt, pml3Entry virt, pml2Entry virt] = some (ok, m')) :
    ∃ w', w'.m = m' ∧ Inv w' ∧ Ext (half (lastTable virt)) w w' ∧
      (ok = true → ∃ t, find next m'.mem m'.cr3 (lastTable virt) = some t) := by
  obtain ⟨⟨ok₁, m₁⟩, h₁, h⟩ := Option.bind_eq_some_iff.mp h
  obtain ⟨w₁, rfl, hi₁, he₁, hok₁⟩ := ensureTable_spec hi (points_pml4Entry virt) (way_one hv)
    rfl (fun _ => htop) h₁
  cases ok₁ with
  | false =>
    cases h
    exact ⟨w₁, rfl, hi₁, he₁, fun hok => by cases hok⟩
  | true =>
  obtain ⟨t₃, hf₃⟩ := hok₁ rfl
  obtain ⟨⟨ok₂, m₂⟩, h₂, h⟩ := Option.bind_eq_some_iff.mp h
  obtain ⟨w₂, rfl, hi₂, he₂, hok₂⟩ := ensureTable_spec hi₁ (points_pml3Entry virt) (way_two hv) hf₃
    (fun hnil => by cases hnil) h₂
  cases ok₂ with
  | false =>
    cases h
    exact ⟨w₂, rfl, hi₂, he₁.trans he₂, fun hok => by cases hok⟩
  | true =>
  obtain ⟨t₂, hf₂⟩ := hok₂ rfl
  obtain ⟨⟨ok₃, m₃⟩, h₃, h⟩ := Option.bind_eq_some_iff.mp h
  obtain ⟨w₃, rfl, hi₃, he₃, hok₃⟩ := ensureTable_spec hi₂ (points_pml2Entry virt)
    (way_lastTable hv) hf₂ (fun hnil => by cases hnil) h₃
  have hext : Ext (half (lastTable virt)) w w₃ := (he₁.trans he₂).trans he₃
  cases ok₃ with
  | false =>
    cases h
    exact ⟨w₃, rfl, hi₃, hext, fun hok => by cases hok⟩
  | true =>
    cases h
    exact ⟨w₃, rfl, hi₃, hext, hok₃⟩

/-- Making a table does not panic while the temporary page is free. -/
theorem ensureTable_total (hi : Inv w) {ent t i : Nat} {is : List Nat} (ht : TempFree w.m)
    (hp : Points ent is i) (hw : Way is) (hf : find next w.m.mem w.m.cr3 is = some t) :
    ∃ ok m', ensureTable w.m ent = some (ok, m') := by
  rw [ensureTable, hi.load_eq hp, hf]
  simp only [Option.map_some, Option.bind_some]
  split
  · obtain ⟨x, m₁, ha⟩ := alloc_total hi ht
    rw [ha]
    rcases alloc_spec hi ha with ⟨rfl, -⟩ | ⟨f, q, rfl, rfl, hh⟩
    · exact ⟨_, _, rfl⟩
    · have hf' : find next (w.hand f q).m.mem (w.hand f q).m.cr3 is = some t :=
        ((hh.sameTables hi).find hi hi.loaded hw).trans hf
      have hst := hh.inv.store_eq (w := w.hand f q) hp (f ||| tableFlags)
      rw [hf'] at hst
      change store { w.m with phys := q } ent (f ||| tableFlags) = _ at hst
      simp only [Option.bind_some, Phys.intoRaw, hst]
      exact ⟨_, _, rfl⟩
  · exact ⟨_, _, rfl⟩

theorem ensureTables_total (hi : Inv w) {virt : Nat} (hv : pml4Index virt < 511)
    (htop : TopReady w virt) (ht : TempFree w.m) :
    ∃ ok m', ensureTables w.m [pml4Entry virt, pml3Entry virt, pml2Entry virt] = some (ok, m') := by
  obtain ⟨ok₁, m₁, h₁⟩ := ensureTable_total hi ht (points_pml4Entry virt)
    (way_left _ _ (way_one hv)) rfl
  obtain ⟨w₁, rfl, hi₁, he₁, hok₁⟩ := ensureTable_spec hi (points_pml4Entry virt) (way_one hv)
    rfl (fun _ => htop) h₁
  rw [ensureTables, h₁, Option.bind_some]
  cases ok₁ with
  | false => exact ⟨_, _, rfl⟩
  | true =>
  obtain ⟨t₃, hf₃⟩ := hok₁ rfl
  have ht₁ := he₁.tempFree hi hi₁ ht
  obtain ⟨ok₂, m₂, h₂⟩ := ensureTable_total hi₁ ht₁ (points_pml3Entry virt)
    (way_left _ _ (way_two hv)) hf₃
  obtain ⟨w₂, rfl, hi₂, he₂, hok₂⟩ := ensureTable_spec hi₁ (points_pml3Entry virt) (way_two hv) hf₃
    (fun hnil => by cases hnil) h₂
  simp only
  rw [ensureTables, h₂, Option.bind_some]
  cases ok₂ with
  | false => exact ⟨_, _, rfl⟩
  | true =>
  obtain ⟨t₂, hf₂⟩ := hok₂ rfl
  have ht₂ := he₂.tempFree hi₁ hi₂ ht₁
  obtain ⟨ok₃, m₃, h₃⟩ := ensureTable_total hi₂ ht₂ (points_pml2Entry virt)
    (way_left _ [pml2Index virt] (way_lastTable hv)) hf₂
  simp only
  rw [ensureTables, h₃, Option.bind_some]
  cases ok₃ with
  | false => exact ⟨_, _, rfl⟩
  | true => exact ⟨_, _, rfl⟩

/-! One last entry. -/

instance (regions : List Phys.PhysRegion) (e : Nat) : Decidable (Maps regions e) :=
  inferInstanceAs (Decidable (_ ∧ _))

/-- The worlds differ in slot `i` of the last level table `t`. -/
structure OneSlot (w w' : World) (t i : Nat) (p : List Nat) : Prop where
  last : w.place t = some p ∧ p.length = 3 ∧ i < 512
  place : w'.place = w.place
  ctxs : w'.ctxs = w.ctxs
  tables : w'.tables = w.tables
  regions : w'.m.phys.regions = w.m.phys.regions
  cr3 : w'.m.cr3 = w.m.cr3
  tempPage : w'.m.tempPage = w.m.tempPage
  mem : ∀ u q j, w.place u = some q → j < 512 → ¬ (u = t ∧ j = i) →
    w'.m.mem (slot u j) = w.m.mem (slot u j)

section oneSlot

variable {t i : Nat} {p : List Nat}

theorem OneSlot.links (h : OneSlot w w' t i p) (u : Nat) (q : List Nat) (j : Nat)
    (hu : w.place u = some q) (hq : q.length < 3) (hj : j < 512) :
    w'.m.mem (slot u j) = w.m.mem (slot u j) := by
  refine h.mem u q j hu hj ?_
  rintro ⟨rfl, rfl⟩
  rw [← Option.some.inj (h.last.1.symm.trans hu), h.last.2.1] at hq
  omega

theorem OneSlot.linked (h : OneSlot w w' t i p) (hi : Inv w) : Linked w'.place w'.m.mem := by
  rw [h.place]
  exact hi.linked.congr h.links

theorem OneSlot.find (h : OneSlot w w' t i p) (hi : Inv w) {r : Nat} {is : List Nat}
    (hr : w.place r = some []) (hw : Way is) : find next w'.m.mem r is = find next w.m.mem r is :=
  hi.linked.placed.find_congr
    (fun u q j hu hwj => h.links u q j hu (way_snoc hwj).1 (way_snoc hwj).2) hr hw

/-- Pages at other indices keep their entries. -/
theorem OneSlot.pageWord_other (h : OneSlot w w' t i p) (hi : Inv w) {r virt : Nat}
    (hr : w.place r = some []) (hv : pml4Index virt < 511)
    (hne : ¬ (lastTable virt = p ∧ pml1Index virt = i)) :
    pageWord w'.m.mem r virt = pageWord w.m.mem r virt := by
  have hlinked : Linked w.place w'.m.mem := h.place ▸ h.linked hi
  refine hi.linked.pageWord_congr hlinked hr hv (h.find hi hr (way_lastTable hv)) ?_
  intro u hu
  refine h.mem u _ _ hu (pml1Index_lt _) ?_
  rintro ⟨rfl, hidx⟩
  exact hne ⟨Option.some.inj (hu.symm.trans h.last.1), hidx⟩

theorem OneSlot.pageWord_self (h : OneSlot w w' t i p) (hi : Inv w) {r virt : Nat}
    (hr : w.place r = some []) (hv : pml4Index virt < 511)
    (hf : Radix.find next w.m.mem r (lastTable virt) = some t) (hidx : pml1Index virt = i) :
    pageWord w'.m.mem r virt = some (w'.m.mem (slot t i)) := by
  have hr' : w'.place r = some [] := by
    rw [h.place]
    exact hr
  rw [(h.linked hi).pageWord_eq hr' hv, h.find hi hr (way_lastTable hv), hf, hidx]
  rfl

theorem OneSlot.zone (h : OneSlot w w' t i p) (hp : half p = .user) {a : Nat}
    (ha : Zone w.place a) : w'.m.mem a = w.m.mem a := by
  obtain ⟨u, q, j, hu, hj, hk, rfl⟩ := ha
  refine h.mem u q j hu hj ?_
  rintro ⟨rfl, rfl⟩
  rw [← Option.some.inj (h.last.1.symm.trans hu)] at hk
  obtain ⟨-, hlen, -⟩ := h.last
  cases p with
  | nil => cases hlen
  | cons k p =>
    rw [show half (k :: p ++ [j]) = half (k :: p) from rfl, hp] at hk
    cases hk

theorem Inv.setLast (hi : Inv w) (h : OneSlot w w' t i p) (hsame : w'.s.p = w'.m.phys)
    (hphys : ∃ free, Phys.Inv w'.s free) (hheld : w'.ctxs.Subperm w'.s.live)
    (honce : w'.slots.Nodup)
    (hother : ∀ u j, ¬ (u = t ∧ j = i) → ((u, j) ∈ w'.slots ↔ (u, j) ∈ w.slots))
    (hself : (t, i) ∈ w'.slots ↔ Maps w.m.phys.regions (w'.m.mem (slot t i)))
    (hbacked : w'.raws.Subperm w'.s.raws) : Inv w' where
  same := hsame
  phys := hphys
  aligned := by
    rw [h.regions]
    exact hi.aligned
  bounded := by
    rw [h.regions]
    exact hi.bounded
  upper := by
    rw [h.tempPage]
    exact hi.upper
  linked := h.linked hi
  loaded := by
    rw [h.place, h.cr3]
    exact hi.loaded
  root := by
    rw [h.place, h.cr3, h.ctxs]
    exact hi.root
  ctx := by
    rw [h.place, h.ctxs]
    exact hi.ctx
  table := by
    rw [h.place, h.tables]
    exact hi.table
  once := honce
  mapped u j := by
    rw [h.place, h.regions]
    by_cases hslot : u = t ∧ j = i
    · obtain ⟨rfl, rfl⟩ := hslot
      rw [hself]
      exact ⟨fun hm => ⟨⟨p, h.last⟩, hm⟩, fun hm => hm.2⟩
    · rw [hother u j hslot, hi.mapped u j]
      refine and_congr_right fun hl => ?_
      obtain ⟨q, hq, -, hj⟩ := hl
      rw [h.mem u q j hq hj hslot]
  held := hheld
  backed := hbacked

end oneSlot

theorem frame_or (e : Nat) {fl : Nat} (h : fl < PAGE_SIZE) : frame (e ||| fl) = frame e := by
  have hdiv : (e ||| fl) / 2 ^ 12 = e / 2 ^ 12 := by
    rw [Nat.or_div_two_pow, Nat.div_eq_of_lt (show fl < 2 ^ 12 from h), Nat.or_zero]
  rw [frame, frame]
  exact congrArg (· * PAGE_SIZE) hdiv

theorem frame_aligned {f : Nat} (h : PAGE_SIZE ∣ f) : frame f = f := Nat.div_mul_cancel h

theorem dvd_frame (e : Nat) : PAGE_SIZE ∣ frame e := Nat.dvd_mul_left _ _

/-- The last table of a page of the current tables. -/
theorem Inv.last (hi : Inv w) {virt t : Nat} (hv : pml4Index virt < 511)
    (hf : find next w.m.mem w.m.cr3 (lastTable virt) = some t) :
    w.place t = some (lastTable virt) ∧ (lastTable virt).length = 3 ∧ pml1Index virt < 512 :=
  ⟨hi.linked.place_last hi.loaded hv hf, rfl, pml1Index_lt _⟩

/-- The entry of the temporary page is as before unless it is the slot. -/
theorem OneSlot.tempFree {t i : Nat} {p : List Nat} (h : OneSlot w w' t i p) (hi : Inv w)
    (ht : TempFree w.m) (hne : ¬ (lastTable w.m.tempPage = p ∧ pml1Index w.m.tempPage = i)) :
    TempFree w'.m := by
  obtain ⟨u, hf, h0⟩ := ht
  have hu := hi.last hi.upper.2 hf
  refine ⟨u, ?_, ?_⟩
  · rw [h.cr3, h.tempPage, h.find hi hi.loaded (way_lastTable hi.upper.2)]
    exact hf
  · rw [h.tempPage, h.mem u _ _ hu.1 hu.2.2]
    · exact h0
    · rintro ⟨rfl, hidx⟩
      exact hne ⟨Option.some.inj (hu.1.symm.trans h.last.1), hidx⟩

theorem Inv.write_oneSlot (hi : Inv w) {t i : Nat} {p : List Nat}
    (hl : w.place t = some p ∧ p.length = 3 ∧ i < 512) (e : Nat) :
    OneSlot w (w.write (slot t i) e) t i p where
  last := hl
  place := rfl
  ctxs := rfl
  tables := rfl
  regions := rfl
  cr3 := rfl
  tempPage := rfl
  mem _ _ _ hu hj hne := hi.write_other hl.1 hl.2.2 hu hj hne e

/-- An entry is set to a frame that a caller gave away. -/
def World.mapTo (w : World) (t i f fl : Nat) : World :=
  { w.write (slot t i) (f ||| fl) with
    s := { (w.write (slot t i) (f ||| fl)).s with live := w.s.live.erase f, raws := f :: w.s.raws }
    slots := if Maps w.m.phys.regions (f ||| fl) then (t, i) :: w.slots else w.slots }

section last

variable {t i : Nat} {p : List Nat}

theorem mapTo_oneSlot (hi : Inv w) (hl : w.place t = some p ∧ p.length = 3 ∧ i < 512) (f fl : Nat) :
    OneSlot w (w.mapTo t i f fl) t i p := by
  have h := hi.write_oneSlot hl (f ||| fl)
  exact ⟨hl, rfl, rfl, rfl, rfl, rfl, rfl, h.mem⟩

theorem Inv.zero_not_mapped (hi : Inv w) (h0 : w.m.mem (slot t i) = 0) : (t, i) ∉ w.slots := by
  intro hm
  exact ((hi.mapped t i).mp hm).2.1 h0

theorem OneSlot.leafFrames (h : OneSlot w w' t i p) (hi : Inv w) {slots : List (Nat × Nat)}
    (hsub : ∀ x ∈ slots, x ∈ w.slots) (hn : (t, i) ∉ slots) :
    leafFrames w'.m.mem slots = leafFrames w.m.mem slots := by
  refine leafFrames_congr fun u j hm => ?_
  obtain ⟨⟨q, hq, -, hj⟩, -⟩ := (hi.mapped u j).mp (hsub _ hm)
  refine h.mem u q j hq hj ?_
  rintro ⟨rfl, rfl⟩
  exact hn hm

theorem Inv.mapTo (hi : Inv w) {f fl : Nat} (hl : w.place t = some p ∧ p.length = 3 ∧ i < 512)
    (h0 : w.m.mem (slot t i) = 0) (hf : Loose w f) (hfl : fl < PAGE_SIZE) :
    Inv (w.mapTo t i f fl) := by
  have h1 := mapTo_oneSlot hi hl f fl
  have hn := hi.zero_not_mapped h0
  have hself : (w.mapTo t i f fl).m.mem (slot t i) = f ||| fl := write_self w _ _
  have hfr : frame (f ||| fl) = f := by
    obtain ⟨free, hphys⟩ := hi.phys
    rw [frame_or f hfl, frame_aligned (hphys.frame f (List.mem_append_left _ hf.mem)).1]
  have hleaf := h1.leafFrames hi (fun x hx => hx) hn
  refine hi.setLast h1 (hi.write_same _ _) ?_ hf.held ?_ ?_ ?_ ?_
  · obtain ⟨free, hphys⟩ := hi.write_phys hl.1 hl.2.2 (f ||| fl)
    exact ⟨free, Phys.inv_intoRaw hphys hf.mem⟩
  · simp only [World.mapTo]
    split
    · exact List.nodup_cons.mpr ⟨hn, hi.once⟩
    · exact hi.once
  · intro u j hne
    simp only [World.mapTo]
    split
    · rw [List.mem_cons, Prod.mk.injEq]
      exact ⟨fun hm => hm.resolve_left hne, .inr⟩
    · rfl
  · rw [hself]
    simp only [World.mapTo]
    split
    · rename_i hm
      exact ⟨fun _ => hm, fun _ => List.mem_cons_self⟩
    · rename_i hm
      exact ⟨fun hx => absurd hx hn, fun hx => absurd hx hm⟩
  · change (w.m.cr3 :: (w.tables ++ Page.leafFrames (w.mapTo t i f fl).m.mem
      (if Maps w.m.phys.regions (f ||| fl) then (t, i) :: w.slots else w.slots))).Subperm
        (f :: w.s.raws)
    split
    · have hperm : (w.m.cr3 :: (w.tables ++ Page.leafFrames (w.mapTo t i f fl).m.mem
          ((t, i) :: w.slots))).Perm (f :: w.raws) := by
        rw [Page.leafFrames, List.map_cons, hself, hfr, ← Page.leafFrames, hleaf]
        exact (List.perm_middle.cons _).trans (List.Perm.swap _ _ _)
      exact hperm.subperm_right.mpr ((List.subperm_cons f).mpr hi.backed)
    · rw [hleaf]
      exact hi.backed.cons_right f

/-- An entry is set to memory outside of the regions. -/
theorem Inv.mapForeign (hi : Inv w) {e : Nat} (hl : w.place t = some p ∧ p.length = 3 ∧ i < 512)
    (hn : (t, i) ∉ w.slots) (he : ¬ Maps w.m.phys.regions e) : Inv (w.write (slot t i) e) := by
  have h1 := hi.write_oneSlot hl e
  refine hi.setLast h1 (hi.write_same _ _) (hi.write_phys hl.1 hl.2.2 e) hi.held hi.once
    (fun _ _ _ => Iff.rfl) ?_ ?_
  · rw [write_self]
    exact ⟨fun hx => absurd hx hn, fun hx => absurd hx he⟩
  · rw [World.raws]
    change (w.m.cr3 :: (w.tables ++ Page.leafFrames (w.write (slot t i) e).m.mem w.slots)).Subperm _
    rw [h1.leafFrames hi (fun x hx => hx) hn]
    exact hi.backed

/-- The flags of an entry change. -/
def World.setEntry (w : World) (t i e : Nat) : World :=
  { w.write (slot t i) e with
    slots := if Maps w.m.phys.regions e then w.slots else w.slots.erase (t, i) }

theorem setEntry_oneSlot (hi : Inv w) (hl : w.place t = some p ∧ p.length = 3 ∧ i < 512) (e : Nat) :
    OneSlot w (w.setEntry t i e) t i p := by
  have h := hi.write_oneSlot hl e
  exact ⟨hl, rfl, rfl, rfl, rfl, rfl, rfl, h.mem⟩

theorem mem_erase_other {slots : List (Nat × Nat)} {u j : Nat} (hne : ¬ (u = t ∧ j = i)) :
    (u, j) ∈ slots.erase (t, i) ↔ (u, j) ∈ slots := by
  refine List.mem_erase_of_ne ?_
  rintro hx
  cases hx
  exact hne ⟨rfl, rfl⟩

theorem Inv.erase_not_mem (hi : Inv w) : (t, i) ∉ w.slots.erase (t, i) :=
  fun hm => ((List.Nodup.mem_erase_iff hi.once).mp hm).1 rfl

/-- The frames of the other slots. -/
theorem raws_erase (hm : (t, i) ∈ w.slots) :
    w.raws.Perm (frame (w.m.mem (slot t i)) ::
      w.m.cr3 :: (w.tables ++ Page.leafFrames w.m.mem (w.slots.erase (t, i)))) := by
  have hperm : (Page.leafFrames w.m.mem w.slots).Perm
      (frame (w.m.mem (slot t i)) :: Page.leafFrames w.m.mem (w.slots.erase (t, i))) :=
    (List.perm_cons_erase hm).map _
  rw [World.raws]
  exact ((hperm.append_left w.tables).trans List.perm_middle).cons _ |>.trans (List.Perm.swap _ _ _)

/-- An entry no longer maps a frame of the allocator; its owner may be lost. -/
theorem Inv.eraseEntry (hi : Inv w) {e : Nat} (hl : w.place t = some p ∧ p.length = 3 ∧ i < 512)
    (hm : ¬ Maps w.m.phys.regions e) : Inv (w.setEntry t i e) := by
  have h1 := setEntry_oneSlot hi hl e
  have hself : (w.setEntry t i e).m.mem (slot t i) = e := write_self w _ _
  have hslots : (w.setEntry t i e).slots = w.slots.erase (t, i) := if_neg hm
  refine hi.setLast h1 (hi.write_same _ _) (hi.write_phys hl.1 hl.2.2 e) hi.held ?_ ?_ ?_ ?_
  · rw [hslots]
    exact hi.once.erase _
  · rw [hslots]
    exact fun _ _ hne => mem_erase_other hne
  · rw [hslots, hself]
    exact ⟨fun hx => absurd hx hi.erase_not_mem, fun hx => absurd hx hm⟩
  · rw [World.raws, hslots,
      h1.leafFrames hi (fun x hx => List.mem_of_mem_erase hx) hi.erase_not_mem]
    have hsub : (Page.leafFrames w.m.mem (w.slots.erase (t, i))).Sublist
        (Page.leafFrames w.m.mem w.slots) := List.erase_sublist.map _
    exact ((hsub.append_left w.tables).cons_cons w.m.cr3).subperm.trans hi.backed

theorem Inv.setEntry (hi : Inv w) {e : Nat} (hl : w.place t = some p ∧ p.length = 3 ∧ i < 512)
    (h0 : w.m.mem (slot t i) ≠ 0) (he : frame e = frame (w.m.mem (slot t i))) :
    Inv (w.setEntry t i e) := by
  by_cases hm : Maps w.m.phys.regions e
  · have h1 := setEntry_oneSlot hi hl e
    have hself : (w.setEntry t i e).m.mem (slot t i) = e := write_self w _ _
    have hslots : (w.setEntry t i e).slots = w.slots := if_pos hm
    have hin : (t, i) ∈ w.slots := (hi.mapped t i).mpr ⟨⟨p, hl⟩, h0, he ▸ hm.2⟩
    refine hi.setLast h1 (hi.write_same _ _) (hi.write_phys hl.1 hl.2.2 e) hi.held ?_ ?_ ?_ ?_
    · rw [hslots]
      exact hi.once
    · rw [hslots]
      exact fun _ _ _ => Iff.rfl
    · rw [hslots, hself]
      exact ⟨fun _ => hm, fun _ => hin⟩
    · have hleaf : Page.leafFrames (w.setEntry t i e).m.mem w.slots =
          Page.leafFrames w.m.mem w.slots := by
        refine List.map_congr_left fun x hx => ?_
        by_cases hslot : x.1 = t ∧ x.2 = i
        · rw [hslot.1, hslot.2, hself, he]
        · obtain ⟨⟨q, hq, -, hj⟩, -⟩ := (hi.mapped x.1 x.2).mp hx
          rw [h1.mem x.1 q x.2 hq hj hslot]
      rw [World.raws, hslots, hleaf]
      exact hi.backed
  · exact hi.eraseEntry hl hm

end last

end Crabos.Page
